import Mathlib.Data.List.Nodup
import P16.Proofs.Actions
import P16.Proofs.LabelNames
import P16.Proofs.Structured

/-!
# The code of structured blocks

`Code c loops n stmts code n'` says which lines a block becomes inside `loops` when `n` loops have
been numbered before it and `n'` after it, with names as in `c`. A block that is lowered without a
diagnostic becomes its code.
-/

namespace P16

namespace Compilation

/-- How many loops have been numbered. -/
def loopCount (c : Compilation) : Nat := (c.program.counters.find? "loop").getD 0

/-- Names stand for the same in both compilations. -/
def SameNames (c c' : Compilation) : Prop :=
  c'.store = c.store ∧ c'.scope.aliases = c.scope.aliases

theorem SameNames.refl (c : Compilation) : SameNames c c := ⟨rfl, rfl⟩

theorem SameNames.trans {c c' c'' : Compilation} (h : SameNames c c') (g : SameNames c' c'') :
    SameNames c c'' := ⟨g.1.trans h.1, g.2.trans h.2⟩

section SameNames

variable {c c' : Compilation} (h : SameNames c c')
include h

theorem SameNames.registerNamed? : c'.registerNamed? = c.registerNamed? := by
  funext name
  simp only [Compilation.registerNamed?, h.2]

theorem SameNames.target (e : Expr) : c'.target e = c.target e := by
  cases e <;> simp only [Compilation.target, h.registerNamed?]

theorem SameNames.operand (e : Expr) : c'.operand e = c.operand e := by
  cases e <;>
    simp only [Compilation.operand, h.registerNamed?, namedConstant, qualifiedConstant, h.1]

theorem SameNames.loopTest (e : Expr) : c'.loopTest e = c.loopTest e := by
  unfold Compilation.loopTest
  simp only [h.operand]

end SameNames

section openLoop

variable (c : Compilation) (test : LoopTest)

theorem nextLoop_eq : c.nextLoop = loopNumber (c.loopCount + 1) := rfl

theorem openLoop_program :
    (c.openLoop test).program = (c.program.nextCounter "loop").2.writeAll
      (test.headerLines (.numbered c.store.current c.nextLoop)
        (c.store.current.mangle (loopName c.nextLoop "body"))) :=
  test.header_eq _ _ _

theorem everyLine_openLoop :
    (c.openLoop test).program.everyLine.Perm (c.program.everyLine ++
      test.headerLines (.numbered c.store.current c.nextLoop)
        (c.store.current.mangle (loopName c.nextLoop "body"))) := by
  rw [openLoop_program]
  exact Program.everyLine_writeAll _ _

theorem openLoop_loopCount : (c.openLoop test).loopCount = c.loopCount + 1 := by
  unfold loopCount
  rw [openLoop_program, Program.counters_writeAll]
  simp [Program.nextCounter]

theorem openLoop_active : (c.openLoop test).program.active = c.program.active := by
  rw [openLoop_program, Program.active_writeAll]
  rfl

theorem closeLoop_program (path : ModulePath) (n : Nat) :
    (c.closeLoop path n).program =
      c.program.writeAll (LoopLabels.numbered path n).footerLines := rfl

theorem everyLine_closeLoop (path : ModulePath) (n : Nat) :
    (c.closeLoop path n).program.everyLine.Perm
      (c.program.everyLine ++ (LoopLabels.numbered path n).footerLines) := by
  rw [closeLoop_program]
  exact c.program.everyLine_writeAll _

theorem closeLoop_loopCount (path : ModulePath) (n : Nat) :
    (c.closeLoop path n).loopCount = c.loopCount := by
  unfold loopCount
  rw [closeLoop_program, Program.counters_writeAll]

theorem closeLoop_active (path : ModulePath) (n : Nat) :
    (c.closeLoop path n).program.active = c.program.active := by
  rw [closeLoop_program, Program.active_writeAll]

end openLoop

end Compilation

section Code

variable (c : Compilation)

inductive Code : List LoopLabels → Nat → List Stmt → List Line → Nat → Prop where
  | nil {loops : List LoopLabels} {n : Nat} : Code loops n [] [] n
  | assign {loops : List LoopLabels} {n n' : Nat} {target value : Expr} {span : Span}
      {rest : List Stmt} {code : List Line} {x : Register} {a : Operand}
      (hx : c.target target = .ok x) (ha : c.operand value = .ok a)
      (h : Code loops n rest code n') :
      Code loops n (.assign [target] value span :: rest) (.set (.reg x) a :: code) n'
  | augAssign {loops : List LoopLabels} {n n' : Nat} {target value : Expr} {op : BinaryOp}
      {span : Span} {rest : List Stmt} {code : List Line} {opcode : BasicOpcode} {x : Register}
      {a : Operand} (hop : LowerM.augmentedOpcode? op = some opcode)
      (hx : c.target target = .ok x) (ha : c.operand value = .ok a)
      (h : Code loops n rest code n') :
      Code loops n (.augAssign target op value span :: rest)
        (.instruction (.basic opcode (.reg x) a) :: code) n'
  | whileLoop {loops : List LoopLabels} {n n₁ n' : Nat} {e : Expr} {body rest : List Stmt}
      {span : Span} {inner code : List Line} {test : LoopTest} (ht : c.loopTest e = .ok test)
      (hb : Code (.numbered c.store.current (loopNumber (n + 1)) :: loops) (n + 1) body inner n₁)
      (h : Code loops n₁ rest code n') :
      Code loops n (.whileLoop e body span :: rest)
        (test.headerLines (.numbered c.store.current (loopNumber (n + 1)))
          (c.store.current.mangle (loopName (loopNumber (n + 1)) "body")) ++
          (inner ++ ((LoopLabels.numbered c.store.current (loopNumber (n + 1))).footerLines ++
            code))) n'
  | breakLoop {labels : LoopLabels} {loops : List LoopLabels} {n n' : Nat} {span : Span}
      {rest : List Stmt} {code : List Line} (h : Code (labels :: loops) n rest code n') :
      Code (labels :: loops) n (.breakLoop span :: rest) (.jump labels.stop :: code) n'
  | continueLoop {labels : LoopLabels} {loops : List LoopLabels} {n n' : Nat} {span : Span}
      {rest : List Stmt} {code : List Line} (h : Code (labels :: loops) n rest code n') :
      Code (labels :: loops) n (.continueLoop span :: rest) (.jump labels.start :: code) n'
  | pass {loops : List LoopLabels} {n n' : Nat} {span : Span} {rest : List Stmt}
      {code : List Line} (h : Code loops n rest code n') :
      Code loops n (.pass span :: rest) code n'
  | text {loops : List LoopLabels} {n n' : Nat} {s : String} {place span : Span}
      {rest : List Stmt} {code : List Line} (h : Code loops n rest code n') :
      Code loops n (.expr (.text s place) span :: rest) code n'

variable {c} {loops : List LoopLabels} {n n' : Nat} {stmts : List Stmt} {code : List Line}

theorem LoopTest.labelNames_headerLines (test : LoopTest) (path : ModulePath) (n : Nat) :
    labelNames (test.headerLines (.numbered path n) (path.mangle (loopName n "body"))) =
      (if test.op = .ifg then ["start", "body"] else ["start"]).map
        fun part => path.mangle (loopName n part) := by
  unfold headerLines
  split <;> rfl

theorem Code.marks (h : Code c loops n stmts code n') :
    n ≤ n' ∧ ∃ marks : List (Nat × String),
      labelNames code = marks.map (loopLabel c.store.current) ∧ marks.Nodup ∧
        ∀ mark ∈ marks, n < mark.1 ∧ mark.1 ≤ n' := by
  induction h with
  | nil => exact ⟨le_rfl, [], rfl, .nil, by simp⟩
  | assign _ _ _ ih => exact ih
  | augAssign _ _ _ _ ih => exact ih
  | @whileLoop _ n n₁ n' _ _ _ _ _ _ test _ _ _ ihb ih =>
      obtain ⟨hle, inner, hinner, hnodup, hnumbers⟩ := ihb
      obtain ⟨hle', rest, hrest, hnodup', hnumbers'⟩ := ih
      let header := (if test.op = .ifg then ["start", "body"] else ["start"]).map (n + 1, ·)
      have hheader : ∀ mark ∈ header, mark.1 = n + 1 ∧ mark ≠ (n + 1, "end") := by
        unfold header
        split <;> simp
      have hdistinct : header.Nodup := by
        unfold header
        split <;> simp
      refine ⟨by omega, header ++ (inner ++ (n + 1, "end") :: rest), ?_, ?_, ?_⟩
      · simp only [labelNames_append, LoopTest.labelNames_headerLines, hinner, hrest,
          List.map_append, List.map_cons, List.map_map, header]
        rfl
      · refine List.nodup_append.mpr ⟨hdistinct, List.nodup_append.mpr ⟨hnodup,
          List.nodup_cons.mpr ⟨fun h => ?_, hnodup'⟩, ?_⟩, ?_⟩
        · have := hnumbers' _ h
          omega
        · rintro mark hmark _ (⟨⟩ | ⟨_, hother⟩) rfl
          · have := hnumbers _ hmark
            omega
          · have := hnumbers _ hmark
            have := hnumbers' _ hother
            omega
        · rintro mark hmark _ hother rfl
          obtain ⟨hown, hne⟩ := hheader _ hmark
          rcases List.mem_append.mp hother with hother | ⟨⟩ | ⟨_, hother⟩
          · have := hnumbers _ hother
            omega
          · exact hne rfl
          · have := hnumbers' _ hother
            omega
      · intro mark hmark
        rcases List.mem_append.mp hmark with h | h
        · have := (hheader _ h).1
          omega
        rcases List.mem_append.mp h with h | ⟨⟩ | ⟨_, h⟩
        · have := hnumbers _ h
          omega
        · simp only
          omega
        · have := hnumbers' _ h
          omega
  | breakLoop _ ih => exact ih
  | continueLoop _ ih => exact ih
  | pass _ ih => exact ih
  | text _ ih => exact ih

section few

variable {first : Nat} (h : Code c loops n stmts code n') (hfirst : first ≤ n)
  (hfew : n' ≤ first + 0x100000000)
include h hfirst hfew

theorem Code.nodup : (labelNames code).Nodup := by
  obtain ⟨-, marks, hmarks, hnodup, hnumbers⟩ := h.marks
  rw [hmarks]
  refine hnodup.map_on fun mark hmark other hother heq => ?_
  obtain ⟨hm, hm'⟩ := hnumbers mark hmark
  obtain ⟨ho, ho'⟩ := hnumbers other hother
  exact loopLabel_inj (hfirst.trans_lt hm) (hfirst.trans_lt ho) (hm'.trans hfew) (ho'.trans hfew)
    heq

end few

end Code

/-- Lowering `stmts` has led from `c` to `c'`; if it has found no fault, it has written the code. -/
structure Becomes (names : Compilation) (stmts : List Stmt) (c c' : Compilation) : Prop where
  store : c'.store = c.store
  scope : c'.scope = c.scope
  diagnostics : c.diagnostics.size ≤ c'.diagnostics.size
  code : c'.diagnostics.size = c.diagnostics.size → ∃ code,
    Code names c.scope.loops c.loopCount stmts code c'.loopCount ∧
      c'.program.written = c.program.written ++ code ∧ c'.program.active = c.program.active

namespace Becomes

variable {names c c₁ c' : Compilation} {s : Stmt} {rest : List Stmt}

end Becomes

namespace LowerM

section block

variable (env : Environment) (enter : Enter)

end block

end LowerM

end P16
