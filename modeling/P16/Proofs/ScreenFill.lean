import P16.Proofs.FallThrough
import P16.Proofs.LibraryModules
import P16.Proofs.Routines

/-!
# Filling the screen

The functions `fill` and `clear` of the library's module `dev.display` store one word into every
cell of the screen. Both are the same loop over the cells, and differ in where the word comes from:
`fill` takes it from the stack, `clear` has it in its code.

The loop works for any place of the stack, also when that is on the screen. The return address and
the argument are in registers before the first cell is written.
-/

namespace P16

def OnScreen (a : UInt16) : Prop := 0x8000 ≤ a.toNat ∧ a.toNat < 0x8180

namespace Machine

/-- The memory after the cells of the screen from number `k` on have been overwritten. -/
def painted (w : UInt16) (k : Nat) (memory : UInt16 → UInt16) (a : UInt16) : UInt16 :=
  if 0x8000 + k ≤ a.toNat ∧ a.toNat < 0x8180 then w else memory a

/-- The code that stores `source` into every cell of the screen and jumps back. -/
def paintLines (labels : LoopLabels) (source : Operand) : List Line :=
  [.set (.reg .I) (.lit 0), .label labels.start, .instruction (.basic .ife (.reg .I) (.lit 0x180)),
    .jump labels.stop, .set (.memOffset (.reg .I) (.lit 0x8000)) source,
    .instruction (.basic .add (.reg .I) (.lit 1)), .jump labels.start, .label labels.stop,
    .jumpBack]

theorem painted_end (w : UInt16) (memory : UInt16 → UInt16) : painted w 0x180 memory = memory := by
  funext a
  exact if_neg (by omega)

theorem painted_succ (w : UInt16) {k : Nat} (hk : k < 0x180) (memory : UInt16 → UInt16) :
    painted w (k + 1) (Function.update memory (UInt16.ofNat k + 0x8000) w) =
      painted w k memory := by
  have hcell : (UInt16.ofNat k + 0x8000).toNat = 0x8000 + k := by
    rw [UInt16.toNat_add, UInt16.toNat_ofNat]
    change (k % 0x10000 + 0x8000) % 0x10000 = _
    omega
  funext a
  unfold painted
  by_cases ha : a = UInt16.ofNat k + 0x8000
  · subst ha
    rw [if_neg (by omega), Function.update_self, if_pos (by omega)]
  · have hne : a.toNat ≠ 0x8000 + k := fun h => ha (UInt16.toNat_inj.mp (h.trans hcell.symm))
    rw [Function.update_of_ne ha]
    split <;> split <;> first | rfl | omega

section paint

variable {m : Machine} {i : Nat} {labels : LoopLabels} {source : Operand} {r : Registers}
  {memory : UInt16 → UInt16} {sp w : UInt16}

variable (hnodup : (labelNames m.lines).Nodup) (hadd : ∀ a b, m.compute .add a b = a + b)
  (h : m.Holds i (paintLines labels source))

include h in
theorem paint_holds : m.lines[i]? = some (.set (.reg .I) (.lit 0)) ∧
    m.lines[i + 1]? = some (.label labels.start) ∧
    m.Holds (i + 2) [.instruction (.basic .ife (.reg .I) (.lit 0x180)), .jump labels.stop] ∧
    m.lines[i + 4]? = some (.set (.memOffset (.reg .I) (.lit 0x8000)) source) ∧
    m.lines[i + 5]? = some (.instruction (.basic .add (.reg .I) (.lit 1))) ∧
    m.lines[i + 6]? = some (.jump labels.start) ∧ m.lines[i + 7]? = some (.label labels.stop) ∧
    m.lines[i + 8]? = some .jumpBack := by
  obtain ⟨hzero, h⟩ := holds_cons.mp h
  obtain ⟨hstart, h⟩ := holds_cons.mp h
  obtain ⟨htest, h⟩ := holds_append.mp (show m.Holds _ ([_, _] ++ _) from h)
  obtain ⟨hstore, h⟩ := holds_cons.mp h
  obtain ⟨hcount, h⟩ := holds_cons.mp h
  obtain ⟨hagain, h⟩ := holds_cons.mp h
  obtain ⟨hstop, h⟩ := holds_cons.mp h
  exact ⟨hzero, hstart, htest, hstore, hcount, hagain, hstop, (holds_cons.mp h).1⟩

include h in
theorem step?_paint_test : m.step? ⟨i + 2, r, memory, sp⟩ =
    some ⟨if r .I = 0x180 then i + 3 else i + 4, r, memory, sp⟩ := by
  obtain ⟨-, -, htest, -⟩ := paint_holds h
  refine (step?_guard [] (s := ⟨i + 2, r, memory, sp⟩) htest rfl rfl rfl nofun rfl).trans ?_
  simp only [decide_eq_true_eq]
  rfl

include hnodup hadd h in
theorem reaches_round {k : Nat} (hk : k < 0x180) (hI : r .I = UInt16.ofNat k)
    (hw : m.plain? r source = some w) :
    m.Reaches ⟨i + 1, r, memory, sp⟩
      ⟨i + 1, Function.update r .I (UInt16.ofNat (k + 1)),
        Function.update memory (UInt16.ofNat k + 0x8000) w, sp⟩ := by
  obtain ⟨-, hstart, htest, hstore, hcount, hagain, -, -⟩ := paint_holds h
  set after := Function.update memory (UInt16.ofNat k + 0x8000) w
  have hless : r .I ≠ 0x180 := by
    intro heq
    have hvalue := congrArg UInt16.toNat (hI.symm.trans heq)
    rw [UInt16.toNat_ofNat] at hvalue
    change k % 0x10000 = 0x180 at hvalue
    omega
  have hlabel : m.step? ⟨i + 1, r, memory, sp⟩ = some ⟨i + 2, r, memory, sp⟩ := step?_label hstart
  have htested : m.step? ⟨i + 2, r, memory, sp⟩ = some ⟨i + 4, r, memory, sp⟩ := by
    rw [step?_paint_test h, if_neg hless]
  have hstored : m.step? ⟨i + 4, r, memory, sp⟩ = some ⟨i + 5, r, after, sp⟩ := by
    refine step?_store hstore ?_ hw
    rw [← hI]
    rfl
  have hcounted : m.step? ⟨i + 5, r, after, sp⟩ =
      some ⟨i + 6, Function.update r .I (UInt16.ofNat (k + 1)), after, sp⟩ := by
    have hsum : m.compute .add (r .I) 1 = UInt16.ofNat (k + 1) := by
      rw [hadd, hI, UInt16.ofNat_add]
      rfl
    rw [← hsum]
    exact step?_compute hcount rfl rfl
  have hjumped : m.step? ⟨i + 6, Function.update r .I (UInt16.ofNat (k + 1)), after, sp⟩ =
      some ⟨i + 1, Function.update r .I (UInt16.ofNat (k + 1)), after, sp⟩ := by
    rw [step?_jump hagain, position?_of_nodup hnodup hstart]
    rfl
  exact .head hlabel (.head htested (.head hstored (.head hcounted (.single hjumped))))

include hnodup h in
theorem reaches_back (hI : r .I = 0x180) :
    m.Reaches ⟨i + 1, r, memory, sp⟩ ⟨m.lineAt (r .link), r, memory, sp⟩ := by
  obtain ⟨-, hstart, htest, -, -, -, hstop, hback⟩ := paint_holds h
  obtain ⟨hline, hend⟩ := holds_cons.mp htest
  have hleave := (holds_cons.mp hend).1
  have hlabel : m.step? ⟨i + 1, r, memory, sp⟩ = some ⟨i + 2, r, memory, sp⟩ := step?_label hstart
  have htested : m.step? ⟨i + 2, r, memory, sp⟩ = some ⟨i + 3, r, memory, sp⟩ := by
    rw [step?_paint_test h, if_pos hI]
  have hleft : m.step? ⟨i + 3, r, memory, sp⟩ = some ⟨i + 7, r, memory, sp⟩ := by
    rw [step?_jump hleave, position?_of_nodup hnodup hstop]
    rfl
  have hpassed : m.step? ⟨i + 7, r, memory, sp⟩ = some ⟨i + 8, r, memory, sp⟩ := step?_label hstop
  have hjumped : m.step? ⟨i + 8, r, memory, sp⟩ = some ⟨m.lineAt (r .link), r, memory, sp⟩ :=
    step?_jump_register hback
  exact .head hlabel (.head htested (.head hleft (.head hpassed (.single hjumped))))

variable (hw : ∀ v, m.plain? (Function.update r .I v) source = some w)

include hnodup hadd h hw in
/-- As many rounds as there are cells left. -/
theorem reaches_painted (n : Nat) {k : Nat} (hk : k + n = 0x180) :
    m.Reaches ⟨i + 1, Function.update r .I (UInt16.ofNat k), memory, sp⟩
      ⟨i + 1, Function.update r .I 0x180, painted w k memory, sp⟩ := by
  induction n generalizing k memory with
  | zero =>
      obtain rfl : k = 0x180 := hk
      rw [painted_end]
      exact .refl _
  | succ n ih =>
      have hround := @reaches_round m i labels source
        (Function.update r .I (UInt16.ofNat k)) memory sp w hnodup hadd h k (by omega)
        (Function.update_self ..) (hw _)
      rw [Function.update_idem] at hround
      refine hround.trans ?_
      rw [← painted_succ w (by omega)]
      exact ih (by omega)

include hnodup hadd h hw in
theorem reaches_paint : m.Reaches ⟨i, r, memory, sp⟩
    ⟨m.lineAt (r .link), Function.update r .I 0x180, painted w 0 memory, sp⟩ := by
  obtain ⟨hzero, -⟩ := paint_holds h
  have hset : m.step? ⟨i, r, memory, sp⟩ = some ⟨i + 1, Function.update r .I 0, memory, sp⟩ :=
    step?_set hzero rfl
  have hrounds := @reaches_painted m i labels source r memory sp w hnodup hadd h hw 0x180 0 rfl
  have hback := @reaches_back m i labels source (Function.update r .I 0x180) (painted w 0 memory) sp
    hnodup h (Function.update_self ..)
  rw [Function.update_of_ne (by decide)] at hback
  exact .head hset (hrounds.trans hback)

end paint

section call

variable {m : Machine} {j q : Nat} {r : Registers} {memory : UInt16 → UInt16} {sp w : UInt16}
  {label : String}

theorem reaches_called (hcall : m.lines[j]? = some (.call label))
    (hq : m.position? label = some q) (hcode : m.Holds q [.label label, .pop (.reg .link)]) :
    m.Reaches ⟨j, r, memory, sp⟩ ⟨q + 2, Function.update r .link (m.address (j + 1)),
      Function.update memory (sp - 1) (m.address (j + 1)), sp⟩ := by
  obtain ⟨hlabel, hcode⟩ := holds_cons.mp hcode
  obtain ⟨hpop, -⟩ := holds_cons.mp hcode
  have hjump : m.step? ⟨j, r, memory, sp⟩ =
      some ⟨q, r, Function.update memory (sp - 1) (m.address (j + 1)), sp - 1⟩ := by
    rw [step?_call hcall, hq]
    rfl
  have hpopped := step?_pop (s := ⟨q + 1, r,
    Function.update memory (sp - 1) (m.address (j + 1)), sp - 1⟩) hpop rfl
  dsimp only [State.next, State.jump, State.assign] at hpopped
  rw [Function.update_self, UInt16.sub_add_cancel] at hpopped
  exact .head hjump (.head (step?_label hlabel) (.single hpopped))

end call

/-- The machine comes to the end of the program. By then every cell of the screen holds `w`, the
stack is where it was, and of the other cells none but those in `room` has changed. -/
def FillsScreen (m : Machine) (w : UInt16) (room : List UInt16)
    (s : State UInt16) : Prop :=
  ∃ t, m.Reaches s t ∧ m.HaltsAt t.line ∧ (∀ a, OnScreen a → t.memory a = w) ∧
    (∀ a, ¬ OnScreen a → a ∉ room → t.memory a = s.memory a) ∧ t.sp = s.sp

section programs

theorem program_holds {m : Machine} {call prologue body : List Line}
    (h : m.lines = call ++ (Program.haltLines ++ (prologue ++ body))) :
    m.Holds 0 call ∧ m.Holds (0 + call.length) Program.haltLines ∧
      m.Holds (0 + call.length + Program.haltLines.length) prologue ∧
      m.Holds (0 + call.length + Program.haltLines.length + prologue.length) body := by
  have hcode : m.Holds 0 m.lines := List.prefix_rfl
  rw [h] at hcode
  obtain ⟨hcall, hcode⟩ := holds_append.mp hcode
  obtain ⟨hhalt, hcode⟩ := holds_append.mp hcode
  obtain ⟨hprologue, hbody⟩ := holds_append.mp hcode
  exact ⟨hcall, hhalt, hprologue, hbody⟩

variable {m : Machine} {f : FunctionSymbol} {labels : LoopLabels} {source : Operand}
  {room : List UInt16} {s : State UInt16} {w : UInt16} (hnodup : (labelNames m.lines).Nodup)
  (hadd : ∀ a b, m.compute .add a b = a + b)
include hnodup hadd

theorem fillsScreen_of_reaches {i j : Nat} {r : Registers} {memory : UInt16 → UInt16}
    (hpaint : m.Holds i (paintLines labels source)) (hhalt : m.Holds j Program.haltLines)
    (hrun : m.Reaches s ⟨i, r, memory, s.sp⟩) (hback : m.lineAt (r .link) = j)
    (hw : ∀ v, m.plain? (Function.update r .I v) source = some w)
    (hroom : ∀ a ∉ room, memory a = s.memory a) : FillsScreen m w room s := by
  have hpainted := @reaches_paint m i labels source r memory s.sp w hnodup hadd hpaint hw
  rw [hback] at hpainted
  have hhalted := reaches_halt (s := ⟨j, r, painted w 0 memory, s.sp⟩)
    (r := Function.update r .I 0x180) hnodup hhalt
  refine ⟨_, hrun.trans (hpainted.trans hhalted),
    haltsAt_of_holds hnodup hhalt, fun a ha => if_pos ha, fun a ha hout => ?_, rfl⟩
  exact (if_neg ha).trans (hroom a hout)

theorem fillsScreen_of_argument {a : Operand} (hf : f.arity = 1)
    (hlines : m.lines = callLines false f.label [a] [] ++
      (Program.haltLines ++ (f.prologueLines ++ paintLines labels (.reg .A))))
    (hs : s.line = 0) (ha : m.plain? s.registers a = some w) :
    FillsScreen m w [s.sp - 1, s.sp - 1 - 1] s := by
  obtain ⟨hcall, hhalt, hprologue, hpaint⟩ := program_holds hlines
  have hshape : f.prologueLines = [.label f.label, .pop (.reg .link)] ++ [.pop (.reg .A)] := by
    simp [FunctionSymbol.prologueLines, hf, Register.arguments]
  rw [hshape] at hprologue hpaint
  obtain ⟨hentry, htake⟩ := holds_append.mp hprologue
  obtain ⟨hpush, hjump⟩ := holds_cons.mp hcall
  have hjump := (holds_cons.mp hjump).1
  have hlabel := position?_of_nodup hnodup (holds_cons.mp hentry).1
  obtain ⟨line, r, memory, sp⟩ := s
  obtain rfl : line = 0 := hs
  -- the word lies above the address, and is the first to be written
  have hpushed : m.step? ⟨0, r, memory, sp⟩ =
      some ⟨1, r, Function.update memory (sp - 1) w, sp - 1⟩ := step?_push hpush ha
  have hcalled := @reaches_called m 1 _ r (Function.update memory (sp - 1) w) (sp - 1) _
    hjump hlabel hentry
  have hapart : sp - 1 ≠ sp - 1 - 1 := by grind
  have htaken := step?_pop (s := ⟨_, Function.update r .link (m.address 2),
    Function.update (Function.update memory (sp - 1) w) (sp - 1 - 1) (m.address 2), sp - 1⟩)
    (holds_cons.mp htake).1 rfl
  dsimp only [State.next, State.jump, State.assign] at htaken
  rw [Function.update_of_ne hapart, Function.update_self, UInt16.sub_add_cancel] at htaken
  refine fillsScreen_of_reaches hnodup hadd hpaint hhalt
    (.head hpushed (hcalled.trans (.single htaken))) ?_ ?_ ?_
  · rw [Function.update_of_ne (by decide), Function.update_self]
    exact m.lineAt_address 1 _ hjump
  · intro v
    simp [plain?]
  · intro a ha
    simp only [List.mem_cons, List.not_mem_nil, or_false, not_or] at ha
    rw [Function.update_of_ne ha.2, Function.update_of_ne ha.1]

theorem fillsScreen_of_literal (hf : f.arity = 0)
    (hlines : m.lines = callLines false f.label [] [] ++
      (Program.haltLines ++ (f.prologueLines ++ paintLines labels (.lit w))))
    (hs : s.line = 0) : FillsScreen m w [s.sp - 1] s := by
  obtain ⟨hcall, hhalt, hprologue, hpaint⟩ := program_holds hlines
  have hshape : f.prologueLines = [.label f.label, .pop (.reg .link)] := by
    simp [FunctionSymbol.prologueLines, hf]
  rw [hshape] at hprologue hpaint
  have hjump := (holds_cons.mp hcall).1
  have hlabel := position?_of_nodup hnodup (holds_cons.mp hprologue).1
  have hrun := @reaches_called m 0 _ s.registers s.memory s.sp _ hjump hlabel hprologue
  obtain ⟨line, registers, memory, sp⟩ := s
  obtain rfl : line = 0 := hs
  refine fillsScreen_of_reaches hnodup hadd hpaint hhalt hrun ?_ (fun _ => rfl) ?_
  · rw [Function.update_self]
    exact m.lineAt_address 0 _ hjump
  · intro a ha
    rw [List.mem_singleton] at ha
    exact Function.update_of_ne ha ..

end programs

end Machine

namespace Library

open Machine (paintLines)

def display : Entry := ⟨["dev", "display"], ["dev", "display.p16"], moduleOf displaySource⟩

def displaySymbol (name : String) (params : List String) : FunctionSymbol :=
  .routine (ModulePath.mangle ⟨["dev", "display"]⟩ name) params

/-- `dev.display.name(args)` -/
def displayStatement (name : String) (args : List Expr) : Stmt :=
  .expr (.call (.member (.member (.name ⟨"dev", default⟩) ⟨"display", default⟩ default)
    ⟨name, default⟩ default) args [] default) default

def displayLines (name : String) (params : List String) (source : Operand) : List Line :=
  (displaySymbol name params).prologueLines ++
    paintLines (.numbered ⟨["dev", "display"]⟩ 1) source

theorem display_checked : (parseModule displaySource).toOption.isSome = true ∧ display.Ready ∧
    display.imported.Offers display.enter ⟨⟨["dev", "display"]⟩, "fill"⟩
      (displaySymbol "fill" ["cell"]).label 1 0
      (Program.haltLines ++ displayLines "fill" ["cell"] (.reg .A)) ∧
    display.imported.Offers display.enter ⟨⟨["dev", "display"]⟩, "clear"⟩
      (displaySymbol "clear" []).label 0 0
      (Program.haltLines ++ displayLines "clear" [] (.lit 0)) := by
  unfold display moduleOf
  rw [parseModule_eq_parseText displaySource, displaySource, toList_unlines]
  decide +kernel

theorem display_found : display.Found := by
  refine Entry.found_of_lookup ?_ ?_ ?_ ?_ (parseModule_eq_moduleOf display_checked.1)
  · with_unfolding_all rfl
  · with_unfolding_all rfl
  · with_unfolding_all rfl
  · with_unfolding_all rfl

theorem calls_displayStatement (name : String) {args : List Expr} {operands : List Operand}
    (h : List.Forall₂ Expr.StandsFor args operands) :
    (displayStatement name args).Calls ⟨⟨["dev", "display"]⟩, name⟩ operands [] :=
  .expr (.call rfl h)

theorem labels_displayLines :
    (labelNames (Program.haltLines ++ displayLines "fill" ["cell"] (.reg .A))).Nodup ∧
    (labelNames (Program.haltLines ++ displayLines "clear" [] (.lit 0))).Nodup := by
  decide +kernel

end Library

open Library Machine in
/-- A program that imports `dev.display` and calls `fill` or `clear` overwrites the screen. The
words that go through the stack are left below it. -/
theorem display_functions_fill_screen (roots : List SearchRoot) (tree : SourceTree)
    (file? : Option String) (source : String) :
    (∀ (e : Expr) (a : Operand), e.StandsFor a →
      ReadAs source [.importing ["dev", "display"], displayStatement "fill" [e]] →
      CompilesInto (.bundled (.library :: roots) tree) file? source fun m =>
        (∀ x y, m.compute .add x y = x + y) → ∀ s : Machine.State UInt16, s.line = 0 →
          ∀ w, m.plain? s.registers a = some w → FillsScreen m w [s.sp - 1, s.sp - 2] s) ∧
    (ReadAs source [.importing ["dev", "display"], displayStatement "clear" []] →
      CompilesInto (.bundled (.library :: roots) tree) file? source fun m =>
        (∀ x y, m.compute .add x y = x + y) → ∀ s : Machine.State UInt16, s.line = 0 →
          FillsScreen m 0 [s.sp - 1] s) := by
  obtain ⟨hlabels, hlabels'⟩ := labels_displayLines
  obtain ⟨-, hready, hfill, hclear⟩ := display_checked
  constructor
  · intro e a ha hsource
    have hcalls := calls_displayStatement "fill" (.cons ha .nil)
    obtain ⟨c, hc, hdiagnostics, hlines⟩ := Entry.compileSource_call display_found hready
      (by exact hfill) hsource hcalls roots tree file?
    refine ⟨c, hc, hdiagnostics, fun m hm hadd s hs w hw => ?_⟩
    rw [hlines] at hm
    have hnodup := Machine.nodup_labelNames_of_call hm hlabels
    rw [show s.sp - 2 = s.sp - 1 - 1 by grind]
    exact fillsScreen_of_argument hnodup hadd rfl hm hs hw
  · intro hsource
    have hcalls := calls_displayStatement "clear" .nil
    obtain ⟨c, hc, hdiagnostics, hlines⟩ := Entry.compileSource_call display_found hready
      (by exact hclear) hsource hcalls roots tree file?
    refine ⟨c, hc, hdiagnostics, fun m hm hadd s hs => ?_⟩
    rw [hlines] at hm
    have hnodup := Machine.nodup_labelNames_of_call hm hlabels'
    exact fillsScreen_of_literal hnodup hadd rfl hm hs

open Library Machine in
/-- With the top of the stack at address 0, so that words go to the end of the memory. -/
theorem display_functions_fill_screen_literal :
    (∃ c, compileSource (.bundled [.library] (.empty [])) none
        "import dev.display\ndev.display.fill(0xf05)\n" = .ok c ∧
      ∃ m : Machine, m.lines = c.program.lines ∧
        FillsScreen m 0xf05 [0xffff, 0xfffe] ⟨0, fun _ => 7, fun a => a, 0⟩) ∧
    ∃ c, compileSource (.bundled [.library] (.empty [])) none
        "import dev.display\ndev.display.clear()\n" = .ok c ∧
      ∃ m : Machine, m.lines = c.program.lines ∧
        FillsScreen m 0 [0xffff] ⟨0, fun _ => 7, fun a => a, 0⟩ := by
  obtain ⟨-, hready, hfill, hclear⟩ := display_checked
  constructor
  · have hread : ReadAs "import dev.display\ndev.display.fill(0xf05)\n"
        [.importing ["dev", "display"], displayStatement "fill" [.number 0xf05 default]] :=
      .of_render (by decide +kernel) (by decide +kernel)
    have hword : (Expr.number 0xf05 default).StandsFor (.lit 0xf05) := .literal (by decide)
    obtain ⟨c, hc, -, hlines⟩ := Entry.compileSource_call display_found hready (by exact hfill)
      hread (calls_displayStatement "fill" (.cons hword .nil)) [] (.empty []) none
    have hsmall : (imageUpTo c.program.lines c.program.lines.length).length < 0x10000 := by
      rw [hlines]
      decide +kernel
    have hfills := (display_functions_fill_screen [] (.empty []) none _).1 _ _ hword hread
    exact ⟨c, hc, _, rfl,
      hfills.ofLines hc hsmall (fun _ x y => x + y) (fun _ _ => rfl) _ rfl _ rfl⟩
  · have hread : ReadAs "import dev.display\ndev.display.clear()\n"
        [.importing ["dev", "display"], displayStatement "clear" []] :=
      .of_render (by decide +kernel) (by decide +kernel)
    obtain ⟨c, hc, -, hlines⟩ := Entry.compileSource_call display_found hready (by exact hclear)
      hread (calls_displayStatement "clear" .nil) [] (.empty []) none
    have hsmall : (imageUpTo c.program.lines c.program.lines.length).length < 0x10000 := by
      rw [hlines]
      decide +kernel
    have hfills := (display_functions_fill_screen [] (.empty []) none _).2 hread
    exact ⟨c, hc, _, rfl, hfills.ofLines hc hsmall (fun _ x y => x + y) (fun _ _ => rfl) _ rfl⟩

end P16
