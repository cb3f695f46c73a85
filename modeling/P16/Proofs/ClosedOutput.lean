import P16.Proofs.Frames

/-!
# Programs refer to their own labels only

Every label that occurs as an operand in a compiled program is a label line of the program, also
when there have been errors. A jump to the end of a loop is written before the end itself, and a
call may be written while the body of the function is being written, so the invariant counts the
ends of open loops as written, and looks at all lines, wherever they are kept.
-/

namespace P16

open Compilation

namespace Compilation

variable {c : Compilation} {label : String}

/-- A label for which some constant stands. -/
def KnowsLabel (c : Compilation) (label : String) : Prop :=
  ∃ path name, c.store.lookup? path name = some (.constant (.label label))

theorem knowsLabel_of_constantIn? {path : ModulePath} {name : String}
    (h : c.store.constantIn? path name = some (.label label)) : c.KnowsLabel label := by
  obtain ⟨symbol, hs, hc⟩ := Option.bind_eq_some_iff.mp h
  cases symbol <;> cases hc
  exact ⟨path, name, hs⟩

theorem knowsLabel_of_operand {e : Expr} {a : Operand} (h : c.operand e = .ok a)
    (hl : label ∈ a.labels) : c.KnowsLabel label := by
  cases resolves_of_operand h with
  | literal _ => cases hl
  | negative _ => cases hl
  | register _ => cases hl
  | named _ hv ha =>
      cases Value.labels_operand? ha hl
      exact knowsLabel_of_constantIn? hv
  | qualified _ hv ha =>
      cases Value.labels_operand? ha hl
      exact knowsLabel_of_constantIn? hv

theorem knowsLabel_of_operands {es : List Expr} {operands : List Operand}
    (h : es.mapM c.operand = .ok operands) (hl : label ∈ operands.flatMap Operand.labels) :
    c.KnowsLabel label := by
  obtain ⟨a, ha, hl⟩ := List.mem_flatMap.mp hl
  obtain ⟨e, he⟩ := exists_of_mem_mapM h ha
  exact knowsLabel_of_operand he hl

theorem labels_addressSum {span : Span} {x y a : Operand} (h : addressSum span x y = .ok a)
    (hl : label ∈ a.labels) : label ∈ x.labels ∨ label ∈ y.labels := by
  unfold addressSum at h
  split at h
  · cases h
  · dsimp only at h
    split at h <;> cases h
    cases hl
  · cases h
    exact .inl hl
  · cases h
    exact List.mem_append.mp hl

theorem knowsLabel_of_address {e : Expr} {a : Operand} (h : c.address e = .ok a)
    (hl : label ∈ a.labels) : c.KnowsLabel label := by
  unfold address at h
  split at h
  · split at h
    · obtain ⟨x, hx, h⟩ := exists_of_bind_eq_ok h
      obtain ⟨y, hy, h⟩ := exists_of_bind_eq_ok h
      exact (labels_addressSum h hl).elim (knowsLabel_of_operand hx) (knowsLabel_of_operand hy)
    · cases h
  · obtain ⟨x, hx, h⟩ := exists_of_bind_eq_ok h
    cases h
    exact knowsLabel_of_operand hx hl

theorem knowsLabel_of_loopTest {e : Expr} {test : LoopTest} (h : c.loopTest e = .ok test)
    (hl : label ∈ test.left.labels ++ test.right.labels) : c.KnowsLabel label := by
  obtain ⟨left, op, right, span, x, y, rfl, hx, hy, htest⟩ := operands_of_loopTest h
  have hlabels : label ∈ x.labels ∨ label ∈ y.labels := by
    rw [List.mem_append] at hl
    cases op <;> cases htest
    · exact hl
    · exact hl
    · exact hl.symm
    · exact hl
  exact hlabels.elim (knowsLabel_of_operand hx) (knowsLabel_of_operand hy)

theorem knowsLabel_of_value {e : Expr} (h : c.value e = .ok (.label label)) :
    c.KnowsLabel label := by
  cases e with
  | name ident =>
      simp only [value] at h
      split at h
      · cases h
      · exact knowsLabel_of_constantIn? (constant?_of_namedConstant h)
  | member value attr span =>
      simp only [Compilation.value] at h
      obtain ⟨path, name, -, hv⟩ := constantIn?_of_qualifiedConstant h
      exact knowsLabel_of_constantIn? hv
  | unary op inner span =>
      cases op with
      | neg => cases inner <;> simp [value] at h
      | _ => simp [value] at h
  | tuple items span =>
      simp only [value] at h
      obtain ⟨vs, -, h⟩ := exists_of_bind_eq_ok h
      cases h
  | list items span =>
      simp only [value] at h
      obtain ⟨vs, -, h⟩ := exists_of_bind_eq_ok h
      cases h
  | dict entries span =>
      simp only [value] at h
      obtain ⟨vs, -, h⟩ := exists_of_bind_eq_ok h
      cases h
  | _ => simp [value] at h

theorem knowsLabel_of_values {es : List Expr} {vs : List Value} (h : c.values es = .ok vs)
    (hl : .label label ∈ vs) : c.KnowsLabel label := by
  induction es generalizing vs with
  | nil =>
      simp only [values] at h
      cases h
      cases hl
  | cons e es ih =>
      simp only [values] at h
      obtain ⟨v, hv, h⟩ := exists_of_bind_eq_ok h
      obtain ⟨rest, hrest, h⟩ := exists_of_bind_eq_ok h
      cases h
      rcases List.mem_cons.mp hl with rfl | hl
      · exact knowsLabel_of_value hv
      · exact ih hrest hl

theorem knowsLabel_of_keywordValues {named : List (Keyword Expr)}
    {table keywords : Table String Value} {name : String}
    (h : c.keywordValues table named = .ok keywords)
    (hl : keywords.find? name = some (.label label)) :
    table.find? name = some (.label label) ∨ c.KnowsLabel label := by
  induction named generalizing table with
  | nil =>
      cases h
      exact .inl hl
  | cons k rest ih =>
      obtain ⟨v, hv, h⟩ := exists_of_bind_eq_ok h
      rcases ih h with hf | hk
      · rw [Table.find?_insert] at hf
        split at hf
        · cases hf
          exact .inr (knowsLabel_of_value hv)
        · exact .inl hf
      · exact .inr hk

theorem knowsLabel_of_gives {args : List Expr} {named : List (Keyword Expr)}
    {positional : List Value} {keywords : Table String Value}
    (hp : c.values args = .ok positional) (hk : c.keywordValues .empty named = .ok keywords)
    (hl : CallArguments.Gives ⟨positional, keywords⟩ label) : c.KnowsLabel label := by
  obtain ⟨place, name, hf⟩ := hl
  rw [CallArguments.find?, Option.orElse_eq_orElse, Option.orElse_eq_or,
    Option.or_eq_some_iff] at hf
  rcases hf with hf | ⟨-, hf⟩
  · exact knowsLabel_of_values hp (List.mem_of_getElem? hf)
  · rcases knowsLabel_of_keywordValues hk hf with hf | hknown
    · cases hf
    · exact hknown

end Compilation

section labelOperands

theorem labelOperands_subset {lines lines' : List Line} (h : lines ⊆ lines') :
    labelOperands lines ⊆ labelOperands lines' := by
  intro name hname
  rw [mem_labelOperands] at hname ⊢
  obtain ⟨line, hline, ha⟩ := hname
  exact ⟨line, h hline, ha⟩

theorem labelOperands_subset_of_perm {lines lines' new held : List Line} {labels : List String}
    (hperm : lines'.Perm (lines ++ new)) (h : labelOperands (lines ++ held) ⊆ labels)
    (hn : labelOperands new ⊆ labels) : labelOperands (lines' ++ held) ⊆ labels := by
  intro name hname
  rw [labelOperands_append, List.append_subset] at h
  have hmem := labelOperands_subset (hperm.append_right held).subset hname
  simp only [labelOperands_append, List.mem_append] at hmem
  rcases hmem with (hmem | hmem) | hmem
  · exact h.1 hmem
  · exact hn hmem
  · exact h.2 hmem

theorem labelOperands_pushes (operands : List Operand) :
    labelOperands (operands.map .push) = operands.flatMap Operand.labels := by
  simp [labelOperands, List.flatMap_map, Line.push, Line.set, Line.operands, Instruction.operands,
    Operand.labels]

theorem labelOperands_pops (registers : List Register) :
    labelOperands (registers.map fun x => .pop (.reg x)) = [] := by
  simp [labelOperands, Line.pop, Line.set, Line.operands, Instruction.operands, Operand.labels]

theorem labelOperands_giveBackLines (operands : List Operand) :
    labelOperands (giveBackLines operands) = operands.flatMap Operand.labels := by
  rw [giveBackLines, labelOperands_append, labelOperands_pushes]
  exact List.append_nil _

theorem labelOperands_callLines (nested : Bool) (name : String) (arguments : List Operand)
    (results : List Register) :
    labelOperands (callLines nested name arguments results) =
      arguments.flatMap Operand.labels ++ [name] := by
  have henter : labelOperands (enterLines nested arguments) = arguments.flatMap Operand.labels := by
    rw [enterLines, labelOperands_append, labelOperands_pushes]
    cases nested <;> rfl
  have hleave : labelOperands (leaveLines nested results) = [] := by
    rw [leaveLines, labelOperands_append, labelOperands_pops]
    cases nested <;> rfl
  rw [callLines, labelOperands_append, henter]
  exact congrArg (fun rest => _ ++ name :: rest) hleave

theorem labelOperands_prologueLines (f : FunctionSymbol) :
    labelOperands f.prologueLines = [] :=
  labelOperands_pops (Register.arguments.take f.arity).reverse

/-- The lines before the body of a loop use the operands of its test, its end and their own
labels. -/
theorem mem_labelOperands_headerLines {test : LoopTest} {loop : LoopLabels} {body name : String}
    (h : name ∈ labelOperands (test.headerLines loop body)) :
    name ∈ test.left.labels ++ test.right.labels ∨ name = loop.stop ∨
      name ∈ labelNames (test.headerLines loop body) := by
  have hlines : test.headerLines loop body = [.label loop.start] ++
      ([.instruction (.basic test.op test.left test.right)] ++ if test.op = .ifg
        then [.jump body, .jump loop.stop, .label body] else [.jump loop.stop]) := rfl
  rw [hlines] at h ⊢
  rw [labelOperands_append, labelOperands_append, labelOperands_basic, List.mem_append,
    List.mem_append] at h
  rcases h with h | h | h
  · cases h
  · exact .inl h
  split at h
  · rename_i hg
    rw [if_pos hg]
    rcases List.mem_cons.mp h with rfl | h
    · exact .inr (.inr (by simp [Line.jump, Line.set]))
    · exact .inr (.inl (List.mem_singleton.mp h))
  · exact .inr (.inl (List.mem_singleton.mp h))

theorem mangle_mem_headerLines {test : LoopTest} {path other : ModulePath} {n : Nat} {name : String}
    (h : .label other name ∈ test.labelEvents path n) :
    other.mangle name ∈ labelNames
      (test.headerLines (.numbered path n) (path.mangle (loopName n "body"))) := by
  unfold LoopTest.labelEvents at h
  unfold LoopTest.headerLines
  split at h
  · rename_i hg
    rw [if_pos hg]
    rcases List.mem_cons.mp h with he | h
    · cases he
      simp [Line.jump, Line.set]
    · cases List.mem_singleton.mp h
      exact List.mem_cons_self
  · cases List.mem_singleton.mp h
    exact List.mem_cons_self

end labelOperands

/-- A constant that is a label is one of the labels. A function has the label of its name, which is
one of them if the body of the function is written. -/
def Symbol.RefersTo (labels : List String) (path : ModulePath) (name : String) (symbol : Symbol) :
    Prop :=
  (∀ label, symbol = .constant (.label label) → label ∈ labels) ∧
    ∀ f, symbol = .function f → f.label = path.mangle name ∧ (f.emitted = true → f.label ∈ labels)

/-- All labels that have been used, or that can be used from now on, are among the given ones. -/
structure Compilation.RefersTo (c : Compilation) (held : List Line) (labels : List String) :
    Prop where
  operands : labelOperands (c.program.everyLine ++ held) ⊆ labels
  symbols : c.store.All (Symbol.RefersTo labels)
  events : ∀ path name, .label path name ∈ c.events → path.mangle name ∈ labels
  loops : ∀ loop ∈ c.scope.loops, loop.start ∈ labels ∧ loop.stop ∈ labels
  halt : Program.haltLabel ∈ labels

namespace Compilation.RefersTo

variable {c c' : Compilation} {held : List Line} {labels : List String}

theorem mono (h : c.RefersTo held labels) {labels' : List String} (hs : labels ⊆ labels') :
    c.RefersTo held labels' := by
  constructor
  · exact List.Subset.trans h.operands hs
  · refine h.symbols.mono fun path name symbol hsymbol => ⟨fun label hl => ?_, fun f hf => ?_⟩
    · exact hs (hsymbol.1 label hl)
    · exact ⟨(hsymbol.2 f hf).1, fun he => hs ((hsymbol.2 f hf).2 he)⟩
  · exact fun path name he => hs (h.events path name he)
  · exact fun loop hl => ⟨hs (h.loops loop hl).1, hs (h.loops loop hl).2⟩
  · exact hs h.halt

theorem known (h : c.RefersTo held labels) {label : String} (hl : c.KnowsLabel label) :
    label ∈ labels := by
  obtain ⟨path, name, hs⟩ := hl
  exact (h.symbols path name _ hs).1 label rfl

theorem function (h : c.RefersTo held labels) {key : FunctionKey} {f : FunctionSymbol}
    (hf : c.function? key = some f) :
    f.label = key.path.mangle key.name ∧ (f.emitted = true → f.label ∈ labels) :=
  (h.symbols _ _ _ ((c.store.functionIn?_eq_some _ _).mp hf)).2 f rfl

theorem writeAll (h : c.RefersTo held labels) (lines : List Line)
    (hl : labelOperands lines ⊆ labels) :
    (c.write fun p => p.writeAll lines).RefersTo held labels := by
  refine ⟨?_, h.symbols, h.events, h.loops, h.halt⟩
  exact labelOperands_subset_of_perm (c.program.everyLine_writeAll lines) h.operands hl

theorem updateStore (h : c.RefersTo held labels) {f : Store → Store}
    (hs : (f c.store).All (Symbol.RefersTo labels)) : (c.updateStore f).RefersTo held labels :=
  ⟨h.operands, hs, h.events, h.loops, h.halt⟩

theorem updateFunction (h : c.RefersTo held labels) (key : FunctionKey)
    {g : FunctionSymbol → FunctionSymbol}
    (hg : ∀ f, c.function? key = some f → (g f).label = f.label ∧
      ((g f).emitted = true → f.emitted = true ∨ f.label ∈ labels)) :
    (c.updateFunction key g).RefersTo held labels := by
  refine h.updateStore (h.symbols.updateFunction fun f hf => ⟨nofun, ?_⟩)
  rintro _ ⟨⟩
  obtain ⟨hlabel, hwritten⟩ := h.function hf
  rw [(hg f hf).1]
  exact ⟨hlabel, fun he => ((hg f hf).2 he).elim hwritten id⟩

theorem settles (h : c.RefersTo held labels) {key : FunctionKey} {count : Nat}
    (hs : c.Settles key count c') : c'.RefersTo held labels := by
  cases hs with
  | agrees _ => exact h
  | fixes _ => exact h.updateFunction key fun f _ => ⟨rfl, .inl⟩

theorem record (h : c.RefersTo held labels) (event : Event) (he : event.origin? = none) :
    (c.record event).RefersTo held labels := by
  refine ⟨h.operands, h.symbols, fun path name hmem => ?_, h.loops, h.halt⟩
  rcases List.mem_cons.mp hmem with rfl | hmem
  · cases he
  · exact h.events path name hmem

theorem number (h : c.RefersTo held labels) (names : List String) :
    (c.updateStore (LowerM.defineNumbers names)).RefersTo held labels := by
  refine h.updateStore fun path name symbol hl => ?_
  rcases lookup?_defineNumbers names c.store path name with ⟨-, he⟩ | ⟨-, n, he⟩
  · exact h.symbols _ _ _ (he ▸ hl)
  · rw [he] at hl
    cases hl
    exact ⟨nofun, nofun⟩

theorem declare (h : c.RefersTo held labels) (d : FunctionDef) :
    (c.declare d).RefersTo held labels := by
  refine h.updateStore (h.symbols.define ⟨nofun, ?_⟩)
  rintro _ ⟨⟩
  exact ⟨rfl, nofun⟩

theorem enterScope (h : c.RefersTo held labels) (path : ModulePath) {scope : Scope}
    (hl : ∀ loop ∈ scope.loops, loop.start ∈ labels ∧ loop.stop ∈ labels) :
    (c.enterScope path scope).RefersTo held labels :=
  ⟨h.operands, h.symbols.enter, h.events, hl, h.halt⟩

theorem straight (h : c.RefersTo held labels) {line : Line} (hs : c.Straight line) :
    labelOperands [line] ⊆ labels := by
  intro name hname
  cases hs with
  | set hx ha =>
      rw [labelOperands_set] at hname
      exact h.known (knowsLabel_of_operand ha hname)
  | augment ho hx ha =>
      rw [labelOperands_basic] at hname
      exact h.known (knowsLabel_of_operand ha hname)
  | memset ht ha =>
      rw [labelOperands_set, List.mem_append] at hname
      rcases hname with hname | hname
      · exact h.known (knowsLabel_of_address ht hname)
      · exact h.known (knowsLabel_of_operand ha hname)
  | halt =>
      cases List.mem_singleton.mp hname
      exact h.halt
  | @loopJump loop jump hl =>
      cases List.mem_singleton.mp hname
      have hloop := h.loops loop (List.mem_of_mem_head? hl)
      cases jump with
      | breakLoop => exact hloop.2
      | continueLoop => exact hloop.1

end Compilation.RefersTo

namespace Compilation

/-- The labels that are written or will be: the ends of open loops are pending. -/
def promised (c : Compilation) (pending : List String) (held : List Line) : List String :=
  pending ++ labelNames (c.program.everyLine ++ held)

/-- All labels in use are written or will be. -/
def Closed (pending : List String) (held : List Line) (c : Compilation) : Prop :=
  c.RefersTo held (c.promised pending held)

variable {env : Environment} {pending : List String} {held : List Line} {c c' : Compilation}

theorem mem_promised {name : String} :
    name ∈ c.promised pending held ↔
      name ∈ pending ∨ .label name ∈ c.program.everyLine ∨ .label name ∈ held := by
  rw [promised, List.mem_append, mem_labelNames, List.mem_append]

theorem promised_subset {held' : List Line}
    (h : c.program.everyLine ++ held ⊆ c'.program.everyLine ++ held') :
    c.promised pending held ⊆ c'.promised pending held' := by
  intro name hname
  rw [mem_promised, ← List.mem_append] at hname ⊢
  exact hname.imp_right fun hline => h hline

theorem Frame.promised_subset (h : Frame c c') (pending : List String) (held : List Line) :
    c.promised pending held ⊆ c'.promised pending held :=
  Compilation.promised_subset fun _ hline =>
    List.mem_append.mpr ((List.mem_append.mp hline).imp_left fun hin => h.lines hin)

theorem promised_openBody (c : Compilation) (key : FunctionKey) (f : FunctionSymbol)
    (pending : List String) (held : List Line) :
    c.promised pending held ⊆
      (c.openBody key f).promised pending (c.program.footer.toList ++ held) := by
  refine promised_subset fun line hline => ?_
  rw [← List.append_assoc, ((everyLine_openBody c key f).append_right held).mem_iff]
  simp only [List.mem_append] at hline ⊢
  exact hline.imp_left .inl

namespace Closed

theorem afterHook (h : c.Closed pending held) {path : ModulePath} {given : String → Prop}
    {act : HookM Unit} (hd : act.Does given)
    (hg : ∀ name, given name → name ∈ c.promised pending held) :
    (c.afterHook path act).Closed pending held := by
  have hframe : Frame c (c.afterHook path act) := .afterHook hd c
  have hsub := hframe.promised_subset pending held
  have hold := RefersTo.mono h hsub
  have heffect := hd ⟨c.program, c.store.enter path, c.notes⟩
  have hwritten : labelNames (c.afterHook path act).program.everyLine ⊆
      (c.afterHook path act).promised pending held := by
    intro name hname
    rw [mem_promised]
    exact .inr (.inl (mem_labelNames.mp hname))
  refine ⟨?_, ?_, hold.events, hold.loops, hold.halt⟩
  · obtain ⟨new, hperm, hnew⟩ := heffect.program.lines
    refine labelOperands_subset_of_perm hperm hold.operands fun name hname => ?_
    rcases hnew name hname with hgiven | hlabel
    · exact hsub (hg name hgiven)
    · apply hwritten
      refine (labelNames_perm hperm).mem_iff.mpr ?_
      rw [labelNames_append]
      exact List.mem_append_right _ hlabel
  · intro other name symbol hl
    rcases heffect.symbols other name with hsame | ⟨new, hnew, hprovided⟩
    · rw [Store.lookup?_enter] at hsame
      exact hold.symbols _ _ _ (hsame.symm.trans hl)
    · cases hnew.symm.trans hl
      refine ⟨fun label hlabel => ?_, fun f hf => ?_⟩
      · subst hlabel
        cases hprovided with
        | label hmem => exact hwritten hmem
      · subst hf
        cases hprovided

theorem begun (h : c.Closed pending held) (hr : env.registry.OnlyBundled) (dotted : String) :
    (c.begun env dotted).Closed pending held := by
  unfold Compilation.begun
  dsimp only
  have hmarked : ({ c with imported := dotted :: c.imported }).Closed pending held :=
    ⟨h.operands, h.symbols, h.events, h.loops, h.halt⟩
  split
  · exact hmarked
  · rename_i e he
    have hdoes : (e.install dotted).Does fun _ => False :=
      install_does (Registry.mem_bundled (hr dotted e he)) dotted
    have hrecorded : (({ c with imported := dotted :: c.imported }).record
        (.install dotted)).Closed pending held := RefersTo.record hmarked _ rfl
    exact hrecorded.afterHook hdoes nofun

theorem openLoop (h : c.Closed pending held) {e : Expr} {test : LoopTest}
    (ht : c.loopTest e = .ok test) :
    (c.openLoop test).Closed
      ((LoopLabels.numbered c.store.current c.nextLoop).stop :: pending) held := by
  let loop := LoopLabels.numbered c.store.current c.nextLoop
  have hperm := everyLine_openLoop c test
  have hsub : c.promised pending held ⊆ (c.openLoop test).promised (loop.stop :: pending) held := by
    intro name hname
    rw [mem_promised] at hname ⊢
    refine hname.imp (List.mem_cons_of_mem _) fun hline => hline.imp_left fun hin => ?_
    exact hperm.mem_iff.mpr (List.mem_append_left _ hin)
  have hstop : loop.stop ∈ (c.openLoop test).promised (loop.stop :: pending) held :=
    mem_promised.mpr (.inl List.mem_cons_self)
  have hheader {name : String} (hname : name ∈ labelNames
      (test.headerLines loop (c.store.current.mangle (loopName c.nextLoop "body")))) :
      name ∈ (c.openLoop test).promised (loop.stop :: pending) held :=
    mem_promised.mpr (.inr (.inl (hperm.mem_iff.mpr
      (List.mem_append_right _ (mem_labelNames.mp hname)))))
  have hold := RefersTo.mono h hsub
  constructor
  · refine labelOperands_subset_of_perm hperm hold.operands fun name hname => ?_
    rcases mem_labelOperands_headerLines hname with hknown | rfl | hlabel
    · exact hold.known (knowsLabel_of_loopTest (c := c) ht hknown)
    · exact hstop
    · exact hheader hlabel
  · exact hold.symbols
  · intro path name hmem
    rcases List.mem_append.mp hmem with hmem | hmem
    · exact hheader (mangle_mem_headerLines hmem)
    · exact hold.events path name hmem
  · intro l hl
    rcases List.mem_cons.mp hl with rfl | hl
    · exact ⟨hheader List.mem_cons_self, hstop⟩
    · exact hold.loops l hl
  · exact hold.halt

theorem closeLoop {path : ModulePath} {n : Nat}
    (h : c.Closed ((LoopLabels.numbered path n).stop :: pending) held)
    (hloop : LoopLabels.numbered path n ∈ c.scope.loops) :
    (c.closeLoop path n).Closed pending held := by
  have hperm := everyLine_closeLoop c path n
  have hstop : (LoopLabels.numbered path n).stop ∈ (c.closeLoop path n).promised pending held := by
    rw [mem_promised, hperm.mem_iff]
    exact .inr (.inl (List.mem_append_right _ (by simp [LoopLabels.footerLines])))
  have hsub : c.promised ((LoopLabels.numbered path n).stop :: pending) held ⊆
      (c.closeLoop path n).promised pending held := by
    intro name hname
    rw [mem_promised] at hname
    rcases hname with hname | hin | hout
    · rcases List.mem_cons.mp hname with rfl | hname
      · exact hstop
      · exact mem_promised.mpr (.inl hname)
    · exact mem_promised.mpr (.inr (.inl (hperm.mem_iff.mpr (List.mem_append_left _ hin))))
    · exact mem_promised.mpr (.inr (.inr hout))
  have hold := RefersTo.mono h hsub
  constructor
  · refine labelOperands_subset_of_perm hperm hold.operands fun name hname => ?_
    cases List.mem_singleton.mp hname
    exact (hold.loops _ hloop).1
  · exact hold.symbols
  · intro other name hmem
    rcases List.mem_cons.mp hmem with he | hmem
    · cases he
      exact hstop
    · exact hold.events other name hmem
  · exact fun l hl => hold.loops l (List.mem_of_mem_tail hl)
  · exact hold.halt

theorem openBody (h : c.Closed pending held) {key : FunctionKey} {f : FunctionSymbol}
    (hf : c.function? key = some f) :
    (c.openBody key f).Closed pending (c.program.footer.toList ++ held) := by
  have hold := RefersTo.mono h (promised_openBody c key f pending held)
  have hlabel :
      f.label ∈ (c.openBody key f).promised pending (c.program.footer.toList ++ held) := by
    rw [mem_promised, openBody_program, (Program.everyLine_writeAll _ _).mem_iff]
    exact .inr (.inl (List.mem_append_right _ List.mem_cons_self))
  have hmarked := hold.updateFunction key (g := fun f => { f with emitted := true })
    fun f' hf' => by
    cases hf.symm.trans hf'
    exact ⟨rfl, fun _ => .inr hlabel⟩
  constructor
  · rw [← List.append_assoc]
    refine labelOperands_subset_of_perm (everyLine_openBody c key f) hold.operands ?_
    rw [labelOperands_prologueLines]
    exact List.nil_subset _
  · exact hmarked.symbols.enter
  · intro path name hmem
    rcases List.mem_cons.mp hmem with he | hmem
    · cases he
      rw [← (hold.function hf).1]
      exact hlabel
    · exact hold.events path name hmem
  · exact nofun
  · exact hold.halt

theorem closeBody {before : Compilation} (key : FunctionKey)
    (h : c.Closed pending (before.program.footer.toList ++ held))
    (hloops : ∀ loop ∈ before.scope.loops,
      loop.start ∈ c.promised pending (before.program.footer.toList ++ held) ∧
        loop.stop ∈ c.promised pending (before.program.footer.toList ++ held)) :
    (closeBody key before c).Closed pending held := by
  have hsub : c.promised pending (before.program.footer.toList ++ held) ⊆
      (Compilation.closeBody key before c).promised pending held := by
    refine promised_subset fun line hline => ?_
    have hperm := (everyLine_closeBody before key c).append_right held
    rw [hperm.mem_iff]
    simp only [List.mem_append] at hline ⊢
    tauto
  have hleft := RefersTo.enterScope h before.store.current hloops
  have hclosed : (((leaveScope before c).write fun p =>
      p.jumpBack.leaveFooter before.program.enterFooter.1)).RefersTo held
        (c.promised pending (before.program.footer.toList ++ held)) := by
    refine ⟨?_, hleft.symbols, hleft.events, hleft.loops, hleft.halt⟩
    refine labelOperands_subset_of_perm (everyLine_closeBody before key c) ?_ ?_
    · rw [List.append_assoc]
      exact h.operands
    · exact List.nil_subset _
  have hfixed : (Compilation.closeBody key before c).RefersTo held
      (c.promised pending (before.program.footer.toList ++ held)) :=
    hclosed.updateFunction key fun f _ => ⟨rfl, .inl⟩
  exact hfixed.mono hsub

theorem call {c₁ c₂ : Compilation} {key : FunctionKey} {f : FunctionSymbol} {args : List Expr}
    {arguments : List Operand} {results : List Register} (h : c.Closed pending held)
    (hf : c.function? key = some f) (ha : args.mapM c.operand = .ok arguments)
    (hsub : c.promised pending held ⊆ c₁.promised pending held) (h₁ : c₁.Closed pending held)
    (he : f.emitted = true ∨ .label key.path key.name ∈ c₁.events)
    (hs : c₁.Settles key results.length c₂) :
    ((c₂.write fun p => p.callSequence c₂.scope.function?.isSome f.label arguments results).record
      (.call key results.length c₂.scope.function?.isSome)).Closed pending held := by
  have hlabel : f.label ∈ c₁.promised pending held := by
    obtain ⟨hname, hwritten⟩ := h.function hf
    rcases he with he | he
    · exact hsub (hwritten he)
    · rw [hname]
      exact h₁.events _ _ he
  have hoperands : labelOperands (callLines c₂.scope.function?.isSome f.label arguments results) ⊆
      c₁.promised pending held := by
    intro name hname
    rw [labelOperands_callLines, List.mem_append] at hname
    rcases hname with hname | hname
    · exact hsub (h.known (knowsLabel_of_operands ha hname))
    · cases List.mem_singleton.mp hname
      exact hlabel
  have hwritten := (RefersTo.settles h₁ hs).writeAll _ hoperands
  simp only [← Program.callSequence_eq] at hwritten
  have hrecorded := hwritten.record (.call key results.length c₂.scope.function?.isSome) rfl
  exact hrecorded.mono ((Frame.call hs f.label arguments).promised_subset pending held)

theorem of_acts (h : c.Closed pending held) (hr : env.registry.OnlyBundled) {code : List Stmt}
    (ha : Acts env code c c') : c'.Closed pending held := by
  cases ha with
  | report failure => exact ⟨h.operands, h.symbols, h.events, h.loops, h.halt⟩
  | @line line hs =>
      have hwritten := RefersTo.writeAll h [line] (RefersTo.straight h hs)
      exact hwritten.mono ((Frame.writeAll c [line]).promised_subset pending held)
  | @number _ names hc hb hn => exact RefersTo.number h names
  | @declare d hm hd => exact RefersTo.declare h d
  | @giveBack c₁ key _ _ operands hm hk ho hs =>
      have hoperands : labelOperands (giveBackLines operands) ⊆ c.promised pending held := by
        intro name hname
        rw [labelOperands_giveBackLines] at hname
        exact h.known (knowsLabel_of_operands ho hname)
      have hwritten := (RefersTo.settles h hs).writeAll _ hoperands
      simp only [← Program.giveBack_eq] at hwritten
      have hrecorded := hwritten.record (.giveBack key operands.length) rfl
      exact hrecorded.mono ((Frame.giveBack hs).promised_subset pending held)
  | beginImport hi hd hs => exact h.begun hr _
  | @hook key ref hook site positional keywords hc he hl hh hp hk =>
      refine h.afterHook (hr.hook_does hh ⟨positional, keywords⟩) fun name hname => ?_
      exact h.known (knowsLabel_of_gives hp hk hname)

theorem of_lowers (h : c.Closed pending held) (hr : env.registry.OnlyBundled) {code : List Stmt}
    (hl : Lowers env code c c') : c'.Closed pending held := by
  induction hl generalizing pending held with
  | refl code c => exact h
  | trans _ _ ih ih' => exact ih' (ih h)
  | act ha => exact h.of_acts hr ha
  | call hc hk hf hn ha hres hl he hs ih =>
      exact h.call hf ha ((hl.frame hr).promised_subset pending held) (ih h) he hs
  | @loop _ _ c inner e _ test hm ht hl ih =>
      have hinner := ih (h.openLoop ht)
      refine hinner.closeLoop ?_
      rw [(hl.frame hr).scope]
      exact List.mem_cons_self
  | @body _ c inner key f hf he hl ih =>
      have hkept := List.Subset.trans (promised_openBody c key f pending held)
        ((hl.frame hr).promised_subset _ _)
      refine (ih (h.openBody hf)).closeBody key fun loop hloop => ?_
      exact ⟨hkept (h.loops loop hloop).1, hkept (h.loops loop hloop).2⟩
  | @loadModule _ c inner dotted file _ hi hd hs hl ih =>
      have hbegun := h.begun hr dotted
      have hopened : ((c.begun env dotted).openModule dotted file).Closed pending held :=
        RefersTo.enterScope (hbegun.record (.load dotted) rfl) _ nofun
      have hkept := (hl.frame hr).promised_subset pending held
      refine RefersTo.enterScope (ih hopened) _ fun loop hloop => ?_
      exact ⟨hkept (hbegun.loops loop hloop).1, hkept (hbegun.loops loop hloop).2⟩

theorem start (file? : Option String) : (Compilation.start file?).Closed [] [] := by
  have hoperands : labelOperands ((Compilation.start file?).program.everyLine ++ []) =
      [Program.haltLabel, Program.haltLabel] := rfl
  have hlabels : (Compilation.start file?).promised [] [] = [Program.haltLabel] := rfl
  unfold Closed
  rw [hlabels]
  constructor
  · rw [hoperands]
    simp
  · intro path name symbol hl
    rw [show (Compilation.start file?).store = .start from rfl, Store.lookup?_start] at hl
    cases hl
  · intro path name hmem
    cases List.mem_singleton.mp hmem
    exact List.mem_singleton_self _
  · exact nofun
  · exact List.mem_singleton_self _

end Closed

end Compilation

/-- Whatever is compiled, with errors or without, every label that is used is a label line. -/
theorem labelOperands_subset_labelNames (env : Environment) (hr : env.registry.OnlyBundled)
    (file? : Option String) (modules : List Module) :
    labelOperands (compileModules env file? modules).program.lines ⊆
      labelNames (compileModules env file? modules).program.lines := by
  have hlowers := compileModules_lowers env file? modules
  have hclosed := (Closed.start file?).of_lowers hr hlowers
  have hset := setAside_compileModules hr file? modules
  have hoperands := hclosed.operands
  rw [promised, Program.everyLine, hset] at hoperands
  simpa [Program.lines] using hoperands

/-- A loop over the word of a device, which is left twice, and a jump outside of all loops. -/
def waiting : Module :=
  let drivers := Expr.member (.name ⟨"dev", default⟩) ⟨"drivers", default⟩ default
  let clock := Expr.member drivers ⟨"generic_clock", default⟩ default
  ⟨[.importNames [⟨⟨[⟨"dev", default⟩, ⟨"drivers", default⟩], default⟩, none, default⟩] default,
    .whileLoop (.compare clock [(.notEq, .number 0 default)] default)
      [.breakLoop default, .breakLoop default] default,
    .breakLoop default], default⟩

theorem labelOperands_subset_labelNames_waiting :
    (Environment.bundled [] (.empty [])).registry.OnlyBundled ∧
      labelOperands (compileModules (.bundled [] (.empty [])) none [waiting]).program.lines ⊆
        labelNames (compileModules (.bundled [] (.empty [])) none [waiting]).program.lines :=
  ⟨Registry.onlyBundled_bundled,
    labelOperands_subset_labelNames _ Registry.onlyBundled_bundled _ _⟩

end P16
