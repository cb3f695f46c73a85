import P16.Proofs.CallingConvention
import P16.Proofs.FooterBlocks
import P16.Proofs.LoopSimulation

/-!
# Routines on the machine

What a function does for whoever calls it. `Machine.Serves` says it without the code of the
function, so that the code of a function that calls others is run with what is known of those.
-/

namespace P16

/-- A function of which only the label and the number of parameters matter. -/
def FunctionSymbol.routine (label : String) (params : List String) : FunctionSymbol :=
  { (default : FunctionSymbol) with label := label, params := params }

namespace Machine

variable {m : Machine} {r : Registers} {i q : Nat}

theorem holds_of_lines {before code : List Line} (h : m.lines = before ++ code) :
    m.Holds before.length code :=
  @holds_of_split m before code [] (by rw [h, List.append_nil])

theorem nodup_labelNames_of_call {nested : Bool} {label : String} {arguments : List Operand}
    {results : List Register} {code : List Line}
    (h : m.lines = callLines nested label arguments results ++ code)
    (hcode : (labelNames code).Nodup) : (labelNames m.lines).Nodup := by
  rwa [h, labelNames_append, labelNames_callLines, List.nil_append]

section halt

variable {σ : Type} [Stack σ] {s : State σ}

/-- At the line begins the endless loop that ends every program. -/
structure HaltsAt (m : Machine) (i : Nat) : Prop where
  label : m.lines[i]? = some (.label Program.haltLabel)
  jump : m.lines[i + 1]? = some (.jump Program.haltLabel)
  position : m.position? Program.haltLabel = some i

theorem HaltsAt.run? (h : m.HaltsAt s.line) : m.run? 2 s = some s := by
  have hjump : m.step? s.next = (m.position? Program.haltLabel).map s.next.jump := step?_jump h.jump
  rw [h.position] at hjump
  rw [Machine.run?, step?_label h.label, Option.bind_some, Machine.run?, hjump]
  rfl

variable (hnodup : (labelNames m.lines).Nodup)
include hnodup

theorem haltsAt_of_holds (h : m.Holds i Program.haltLines) : m.HaltsAt (i + 1) := by
  obtain ⟨-, h⟩ := holds_cons.mp h
  obtain ⟨hlabel, h⟩ := holds_cons.mp h
  exact ⟨hlabel, (holds_cons.mp h).1, position?_of_nodup hnodup hlabel⟩

theorem reaches_halt (h : m.Holds i Program.haltLines) :
    m.Reaches (s.resume i r) (s.resume (i + 1) r) := by
  have hjump := (holds_cons.mp h).1
  exact ⟨1, run?_jump hnodup s r hjump (haltsAt_of_holds hnodup h).label⟩

end halt

section serves

variable {s : State}

/-- Called with words for its parameters, the function comes back behind the call, with the result
in `A`. The memory and the stack are as before, and so are all registers but those in `changed`. -/
def Serves (m : Machine) (f : FunctionSymbol) (changed : List Register)
    (gives : List UInt16 → UInt16 → Prop) : Prop :=
  ∀ ⦃s : State⦄ ⦃nested : Bool⦄ ⦃arguments : List Operand⦄ ⦃words : List UInt16⦄,
    m.Holds s.line (callLines nested f.label arguments [.A]) →
    List.Forall₂ (fun a w => m.plain? s.registers a = some w) arguments words →
    f.arity = words.length →
    ∃ r, m.Reaches s (s.resume (s.line + (callLines nested f.label arguments [.A]).length) r) ∧
      gives words (r .A) ∧ (nested = true → r .link = s.registers .link) ∧
      ∀ x ∉ changed, r x = s.registers x

theorem Serves.mono {f : FunctionSymbol} {changed : List Register}
    {gives gives' : List UInt16 → UInt16 → Prop} (h : m.Serves f changed gives)
    (hgives : ∀ words w, gives words w → gives' words w) : m.Serves f changed gives' := by
  intro s nested arguments words hcall hwords harity
  obtain ⟨r, hrun, hresult, hrest⟩ := h hcall hwords harity
  exact ⟨r, hrun, hgives _ _ hresult, hrest⟩

/-- The code of a function serves its callers if the part between the arguments and the result
does. -/
theorem serves_of_body {f : FunctionSymbol} {changed : List Register}
    {gives : List UInt16 → UInt16 → Prop} {body : List Line} (hq : m.position? f.label = some q)
    (hcode : m.Holds q (f.prologueLines ++ (body ++ giveBackLines [.reg .A])))
    (hfew : f.arity ≤ Register.arguments.length) (hlink : .link ∈ changed)
    (hbody : ∀ (s : State) (r : Registers) (words : List UInt16), f.arity = words.length →
      ∃ r₂, m.Reaches
          (s.resume (q + f.prologueLines.length)
            (assignAll (Register.arguments.take f.arity) words r))
          (s.resume (q + f.prologueLines.length + body.length) r₂) ∧
        gives words (r₂ .A) ∧ r₂ .link = r .link ∧ ∀ x ∉ changed, r₂ x = r x) :
    m.Serves f changed gives := by
  intro s nested arguments words hcall hwords harity
  obtain ⟨hprologue, hcode⟩ := holds_append.mp hcode
  obtain ⟨-, hgive⟩ := holds_append.mp hcode
  obtain ⟨-, hjump⟩ := holds_append.mp hcall
  obtain ⟨hjump, hleave⟩ := holds_cons.mp hjump
  have henter := reaches_callee hwords harity hfew hcall hq hprologue
  -- inside the body the saved address lies on the stack
  let inside : State := { s with stack := savedLink nested s.registers ++ s.stack }
  obtain ⟨r₂, hrun, hgives, hback, hkeep⟩ := hbody inside (Function.update s.registers .link
    (m.address (s.line + (enterLines nested arguments).length + 1))) words harity
  rw [Function.update_self] at hback
  have hline : m.lineAt (r₂ .link) = s.line + (enterLines nested arguments).length + 1 := by
    rw [hback]
    exact m.lineAt_address _ _ hjump
  have hreturn := reaches_caller (s := inside.resume _ r₂) (r := s.registers) (.cons rfl .nil) rfl
    hgive hline hleave rfl
  have hlength : s.line + (callLines nested f.label arguments [.A]).length =
      s.line + (enterLines nested arguments).length + 1 + (leaveLines nested [.A]).length := by
    simp only [callLines, List.length_append, List.length_cons]
    omega
  have hsame : assignAll [.A] [r₂ .A] r₂ = r₂ := by simp [assignAll]
  rw [hlength]
  change m.Reaches (inside.resume _ r₂) (s.resume _ (if nested
    then Function.update (assignAll [.A] [r₂ .A] r₂) .link (s.registers .link)
    else assignAll [.A] [r₂ .A] r₂)) at hreturn
  rw [hsame] at hreturn
  refine ⟨_, henter.trans (hrun.trans hreturn), ?_, ?_, ?_⟩
  · cases nested with
    | false => exact hgives
    | true => rwa [if_pos rfl, Function.update_of_ne (by decide)]
  · rintro rfl
    rw [if_pos rfl, Function.update_self]
  · intro x hx
    have hne : x ≠ .link := fun h => hx (h ▸ hlink)
    have hkept : r₂ x = s.registers x := by rw [hkeep x hx, Function.update_of_ne hne]
    cases nested with
    | false => exact hkept
    | true => rwa [if_pos rfl, Function.update_of_ne hne]

theorem Serves.reaches_halt {f : FunctionSymbol} {changed : List Register}
    {gives : List UInt16 → UInt16 → Prop} {arguments : List Operand} {words : List UInt16}
    {code : List Line} (h : m.Serves f changed gives) (hnodup : (labelNames m.lines).Nodup)
    (hlines : m.lines = callLines false f.label arguments [.A] ++ (Program.haltLines ++ code))
    (hs : s.line = 0)
    (hwords : List.Forall₂ (fun a w => m.plain? s.registers a = some w) arguments words)
    (harity : f.arity = words.length) :
    ∃ t, m.Reaches s t ∧ m.HaltsAt t.line ∧ t.stack = s.stack ∧ t.memory = s.memory ∧
      gives words (t.registers .A) ∧ ∀ x ∉ changed, t.registers x = s.registers x := by
  have hcode : m.Holds 0 (callLines false f.label arguments [.A] ++ Program.haltLines) :=
    ⟨code, by rw [hlines, List.append_assoc, List.drop_zero]⟩
  obtain ⟨hcall, hhalt⟩ := holds_append.mp hcode
  obtain ⟨r, hrun, hresult, -, hkeep⟩ := h (hs ▸ hcall) hwords harity
  rw [hs] at hrun
  exact ⟨_, hrun.trans (Machine.reaches_halt hnodup hhalt), haltsAt_of_holds hnodup hhalt, rfl, rfl,
    hresult, hkeep⟩

end serves

section select

/-- `while left > right: A = B` -/
def selectLines (left right : Register) (labels : LoopLabels) (bodyLabel : String) : List Line :=
  LoopTest.headerLines ⟨.ifg, .reg left, .reg right⟩ labels bodyLabel ++
    ([.set (.reg .A) (.reg .B)] ++ labels.footerLines)

variable {left right : Register} {labels : LoopLabels} {bodyLabel : String}

/-- The second time the test compares equal words, so the body is executed once at most. -/
theorem reaches_select (hnodup : (labelNames m.lines).Nodup)
    (h : m.Holds i (selectLines left right labels bodyLabel))
    (hpair : left = .A ∧ right = .B ∨ left = .B ∧ right = .A) (s : State) (r : Registers) :
    m.Reaches (s.resume i r) (s.resume (i + (selectLines left right labels bodyLabel).length)
      (Function.update r .A (if r right < r left then r .B else r .A))) := by
  have hcode : m.Holds i (LoopTest.headerLines ⟨.ifg, .reg left, .reg right⟩ labels bodyLabel ++
      ([.set (.reg .A) (.reg .B)] ++ (labels.footerLines ++ []))) := by
    rwa [List.append_nil]
  obtain ⟨hheader, hbody, hagain, hstop, -⟩ := loop_holds hcode rfl
  have hskip (r : Registers) (hr : ¬ r right < r left) : m.Reaches (s.resume i r)
      (s.resume (i + (selectLines left right labels bodyLabel).length) r) := by
    obtain ⟨k, -, hk⟩ := run?_skip_loop hnodup s r hheader hstop rfl rfl rfl
      (by simpa using hr)
    exact ⟨k, hk⟩
  split
  · rename_i hr
    have henter : m.Reaches (s.resume i r) _ :=
      let ⟨k, _, hk⟩ := run?_enter_loop hnodup s r hheader rfl rfl rfl (by simpa using hr)
      ⟨k, hk⟩
    have hassign := run?_assign s (r := r) (holds_cons.mp hbody).1 rfl
    have hjump := run?_jump hnodup s (Function.update r .A (r .B)) hagain (header_holds hheader).1
    refine henter.trans (.trans ⟨1, hassign⟩ (.trans ⟨1, hjump⟩ (hskip _ ?_)))
    rcases hpair with ⟨rfl, rfl⟩ | ⟨rfl, rfl⟩ <;> simp [UInt16.lt_irrefl]
  · rename_i hr
    rw [Function.update_eq_self]
    exact hskip r hr

theorem serves_select {f : FunctionSymbol} (hnodup : (labelNames m.lines).Nodup)
    (harity : f.arity = 2)
    (h : m.Holds q (f.prologueLines ++
      (selectLines left right labels bodyLabel ++ giveBackLines [.reg .A])))
    (hpair : left = .A ∧ right = .B ∨ left = .B ∧ right = .A) :
    m.Serves f [.link, .A, .B] fun words w => ∀ r : Registers, words = [r .A, r .B] →
      w = if r right < r left then r .B else r .A := by
  have hlabel : m.position? f.label = some q := position?_of_nodup hnodup (holds_cons.mp h).1
  refine serves_of_body hlabel h (by rw [harity]; decide) (by decide) ?_
  intro s r words hlength
  obtain ⟨a, b, rfl⟩ := List.length_eq_two.mp (hlength.symm.trans harity)
  have hassigned : assignAll (Register.arguments.take f.arity) [a, b] r =
      Function.update (Function.update r .B b) .A a := by
    rw [harity]
    rfl
  rw [hassigned]
  have hloop := (holds_append.mp (holds_append.mp h).2).1
  refine ⟨_, reaches_select hnodup hloop hpair s _, ?_, ?_, ?_⟩
  · rintro r' ⟨⟩
    rcases hpair with ⟨rfl, rfl⟩ | ⟨rfl, rfl⟩ <;> simp
  · simp [Register.link]
  · intro x hx
    simp only [List.mem_cons, not_or] at hx
    rw [Function.update_of_ne hx.2.1, Function.update_of_ne hx.2.1, Function.update_of_ne hx.2.2.1]

end select

end Machine

end P16
