import P16.Proofs.Actions
import P16.Proofs.Structured

/-!
# The calling convention at run time

The lines of a call, of the beginning of a body and of a `return` are written apart from each other.
Run one after another they hand the arguments over, lead back behind the call, and leave the stack
as it was.
-/

namespace P16

/-- The registers after `values` have been assigned to `targets`, the last one first. -/
def assignAll (targets : List Register) (values : List UInt16) (r : Registers) : Registers :=
  (targets.zip values).foldr (fun entry r => Function.update r entry.1 entry.2) r

section assignAll

variable {x : Register} {w : UInt16} {targets : List Register} {values : List UInt16}
  {r : Registers}

theorem assignAll_cons :
    assignAll (x :: targets) (w :: values) r =
      Function.update (assignAll targets values r) x w := rfl

theorem assignAll_of_not_mem (h : x ∉ targets) : assignAll targets values r x = r x := by
  induction targets generalizing values with
  | nil => rfl
  | cons y targets ih =>
      cases values with
      | nil => rfl
      | cons w values =>
          rw [List.mem_cons, not_or] at h
          rw [assignAll_cons, Function.update_of_ne h.1, ih h.2]

theorem assignAll_getElem? (hnodup : targets.Nodup) {i : Nat} (hx : targets[i]? = some x)
    (hw : values[i]? = some w) : assignAll targets values r x = w := by
  induction targets generalizing values i with
  | nil => simp at hx
  | cons y targets ih =>
      obtain ⟨hy, hnodup⟩ := List.nodup_cons.mp hnodup
      cases values with
      | nil => simp at hw
      | cons v values =>
          cases i with
          | zero =>
              cases hx
              cases hw
              exact Function.update_self ..
          | succ i =>
              have hne : x ≠ y := fun h => hy (h ▸ List.mem_of_getElem? hx)
              rw [assignAll_cons, Function.update_of_ne hne]
              exact ih hnodup hx hw

theorem foldl_reverse_eq_assignAll (h : targets.length = values.length) :
    (targets.reverse.zip values.reverse).foldl
        (fun r entry => Function.update r entry.1 entry.2) r =
      assignAll targets values r := by
  rw [List.zip, ← List.reverse_zipWith h, List.foldl_reverse]
  rfl

end assignAll

namespace Machine

variable {m : Machine} {s : State}

theorem reaches_pushes {operands : List Operand} {words : List UInt16}
    (hw : List.Forall₂ (fun a w => m.plain? s.registers a = some w) operands words)
    (h : m.Holds s.line (operands.map .push)) :
    m.Reaches s { s with
      line := s.line + operands.length
      stack := words.reverse ++ s.stack } := by
  induction operands generalizing s words with
  | nil =>
      cases hw
      exact .refl s
  | cons a operands ih =>
      cases hw with
      | @cons _ w _ words ha hw =>
          obtain ⟨hline, hnext⟩ := holds_cons.mp h
          have hrest := ih (s := s.next.push w) hw hnext
          refine .head (step?_push hline ha) ?_
          simpa [State.next, State.push, State.jump, Nat.add_right_comm, Nat.add_assoc] using hrest

theorem reaches_pops {targets : List Register} {words rest : List UInt16}
    (hlength : targets.length = words.length)
    (h : m.Holds s.line (targets.map fun x => .pop (.reg x))) (hs : s.stack = words ++ rest) :
    m.Reaches s { s with
      line := s.line + targets.length
      registers := (targets.zip words).foldl (fun r entry => Function.update r entry.1 entry.2)
        s.registers
      stack := rest } := by
  induction targets generalizing s words with
  | nil =>
      cases words with
      | nil =>
          simp only [List.nil_append] at hs
          rw [← hs]
          exact .refl s
      | cons w words => simp at hlength
  | cons x targets ih =>
      cases words with
      | nil => simp at hlength
      | cons w words =>
          obtain ⟨hline, hnext⟩ := holds_cons.mp h
          have hrest := ih (s := { s.next with stack := words ++ rest }.assign x w)
            (Nat.succ_inj.mp hlength) hnext rfl
          refine .head (step?_pop hline (pop?_of_cons hs)) ?_
          simpa [State.next, State.assign, State.jump, Nat.add_right_comm, Nat.add_assoc]
            using hrest

/-- What a call leaves on the stack below the arguments. -/
def savedLink (nested : Bool) (r : Registers) : List UInt16 := if nested then [r .link] else []

theorem reaches_enter {nested : Bool} {arguments : List Operand} {words : List UInt16}
    (hw : List.Forall₂ (fun a w => m.plain? s.registers a = some w) arguments words)
    (h : m.Holds s.line (enterLines nested arguments)) :
    m.Reaches s { s with
      line := s.line + (enterLines nested arguments).length
      stack := words.reverse ++ (savedLink nested s.registers ++ s.stack) } := by
  cases nested with
  | false => simpa [enterLines, savedLink] using reaches_pushes hw h
  | true =>
      have hlink : m.plain? s.registers (.reg .link) = some (s.registers .link) := rfl
      simpa [enterLines, savedLink, Nat.add_comm] using reaches_pushes (.cons hlink hw) h

theorem reaches_prologue {f : FunctionSymbol} {words rest : List UInt16} {w : UInt16}
    (harity : f.arity = words.length) (hfew : f.arity ≤ Register.arguments.length)
    (h : m.Holds s.line f.prologueLines) (hs : s.stack = w :: (words.reverse ++ rest)) :
    m.Reaches s { s with
      line := s.line + f.prologueLines.length
      registers := assignAll (Register.arguments.take f.arity) words
        (Function.update s.registers .link w)
      stack := rest } := by
  obtain ⟨hlabel, h⟩ := holds_cons.mp h
  obtain ⟨hpop, h⟩ := holds_cons.mp h
  have hlength : (Register.arguments.take f.arity).length = words.length := by
    rw [List.length_take_of_le hfew, harity]
  refine .head (step?_label hlabel)
    (.head (step?_pop (s := s.next) hpop (pop?_of_cons hs)) ?_)
  have hpops := reaches_pops
    (s := { s.next.next with stack := words.reverse ++ rest }.assign .link w)
    (by simp [hlength]) h rfl
  rw [State.registers_assign, foldl_reverse_eq_assignAll hlength] at hpops
  have hline : s.line + 1 + 1 + (Register.arguments.take f.arity).reverse.length =
      s.line + f.prologueLines.length := by
    simp only [FunctionSymbol.prologueLines, List.length_cons, List.length_map]
    omega
  rw [← hline]
  exact hpops

theorem reaches_callee {nested : Bool} {arguments : List Operand} {results : List Register}
    {words : List UInt16} {f : FunctionSymbol} {q : Nat}
    (hw : List.Forall₂ (fun a w => m.plain? s.registers a = some w) arguments words)
    (harity : f.arity = words.length) (hfew : f.arity ≤ Register.arguments.length)
    (hcall : m.Holds s.line (callLines nested f.label arguments results))
    (hq : m.position? f.label = some q) (hbody : m.Holds q f.prologueLines) :
    m.Reaches s { s with
      line := q + f.prologueLines.length
      registers := assignAll (Register.arguments.take f.arity) words (Function.update s.registers
        .link (m.address (s.line + (enterLines nested arguments).length + 1)))
      stack := savedLink nested s.registers ++ s.stack } := by
  obtain ⟨henter, hjump⟩ := holds_append.mp hcall
  refine (reaches_enter hw henter).trans ?_
  have hstep := step?_call (s := { s with
    line := s.line + (enterLines nested arguments).length
    stack := words.reverse ++ (savedLink nested s.registers ++ s.stack) }) (holds_cons.mp hjump).1
  rw [hq, Option.map_some] at hstep
  exact .head hstep (reaches_prologue harity hfew hbody rfl)

theorem reaches_caller {nested : Bool} {operands : List Operand} {results : List Register}
    {values rest : List UInt16} {r : Registers} {j : Nat}
    (hw : List.Forall₂ (fun a w => m.plain? s.registers a = some w) operands values)
    (hlength : results.length = values.length)
    (hgive : m.Holds s.line (giveBackLines operands))
    (hj : m.lineAt (s.registers .link) = j) (hleave : m.Holds j (leaveLines nested results))
    (hs : s.stack = savedLink nested r ++ rest) :
    m.Reaches s { s with
      line := j + (leaveLines nested results).length
      registers := if nested
        then Function.update (assignAll results values s.registers) .link (r .link)
        else assignAll results values s.registers
      stack := rest } := by
  obtain ⟨hpush, hback⟩ := holds_append.mp hgive
  obtain ⟨hpop, hlast⟩ := holds_append.mp hleave
  rw [List.length_map] at hback
  have hstep := step?_jump_register (s := { s with
    line := s.line + operands.length
    stack := values.reverse ++ s.stack }) (holds_cons.mp hback).1
  have hpops := reaches_pops (s := { s with line := j, stack := values.reverse ++ s.stack })
    (by simp [hlength]) hpop rfl
  rw [foldl_reverse_eq_assignAll hlength] at hpops
  refine (reaches_pushes hw hpush).trans (.head hstep ?_)
  subst hj
  refine hpops.trans ?_
  cases nested with
  | false =>
      rw [hs]
      simpa [leaveLines, savedLink] using Reaches.refl _
  | true =>
      rw [List.length_map] at hlast
      have hlink := step?_pop (s := { s with
        line := m.lineAt (s.registers .link) + results.reverse.length
        registers := assignAll results values s.registers }) (holds_cons.mp hlast).1
        (pop?_of_cons hs)
      refine .single (hlink.trans ?_)
      simp [State.next, State.assign, State.jump, leaveLines, Nat.add_assoc]

end Machine

namespace Compilation

variable {c : Compilation}

theorem words_of_operands (m : Machine) (r : Registers) {es : List Expr} {operands : List Operand}
    (h : es.mapM c.operand = .ok operands) :
    ∃ words, List.Forall₂ (fun a w => m.plain? r a = some w) operands words ∧
      List.Forall₂ (fun e w => c.word? m.word r e = some w) es words := by
  have hall := forall₂_of_mapM h
  clear h
  induction hall with
  | nil => exact ⟨[], .nil, .nil⟩
  | cons ha _ ih =>
      obtain ⟨w, hplain, hword⟩ := plain?_of_operand m r ha
      obtain ⟨words, hplains, hwords⟩ := ih
      exact ⟨w :: words, .cons hplain hplains, .cons hword hwords⟩

end Compilation

namespace LowerM

theorem program_giveBack {c c' : Compilation} {value? : Option Expr} {span : Span}
    (h : giveBack value? span c = .ok () c') :
    ∃ operands, (returned value?).mapM c.operand = .ok operands ∧
      c'.program = c.program.writeAll (giveBackLines operands) := by
  obtain ⟨key, operands, c₁, -, ho, hsettles, rfl⟩ := (giveBack_meets c value? span).ok h
  refine ⟨operands, ho, ?_⟩
  change Program.jumpBack _ = _
  rw [Program.giveBack_eq, hsettles.program]

end LowerM

/-- What a call of `c` with arguments `args` does on the way from `s`, before the call, to `s₁`, at
the beginning of the body. The execution goes on at line `back` in the end. -/
structure HandsOver (m : Machine) (c : Compilation) (args : List Expr) (back : Nat)
    (s s₁ : Machine.State) : Prop where
  arguments : ∀ (i : Nat) (e : Expr) (x : Register), args[i]? = some e →
    Register.arguments[i]? = some x → c.word? m.word s.registers e = some (s₁.registers x)
  link : s₁.registers .link = m.address back
  stack : s₁.stack = (if c.scope.function?.isSome then [s.registers .link] else []) ++ s.stack
  memory : s₁.memory = s.memory

/-- What a `return` of `items` in `c₂` does on the way from `s₂`, before the `return`, to `s₃`,
behind the call of `c` with targets `results`, before which the machine was in `s`. -/
structure HandsBack (m : Machine) (c c₂ : Compilation) (results : List Register)
    (items : List Expr) (s s₂ s₃ : Machine.State) : Prop where
  registers : ∃ values,
    List.Forall₂ (fun e w => c₂.word? m.word s₂.registers e = some w) items values ∧
      s₃.registers = if c.scope.function?.isSome
        then Function.update (assignAll results values s₂.registers) .link (s.registers .link)
        else assignAll results values s₂.registers
  stack : s₃.stack = s.stack
  memory : s₃.memory = s₂.memory

theorem handsOver_assignAll {m : Machine} {c : Compilation} {args : List Expr}
    {words : List UInt16} {s : Machine.State} {line back : Nat}
    (hw : List.Forall₂ (fun e w => c.word? m.word s.registers e = some w) args words) :
    HandsOver m c args back s { s with
      line := line
      registers := assignAll (Register.arguments.take words.length) words
        (Function.update s.registers .link (m.address back))
      stack := Machine.savedLink c.scope.function?.isSome s.registers ++ s.stack } := by
  have hnodup : (Register.arguments.take words.length).Nodup :=
    List.Nodup.sublist (List.take_sublist _ _) (by decide)
  constructor
  case arguments =>
    intro i e x he hx
    obtain ⟨hi, rfl⟩ := List.getElem?_eq_some_iff.mp he
    have hi' : i < words.length := hw.length_eq ▸ hi
    have hvalue := assignAll_getElem? hnodup
      (r := Function.update s.registers .link (m.address back))
      (by rwa [List.getElem?_take_of_lt hi']) (List.getElem?_eq_getElem hi')
    exact (hw.get hi hi').trans (congrArg some hvalue.symm)
  case link =>
    have hnot : Register.link ∉ Register.arguments.take words.length := fun h =>
      absurd (List.mem_of_mem_take h) (by decide)
    change assignAll _ _ _ _ = _
    rw [assignAll_of_not_mem hnot, Function.update_self]
  case stack => rfl
  case memory => rfl

namespace LowerM

/-- A call writes the body of the function, if it is not there yet, and then the lines of the call.
They hand the arguments over to the body, and a `return` that finds the stack and the return address
as they were at the beginning of the body hands the results back. -/
theorem call_returns (env : Environment) (enter : Enter) {site : CallSite} {targets : List Expr}
    {c c' : Compilation} {key : FunctionKey} {f : FunctionSymbol}
    (hb : builtinCallee site.callee = .ok none) (hk : c.callee site.callee = .ok key)
    (hf : c.function? key = some f) (hfew : f.arity ≤ Register.arguments.length)
    (hcall : call env enter site targets c = .ok () c') :
    ∃ arguments results, site.args.mapM c.operand = .ok arguments ∧
      targets.mapM c.target = .ok results ∧
      c'.program = (c.ensureEmitted enter key).program.writeAll
        (callLines c.scope.function?.isSome f.label arguments results) ∧
      ∀ (m : Machine) (c₀ : Compilation) (q : Nat), m.position? f.label = some q →
        m.Holds q (c₀.openBody key f).program.written →
      ∀ s, m.Holds s.line (callLines c.scope.function?.isSome f.label arguments results) →
      ∃ s₁, m.Reaches s s₁ ∧ s₁.line = q + (c₀.openBody key f).program.written.length ∧
        HandsOver m c site.args
          (s.line + (enterLines c.scope.function?.isSome arguments).length + 1) s s₁ ∧
        ∀ (c₂ c₃ : Compilation) (value? : Option Expr) (span : Span) (code : List Line),
          giveBack value? span c₂ = .ok () c₃ → c₃.program = c₂.program.writeAll code →
          (returned value?).length = targets.length →
        ∀ s₂, m.Holds s₂.line code → s₂.stack = s₁.stack →
          s₂.registers .link = s₁.registers .link →
        ∃ s₃, m.Reaches s₂ s₃ ∧
          s₃.line = s.line +
            (callLines c.scope.function?.isSome f.label arguments results).length ∧
          HandsBack m c c₂ results (returned value?) s s₂ s₃ := by
  rw [call_eq_callFunction env enter targets hb hk hf] at hcall
  obtain ⟨arguments, results, c₁, hlength, ha, hr, hsettles, rfl⟩ :=
    (callFunction_meets c enter key (c.shownName key) f site targets).ok hcall
  have hscope : c₁.scope.function?.isSome = c.scope.function?.isSome := by
    rw [hsettles.scope, c.ensureEmitted_scope]
  refine ⟨arguments, results, ha, hr, ?_, ?_⟩
  · change Program.callSequence .. = _
    rw [Program.callSequence_eq, hscope, hsettles.program]
  intro m c₀ q hq hbody s hcode
  rw [c₀.openBody_written] at hbody ⊢
  obtain ⟨words, hplain, hwords⟩ := c.words_of_operands m s.registers ha
  have harity : f.arity = words.length := hlength.symm.trans hwords.length_eq
  obtain ⟨s₁, hreach, hline, hover⟩ : ∃ s₁, m.Reaches s s₁ ∧ s₁.line = q + f.prologueLines.length ∧
      HandsOver m c site.args
        (s.line + (enterLines c.scope.function?.isSome arguments).length + 1) s s₁ := by
    refine ⟨_, Machine.reaches_callee hplain harity hfew hcode hq hbody, rfl, ?_⟩
    rw [harity]
    exact handsOver_assignAll hwords
  refine ⟨s₁, hreach, hline, hover, ?_⟩
  intro c₂ c₃ value? span code hgive hwrites hcount s₂ hcode₂ hstack hlink
  obtain ⟨operands, ho, hlines⟩ := program_giveBack hgive
  obtain rfl : code = giveBackLines operands := by
    have hwritten := congrArg Program.written (hwrites.symm.trans hlines)
    rw [Program.written_writeAll, Program.written_writeAll] at hwritten
    exact List.append_cancel_left hwritten
  obtain ⟨values, hplain₂, hvalues⟩ := c₂.words_of_operands m s₂.registers ho
  obtain ⟨-, hrest⟩ := Machine.holds_append.mp hcode
  obtain ⟨hjump, hleave⟩ := Machine.holds_cons.mp hrest
  have hresults : results.length = values.length := by
    rw [← hvalues.length_eq, hcount, (forall₂_of_mapM hr).length_eq]
  have hback : m.lineAt (s₂.registers .link) =
      s.line + (enterLines c.scope.function?.isSome arguments).length + 1 := by
    rw [hlink, hover.link]
    exact m.lineAt_address _ _ hjump
  refine ⟨_, Machine.reaches_caller hplain₂ hresults hcode₂ hback hleave
    (hstack.trans hover.stack), ?_, ?_⟩
  · simp only [callLines, List.length_append, List.length_cons]
    omega
  · exact ⟨⟨values, hvalues, rfl⟩, rfl, rfl⟩

/-- `second, first` -/
def crossed : Expr := .tuple [.name ⟨"second", default⟩, .name ⟨"first", default⟩] default

/-- `def swap(first, second): return second, first` -/
def swap : FunctionDef :=
  ⟨⟨"swap", default⟩, [⟨"first", default⟩, ⟨"second", default⟩], [],
    [.giveBack (some crossed) default], default⟩

/-- The beginning of another function, with `swap` still to be written. -/
def besideSwap : Compilation :=
  let caller : FunctionDef := ⟨⟨"caller", default⟩, [], [], [], default⟩
  let c := ((Compilation.start none).declare swap).declare caller
  c.openBody ⟨.root, "caller"⟩ (c.declared caller)

/-- `swap(A, 5)` -/
def swapSite : CallSite :=
  ⟨.name ⟨"swap", default⟩, [.name ⟨"A", default⟩, .number 5 default], [], default⟩

/-- The lines of the call and of the function, which begins behind the call. -/
def swapMachine : Machine where
  lines := callLines true "swap" [.reg .A, .lit 5] [.B, .C] ++
    (.label "swap" :: [.J, .B, .A].map (fun x => .pop (.reg x))) ++ giveBackLines [.reg .B, .reg .A]
  compute _ a _ := a
  word _ := 0
  address := UInt16.ofNat
  lineAt := UInt16.toNat
  lineAt_address i operand h := by
    have hi : i < 14 := (List.getElem?_eq_some_iff.mp h).1
    exact UInt16.toNat_ofNat_of_lt' (by change _ < 65536; omega)

theorem call_returns_swap :
    ∃ c', call ⟨⟨[], .empty []⟩, .empty⟩ (body ⟨⟨[], .empty []⟩, .empty⟩ 1) swapSite
        [.name ⟨"B", default⟩, .name ⟨"C", default⟩] besideSwap = .ok () c' ∧
      c'.program = (besideSwap.ensureEmitted (body ⟨⟨[], .empty []⟩, .empty⟩ 1)
        ⟨.root, "swap"⟩).program.writeAll (callLines true "swap" [.reg .A, .lit 5] [.B, .C]) ∧
      ∀ s : Machine.State, s.line = 0 → ∃ s₃, swapMachine.Reaches s s₃ ∧ s₃.line = 7 ∧
        s₃.registers .B = 5 ∧ s₃.registers .C = s.registers .A ∧
        s₃.registers .J = s.registers .J ∧ s₃.stack = s.stack := by
  obtain ⟨arguments, results, ha, hr, hprogram, hrun⟩ := @call_returns ⟨⟨[], .empty []⟩, .empty⟩
    (body ⟨⟨[], .empty []⟩, .empty⟩ 1) swapSite [.name ⟨"B", default⟩, .name ⟨"C", default⟩]
    besideSwap _ ⟨.root, "swap"⟩ ((Compilation.start none).declared swap) rfl rfl rfl (by decide)
    rfl
  obtain rfl : [.reg .A, .lit 5] = arguments := Except.ok.inj ha
  obtain rfl : [.B, .C] = results := Except.ok.inj hr
  refine ⟨_, rfl, hprogram, fun s hs => ?_⟩
  obtain ⟨s₁, hreach, hline, hover, hback⟩ := hrun swapMachine besideSwap 7 rfl ⟨_, rfl⟩ s
    (hs ▸ ⟨_, rfl⟩)
  obtain ⟨s₃, hreach₃, hline₃, ⟨values, hvalues, hregisters⟩, hstack, -⟩ := hback
    (besideSwap.openBody ⟨.root, "swap"⟩ ((Compilation.start none).declared swap)) _ (some crossed)
    default (giveBackLines [.reg .B, .reg .A]) rfl rfl rfl s₁ (hline ▸ ⟨[], rfl⟩) rfl rfl
  -- the body begins with the arguments in `A` and `B`, and gives them back crossed
  have hfirst : s.registers .A = s₁.registers .A :=
    Option.some.inj (hover.arguments 0 _ .A rfl rfl)
  have hsecond : 5 = s₁.registers .B := Option.some.inj (hover.arguments 1 _ .B rfl rfl)
  obtain rfl : values = [s₁.registers .B, s₁.registers .A] := by
    cases hvalues with
    | cons hw hvalues =>
        cases hvalues with
        | cons hw' hvalues =>
            obtain rfl : s₁.registers .B = _ := Option.some.inj hw
            obtain rfl : s₁.registers .A = _ := Option.some.inj hw'
            cases hvalues
            rfl
  have hnested : besideSwap.scope.function?.isSome = true := rfl
  rw [if_pos hnested] at hregisters
  refine ⟨s₃, hreach.trans hreach₃, by rw [hline₃, hs]; rfl, ?_, ?_, ?_, hstack⟩
  · rw [hregisters]
    exact hsecond.symm
  · rw [hregisters]
    exact hfirst.symm
  · rw [hregisters]
    rfl

end LowerM

end P16
