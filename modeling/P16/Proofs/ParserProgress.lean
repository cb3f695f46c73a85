import P16.Proofs.ParserBounds

/-!
# Parsers end and advance

On any tokens, well formed or not, the parsers end without using up their bounds, and those for
statements, suites, expressions and names have read a token when they succeed. A module is read only
as a whole.
-/

namespace P16

theorem exists_cons_suffix {ts rest : List Token} (h : rest <:+ ts)
    (hlength : rest.length < ts.length) : ∃ t, t :: rest <:+ ts := by
  obtain ⟨front, rfl⟩ := h
  cases hlast : front.getLast? with
  | none =>
      rw [List.getLast?_eq_none_iff] at hlast
      simp [hlast] at hlength
  | some t =>
      obtain ⟨front, rfl⟩ := List.getLast?_eq_some_iff.mp hlast
      exact ⟨t, front, by simp⟩

namespace Parser

variable {α : Type}

/-- The parser ends by itself: a bound above the number of tokens is not used up, and which one it
is makes no difference. -/
def Ends (p : Nat → Parser α) : Prop :=
  ∀ eof ts bound bound', ts.length < bound → ts.length < bound' →
    p bound eof ts = p bound' eof ts ∧ ∀ e, p bound eof ts = .error e → e.cause ≠ .tooDeep

/-- If the parser succeeds on these tokens, it has read at least one of them. -/
def AdvancesOn (p : Parser α) (eof : Span) (ts : List Token) : Prop :=
  ∀ a rest, p eof ts = .ok (a, rest) → ∃ t, t :: rest <:+ ts

/-- The parser ends on all tokens, and advances on all of them whatever its bound is. -/
structure Progresses (p : Nat → Parser α) : Prop where
  ends : Ends p
  advances : ∀ bound eof ts, (p bound).AdvancesOn eof ts

theorem ends_of_alike {p : Nat → Parser α}
    (h : ∀ n bound bound', n < bound → n < bound' →
      AlikeBelow (fun _ => True) (n + 1) (p bound) (p bound')) : Ends p := by
  intro eof ts bound bound' hb hb'
  have hts : Input (fun _ => True) (ts.length + 1) eof ts :=
    ⟨Nat.lt_succ_self _, trivial, fun _ _ => trivial⟩
  have halike := h ts.length bound bound' hb hb' eof ts hts
  exact ⟨halike.eq, fun e he => (halike.fault e he).1⟩

theorem advancesOn_of_sound {p : Parser α} {R : α → List Token → List Token → Prop} (h : p.Sound R)
    (hR : ∀ a ts rest, R a ts rest → rest <:+ ts ∧ rest.length < ts.length) (eof : Span)
    (ts : List Token) : p.AdvancesOn eof ts := by
  intro a rest hrun
  obtain ⟨hsuffix, hlength⟩ := hR a ts rest (h eof ts a rest hrun)
  exact exists_cons_suffix hsuffix hlength

theorem progresses_stmt : Progresses stmt where
  ends := ends_of_alike fun _ _ _ hb hb' => alike_stmt (fun _ _ => id) hb hb'
  advances bound := advancesOn_of_sound (sound_stmt bound) fun _ _ _ h => ⟨h.suffix, h.length_le⟩

theorem progresses_suite : Progresses fun bound => suite (stmt bound) (bound + 1) where
  ends := ends_of_alike fun _ bound _ hb hb' _ _ hts =>
    alike_suite (alike_stmt (fun _ _ => id) (Nat.le_of_lt hb) (Nat.le_of_lt hb')) (sound_stmt bound)
      (fun _ _ => id) (Nat.le_succ_of_le hb) (Nat.le_succ_of_le hb') hts
  advances bound := advancesOn_of_sound (sound_suite (sound_stmt bound) (bound + 1))
    fun _ _ _ h => ⟨h.suffix, h.length_le⟩

theorem progresses_expr (power : Nat) : Progresses fun bound => expr bound power where
  ends := ends_of_alike fun _ _ _ hb hb' => alike_expr (fun _ _ => id) hb hb' power
  advances bound := advancesOn_of_sound (sound_expr bound power)
    fun _ _ _ h => ⟨h.suffix, h.length_le⟩

theorem progresses_primary : Progresses fun bound => primary (expr bound 0) bound where
  ends := ends_of_alike fun _ bound _ hb hb' _ _ hts =>
    alike_primary (alike_expr (fun _ _ => id) (Nat.le_of_lt hb) (Nat.le_of_lt hb') 0)
      (sound_expr bound 0) hts (Nat.le_of_lt hb) (Nat.le_of_lt hb')
  advances bound := advancesOn_of_sound (sound_primary (sound_expr bound 0) bound)
    fun _ _ _ h => ⟨h.suffix, h.length_le⟩

theorem progresses_call (callee : Expr) :
    Progresses fun bound => call (expr bound 0) bound callee where
  ends := ends_of_alike fun _ bound _ hb hb' _ _ hts =>
    alike_call (alike_expr (fun _ _ => id) hb hb' 0) (sound_expr bound 0) (fun _ _ => id) hts hb hb'
  advances bound eof ts := by
    intro e rest hrun
    obtain ⟨t, mid, rfl, -, hrun⟩ := expect_bind_inv hrun
    obtain ⟨args, mid', hargs, hrun⟩ := bind_inv hrun
    obtain ⟨close, mid', rfl, -, hrun⟩ := expect_bind_inv hrun
    cases hrun
    have hsuffix := (sound_arguments (sound_expr bound 0) bound none _ _ _ _ hargs).suffix
    exact ⟨close, hsuffix.trans (List.suffix_cons t mid)⟩

theorem progresses_dottedName : Progresses dottedName where
  ends := ends_of_alike fun _ _ _ hb hb' => alike_dottedName hb hb'
  advances bound := advancesOn_of_sound (sound_dottedName bound)
    fun _ _ _ h => ⟨h.suffix, h.length_lt⟩

theorem ends_comparison (left : Expr) :
    Ends fun bound => comparison (expr bound Power.comparison.right) bound left :=
  ends_of_alike fun _ bound _ hb hb' _ _ hts =>
    alike_comparison (alike_expr (fun _ _ => id) hb hb') (sound_expr bound) hts hb hb'

theorem advancesOn_comparison {t : Token} (ht : t.kind.startsComparison) (bound : Nat) (left : Expr)
    (eof : Span) (ts : List Token) :
    (comparison (expr bound Power.comparison.right) bound left).AdvancesOn eof (t :: ts) := by
  intro e rest hrun
  obtain ⟨link, more, hlinks, -⟩ := sound_comparison (sound_expr bound) ht hrun
  exact exists_cons_suffix hlinks.suffix hlinks.length_le

theorem ends_wholeModule : Ends wholeModule :=
  ends_of_alike fun _ _ _ hb hb' => alike_wholeModule (fun _ _ => id) hb hb'

theorem eq_nil_of_wholeModule {bound : Nat} {eof : Span} {ts rest : List Token} {m : Module}
    (h : wholeModule bound eof ts = .ok (m, rest)) : rest = [] := by
  obtain ⟨start, ts', hstart, h⟩ := bind_inv h
  obtain ⟨body, rest', hbody, h⟩ := bind_inv h
  cases h
  exact (sound_moduleStmts _ _ _ _ _ _ hbody).1

/-- The parsers of statements, suites, expressions, operands, calls and dotted names end and advance
on all tokens. So does the parser of comparisons where a comparison is ahead, which is where an
expression uses it. A module ends too, and is read only with all the tokens. -/
theorem parsers_progress :
    Progresses stmt ∧ Progresses (fun bound => suite (stmt bound) (bound + 1)) ∧
      (∀ power, Progresses fun bound => expr bound power) ∧
      Progresses (fun bound => primary (expr bound 0) bound) ∧
      (∀ callee, Progresses fun bound => call (expr bound 0) bound callee) ∧
      Progresses dottedName ∧
      (∀ left, Ends (fun bound => comparison (expr bound Power.comparison.right) bound left) ∧
        ∀ bound eof t ts, t.kind.startsComparison →
          (comparison (expr bound Power.comparison.right) bound left).AdvancesOn eof (t :: ts)) ∧
      Ends wholeModule ∧
      ∀ bound eof ts m rest, wholeModule bound eof ts = .ok (m, rest) → rest = [] :=
  ⟨progresses_stmt, progresses_suite, progresses_expr, progresses_primary, progresses_call,
    progresses_dottedName,
    fun left => ⟨ends_comparison left, fun bound eof _ ts ht =>
      advancesOn_comparison ht bound left eof ts⟩,
    ends_wholeModule, fun _ _ _ _ _ => eq_nil_of_wholeModule⟩

/-- Tokens that no text has: they go on with a dedent and a character that begins no token, and end
without a line break. -/
theorem parsers_progress_malformed :
    let ts : List Token :=
      [⟨.lt, default, "<"⟩, ⟨.ident, default, "y"⟩, ⟨.dedent, default, ""⟩, ⟨.error, default, "?"⟩]
    (∃ e rest t, comparison (expr 5 Power.comparison.right) 5 (.name ⟨"x", default⟩) default ts =
        .ok (e, rest) ∧ t :: rest <:+ ts) ∧
      ∃ e, wholeModule 5 default ts = .error e ∧ e.cause ≠ .tooDeep := by
  intro ts
  obtain ⟨-, -, -, -, -, -, hcomparison, hmodule, -⟩ := parsers_progress
  have hrun := (hcomparison (.name ⟨"x", default⟩)).2 5 default ⟨.lt, default, "<"⟩ ts.tail rfl
  obtain ⟨t, ht⟩ := hrun _ _ rfl
  exact ⟨⟨_, _, t, rfl, ht⟩, _, rfl, (hmodule default ts 5 5 (by decide) (by decide)).2 _ rfl⟩

end Parser

end P16
