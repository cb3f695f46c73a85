import P16.Proofs.Grammar
import P16.Proofs.Resolve

/-!
# Runs of parsers

What the parsers for single tokens do, and what is known about the tokens when a parser that begins
with one of them succeeds.
-/

namespace P16

theorem ahead_cases (kind : TokenKind) (ts : List Token) :
    (∃ t ts', ts = t :: ts' ∧ t.kind = kind) ∨ ahead ts ≠ some kind := by
  cases ts with
  | nil => exact .inr (by simp)
  | cons t ts =>
      by_cases hkind : t.kind = kind
      · exact .inl ⟨t, ts, rfl, hkind⟩
      · exact .inr (by simpa using hkind)

theorem exists_of_ahead {kind : TokenKind} {ts : List Token} (h : ahead ts = some kind) :
    ∃ t ts', ts = t :: ts' ∧ t.kind = kind :=
  (ahead_cases kind ts).resolve_right (not_not_intro h)

namespace Parser

variable {α β : Type} {eof : Span} {ts mid rest : List Token} {t : Token} {kind : TokenKind}

section forward

theorem bind_run {p : Parser α} {a : α} (h : p eof ts = .ok (a, mid)) (f : α → Parser β) :
    (p >>= f) eof ts = f a eof mid := by
  change (p eof ts >>= fun r => f r.1 eof r.2) = f a eof mid
  rw [h]
  rfl

theorem peekKind_bind (f : Option TokenKind → Parser β) :
    (peekKind >>= f) eof ts = f (ahead ts) eof ts := rfl

theorem atExprListEnd_bind (f : Bool → Parser β) :
    (atExprListEnd >>= f) eof ts = f (endsExprList ts) eof ts := by
  cases ts <;> rfl

theorem atKeyword_bind (f : Bool → Parser β) :
    (atKeyword >>= f) eof ts = f (startsKeyword ts) eof ts := by
  match ts with
  | [] => rfl
  | [t] =>
      have hnot : startsKeyword [t] = false := by simp [startsKeyword]
      rw [hnot]
      rfl
  | t :: u :: ts =>
      have hkinds : startsKeyword (t :: u :: ts) =
          (decide (t.kind = .ident) && decide (u.kind = .eq)) := by
        simp [startsKeyword]
      rw [hkinds]
      rfl

theorem accept?_of_kind (h : t.kind = kind) : accept? kind eof (t :: ts) = .ok (some t, ts) := by
  change (if t.kind = kind then _ else _ : Parser _) eof (t :: ts) = _
  rw [if_pos h]
  rfl

theorem accept?_of_ahead (h : ahead ts ≠ some kind) : accept? kind eof ts = .ok (none, ts) := by
  cases ts with
  | nil => rfl
  | cons t ts =>
      change (if t.kind = kind then _ else _ : Parser _) eof (t :: ts) = _
      rw [if_neg (by simpa using h)]
      rfl

theorem accept_of_kind (h : t.kind = kind) : accept kind eof (t :: ts) = .ok (true, ts) :=
  (bind_run (accept?_of_kind h) _).trans rfl

theorem accept_of_ahead (h : ahead ts ≠ some kind) : accept kind eof ts = .ok (false, ts) :=
  (bind_run (accept?_of_ahead h) _).trans rfl

theorem expect_of_kind (h : t.kind = kind) : expect kind eof (t :: ts) = .ok (t, ts) :=
  (bind_run (accept?_of_kind h) _).trans rfl

theorem ident_of_kind (h : t.kind = .ident) : ident eof (t :: ts) = .ok (t.ident, ts) :=
  (bind_run (accept?_of_kind h) _).trans rfl

theorem next?_cons : next? eof (t :: ts) = .ok (some t, ts) := rfl

theorem skip_cons : skip eof (t :: ts) = .ok (t.span, ts) := rfl

end forward

section backward

variable {r : α × List Token} {r' : β × List Token}

theorem failHere_ne_ok {cause : ParseError.Cause} : (failHere cause : Parser α) eof ts ≠ .ok r := by
  intro h
  cases ts <;> cases h

theorem tooDeep_ne_ok : (tooDeep : Parser α) eof ts ≠ .ok r := failHere_ne_ok

theorem bind_inv {p : Parser α} {f : α → Parser β} (h : (p >>= f) eof ts = .ok r') :
    ∃ a mid, p eof ts = .ok (a, mid) ∧ f a eof mid = .ok r' := by
  obtain ⟨⟨a, mid⟩, ha, hb⟩ := exists_of_bind_eq_ok h
  exact ⟨a, mid, ha, hb⟩

theorem accept?_bind_inv {f : Option Token → Parser β}
    (h : (accept? kind >>= f) eof ts = .ok r') :
    (∃ t ts', ts = t :: ts' ∧ t.kind = kind ∧ f (some t) eof ts' = .ok r') ∨
      ahead ts ≠ some kind ∧ f none eof ts = .ok r' := by
  rcases ahead_cases kind ts with ⟨t, ts', rfl, ht⟩ | hts
  · rw [bind_run (accept?_of_kind ht)] at h
    exact .inl ⟨t, ts', rfl, ht, h⟩
  · rw [bind_run (accept?_of_ahead hts)] at h
    exact .inr ⟨hts, h⟩

theorem accept_bind_inv {f : Bool → Parser β} (h : (accept kind >>= f) eof ts = .ok r') :
    (∃ t ts', ts = t :: ts' ∧ t.kind = kind ∧ f true eof ts' = .ok r') ∨
      ahead ts ≠ some kind ∧ f false eof ts = .ok r' := by
  rcases ahead_cases kind ts with ⟨t, ts', rfl, ht⟩ | hts
  · rw [bind_run (accept_of_kind ht)] at h
    exact .inl ⟨t, ts', rfl, ht, h⟩
  · rw [bind_run (accept_of_ahead hts)] at h
    exact .inr ⟨hts, h⟩

theorem expect_bind_inv {f : Token → Parser β} (h : (expect kind >>= f) eof ts = .ok r') :
    ∃ t ts', ts = t :: ts' ∧ t.kind = kind ∧ f t eof ts' = .ok r' := by
  rcases ahead_cases kind ts with ⟨t, ts', rfl, ht⟩ | hts
  · rw [bind_run (expect_of_kind ht)] at h
    exact ⟨t, ts', rfl, ht, h⟩
  · obtain ⟨a, mid, ha, -⟩ := bind_inv h
    unfold expect at ha
    rw [bind_run (accept?_of_ahead hts)] at ha
    dsimp only at ha
    rw [peekKind_bind] at ha
    cases hahead : ahead ts with
    | none | some found =>
        rw [hahead] at ha
        exact absurd ha failHere_ne_ok

theorem ident_inv {x : Ident} (h : ident eof ts = .ok (x, rest)) :
    ∃ t, ts = t :: rest ∧ t.kind = .ident ∧ x = t.ident := by
  rcases ahead_cases .ident ts with ⟨t, ts', rfl, ht⟩ | hts
  · rw [ident_of_kind ht] at h
    cases h
    exact ⟨t, rfl, ht, rfl⟩
  · unfold ident at h
    rw [bind_run (accept?_of_ahead hts)] at h
    dsimp only at h
    rw [peekKind_bind] at h
    cases hahead : ahead ts with
    | none | some found =>
        rw [hahead] at h
        exact absurd h failHere_ne_ok

theorem ident_bind_inv {f : Ident → Parser β} (h : (ident >>= f) eof ts = .ok r') :
    ∃ t ts', ts = t :: ts' ∧ t.kind = .ident ∧ f t.ident eof ts' = .ok r' := by
  obtain ⟨x, mid, hx, h⟩ := bind_inv h
  obtain ⟨t, rfl, ht, rfl⟩ := ident_inv hx
  exact ⟨t, mid, rfl, ht, h⟩

end backward

end Parser

end P16
