import Mathlib.Data.Int.ModEq
import Mathlib.Data.Nat.Digits.Defs
import P16.Lowering.Operand
import P16.Proofs.Nesting
import P16.Proofs.TextLiterals

/-!
# Literals of numbers

A number that is scanned has the value of its digits by their places. The numbers of a tree are
small enough to be negated, and one that is an operand becomes the word that is congruent to it.
-/

namespace P16

open Scan (Numeral)

namespace Literal

section digits

/-- The place of a digit, in either case, among the digits. -/
def digitValue (c : Char) : Nat :=
  "0123456789abcdef".toList.idxOf c.toLower

/-- What is written without the underscores. -/
def written (cs : List Char) : List Char :=
  cs.filter (· ≠ '_')

/-- The value of the digits by their places, the last of which is that of the ones. -/
def positional (base : Nat) (digits : List Char) : Nat :=
  Nat.ofDigits base ((written digits).map digitValue).reverse

theorem exists_of_range {a b c : Char} (hlow : a ≤ c) (hhigh : c ≤ b) :
    ∃ d < b.toNat + 1 - a.toNat, c = Char.ofNat (a.toNat + d) := by
  have hlow : a.toNat ≤ c.toNat := hlow
  have hhigh : c.toNat ≤ b.toNat := hhigh
  refine ⟨c.toNat - a.toNat, by omega, ?_⟩
  rw [Nat.add_sub_cancel' hlow, Char.ofNat_toNat]

theorem digit?_of_isDigit {c : Char} (h : c.isDigit = true) :
    digit? 10 c.toLower = some (digitValue c) := by
  obtain ⟨d, hd, rfl⟩ := exists_digit h
  revert d
  decide

theorem digit?_of_hex {c : Char}
    (h : (c.isDigit || ('a' ≤ c && c ≤ 'f') || ('A' ≤ c && c ≤ 'F')) = true) :
    digit? 16 c.toLower = some (digitValue c) := by
  simp only [Bool.or_eq_true, Bool.and_eq_true, decide_eq_true_eq] at h
  rcases h with (h | ⟨hlow, hhigh⟩) | ⟨hlow, hhigh⟩
  · obtain ⟨d, hd, rfl⟩ := exists_digit h
    revert d
    decide
  all_goals
    obtain ⟨d, hd, rfl⟩ := exists_of_range hlow hhigh
    revert d
    decide

theorem digit?_of_octal {c : Char} (h : ('0' ≤ c && c ≤ '7') = true) :
    digit? 8 c.toLower = some (digitValue c) := by
  simp only [Bool.and_eq_true, decide_eq_true_eq] at h
  obtain ⟨d, hd, rfl⟩ := exists_of_range h.1 h.2
  revert d
  decide

theorem digit?_of_binary {c : Char} (h : (c = '0' || c = '1') = true) :
    digit? 2 c.toLower = some (digitValue c) := by
  simp only [Bool.or_eq_true, decide_eq_true_eq] at h
  rcases h with rfl | rfl <;> decide

theorem digit?_of_isRadixRest {letter c : Char} {base : Nat}
    (hletter : (letter, base) ∈ Scan.marks) (h : Scan.isRadixRest letter c = true)
    (hc : c ≠ '_') : digit? base c.toLower = some (digitValue c) := by
  unfold Scan.isRadixRest at h
  rw [decide_eq_false hc, Bool.false_or] at h
  simp only [Scan.marks, List.mem_cons, Prod.mk.injEq, List.not_mem_nil, or_false] at hletter
  rcases hletter with ⟨rfl, rfl⟩ | ⟨rfl, rfl⟩ | ⟨rfl, rfl⟩ | ⟨rfl, rfl⟩ | ⟨rfl, rfl⟩ | ⟨rfl, rfl⟩
  exacts [digit?_of_hex h, digit?_of_hex h, digit?_of_octal h, digit?_of_octal h,
    digit?_of_binary h, digit?_of_binary h]

theorem radix?_toLower :
    ∀ mark ∈ Scan.marks, radix? mark.1.toLower = some mark.2 ∧ mark.1 ≠ '_' := by
  decide

theorem digitsFrom?_eq_ofDigits {base : Nat} {cs : List Char}
    (h : ∀ c ∈ cs, digit? base c.toLower = some (digitValue c)) (value : Nat) :
    digitsFrom? base value (cs.map Char.toLower) =
      some (value * base ^ cs.length + Nat.ofDigits base (cs.map digitValue).reverse) := by
  induction cs generalizing value with
  | nil => simp [digitsFrom?]
  | cons c cs ih =>
      obtain ⟨hc, hcs⟩ := List.forall_mem_cons.mp h
      rw [List.map_cons, digitsFrom?, hc, Option.bind_some, ih hcs, List.map_cons,
        List.reverse_cons, Nat.ofDigits_append, Nat.ofDigits_singleton, List.length_reverse,
        List.length_map, List.length_cons]
      congr 1
      ring

variable {piece digits : List Char} {base : Nat}

theorem isDigit_of_decimal {c : Char} {cs : List Char} (hc : c.isDigit = true)
    (hcs : ∀ d ∈ cs, Scan.isDecimalRest d = true) : ∀ d ∈ written (c :: cs), d.isDigit = true := by
  intro d hd
  obtain ⟨hmem, hne⟩ := List.mem_filter.mp hd
  rcases List.mem_cons.mp hmem with rfl | hmem
  · exact hc
  · simpa [Scan.isDecimalRest, of_decide_eq_true hne] using hcs d hmem

theorem digit?_of_numeral (h : Numeral piece base digits) :
    ∀ c ∈ written digits, digit? base c.toLower = some (digitValue c) := by
  intro c hc
  cases h with
  | decimal hfirst hrest => exact digit?_of_isDigit (isDigit_of_decimal hfirst hrest c hc)
  | marked hletter hdigits =>
      obtain ⟨hmem, hne⟩ := List.mem_filter.mp hc
      exact digit?_of_isRadixRest hletter (hdigits c hmem) (of_decide_eq_true hne)

theorem digits?_of_numeral (h : Numeral piece base digits) :
    digits? base ((written digits).map Char.toLower) =
      if written digits = [] then none else some (positional base digits) := by
  have hdigits := digitsFrom?_eq_ofDigits (digit?_of_numeral h) 0
  rw [Nat.zero_mul, Nat.zero_add] at hdigits
  simp [digits?, hdigits, positional]

/-- The mark for the base is told from the digits, though the underscores are gone. -/
theorem numeral?_of_numeral (h : Numeral piece base digits) :
    numeral? ((written piece).map Char.toLower) =
      digits? base ((written digits).map Char.toLower) := by
  cases h with
  | decimal hfirst hrest =>
      refine numeral?_digits fun d hd => ?_
      obtain ⟨c, hc, rfl⟩ := List.mem_map.mp hd
      have hdigit := isDigit_of_decimal hfirst hrest c hc
      rw [(digit_facts hdigit).2.2.1]
      exact hdigit
  | marked hletter hdigits =>
      obtain ⟨hradix, hne⟩ := radix?_toLower _ hletter
      simp [written, numeral?, hne, hradix]

theorem integer?_of_numeral {text : String} (h : Numeral text.toList base digits) :
    integer? text = if written digits ≠ [] ∧ positional base digits < 0x8000000000000000 then
      some (positional base digits : Int) else none := by
  have hvalue := (numeral?_of_numeral h).trans (digits?_of_numeral h)
  have hsmall : positional base digits ≤ maxInteger ↔
      positional base digits < 0x8000000000000000 := by
    rw [maxInteger]
    omega
  change ((numeral? ((written text.toList).map Char.toLower)).filter _).map _ = _
  rw [hvalue]
  by_cases hwritten : written digits = []
  · simp [hwritten]
  by_cases hfits : positional base digits < 0x8000000000000000
  · simp [hwritten, hfits, hsmall]
  · have hlarge : ¬ positional base digits ≤ maxInteger := mt hsmall.mp hfits
    simp [hwritten, hfits, Nat.lt_of_not_le hlarge]

end digits

end Literal

theorem Scan.Lexeme.number_inv {kind : TokenKind} {piece rest : List Char}
    (h : Lexeme (some kind) piece rest) (hkind : kind = .int) :
    ∃ base digits, Numeral piece base digits := by
  cases h with
  | number hnumeral => exact ⟨_, _, hnumeral⟩
  | word => exact absurd hkind (TokenKind.ofWord_not_literal _).1
  | symbol hmem => exact absurd hkind (TokenKind.symbol_not_literal _ hmem).1
  | text | openText | stray => cases hkind

section operands

/-- The number that a literal, or one with a minus sign before it, stands for. -/
def Expr.integer? : Expr → Option Int
  | number n _ => some n
  | unary .neg (number n _) _ => some (-n)
  | _ => none

variable {i : Int}

theorem neg_ofInt {n : Int} (hlow : 0 ≤ n) (hhigh : n < 0x8000000000000000) :
    (-Int64.ofInt n).toInt = -n := by
  rw [← Int64.ofInt_neg]
  exact Int64.toInt_ofInt_of_le (by omega) (by omega)

theorem word?_eq_some_iff {w : UInt16} :
    word? i = some w ↔ (-0x8000 ≤ i ∧ i ≤ 0xffff) ∧ (w.toNat : Int) ≡ i [ZMOD 0x10000] := by
  have hw : (w.toNat : Int) % 0x10000 = w.toNat := by
    have := w.toNat_lt
    omega
  unfold word?
  by_cases hrange : -0x8000 ≤ i ∧ i ≤ 0xffff
  · rw [if_pos hrange, Option.some.injEq, Int.ModEq, hw, and_iff_right hrange,
      ← UInt16.toNat_inj, UInt16.toNat_ofNat']
    omega
  · rw [if_neg hrange]
    exact iff_of_false nofun fun h => hrange h.1

theorem literalOperand_eq_ok_iff {e : Expr} {o : Operand} :
    literalOperand i e = .ok o ↔ ∃ w, o = .lit w ∧ word? i = some w := by
  unfold literalOperand
  split
  next w hw => simp [hw, eq_comm]
  next hw => simp [hw]

theorem operand_of_integer? {e : Expr} (h : e.integer? = some i) (c : Compilation) :
    c.operand e = literalOperand i e ∧ c.value e = .ok (.number i) := by
  unfold Expr.integer? at h
  split at h <;> cases h
  · simp [Compilation.operand, Compilation.value]
  · simp [Compilation.operand, Compilation.value]

end operands

/-- Literals of numbers mean what they say. A number that is scanned is read as the value of its
digits, unless it has none or is too large. So the numbers of a module that is read can be negated
in 64 bits. As an operand, one with or without a sign is the word that is congruent to it, if it is
in the range of words. -/
theorem integers_read_as_written :
    (∀ (source : String), ∀ t ∈ scan source, t.kind = .int →
      ∃ base digits, Numeral t.text.toList base digits ∧
        Literal.integer? t.text =
          if Literal.written digits ≠ [] ∧
            Literal.positional base digits < 0x8000000000000000 then
          some (Literal.positional base digits : Int) else none) ∧
      (∀ (source : String) (m : Module), parseModule source = .ok m →
        ∀ (n : Int) (span : Span), m.Contains (.expr (.number n span)) →
          0 ≤ n ∧ n < 0x8000000000000000 ∧ (-Int64.ofInt n).toInt = -n) ∧
      ∀ (e : Expr) (i : Int), e.integer? = some i → ∀ (c : Compilation),
        c.value e = .ok (.number i) ∧
          ∀ (o : Operand), c.operand e = .ok o ↔ (-0x8000 ≤ i ∧ i ≤ 0xffff) ∧
            ∃ w, o = .lit w ∧ (w.toNat : Int) ≡ i [ZMOD 0x10000] := by
  refine ⟨fun source t ht hkind => ?_, fun source m hm n span hn => ?_, fun e i he c => ?_⟩
  · obtain ⟨_, _, _, hlexeme, _, _⟩ := (Scan.cut_scan source).lexeme t ht
    obtain ⟨base, digits, hnumeral⟩ := hlexeme.number_inv hkind
    exact ⟨base, digits, hnumeral, Literal.integer?_of_numeral hnumeral⟩
  · have hbounds : 0 ≤ n ∧ n ≤ Literal.maxInteger := (sound_of_contains hm hn).bounded
    have hhigh : n < 0x8000000000000000 := by
      have := hbounds.2
      rw [Literal.maxInteger] at this
      omega
    exact ⟨hbounds.1, hhigh, neg_ofInt hbounds.1 hhigh⟩
  · obtain ⟨hoperand, hvalue⟩ := operand_of_integer? he c
    refine ⟨hvalue, fun o => ?_⟩
    simp only [hoperand, literalOperand_eq_ok_iff, word?_eq_some_iff]
    constructor
    · rintro ⟨w, ho, hrange, hw⟩
      exact ⟨hrange, w, ho, hw⟩
    · rintro ⟨hrange, w, ho, hw⟩
      exact ⟨w, ho, hrange, hw⟩

/-- The number that a statement assigns with a minus sign before it. -/
def Stmt.negated? : Stmt → Option (Int × Span)
  | assign _ (.unary .neg (.number n span) _) _ => some (n, span)
  | _ => none

theorem contains_of_negated? {m : Module} {s : Stmt} {n : Int} {span : Span} (hs : s ∈ m.body)
    (h : s.negated? = some (n, span)) : m.Contains (.expr (.number n span)) := by
  unfold Stmt.negated? at h
  split at h
  next targets n span outer whole =>
    cases h
    have hvalue : m.Contains (.expr (.unary .neg (.number n span) outer)) :=
      .child (.stmt hs) (List.mem_append_right _ List.mem_cons_self)
    exact .child hvalue List.mem_cons_self
  next => cases h

def negatedSource : String := "a = -0x8_000"

def negatedNumber : Token := ⟨.int, ⟨5, 12, 1, 5⟩, "0x8_000"⟩

def negatedValue : Expr :=
  .unary .neg (.number 0x8000 negatedNumber.span) ⟨4, 12, 1, 4⟩

theorem integers_read_as_written_negated :
    (negatedNumber ∈ scan negatedSource ∧ Literal.integer? negatedNumber.text = some 0x8000 ∧
      ∃ base digits, Numeral negatedNumber.text.toList base digits ∧
        Literal.integer? negatedNumber.text =
          if Literal.written digits ≠ [] ∧
            Literal.positional base digits < 0x8000000000000000 then
          some (Literal.positional base digits : Int) else none) ∧
      (∃ m, parseModule negatedSource = .ok m ∧
        m.Contains (.expr (.number 0x8000 negatedNumber.span)) ∧
        (-Int64.ofInt 0x8000).toInt = -0x8000) ∧
      negatedValue.integer? = some (-0x8000) ∧ ∀ c : Compilation,
        c.value negatedValue = .ok (.number (-0x8000)) ∧
          c.operand negatedValue = .ok (.lit 0x8000) := by
  have hmem : negatedNumber ∈ scan negatedSource := by decide +kernel
  have hcheck : (parseModule negatedSource).toOption.any (fun m =>
      m.body.map Stmt.negated? = [some (0x8000, negatedNumber.span)]) = true := by
    decide +kernel
  refine ⟨⟨hmem, by decide +kernel, integers_read_as_written.1 _ _ hmem rfl⟩, ?_, rfl, fun c => ?_⟩
  · cases hm : parseModule negatedSource with
    | error e => simp [hm, Except.toOption] at hcheck
    | ok m =>
        have hbody : m.body.map Stmt.negated? = [some (0x8000, negatedNumber.span)] := by
          simpa [hm, Except.toOption] using hcheck
        obtain ⟨s, hs, hnegated⟩ := List.mem_map.mp (hbody ▸ List.mem_cons_self)
        have hnumber := contains_of_negated? hs hnegated
        exact ⟨m, rfl, hnumber, (integers_read_as_written.2.1 _ _ hm _ _ hnumber).2.2⟩
  · obtain ⟨hvalue, hoperand⟩ := integers_read_as_written.2.2 negatedValue (-0x8000) rfl c
    exact ⟨hvalue, (hoperand _).mpr ⟨by decide, 0x8000, rfl, by decide⟩⟩

end P16
