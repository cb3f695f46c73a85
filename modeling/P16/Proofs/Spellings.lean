import P16.Literal
import P16.Token.Scan

/-!
# Spellings of literals

A number written in decimal and a text written between quotes denote what was written, and each is
scanned as one token.
-/

namespace P16

theorem Scan.isWordRest_of_isWordStart {c : Char} (h : isWordStart c) : isWordRest c := by
  simp only [isWordStart, isWordRest, Char.isAlphanum, Bool.or_eq_true] at h ⊢
  exact h.imp_left .inl

theorem TokenKind.ofWord_cases (word : String) :
    ofWord word = .ident ∨ ∃ entry ∈ keywords, ofWord word = entry.2 := by
  unfold ofWord
  cases hfound : keywords.lookup word with
  | none => exact .inl rfl
  | some kind =>
      obtain ⟨before, after, hsplit, -⟩ := List.lookup_eq_some_iff.mp hfound
      exact .inr ⟨(word, kind), hsplit ▸ List.mem_append_right _ List.mem_cons_self, rfl⟩

namespace Scan

/-- A text stands between single quotes on one line, or between three quotes. -/
inductive TextForm where
  | line
  | block
deriving DecidableEq

namespace TextForm

def quotes (quote : Char) : TextForm → List Char
  | line => [quote]
  | block => [quote, quote, quote]

def enclose (form : TextForm) (quote : Char) (body : List Char) : List Char :=
  form.quotes quote ++ (body ++ form.quotes quote)

/-- What may stand between the quotes. A backslash takes the character after it along; in a block,
one or two quotes take the character after them along. -/
inductive Body (quote : Char) : TextForm → List Char → Prop where
  | nil {form : TextForm} : Body quote form []
  | plain {form : TextForm} {c : Char} {body : List Char} (hquote : c ≠ quote) (hslash : c ≠ '\\')
      (hline : form = line → c ≠ '\n') (h : Body quote form body) : Body quote form (c :: body)
  | escape {form : TextForm} {c : Char} {body : List Char} (hline : form = line → c ≠ '\n')
      (h : Body quote form body) : Body quote form ('\\' :: c :: body)
  | oneQuote {c : Char} {body : List Char} (hquote : c ≠ quote) (hslash : c ≠ '\\')
      (h : Body quote block body) : Body quote block (quote :: c :: body)
  | twoQuotes {c : Char} {body : List Char} (hquote : c ≠ quote) (hslash : c ≠ '\\')
      (h : Body quote block body) : Body quote block (quote :: quote :: c :: body)

end TextForm

end Scan

open Scan (TextForm)

namespace Literal

section decimal

theorem exists_digit {c : Char} (h : c.isDigit = true) : ∃ d < 10, c = Char.ofNat (48 + d) := by
  have hrange : 48 ≤ c.toNat ∧ c.toNat ≤ 57 := by
    simpa [Char.isDigit, UInt32.le_iff_toNat_le] using h
  refine ⟨c.toNat - 48, by omega, ?_⟩
  rw [show 48 + (c.toNat - 48) = c.toNat by omega, Char.ofNat_toNat]

theorem digit_facts {c : Char} (h : c.isDigit = true) :
    digit? 10 c = some (c.toNat - '0'.toNat) ∧ c ≠ '_' ∧ c.toLower = c ∧ radix? c = none ∧
      Scan.isRadixLetter c = false := by
  obtain ⟨d, hd, rfl⟩ := exists_digit h
  revert d
  decide

theorem digitsFrom?_eq {cs : List Char} (h : ∀ c ∈ cs, c.isDigit = true) (value : Nat) :
    digitsFrom? 10 value cs = some (Nat.ofDigitChars 10 cs value) := by
  induction cs generalizing value with
  | nil => rfl
  | cons c cs ih =>
      rw [digitsFrom?, (digit_facts (h c (by simp))).1, Option.bind_some,
        ih fun d hd => h d (by simp [hd]), Nat.mul_comm]
      rfl

theorem numeral?_digits {cs : List Char} (h : ∀ c ∈ cs, c.isDigit = true) :
    numeral? cs = digits? 10 cs := by
  match cs with
  | [] | [c] => rfl
  | c :: d :: cs =>
      have hradix : radix? d = none := (digit_facts (h d (by simp))).2.2.2.1
      have hnone : (if c = '0' then radix? d else none) = none := by simp [hradix]
      rw [numeral?]
      simp only [hnone]

theorem numeral?_eq {cs : List Char} (hcs : cs ≠ []) (h : ∀ c ∈ cs, c.isDigit = true) :
    numeral? cs = some (Nat.ofDigitChars 10 cs 0) := by
  rw [numeral?_digits h, digits?, if_neg (by simpa using hcs), digitsFrom?_eq h]

theorem integer?_decimal {n : Nat} (h : n ≤ maxInteger) :
    integer? (toString n) = some (n : Int) := by
  have hdigits : ∀ c ∈ Nat.toDigits 10 n, c.isDigit = true := fun c hc =>
    Nat.isDigit_of_mem_toDigits (by decide) (by decide) hc
  have hplain : ((Nat.toDigits 10 n).filter (· ≠ '_')).map Char.toLower = Nat.toDigits 10 n := by
    rw [List.filter_eq_self.mpr fun c hc => by simpa using (digit_facts (hdigits c hc)).2.1]
    exact (List.map_congr_left fun c hc => (digit_facts (hdigits c hc)).2.2.1).trans
      (List.map_id' _)
  rw [integer?, Nat.toString_eq_repr, Nat.toList_repr, hplain,
    numeral?_eq Nat.toDigits_ne_nil hdigits, Nat.ofDigitChars_toDigits (by decide) (by decide)]
  simp only [Option.filter_some, h, decide_true, ↓reduceIte, Option.map_some]
  rfl

end decimal

section quoted

/-- `body`, written between two of the quotes, stands for `value`: each character stands for itself
or is written by an escape. -/
inductive Quoted (quote : Char) : List Char → List Char → Prop where
  | nil : Quoted quote [] []
  | plain {c : Char} {body value : List Char} (hquote : c ≠ quote) (hslash : c ≠ '\\')
      (hline : c ≠ '\n') (h : Quoted quote body value) : Quoted quote (c :: body) (c :: value)
  | escape {c e : Char} {body value : List Char} (hc : escaped? c = some e)
      (h : Quoted quote body value) : Quoted quote ('\\' :: c :: body) (e :: value)

variable {quote : Char} {body value : List Char}

theorem Quoted.unescape (h : Quoted quote body value) : unescape body = .ok value := by
  induction h with
  | nil => rfl
  | plain _ hslash _ _ ih =>
      rw [Literal.unescape.eq_def]
      simp [hslash, ih, Except.map]
  | @escape c e body value hc _ ih =>
      have hline : c ≠ '\n' := by
        rintro rfl
        cases hc
      rw [Literal.unescape.eq_def]
      simp [hline, hc, ih, Except.map]

theorem ne_slash_of_isQuote (h : Scan.isQuote quote = true) : quote ≠ '\\' := by
  rintro rfl
  cases h

theorem Quoted.head_ne (hquote : Scan.isQuote quote = true) (h : Quoted quote body value) :
    body.head? ≠ some quote := by
  cases h with
  | nil => nofun
  | plain hne _ _ _ => simpa using hne
  | escape _ _ => simpa using (ne_slash_of_isQuote hquote).symm

theorem Quoted.not_doubled (hquote : Scan.isQuote quote = true) (h : Quoted quote body value)
    {rest : List Char} (hrest : rest.head? ≠ some quote) :
    [quote, quote].isPrefixOf (body ++ quote :: rest) = false := by
  have hhead := h.head_ne hquote
  cases body with
  | nil =>
      cases rest with
      | nil => simp [List.isPrefixOf]
      | cons c rest =>
          have hc : quote ≠ c := by simpa [eq_comm] using hrest
          simp [List.isPrefixOf, hc]
  | cons c body =>
      have hc : quote ≠ c := by simpa [eq_comm] using hhead
      simp [List.isPrefixOf, hc]

theorem Quoted.lineTextLength (hquote : Scan.isQuote quote = true) (h : Quoted quote body value)
    (rest : List Char) :
    Scan.lineTextLength quote (body ++ quote :: rest) = (true, body.length + 1) := by
  induction h with
  | nil =>
      rw [List.nil_append, Scan.lineTextLength.eq_def]
      simp
  | plain hne hslash hline _ ih =>
      rw [List.cons_append, Scan.lineTextLength.eq_def]
      simp [hne, hslash, hline, ih]
  | @escape c e body value hc _ ih =>
      have hline : c ≠ '\n' := by
        rintro rfl
        cases hc
      rw [List.cons_append, List.cons_append, Scan.lineTextLength.eq_def]
      simp [(ne_slash_of_isQuote hquote).symm, hline, ih]

theorem Quoted.quotedText (hquote : Scan.isQuote quote = true) (h : Quoted quote body value)
    {rest : List Char} (hrest : rest.head? ≠ some quote) :
    Scan.quotedText quote (body ++ quote :: rest) = (.str, body.length + 1) := by
  rw [Scan.quotedText, h.not_doubled hquote hrest]
  simp [h.lineTextLength hquote rest, Scan.textKind]

end quoted

/-- How a character is written between the given quotes. -/
def escapeIn (quote c : Char) : List Char :=
  if c = '\\' || c = quote then ['\\', c]
  else if c = '\n' then ['\\', 'n']
  else if c = '\r' then ['\\', 'r']
  else if c = '\t' then ['\\', 't']
  else if c = '\x00' then ['\\', '0']
  else [c]

theorem escaped?_self {quote c : Char} (hquote : Scan.isQuote quote = true)
    (h : c = '\\' ∨ c = quote) : escaped? c = some c := by
  rw [Scan.isQuote, Bool.or_eq_true, decide_eq_true_eq, decide_eq_true_eq] at hquote
  rcases h with rfl | rfl
  · rfl
  · rcases hquote with rfl | rfl <;> rfl

theorem Quoted.escapeIn_append {quote : Char} {body value : List Char}
    (hquote : Scan.isQuote quote = true) (c : Char) (h : Quoted quote body value) :
    Quoted quote (escapeIn quote c ++ body) (c :: value) := by
  unfold escapeIn
  by_cases hself : c = '\\' ∨ c = quote
  · rw [if_pos (by simpa using hself)]
    exact .escape (escaped?_self hquote hself) h
  rw [if_neg (by simpa using hself)]
  by_cases hline : c = '\n'
  · subst hline
    exact .escape rfl h
  by_cases hreturn : c = '\r'
  · subst hreturn
    exact .escape rfl h
  by_cases htab : c = '\t'
  · subst htab
    exact .escape rfl h
  by_cases hnul : c = '\x00'
  · subst hnul
    exact .escape rfl h
  obtain ⟨hslash, hne⟩ := not_or.mp hself
  rw [if_neg hline, if_neg hreturn, if_neg htab, if_neg hnul]
  exact .plain hne hslash hline h

theorem quoted_flatMap_escapeIn {quote : Char} (hquote : Scan.isQuote quote = true)
    (cs : List Char) : Quoted quote (cs.flatMap (escapeIn quote)) cs := by
  induction cs with
  | nil => exact .nil
  | cons c cs ih =>
      rw [List.flatMap_cons]
      exact ih.escapeIn_append hquote c

section enclosed

variable {quote : Char} {form : TextForm} {body value : List Char}

theorem not_doubled_of_line (hquote : Scan.isQuote quote = true)
    (hbody : TextForm.Body quote .line body) :
    [quote, quote].isPrefixOf (body ++ [quote]) = false := by
  cases hbody with
  | nil => simp [List.isPrefixOf]
  | plain hne => simp [List.isPrefixOf, hne.symm]
  | escape => simp [List.isPrefixOf, ne_slash_of_isQuote hquote]

/-- The quotes with which a text was scanned are the first delimiter that encloses it. -/
theorem find?_delimiters (hquote : Scan.isQuote quote = true)
    (hbody : TextForm.Body quote form body) :
    delimiters.find? (fun d => 2 * d.length ≤ (form.enclose quote body).length &&
        d.isPrefixOf (form.enclose quote body) && d.isSuffixOf (form.enclose quote body)) =
      some (form.quotes quote) := by
  have hlength : 2 * (form.quotes quote).length ≤ (form.enclose quote body).length := by
    rw [TextForm.enclose, List.length_append, List.length_append]
    omega
  have hsuffix : (form.quotes quote).isSuffixOf (form.enclose quote body) = true := by
    rw [List.isSuffixOf_iff_suffix, TextForm.enclose, ← List.append_assoc]
    exact List.suffix_append _ _
  have hcases : quote = '"' ∨ quote = '\'' := by simpa [Scan.isQuote] using hquote
  cases form with
  | line =>
      have hnot := not_doubled_of_line hquote hbody
      rcases hcases with rfl | rfl <;>
        simp_all [delimiters, List.isPrefixOf, TextForm.enclose, TextForm.quotes]
  | block =>
      rcases hcases with rfl | rfl <;>
        simp_all [delimiters, List.isPrefixOf, TextForm.enclose, TextForm.quotes]

theorem unquote?_enclose (hquote : Scan.isQuote quote = true)
    (hbody : TextForm.Body quote form body) : unquote? (form.enclose quote body) = some body := by
  have hlength : (form.enclose quote body).length - 2 * (form.quotes quote).length =
      body.length := by
    rw [TextForm.enclose, List.length_append, List.length_append]
    omega
  rw [unquote?, find?_delimiters hquote hbody, Option.map_some, hlength, TextForm.enclose,
    List.drop_left' rfl, List.take_left' rfl]

theorem Quoted.toBody (form : TextForm) (h : Quoted quote body value) :
    TextForm.Body quote form body := by
  induction h with
  | nil => exact .nil
  | plain hquote hslash hline _ ih => exact .plain hquote hslash (fun _ => hline) ih
  | @escape c e body value hc _ ih =>
      refine .escape (fun _ => ?_) ih
      rintro rfl
      cases hc

/-- The text between quotes of the form, with what cannot stand there escaped. -/
def spelled (form : TextForm) (quote : Char) (value : String) : String :=
  String.ofList (form.enclose quote (value.toList.flatMap (escapeIn quote)))

theorem text_spelled (hquote : Scan.isQuote quote = true) (form : TextForm) (value : String) :
    text (spelled form quote value) = .ok value := by
  have hquoted := quoted_flatMap_escapeIn hquote value.toList
  rw [text, spelled, String.toList_ofList, unquote?_enclose hquote (hquoted.toBody form)]
  simp only [hquoted.unescape, Except.map, String.ofList_toList]

end enclosed

end Literal

end P16
