import P16.Proofs.Tiling

/-!
# Texts between quotes

Scanning and reading agree on the quotes of a text: what was scanned as a text loses the quotes with
which it was scanned, and can fail to be read only for an escape that stands for nothing. Every text
can be written between either quote, once or three times, and is then read back.
-/

namespace P16

open Scan (TextForm Lexeme)

namespace TokenKind

theorem keyword_not_literal : ∀ entry ∈ keywords, entry.2 ≠ .int ∧ entry.2 ≠ .str := by
  decide

theorem ofWord_not_literal (word : String) : ofWord word ≠ .int ∧ ofWord word ≠ .str := by
  rcases ofWord_cases word with hword | ⟨entry, hentry, hword⟩
  · rw [hword]
    decide
  · rw [hword]
    exact keyword_not_literal entry hentry

theorem symbol_not_literal : ∀ entry ∈ symbols, entry.2 ≠ .int ∧ entry.2 ≠ .str := by
  decide

end TokenKind

theorem Scan.Lexeme.text_inv {kind : TokenKind} {piece rest : List Char}
    (h : Lexeme (some kind) piece rest) (hkind : kind = .str) :
    ∃ quote form body, isQuote quote = true ∧ TextForm.Body quote form body ∧
      piece = form.enclose quote body := by
  cases h with
  | text hquote hbody => exact ⟨_, _, _, hquote, hbody, rfl⟩
  | word => exact absurd hkind (TokenKind.ofWord_not_literal _).2
  | symbol hmem => exact absurd hkind (TokenKind.symbol_not_literal _ hmem).2
  | openText | number | stray => cases hkind

theorem Scan.lexeme_quote {quote : Char} (hquote : isQuote quote = true) (cs : List Char) :
    lexeme quote cs = (some (quotedText quote cs).1, (quotedText quote cs).2) := by
  have hplain : isBlank quote = false ∧ quote ≠ '#' ∧ quote ≠ '\\' := by
    simp only [isQuote, Bool.or_eq_true, decide_eq_true_eq] at hquote
    rcases hquote with rfl | rfl <;> decide
  simp [lexeme, hplain, hquote]

theorem Scan.scan_whole {source : String} {c : Char} {cs : List Char} {kind : TokenKind}
    (hsource : source.toList = c :: cs) (h : Scan.lexeme c cs = (some kind, cs.length)) :
    ∃ span, scan source = [⟨kind, span, source⟩] := by
  have hsource' : String.ofList (c :: cs) = source := by rw [← hsource, String.ofList_toList]
  have htokens := @Scan.tokensFrom_take (.ofString source) 0 c cs [] kind
    (by rwa [List.append_nil])
  rw [List.append_nil, Scan.tokensFrom, hsource', ← hsource] at htokens
  exact ⟨_, htokens⟩

namespace Literal

section quotes

variable {quote : Char} {form : TextForm} {body : List Char}

theorem unescape_plain {c : Char} (hc : c ≠ '\\') (cs : List Char) :
    unescape (c :: cs) = (unescape cs).map (c :: ·) := by
  rw [unescape.eq_def]
  simp [hc]

theorem map_eq_error {α β : Type} {f : α → β} {r : Except TextFault α} {fault : TextFault}
    (h : r.map f = .error fault) : r = .error fault := by
  cases r with
  | error => simpa [Except.map] using h
  | ok => cases h

theorem fault_of_unescape (hquote : Scan.isQuote quote = true)
    (hbody : TextForm.Body quote form body) {fault : TextFault}
    (h : unescape body = .error fault) : ∃ c, fault = .unsupportedEscape c := by
  have hslash := ne_slash_of_isQuote hquote
  induction hbody with
  | nil => cases h
  | plain _ hc _ _ ih =>
      rw [unescape_plain hc] at h
      exact ih (map_eq_error h)
  | @escape form c body _ _ ih =>
      rw [unescape.eq_def] at h
      simp only [↓reduceIte] at h
      split at h
      · exact ih h
      · split at h
        · exact ih (map_eq_error h)
        · cases h
          exact ⟨c, rfl⟩
  | oneQuote _ hc _ ih =>
      rw [unescape_plain hslash, unescape_plain hc] at h
      exact ih (map_eq_error (map_eq_error h))
  | twoQuotes _ hc _ ih =>
      rw [unescape_plain hslash, unescape_plain hslash, unescape_plain hc] at h
      exact ih (map_eq_error (map_eq_error (map_eq_error h)))

end quotes

section written

variable {quote : Char} {body value : List Char}

theorem Quoted.blockTextLength (hquote : Scan.isQuote quote = true) (h : Quoted quote body value)
    (rest : List Char) :
    Scan.blockTextLength quote (body ++ quote :: quote :: quote :: rest) =
      (true, body.length + 3) := by
  have hslash := ne_slash_of_isQuote hquote
  induction h with
  | nil =>
      rw [List.nil_append, Scan.blockTextLength.eq_def]
      simp [hslash]
  | plain hne hc _ _ ih =>
      rw [List.cons_append, Scan.blockTextLength.eq_def]
      simp [hne, hc, ih]
  | escape _ _ ih =>
      rw [List.cons_append, List.cons_append, Scan.blockTextLength.eq_def]
      simp [ih]

theorem Quoted.lexeme (hquote : Scan.isQuote quote = true) (h : Quoted quote body value)
    (form : TextForm) : ∃ cs, form.enclose quote body = quote :: cs ∧
      Scan.lexeme quote cs = (some .str, cs.length) := by
  cases form with
  | line =>
      refine ⟨body ++ [quote], rfl, ?_⟩
      rw [Scan.lexeme_text hquote h (by simp), List.length_append]
      rfl
  | block =>
      refine ⟨quote :: quote :: (body ++ [quote, quote, quote]), rfl, ?_⟩
      rw [Scan.lexeme_quote hquote, Scan.quotedText]
      simp [List.isPrefixOf, h.blockTextLength hquote [], Scan.textKind]

theorem scan_spelled (hquote : Scan.isQuote quote = true) (form : TextForm) (value : String) :
    ∃ span, scan (spelled form quote value) = [⟨.str, span, spelled form quote value⟩] := by
  obtain ⟨cs, hcs, hlexeme⟩ := (quoted_flatMap_escapeIn hquote value.toList).lexeme hquote form
  refine Scan.scan_whole ?_ hlexeme
  rw [spelled, String.toList_ofList, hcs]

end written

end Literal

/-- Scanning and reading agree on texts. A token that was scanned as a text has quotes on both
sides, which are what is taken off, and only an escape that stands for nothing keeps it from being
read. Every text, written between quotes of either form, is scanned as one token and read back. -/
theorem texts_read_as_scanned :
    (∀ (source : String), ∀ t ∈ scan source, t.kind = .str →
      ∃ quote form body, Scan.isQuote quote = true ∧ TextForm.Body quote form body ∧
        t.text = String.ofList (form.enclose quote body) ∧
        Literal.unquote? t.text.toList = some body ∧
        ∀ fault, Literal.text t.text = .error fault → ∃ c, fault = .unsupportedEscape c) ∧
      ∀ (value : String) (quote : Char) (form : TextForm), Scan.isQuote quote = true →
        (∃ span, scan (Literal.spelled form quote value) =
          [⟨.str, span, Literal.spelled form quote value⟩]) ∧
        Literal.text (Literal.spelled form quote value) = .ok value := by
  refine ⟨fun source t ht hkind => ?_, fun value quote form hquote => ?_⟩
  · obtain ⟨_, _, _, hlexeme, _, _⟩ := (Scan.cut_scan source).lexeme t ht
    obtain ⟨quote, form, body, hquote, hbody, htext⟩ := hlexeme.text_inv hkind
    have hunquote : Literal.unquote? t.text.toList = some body := by
      rw [htext]
      exact Literal.unquote?_enclose hquote hbody
    refine ⟨quote, form, body, hquote, hbody, ?_, hunquote, fun fault hfault => ?_⟩
    · rw [← htext, String.ofList_toList]
    · rw [Literal.text, hunquote] at hfault
      exact Literal.fault_of_unescape hquote hbody (Literal.map_eq_error hfault)
  · exact ⟨Literal.scan_spelled hquote form value, Literal.text_spelled hquote form value⟩

/-- A block with an escaped quote next to its end and other quotes inside, and a line with an escape
that stands for nothing. -/
def quotesSource : String := "\'\'\'say \"so\" \\\'\'\'\' \"\\q\""

def quotesBlock : Token := ⟨.str, ⟨0, 17, 1, 0⟩, "\'\'\'say \"so\" \\\'\'\'\'"⟩

theorem texts_read_as_scanned_quotes :
    quotesBlock ∈ scan quotesSource ∧ Literal.text quotesBlock.text = .ok "say \"so\" \'" ∧
      (∃ quote form body, Scan.isQuote quote = true ∧ TextForm.Body quote form body ∧
        quotesBlock.text = String.ofList (form.enclose quote body) ∧
        Literal.unquote? quotesBlock.text.toList = some body ∧
        ∀ fault, Literal.text quotesBlock.text = .error fault →
          ∃ c, fault = .unsupportedEscape c) ∧
      (∃ span, scan (Literal.spelled .block '"' "\"\n") =
        [⟨.str, span, Literal.spelled .block '"' "\"\n"⟩]) ∧
      Literal.text (Literal.spelled .block '"' "\"\n") = .ok "\"\n" := by
  have hmem : quotesBlock ∈ scan quotesSource := by decide +kernel
  exact ⟨hmem, by decide +kernel, texts_read_as_scanned.1 quotesSource quotesBlock hmem rfl,
    texts_read_as_scanned.2 "\"\n" '"' .block rfl⟩

end P16
