import P16.Proofs.SourceText

/-!
# Lexemes

`Lexeme` says what a lexeme of each kind is made of, with a rule for each way in which scanning can
go on, and `Cut` how a text is cut into lexemes. What holds of all tokens of all texts is proved
from these rules.
-/

namespace P16

namespace Scan

section texts

namespace TextForm

/-- The length found for a text after its opening quotes: up to the closing quotes, or as far as the
body goes where they are missing. -/
inductive Reaches (quote : Char) (form : TextForm) : Bool × Nat → List Char → Prop where
  | closed {body rest : List Char} (hbody : Body quote form body) :
      Reaches quote form (true, body.length + (form.quotes quote).length)
        (body ++ (form.quotes quote ++ rest))
  | broken {body rest : List Char} (hbody : Body quote form body) :
      Reaches quote form (false, body.length) (body ++ rest)

variable {quote : Char} {form : TextForm}

theorem Reaches.none (cs : List Char) : Reaches quote form (false, 0) cs :=
  @Reaches.broken quote form [] cs .nil

theorem Reaches.more {closed : Bool} {n : Nat} {cs : List Char} (front : List Char)
    (h : Reaches quote form (closed, n) cs)
    (hfront : ∀ {body}, Body quote form body → Body quote form (front ++ body)) :
    Reaches quote form (closed, n + front.length) (front ++ cs) := by
  cases h with
  | closed hbody =>
      rw [← List.append_assoc, Nat.add_right_comm, Nat.add_comm _ front.length,
        ← List.length_append]
      exact .closed (hfront hbody)
  | broken hbody =>
      rw [← List.append_assoc, Nat.add_comm _ front.length, ← List.length_append]
      exact .broken (hfront hbody)

end TextForm

open TextForm (Reaches)

theorem reaches_lineTextLength (quote : Char) (cs : List Char) :
    Reaches quote .line (lineTextLength quote cs) cs := by
  fun_induction lineTextLength quote cs with
  | case1 | case3 | case4 | case5 => exact .none _
  | case2 cs => exact @Reaches.closed quote .line [] cs .nil
  | case6 d cs hbreak closed n hn _ _ ih =>
      exact (hn ▸ ih).more ['\\', d] (.escape fun _ => hbreak)
  | case7 d cs hquote hbreak hslash closed n hn ih =>
      exact (hn ▸ ih).more [d] (.plain hquote hslash fun _ => hbreak)

theorem reaches_blockTextLength (quote : Char) (cs : List Char) :
    Reaches quote .block (blockTextLength quote cs) cs := by
  fun_induction blockTextLength quote cs with
  | case1 | case2 | case4 | case5 | case7 | case9 => exact .none _
  | case3 d cs closed n hn ih => exact (hn ▸ ih).more ['\\', d] (.escape nofun)
  | case6 cs => exact @Reaches.closed quote .block [] cs .nil
  | case8 d cs hquote hslash closed n hn _ ih =>
      exact (hn ▸ ih).more [quote, quote, d] (.twoQuotes hquote hslash)
  | case10 d cs hquote hslash closed n hn _ ih =>
      exact (hn ▸ ih).more [quote, d] (.oneQuote hquote hslash)
  | case11 d cs hslash hquote closed n hn ih =>
      exact (hn ▸ ih).more [d] (.plain hquote hslash nofun)

end texts

section lexemes

/-- The letters after a leading zero that mark a base. -/
def marks : List (Char × Nat) :=
  [('x', 16), ('X', 16), ('o', 8), ('O', 8), ('b', 2), ('B', 2)]

/-- A number written in a base: `0` and a letter for the base and then digits, or decimal digits.
Underscores may stand between the digits and after them, and before them if there is a letter. -/
inductive Numeral : List Char → Nat → List Char → Prop where
  | decimal {c : Char} {cs : List Char} (hc : c.isDigit = true)
      (hcs : ∀ d ∈ cs, isDecimalRest d = true) : Numeral (c :: cs) 10 (c :: cs)
  | marked {letter : Char} {base : Nat} {digits : List Char} (hletter : (letter, base) ∈ marks)
      (hdigits : ∀ d ∈ digits, isRadixRest letter d = true) :
      Numeral ('0' :: letter :: digits) base digits

/-- What is passed over, before `rest`: blanks, a comment up to the end of its line, or a backslash
and the line break after it. -/
inductive Passed : List Char → List Char → Prop where
  | blanks {piece rest : List Char} (hnonempty : piece ≠ [])
      (hpiece : ∀ c ∈ piece, isBlank c = true) (hrest : ∀ c ∈ rest.head?, isBlank c = false) :
      Passed piece rest
  | comment {text rest : List Char} (htext : '\n' ∉ text) (hrest : ∀ c ∈ rest.head?, c = '\n') :
      Passed ('#' :: text) rest
  | lineBreak {rest : List Char} : Passed ['\\', '\n'] rest
  | lineBreakReturn {rest : List Char} : Passed ['\\', '\r', '\n'] rest

/-- What a lexeme is made of, before `rest`. -/
inductive Lexeme : Option TokenKind → List Char → List Char → Prop where
  | passed {piece rest : List Char} (h : Passed piece rest) : Lexeme none piece rest
  | text {form : TextForm} {quote : Char} {body rest : List Char} (hquote : isQuote quote = true)
      (hbody : form.Body quote body) : Lexeme (some .str) (form.enclose quote body) rest
  | openText {form : TextForm} {quote : Char} {body rest : List Char}
      (hquote : isQuote quote = true) (hbody : form.Body quote body) :
      Lexeme (some .error) (form.quotes quote ++ body) rest
  | word {c : Char} {cs rest : List Char} (hc : isWordStart c = true)
      (hcs : ∀ d ∈ cs, isWordRest d = true) :
      Lexeme (some (.ofWord (String.ofList (c :: cs)))) (c :: cs) rest
  | number {piece digits rest : List Char} {base : Nat} (h : Numeral piece base digits) :
      Lexeme (some .int) piece rest
  | symbol {piece rest : List Char} {kind : TokenKind} (h : (piece, kind) ∈ TokenKind.symbols) :
      Lexeme (some kind) piece rest
  | stray {c : Char} {rest : List Char} : Lexeme (some .error) [c] rest

theorem TextForm.Reaches.lexeme {quote : Char} {form : TextForm} {found : Bool × Nat}
    {cs : List Char} (h : Reaches quote form found cs) (hquote : isQuote quote = true)
    (rest : List Char) :
    Lexeme (some (textKind found.1)) (form.quotes quote ++ cs.take found.2) rest := by
  cases h with
  | closed hbody =>
      rw [← List.append_assoc, List.take_left' (List.length_append ..)]
      exact .text hquote hbody
  | broken hbody =>
      rw [List.take_left' rfl]
      exact .openText hquote hbody

theorem lexeme_quotedText {quote : Char} (hquote : isQuote quote = true) (cs rest : List Char) :
    Lexeme (some (quotedText quote cs).1) (quote :: cs.take (quotedText quote cs).2) rest := by
  unfold quotedText
  split
  next hblock =>
    obtain ⟨cs, rfl⟩ := List.isPrefixOf_iff_prefix.mp hblock
    exact (reaches_blockTextLength quote cs).lexeme hquote rest
  next => exact (reaches_lineTextLength quote cs).lexeme hquote rest

theorem take_length_takeWhile (p : Char → Bool) (cs : List Char) :
    cs.take (cs.takeWhile p).length = cs.takeWhile p :=
  have hprefix : cs.takeWhile p <+: cs := List.takeWhile_prefix p
  (List.prefix_iff_eq_take.mp hprefix).symm

theorem all_takeWhile (p : Char → Bool) (cs : List Char) : ∀ c ∈ cs.takeWhile p, p c = true :=
  List.all_eq_true.mp List.all_takeWhile

theorem head_drop_takeWhile (p : Char → Bool) (cs : List Char) :
    ∀ c ∈ (cs.drop (cs.takeWhile p).length).head?, p c = false := by
  intro c hc
  have hdrop : cs.drop (cs.takeWhile p).length = cs.dropWhile p := by
    have hsplit := congrArg (List.drop (cs.takeWhile p).length)
      (List.takeWhile_append_dropWhile (p := p) (l := cs))
    rw [List.drop_left' rfl] at hsplit
    exact hsplit.symm
  have hhead := List.head?_dropWhile_not p cs
  rw [hdrop] at hc
  rw [Option.mem_def.mp hc] at hhead
  simpa using hhead

theorem exists_mark_of_isRadixLetter {letter : Char} (h : isRadixLetter letter = true) :
    ∃ base, (letter, base) ∈ marks := by
  simp only [isRadixLetter, Bool.or_eq_true, decide_eq_true_eq] at h
  simp only [marks, List.mem_cons, Prod.mk.injEq]
  rcases h with ((((rfl | rfl) | rfl) | rfl) | rfl) | rfl <;> simp

theorem numeral_numberLength {c : Char} (hc : c.isDigit = true) (cs : List Char) :
    ∃ base digits, Numeral (c :: cs.take (numberLength c cs)) base digits := by
  fun_cases numberLength c cs with
  | case1 letter cs digits hmarked =>
      simp only [Bool.and_eq_true, decide_eq_true_eq] at hmarked
      obtain ⟨⟨rfl, hletter⟩, -⟩ := hmarked
      obtain ⟨base, hbase⟩ := exists_mark_of_isRadixLetter hletter
      rw [Nat.add_comm, List.take_succ_cons, take_length_takeWhile]
      exact ⟨base, _, .marked hbase (all_takeWhile _ cs)⟩
  | case2 letter cs digits _ =>
      rw [take_length_takeWhile]
      exact ⟨10, _, .decimal hc (all_takeWhile _ _)⟩
  | case3 => exact ⟨10, _, .decimal hc nofun⟩

theorem symbol_ne_nil : ∀ entry ∈ TokenKind.symbols, entry.1 ≠ [] := by decide

/-- What scanning finds next is a lexeme, and it takes it off the text. -/
theorem lexeme_found (c : Char) (cs : List Char) :
    Lexeme (lexeme c cs).1 (c :: cs.take (lexeme c cs).2) (cs.drop (lexeme c cs).2) := by
  fun_cases lexeme c cs with
  | case1 hblank =>
      refine .passed (.blanks nofun ?_ (head_drop_takeWhile _ cs))
      rw [take_length_takeWhile]
      exact List.forall_mem_cons.mpr ⟨hblank, all_takeWhile _ cs⟩
  | case2 _ hhash =>
      subst hhash
      refine .passed (.comment ?_ fun d hd => ?_)
      · rw [take_length_takeWhile]
        exact fun hbreak => by simpa using all_takeWhile _ cs _ hbreak
      · simpa using head_drop_takeWhile _ cs d hd
  | case3 _ _ hslash =>
      rw [Bool.and_eq_true, decide_eq_true_eq, List.isPrefixOf_iff_prefix] at hslash
      obtain ⟨rfl, cs, rfl⟩ := hslash
      exact .passed .lineBreak
  | case4 _ _ _ hslash =>
      rw [Bool.and_eq_true, decide_eq_true_eq, List.isPrefixOf_iff_prefix] at hslash
      obtain ⟨rfl, cs, rfl⟩ := hslash
      exact .passed .lineBreakReturn
  | case5 _ _ _ _ hquote kind n htext =>
      have hlexeme := lexeme_quotedText hquote cs (cs.drop n)
      rw [htext] at hlexeme
      exact hlexeme
  | case6 _ _ _ _ _ hword tail =>
      rw [take_length_takeWhile]
      exact .word hword (all_takeWhile _ cs)
  | case7 _ _ _ _ _ _ hdigit =>
      obtain ⟨base, digits, hnumeral⟩ := numeral_numberLength hdigit cs
      exact .number hnumeral
  | case8 _ _ _ _ _ _ _ spelling kind hfound =>
      have hmem := List.mem_of_find?_eq_some hfound
      have hspelled := (List.find?_eq_some_iff_append.mp hfound).1
      obtain ⟨rest, hrest⟩ := List.isPrefixOf_iff_prefix.mp hspelled
      cases spelling with
      | nil => exact absurd rfl (symbol_ne_nil _ hmem)
      | cons d spelling =>
          rw [List.cons_append, List.cons_eq_cons] at hrest
          obtain ⟨rfl, rfl⟩ := hrest
          simp only [List.length_cons, Nat.add_sub_cancel, List.take_left]
          exact .symbol hmem
  | case9 => exact .stray

end lexemes

section tokens

/-- A text that begins at the byte `offset` is cut into lexemes; those with a kind are tokens. -/
inductive Cut (index : LineIndex) : Nat → List Char → List Token → Prop where
  | done {offset : Nat} : Cut index offset [] []
  | pass {offset : Nat} {piece rest : List Char} {tokens : List Token}
      (hpiece : Passed piece rest) (hrest : Cut index (offset + width piece) rest tokens) :
      Cut index offset (piece ++ rest) tokens
  | take {offset : Nat} {kind : TokenKind} {piece rest : List Char} {tokens : List Token}
      (hpiece : Lexeme (some kind) piece rest)
      (hrest : Cut index (offset + width piece) rest tokens) :
      Cut index offset (piece ++ rest)
        (⟨kind, index.span offset (offset + width piece), String.ofList piece⟩ :: tokens)

theorem cut_tokensFrom (index : LineIndex) (offset : Nat) (cs : List Char) :
    Cut index offset cs (tokensFrom index offset cs) := by
  induction offset, cs using tokensFrom.induct index with
  | case1 =>
      rw [tokensFrom]
      exact .done
  | case2 offset c cs found text stop hkind ih =>
      have hlexeme := lexeme_found c cs
      rw [show (lexeme c cs).1 = none from hkind] at hlexeme
      cases hlexeme with
      | passed hpassed =>
        rw [tokensFrom]
        simp only [show (lexeme c cs).1 = none from hkind]
        have hcut := Cut.pass hpassed ih
        rwa [List.cons_append, List.take_append_drop] at hcut
  | case3 offset c cs found text stop kind hkind ih =>
      have hlexeme := lexeme_found c cs
      rw [show (lexeme c cs).1 = some kind from hkind] at hlexeme
      rw [tokensFrom]
      simp only [show (lexeme c cs).1 = some kind from hkind]
      have hcut := Cut.take hlexeme ih
      rwa [List.cons_append, List.take_append_drop] at hcut

theorem cut_scan (source : String) :
    Cut (.ofString source) 0 source.toList (scan source) :=
  cut_tokensFrom _ 0 _

end tokens

end Scan

end P16
