import Mathlib.Data.List.Infix
import P16.Proofs.SourceLines

/-!
# Source text

How words are written as characters, alone and on lines, and that a text so written is scanned as
the words of its lines.
-/

namespace P16

section words

namespace TokenKind

/-- How a token of the kind is written, where there is only one way. -/
def spelling (kind : TokenKind) : List Char :=
  match symbols.find? (·.2 = kind) with
  | some entry => entry.1
  | none => ((keywords.find? (·.2 = kind)).map (·.1.toList)).getD []

/-- A letter or underscore, and then letters, digits and underscores. -/
def isIdentifier : List Char → Bool
  | [] => false
  | c :: cs => Scan.isWordStart c && cs.all Scan.isWordRest

/-- An identifier that is not a keyword. -/
def isName (text : String) : Bool :=
  isIdentifier text.toList && !keywords.any fun entry => entry.1 = text

theorem spelling_cases {kind : TokenKind} (h : kind.spelling ≠ []) :
    (kind.spelling, kind) ∈ symbols ∨
      ∃ word, (word, kind) ∈ keywords ∧ kind.spelling = word.toList := by
  unfold spelling at h ⊢
  cases hsymbol : symbols.find? (·.2 = kind) with
  | some entry =>
      have hkind : entry.2 = kind := by simpa using List.find?_some hsymbol
      exact .inl (hkind ▸ List.mem_of_find?_eq_some hsymbol)
  | none =>
      rw [hsymbol] at h
      cases hkeyword : keywords.find? (·.2 = kind) with
      | none => simp [hkeyword] at h
      | some entry =>
          have hkind : entry.2 = kind := by simpa using List.find?_some hkeyword
          exact .inr ⟨entry.1, hkind ▸ List.mem_of_find?_eq_some hkeyword, rfl⟩

end TokenKind

namespace Word

def chars (w : Word) : List Char :=
  if w.kind.isLeaf then w.text.toList else w.kind.spelling

/-- The word can be written: a sign with a spelling, a name, a decimal number or a quoted text. -/
inductive Plain : Word → Prop where
  | sign {kind : TokenKind} (hspelling : kind.spelling ≠ []) (hnewline : kind ≠ .newline) :
      Plain (.sign kind)
  | name {text : String} (htext : TokenKind.isName text = true) : Plain (.name text)
  | number {digits : List Char} (hnonempty : digits ≠ [])
      (hdigits : ∀ d ∈ digits, d.isDigit = true) : Plain ⟨.int, String.ofList digits⟩
  | text {quote : Char} {body value : List Char} (hquote : Scan.isQuote quote = true)
      (hbody : Literal.Quoted quote body value) :
      Plain ⟨.str, String.ofList (quote :: (body ++ [quote]))⟩

/-- Whether the word and the character, written without a gap, would be read as one. -/
def joins (w : Word) (c : Char) : Bool :=
  if w.kind = .str then w.chars.head? = some c
  else if w.chars.all Scan.isWordRest then Scan.isWordRest c
  else TokenKind.symbols.any fun entry => (w.chars ++ [c]).isPrefixOf entry.1

end Word

end words

section lexemes

namespace Scan

theorem takeWhile_of_head {α : Type} {p : α → Bool} {xs rest : List α}
    (hxs : ∀ x ∈ xs, p x = true) (hrest : ∀ x ∈ rest.head?, p x = false) :
    (xs ++ rest).takeWhile p = xs := by
  rw [List.takeWhile_append_of_pos hxs]
  cases rest with
  | nil => simp
  | cons x rest => simp [hrest x rfl]

theorem facts_of_isWordRest {c : Char} (h : isWordRest c = true) :
    isBlank c = false ∧ c ≠ '#' ∧ c ≠ '\\' ∧ isQuote c = false := by
  refine ⟨?_, ?_, ?_, ?_⟩
  · by_contra hblank
    simp only [isBlank, Bool.not_eq_false, Bool.or_eq_true, decide_eq_true_eq] at hblank
    rcases hblank with ((rfl | rfl) | rfl) | rfl <;> cases h
  · rintro rfl
    cases h
  · rintro rfl
    cases h
  · by_contra hquote
    simp only [isQuote, Bool.not_eq_false, Bool.or_eq_true, decide_eq_true_eq] at hquote
    rcases hquote with rfl | rfl <;> cases h

theorem lexeme_word {c : Char} {cs rest : List Char}
    (h : TokenKind.isIdentifier (c :: cs) = true)
    (hrest : ∀ d ∈ rest.head?, isWordRest d = false) :
    lexeme c (cs ++ rest) = (some (.ofWord (String.ofList (c :: cs))), cs.length) := by
  rw [TokenKind.isIdentifier, Bool.and_eq_true, List.all_eq_true] at h
  obtain ⟨hc, hcs⟩ := h
  obtain ⟨hblank, hhash, hslash, hquote⟩ := facts_of_isWordRest (isWordRest_of_isWordStart hc)
  simp [lexeme, hblank, hhash, hslash, hquote, hc, takeWhile_of_head hcs hrest]

theorem not_isWordStart_of_isDigit {c : Char} (h : c.isDigit = true) : isWordStart c = false := by
  obtain ⟨d, hd, rfl⟩ := Literal.exists_digit h
  revert d
  decide

theorem isWordRest_of_isDigit {c : Char} (h : c.isDigit = true) : isWordRest c = true := by
  simp [isWordRest, Char.isAlphanum, h]

theorem isWordRest_of_isRadixLetter {c : Char} (h : isRadixLetter c = true) :
    isWordRest c = true := by
  simp only [isRadixLetter, Bool.or_eq_true, decide_eq_true_eq] at h
  rcases h with ((((rfl | rfl) | rfl) | rfl) | rfl) | rfl <;> rfl

theorem isWordRest_of_isDecimalRest {c : Char} (h : isDecimalRest c = true) :
    isWordRest c = true := by
  simp only [isDecimalRest, isWordRest, Char.isAlphanum, Bool.or_eq_true] at h ⊢
  tauto

theorem numberLength_digits {c : Char} {cs rest : List Char} (hcs : ∀ d ∈ cs, d.isDigit = true)
    (hrest : ∀ d ∈ rest.head?, isWordRest d = false) : numberLength c (cs ++ rest) = cs.length := by
  have hdecimal : ((cs ++ rest).takeWhile isDecimalRest) = cs := by
    refine takeWhile_of_head (fun d hd => by simp [isDecimalRest, hcs d hd]) fun d hd => ?_
    exact Bool.eq_false_iff.mpr fun h =>
      absurd (isWordRest_of_isDecimalRest h) (by simp [hrest d hd])
  have hletter : ∀ d ∈ (cs ++ rest).head?, isRadixLetter d = false := by
    cases cs with
    | nil =>
        exact fun d hd => Bool.eq_false_iff.mpr fun h =>
          absurd (isWordRest_of_isRadixLetter h) (by simp [hrest d hd])
    | cons e cs =>
        intro d hd
        cases hd
        exact (Literal.digit_facts (hcs e List.mem_cons_self)).2.2.2.2
  cases htext : cs ++ rest with
  | nil => simp [numberLength, (List.append_eq_nil_iff.mp htext).1]
  | cons d ds =>
      rw [htext] at hdecimal hletter
      simp [numberLength, hletter d rfl, hdecimal]

theorem lexeme_number {c : Char} {cs rest : List Char} (hc : c.isDigit = true)
    (hcs : ∀ d ∈ cs, d.isDigit = true) (hrest : ∀ d ∈ rest.head?, isWordRest d = false) :
    lexeme c (cs ++ rest) = (some .int, cs.length) := by
  obtain ⟨hblank, hhash, hslash, hquote⟩ := facts_of_isWordRest (isWordRest_of_isDigit hc)
  simp [lexeme, hblank, hhash, hslash, hquote, hc, not_isWordStart_of_isDigit hc,
    numberLength_digits hcs hrest]

theorem lexeme_text {quote : Char} {body value rest : List Char} (hquote : isQuote quote = true)
    (hbody : Literal.Quoted quote body value) (hrest : rest.head? ≠ some quote) :
    lexeme quote (body ++ quote :: rest) = (some .str, body.length + 1) := by
  have hblank : isBlank quote = false ∧ quote ≠ '#' := by
    simp only [isQuote, Bool.or_eq_true, decide_eq_true_eq] at hquote
    rcases hquote with rfl | rfl <;> decide
  simp [lexeme, hblank, Literal.ne_slash_of_isQuote hquote, hquote,
    hbody.quotedText hquote hrest]

/-- Each symbol is the first of the table that it begins with. -/
theorem find?_symbols : ∀ entry ∈ TokenKind.symbols,
    TokenKind.symbols.find? (fun other => other.1.isPrefixOf entry.1) = some entry := by
  decide

theorem find?_symbol {spelling rest : List Char} {kind : TokenKind}
    (hentry : (spelling, kind) ∈ TokenKind.symbols)
    (hrest : ∀ c ∈ rest.head?,
      (TokenKind.symbols.any fun entry => (spelling ++ [c]).isPrefixOf entry.1) = false) :
    TokenKind.symbols.find? (fun entry => entry.1.isPrefixOf (spelling ++ rest)) =
      some (spelling, kind) := by
  obtain ⟨-, before, after, hsplit, hbefore⟩ :=
    List.find?_eq_some_iff_append.mp (find?_symbols _ hentry)
  refine List.find?_eq_some_iff_append.mpr ⟨by simp, before, after, hsplit, fun other hother => ?_⟩
  have hnot : ¬ other.1 <+: spelling := by
    simpa [← List.isPrefixOf_iff_prefix] using hbefore other hother
  rw [Bool.not_eq_true', Bool.eq_false_iff, ne_eq, List.isPrefixOf_iff_prefix]
  intro hlonger
  -- a symbol that begins the text is either no longer than `spelling` or goes on with `rest`
  rcases List.prefix_or_prefix_of_prefix hlonger (List.prefix_append spelling rest) with
    hshort | ⟨more, hmore⟩
  · exact hnot hshort
  · rw [← hmore, List.prefix_append_right_inj] at hlonger
    cases more with
    | nil => exact hnot ⟨[], by simpa using hmore.symm⟩
    | cons c more =>
        obtain ⟨tail, rfl⟩ := hlonger
        have hjoins := hrest c rfl
        rw [List.any_eq_false] at hjoins
        refine hjoins other (hsplit ▸ List.mem_append_left _ hother) ?_
        rw [List.isPrefixOf_iff_prefix, ← hmore]
        exact ⟨more, by simp⟩

/-- A character that begins none of the other lexemes. -/
def startsSymbol (c : Char) : Bool :=
  !isBlank c && c ≠ '#' && c ≠ '\\' && !isQuote c && !isWordStart c && !c.isDigit

theorem startsSymbol_of_mem : ∀ entry ∈ TokenKind.symbols,
    entry.1.head?.all startsSymbol = true := by
  decide

theorem lexeme_symbol {c : Char} {cs rest : List Char} {kind : TokenKind}
    (hentry : (c :: cs, kind) ∈ TokenKind.symbols)
    (hrest : ∀ d ∈ rest.head?,
      (TokenKind.symbols.any fun entry => (c :: cs ++ [d]).isPrefixOf entry.1) = false) :
    lexeme c (cs ++ rest) = (some kind, cs.length) := by
  have hc : startsSymbol c = true := startsSymbol_of_mem _ hentry
  simp only [startsSymbol, Bool.and_eq_true, Bool.not_eq_true', decide_eq_true_eq] at hc
  obtain ⟨⟨⟨⟨⟨hblank, hhash⟩, hslash⟩, hquote⟩, hword⟩, hdigit⟩ := hc
  have hfind := find?_symbol hentry hrest
  rw [List.cons_append] at hfind
  simp [lexeme, hblank, hhash, hslash, hquote, hword, hdigit, hfind]

end Scan

namespace TokenKind

theorem keyword_facts : ∀ entry ∈ keywords, ofWord entry.1 = entry.2 ∧ entry.2.isLeaf = false ∧
    isIdentifier entry.1.toList = true := by
  decide

theorem symbol_facts : ∀ entry ∈ symbols, entry.2.isLeaf = false ∧
    entry.1.all Scan.isWordRest = false := by
  decide

theorem ofWord_of_isName {text : String} (h : isName text = true) : ofWord text = .ident := by
  rw [isName, Bool.and_eq_true, Bool.not_eq_true', List.any_eq_false] at h
  have hnone : keywords.lookup text = none :=
    List.lookup_eq_none_iff.mpr fun entry hentry =>
      bne_iff_ne.mpr fun heq => h.2 entry hentry (decide_eq_true heq.symm)
  rw [ofWord, hnone]
  rfl

theorem all_isWordRest_of_isIdentifier {cs : List Char} (h : isIdentifier cs = true) :
    cs.all Scan.isWordRest = true := by
  cases cs with
  | nil => rfl
  | cons c cs =>
      rw [isIdentifier, Bool.and_eq_true] at h
      rw [List.all_cons, Scan.isWordRest_of_isWordStart h.1, h.2]
      rfl

end TokenKind

namespace Word

theorem chars_sign {kind : TokenKind} (h : kind.isLeaf = false) :
    (sign kind).chars = kind.spelling := by
  simp [chars, sign, h]

theorem chars_leaf {kind : TokenKind} {text : String} (h : kind.isLeaf = true) :
    chars ⟨kind, text⟩ = text.toList := by
  simp [chars, h]

theorem joins_of_isWordRest {w : Word} (hkind : w.kind ≠ .str)
    (hw : w.chars.all Scan.isWordRest = true) (c : Char) : w.joins c = Scan.isWordRest c := by
  rw [joins, if_neg hkind, if_pos hw]

theorem joins_of_symbol {w : Word} (hkind : w.kind ≠ .str)
    (hw : w.chars.all Scan.isWordRest = false) (c : Char) :
    w.joins c = TokenKind.symbols.any fun entry => (w.chars ++ [c]).isPrefixOf entry.1 := by
  rw [joins, if_neg hkind, if_neg (by simp [hw])]

theorem joins_text (text : String) (c : Char) :
    joins ⟨.str, text⟩ c = decide (text.toList.head? = some c) := by
  rw [joins, if_pos rfl, chars_leaf rfl]

theorem isLeaf_spelling {kind : TokenKind} (h : kind.spelling ≠ []) : kind.isLeaf = false := by
  rcases TokenKind.spelling_cases h with hentry | ⟨word, hentry, -⟩
  · exact (TokenKind.symbol_facts _ hentry).1
  · exact (TokenKind.keyword_facts _ hentry).2.1

theorem Plain.ne_nil {w : Word} (h : w.Plain) : w.chars ≠ [] := by
  cases h with
  | sign hspelling _ => rwa [chars_sign (isLeaf_spelling hspelling)]
  | @name text htext =>
      rw [Word.name, chars_leaf rfl]
      intro hnil
      rw [TokenKind.isName, hnil] at htext
      cases htext
  | number hnonempty _ => rwa [chars_leaf rfl, String.toList_ofList]
  | text _ _ =>
      rw [chars_leaf rfl, String.toList_ofList]
      nofun

variable {w : Word} {c : Char} {cs rest : List Char}

theorem lexeme_of_isIdentifier (hkind : w.kind ≠ .str)
    (hw : TokenKind.isIdentifier w.chars = true)
    (hword : TokenKind.ofWord (String.ofList w.chars) = w.kind) (hchars : w.chars = c :: cs)
    (hrest : ∀ d ∈ rest.head?, w.joins d = false) :
    Scan.lexeme c (cs ++ rest) = (some w.kind, cs.length) := by
  have hall := TokenKind.all_isWordRest_of_isIdentifier hw
  rw [← hword, hchars]
  refine Scan.lexeme_word (hchars ▸ hw) fun d hd => ?_
  rw [← joins_of_isWordRest hkind hall]
  exact hrest d hd

/-- A word is one lexeme, unless it joins with what follows. -/
theorem Plain.lexeme (h : w.Plain) (hchars : w.chars = c :: cs)
    (hrest : ∀ d ∈ rest.head?, w.joins d = false) :
    Scan.lexeme c (cs ++ rest) = (some w.kind, cs.length) := by
  cases h with
  | @sign kind hspelling hnewline =>
      have hleaf := isLeaf_spelling hspelling
      have hstr : kind ≠ .str := by
        rintro rfl
        cases hleaf
      rcases TokenKind.spelling_cases hspelling with hentry | ⟨word, hentry, hword⟩
      · have hsymbol := (TokenKind.symbol_facts _ hentry).2
        rw [← chars_sign hleaf] at hentry hsymbol
        rw [hchars] at hentry
        refine Scan.lexeme_symbol hentry fun d hd => ?_
        rw [← hchars, ← joins_of_symbol hstr hsymbol]
        exact hrest d hd
      · obtain ⟨hkind, -, hidentifier⟩ := TokenKind.keyword_facts _ hentry
        rw [← chars_sign hleaf] at hword
        refine lexeme_of_isIdentifier hstr (hword ▸ hidentifier) ?_ hchars hrest
        rw [hword, String.ofList_toList]
        exact hkind
  | @name text htext =>
      have hspelling : (Word.name text).chars = text.toList := chars_leaf rfl
      refine lexeme_of_isIdentifier nofun ?_ ?_ hchars hrest
      · rw [hspelling]
        exact (Bool.and_eq_true_iff.mp htext).1
      · rw [hspelling, String.ofList_toList]
        exact TokenKind.ofWord_of_isName htext
  | @number digits hnonempty hdigits =>
      have hall : (chars ⟨.int, String.ofList digits⟩).all Scan.isWordRest = true := by
        rw [chars_leaf rfl, String.toList_ofList]
        exact List.all_eq_true.mpr fun d hd => Scan.isWordRest_of_isDigit (hdigits d hd)
      have hjoins := joins_of_isWordRest (w := ⟨.int, String.ofList digits⟩) nofun hall
      rw [chars_leaf rfl, String.toList_ofList] at hchars
      rw [hchars, List.forall_mem_cons] at hdigits
      exact Scan.lexeme_number hdigits.1 hdigits.2 fun d hd => (hjoins d).symm.trans (hrest d hd)
  | @text quote body value hquote hbody =>
      rw [chars_leaf rfl, String.toList_ofList] at hchars
      cases hchars
      rw [List.append_assoc, List.length_append]
      refine Scan.lexeme_text hquote hbody fun hhead => ?_
      have hjoins := hrest c hhead
      rw [joins_text, String.toList_ofList] at hjoins
      simp at hjoins

end Word

end lexemes

section columns

def width (cs : List Char) : Nat := (String.ofList cs).utf8ByteSize

@[simp] theorem width_nil : width [] = 0 := rfl

@[simp] theorem width_cons (c : Char) (cs : List Char) :
    width (c :: cs) = c.utf8Size + width cs := by
  simp [width]

@[simp] theorem width_append (cs ds : List Char) : width (cs ++ ds) = width cs + width ds := by
  simp [width]

theorem width_spaces (n : Nat) : width (List.replicate n ' ') = n := by
  induction n with
  | zero => rfl
  | succ n ih =>
      rw [List.replicate_succ, width_cons, ih, Nat.add_comm]
      rfl

theorem lineStartsFrom_append (offset : Nat) (cs ds : List Char) :
    lineStartsFrom offset (cs ++ ds) =
      lineStartsFrom offset cs ++ lineStartsFrom (offset + width cs) ds := by
  induction cs generalizing offset with
  | nil => rfl
  | cons c cs ih =>
      rw [List.cons_append, lineStartsFrom, lineStartsFrom, width_cons, ← Nat.add_assoc, ih, ih]
      by_cases hc : c = '\n'
      · subst hc
        rfl
      · simp [hc]

theorem lineStartsFrom_unbroken {cs : List Char} (h : '\n' ∉ cs) (offset : Nat) :
    lineStartsFrom offset cs = [] := by
  induction cs generalizing offset with
  | nil => rfl
  | cons c cs ih =>
      rw [List.mem_cons, not_or] at h
      rw [lineStartsFrom, if_neg (Ne.symm h.1), ih h.2]

theorem lt_of_mem_lineStartsFrom {offset start : Nat} {cs : List Char}
    (h : start ∈ lineStartsFrom offset cs) : offset < start ∧ start ≤ offset + width cs := by
  induction cs generalizing offset with
  | nil => cases h
  | cons c cs ih =>
      have hpos := c.utf8Size_pos
      rw [lineStartsFrom] at h
      rw [width_cons]
      split at h
      · rcases List.mem_cons.mp h with rfl | h
        · omega
        · have := ih h
          omega
      · have := ih h
        omega

/-- Columns count from zero to the last number below this, and then from zero again. -/
def columnLimit : Nat := 0x100000000

/-- The line at the column that is counted for it. -/
def SourceLine.counted (line : SourceLine) : SourceLine := ⟨line.column % columnLimit, line.words⟩

/-- The characters end with a line break, or there are none. -/
def EndsLine (cs : List Char) : Prop := ∀ c ∈ cs.getLast?, c = '\n'

theorem getLastD_lineStarts {cs : List Char} (h : EndsLine cs) :
    (0 :: lineStartsFrom 0 cs).getLastD 0 = width cs := by
  rcases List.eq_nil_or_concat cs with rfl | ⟨cs, c, rfl⟩
  · rfl
  · rw [List.concat_eq_append] at h ⊢
    cases h c (by simp)
    have hbreak : lineStartsFrom (0 + width cs) ['\n'] = [width (cs ++ ['\n'])] := by
      rw [Nat.zero_add, width_append]
      rfl
    rw [lineStartsFrom_append, hbreak, ← List.cons_append, List.getLastD_concat]

theorem column_of_line {source : String} {before line rest : List Char}
    (hsource : source.toList = before ++ (line ++ rest)) (hbefore : EndsLine before)
    (hline : '\n' ∉ line) :
    ((LineIndex.ofString source).lineColumn (width before + width line)).2 =
      width line % columnLimit := by
  have hsplit : (LineIndex.ofString source).starts =
      (0 :: lineStartsFrom 0 before) ++ lineStartsFrom (width before + width line) rest := by
    simp [LineIndex.ofString, hsource, lineStartsFrom_append, lineStartsFrom_unbroken hline]
  have htake : (LineIndex.ofString source).starts.takeWhile (· ≤ width before + width line) =
      0 :: lineStartsFrom 0 before := by
    rw [hsplit]
    refine Scan.takeWhile_of_head (fun start hstart => ?_) fun start hstart => ?_
    · rw [decide_eq_true_eq]
      rcases List.mem_cons.mp hstart with rfl | hstart
      · exact Nat.zero_le _
      · have := (lt_of_mem_lineStartsFrom hstart).2
        omega
    · have := (lt_of_mem_lineStartsFrom (List.mem_of_mem_head? hstart)).1
      exact decide_eq_false (by omega)
  rw [LineIndex.lineColumn]
  simp only [htake, getLastD_lineStarts hbefore, Nat.add_sub_cancel_left, columnLimit]

end columns

section runs

namespace Scan

variable {index : LineIndex} {offset : Nat} {c : Char} {cs gap rest : List Char} {kind : TokenKind}

theorem tokensFrom_skip (h : lexeme c (cs ++ rest) = (none, cs.length)) :
    tokensFrom index offset (c :: (cs ++ rest)) =
      tokensFrom index (offset + width (c :: cs)) rest := by
  rw [tokensFrom]
  simp only [h, List.take_left', List.drop_left']
  rfl

theorem tokensFrom_take (h : lexeme c (cs ++ rest) = (some kind, cs.length)) :
    tokensFrom index offset (c :: (cs ++ rest)) =
      ⟨kind, index.span offset (offset + width (c :: cs)), String.ofList (c :: cs)⟩ ::
        tokensFrom index (offset + width (c :: cs)) rest := by
  rw [tokensFrom]
  simp only [h, List.take_left', List.drop_left']
  rfl

theorem tokensFrom_blanks (hgap : ∀ c ∈ gap, isBlank c = true)
    (hrest : ∀ c ∈ rest.head?, isBlank c = false) :
    tokensFrom index offset (gap ++ rest) = tokensFrom index (offset + width gap) rest := by
  cases gap with
  | nil => rfl
  | cons c gap =>
      obtain ⟨hc, hgap⟩ := List.forall_mem_cons.mp hgap
      apply tokensFrom_skip
      rw [lexeme, if_pos hc, takeWhile_of_head hgap hrest]

theorem tokensFrom_comment (hcs : '\n' ∉ cs) (hrest : ∀ c ∈ rest.head?, c = '\n') :
    tokensFrom index offset ('#' :: (cs ++ rest)) =
      tokensFrom index (offset + width ('#' :: cs)) rest := by
  apply tokensFrom_skip
  rw [lexeme, if_neg (by decide), if_pos rfl, takeWhile_of_head]
  · intro d hd
    exact decide_eq_true fun hbreak => hcs (hbreak ▸ hd)
  · intro d hd
    simp [hrest d hd]

theorem tokensFrom_newline : ∃ t : Token, t.kind = .newline ∧
    tokensFrom index offset ('\n' :: rest) = t :: tokensFrom index (offset + 1) rest := by
  have hlexeme : lexeme '\n' ([] ++ rest) = (some .newline, 0) :=
    lexeme_symbol (by decide) fun d _ => rfl
  exact ⟨_, rfl, tokensFrom_take hlexeme⟩

end Scan

namespace Word

variable {w : Word} {c : Char} {rest : List Char}

theorem Plain.not_isBlank (h : w.Plain) : ∀ c ∈ w.chars.head?, Scan.isBlank c = false := by
  intro c hc
  obtain ⟨cs, hchars⟩ := List.head?_eq_some_iff.mp hc
  have hlexeme : Scan.lexeme c (cs ++ []) = _ := h.lexeme hchars nofun
  by_contra hblank
  rw [Bool.not_eq_false] at hblank
  rw [Scan.lexeme, if_pos hblank] at hlexeme
  cases hlexeme

theorem symbol_tail_facts : ∀ entry ∈ TokenKind.symbols,
    (entry.1.tail.all fun c => !Scan.isBlank c && c ≠ '#' && c ≠ '\n') = true := by
  decide

theorem Plain.not_joins (h : w.Plain) (hc : Scan.isBlank c = true ∨ c = '#' ∨ c = '\n') :
    w.joins c = false := by
  have hrest : Scan.isWordRest c = false := by
    rw [Bool.eq_false_iff]
    intro hword
    obtain ⟨hblank, hhash, -, -⟩ := Scan.facts_of_isWordRest hword
    rcases hc with hc | rfl | rfl
    · simp [hblank] at hc
    · exact hhash rfl
    · cases hword
  rw [joins]
  split
  next hkind =>
    cases h with
    | sign hspelling _ =>
        have hleaf := isLeaf_spelling hspelling
        cases (hkind : _ = TokenKind.str)
        cases hleaf
    | name | number => cases hkind
    | @text quote body _ hquote _ =>
        rw [chars_leaf rfl, String.toList_ofList, List.head?_cons]
        refine decide_eq_false fun heq => ?_
        cases heq
        simp only [Scan.isQuote, Bool.or_eq_true, decide_eq_true_eq] at hquote
        rcases hquote with rfl | rfl <;> revert hc <;> decide
  split
  · exact hrest
  · obtain ⟨d, ds, hchars⟩ := List.exists_cons_of_ne_nil h.ne_nil
    refine List.any_eq_false.mpr fun entry hentry hjoined => ?_
    obtain ⟨tail, htail⟩ := List.isPrefixOf_iff_prefix.mp hjoined
    have hmem : c ∈ entry.1.tail := by
      rw [← htail, hchars]
      simp
    have hfacts := List.all_eq_true.mp (symbol_tail_facts entry hentry) c hmem
    simp only [Bool.and_eq_true, Bool.not_eq_true', decide_eq_true_eq] at hfacts
    obtain ⟨⟨hblank, hhash⟩, hbreak⟩ := hfacts
    simp [hblank, hhash, hbreak] at hc

theorem Plain.word_eq (h : w.Plain) (span : Span) :
    Token.word ⟨w.kind, span, String.ofList w.chars⟩ = w := by
  cases h with
  | sign hspelling _ => simp [Token.word, Word.sign, isLeaf_spelling hspelling]
  | name _ => simp [Token.word, Word.name, chars, TokenKind.isLeaf]
  | number _ _ | text _ _ => simp [Token.word, chars, TokenKind.isLeaf]

theorem Plain.ne_newline (h : w.Plain) : w.kind ≠ .newline := by
  cases h with
  | sign _ hnewline => exact hnewline
  | name | number | text => nofun

theorem Plain.tokensFrom (h : w.Plain) (hrest : ∀ d ∈ rest.head?, w.joins d = false)
    (index : LineIndex) (offset : Nat) :
    ∃ t : Token, t.word = w ∧ t.kind ≠ .newline ∧
      t.span.column = (index.lineColumn offset).2 ∧
      Scan.tokensFrom index offset (w.chars ++ rest) =
        t :: Scan.tokensFrom index (offset + width w.chars) rest := by
  obtain ⟨c, cs, hchars⟩ := List.exists_cons_of_ne_nil h.ne_nil
  refine ⟨⟨w.kind, index.span offset (offset + width w.chars), String.ofList w.chars⟩,
    h.word_eq _, h.ne_newline, rfl, ?_⟩
  rw [hchars]
  exact Scan.tokensFrom_take (h.lexeme hchars hrest)

end Word

end runs

section texts

/-- The characters write the words, with blanks between them where they would join, and anywhere
else. -/
inductive Spelled : List Word → List Char → Prop where
  | last {w : Word} (hw : w.Plain) : Spelled [w] w.chars
  | more {w : Word} {ws : List Word} {gap text : List Char} (hw : w.Plain)
      (hgap : ∀ c ∈ gap, Scan.isBlank c = true)
      (hjoins : gap = [] → ∀ c ∈ text.head?, w.joins c = false) (hws : Spelled ws text) :
      Spelled (w :: ws) (w.chars ++ (gap ++ text))

/-- What may stand at the end of a line or on a line of its own: blanks, and a comment. -/
inductive Filler : List Char → Prop where
  | blank {gap : List Char} (hgap : ∀ c ∈ gap, Scan.isBlank c = true) : Filler gap
  | comment {gap text : List Char} (hgap : ∀ c ∈ gap, Scan.isBlank c = true)
      (htext : '\n' ∉ text) : Filler (gap ++ '#' :: text)

/-- The characters write the lines, with blank lines and comments in between. -/
inductive Laid : List SourceLine → List Char → Prop where
  | done {filler : List Char} (hfiller : Filler filler) : Laid [] filler
  | skip {lines : List SourceLine} {filler text : List Char} (hfiller : Filler filler)
      (hlines : Laid lines text) : Laid lines (filler ++ '\n' :: text)
  | line {line : SourceLine} {lines : List SourceLine} {written filler text : List Char}
      (hwords : Spelled line.words written) (hfiller : Filler filler)
      (hlines : Laid lines text) :
      Laid (line :: lines)
        (List.replicate line.column ' ' ++ (written ++ (filler ++ '\n' :: text)))
  | last {line : SourceLine} {written filler : List Char} (hwords : Spelled line.words written)
      (hfiller : Filler filler) :
      Laid [line] (List.replicate line.column ' ' ++ (written ++ filler))

variable {index : LineIndex} {ws : List Word} {text filler rest : List Char}

theorem Spelled.ne_nil (h : Spelled ws text) : text ≠ [] := by
  cases h with
  | last hw => exact hw.ne_nil
  | more hw _ _ _ => exact List.append_ne_nil_of_left_ne_nil hw.ne_nil _

theorem Spelled.not_isBlank (h : Spelled ws text) :
    ∀ c ∈ (text ++ rest).head?, Scan.isBlank c = false := by
  have hhead {w : Word} (hw : w.Plain) (more : List Char) :
      ∀ c ∈ (w.chars ++ more).head?, Scan.isBlank c = false := by
    rw [List.head?_append_of_ne_nil _ hw.ne_nil]
    exact hw.not_isBlank
  cases h with
  | last hw => exact hhead hw rest
  | more hw _ _ _ =>
      rw [List.append_assoc]
      exact hhead hw _

theorem Spelled.tokensFrom (h : Spelled ws text)
    (hrest : ∀ c ∈ rest.head?, Scan.isBlank c = true ∨ c = '#' ∨ c = '\n') (offset : Nat) :
    ∃ first ts, Spells (first :: ts) ws ∧ first.kind ≠ .newline ∧
      first.span.column = (index.lineColumn offset).2 ∧
      Scan.tokensFrom index offset (text ++ rest) =
        first :: (ts ++ Scan.tokensFrom index (offset + width text) rest) := by
  induction h generalizing offset with
  | last hw =>
      obtain ⟨t, rfl, hkind, hcolumn, ht⟩ :=
        hw.tokensFrom (fun d hd => hw.not_joins (hrest d hd)) index offset
      exact ⟨t, [], rfl, hkind, hcolumn, ht⟩
  | @more w ws gap text hw hgap hjoins hws ih =>
      have hnext : ∀ d ∈ (gap ++ (text ++ rest)).head?, w.joins d = false := by
        intro d hd
        -- without a gap the next word must not join, and a gap joins with no word
        cases gap with
        | nil =>
            rw [List.nil_append, List.head?_append_of_ne_nil _ hws.ne_nil] at hd
            exact hjoins rfl d hd
        | cons e gap =>
            cases hd
            exact hw.not_joins (.inl (hgap d List.mem_cons_self))
      obtain ⟨t, rfl, hkind, hcolumn, ht⟩ := hw.tokensFrom hnext index offset
      obtain ⟨first, ts, rfl, -, -, hts⟩ := ih (offset + width t.word.chars + width gap)
      refine ⟨t, first :: ts, rfl, hkind, hcolumn, ?_⟩
      rw [List.append_assoc, List.append_assoc, ht,
        Scan.tokensFrom_blanks hgap hws.not_isBlank, hts, width_append, width_append,
        ← Nat.add_assoc, ← Nat.add_assoc]
      rfl

theorem Filler.tokensFrom (h : Filler filler) (hrest : ∀ c ∈ rest.head?, c = '\n')
    (offset : Nat) : Scan.tokensFrom index offset (filler ++ rest) =
      Scan.tokensFrom index (offset + width filler) rest := by
  cases h with
  | blank hgap =>
      refine Scan.tokensFrom_blanks hgap fun c hc => ?_
      rw [hrest c hc]
      rfl
  | comment hgap htext =>
      rw [List.append_assoc, Scan.tokensFrom_blanks hgap (by simp [Scan.isBlank]), List.cons_append,
        Scan.tokensFrom_comment htext hrest, width_append, Nat.add_assoc]

theorem Filler.tokensFrom_end (h : Filler filler) (offset : Nat) :
    Scan.tokensFrom index offset filler = [] := by
  have hend : Scan.tokensFrom index offset (filler ++ []) = _ := h.tokensFrom (by simp) offset
  rwa [List.append_nil, Scan.tokensFrom] at hend

theorem Filler.tokensFrom_break (h : Filler filler) (offset : Nat) :
    ∃ t : Token, t.kind = .newline ∧ Scan.tokensFrom index offset (filler ++ '\n' :: rest) =
      t :: Scan.tokensFrom index (offset + width (filler ++ ['\n'])) rest := by
  obtain ⟨t, ht, hbreak⟩ := Scan.tokensFrom_newline
  refine ⟨t, ht, ?_⟩
  rw [h.tokensFrom (by simp), hbreak, width_append, ← Nat.add_assoc]
  rfl

theorem Filler.head_cases (h : Filler filler) (hrest : ∀ c ∈ rest.head?, c = '\n') :
    ∀ c ∈ (filler ++ rest).head?, Scan.isBlank c = true ∨ c = '#' ∨ c = '\n' := by
  have hhead {gap : List Char} (hgap : ∀ c ∈ gap, Scan.isBlank c = true) (more : List Char)
      (hmore : ∀ c ∈ more.head?, c = '#' ∨ c = '\n') :
      ∀ c ∈ (gap ++ more).head?, Scan.isBlank c = true ∨ c = '#' ∨ c = '\n' := by
    cases gap with
    | nil => exact fun c hc => .inr (hmore c hc)
    | cons d gap =>
        intro c hc
        cases hc
        exact .inl (hgap d List.mem_cons_self)
  cases h with
  | blank hgap => exact hhead hgap rest fun c hc => .inr (hrest c hc)
  | comment hgap _ =>
      rw [List.append_assoc]
      exact hhead hgap _ (by simp)

variable {source : String} {before written : List Char} {line : SourceLine}

theorem Spelled.tokensFrom_line (h : Spelled line.words written)
    (hsource : source.toList = before ++ (List.replicate line.column ' ' ++ (written ++ rest)))
    (hbefore : EndsLine before)
    (hrest : ∀ c ∈ rest.head?, Scan.isBlank c = true ∨ c = '#' ∨ c = '\n') :
    ∃ first ts, Spells (first :: ts) line.words ∧ first.kind ≠ .newline ∧
      first.span.column = line.counted.column ∧
      Scan.tokensFrom (.ofString source) (width before)
          (List.replicate line.column ' ' ++ (written ++ rest)) =
        first :: (ts ++ Scan.tokensFrom (.ofString source)
          (width (before ++ (List.replicate line.column ' ' ++ written))) rest) := by
  have hspaces : ∀ c ∈ List.replicate line.column ' ', Scan.isBlank c = true := by
    simp [Scan.isBlank]
  have hplace := column_of_line hsource hbefore (by simp)
  rw [width_spaces] at hplace
  obtain ⟨first, ts, hts, hkind, hfirst, htext⟩ :=
    h.tokensFrom hrest (width before + line.column)
  refine ⟨first, ts, hts, hkind, hfirst.trans hplace, ?_⟩
  rw [Scan.tokensFrom_blanks hspaces h.not_isBlank, width_spaces, htext, width_append, width_append,
    width_spaces, Nat.add_assoc]

theorem endsLine_append_newline (cs : List Char) : EndsLine (cs ++ ['\n']) := by
  simp [EndsLine]

/-- From the beginning of a line on, the tokens of the lines are scanned. -/
theorem Laid.scannedFrom {lines : List SourceLine} (h : Laid lines text) :
    ∀ before, source.toList = before ++ text → EndsLine before →
      Scanned (lines.map SourceLine.counted)
        (Scan.tokensFrom (.ofString source) (width before) text) := by
  -- `before` always ends a line, so the column of a line is the number of its leading blanks
  induction h with
  | done hfiller =>
      intro before _ _
      rw [hfiller.tokensFrom_end]
      exact .done
  | @skip lines filler text hfiller _ ih =>
      intro before hsource hbefore
      obtain ⟨t, ht, hbreak⟩ := hfiller.tokensFrom_break (width before)
      have hmore := ih (before ++ (filler ++ ['\n'])) (by simp [hsource])
        (by rw [← List.append_assoc]; exact endsLine_append_newline _)
      rw [width_append] at hmore
      rw [hbreak]
      exact .blank ht hmore
  | @line line lines written filler text hwords hfiller _ ih =>
      intro before hsource hbefore
      obtain ⟨first, ts, hts, hkind, hfirst, htext⟩ :=
        hwords.tokensFrom_line hsource hbefore (hfiller.head_cases (by simp))
      obtain ⟨t, ht, hbreak⟩ := hfiller.tokensFrom_break
        (width (before ++ (List.replicate line.column ' ' ++ written)))
      have hmore := ih (before ++ (List.replicate line.column ' ' ++ written) ++ (filler ++ ['\n']))
        (by simp [hsource]) (by rw [← List.append_assoc]; exact endsLine_append_newline _)
      rw [width_append] at hmore
      rw [htext, hbreak]
      exact .line hkind hts hfirst ht hmore
  | @last line written filler hwords hfiller =>
      intro before hsource hbefore
      have hend : ∀ c ∈ (filler ++ []).head?, _ := hfiller.head_cases (by simp)
      rw [List.append_nil] at hend
      obtain ⟨first, ts, hts, hkind, hfirst, htext⟩ :=
        hwords.tokensFrom_line hsource hbefore hend
      rw [htext, hfiller.tokensFrom_end, List.append_nil]
      exact .last hkind hts hfirst

theorem Laid.scanned {lines : List SourceLine} (h : Laid lines source.toList) :
    Scanned (lines.map SourceLine.counted) (scan source) :=
  h.scannedFrom [] rfl nofun

end texts

end P16
