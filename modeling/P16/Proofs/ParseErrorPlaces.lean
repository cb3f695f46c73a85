import Mathlib.Data.List.TakeWhile
import P16.Proofs.LinePlaces
import P16.Proofs.Nesting
import P16.Proofs.ParserBounds
import P16.Proofs.SourceText

/-!
# Where parse errors are

An error is at a token or where the input ends. A token has the line and column of its first byte.
The end of the input has those of the last token: they are its own where that token is a mark made
at the end, and they are not where it is a line break of the text.
-/

namespace P16

variable {source : String} {t : Token} {raw out : List Token} {e : ParseError}

/-- What holds of the end of the input and of all tokens, and does not hang on where a span stops,
holds where the parsers report an error. -/
theorem span_of_parseTokens {P : Span → Prop} {eof : Span} (hP : ∀ a b, P a → P (a.through b))
    (heof : P eof) (hraw : ∀ t ∈ raw, P t.span) (h : parseTokens eof raw = .error e) :
    P e.span := by
  have hinput : Parser.Input P (raw.length + 1) eof raw := ⟨Nat.lt_succ_self _, heof, hraw⟩
  have hfault := (Parser.alike_wholeModule hP le_rfl le_rfl eof raw hinput).fault
  change (Parser.wholeModule (raw.length + 1) eof raw).map Prod.fst = .error e at h
  cases hrun : Parser.wholeModule (raw.length + 1) eof raw with
  | ok result =>
      rw [hrun] at h
      cases h
  | error e' =>
      rw [hrun] at h
      cases h
      exact (hfault e hrun).2

section layout

theorem Layout.span_of_indentation_error {indents : List Nat}
    (h : indentation indents t = .error e) : e.span = t.span := by
  unfold indentation at h
  dsimp only at h
  split at h
  · cases h
  split at h
  · cases h
  · cases h
    rfl

/-- What layout does with a token: a line break may be dropped, a token may be refused, and
otherwise it comes after the marks before it, where only a line break brings back the start of a
line. -/
theorem Layout.tokensFrom_cons (eof : Span) (layout : Layout) (t : Token) (rest : List Token) :
    tokensFrom eof layout (t :: rest) = tokensFrom eof layout rest ∨
      (∃ e, tokensFrom eof layout (t :: rest) = .error e ∧ e.span = t.span) ∨
      ∃ marks layout', (layout'.atLineStart = true → t.kind = .newline) ∧
        tokensFrom eof layout (t :: rest) =
          (do return marks ++ t :: (← tokensFrom eof layout' rest)) := by
  rw [tokensFrom]
  split
  · rename_i hkind
    split
    · exact .inr (.inr ⟨[], _, fun _ => hkind, rfl⟩)
    · exact .inl rfl
  · dsimp only
    split
    · cases hmarks : indentation layout.indents t with
      | error e => exact .inr (.inl ⟨e, rfl, span_of_indentation_error hmarks⟩)
      | ok found =>
          exact .inr (.inr ⟨found.1, ⟨found.2, depthAfter layout.depth t.kind, false⟩, by simp,
            rfl⟩)
    · exact .inr (.inr ⟨[], ⟨layout.indents, depthAfter layout.depth t.kind, false⟩, by simp, rfl⟩)

theorem Layout.exists_of_tokensFrom_error {eof : Span} {layout : Layout}
    (h : tokensFrom eof layout raw = .error e) : ∃ t ∈ raw, e.span = t.span := by
  induction raw generalizing layout with
  | nil => cases h
  | cons t rest ih =>
      rcases tokensFrom_cons eof layout t rest with
        heq | ⟨e', heq, hspan⟩ | ⟨marks, layout', -, heq⟩
      · obtain ⟨u, hu, hspan⟩ := ih (heq ▸ h)
        exact ⟨u, List.mem_cons_of_mem _ hu, hspan⟩
      · rw [heq] at h
        cases h
        exact ⟨t, List.mem_cons_self, hspan⟩
      · rw [heq] at h
        cases htail : tokensFrom eof layout' rest with
        | ok tail =>
            rw [htail] at h
            cases h
        | error e' =>
            rw [htail] at h
            cases h
            obtain ⟨u, hu, hspan⟩ := ih htail
            exact ⟨u, List.mem_cons_of_mem _ hu, hspan⟩

theorem Layout.atLineStart_of_tokensFrom_nil {eof : Span} {layout : Layout}
    (h : tokensFrom eof layout raw = .ok []) : layout.atLineStart = true := by
  induction raw generalizing layout with
  | nil =>
      rw [tokensFrom, Except.ok.injEq, closing, List.append_eq_nil_iff] at h
      simpa using h.1
  | cons t rest ih =>
      rcases tokensFrom_cons eof layout t rest with heq | ⟨_, heq, -⟩ | ⟨marks, layout', -, heq⟩
      · exact ih (heq ▸ h)
      · rw [heq] at h
        cases h
      · rw [heq] at h
        obtain ⟨tail, -, h⟩ := exists_of_bind_eq_ok h
        simpa using Except.ok.inj h

/-- The last token is a line break of the text or a mark made at the end. -/
theorem Layout.last_of_tokensFrom {eof : Span} {layout : Layout} {front : List Token}
    (h : tokensFrom eof layout raw = .ok (front ++ [t])) :
    t ∈ raw ∧ t.kind = .newline ∨ t.span = eof.collapse ∧ t.text = "" := by
  induction raw generalizing layout front with
  | nil =>
      rw [tokensFrom, Except.ok.injEq] at h
      have ht : t ∈ layout.closing eof := by simp [h]
      refine .inr ⟨span_of_closing layout t ht, ?_⟩
      rw [closing, List.mem_append] at ht
      rcases ht with ht | ht
      · split at ht <;> simp_all [mark]
      · obtain ⟨_, -, rfl⟩ := List.mem_map.mp ht
        rfl
  | cons u rest ih =>
      have hmem (h : t ∈ rest ∧ t.kind = .newline ∨ t.span = eof.collapse ∧ t.text = "") :
          t ∈ u :: rest ∧ t.kind = .newline ∨ t.span = eof.collapse ∧ t.text = "" :=
        h.imp_left (And.imp_left (List.mem_cons_of_mem _))
      rcases tokensFrom_cons eof layout u rest with heq | ⟨_, heq, -⟩ | ⟨marks, layout', hkind, heq⟩
      · exact hmem (ih (heq ▸ h))
      · rw [heq] at h
        cases h
      · rw [heq] at h
        obtain ⟨tail, htail, h⟩ := exists_of_bind_eq_ok h
        have hlast := congrArg List.getLast? (Except.ok.inj h)
        rw [List.getLast?_append_cons, List.getLast?_concat] at hlast
        rcases List.eq_nil_or_concat tail with rfl | ⟨tail, last, rfl⟩
        · cases hlast
          exact .inl ⟨List.mem_cons_self, hkind (atLineStart_of_tokensFrom_nil htail)⟩
        · rw [List.concat_eq_append, ← List.cons_append, List.getLast?_concat] at hlast
          cases hlast
          exact hmem (ih (htail.trans (by rw [List.concat_eq_append])))

end layout

section breaks

theorem Scan.Lexeme.newline {piece rest : List Char} (h : Lexeme (some .newline) piece rest) :
    piece = ['\n'] := by
  have hsymbols : ∀ entry ∈ TokenKind.symbols, entry.2 = .newline → entry.1 = ['\n'] := by decide
  have hkeywords : ∀ entry ∈ TokenKind.keywords, entry.2 ≠ .newline := by decide
  generalize hkind : some TokenKind.newline = kind at h
  cases h with
  | symbol hmem =>
      cases hkind
      exact hsymbols _ hmem rfl
  | @word c cs =>
      rcases TokenKind.ofWord_cases (String.ofList (c :: cs)) with hword | ⟨entry, hentry, hword⟩
      · rw [hword] at hkind
        cases hkind
      · rw [hword] at hkind
        exact absurd (Option.some.inj hkind).symm (hkeywords entry hentry)
  | _ => cases hkind

theorem breaksBefore_lt_of_break {before after : List Char}
    (h : source.toList = before ++ '\n' :: after) :
    breaksBefore (bytesOf source) (width before) <
      breaksBefore (bytesOf source) source.utf8ByteSize := by
  have hlength (text : String) : (bytesOf text).length = text.utf8ByteSize := rfl
  have hbytes : bytesOf source =
      bytesOf (.ofList before) ++ lineBreakByte :: bytesOf (.ofList after) := by
    rw [bytesOf_eq, h, bytesOf_eq, bytesOf_eq, String.toList_ofList, String.toList_ofList,
      List.flatMap_append, List.flatMap_cons, utf8EncodeChar_lineBreak]
    rfl
  rw [width, breaksBefore, breaksBefore, List.take_of_length_le (hlength source).le, hbytes,
    List.take_left' (hlength _), List.count_append, List.count_cons_self]
  omega

end breaks

/-- The text is tokens up to a line break, which is its last token. -/
def LastBreak (source : String) (t : Token) : Prop :=
  ∃ front, lex source = .ok (front ++ [t]) ∧ t.text = "\n"

namespace LastBreak

theorem eq_last {front : List Token} {u : Token} (h : LastBreak source t)
    (hlex : lex source = .ok (front ++ [u])) : t = u := by
  obtain ⟨front', hlex', -⟩ := h
  rw [hlex', Except.ok.injEq] at hlex
  exact (List.cons.inj (List.append_inj' hlex rfl).2).1

theorem exists_break (h : LastBreak source t) :
    ∃ before after, source.toList = before ++ '\n' :: after ∧ t.span.start = width before := by
  obtain ⟨front, hlex, htext⟩ := h
  rcases Layout.last_of_tokensFrom hlex with ⟨ht, -⟩ | ⟨-, hempty⟩
  · obtain ⟨before, after, hsource, -, hstart, -⟩ := (Scan.cut_scan source).lexeme t ht
    rw [htext] at hsource
    exact ⟨before, after, hsource, by rw [hstart, Nat.zero_add]⟩
  · rw [hempty] at htext
    exact absurd htext (by decide)

theorem breaksBefore_lt (h : LastBreak source t) :
    breaksBefore (bytesOf source) t.span.start <
      breaksBefore (bytesOf source) source.utf8ByteSize := by
  obtain ⟨before, after, hsource, hstart⟩ := h.exists_break
  rw [hstart]
  exact breaksBefore_lt_of_break hsource

theorem start_lt (h : LastBreak source t) : t.span.start < source.utf8ByteSize := by
  by_contra hle
  exact Nat.not_le.mpr h.breaksBefore_lt (breaksBefore_mono (Nat.le_of_not_lt hle))

theorem place_ne (h : LastBreak source t) (hsize : source.utf8ByteSize < 0x100000000) :
    (LineIndex.ofString source).lineColumn t.span.start ≠
      (LineIndex.ofString source).lineColumn source.utf8ByteSize := by
  intro heq
  have hbreaks := h.breaksBefore_lt
  have hle := breaksBefore_le (bytesOf source) source.utf8ByteSize
  have hline := congrArg Prod.fst heq
  rw [LineIndex.lineColumn_ofString, LineIndex.lineColumn_ofString] at hline
  dsimp only at hline
  omega

end LastBreak

theorem endSpan_concat (source : String) (front : List Token) (t : Token) :
    endSpan source (front ++ [t]) =
      ⟨source.utf8ByteSize, source.utf8ByteSize, t.span.line, t.span.column⟩ := by
  rw [endSpan, List.getLast?_concat]

/-- The span begins at its line and column, or it is at the end of a text whose last token is a line
break and has the line and column of that. -/
inductive Span.Reported (source : String) (a : Span) : Prop where
  | placed (hplaced : a.Placed (.ofString source)) (hle : a.start ≤ source.utf8ByteSize)
      (hend : a.start = source.utf8ByteSize → ∀ t, ¬ LastBreak source t)
  | atBreak {t : Token} (ht : LastBreak source t) (hend : a.start = source.utf8ByteSize)
      (hline : (a.line, a.column) = (LineIndex.ofString source).lineColumn t.span.start)

namespace Span.Reported

theorem through {a b : Span} (h : a.Reported source) : (a.through b).Reported source := by
  cases h with
  | placed hplaced hle hend => exact .placed hplaced hle hend
  | atBreak ht hend hline => exact .atBreak ht hend hline

theorem of_scan (ht : t ∈ scan source) : t.span.Reported source := by
  have hbounds := (ahead_scan source).row.bounds (List.mem_map_of_mem ht)
  have hlt := (tiles_scan source).nonempty t ht
  exact .placed ((ahead_scan source).placed t ht) (hbounds.2.1.trans hbounds.2.2) (by omega)

theorem of_lex (h : lex source = .ok out) (ht : t ∈ out) : t.span.Reported source := by
  have hahead := ahead_of_lex h
  have hbounds := hahead.row.bounds (List.mem_map_of_mem ht)
  refine .placed (hahead.placed t ht) (hbounds.2.1.trans hbounds.2.2) fun hend u hu => ?_
  obtain ⟨front, hlex, -⟩ := id hu
  rw [h, Except.ok.injEq] at hlex
  subst hlex
  -- no token comes after the last line break, and that one begins before the end
  have hlt := hu.start_lt
  rcases List.mem_append.mp ht with ht | ht
  · have hpairwise := List.pairwise_map.mp hahead.row.pairwise
    have hle := (List.pairwise_append.mp hpairwise).2.2 t ht u List.mem_cons_self
    omega
  · rw [List.mem_singleton.mp ht] at hend
    omega

theorem of_endSpan (h : lex source = .ok out) (hout : out ≠ []) :
    (endSpan source out).Reported source := by
  obtain ⟨front, t, rfl⟩ := (List.eq_nil_or_concat out).resolve_left hout
  rw [List.concat_eq_append] at h ⊢
  rw [endSpan_concat]
  rcases Layout.last_of_tokensFrom h with ⟨ht, hkind⟩ | ⟨hspan, htext⟩
  · obtain ⟨_, _, _, hlexeme, _⟩ := (Scan.cut_scan source).lexeme t ht
    rw [hkind] at hlexeme
    exact .atBreak ⟨front, h, String.toList_inj.mp hlexeme.newline⟩ rfl
      ((ahead_scan source).placed t ht)
  · refine .placed ?_ le_rfl fun _ u hu => ?_
    · rw [hspan]
      rfl
    · have hlast := hu.eq_last h
      obtain ⟨-, -, hbreak⟩ := hu
      rw [hlast, htext] at hbreak
      exact absurd hbreak (by decide)

end Span.Reported

theorem reported_of_parseModule (h : parseModule source = .error e) : e.span.Reported source := by
  unfold parseModule at h
  cases hlex : lex source with
  | error e' =>
      rw [hlex] at h
      cases h
      obtain ⟨t, ht, hspan⟩ := Layout.exists_of_tokensFrom_error hlex
      rw [hspan]
      exact .of_scan ht
  | ok out =>
      rw [hlex] at h
      have hout : out ≠ [] := by
        rintro rfl
        cases h
      exact span_of_parseTokens (fun _ _ => .through) (.of_endSpan hlex hout)
        (fun t ht => .of_lex hlex ht) h

/-- An error begins in the text or at its end. Its line and column are those of its beginning,
except at the end of a text whose last token is a line break: there they are those of the break,
which are others unless there are so many lines that their numbers come round. -/
theorem place_of_parseModule_error (h : parseModule source = .error e) :
    e.span.start ≤ source.utf8ByteSize ∧
      (e.span.Placed (.ofString source) ↔
        ¬ (e.span.start = source.utf8ByteSize ∧ ∃ t, LastBreak source t ∧
          (LineIndex.ofString source).lineColumn t.span.start ≠
            (LineIndex.ofString source).lineColumn source.utf8ByteSize)) ∧
      (∀ t, LastBreak source t → e.span.start = source.utf8ByteSize →
        (e.span.line, e.span.column) = (LineIndex.ofString source).lineColumn t.span.start) ∧
      (source.utf8ByteSize < 0x100000000 → ∀ t, LastBreak source t →
        (LineIndex.ofString source).lineColumn t.span.start ≠
          (LineIndex.ofString source).lineColumn source.utf8ByteSize) := by
  have hlines (hsize : source.utf8ByteSize < 0x100000000) (t : Token) (ht : LastBreak source t) :=
    ht.place_ne hsize
  cases reported_of_parseModule h with
  | placed hplaced hle hend =>
      exact ⟨hle, iff_of_true hplaced fun ⟨hstart, t, ht, _⟩ => hend hstart t ht,
        fun t ht hstart => absurd ht (hend hstart t), hlines⟩
  | @atBreak t ht hend hline =>
      have hthis : ∀ u, LastBreak source u → u = t := by
        rintro u ⟨front, hlex, -⟩
        exact (ht.eq_last hlex).symm
      refine ⟨hend.le, ?_, fun u hu _ => by rwa [hthis u hu], hlines⟩
      rw [Span.Placed, hline, hend]
      constructor
      · rintro heq ⟨-, u, hu, hne⟩
        rw [hthis u hu] at hne
        exact hne heq
      · intro hnot
        by_contra hne
        exact hnot ⟨rfl, t, ht, hne⟩

/-- A block that has only a comment: the error is at the end, on the third line, and is placed at
the break of the first. -/
theorem place_of_unfinished_block :
    let source := "if A:\n  # B\n"
    let t : Token := ⟨.newline, ⟨5, 6, 1, 5⟩, "\n"⟩
    ∃ e, parseModule source = .error e ∧ e.span.start = source.utf8ByteSize ∧
      LastBreak source t ∧ ¬ e.span.Placed (.ofString source) ∧
      (e.span.line, e.span.column) = (LineIndex.ofString source).lineColumn t.span.start := by
  intro source t
  have hlex : lex source = .ok ([⟨.kwIf, ⟨0, 2, 1, 0⟩, "if"⟩, ⟨.ident, ⟨3, 4, 1, 3⟩, "A"⟩,
      ⟨.colon, ⟨4, 5, 1, 4⟩, ":"⟩] ++ [t]) := by decide +kernel
  have hparse : parseModule source = .error ⟨.unexpectedEnd, ⟨12, 12, 1, 5⟩⟩ := by
    rw [parseModule, hlex]
    rfl
  have hbreak : LastBreak source t := ⟨_, hlex, rfl⟩
  obtain ⟨-, hplaced, hline, hlines⟩ := place_of_parseModule_error hparse
  have hne := hlines (by decide) t hbreak
  exact ⟨_, hparse, rfl, hbreak, fun h => hplaced.mp h ⟨rfl, t, hbreak, hne⟩, hline t hbreak rfl⟩

/-- The text ends where its second line begins, and the error found there is placed at the end of
the first. -/
theorem end_of_input_misplaced :
    parseModule "while A:\n" = .error ⟨.unexpectedEnd, ⟨9, 9, 1, 8⟩⟩ ∧
      (LineIndex.ofString "while A:\n").lineColumn 9 = (2, 0) := by
  have hlex : lex "while A:\n" = .ok [⟨.kwWhile, ⟨0, 5, 1, 0⟩, "while"⟩,
      ⟨.ident, ⟨6, 7, 1, 6⟩, "A"⟩, ⟨.colon, ⟨7, 8, 1, 7⟩, ":"⟩,
      ⟨.newline, ⟨8, 9, 1, 8⟩, "\n"⟩] := by
    decide +kernel
  refine ⟨?_, by decide +kernel⟩
  rw [parseModule, hlex]
  rfl

end P16
