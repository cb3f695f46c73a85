import Mathlib.Data.List.Infix
import P16.Proofs.LayoutBlocks

/-!
# Logical lines

A logical line goes on to the next line break outside brackets. Layout fails only at a logical line
that leaves the block of the line before it without going back to a block that is still open, and
which blocks are open can be read off the columns at which the lines before began.
-/

namespace P16

namespace Layout

/-- No bracket is open after the tokens: of their last ones, however many, no more open a bracket
than close one. -/
def noneOpen (before : List Token) : Bool :=
  before.tails.all fun tail =>
    tail.countP (·.kind.opensBracket) ≤ tail.countP (·.kind.closesBracket)

/-- A logical line begins after the tokens, unless a line break follows. -/
def atLineBreak (before : List Token) : Bool :=
  before.getLast?.all (·.kind = .newline) && noneOpen before

/-- The tokens that begin logical lines, when `before` comes before them. -/
def lineStarts (before : List Token) : List Token → List Token
  | [] => []
  | t :: rest =>
    if atLineBreak before && t.kind ≠ .newline then t :: lineStarts (before ++ [t]) rest
    else lineStarts (before ++ [t]) rest

/-- The columns at which the logical lines of a text begin. -/
def lineColumns (raw : List Token) : List Nat :=
  (lineStarts [] raw).map (·.span.column)

/-- After lines that begin at the columns `earlier`, a block at `column` is open: a line began there
and none since has begun further left. The text itself is a block at column zero. -/
def IsOpen (earlier : List Nat) (column : Nat) : Prop :=
  column = 0 ∨ ∃ before after, earlier = before ++ column :: after ∧ ∀ c ∈ after, column ≤ c

/-- A line at `column` leaves the block of the line before it and comes back to none that is
open. -/
def BadDedent (earlier : List Nat) (column : Nat) : Prop :=
  column < earlier.getLastD 0 ∧ ¬ IsOpen earlier column

def depthOf (before : List Token) : Nat :=
  before.foldl (fun depth t => depthAfter depth t.kind) 0

theorem depthOf_concat (before : List Token) (t : Token) :
    depthOf (before ++ [t]) = depthAfter (depthOf before) t.kind := by
  simp [depthOf]

/-- The tokens open `extra` brackets more than they close. -/
def Excess (tokens : List Token) (extra : Nat) : Prop :=
  tokens.countP (·.kind.opensBracket) = tokens.countP (·.kind.closesBracket) + extra

/-- The depth is the largest excess of opening over closing brackets at the end of the tokens. -/
theorem depthOf_spec (before : List Token) :
    (∀ tail, tail <:+ before → tail.countP (·.kind.opensBracket) ≤
      tail.countP (·.kind.closesBracket) + depthOf before) ∧
    ∃ tail, tail <:+ before ∧ Excess tail (depthOf before) := by
  induction before using List.reverseRecOn with
  | nil =>
      constructor
      · intro tail htail
        simp [List.suffix_nil.mp htail]
      · exact ⟨[], List.suffix_rfl, rfl⟩
  | append_singleton before t ih =>
      obtain ⟨hle, tail₀, htail₀, heq⟩ := ih
      have hlonger : tail₀ ++ [t] <:+ before ++ [t] :=
        List.suffix_concat_iff.mpr (.inr ⟨tail₀, rfl, htail₀⟩)
      have hone : t.kind.opensBracket → t.kind.closesBracket = false := by
        cases t.kind <;> decide
      rw [depthOf_concat, depthAfter]
      constructor
      · intro tail htail
        rcases List.suffix_concat_iff.mp htail with rfl | ⟨tail', rfl, htail'⟩
        · simp
        · have := hle tail' htail'
          rw [List.countP_append, List.countP_append, List.countP_singleton, List.countP_singleton]
          grind
      · by_cases hlast : t.kind.closesBracket ∧ depthOf before = 0
        · -- an unmatched closing bracket ends every excess
          refine ⟨[], List.nil_suffix, ?_⟩
          simp only [Excess, List.countP_nil]
          grind
        · refine ⟨tail₀ ++ [t], hlonger, ?_⟩
          unfold Excess at heq ⊢
          rw [List.countP_append, List.countP_append, List.countP_singleton, List.countP_singleton]
          grind

theorem noneOpen_iff (before : List Token) : noneOpen before ↔ depthOf before = 0 := by
  obtain ⟨hle, tail₀, htail₀, heq⟩ := depthOf_spec before
  simp only [noneOpen, List.all_eq_true, List.mem_tails, decide_eq_true_eq]
  constructor
  · intro h
    have := h tail₀ htail₀
    unfold Excess at heq
    omega
  · intro h tail htail
    have := hle tail htail
    omega

theorem atLineBreak_concat (before : List Token) (t : Token) :
    atLineBreak (before ++ [t]) = (decide (t.kind = .newline) && decide (depthOf before = 0)) := by
  have hopen : noneOpen (before ++ [t]) = decide (depthOf (before ++ [t]) = 0) :=
    Bool.eq_iff_iff.mpr (by rw [noneOpen_iff, decide_eq_true_eq])
  rw [atLineBreak, hopen, depthOf_concat]
  by_cases ht : t.kind = .newline
  · simp [ht, depthAfter, TokenKind.opensBracket, TokenKind.closesBracket]
  · simp [ht]

theorem isOpen_concat (earlier : List Nat) (column c : Nat) :
    IsOpen (earlier ++ [column]) c ↔ c = column ∨ c ≤ column ∧ IsOpen earlier c := by
  constructor
  · rintro (rfl | ⟨before, after, heq, hafter⟩)
    · exact .inr ⟨Nat.zero_le _, .inl rfl⟩
    · rcases List.eq_nil_or_concat after with rfl | ⟨after, d, rfl⟩
      · obtain ⟨-, h⟩ := List.append_inj' heq rfl
        cases h
        exact .inl rfl
      · rw [List.concat_eq_append, ← List.cons_append, ← List.append_assoc] at heq
        obtain ⟨hearlier, hlast⟩ := List.append_inj' heq rfl
        cases hlast
        refine .inr ⟨hafter _ (by simp), .inr ⟨before, after, hearlier, fun d hd => ?_⟩⟩
        exact hafter d (by simp [hd])
  · rintro (rfl | ⟨hle, rfl | ⟨before, after, rfl, hafter⟩⟩)
    · exact .inr ⟨earlier, [], rfl, by simp⟩
    · exact .inl rfl
    · refine .inr ⟨before, after ++ [column], by simp, ?_⟩
      rw [List.forall_mem_append, List.forall_mem_singleton]
      exact ⟨hafter, hle⟩

/-- The levels `indents` are the blocks that are open after lines at the columns `earlier`. -/
structure Tracks (earlier indents : List Nat) : Prop where
  descending : indents.Pairwise (· > ·)
  top : indents.headD 0 = earlier.getLastD 0
  mem_iff : ∀ c, c = 0 ∨ c ∈ indents ↔ IsOpen earlier c

theorem mem_dropWhile_of_descending {indents : List Nat} (h : indents.Pairwise (· > ·))
    (column c : Nat) : c ∈ indents.dropWhile (column < ·) ↔ c ∈ indents ∧ c ≤ column := by
  induction indents with
  | nil => simp
  | cons d indents ih =>
      obtain ⟨hd, hrest⟩ := List.pairwise_cons.mp h
      by_cases hlt : column < d
      · rw [List.dropWhile_cons_of_pos (by simpa using hlt), ih hrest]
        constructor
        · exact fun hc => ⟨List.mem_cons_of_mem d hc.1, hc.2⟩
        · rintro ⟨hc, hle⟩
          rcases List.mem_cons.mp hc with rfl | hc
          · omega
          · exact ⟨hc, hle⟩
      · rw [List.dropWhile_cons_of_neg (by simpa using hlt)]
        refine ⟨fun hc => ⟨hc, ?_⟩, And.left⟩
        rcases List.mem_cons.mp hc with rfl | hc
        · omega
        · have := hd c hc
          omega

theorem headD_dropWhile {indents : List Nat} (h : indents.Pairwise (· > ·)) (column : Nat) :
    column = (indents.dropWhile (column < ·)).headD 0 ↔ column = 0 ∨ column ∈ indents := by
  have hmem := mem_dropWhile_of_descending h column
  have hsorted := h.sublist (List.dropWhile_sublist (column < ·))
  cases hleft : indents.dropWhile (column < ·) with
  | nil =>
      have hnone : column ∉ indents := by simpa [hleft] using hmem column
      simp [hnone]
  | cons d left =>
      rw [hleft] at hmem hsorted
      have hd := (hmem d).mp List.mem_cons_self
      rw [List.headD_cons]
      constructor
      · rintro rfl
        exact .inr hd.1
      · rintro (rfl | hin)
        · omega
        · rcases List.mem_cons.mp ((hmem column).mpr ⟨hin, le_rfl⟩) with heq | hrest
          · exact heq
          · have := List.rel_of_pairwise_cons hsorted hrest
            omega

theorem Tracks.start : Tracks [] [] where
  descending := .nil
  top := rfl
  mem_iff c := by simp [IsOpen]

/-- One line: its column opens a block, goes back to one that is open, or is at fault. -/
theorem Tracks.indentation {earlier indents : List Nat} (h : Tracks earlier indents)
    (token : Token) :
    (∃ marks left, indentation indents token = .ok (marks, left) ∧
      ¬ BadDedent earlier token.span.column ∧ Tracks (earlier ++ [token.span.column]) left) ∨
    indentation indents token = .error ⟨.badDedent, token.span⟩ ∧
      BadDedent earlier token.span.column := by
  unfold Layout.indentation
  dsimp only
  have htop := h.top
  generalize token.span.column = column
  by_cases hdeeper : indents.headD 0 < column
  · refine .inl ⟨_, _, if_pos hdeeper, fun hbad => ?_, ?_⟩
    · have := hbad.1
      omega
    · have hlt : ∀ c ∈ indents, c < column := by
        intro c hc
        cases indents with
        | nil => cases hc
        | cons d indents =>
            rcases List.mem_cons.mp hc with rfl | hc
            · exact hdeeper
            · exact (List.rel_of_pairwise_cons h.descending hc).trans hdeeper
      refine ⟨List.pairwise_cons.mpr ⟨hlt, h.descending⟩, by simp, fun c => ?_⟩
      rw [isOpen_concat, ← h.mem_iff, List.mem_cons]
      constructor
      · rintro (rfl | rfl | hc)
        · exact .inr ⟨Nat.zero_le _, .inl rfl⟩
        · exact .inl rfl
        · exact .inr ⟨(hlt c hc).le, .inr hc⟩
      · rintro (rfl | ⟨-, rfl | hc⟩)
        · exact .inr (.inl rfl)
        · exact .inl rfl
        · exact .inr (.inr hc)
  · rw [if_neg hdeeper]
    by_cases hopen : column = (indents.dropWhile (column < ·)).headD 0
    · rw [if_pos hopen]
      have hin := (headD_dropWhile h.descending column).mp hopen
      refine .inl ⟨_, _, rfl, fun hbad => hbad.2 ((h.mem_iff column).mp hin), ?_⟩
      have hmem := mem_dropWhile_of_descending h.descending column
      refine ⟨h.descending.sublist (List.dropWhile_sublist _), ?_, fun c => ?_⟩
      · rw [← hopen]
        simp
      · rw [isOpen_concat, ← h.mem_iff, hmem]
        constructor
        · rintro (rfl | ⟨hc, hle⟩)
          · exact .inr ⟨Nat.zero_le _, .inl rfl⟩
          · exact .inr ⟨hle, .inr hc⟩
        · rintro (rfl | ⟨hle, rfl | hc⟩)
          · exact hin.imp_right fun hin => ⟨hin, le_rfl⟩
          · exact .inl rfl
          · exact .inr ⟨hc, hle⟩
    · rw [if_neg hopen]
      have hnot : ¬ IsOpen earlier column := by
        rwa [← h.mem_iff, ← headD_dropWhile h.descending]
      refine .inr ⟨rfl, ?_, hnot⟩
      have hne : column ≠ indents.headD 0 := by
        rintro rfl
        refine hnot ((h.mem_iff _).mp ?_)
        cases indents with
        | nil => exact .inl rfl
        | cons d indents => exact .inr List.mem_cons_self
      omega

/-- Somewhere a line that follows lines at the columns `earlier` is at fault. -/
def AnyBadDedent (earlier columns : List Nat) : Prop :=
  ∃ before column after, columns = before ++ column :: after ∧ BadDedent (earlier ++ before) column

theorem anyBadDedent_nil (earlier : List Nat) : ¬ AnyBadDedent earlier [] := by
  rintro ⟨before, column, after, h, -⟩
  simp at h

theorem anyBadDedent_cons (earlier : List Nat) (column : Nat) (columns : List Nat) :
    AnyBadDedent earlier (column :: columns) ↔
      BadDedent earlier column ∨ AnyBadDedent (earlier ++ [column]) columns := by
  constructor
  · rintro ⟨before, c, after, h, hbad⟩
    cases before with
    | nil =>
        cases h
        exact .inl (by simpa using hbad)
    | cons d before =>
        cases h
        exact .inr ⟨before, c, after, rfl, by simpa using hbad⟩
  · rintro (hbad | ⟨before, c, after, rfl, hbad⟩)
    · exact ⟨[], column, columns, rfl, by simpa using hbad⟩
    · exact ⟨column :: before, c, after, rfl, by simpa using hbad⟩

theorem depthOf_eq_zero_of_atLineBreak {before : List Token} (h : atLineBreak before) :
    depthOf before = 0 :=
  (noneOpen_iff before).mp (Bool.and_eq_true_iff.mp h).2

/-- Layout succeeds, or fails at a bad dedent, as `fault` says. -/
def Settles (result : Except ParseError (List Token)) (fault : Prop) : Prop :=
  (∃ out, result = .ok out) ∧ ¬ fault ∨ (∃ span, result = .error ⟨.badDedent, span⟩) ∧ fault

theorem Settles.map {result : Except ParseError (List Token)} {fault : Prop}
    (h : Settles result fault) (f : List Token → List Token) :
    Settles (do return f (← result)) fault := by
  rcases h with ⟨⟨out, rfl⟩, hfault⟩ | ⟨⟨span, rfl⟩, hfault⟩
  · exact .inl ⟨⟨f out, rfl⟩, hfault⟩
  · exact .inr ⟨⟨span, rfl⟩, hfault⟩

/-- Layout fails where a line is at fault, and nowhere else. -/
theorem tokensFrom_settles {eof : Span} {layout : Layout} {before raw : List Token}
    {earlier : List Nat} (hdepth : layout.depth = depthOf before)
    (hstart : layout.atLineStart = atLineBreak before) (h : Tracks earlier layout.indents) :
    Settles (tokensFrom eof layout raw)
      (AnyBadDedent earlier ((lineStarts before raw).map (·.span.column))) := by
  induction raw generalizing layout before earlier with
  | nil => exact .inl ⟨⟨_, rfl⟩, anyBadDedent_nil earlier⟩
  | cons token rest ih =>
      have hbreak := atLineBreak_concat before token
      have hafter := depthOf_concat before token
      by_cases hnewline : token.kind = .newline
      · have hlines : lineStarts before (token :: rest) = lineStarts (before ++ [token]) rest := by
          simp [lineStarts, hnewline]
        have hsame : layout.depth = depthOf (before ++ [token]) := by
          simp [hafter, hdepth, hnewline, depthAfter, TokenKind.opensBracket,
            TokenKind.closesBracket]
        rw [hlines, tokensFrom, if_pos hnewline]
        by_cases hends : layout.depth = 0 ∧ layout.atLineStart = false
        · rw [if_pos (by simp [hends])]
          have hopens : true = atLineBreak (before ++ [token]) := by
            simp [hbreak, hnewline, ← hdepth, hends.1]
          have hsettles : Settles (tokensFrom eof { layout with atLineStart := true } rest) _ :=
            ih hsame hopens h
          exact hsettles.map (token :: ·)
        · rw [if_neg (by simpa using hends)]
          refine ih hsame ?_ h
          rw [hbreak, ← hdepth]
          cases hline : layout.atLineStart with
          | true =>
              have hzero := depthOf_eq_zero_of_atLineBreak (hstart.symm.trans hline)
              simp [hnewline, hdepth, hzero]
          | false =>
              have hdeep : layout.depth ≠ 0 := fun hzero => hends ⟨hzero, hline⟩
              simp [hdeep]
      · have hinside : false = atLineBreak (before ++ [token]) := by simp [hbreak, hnewline]
        have hdepth' : depthAfter layout.depth token.kind = depthOf (before ++ [token]) := by
          rw [hafter, hdepth]
        have htail {left earlier' : List Nat} (htracks : Tracks earlier' left) :
            Settles (tokensFrom eof ⟨left, depthAfter layout.depth token.kind, false⟩ rest) _ :=
          ih hdepth' hinside htracks
        rw [tokensFrom, if_neg hnewline]
        cases hline : layout.atLineStart with
        | true =>
            have hlines : lineStarts before (token :: rest) =
                token :: lineStarts (before ++ [token]) rest := by
              simp [lineStarts, ← hstart, hline, hnewline]
            rw [hlines, if_pos rfl, List.map_cons, anyBadDedent_cons]
            rcases h.indentation token with ⟨marks, left, hok, hfine, htracks⟩ | ⟨herror, hbad⟩
            · rw [hok, or_iff_right hfine]
              exact (htail htracks).map (marks ++ token :: ·)
            · rw [herror]
              exact .inr ⟨⟨_, rfl⟩, .inl hbad⟩
        | false =>
            have hlines : lineStarts before (token :: rest) =
                lineStarts (before ++ [token]) rest := by
              simp [lineStarts, ← hstart, hline]
            rw [hlines, if_neg (by simp)]
            exact (htail h).map ([] ++ token :: ·)

end Layout

/-- Layout is balanced and loses nothing, and it fails at a line that leaves its block for none that
is open, and only there. -/
theorem lex_laidOut (source : String) :
    (∀ out, lex source = .ok out → LaidOut (scan source) out) ∧
    ((∃ e, lex source = .error e) ↔ ∃ earlier column later,
      Layout.lineColumns (scan source) = earlier ++ column :: later ∧
        Layout.BadDedent earlier column) ∧
    ∀ e, lex source = .error e → e.cause = .badDedent := by
  have hraw : ∀ t ∈ scan source, t.kind ≠ .indent ∧ t.kind ≠ .dedent :=
    Scan.tokensFrom_not_mark _ _ _
  have hsettles : Layout.Settles (lex source)
      (Layout.AnyBadDedent [] (Layout.lineColumns (scan source))) :=
    Layout.tokensFrom_settles rfl rfl .start
  refine ⟨fun out hout => ?_, ?_, fun e he => ?_⟩
  · have hfollows : Layout.start.Follows none := .inr ⟨rfl, rfl⟩
    exact Layout.laidOut_of_blocks (Layout.blocks_of_tokensFrom hraw hout hfollows)
      (Layout.content_of_tokensFrom hraw hout)
  · unfold Layout.AnyBadDedent at hsettles
    simp only [List.nil_append] at hsettles
    rcases hsettles with ⟨⟨out, hok⟩, hfine⟩ | ⟨⟨span, herror⟩, hbad⟩
    · refine ⟨?_, fun hbad => absurd hbad hfine⟩
      rintro ⟨e, he⟩
      cases hok.symm.trans he
    · exact ⟨fun _ => hbad, fun _ => ⟨_, herror⟩⟩
  · rcases hsettles with ⟨⟨out, hok⟩, -⟩ | ⟨⟨span, herror⟩, -⟩
    · cases hok.symm.trans he
    · cases herror.symm.trans he
      rfl

end P16
