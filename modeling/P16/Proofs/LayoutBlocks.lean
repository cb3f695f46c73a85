import Mathlib.Data.List.Infix
import P16.Proofs.Resolve
import P16.Proofs.Spellings
import P16.Token.Layout

/-!
# Blocks of a laid out text

`Blocks` says what tokens with explicit layout look like: which marks may follow which tokens, and
at which column a line of a block begins. Layout makes such tokens, loses none and invents only
marks. What holds of all laid out tokens is proved from `Blocks`.
-/

namespace P16

def TokenKind.isLayout : TokenKind → Bool
  | newline | indent | dedent => true
  | _ => false

theorem TokenKind.not_mark_of_not_layout {kind : TokenKind} (h : kind.isLayout = false) :
    kind ≠ .indent ∧ kind ≠ .dedent := by
  constructor <;> (rintro rfl; cases h)

section scanned

theorem Scan.quotedText_not_mark (quote : Char) (cs : List Char) :
    (quotedText quote cs).1 ≠ .indent ∧ (quotedText quote cs).1 ≠ .dedent := by
  have hkind (closed : Bool) : textKind closed ≠ .indent ∧ textKind closed ≠ .dedent := by
    cases closed <;> decide
  unfold quotedText
  split <;> exact hkind _

theorem TokenKind.ofWord_not_mark (word : String) :
    ofWord word ≠ .indent ∧ ofWord word ≠ .dedent := by
  have htable : ∀ entry ∈ keywords, entry.2 ≠ .indent ∧ entry.2 ≠ .dedent := by decide
  rcases ofWord_cases word with hword | ⟨entry, hentry, hword⟩
  · rw [hword]
    decide
  · rw [hword]
    exact htable entry hentry

theorem TokenKind.symbols_not_mark :
    ∀ entry ∈ symbols, entry.2 ≠ .indent ∧ entry.2 ≠ .dedent := by decide

theorem Scan.lexeme_not_mark {c : Char} {cs : List Char} {kind : TokenKind}
    (h : (lexeme c cs).1 = some kind) : kind ≠ .indent ∧ kind ≠ .dedent := by
  unfold lexeme at h
  split at h
  · cases h
  split at h
  · cases h
  split at h
  · cases h
  split at h
  · cases h
  split at h
  · exact Option.some.inj h ▸ quotedText_not_mark c cs
  split at h
  · cases h
    exact TokenKind.ofWord_not_mark _
  split at h
  · cases h
    decide
  split at h
  · rename_i hfound
    cases h
    exact TokenKind.symbols_not_mark _ (List.mem_of_find?_eq_some hfound)
  · cases h
    decide

theorem Scan.tokensFrom_not_mark (index : LineIndex) (offset : Nat) (cs : List Char) :
    ∀ t ∈ tokensFrom index offset cs, t.kind ≠ .indent ∧ t.kind ≠ .dedent := by
  induction offset, cs using tokensFrom.induct index with
  | case1 => simp [tokensFrom]
  | case2 offset c cs found text stop hkind ih =>
      rw [tokensFrom]
      simp only [show (lexeme c cs).1 = none from hkind]
      exact ih
  | case3 offset c cs found text stop kind hkind ih =>
      rw [tokensFrom]
      simp only [show (lexeme c cs).1 = some kind from hkind]
      exact List.forall_mem_cons.mpr ⟨lexeme_not_mark hkind, ih⟩

end scanned

section counts

def indentCount (tokens : List Token) : Nat := tokens.countP fun t => t.kind = .indent

def dedentCount (tokens : List Token) : Nat := tokens.countP fun t => t.kind = .dedent

/-- Every `dedent` closes an `indent` before it, and every `indent` is closed. -/
structure Balanced (tokens : List Token) : Prop where
  sane : ∀ front, front <+: tokens → dedentCount front ≤ indentCount front
  settled : dedentCount tokens = indentCount tokens

@[simp] theorem indentCount_nil : indentCount [] = 0 := rfl

@[simp] theorem dedentCount_nil : dedentCount [] = 0 := rfl

theorem indentCount_cons (t : Token) (rest : List Token) :
    indentCount (t :: rest) = indentCount rest + if t.kind = .indent then 1 else 0 := by
  simp [indentCount, List.countP_cons]

theorem dedentCount_cons (t : Token) (rest : List Token) :
    dedentCount (t :: rest) = dedentCount rest + if t.kind = .dedent then 1 else 0 := by
  simp [dedentCount, List.countP_cons]

end counts

namespace Layout

/-- The tokens with explicit layout that can come after a token of the kind `last`, or at the
beginning, inside blocks that begin at `columns`, the innermost first. -/
inductive Blocks : Option TokenKind → List Nat → List Token → Prop where
  | done {last : Option TokenKind}
      (hlast : last = none ∨ last = some .newline ∨ last = some .dedent) : Blocks last [] []
  | newline {kind : TokenKind} {columns : List Nat} {t : Token} {rest : List Token}
      (hkind : kind.isLayout = false) (ht : t.kind = .newline)
      (hrest : Blocks (some .newline) columns rest) : Blocks (some kind) columns (t :: rest)
  | indent {last : Option TokenKind} {columns : List Nat} {t : Token} {rest : List Token}
      (hlast : last = none ∨ last = some .newline) (ht : t.kind = .indent)
      (hrest : Blocks (some .indent) (t.span.column :: columns) rest) :
      Blocks last columns (t :: rest)
  | dedent {last : Option TokenKind} {column : Nat} {columns : List Nat} {t : Token}
      {rest : List Token} (hlast : last = some .newline ∨ last = some .dedent)
      (ht : t.kind = .dedent) (hrest : Blocks (some .dedent) columns rest) :
      Blocks last (column :: columns) (t :: rest)
  /-- A token of the text. After a mark it is the first of its line. -/
  | content {last : Option TokenKind} {columns : List Nat} {t : Token} {rest : List Token}
      (ht : t.kind.isLayout = false)
      (hfirst : (∀ kind ∈ last, kind.isLayout) → t.span.column = columns.headD 0)
      (hrest : Blocks (some t.kind) columns rest) : Blocks last columns (t :: rest)

/-- The kind of the token before, after more tokens. -/
def lastKind (last : Option TokenKind) (tokens : List Token) : Option TokenKind :=
  (tokens.getLast?.map Token.kind).or last

@[simp] theorem lastKind_nil (last : Option TokenKind) : lastKind last [] = last := rfl

theorem lastKind_cons (last : Option TokenKind) (t : Token) (rest : List Token) :
    lastKind last (t :: rest) = lastKind (some t.kind) rest := by
  unfold lastKind
  cases rest with
  | nil => rfl
  | cons u rest => simp [List.getLast?_cons]

theorem lastKind_append (last : Option TokenKind) (front rest : List Token) :
    lastKind last (front ++ rest) = lastKind (lastKind last front) rest := by
  induction front generalizing last with
  | nil => rfl
  | cons t front ih => rw [List.cons_append, lastKind_cons, lastKind_cons, ih]

namespace Blocks

variable {last : Option TokenKind} {columns : List Nat} {out : List Token}

theorem after_front {front rest : List Token} (h : Blocks last columns (front ++ rest)) :
    ∃ columns', Blocks (lastKind last front) columns' rest := by
  induction front generalizing last columns with
  | nil => exact ⟨columns, h⟩
  | cons t front ih =>
      rw [lastKind_cons]
      cases h with
      | newline _ ht hrest => exact ht ▸ ih hrest
      | indent _ ht hrest => exact ht ▸ ih hrest
      | dedent _ ht hrest => exact ht ▸ ih hrest
      | content _ _ hrest => exact ih hrest

theorem dedentCount_le (h : Blocks last columns out) :
    ∀ front, front <+: out → dedentCount front ≤ columns.length + indentCount front := by
  induction h with
  | done _ =>
      intro front hfront
      simp [List.prefix_nil.mp hfront]
  | newline _ ht _ ih | indent _ ht _ ih | dedent _ ht _ ih =>
      intro front hfront
      rcases List.prefix_cons_iff.mp hfront with rfl | ⟨rest', rfl, hrest'⟩
      · simp
      · have := ih rest' hrest'
        simp [dedentCount_cons, indentCount_cons, ht] at this ⊢
        omega
  | content ht _ _ ih =>
      intro front hfront
      rcases List.prefix_cons_iff.mp hfront with rfl | ⟨rest', rfl, hrest'⟩
      · simp
      · have hmark := TokenKind.not_mark_of_not_layout ht
        simpa [dedentCount_cons, indentCount_cons, hmark] using ih rest' hrest'

theorem dedentCount_eq (h : Blocks last columns out) :
    dedentCount out = columns.length + indentCount out := by
  induction h with
  | done _ => rfl
  | newline _ ht _ ih | indent _ ht _ ih | dedent _ ht _ ih =>
      simp [dedentCount_cons, indentCount_cons, ht] at ih ⊢
      omega
  | content ht _ _ ih =>
      have hmark := TokenKind.not_mark_of_not_layout ht
      simpa [dedentCount_cons, indentCount_cons, hmark] using ih

theorem balanced (h : Blocks none [] out) : Balanced out where
  sane front hfront := by simpa using h.dedentCount_le front hfront
  settled := by simpa using h.dedentCount_eq

/-- Past tokens that close what they open, and also the blocks `extra`, the blocks around them are
open as before. -/
theorem after_balanced (extra : List Nat) {middle rest : List Token}
    (h : Blocks last (extra ++ columns) (middle ++ rest))
    (hsane : ∀ front, front <+: middle →
      dedentCount front ≤ extra.length + indentCount front)
    (hsettled : dedentCount middle = extra.length + indentCount middle) :
    Blocks (lastKind last middle) columns rest := by
  induction middle generalizing last extra with
  | nil =>
      have hextra : extra = [] := List.length_eq_zero_iff.mp (by simpa using hsettled.symm)
      subst hextra
      exact h
  | cons t middle ih =>
      have hfront (front : List Token) (hf : front <+: middle) :
          dedentCount (t :: front) ≤ extra.length + indentCount (t :: front) :=
        hsane _ (List.cons_prefix_cons.mpr ⟨rfl, hf⟩)
      simp only [dedentCount_cons, indentCount_cons] at hfront hsettled
      rw [lastKind_cons]
      generalize hall : extra ++ columns = all at h
      cases h with
      | newline _ ht hrest =>
          subst hall
          simp only [ht] at hfront hsettled ⊢
          exact ih extra hrest (by simpa using hfront) (by simpa using hsettled)
      | indent _ ht hrest =>
          subst hall
          simp only [ht] at hfront hsettled ⊢
          refine ih (t.span.column :: extra) hrest ?_ ?_
          · intro front hf
            have := hfront front hf
            simp at this ⊢
            omega
          · simp at hsettled ⊢
            omega
      | dedent _ ht hrest =>
          simp only [ht] at hfront hsettled ⊢
          cases extra with
          | nil =>
              have := hfront [] (List.nil_prefix)
              simp at this
          | cons column' extra =>
              cases hall
              refine ih extra hrest ?_ ?_
              · intro front hf
                have := hfront front hf
                simp at this
                omega
              · simp at hsettled
                omega
      | content ht _ hrest =>
          subst hall
          have hmark := TokenKind.not_mark_of_not_layout ht
          simp only [hmark] at hfront hsettled
          exact ih extra hrest (by simpa using hfront) (by simpa using hsettled)

theorem ends (h : Blocks last columns out) :
    (∀ u ∈ out, u.kind = .dedent) ∨
      ∃ before t marks, out = before ++ t :: marks ∧ t.kind = .newline ∧
        ∀ u ∈ marks, u.kind = .dedent := by
  -- after a token other than a line break or a `dedent` more must come than `dedent`s
  have hgoesOn {kind : TokenKind} {columns : List Nat} {rest : List Token}
      (hrest : Blocks (some kind) columns rest) (hkind : kind ≠ .newline ∧ kind ≠ .dedent) :
      ¬ ∀ u ∈ rest, u.kind = .dedent := by
    intro hall
    cases hrest with
    | done hlast => simp_all
    | newline _ ht _ => simp [ht] at hall
    | indent _ ht _ => simp [ht] at hall
    | dedent hlast _ _ => simp_all
    | content ht _ _ => exact (TokenKind.not_mark_of_not_layout ht).2 (hall _ List.mem_cons_self)
  have hlonger {t : Token} {rest : List Token}
      (h : ∃ before u marks, rest = before ++ u :: marks ∧ u.kind = .newline ∧
        ∀ v ∈ marks, v.kind = .dedent) :
      ∃ before u marks, t :: rest = before ++ u :: marks ∧ u.kind = .newline ∧
        ∀ v ∈ marks, v.kind = .dedent := by
    obtain ⟨before, u, marks, rfl, hends⟩ := h
    exact ⟨t :: before, u, marks, rfl, hends⟩
  induction h with
  | done _ => exact .inl (by simp)
  | newline _ ht _ ih =>
      rcases ih with hall | hends
      · exact .inr ⟨[], _, _, rfl, ht, hall⟩
      · exact .inr (hlonger hends)
  | indent _ _ hrest ih => exact .inr (hlonger (ih.resolve_left (hgoesOn hrest (by decide))))
  | dedent _ ht _ ih =>
      rcases ih with hall | hends
      · exact .inl (List.forall_mem_cons.mpr ⟨ht, hall⟩)
      · exact .inr (hlonger hends)
  | content ht _ hrest ih =>
      refine .inr (hlonger (ih.resolve_left (hgoesOn hrest ⟨?_, ?_⟩)))
      · rintro hk
        simp [hk, TokenKind.isLayout] at ht
      · exact (TokenKind.not_mark_of_not_layout ht).2

theorem dedents (closed : List Nat) {columns : List Nat} {rest : List Token} (span : Span)
    (hrest : ∀ last, last = some .newline ∨ last = some .dedent → Blocks last columns rest)
    {last : Option TokenKind} (hlast : last = some .newline ∨ last = some .dedent) :
    Blocks last (closed ++ columns) (closed.map (fun _ => mark .dedent span) ++ rest) := by
  induction closed generalizing last with
  | nil => exact hrest last hlast
  | cons column closed ih => exact .dedent hlast rfl (ih (.inr rfl))

end Blocks

section run

/-- What the state of layout knows about the token before. -/
def Follows (layout : Layout) (last : Option TokenKind) : Prop :=
  if layout.atLineStart then last = some .newline ∨ last = none ∧ layout.indents = []
  else ∃ kind, last = some kind ∧ kind.isLayout = false

/-- The first token of a line with the marks before it. -/
theorem blocks_of_indentation {indents left : List Nat} {token : Token} {marks rest : List Token}
    {last : Option TokenKind} (h : indentation indents token = .ok (marks, left))
    (hlast : last = some .newline ∨ last = none ∧ indents = [])
    (ht : token.kind.isLayout = false) (hrest : Blocks (some token.kind) left rest) :
    Blocks last indents (marks ++ token :: rest) := by
  have hstart : last = none ∨ last = some .newline := by
    rcases hlast with hlast | ⟨hlast, -⟩
    · exact .inr hlast
    · exact .inl hlast
  unfold indentation at h
  dsimp only at h
  split at h
  · cases h
    exact .indent hstart rfl (.content ht (fun _ => rfl) hrest)
  split at h
  · rename_i hcolumn
    cases h
    have hfirst (last : Option TokenKind) : Blocks last _ (token :: rest) :=
      .content ht (fun _ => hcolumn) hrest
    rcases hlast with hlast | ⟨rfl, rfl⟩
    · have hblocks := Blocks.dedents (indents.takeWhile (token.span.column < ·)) token.span
        (fun last _ => hfirst last) (.inl hlast)
      rwa [List.takeWhile_append_dropWhile] at hblocks
    · exact hfirst none
  · cases h

theorem blocks_of_tokensFrom {eof : Span} {layout : Layout} {raw out : List Token}
    {last : Option TokenKind} (hraw : ∀ t ∈ raw, t.kind ≠ .indent ∧ t.kind ≠ .dedent)
    (h : tokensFrom eof layout raw = .ok out) (hlast : layout.Follows last) :
    Blocks last layout.indents out := by
  induction raw generalizing layout out last with
  | nil =>
      cases h
      have hclosed (last : Option TokenKind) (hlast : last = some .newline ∨ last = some .dedent) :
          Blocks last layout.indents (layout.indents.map fun _ => mark .dedent eof) := by
        have := Blocks.dedents layout.indents eof (fun last hlast => .done (.inr hlast)) hlast
        simpa using this
      unfold closing
      unfold Follows at hlast
      split at hlast
      · rename_i hstart
        rw [if_pos hstart, List.nil_append]
        rcases hlast with rfl | ⟨rfl, hindents⟩
        · exact hclosed _ (.inl rfl)
        · rw [hindents]
          exact .done (.inl rfl)
      · rename_i hstart
        obtain ⟨kind, rfl, hkind⟩ := hlast
        rw [if_neg hstart]
        exact .newline hkind rfl (hclosed _ (.inl rfl))
  | cons token rest ih =>
      obtain ⟨htoken, hrest⟩ := List.forall_mem_cons.mp hraw
      rw [tokensFrom] at h
      split at h
      · rename_i hnewline
        split at h
        · rename_i hends
          obtain ⟨tail, htail, h⟩ := exists_of_bind_eq_ok h
          cases h
          rw [Bool.and_eq_true, Bool.not_eq_true', decide_eq_true_eq] at hends
          rw [Follows, if_neg (by simp [hends.2])] at hlast
          obtain ⟨kind, rfl, hkind⟩ := hlast
          have hfollows : Follows { layout with atLineStart := true } (some .newline) := .inl rfl
          have hblocks := ih hrest htail hfollows
          exact .newline hkind hnewline hblocks
        · exact ih hrest h hlast
      · rename_i hnewline
        have hcontent : token.kind.isLayout = false := by
          revert hnewline htoken
          cases token.kind <;> simp [TokenKind.isLayout]
        have htail {layout' : Layout} {tail : List Token} (hstart : layout'.atLineStart = false)
            (htail : tokensFrom eof layout' rest = .ok tail) :
            Blocks (some token.kind) layout'.indents tail :=
          ih hrest htail (by simp [Follows, hstart, hcontent])
        dsimp only at h
        unfold Follows at hlast
        split at h
        · rename_i hstart
          obtain ⟨⟨marks, indents⟩, hmarks, h⟩ := exists_of_bind_eq_ok h
          obtain ⟨tail, hread, h⟩ := exists_of_bind_eq_ok h
          cases h
          rw [if_pos hstart] at hlast
          exact blocks_of_indentation hmarks hlast hcontent (htail rfl hread)
        · rename_i hstart
          obtain ⟨_, ⟨⟩, h⟩ := exists_of_bind_eq_ok h
          obtain ⟨tail, hread, h⟩ := exists_of_bind_eq_ok h
          cases h
          rw [if_neg hstart] at hlast
          obtain ⟨kind, rfl, hkind⟩ := hlast
          have hblocks := htail rfl hread
          exact .content hcontent (by simp [hkind]) hblocks

theorem indentation_marks {indents left : List Nat} {token : Token} {marks : List Token}
    (h : indentation indents token = .ok (marks, left)) : ∀ t ∈ marks, t.kind.isLayout := by
  unfold indentation at h
  dsimp only at h
  split at h
  · cases h
    simp [mark, TokenKind.isLayout]
  split at h
  · cases h
    intro t ht
    obtain ⟨_, -, rfl⟩ := List.mem_map.mp ht
    rfl
  · cases h

theorem content_of_tokensFrom {eof : Span} {layout : Layout} {raw out : List Token}
    (hraw : ∀ t ∈ raw, t.kind ≠ .indent ∧ t.kind ≠ .dedent)
    (h : tokensFrom eof layout raw = .ok out) :
    out.filter (fun t => !t.kind.isLayout) = raw.filter fun t => t.kind ≠ .newline := by
  induction raw generalizing layout out with
  | nil =>
      cases h
      unfold closing
      split <;> simp [mark, TokenKind.isLayout]
  | cons token rest ih =>
      obtain ⟨htoken, hrest⟩ := List.forall_mem_cons.mp hraw
      rw [tokensFrom] at h
      split at h
      · rename_i hnewline
        rw [List.filter_cons_of_neg (by simp [hnewline])]
        split at h
        · obtain ⟨tail, htail, h⟩ := exists_of_bind_eq_ok h
          cases h
          rw [List.filter_cons_of_neg (by simp [hnewline, TokenKind.isLayout])]
          exact ih hrest htail
        · exact ih hrest h
      · rename_i hnewline
        have hcontent : token.kind.isLayout = false := by
          revert hnewline htoken
          cases token.kind <;> simp [TokenKind.isLayout]
        have hmarked (marks : List Token) (hmarks : ∀ t ∈ marks, t.kind.isLayout) (layout' : Layout)
            (h : (do return marks ++ token :: (← tokensFrom eof layout' rest)) = .ok out) :
            out.filter (fun t => !t.kind.isLayout) =
              (token :: rest).filter fun t => t.kind ≠ .newline := by
          obtain ⟨tail, htail, h⟩ := exists_of_bind_eq_ok h
          cases h
          have hnone : marks.filter (fun t => !t.kind.isLayout) = [] := by
            rw [List.filter_eq_nil_iff]
            simpa using hmarks
          rw [List.filter_append, hnone, List.nil_append,
            List.filter_cons_of_pos (by simp [hcontent]),
            List.filter_cons_of_pos (by simpa using hnewline), ih hrest htail]
        dsimp only at h
        split at h
        · obtain ⟨⟨marks, indents⟩, hmarks, h⟩ := exists_of_bind_eq_ok h
          exact hmarked marks (indentation_marks hmarks) _ h
        · exact hmarked [] (by simp) _ h

end run

end Layout

section laidOut

/-- Among tokens with explicit layout, `t` is the first of its line when `before` comes before. -/
def FirstOfLine (before : List Token) (t : Token) : Prop :=
  t.kind.isLayout = false ∧ ∀ u ∈ before.getLast?, u.kind.isLayout

/-- The tokens `out` are the tokens `raw` with their layout made explicit. -/
structure LaidOut (raw out : List Token) : Prop where
  balanced : Balanced out
  content : out.filter (fun t => !t.kind.isLayout) = raw.filter fun t => t.kind ≠ .newline
  newline_follows : ∀ before t after, out = before ++ t :: after → t.kind = .newline →
    ∃ u ∈ before.getLast?, u.kind.isLayout = false
  indent_follows : ∀ before t after, out = before ++ t :: after → t.kind = .indent →
    ∀ u ∈ before.getLast?, u.kind = .newline
  dedent_follows : ∀ before t after, out = before ++ t :: after → t.kind = .dedent →
    ∃ u ∈ before.getLast?, u.kind = .newline ∨ u.kind = .dedent
  ends : out ≠ [] → ∃ before t marks, out = before ++ t :: marks ∧ t.kind = .newline ∧
    ∀ u ∈ marks, u.kind = .dedent
  /-- Two lines of one block begin at the same column. -/
  aligned : ∀ before t between u after, out = before ++ t :: (between ++ u :: after) →
    FirstOfLine before t → FirstOfLine (before ++ t :: between) u → Balanced between →
    t.span.column = u.span.column

namespace Layout

theorem lastKind_none (before : List Token) :
    lastKind none before = before.getLast?.map Token.kind := by
  simp [lastKind]

/-- The rule by which a token that is no mark has its place. -/
theorem Blocks.content_inv {last : Option TokenKind} {columns : List Nat} {t : Token}
    {rest : List Token} (h : Blocks last columns (t :: rest)) (ht : t.kind.isLayout = false) :
    ((∀ kind ∈ last, kind.isLayout) → t.span.column = columns.headD 0) ∧
      Blocks (some t.kind) columns rest := by
  cases h with
  | newline _ hk _ | indent _ hk _ | dedent _ hk _ => simp [hk, TokenKind.isLayout] at ht
  | content _ hfirst hrest => exact ⟨hfirst, hrest⟩

theorem laidOut_of_blocks {raw out : List Token} (h : Blocks none [] out)
    (hcontent : out.filter (fun t => !t.kind.isLayout) = raw.filter fun t => t.kind ≠ .newline) :
    LaidOut raw out where
  balanced := h.balanced
  content := hcontent
  newline_follows before t after hout ht := by
    subst hout
    obtain ⟨columns, hrest⟩ := h.after_front
    rw [lastKind_none] at hrest
    cases hlast : before.getLast? with
    | none =>
        rw [hlast] at hrest
        cases hrest with
        | indent _ hk _ | dedent _ hk _ => simp [ht] at hk
        | content hk _ _ => simp [ht, TokenKind.isLayout] at hk
    | some u =>
        rw [hlast] at hrest
        cases hrest with
        | newline hu _ _ => exact ⟨u, rfl, hu⟩
        | indent _ hk _ | dedent _ hk _ => simp [ht] at hk
        | content hk _ _ => simp [ht, TokenKind.isLayout] at hk
  indent_follows before t after hout ht := by
    subst hout
    obtain ⟨columns, hrest⟩ := h.after_front
    rw [lastKind_none] at hrest
    intro u hu
    rw [Option.mem_def.mp hu] at hrest
    cases hrest with
    | indent hlast _ _ => simpa using hlast
    | newline _ hk _ | dedent _ hk _ => simp [ht] at hk
    | content hk _ _ => simp [ht, TokenKind.isLayout] at hk
  dedent_follows before t after hout ht := by
    subst hout
    obtain ⟨columns, hrest⟩ := h.after_front
    rw [lastKind_none] at hrest
    generalize hkind : before.getLast?.map Token.kind = last at hrest
    cases hrest with
    | dedent hlast _ _ =>
        rcases hlast with rfl | rfl
        · obtain ⟨u, hu, hk⟩ := Option.map_eq_some_iff.mp hkind
          exact ⟨u, hu, .inl hk⟩
        · obtain ⟨u, hu, hk⟩ := Option.map_eq_some_iff.mp hkind
          exact ⟨u, hu, .inr hk⟩
    | newline _ hk _ | indent _ hk _ => simp [ht] at hk
    | content hk _ _ => simp [ht, TokenKind.isLayout] at hk
  ends hne := by
    refine h.ends.resolve_left fun hall => ?_
    cases h with
    | done _ => exact hne rfl
    | indent _ ht _ => simp [ht] at hall
    | content ht _ _ => exact (TokenKind.not_mark_of_not_layout ht).2 (hall _ List.mem_cons_self)
  aligned before t between u after hout ht hu hbetween := by
    subst hout
    obtain ⟨columns, hrest⟩ := h.after_front
    rw [lastKind_none] at hrest
    obtain ⟨hcolumn, hrest⟩ := hrest.content_inv ht.1
    have hblock := Blocks.after_balanced [] hrest (by simpa using hbetween.sane)
      (by simpa using hbetween.settled)
    have hlast : lastKind (some t.kind) between =
        (before ++ t :: between).getLast?.map Token.kind := by
      rw [← lastKind_none, lastKind_append, lastKind_cons]
    rw [hlast] at hblock
    rw [hcolumn (by simpa using ht.2), (hblock.content_inv hu.1).1 (by simpa using hu.2)]

end Layout

end laidOut

end P16
