import Mathlib.Data.List.TakeDrop
import P16.Files.Library
import P16.Proofs.Resolve

/-!
# Names in parsed modules

A name is a token that begins with a letter or an underscore and goes on with letters, digits and
underscores. Layout adds tokens that are no names, and a parser takes names from the tokens only, so
the functions that a parsed module defines and the modules it imports have names of this form.
-/

namespace P16

/-- The text is one word: letters, digits and underscores, and no digit first. -/
def IsWord (text : String) : Prop :=
  ∃ c cs, text.toList = c :: cs ∧ Scan.isWordStart c ∧ ∀ d ∈ cs, Scan.isWordRest d

instance (text : String) : Decidable (IsWord text) :=
  match h : text.toList with
  | [] => .isFalse (by rintro ⟨c, cs, htext, -⟩; rw [h] at htext; cases htext)
  | c :: cs =>
    decidable_of_iff ((Scan.isWordStart c && cs.all Scan.isWordRest) = true) (by
      rw [Bool.and_eq_true, List.all_eq_true]
      constructor
      · exact fun hword => ⟨c, cs, h, hword⟩
      · rintro ⟨c', cs', htext, hword⟩
        rw [h] at htext
        cases htext
        exact hword)

def Token.Named (t : Token) : Prop := t.kind = .ident → IsWord t.text

/-- One word or more. -/
def DottedName.Named (name : DottedName) : Prop :=
  name.segments ≠ [] ∧ ∀ part ∈ name.segments, IsWord part.text

theorem DottedName.Named.text_ne_empty {name : DottedName} (h : name.Named) : name.text ≠ "" := by
  obtain ⟨hne, hwords⟩ := h
  unfold text
  cases hs : name.segments with
  | nil => exact absurd hs hne
  | cons first rest =>
      have hfirst : first.text ≠ "" := by
        obtain ⟨c, cs, htext, -⟩ := hwords first (hs ▸ List.mem_cons_self)
        rintro hempty
        simp [hempty] at htext
      cases rest with
      | nil => simpa using hfirst
      | cons next rest =>
          rw [List.map_cons, List.map_cons, String.intercalate_cons_cons]
          simp [hfirst]

namespace Stmt

mutual

/-- The functions defined and the modules imported in a statement, at any depth, are named by
words. -/
def Named : Stmt → Prop
  | importNames names _ => ∀ name ∈ names, name.path.Named
  | define name _ _ body _ => IsWord name.text ∧ AllNamed body
  | whileLoop _ body _ => AllNamed body
  | _ => True

def AllNamed : List Stmt → Prop
  | [] => True
  | s :: rest => s.Named ∧ AllNamed rest

end

theorem allNamed_iff {stmts : List Stmt} : AllNamed stmts ↔ ∀ s ∈ stmts, s.Named := by
  induction stmts with
  | nil => simp [AllNamed]
  | cons s rest ih => simp [AllNamed, ih]

theorem allNamed_append {first rest : List Stmt} :
    AllNamed (first ++ rest) ↔ AllNamed first ∧ AllNamed rest := by
  simp only [allNamed_iff, List.mem_append, or_imp, forall_and]

end Stmt

section tokens

theorem Scan.quotedText_ne_ident (quote : Char) (cs : List Char) :
    (quotedText quote cs).1 ≠ .ident := by
  have hkind (closed : Bool) : textKind closed ≠ .ident := by cases closed <;> decide
  unfold quotedText
  split <;> exact hkind _

theorem TokenKind.symbols_ne_ident : ∀ entry ∈ symbols, entry.2 ≠ .ident := by decide

/-- Only a lexeme that begins like a word is a name, and it ends where the word ends. -/
theorem Scan.lexeme_ident {c : Char} {cs : List Char} {n : Nat}
    (h : lexeme c cs = (some .ident, n)) :
    isWordStart c ∧ n = (cs.takeWhile isWordRest).length := by
  unfold lexeme at h
  split at h
  · cases h
  split at h
  · cases h
  split at h
  · cases h
  split at h
  · cases h
  split at h
  · exact absurd (Option.some.inj (congrArg Prod.fst h)) (quotedText_ne_ident c cs)
  split at h
  · rename_i hword
    exact ⟨hword, (congrArg Prod.snd h).symm⟩
  split at h
  · cases h
  split at h
  · rename_i hfound
    cases h
    exact absurd rfl (TokenKind.symbols_ne_ident _ (List.mem_of_find?_eq_some hfound))
  · cases h

theorem Scan.tokensFrom_named (index : LineIndex) (offset : Nat) (cs : List Char) :
    ∀ t ∈ tokensFrom index offset cs, t.Named := by
  induction offset, cs using tokensFrom.induct index with
  | case1 => simp [tokensFrom]
  | case2 offset c cs found text stop hkind ih =>
      rw [tokensFrom]
      simp only [show (lexeme c cs).1 = none from hkind]
      exact ih
  | case3 offset c cs found text stop kind hkind ih =>
      intro t ht
      rw [tokensFrom] at ht
      simp only [show (lexeme c cs).1 = some kind from hkind] at ht
      rcases List.mem_cons.mp ht with rfl | ht
      · rintro rfl
        have hlexeme : lexeme c cs = (some .ident, (lexeme c cs).2) := Prod.ext hkind rfl
        obtain ⟨hstart, hlength⟩ := lexeme_ident hlexeme
        have hprefix : cs.takeWhile isWordRest <+: cs := List.takeWhile_prefix _
        have htake : cs.take (lexeme c cs).2 = cs.takeWhile isWordRest :=
          hlength ▸ (List.prefix_iff_eq_take.mp hprefix).symm
        refine ⟨c, cs.takeWhile isWordRest, ?_, hstart, ?_⟩
        · rw [← htake, String.toList_ofList]
        · exact List.all_eq_true.mp List.all_takeWhile
      · exact ih t ht

theorem Layout.mark_named {kind : TokenKind} (h : kind ≠ .ident) (span : Span) :
    (mark kind span).Named := fun hk => absurd hk h

theorem Layout.closing_named (layout : Layout) (eof : Span) :
    ∀ t ∈ layout.closing eof, t.Named := by
  intro t ht
  unfold closing at ht
  rcases List.mem_append.mp ht with ht | ht
  · split at ht
    · cases ht
    · cases List.mem_singleton.mp ht
      exact mark_named (by decide) eof
  · obtain ⟨_, -, rfl⟩ := List.mem_map.mp ht
    exact mark_named (by decide) eof

theorem Layout.indentation_named {indents left : List Nat} {token : Token} {marks : List Token}
    (h : indentation indents token = .ok (marks, left)) : ∀ t ∈ marks, t.Named := by
  unfold indentation at h
  dsimp only at h
  split at h
  · cases h
    intro t ht
    cases List.mem_singleton.mp ht
    exact mark_named (by decide) _
  split at h
  · cases h
    intro t ht
    obtain ⟨_, -, rfl⟩ := List.mem_map.mp ht
    exact mark_named (by decide) _
  · cases h

theorem Layout.tokensFrom_named {eof : Span} {layout : Layout} {tokens laidOut : List Token}
    (hn : ∀ t ∈ tokens, t.Named) (h : tokensFrom eof layout tokens = .ok laidOut) :
    ∀ t ∈ laidOut, t.Named := by
  induction tokens generalizing layout laidOut with
  | nil =>
      cases h
      exact closing_named layout eof
  | cons token rest ih =>
      have hrest : ∀ t ∈ rest, t.Named := fun t ht => hn t (List.mem_cons_of_mem _ ht)
      rw [tokensFrom] at h
      split at h
      · split at h
        · obtain ⟨tail, htail, h⟩ := exists_of_bind_eq_ok h
          cases h
          exact List.forall_mem_cons.mpr ⟨hn token List.mem_cons_self, ih hrest htail⟩
        · exact ih hrest h
      · have hmarked (marks : List Token) (hmarks : ∀ t ∈ marks, t.Named) (layout' : Layout)
            (h : (do return marks ++ token :: (← tokensFrom eof layout' rest)) = .ok laidOut) :
            ∀ t ∈ laidOut, t.Named := by
          obtain ⟨tail, htail, h⟩ := exists_of_bind_eq_ok h
          cases h
          rw [List.forall_mem_append, List.forall_mem_cons]
          exact ⟨hmarks, hn token List.mem_cons_self, ih hrest htail⟩
        dsimp only at h
        split at h
        · obtain ⟨⟨marks, indents⟩, hmarks, h⟩ := exists_of_bind_eq_ok h
          exact hmarked marks (indentation_named hmarks) _ h
        · exact hmarked [] (by simp) _ h

theorem lex_named {source : String} {tokens : List Token} (h : lex source = .ok tokens) :
    ∀ t ∈ tokens, t.Named :=
  Layout.tokensFrom_named (Scan.tokensFrom_named _ _ _) h

end tokens

namespace Parser

variable {α β : Type}

/-- From tokens whose names are words the parser reads only such a result, and such tokens
remain. -/
def Reads (p : Parser α) (post : α → Prop) : Prop :=
  ∀ eof tokens a rest, (∀ t ∈ tokens, t.Named) → p eof tokens = .ok (a, rest) →
    post a ∧ ∀ t ∈ rest, t.Named

/-- The parser reads tokens from the front. -/
abbrev Keeps (p : Parser α) : Prop := p.Reads fun _ => True

section rules

variable {post : α → Prop}

theorem Reads.pure {a : α} (h : post a) : (pure a : Parser α).Reads post := by
  rintro eof tokens _ _ hn ⟨⟩
  exact ⟨h, hn⟩

theorem Reads.bind {mid : α → Prop} {post : β → Prop} {p : Parser α} {f : α → Parser β}
    (hp : p.Reads mid) (hf : ∀ a, mid a → (f a).Reads post) : (p >>= f).Reads post := by
  intro eof tokens b rest hn h
  obtain ⟨⟨a, between⟩, ha, hb⟩ := exists_of_bind_eq_ok h
  obtain ⟨hmid, hbetween⟩ := hp eof tokens a between hn ha
  exact hf a hmid eof between b rest hbetween hb

theorem Keeps.bind {post : β → Prop} {p : Parser α} {f : α → Parser β} (hp : p.Keeps)
    (hf : ∀ a, (f a).Reads post) : (p >>= f).Reads post :=
  Reads.bind hp fun a _ => hf a

theorem Reads.get : (get : Parser (List Token)).Reads fun tokens => ∀ t ∈ tokens, t.Named := by
  rintro eof tokens _ _ hn ⟨⟩
  exact ⟨hn, hn⟩

theorem Reads.set {tokens : List Token} (h : ∀ t ∈ tokens, t.Named) :
    (set tokens : Parser PUnit).Keeps := by
  rintro eof _ _ _ _ ⟨⟩
  exact ⟨trivial, h⟩

theorem Reads.read : (read : Parser Span).Keeps := by
  rintro eof tokens _ _ hn ⟨⟩
  exact ⟨trivial, hn⟩

theorem Reads.failAt (span : Span) (cause : ParseError.Cause) :
    (failAt span cause : Parser α).Reads post := by
  rintro eof tokens _ _ hn ⟨⟩

end rules

section basic

variable {post : α → Prop}

theorem reads_peekKind : peekKind.Keeps := by
  unfold peekKind
  exact Reads.get.bind fun _ _ => .pure trivial

theorem reads_here : here.Keeps := by
  unfold here
  refine Reads.get.bind fun tokens _ => ?_
  split
  · exact .pure trivial
  · exact .read

theorem reads_failHere (cause : ParseError.Cause) : (failHere cause : Parser α).Reads post := by
  unfold failHere
  exact reads_here.bind fun span => .failAt span cause

theorem reads_tooDeep : (tooDeep : Parser α).Reads post := reads_failHere _

theorem reads_next? : next?.Keeps := by
  unfold next?
  refine Reads.get.bind fun tokens hn => ?_
  split
  · exact (Reads.set (List.forall_mem_cons.mp hn).2).bind fun _ => .pure trivial
  · exact .pure trivial

theorem reads_accept? (kind : TokenKind) :
    (accept? kind).Reads fun found =>
      ∀ token, found = some token → token.kind = kind ∧ token.Named := by
  unfold accept?
  refine Reads.get.bind fun tokens hn => ?_
  split
  · rename_i token rest
    obtain ⟨htoken, hrest⟩ := List.forall_mem_cons.mp hn
    split
    · rename_i hkind
      refine (Reads.set hrest).bind fun _ => .pure ?_
      rintro _ ⟨⟩
      exact ⟨hkind, htoken⟩
    · exact .pure nofun
  · exact .pure nofun

theorem reads_accept (kind : TokenKind) : (accept kind).Keeps := by
  unfold accept
  exact (reads_accept? kind).bind fun _ _ => .pure trivial

theorem reads_expect (kind : TokenKind) : (expect kind).Keeps := by
  unfold expect
  refine (reads_accept? kind).bind fun found _ => ?_
  split
  · exact .pure trivial
  · refine reads_peekKind.bind fun ahead => ?_
    split
    · exact reads_failHere _
    · exact reads_failHere _

theorem reads_ident : ident.Reads fun name => IsWord name.text := by
  unfold ident
  refine (reads_accept? .ident).bind fun found hfound => ?_
  split
  · rename_i token
    obtain ⟨hkind, hnamed⟩ := hfound token rfl
    exact .pure (hnamed hkind)
  · refine reads_peekKind.bind fun ahead => ?_
    split
    · exact reads_failHere _
    · exact reads_failHere _

theorem reads_skip : skip.Keeps := by
  unfold skip
  refine reads_next?.bind fun found => ?_
  split
  · exact .pure trivial
  · exact .read

theorem reads_listUntil {item : Parser α} (h : item.Reads post) (close : TokenKind) (bound : Nat) :
    (listUntil close item bound).Reads fun items => ∀ a ∈ items, post a := by
  induction bound with
  | zero => exact reads_tooDeep
  | succ bound ih =>
      rw [listUntil]
      refine reads_peekKind.bind fun ahead => ?_
      split
      · exact .pure nofun
      refine h.bind fun first hfirst => (reads_accept _).bind fun more => ?_
      split
      · refine ih.bind fun rest hrest => .pure ?_
        exact List.forall_mem_cons.mpr ⟨hfirst, hrest⟩
      · exact .pure (List.forall_mem_singleton.mpr hfirst)

theorem reads_listOf {item : Parser α} (h : item.Reads post) (bound : Nat) :
    (listOf item bound).Reads fun items => ∀ a ∈ items, post a := by
  induction bound with
  | zero => exact reads_tooDeep
  | succ bound ih =>
      rw [listOf]
      refine h.bind fun first hfirst => (reads_accept _).bind fun more => ?_
      split
      · refine ih.bind fun rest hrest => .pure ?_
        exact List.forall_mem_cons.mpr ⟨hfirst, hrest⟩
      · exact .pure (List.forall_mem_singleton.mpr hfirst)

theorem reads_dottedNameTail {name : DottedName} (h : name.Named) (bound : Nat) :
    (dottedNameTail bound name).Reads DottedName.Named := by
  induction bound generalizing name with
  | zero => exact reads_tooDeep
  | succ bound ih =>
      rw [dottedNameTail]
      refine (reads_accept _).bind fun more => ?_
      split
      · refine reads_ident.bind fun part hpart => ih ⟨by simp [DottedName.snoc], ?_⟩
        exact List.forall_mem_append.mpr ⟨h.2, List.forall_mem_singleton.mpr hpart⟩
      · exact .pure h

theorem reads_dottedName (bound : Nat) : (dottedName bound).Reads DottedName.Named := by
  unfold dottedName
  refine reads_ident.bind fun first hfirst => reads_dottedNameTail ⟨List.cons_ne_nil _ _, ?_⟩ bound
  rintro part (⟨⟩ | ⟨_, ⟨⟩⟩)
  exact hfirst

end basic

section expressions

variable {inner : Parser Expr} (h : inner.Keeps)

theorem keeps_atExprListEnd : atExprListEnd.Keeps := by
  unfold atExprListEnd
  refine reads_peekKind.bind fun ahead => ?_
  split <;> exact .pure trivial

theorem keeps_textTail (bound : Nat) (value : String) (span : Span) :
    (textTail bound value span).Keeps := by
  induction bound generalizing value span with
  | zero => exact reads_tooDeep
  | succ bound ih =>
      rw [textTail]
      refine (reads_accept? _).bind fun found _ => ?_
      split
      · exact .pure trivial
      · split
        · exact ih _ _
        · exact .failAt _ _

theorem keeps_atKeyword : atKeyword.Keeps := by
  unfold atKeyword
  refine Reads.get.bind fun tokens _ => ?_
  split <;> exact .pure trivial

theorem keeps_compareOp? : compareOp?.Keeps := by
  unfold compareOp?
  have htaken (op : CompareOp) : (do let _ ← skip; return some op : Parser _).Keeps :=
    reads_skip.bind fun _ => .pure trivial
  refine reads_peekKind.bind fun ahead => ?_
  split
  any_goals exact htaken _
  · exact reads_skip.bind fun _ => (reads_expect _).bind fun _ => .pure trivial
  · refine reads_skip.bind fun _ => (reads_accept _).bind fun negated => ?_
    split <;> exact .pure trivial
  · exact .pure trivial

include h

theorem keeps_exprListTail (bound : Nat) : (exprListTail inner bound).Keeps := by
  induction bound with
  | zero => exact reads_tooDeep
  | succ bound ih =>
      rw [exprListTail]
      refine (reads_accept _).bind fun more => ?_
      split
      · refine keeps_atExprListEnd.bind fun ended => ?_
        split
        · exact .pure trivial
        · exact h.bind fun _ => ih.bind fun _ => .pure trivial
      · exact .pure trivial

theorem keeps_exprList (bound : Nat) : (exprList inner bound).Keeps := by
  unfold exprList
  refine h.bind fun first => reads_peekKind.bind fun ahead => ?_
  split
  · exact (keeps_exprListTail h bound).bind fun _ => .pure trivial
  · exact .pure trivial

theorem keeps_parenthesized (bound : Nat) (start : Span) :
    (parenthesized inner bound start).Keeps := by
  unfold parenthesized
  refine (reads_accept? _).bind fun found _ => ?_
  split
  · exact .pure trivial
  · refine (keeps_exprList h bound).bind fun e => (reads_expect _).bind fun close => ?_
    split <;> exact .pure trivial

theorem keeps_dictEntry : (dictEntry inner).Keeps := by
  unfold dictEntry
  exact h.bind fun _ => (reads_expect _).bind fun _ => h.bind fun _ => .pure trivial

theorem keeps_primary (bound : Nat) : (primary inner bound).Keeps := by
  unfold primary
  refine reads_next?.bind fun found => ?_
  split
  · exact reads_failHere _
  · rename_i token
    split
    · exact .pure trivial
    · split
      · exact .pure trivial
      · exact .failAt _ _
    · split
      · exact keeps_textTail _ _ _
      · exact .failAt _ _
    · exact keeps_parenthesized h bound _
    · exact (reads_listUntil h _ _).bind fun _ _ => (reads_expect _).bind fun _ => .pure trivial
    · exact (reads_listUntil (keeps_dictEntry h) _ _).bind fun _ _ =>
        (reads_expect _).bind fun _ => .pure trivial
    · exact .failAt _ _

theorem keeps_argument (latest : Option (Keyword Expr)) : (argument inner latest).Keeps := by
  unfold argument
  refine keeps_atKeyword.bind fun named => ?_
  split
  · exact reads_ident.bind fun _ _ => (reads_expect _).bind fun _ => h.bind fun _ => .pure trivial
  · split
    · exact .failAt _ _
    · exact h.bind fun _ => .pure trivial

theorem keeps_arguments (bound : Nat) (latest : Option (Keyword Expr)) :
    (arguments inner bound latest).Keeps := by
  induction bound generalizing latest with
  | zero => exact reads_tooDeep
  | succ bound ih =>
      rw [arguments]
      refine reads_peekKind.bind fun ahead => ?_
      split
      · exact .pure trivial
      refine (keeps_argument h latest).bind fun first => (reads_accept _).bind fun more => ?_
      split
      · exact (ih _).bind fun _ => .pure trivial
      · exact .pure trivial

theorem keeps_call (bound : Nat) (callee : Expr) : (call inner bound callee).Keeps := by
  unfold call
  exact (reads_expect _).bind fun _ => (keeps_arguments h bound none).bind fun _ =>
    (reads_expect _).bind fun _ => .pure trivial

theorem keeps_trailer (bound : Nat) (value : Expr) : (trailer inner bound value).Keeps := by
  unfold trailer
  refine (reads_accept? _).bind fun dot _ => ?_
  split
  · exact reads_ident.bind fun _ _ => .pure trivial
  refine (reads_accept? _).bind fun bracket _ => ?_
  split
  · exact (keeps_exprList h bound).bind fun _ => (reads_expect _).bind fun _ => .pure trivial
  · exact keeps_call h bound value

theorem keeps_comparisonLinks (bound : Nat) : (comparisonLinks inner bound).Keeps := by
  induction bound with
  | zero => exact reads_tooDeep
  | succ bound ih =>
      rw [comparisonLinks]
      refine keeps_compareOp?.bind fun op => ?_
      split
      · exact .pure trivial
      · exact h.bind fun _ => ih.bind fun _ => .pure trivial

theorem keeps_comparison (bound : Nat) (left : Expr) : (comparison inner bound left).Keeps := by
  unfold comparison
  exact (keeps_comparisonLinks h bound).bind fun _ => .pure trivial

end expressions

theorem keeps_operand {inner : Nat → Parser Expr} (h : ∀ power, (inner power).Keeps) (bound : Nat) :
    (operand inner bound).Keeps := by
  unfold operand
  refine reads_peekKind.bind fun ahead => ?_
  split
  · exact reads_skip.bind fun _ => (h _).bind fun _ => .pure trivial
  · exact keeps_primary (h 0) bound

theorem keeps_operators {inner : Nat → Parser Expr} (h : ∀ power, (inner power).Keeps)
    (bound power rounds : Nat) (left : Expr) : (operators inner bound power rounds left).Keeps := by
  induction rounds generalizing left with
  | zero => exact reads_tooDeep
  | succ rounds ih =>
      rw [operators]
      refine reads_peekKind.bind fun ahead => ?_
      split
      · exact .pure trivial
      split
      · split
        · exact .pure trivial
        · exact (keeps_trailer (h 0) bound left).bind ih
      split
      · split
        · exact .pure trivial
        · exact (keeps_comparison (h _) bound left).bind ih
      split
      · exact .pure trivial
      split
      · exact .pure trivial
      · exact reads_skip.bind fun _ => (h _).bind fun right => ih _

theorem keeps_expr (bound power : Nat) : (expr bound power).Keeps := by
  induction bound generalizing power with
  | zero => exact reads_tooDeep
  | succ bound ih =>
      rw [expr]
      exact (keeps_operand ih bound).bind fun left => keeps_operators ih bound power bound left

section statements

open Stmt

theorem reads_returnStmt (bound : Nat) : (returnStmt bound).Reads Named := by
  unfold returnStmt
  refine (reads_expect _).bind fun start => reads_peekKind.bind fun ahead => ?_
  split
  · exact .pure trivial
  · exact (keeps_exprList (keeps_expr bound 0) bound).bind fun _ => .pure trivial

theorem reads_importName (bound : Nat) :
    (importName bound).Reads fun name => name.path.Named := by
  unfold importName
  refine (reads_dottedName bound).bind fun path hpath => (reads_accept _).bind fun renamed => ?_
  split
  · exact reads_ident.bind fun _ _ => .pure hpath
  · exact .pure hpath

theorem reads_importStmt (bound : Nat) : (importStmt bound).Reads Named := by
  unfold importStmt
  refine (reads_expect _).bind fun start => ?_
  exact (reads_listOf (reads_importName bound) bound).bind fun names hnames => .pure hnames

theorem reads_fromStmt (bound : Nat) : (fromStmt bound).Reads Named := by
  unfold fromStmt
  refine (reads_expect _).bind fun start => (reads_dottedName bound).bind fun _ _ => ?_
  refine (reads_expect _).bind fun _ => Reads.get.bind fun tokens hn => ?_
  dsimp only
  refine Keeps.bind (.set fun t ht => hn t ?_) fun _ => .pure trivial
  rw [List.span_eq_takeWhile_dropWhile] at ht
  exact (List.dropWhile_suffix _).subset ht

theorem keeps_assignedTail (bound rounds : Nat) : (assignedTail bound rounds).Keeps := by
  induction rounds with
  | zero => exact reads_tooDeep
  | succ rounds ih =>
      rw [assignedTail]
      refine (reads_accept _).bind fun more => ?_
      split
      · refine (keeps_exprList (keeps_expr bound 0) bound).bind fun _ => ?_
        exact ih.bind fun _ => .pure trivial
      · exact .pure trivial

theorem reads_exprStmt (bound : Nat) : (exprStmt bound).Reads Named := by
  unfold exprStmt
  refine (keeps_exprList (keeps_expr bound 0) bound).bind fun first => ?_
  refine reads_peekKind.bind fun ahead => ?_
  split
  · exact reads_skip.bind fun _ => (keeps_expr bound 0).bind fun _ => .pure trivial
  · refine (keeps_assignedTail bound bound).bind fun sides => ?_
    split <;> exact .pure trivial

theorem reads_simpleStmt (bound : Nat) : (simpleStmt bound).Reads Named := by
  unfold simpleStmt
  refine reads_peekKind.bind fun ahead => ?_
  split
  · exact reads_skip.bind fun _ => .pure trivial
  · exact reads_skip.bind fun _ => .pure trivial
  · exact reads_skip.bind fun _ => .pure trivial
  · exact reads_returnStmt bound
  · exact reads_importStmt bound
  · exact reads_fromStmt bound
  · exact reads_exprStmt bound

theorem reads_simpleStmtsTail (bound rounds : Nat) :
    (simpleStmtsTail bound rounds).Reads AllNamed := by
  induction rounds with
  | zero => exact reads_tooDeep
  | succ rounds ih =>
      rw [simpleStmtsTail]
      refine (reads_accept _).bind fun more => ?_
      split
      · refine reads_peekKind.bind fun ahead => ?_
        split
        · exact .pure trivial
        · exact .pure trivial
        · exact (reads_simpleStmt bound).bind fun first hfirst =>
            ih.bind fun rest hrest => .pure ⟨hfirst, hrest⟩
      · exact .pure trivial

theorem keeps_lineEnd : lineEnd.Keeps := by
  unfold lineEnd
  refine reads_peekKind.bind fun ahead => ?_
  split
  · exact reads_skip.bind fun _ => .pure trivial
  · exact .pure trivial
  · exact .pure trivial
  · exact reads_failHere _

theorem reads_simpleStmts (bound : Nat) : (simpleStmts bound).Reads AllNamed := by
  unfold simpleStmts
  refine (reads_simpleStmt bound).bind fun first hfirst => ?_
  refine (reads_simpleStmtsTail bound bound).bind fun rest hrest => ?_
  exact keeps_lineEnd.bind fun _ => .pure ⟨hfirst, hrest⟩

theorem keeps_decorators (bound rounds : Nat) : (decorators bound rounds).Keeps := by
  induction rounds with
  | zero => exact reads_tooDeep
  | succ rounds ih =>
      rw [decorators]
      refine (reads_accept _).bind fun marked => ?_
      split
      · exact (keeps_expr bound 0).bind fun _ => (reads_expect _).bind fun _ =>
          ih.bind fun _ => .pure trivial
      · exact .pure trivial

section nested

variable {inner : Parser (List Stmt)} (h : inner.Reads AllNamed)
include h

theorem reads_blockStmts (rounds : Nat) : (blockStmts inner rounds).Reads AllNamed := by
  induction rounds with
  | zero => exact reads_tooDeep
  | succ rounds ih =>
      rw [blockStmts]
      refine reads_peekKind.bind fun ahead => ?_
      split
      · exact .pure trivial
      · exact .pure trivial
      · exact h.bind fun first hfirst => ih.bind fun rest hrest =>
          .pure (allNamed_append.mpr ⟨hfirst, hrest⟩)

theorem reads_suite (bound : Nat) : (suite inner bound).Reads fun result => AllNamed result.1 := by
  unfold suite
  refine (reads_expect _).bind fun colon => (reads_accept _).bind fun ended => ?_
  split
  · refine (reads_expect _).bind fun _ => (reads_blockStmts h bound).bind fun body hbody => ?_
    exact (reads_accept _).bind fun _ => .pure hbody
  · exact (reads_simpleStmts bound).bind fun body hbody => .pure hbody

theorem reads_defineStmt (bound : Nat) : (defineStmt inner bound).Reads Named := by
  unfold defineStmt
  refine reads_here.bind fun start => (keeps_decorators bound bound).bind fun marks => ?_
  refine (reads_expect _).bind fun _ => reads_ident.bind fun name hname => ?_
  refine (reads_expect _).bind fun _ => (reads_listUntil reads_ident _ _).bind fun params _ => ?_
  refine (reads_expect _).bind fun _ => (reads_suite h bound).bind fun result hbody => ?_
  exact .pure ⟨hname, hbody⟩

theorem reads_whileStmt (bound : Nat) : (whileStmt inner bound).Reads Named := by
  unfold whileStmt
  refine (reads_expect _).bind fun start => (keeps_expr bound 0).bind fun test => ?_
  refine (reads_suite h bound).bind fun result hbody => reads_peekKind.bind fun ahead => ?_
  dsimp only
  split
  · exact Keeps.bind (reads_failHere _) fun _ => .pure hbody
  · exact .pure hbody

theorem keeps_elifBranches (bound rounds : Nat) (stop : Span) :
    (elifBranches inner bound rounds stop).Keeps := by
  induction rounds generalizing stop with
  | zero => exact reads_tooDeep
  | succ rounds ih =>
      rw [elifBranches]
      refine (reads_accept _).bind fun more => ?_
      split
      · exact (keeps_expr bound 0).bind fun _ => (reads_suite h bound).bind fun _ _ => ih _
      · exact .pure trivial

theorem reads_ifStmt (bound : Nat) : (ifStmt inner bound).Reads Named := by
  unfold ifStmt
  refine (reads_expect _).bind fun start => (keeps_expr bound 0).bind fun test => ?_
  refine (reads_suite h bound).bind fun _ _ => (keeps_elifBranches h bound bound _).bind fun _ => ?_
  refine (reads_accept _).bind fun more => ?_
  split
  · exact (reads_suite h bound).bind fun _ _ => .pure trivial
  · exact .pure trivial

theorem reads_forStmt (bound : Nat) : (forStmt inner bound).Reads Named := by
  unfold forStmt
  refine (reads_expect _).bind fun start => (reads_listOf (keeps_expr bound _) _).bind fun _ _ => ?_
  refine (reads_expect _).bind fun _ => (keeps_exprList (keeps_expr bound 0) bound).bind fun _ => ?_
  exact (reads_suite h bound).bind fun _ _ => .pure trivial

theorem reads_classStmt (bound : Nat) : (classStmt inner bound).Reads Named := by
  unfold classStmt
  refine (reads_expect _).bind fun start => reads_ident.bind fun name _ => ?_
  refine (reads_accept _).bind fun parents => ?_
  dsimp only
  split
  · exact (reads_listUntil (keeps_expr bound 0) _ _).bind fun _ _ => (reads_expect _).bind fun _ =>
      (reads_suite h bound).bind fun _ _ => .pure trivial
  · exact (reads_suite h bound).bind fun _ _ => .pure trivial

end nested

theorem reads_stmt (bound : Nat) : (stmt bound).Reads AllNamed := by
  induction bound with
  | zero => exact reads_tooDeep
  | succ bound ih =>
      have hone {p : Parser Stmt} (hp : p.Reads Named) : (do return [← p]).Reads AllNamed :=
        hp.bind fun s hs => .pure ⟨hs, trivial⟩
      rw [stmt]
      refine reads_peekKind.bind fun ahead => ?_
      split
      · exact hone (reads_defineStmt ih _)
      · exact hone (reads_defineStmt ih _)
      · exact hone (reads_whileStmt ih _)
      · exact hone (reads_ifStmt ih _)
      · exact hone (reads_forStmt ih _)
      · exact hone (reads_classStmt ih _)
      · exact reads_failHere _
      · exact reads_simpleStmts _
      · exact reads_failHere _

theorem reads_moduleStmts (bound rounds : Nat) : (moduleStmts bound rounds).Reads AllNamed := by
  induction rounds with
  | zero => exact reads_tooDeep
  | succ rounds ih =>
      rw [moduleStmts]
      refine reads_peekKind.bind fun ahead => ?_
      split
      · exact .pure trivial
      · exact reads_skip.bind fun _ => ih
      · exact (reads_stmt bound).bind fun first hfirst => ih.bind fun rest hrest =>
          .pure (allNamed_append.mpr ⟨hfirst, hrest⟩)

theorem reads_wholeModule (bound : Nat) :
    (wholeModule bound).Reads fun m => AllNamed m.body := by
  unfold wholeModule
  refine reads_here.bind fun start => (reads_moduleStmts bound bound).bind fun body hbody => ?_
  exact Keeps.bind .read fun _ => .pure hbody

end statements

end Parser

theorem parseModule_named {source : String} {m : Module} (h : parseModule source = .ok m) :
    Stmt.AllNamed m.body := by
  obtain ⟨tokens, htokens, h⟩ := exists_of_bind_eq_ok h
  unfold parseTokens at h
  cases hread :
    ((Parser.wholeModule (tokens.length + 1)).run (endSpan source tokens)).run tokens with
  | error e =>
      rw [hread] at h
      cases h
  | ok result =>
      rw [hread] at h
      cases h
      exact (Parser.reads_wholeModule _ _ _ _ _ (lex_named htokens) hread).1

section files

theorem loadContent_named {content : FileContent} {m : Module} (h : loadContent content = .ok m) :
    Stmt.AllNamed m.body := by
  obtain ⟨source, -, h⟩ := exists_of_bind_eq_ok h
  cases hm : parseModule source with
  | error e =>
      rw [hm] at h
      cases h
  | ok m' =>
      rw [hm] at h
      cases h
      exact parseModule_named hm

theorem FileTree.exists_of_lookup {α : Type} {tree : FileTree α} {path : String} {content : α}
    (h : (tree.lookup path).file? = some content) :
    ∃ location, (location, content) ∈ tree.files := by
  unfold lookup at h
  split at h
  · unfold at? at h
    split at h
    · rename_i hfound
      cases h
      exact ⟨_, List.mem_of_find?_eq_some hfound⟩
    · split at h <;> cases h
  · cases h

theorem SourceTree.named_of_lookup {files : FileTree FileContent} {path : String} {m : Module}
    (h : ((SourceTree.ofFiles files).lookup path).file? = some (.ok m)) : Stmt.AllNamed m.body := by
  obtain ⟨location, hmem⟩ := FileTree.exists_of_lookup h
  obtain ⟨entry, -, hentry⟩ := List.mem_map.mp hmem
  exact loadContent_named (Prod.ext_iff.mp hentry).2

theorem Sources.named_of_find? {s : Sources} (hs : ∃ files, s.tree = .ofFiles files)
    {path : ModulePath} {file : String} {m : Module} (h : s.find? path = some (file, .ok m)) :
    Stmt.AllNamed m.body := by
  unfold find? at h
  split at h
  · cases h
  · obtain ⟨root, -, hroot⟩ := List.exists_of_findSome?_eq_some h
    obtain ⟨loaded, hloaded, hfile⟩ := Option.map_eq_some_iff.mp hroot
    cases hfile
    cases root with
    | library => exact SourceTree.named_of_lookup hloaded
    | directory path =>
        obtain ⟨files, hfiles⟩ := hs
        change (s.tree.lookup _).file? = _ at hloaded
        rw [hfiles] at hloaded
        exact SourceTree.named_of_lookup hloaded

end files

end P16
