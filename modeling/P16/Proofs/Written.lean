import P16.Proofs.Grammar
import P16.Proofs.Spellings

/-!
# Writing expressions

The table of the operators is stated without numbers: each operator belongs to a tier, and each
operand must belong to at least a given tier or stand in parentheses. `Form.Writes` allows every
text that keeps the table, `Expr.words` is the one with the fewest parentheses.
-/

namespace P16

section words

/-- What a token says apart from its place. Only names, numbers and texts have a spelling. -/
structure Word where
  kind : TokenKind
  text : String
deriving DecidableEq

namespace Word

def sign (kind : TokenKind) : Word := ⟨kind, ""⟩

def name (text : String) : Word := ⟨.ident, text⟩

end Word

def Token.word (t : Token) : Word := ⟨t.kind, if t.kind.isLeaf then t.text else ""⟩

def Spells (ts : List Token) (ws : List Word) : Prop := ts.map Token.word = ws

namespace Spells

variable {ts : List Token} {w : Word} {ws ws' : List Word} {kind close : TokenKind} {text : String}

theorem eq_nil (h : Spells ts []) : ts = [] := List.map_eq_nil_iff.mp h

theorem append_inv (h : Spells ts (ws ++ ws')) :
    ∃ us vs, ts = us ++ vs ∧ Spells us ws ∧ Spells vs ws' :=
  List.map_eq_append_iff.mp h

theorem sign_inv (h : Spells ts (.sign kind :: ws)) :
    ∃ t us, ts = t :: us ∧ t.kind = kind ∧ Spells us ws := by
  obtain ⟨t, us, rfl, ht, hus⟩ := List.map_eq_cons_iff.mp h
  exact ⟨t, us, rfl, congrArg Word.kind ht, hus⟩

theorem leaf_inv (h : Spells ts (⟨kind, text⟩ :: ws)) (hkind : kind.isLeaf = true) :
    ∃ t us, ts = t :: us ∧ t.kind = kind ∧ t.text = text ∧ Spells us ws := by
  obtain ⟨t, us, rfl, ht, hus⟩ := List.map_eq_cons_iff.mp h
  obtain ⟨rfl, htext⟩ := Word.mk.inj ht
  rw [if_pos hkind] at htext
  exact ⟨t, us, rfl, rfl, htext, hus⟩

theorem separated_inv (h : Spells ts (ws ++ .sign kind :: ws')) :
    ∃ us t vs, ts = us ++ t :: vs ∧ Spells us ws ∧ t.kind = kind ∧ Spells vs ws' := by
  obtain ⟨us, vs, rfl, hus, hvs⟩ := h.append_inv
  obtain ⟨t, vs, rfl, ht, hvs⟩ := hvs.sign_inv
  exact ⟨us, t, vs, rfl, hus, ht, hvs⟩

theorem last_inv (h : Spells ts (ws ++ [.sign close])) :
    ∃ us t, ts = us ++ [t] ∧ Spells us ws ∧ t.kind = close := by
  obtain ⟨us, t, vs, rfl, hus, ht, hvs⟩ := h.separated_inv
  rw [hvs.eq_nil]
  exact ⟨us, t, rfl, hus, ht⟩

end Spells

end words

section bare

def Ident.bare (ident : Ident) : Ident := ⟨ident.text, default⟩

namespace Expr

mutual

def bare : Expr → Expr
  | name ident => name ident.bare
  | member value attr _ => member value.bare attr.bare default
  | number value _ => number value default
  | text value _ => text value default
  | tuple items _ => tuple (bareItems items) default
  | list items _ => list (bareItems items) default
  | dict entries _ => dict (bareEntries entries) default
  | call callee args keywords _ =>
    call callee.bare (bareItems args) (bareKeywords keywords) default
  | binary op left right _ => binary op left.bare right.bare default
  | unary op operand _ => unary op operand.bare default
  | compare left links _ => compare left.bare (bareLinks links) default
  | subscript value index _ => subscript value.bare index.bare default

def bareItems : List Expr → List Expr
  | [] => []
  | e :: es => e.bare :: bareItems es

def bareEntries : List (Expr × Expr) → List (Expr × Expr)
  | [] => []
  | (key, value) :: es => (key.bare, value.bare) :: bareEntries es

def bareKeywords : List (Keyword Expr) → List (Keyword Expr)
  | [] => []
  | ⟨ident, value, _⟩ :: ks => ⟨ident.bare, value.bare, default⟩ :: bareKeywords ks

def bareLinks : List (CompareOp × Expr) → List (CompareOp × Expr)
  | [] => []
  | (op, e) :: more => (op, e.bare) :: bareLinks more

end

@[simp] theorem bare_enclosed (e : Expr) (span : Span) : (e.enclosed span).bare = e.bare := by
  cases e <;> simp [enclosed, bare]

end Expr

end bare

section table

/-- The levels of the operators, the loosest first. -/
inductive Tier where
  | disjunction | conjunction | negation | comparison | bitOr | bitXor | bitAnd | shift | sum
  | product | sign | power | trailer
deriving DecidableEq

namespace Tier

def rank : Tier → Nat
  | disjunction => 0
  | conjunction => 1
  | negation => 2
  | comparison => 3
  | bitOr => 4
  | bitXor => 5
  | bitAnd => 6
  | shift => 7
  | sum => 8
  | product => 9
  | sign => 10
  | power => 11
  | trailer => 12

def tighter : Tier → Tier
  | disjunction => conjunction
  | conjunction => negation
  | negation => comparison
  | comparison => bitOr
  | bitOr => bitXor
  | bitXor => bitAnd
  | bitAnd => shift
  | shift => sum
  | sum => product
  | product => sign
  | sign => power
  | power | trailer => trailer

end Tier

def BinaryOp.kind : BinaryOp → TokenKind
  | add => .plus
  | sub => .minus
  | mul => .star
  | div => .slash
  | floorDiv => .slashSlash
  | mod => .percent
  | pow => .starStar
  | shl => .shl
  | shr => .shr
  | bitOr => .pipe
  | bitAnd => .amp
  | bitXor => .caret
  | and => .kwAnd
  | or => .kwOr

def BinaryOp.tier : BinaryOp → Tier
  | or => .disjunction
  | and => .conjunction
  | bitOr => .bitOr
  | bitXor => .bitXor
  | bitAnd => .bitAnd
  | shl | shr => .shift
  | add | sub => .sum
  | mul | div | floorDiv | mod => .product
  | pow => .power

/-- The tier of the left operand. All operators but `**` associate to the left. -/
def BinaryOp.leftTier (op : BinaryOp) : Tier :=
  if op = pow then .trailer else op.tier

/-- The tier of the right operand. That of `**` may be a sign or another `**`. -/
def BinaryOp.rightTier (op : BinaryOp) : Tier :=
  if op = pow then .sign else op.tier.tighter

def UnaryOp.kind : UnaryOp → TokenKind
  | neg => .minus
  | pos => .plus
  | invert => .tilde
  | not => .kwNot

/-- The tier of the operator, and of its operand. -/
def UnaryOp.tier : UnaryOp → Tier
  | not => .negation
  | neg | pos | invert => .sign

def CompareOp.words : CompareOp → List Word
  | eq => [.sign .eqEq]
  | notEq => [.sign .notEq]
  | lt => [.sign .lt]
  | le => [.sign .lte]
  | gt => [.sign .gt]
  | ge => [.sign .gte]
  | isIn => [.sign .kwIn]
  | notIn => [.sign .kwNot, .sign .kwIn]
  | is => [.sign .kwIs]
  | isNot => [.sign .kwIs, .sign .kwNot]

end table

/-- What is written, with its tree. Lists have at least one member here. -/
inductive Form where
  /-- An expression where one of at least the given tier is wanted. -/
  | expr (tier : Tier) (e : Expr)
  | items (es : List Expr)
  | entries (es : List (Expr × Expr))
  | arguments (args : List Expr) (keywords : List (Keyword Expr))
  | links (more : List (CompareOp × Expr))

namespace Form

/-- The words write the form. Parentheses stand where the table wants them and anywhere else. -/
inductive Writes : Form → List Word → Prop where
  | name {tier : Tier} {ident : Ident} : Writes (expr tier (.name ident)) [.name ident.text]
  | number {tier : Tier} {value : Int} {span : Span} {text : String}
      (htext : Literal.integer? text = some value) :
      Writes (expr tier (.number value span)) [⟨.int, text⟩]
  | text {tier : Tier} {value : String} {span : Span} {text : String}
      (htext : Literal.text text = .ok value) :
      Writes (expr tier (.text value span)) [⟨.str, text⟩]
  | parens {tier : Tier} {e : Expr} {ws : List Word} (he : Writes (expr .disjunction e) ws) :
      Writes (expr tier e) (.sign .lparen :: (ws ++ [.sign .rparen]))
  | unit {tier : Tier} {span : Span} :
      Writes (expr tier (.tuple [] span)) [.sign .lparen, .sign .rparen]
  | single {tier : Tier} {e : Expr} {span : Span} {ws : List Word}
      (he : Writes (expr .disjunction e) ws) :
      Writes (expr tier (.tuple [e] span)) (.sign .lparen :: (ws ++ [.sign .comma, .sign .rparen]))
  | tuple {tier : Tier} {e : Expr} {es : List Expr} {span : Span} {ws ws' : List Word}
      (he : Writes (expr .disjunction e) ws) (hes : Writes (items es) ws') :
      Writes (expr tier (.tuple (e :: es) span))
        (.sign .lparen :: (ws ++ .sign .comma :: (ws' ++ [.sign .rparen])))
  | emptyList {tier : Tier} {span : Span} :
      Writes (expr tier (.list [] span)) [.sign .lbracket, .sign .rbracket]
  | list {tier : Tier} {es : List Expr} {span : Span} {ws : List Word}
      (hes : Writes (items es) ws) :
      Writes (expr tier (.list es span)) (.sign .lbracket :: (ws ++ [.sign .rbracket]))
  | emptyDict {tier : Tier} {span : Span} :
      Writes (expr tier (.dict [] span)) [.sign .lbrace, .sign .rbrace]
  | dict {tier : Tier} {es : List (Expr × Expr)} {span : Span} {ws : List Word}
      (hes : Writes (entries es) ws) :
      Writes (expr tier (.dict es span)) (.sign .lbrace :: (ws ++ [.sign .rbrace]))
  | member {tier : Tier} {value : Expr} {attr : Ident} {span : Span} {ws : List Word}
      (hvalue : Writes (expr .trailer value) ws) :
      Writes (expr tier (.member value attr span)) (ws ++ [.sign .dot, .name attr.text])
  | subscript {tier : Tier} {value index : Expr} {span : Span} {ws ws' : List Word}
      (hvalue : Writes (expr .trailer value) ws) (hindex : Writes (expr .disjunction index) ws') :
      Writes (expr tier (.subscript value index span))
        (ws ++ .sign .lbracket :: (ws' ++ [.sign .rbracket]))
  | emptyCall {tier : Tier} {callee : Expr} {span : Span} {ws : List Word}
      (hcallee : Writes (expr .trailer callee) ws) :
      Writes (expr tier (.call callee [] [] span)) (ws ++ [.sign .lparen, .sign .rparen])
  | call {tier : Tier} {callee : Expr} {args : List Expr} {keywords : List (Keyword Expr)}
      {span : Span} {ws ws' : List Word} (hcallee : Writes (expr .trailer callee) ws)
      (hargs : Writes (arguments args keywords) ws') :
      Writes (expr tier (.call callee args keywords span))
        (ws ++ .sign .lparen :: (ws' ++ [.sign .rparen]))
  | binary {tier : Tier} {op : BinaryOp} {left right : Expr} {span : Span} {ws ws' : List Word}
      (htier : tier.rank ≤ op.tier.rank) (hleft : Writes (expr op.leftTier left) ws)
      (hright : Writes (expr op.rightTier right) ws') :
      Writes (expr tier (.binary op left right span)) (ws ++ .sign op.kind :: ws')
  | unary {tier : Tier} {op : UnaryOp} {e : Expr} {span : Span} {ws : List Word}
      (htier : tier.rank ≤ op.tier.rank) (he : Writes (expr op.tier e) ws) :
      Writes (expr tier (.unary op e span)) (.sign op.kind :: ws)
  | compare {tier : Tier} {left : Expr} {more : List (CompareOp × Expr)} {span : Span}
      {ws ws' : List Word} (htier : tier.rank ≤ Tier.comparison.rank)
      (hleft : Writes (expr .bitOr left) ws) (hmore : Writes (links more) ws') :
      Writes (expr tier (.compare left more span)) (ws ++ ws')
  | itemsLast {e : Expr} {ws : List Word} (he : Writes (expr .disjunction e) ws) :
      Writes (items [e]) ws
  | itemsMore {e : Expr} {es : List Expr} {ws ws' : List Word}
      (he : Writes (expr .disjunction e) ws) (hes : Writes (items es) ws') :
      Writes (items (e :: es)) (ws ++ .sign .comma :: ws')
  | entriesLast {key value : Expr} {ws ws' : List Word} (hkey : Writes (expr .disjunction key) ws)
      (hvalue : Writes (expr .disjunction value) ws') :
      Writes (entries [(key, value)]) (ws ++ .sign .colon :: ws')
  | entriesMore {key value : Expr} {es : List (Expr × Expr)} {ws ws' ws'' : List Word}
      (hkey : Writes (expr .disjunction key) ws) (hvalue : Writes (expr .disjunction value) ws')
      (hes : Writes (entries es) ws'') :
      Writes (entries ((key, value) :: es)) (ws ++ .sign .colon :: (ws' ++ .sign .comma :: ws''))
  | positionalLast {e : Expr} {ws : List Word} (he : Writes (expr .disjunction e) ws) :
      Writes (arguments [e] []) ws
  | positionalMore {e : Expr} {args : List Expr} {keywords : List (Keyword Expr)}
      {ws ws' : List Word} (he : Writes (expr .disjunction e) ws)
      (hmore : Writes (arguments args keywords) ws') :
      Writes (arguments (e :: args) keywords) (ws ++ .sign .comma :: ws')
  | keywordLast {k : Keyword Expr} {ws : List Word}
      (hvalue : Writes (expr .disjunction k.value) ws) :
      Writes (arguments [] [k]) (.name k.name.text :: .sign .eq :: ws)
  | keywordMore {k : Keyword Expr} {keywords : List (Keyword Expr)} {ws ws' : List Word}
      (hvalue : Writes (expr .disjunction k.value) ws)
      (hmore : Writes (arguments [] keywords) ws') :
      Writes (arguments [] (k :: keywords))
        (.name k.name.text :: .sign .eq :: (ws ++ .sign .comma :: ws'))
  | linksLast {op : CompareOp} {e : Expr} {ws : List Word} (he : Writes (expr .bitOr e) ws) :
      Writes (links [(op, e)]) (op.words ++ ws)
  | linksMore {op : CompareOp} {e : Expr} {more : List (CompareOp × Expr)} {ws ws' : List Word}
      (he : Writes (expr .bitOr e) ws) (hmore : Writes (links more) ws') :
      Writes (links ((op, e) :: more)) (op.words ++ (ws ++ ws'))

end Form

section fewest

/-- A way to spell numbers and texts. -/
structure Spelling where
  number : Int → String
  text : String → String
  integer?_number : ∀ value : Int, 0 ≤ value → value ≤ Literal.maxInteger →
    Literal.integer? (number value) = some value
  text_text : ∀ value, Literal.text (text value) = .ok value

/-- Numbers in decimal, texts between double quotes. -/
def Spelling.standard : Spelling where
  number value := toString value.toNat
  text := Literal.spelled .line '"'
  integer?_number value hpos hle := by
    rw [Literal.integer?_decimal (by omega), Int.toNat_of_nonneg hpos]
  text_text := Literal.text_spelled rfl .line

namespace Expr

mutual

/-- Numbers can be spelled, no chain of comparisons is empty and all names are as `named` wants. -/
def wellFormed (named : String → Bool) : Expr → Bool
  | name ident => named ident.text
  | text .. => true
  | number value _ => 0 ≤ value && value ≤ Literal.maxInteger
  | member value attr _ => value.wellFormed named && named attr.text
  | tuple items _ | list items _ => wellFormedItems named items
  | dict entries _ => wellFormedEntries named entries
  | call callee args keywords _ =>
    callee.wellFormed named && wellFormedItems named args && wellFormedKeywords named keywords
  | binary _ left right _ => left.wellFormed named && right.wellFormed named
  | unary _ operand _ => operand.wellFormed named
  | compare left links _ =>
    left.wellFormed named && !links.isEmpty && wellFormedLinks named links
  | subscript value index _ => value.wellFormed named && index.wellFormed named

def wellFormedItems (named : String → Bool) : List Expr → Bool
  | [] => true
  | e :: es => e.wellFormed named && wellFormedItems named es

def wellFormedEntries (named : String → Bool) : List (Expr × Expr) → Bool
  | [] => true
  | (key, value) :: es =>
    key.wellFormed named && value.wellFormed named && wellFormedEntries named es

def wellFormedKeywords (named : String → Bool) : List (Keyword Expr) → Bool
  | [] => true
  | ⟨ident, value, _⟩ :: ks =>
    named ident.text && value.wellFormed named && wellFormedKeywords named ks

def wellFormedLinks (named : String → Bool) : List (CompareOp × Expr) → Bool
  | [] => true
  | (_, e) :: more => e.wellFormed named && wellFormedLinks named more

end

def enclose (needed : Bool) (ws : List Word) : List Word :=
  if needed then .sign .lparen :: (ws ++ [.sign .rparen]) else ws

mutual

/-- The words of an expression where one of at least the tier `required` is wanted, with no
parentheses but those the table asks for. -/
def words (s : Spelling) (required : Tier) : Expr → List Word
  | name ident => [.name ident.text]
  | member value attr _ => value.words s .trailer ++ [.sign .dot, .name attr.text]
  | number value _ => [⟨.int, s.number value⟩]
  | text value _ => [⟨.str, s.text value⟩]
  | tuple items _ =>
    .sign .lparen :: (itemWords s items ++
      (if items.length = 1 then [.sign .comma, .sign .rparen] else [.sign .rparen]))
  | list items _ => .sign .lbracket :: (itemWords s items ++ [.sign .rbracket])
  | dict entries _ => .sign .lbrace :: (entryWords s entries ++ [.sign .rbrace])
  | call callee args keywords _ =>
    callee.words s .trailer ++
      .sign .lparen :: (argumentWords s (keywordWords s keywords) args ++ [.sign .rparen])
  | binary op left right _ =>
    enclose (op.tier.rank < required.rank)
      (left.words s op.leftTier ++ .sign op.kind :: right.words s op.rightTier)
  | unary op operand _ =>
    enclose (op.tier.rank < required.rank) (.sign op.kind :: operand.words s op.tier)
  | compare left links _ =>
    enclose (Tier.comparison.rank < required.rank) (left.words s .bitOr ++ linkWords s links)
  | subscript value index _ =>
    value.words s .trailer ++
      .sign .lbracket :: (index.words s .disjunction ++ [.sign .rbracket])

def itemWords (s : Spelling) : List Expr → List Word
  | [] => []
  | e :: es =>
    e.words s .disjunction ++ (if es.isEmpty then [] else .sign .comma :: itemWords s es)

def entryWords (s : Spelling) : List (Expr × Expr) → List Word
  | [] => []
  | (key, value) :: es =>
    key.words s .disjunction ++ .sign .colon :: (value.words s .disjunction ++
      (if es.isEmpty then [] else .sign .comma :: entryWords s es))

def keywordWords (s : Spelling) : List (Keyword Expr) → List Word
  | [] => []
  | ⟨ident, value, _⟩ :: ks =>
    .name ident.text :: .sign .eq :: (value.words s .disjunction ++
      (if ks.isEmpty then [] else .sign .comma :: keywordWords s ks))

def argumentWords (s : Spelling) (keywords : List Word) : List Expr → List Word
  | [] => keywords
  | e :: es =>
    e.words s .disjunction ++ (if es.isEmpty && keywords.isEmpty then []
      else .sign .comma :: argumentWords s keywords es)

def linkWords (s : Spelling) : List (CompareOp × Expr) → List Word
  | [] => []
  | (op, e) :: more => op.words ++ (e.words s .bitOr ++ linkWords s more)

end

section writes

variable (s : Spelling) {named : String → Bool}

open Form (Writes)

theorem writes_enclose {e : Expr} {tier : Tier} {ws : List Word} {required : Tier}
    (h : ∀ required : Tier, required.rank ≤ tier.rank → Writes (.expr required e) ws) :
    Writes (.expr required e) (enclose (tier.rank < required.rank) ws) := by
  by_cases hrank : tier.rank < required.rank
  · simp only [enclose, hrank, decide_true, ↓reduceIte]
    exact .parens (h .disjunction (Nat.zero_le _))
  · simp only [enclose, hrank, decide_false, Bool.false_eq_true, ↓reduceIte]
    exact h required (Nat.not_lt.mp hrank)

mutual

theorem writes_words : ∀ (e : Expr) (required : Tier), e.wellFormed named = true →
    Writes (.expr required e) (e.words s required)
  | name ident, required, _ => .name
  | member value attr span, required, h => by
      simp only [wellFormed, Bool.and_eq_true] at h
      exact .member (writes_words value .trailer h.1)
  | number value span, required, h => by
      simp only [wellFormed, Bool.and_eq_true, decide_eq_true_eq] at h
      exact .number (s.integer?_number value h.1 h.2)
  | text value span, required, _ => .text (s.text_text value)
  | tuple [] span, required, _ => .unit
  | tuple [e] span, required, h => by
      simp only [wellFormed, wellFormedItems, Bool.and_true] at h
      simpa [words, itemWords] using Writes.single (writes_words e .disjunction h)
  | tuple (e :: e' :: es) span, required, h => by
      rw [wellFormed, wellFormedItems, Bool.and_eq_true] at h
      have hmore := writes_itemWords (e' :: es) nofun h.2
      simpa [words, itemWords] using Writes.tuple (writes_words e .disjunction h.1) hmore
  | list [] span, required, _ => .emptyList
  | list (e :: es) span, required, h => .list (writes_itemWords (e :: es) nofun h)
  | dict [] span, required, _ => .emptyDict
  | dict (e :: es) span, required, h => .dict (writes_entryWords (e :: es) nofun h)
  | call callee args keywords span, required, h => by
      simp only [wellFormed, Bool.and_eq_true] at h
      have hcallee := writes_words callee .trailer h.1.1
      have hkeywords : keywords = [] ∧ keywordWords s keywords = [] ∨ keywords ≠ [] ∧
          keywordWords s keywords ≠ [] ∧
          Writes (.arguments [] keywords) (keywordWords s keywords) := by
        have hwrites := fun hks => writes_keywordWords keywords hks h.2
        cases keywords with
        | nil => exact .inl ⟨rfl, rfl⟩
        | cons k ks => exact .inr ⟨nofun, by simp [keywordWords], hwrites nofun⟩
      have hargs := fun hsome => writes_argumentWords args keywords _ hkeywords hsome h.1.2
      by_cases hnone : args = [] ∧ keywords = []
      · obtain ⟨rfl, rfl⟩ := hnone
        exact .emptyCall hcallee
      · exact .call hcallee (hargs (Classical.not_and_iff_not_or_not.mp hnone))
  | binary op left right span, required, h => by
      simp only [wellFormed, Bool.and_eq_true] at h
      exact writes_enclose fun _ hrank =>
        .binary hrank (writes_words left op.leftTier h.1) (writes_words right op.rightTier h.2)
  | unary op operand span, required, h =>
      writes_enclose fun _ hrank => .unary hrank (writes_words operand op.tier h)
  | compare left links span, required, h => by
      simp only [wellFormed, Bool.and_eq_true] at h
      exact writes_enclose fun _ hrank =>
        .compare hrank (writes_words left .bitOr h.1.1)
          (writes_linkWords links (by simpa using h.1.2) h.2)
  | subscript value index span, required, h => by
      simp only [wellFormed, Bool.and_eq_true] at h
      exact .subscript (writes_words value .trailer h.1) (writes_words index .disjunction h.2)

theorem writes_itemWords : ∀ es : List Expr, es ≠ [] → wellFormedItems named es = true →
    Writes (.items es) (itemWords s es)
  | [], hes, _ => absurd rfl hes
  | e :: es, _, h => by
      simp only [wellFormedItems, Bool.and_eq_true] at h
      have he := writes_words e .disjunction h.1
      have hmore := fun hes => writes_itemWords es hes h.2
      cases es with
      | nil => simpa [itemWords] using Writes.itemsLast he
      | cons e' es => simpa [itemWords] using Writes.itemsMore he (hmore nofun)

theorem writes_entryWords : ∀ es : List (Expr × Expr), es ≠ [] → wellFormedEntries named es = true →
    Writes (.entries es) (entryWords s es)
  | [], hes, _ => absurd rfl hes
  | (key, value) :: es, _, h => by
      simp only [wellFormedEntries, Bool.and_eq_true] at h
      have hkey := writes_words key .disjunction h.1.1
      have hvalue := writes_words value .disjunction h.1.2
      have hmore := fun hes => writes_entryWords es hes h.2
      cases es with
      | nil => simpa [entryWords] using Writes.entriesLast hkey hvalue
      | cons e es => simpa [entryWords] using Writes.entriesMore hkey hvalue (hmore nofun)

theorem writes_keywordWords : ∀ ks : List (Keyword Expr), ks ≠ [] →
    wellFormedKeywords named ks = true → Writes (.arguments [] ks) (keywordWords s ks)
  | [], hks, _ => absurd rfl hks
  | ⟨ident, value, span⟩ :: ks, _, h => by
      simp only [wellFormedKeywords, Bool.and_eq_true] at h
      have hvalue := writes_words value .disjunction h.1.2
      have hmore := fun hks => writes_keywordWords ks hks h.2
      cases ks with
      | nil => simpa [keywordWords] using Writes.keywordLast (k := ⟨ident, value, span⟩) hvalue
      | cons k ks =>
          simpa [keywordWords] using
            Writes.keywordMore (k := ⟨ident, value, span⟩) hvalue (hmore nofun)

theorem writes_argumentWords : ∀ (args : List Expr) (ks : List (Keyword Expr)) (ws : List Word),
    (ks = [] ∧ ws = [] ∨ ks ≠ [] ∧ ws ≠ [] ∧ Writes (.arguments [] ks) ws) →
    (args ≠ [] ∨ ks ≠ []) → wellFormedItems named args = true →
    Writes (.arguments args ks) (argumentWords s ws args)
  | [], ks, ws, hks, hsome, _ => by
      rcases hks with ⟨rfl, -⟩ | ⟨-, -, hks⟩
      · simp at hsome
      · exact hks
  | e :: es, ks, ws, hks, _, h => by
      simp only [wellFormedItems, Bool.and_eq_true] at h
      have he := writes_words e .disjunction h.1
      have hmore := fun hsome => writes_argumentWords es ks ws hks hsome h.2
      rcases hks with ⟨rfl, rfl⟩ | ⟨hks, hws, -⟩
      · cases es with
        | nil => simpa [argumentWords] using Writes.positionalLast he
        | cons e' es =>
            simpa [argumentWords] using Writes.positionalMore he (hmore (.inl nofun))
      · simpa [argumentWords, hws] using Writes.positionalMore he (hmore (.inr hks))

theorem writes_linkWords : ∀ more : List (CompareOp × Expr), more ≠ [] →
    wellFormedLinks named more = true → Writes (.links more) (linkWords s more)
  | [], hmore, _ => absurd rfl hmore
  | (op, e) :: more, _, h => by
      simp only [wellFormedLinks, Bool.and_eq_true] at h
      have he := writes_words e .bitOr h.1
      have hmore := fun hmore => writes_linkWords more hmore h.2
      cases more with
      | nil => simpa [linkWords] using Writes.linksLast he
      | cons link more => simpa [linkWords] using Writes.linksMore he (hmore nofun)

end

end writes

end Expr

end fewest

end P16
