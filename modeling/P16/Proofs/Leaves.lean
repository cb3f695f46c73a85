import P16.Proofs.StmtGrammarSound

/-!
# The leaves of a tree

The names, numbers and texts of a tree, in order and with their places, are those of its tokens:
reading drops none, invents none and keeps their order. Adjacent texts are one leaf.
-/

namespace P16

inductive Leaf where
  | name (ident : Ident)
  | number (value : Int) (span : Span)
  | text (value : String) (span : Span)
deriving DecidableEq

section tokens

def Token.isText (t : Token) : Bool := t.kind = .str

/-- What texts in a row denote together. -/
def runText? : List Token → Option String
  | [] => some ""
  | t :: ts => do return (← (Literal.text t.text).toOption) ++ (← runText? ts)

/-- The span from the first token over all that follow. -/
def runSpan (first : Span) (more : List Token) : Span :=
  more.foldl (fun span t => span.through t.span) first

/-- The leaves that tokens write, unless one of them has no value. A maximal run of texts writes one
leaf. -/
def tokenLeaves? : List Token → Option (List Leaf)
  | [] => some []
  | t :: ts =>
    match t.kind with
    | .ident => do return .name t.ident :: (← tokenLeaves? ts)
    | .int => do return .number (← Literal.integer? t.text) t.span :: (← tokenLeaves? ts)
    | .str => do
      let run := ts.takeWhile Token.isText
      return .text (← runText? (t :: run)) (runSpan t.span run) ::
        (← tokenLeaves? (ts.dropWhile Token.isText))
    | _ => tokenLeaves? ts
termination_by ts => ts.length
decreasing_by
  all_goals simp only [List.length_cons]
  any_goals omega
  exact Nat.lt_succ_of_le (List.dropWhile_suffix _).length_le

/-- Reading from `ts` to `rest` yields exactly these leaves. -/
def Yields (leaves : List Leaf) (ts rest : List Token) : Prop :=
  ∀ more, tokenLeaves? rest = some more → tokenLeaves? ts = some (leaves ++ more)

namespace Yields

variable {leaves leaves' : List Leaf} {t : Token} {ts mid rest : List Token}

theorem nil : Yields [] ts ts := fun _ h => h

theorem append (h : Yields leaves ts mid) (h' : Yields leaves' mid rest) :
    Yields (leaves ++ leaves') ts rest := by
  intro more hmore
  rw [List.append_assoc]
  exact h _ (h' _ hmore)

theorem append_nil (h : Yields leaves ts mid) (h' : Yields [] mid rest) :
    Yields leaves ts rest := by
  simpa using h.append h'

theorem skip {kind : TokenKind} (ht : t.kind = kind) (hkind : kind.isLeaf = false)
    (h : Yields leaves ts rest) : Yields leaves (t :: ts) rest := by
  intro more hmore
  rw [← h more hmore, tokenLeaves?]
  subst ht
  cases hk : t.kind <;> simp_all [TokenKind.isLeaf]

theorem enclosed {close : Token} {kind kind' : TokenKind} (ht : t.kind = kind)
    (hkind : kind.isLeaf = false) (h : Yields leaves ts (close :: rest))
    (hclose : close.kind = kind')
    (hkind' : kind'.isLeaf = false) : Yields leaves (t :: ts) rest :=
  (h.append_nil (.skip hclose hkind' .nil)).skip ht hkind

theorem name (ht : t.kind = .ident) : Yields [.name t.ident] (t :: rest) rest := by
  intro more hmore
  simp [tokenLeaves?, ht, hmore]

theorem number {value : Int} (ht : t.kind = .int) (hvalue : Literal.integer? t.text = some value) :
    Yields [.number value t.span] (t :: rest) rest := by
  intro more hmore
  simp [tokenLeaves?, ht, hvalue, hmore]

end Yields

theorem MoreText.run {value : String} {span : Span} {e : Expr} {ts rest : List Token}
    (h : MoreText value span e ts rest) :
    ∃ more, runText? (ts.takeWhile Token.isText) = some more ∧
      ts.dropWhile Token.isText = rest ∧
      e = .text (value ++ more) (runSpan span (ts.takeWhile Token.isText)) := by
  induction h with
  | @done value span rest hrest =>
      refine ⟨"", ?_⟩
      cases rest with
      | nil => simp [runText?, runSpan]
      | cons t ts =>
          have hnot : t.isText = false := by simpa [Token.isText] using hrest
          simp [hnot, runText?, runSpan]
  | @more value next span e t ts rest ht hnext _ ih =>
      obtain ⟨more, hmore, hrest, rfl⟩ := ih
      have hword : t.isText = true := by simp [Token.isText, ht]
      refine ⟨next ++ more, ?_, ?_, ?_⟩
      · simp [hword, runText?, hnext, hmore, Except.toOption]
      · simp [hword, hrest]
      · simp [hword, runSpan, String.append_assoc]

theorem Yields.text {value : String} {e : Expr} {t : Token} {ts rest : List Token}
    (ht : t.kind = .str) (hvalue : Literal.text t.text = .ok value)
    (hmore : MoreText value t.span e ts rest) :
    ∃ text span, e = .text text span ∧ Yields [.text text span] (t :: ts) rest := by
  obtain ⟨more, hrun, hrest, rfl⟩ := hmore.run
  refine ⟨_, _, rfl, ?_⟩
  intro leaves hleaves
  simp [tokenLeaves?, ht, runText?, hvalue, Except.toOption, hrun, hrest, hleaves]

end tokens

namespace Expr

mutual

def leaves : Expr → List Leaf
  | name ident => [.name ident]
  | member value attr _ => value.leaves ++ [.name attr]
  | number value span => [.number value span]
  | text value span => [.text value span]
  | tuple items _ | list items _ => itemLeaves items
  | dict entries _ => entryLeaves entries
  | call callee args keywords _ => callee.leaves ++ (itemLeaves args ++ keywordLeaves keywords)
  | binary _ left right _ => left.leaves ++ right.leaves
  | unary _ operand _ => operand.leaves
  | compare left links _ => left.leaves ++ linkLeaves links
  | subscript value index _ => value.leaves ++ index.leaves

def itemLeaves : List Expr → List Leaf
  | [] => []
  | e :: es => e.leaves ++ itemLeaves es

def entryLeaves : List (Expr × Expr) → List Leaf
  | [] => []
  | (key, value) :: es => key.leaves ++ (value.leaves ++ entryLeaves es)

def keywordLeaves : List (Keyword Expr) → List Leaf
  | [] => []
  | ⟨ident, value, _⟩ :: ks => .name ident :: (value.leaves ++ keywordLeaves ks)

def linkLeaves : List (CompareOp × Expr) → List Leaf
  | [] => []
  | (_, e) :: more => e.leaves ++ linkLeaves more

end

theorem itemLeaves_concat (es : List Expr) (e : Expr) :
    itemLeaves (es ++ [e]) = itemLeaves es ++ e.leaves := by
  induction es with
  | nil => simp [itemLeaves]
  | cons first es ih => simp [itemLeaves, ih]

@[simp] theorem leaves_enclosed (e : Expr) (span : Span) : (e.enclosed span).leaves = e.leaves := by
  cases e <;> simp [enclosed, leaves]

end Expr

open P16.Expr (itemLeaves entryLeaves keywordLeaves linkLeaves leaves_enclosed)

theorem isLeaf_of_unary {kind : TokenKind} {r : UnaryOp × Nat} (h : UnaryOp.ofKind? kind = some r) :
    kind.isLeaf = false := by
  cases kind <;> simp [UnaryOp.ofKind?, TokenKind.isLeaf] at h ⊢

theorem isLeaf_of_binary {kind : TokenKind} {op : BinaryOp} (h : BinaryOp.ofKind? kind = some op) :
    kind.isLeaf = false := by
  cases kind <;> simp [BinaryOp.ofKind?, TokenKind.isLeaf] at h ⊢

theorem isLeaf_of_compare {kind : TokenKind} {op : CompareOp}
    (h : CompareOp.ofKind? kind = some op) : kind.isLeaf = false := by
  cases kind <;> simp [CompareOp.ofKind?, TokenKind.isLeaf] at h ⊢

theorem isLeaf_of_augmented {kind : TokenKind} {op : BinaryOp}
    (h : BinaryOp.ofAugmented? kind = some op) : kind.isLeaf = false := by
  cases kind <;> simp [BinaryOp.ofAugmented?, TokenKind.isLeaf] at h ⊢

theorem CompareOp.Derives.yields {op : CompareOp} {ts rest : List Token} (h : op.Derives ts rest) :
    Yields [] ts rest := by
  cases h with
  | sign ht => exact .skip rfl (isLeaf_of_compare ht) .nil
  | notIn ht hu => exact .skip ht rfl (.skip hu rfl .nil)
  | isNot ht hu => exact .skip ht rfl (.skip hu rfl .nil)
  | is ht _ => exact .skip ht rfl .nil

namespace Phrase

/-- These are the leaves that reading the phrase adds to what was read before it. -/
def Adds : Phrase → List Leaf → Prop
  | expr _ e, new | operand e, new | exprList e, new => new = e.leaves
  | moreExprs es, new | items _ es, new => new = itemLeaves es
  | entries es, new => new = entryLeaves es
  | argument latest (.positional value), new => latest = none ∧ new = value.leaves
  | argument _ (.keyword k), new => new = .name k.name :: k.value.leaves
  -- Nothing is passed by position after a keyword, so the keywords are the last arguments.
  | arguments latest as, new =>
    (latest ≠ none → as.filterMap Parser.Argument.positional? = []) ∧
      new = itemLeaves (as.filterMap Parser.Argument.positional?) ++
        keywordLeaves (as.filterMap Parser.Argument.keyword?)
  | trailer value e, new | operators _ value e, new => e.leaves = value.leaves ++ new
  | links more, new => new = linkLeaves more

theorem Adds.arguments_nil (latest : Option (Keyword Expr)) : (arguments latest []).Adds [] :=
  ⟨fun _ => rfl, rfl⟩

theorem Adds.arguments_cons {latest : Option (Keyword Expr)} {a : Parser.Argument}
    {as : List Parser.Argument} {new more : List Leaf} (ha : (argument latest a).Adds new)
    (has : (arguments (a.keyword? <|> latest) as).Adds more) :
    (arguments latest (a :: as)).Adds (new ++ more) := by
  obtain ⟨hlatest, rfl⟩ := has
  cases a with
  | positional value =>
      obtain ⟨rfl, rfl⟩ := ha
      exact ⟨fun h => absurd rfl h, (List.append_assoc ..).symm⟩
  | keyword k =>
      subst ha
      have hnone : as.filterMap Parser.Argument.positional? = [] :=
        hlatest (by simp [Parser.Argument.keyword?])
      refine ⟨fun _ => hnone, ?_⟩
      change _ = itemLeaves (as.filterMap Parser.Argument.positional?) ++ _
      rw [hnone]
      rfl

theorem Derives.yields {p : Phrase} {ts rest : List Token} (h : p.Derives ts rest) :
    ∃ new, p.Adds new ∧ Yields new ts rest := by
  induction h with
  | expr _ _ ihleft ihops =>
      obtain ⟨_, rfl, hleft⟩ := ihleft
      obtain ⟨new, hnew, hops⟩ := ihops
      exact ⟨_, rfl, hnew ▸ hleft.append hops⟩
  | unary ht _ ih =>
      obtain ⟨_, rfl, he⟩ := ih
      exact ⟨_, rfl, he.skip rfl (isLeaf_of_unary ht)⟩
  | name ht => exact ⟨_, rfl, .name ht⟩
  | number ht hvalue => exact ⟨_, rfl, .number ht hvalue⟩
  | text ht hvalue hmore =>
      obtain ⟨text, span, rfl, hyields⟩ := Yields.text ht hvalue hmore
      exact ⟨_, rfl, hyields⟩
  | unit ht hclose => exact ⟨_, rfl, .skip ht rfl (.skip hclose rfl .nil)⟩
  | parens ht _ hclose ih =>
      obtain ⟨_, rfl, he⟩ := ih
      exact ⟨_, (leaves_enclosed _ _).symm, .enclosed ht rfl he hclose rfl⟩
  | list ht _ hclose ih =>
      obtain ⟨_, rfl, hes⟩ := ih
      exact ⟨_, rfl, .enclosed ht rfl hes hclose rfl⟩
  | dict ht _ hclose ih =>
      obtain ⟨_, rfl, hes⟩ := ih
      exact ⟨_, rfl, .enclosed ht rfl hes hclose rfl⟩
  | single _ _ ih => exact ih
  | tuple _ _ _ ihfirst ihmore =>
      obtain ⟨_, rfl, hfirst⟩ := ihfirst
      obtain ⟨_, rfl, hmore⟩ := ihmore
      exact ⟨_, rfl, hfirst.append hmore⟩
  | exprsDone _ | itemsDone _ | entriesDone _ | linksDone _ => exact ⟨_, rfl, .nil⟩
  | exprsComma ht _ => exact ⟨_, rfl, .skip ht rfl .nil⟩
  | exprsMore ht _ _ _ ihe ihes =>
      obtain ⟨_, rfl, he⟩ := ihe
      obtain ⟨_, rfl, hes⟩ := ihes
      exact ⟨_, rfl, (he.append hes).skip ht rfl⟩
  | itemsLast _ _ _ ih =>
      obtain ⟨_, rfl, he⟩ := ih
      exact ⟨_, rfl, by simpa [itemLeaves] using he⟩
  | itemsMore _ _ ht _ ihe ihes =>
      obtain ⟨_, rfl, he⟩ := ihe
      obtain ⟨_, rfl, hes⟩ := ihes
      exact ⟨_, rfl, he.append (hes.skip ht rfl)⟩
  | entriesLast _ _ hcolon _ _ ihkey ihvalue =>
      obtain ⟨_, rfl, hkey⟩ := ihkey
      obtain ⟨_, rfl, hvalue⟩ := ihvalue
      exact ⟨_, rfl, by simpa [entryLeaves] using hkey.append (hvalue.skip hcolon rfl)⟩
  | entriesMore _ _ hcolon _ ht _ ihkey ihvalue ihes =>
      obtain ⟨_, rfl, hkey⟩ := ihkey
      obtain ⟨_, rfl, hvalue⟩ := ihvalue
      obtain ⟨_, rfl, hes⟩ := ihes
      exact ⟨_, rfl, hkey.append ((hvalue.append (hes.skip ht rfl)).skip hcolon rfl)⟩
  | keyword ht hu _ ih =>
      obtain ⟨_, rfl, hvalue⟩ := ih
      exact ⟨_, rfl, (Yields.name ht).append (hvalue.skip hu rfl)⟩
  | positional _ _ ih =>
      obtain ⟨_, rfl, hvalue⟩ := ih
      exact ⟨_, ⟨rfl, rfl⟩, hvalue⟩
  | argumentsDone _ => exact ⟨_, Adds.arguments_nil _, .nil⟩
  | argumentsLast _ _ _ ih =>
      obtain ⟨new, ha, hyields⟩ := ih
      exact ⟨_, ha.arguments_cons (Adds.arguments_nil _), hyields.append .nil⟩
  | argumentsMore _ _ ht _ iha ihas =>
      obtain ⟨new, ha, hyields⟩ := iha
      obtain ⟨more, has, hmore⟩ := ihas
      exact ⟨_, ha.arguments_cons has, hyields.append (hmore.skip ht rfl)⟩
  | member ht hu => exact ⟨_, rfl, (Yields.name hu).skip ht rfl⟩
  | subscript ht _ hclose ih =>
      obtain ⟨_, rfl, hindex⟩ := ih
      exact ⟨_, rfl, .enclosed ht rfl hindex hclose rfl⟩
  | call ht _ hclose ih =>
      obtain ⟨_, ⟨-, rfl⟩, hargs⟩ := ih
      exact ⟨_, rfl, .enclosed ht rfl hargs hclose rfl⟩
  | linksMore hop _ _ ihe ihmore =>
      obtain ⟨_, rfl, he⟩ := ihe
      obtain ⟨_, rfl, hmore⟩ := ihmore
      exact ⟨_, rfl, hop.yields.append (he.append hmore)⟩
  | operatorsDone _ => exact ⟨_, by simp [Adds], .nil⟩
  | operatorsTrailer _ _ _ ihnext ihmore =>
      obtain ⟨first, hfirst, hnext⟩ := ihnext
      obtain ⟨more, hmore, hops⟩ := ihmore
      refine ⟨first ++ more, ?_, hnext.append hops⟩
      simp only [Adds] at hfirst hmore ⊢
      simp [hmore, hfirst]
  | operatorsCompare _ _ _ ihlinks ihmore =>
      obtain ⟨_, rfl, hlinks⟩ := ihlinks
      obtain ⟨more, hmore, hops⟩ := ihmore
      refine ⟨_, ?_, hlinks.append hops⟩
      simp only [Adds] at hmore ⊢
      simp [hmore, Expr.leaves]
  | operatorsBinary ht _ _ _ ihright ihmore =>
      obtain ⟨_, rfl, hright⟩ := ihright
      obtain ⟨more, hmore, hops⟩ := ihmore
      refine ⟨_, ?_, (hright.append hops).skip rfl (isLeaf_of_binary ht)⟩
      simp only [Adds] at hmore ⊢
      simp [hmore, Expr.leaves]

end Phrase

theorem yields_of_expr {power : Nat} {e : Expr} {ts rest : List Token}
    (h : (Phrase.expr power e).Derives ts rest) : Yields e.leaves ts rest := by
  obtain ⟨_, rfl, hyields⟩ := h.yields
  exact hyields

theorem yields_of_exprList {e : Expr} {ts rest : List Token}
    (h : (Phrase.exprList e).Derives ts rest) : Yields e.leaves ts rest := by
  obtain ⟨_, rfl, hyields⟩ := h.yields
  exact hyields

section names

def DottedName.leaves (name : DottedName) : List Leaf := name.segments.map .name

def ImportName.leaves (name : ImportName) : List Leaf :=
  name.path.leaves ++ name.newName?.toList.map .name

theorem MoreName.yields {name whole : DottedName} {ts rest : List Token}
    (h : MoreName name whole ts rest) :
    ∃ new, whole.leaves = name.leaves ++ new ∧ Yields new ts rest := by
  induction h with
  | done _ => exact ⟨[], by simp, .nil⟩
  | more ht hu _ ih =>
      obtain ⟨new, hnew, hyields⟩ := ih
      refine ⟨_, ?_, ((Yields.name hu).append hyields).skip ht rfl⟩
      rw [hnew]
      simp [DottedName.leaves, DottedName.snoc]

theorem DottedName.Derives.yields {name : DottedName} {ts rest : List Token}
    (h : name.Derives ts rest) : Yields name.leaves ts rest := by
  obtain ⟨t, ts', rfl, ht, hmore⟩ := h
  obtain ⟨new, hnew, hyields⟩ := hmore.yields
  rw [hnew]
  exact (Yields.name ht).append hyields

theorem ImportName.Derives.yields {name : ImportName} {ts rest : List Token}
    (h : name.Derives ts rest) : Yields name.leaves ts rest := by
  cases h with
  | plain hpath _ => simpa [ImportName.leaves] using hpath.yields
  | renamed hpath ht hu => exact hpath.yields.append (.skip ht rfl (.name hu))

theorem ImportNames.yields {names : List ImportName} {ts rest : List Token}
    (h : ImportNames names ts rest) : Yields (names.flatMap ImportName.leaves) ts rest := by
  induction h with
  | last hname _ => simpa using hname.yields
  | more hname ht _ ih => exact hname.yields.append (ih.skip ht rfl)

theorem Params.yields {params : List Ident} {ts rest : List Token} (h : Params params ts rest) :
    Yields (params.map .name) ts rest := by
  induction h with
  | done _ => exact .nil
  | last ht _ => exact .name ht
  | more ht hu _ ih => exact (Yields.name ht).append (ih.skip hu rfl)

end names

namespace Stmt

mutual

def leaves : Stmt → List Leaf
  | importNames names _ => names.flatMap ImportName.leaves
  | assign targets value _ => itemLeaves targets ++ value.leaves
  | augAssign target _ value _ => target.leaves ++ value.leaves
  | expr e _ => e.leaves
  | define name params decorators body _ =>
    itemLeaves decorators ++ (.name name :: (params.map .name ++ blockLeaves body))
  | giveBack value? _ => value?.elim [] Expr.leaves
  | whileLoop test body _ => test.leaves ++ blockLeaves body
  | breakLoop _ | continueLoop _ | pass _ | unsupported .. => []

def blockLeaves : List Stmt → List Leaf
  | [] => []
  | s :: ss => s.leaves ++ blockLeaves ss

end

mutual

/-- There is no unsupported statement, at any depth. -/
def supported : Stmt → Bool
  | define _ _ _ body _ | whileLoop _ body _ => blockSupported body
  | unsupported .. => false
  | _ => true

def blockSupported : List Stmt → Bool
  | [] => true
  | s :: ss => s.supported && blockSupported ss

end

@[simp] theorem blockLeaves_singleton (s : Stmt) : blockLeaves [s] = s.leaves := by
  simp [blockLeaves]

@[simp] theorem blockSupported_singleton (s : Stmt) : blockSupported [s] = s.supported := by
  simp [blockSupported]

theorem blockLeaves_append (ss ss' : List Stmt) :
    blockLeaves (ss ++ ss') = blockLeaves ss ++ blockLeaves ss' := by
  induction ss with
  | nil => rfl
  | cons s ss ih => simp [blockLeaves, ih]

theorem blockSupported_append (ss ss' : List Stmt) :
    blockSupported (ss ++ ss') = (blockSupported ss && blockSupported ss') := by
  induction ss with
  | nil => rfl
  | cons s ss ih => simp [blockSupported, ih, Bool.and_assoc]

theorem leaves_ofSides (first : Expr) (sides : List Expr) :
    (ofSides first sides).leaves = first.leaves ++ itemLeaves sides := by
  unfold ofSides
  cases hlast : sides.getLast? with
  | none =>
      rw [List.getLast?_eq_none_iff] at hlast
      simp [hlast, leaves, itemLeaves]
  | some value =>
      have hsides : sides.dropLast ++ [value] = sides :=
        List.dropLast_append_getLast? value hlast
      simp only [leaves]
      rw [← Expr.itemLeaves_concat, List.cons_append, hsides]
      rfl

end Stmt

theorem LineEnd.yields {ts rest : List Token} (h : LineEnd ts rest) : Yields [] ts rest := by
  cases h with
  | newline ht => exact .skip ht rfl .nil
  | block _ => exact .nil

theorem BlockEnd.yields {ts rest : List Token} (h : BlockEnd ts rest) : Yields [] ts rest := by
  cases h with
  | dedent ht => exact .skip ht rfl .nil
  | none _ => exact .nil

open Stmt (blockLeaves blockSupported blockLeaves_append blockSupported_append)

namespace Clause

def leaves : Clause → List Leaf
  | assigned es | decorators es | targets es => itemLeaves es
  | simple s => s.leaves
  | moreSimple ss | line ss | block ss | suite ss _ | stmt ss | whole ss => blockLeaves ss
  | branches .. => []

/-- The tree that is read holds all that is written; `elif` branches leave nothing in it. -/
def supported : Clause → Bool
  | assigned _ | decorators _ | targets _ => true
  | simple s => s.supported
  | moreSimple ss | line ss | block ss | suite ss _ | stmt ss | whole ss => blockSupported ss
  | branches .. => false

theorem Derives.yields {c : Clause} {ts rest : List Token} (h : c.Derives ts rest)
    (hc : c.supported = true) : Yields c.leaves ts rest := by
  induction h with
  | assignedDone _ | blockDone _ | decoratorsDone _ | simpleDone _ | wholeDone => exact .nil
  | assignedMore ht hside _ ih =>
      exact ((yields_of_exprList hside).append (ih rfl)).skip ht rfl
  | pass ht | breakLoop ht | continueLoop ht | giveBackNothing ht _ => exact .skip ht rfl .nil
  | giveBack ht _ hvalue => exact (yields_of_exprList hvalue).skip ht rfl
  | importNames ht hnames => exact hnames.yields.skip ht rfl
  | augAssign _ htarget ht hvalue =>
      exact (yields_of_exprList htarget).append
        ((yields_of_expr hvalue).skip rfl (isLeaf_of_augmented ht))
  | sides _ hfirst _ _ ih =>
      simp only [leaves, Stmt.leaves_ofSides]
      exact (yields_of_exprList hfirst).append (ih rfl)
  | simpleSemi ht _ => exact .skip ht rfl .nil
  | simpleMore ht _ _ _ ihs ihss =>
      obtain ⟨hs, hss⟩ := Bool.and_eq_true_iff.mp hc
      exact ((ihs hs).append (ihss hss)).skip ht rfl
  | line _ _ hend ihs ihss =>
      obtain ⟨hs, hss⟩ := Bool.and_eq_true_iff.mp hc
      exact (ihs hs).append ((ihss hss).append_nil hend.yields)
  | decoratorsMore ht he hu _ ih =>
      exact ((yields_of_expr he).append ((ih rfl).skip hu rfl)).skip ht rfl
  | targetsLast he _ => simpa [leaves, itemLeaves] using yields_of_expr he
  | targetsMore he ht _ ih => exact (yields_of_expr he).append ((ih rfl).skip ht rfl)
  | blockMore _ _ _ ihss ihmore =>
      simp only [supported, blockSupported_append, Bool.and_eq_true] at hc
      simp only [leaves, blockLeaves_append]
      exact (ihss hc.1).append (ihmore hc.2)
  | suiteBlock hcolon ht hu _ hend ih =>
      exact (((ih hc).append_nil hend.yields).skip hu rfl).skip ht rfl |>.skip hcolon rfl
  | suiteLine hcolon _ _ ih => exact (ih hc).skip hcolon rfl
  | define _ _ hkw hname hopening hparams hclose _ ihmarks ihbody =>
      simp only [supported, Stmt.blockSupported_singleton, Stmt.supported] at hc
      simp only [leaves, Stmt.blockLeaves_singleton, Stmt.leaves]
      have hparams := hparams.yields.append ((ihbody hc).skip hclose rfl)
      have hheader := (Yields.name hname).append (hparams.skip hopening rfl)
      exact (ihmarks rfl).append (hheader.skip hkw rfl)
  | whileLoop ht htest _ _ ih =>
      simp only [supported, Stmt.blockSupported_singleton, Stmt.supported] at hc
      simp only [leaves, Stmt.blockLeaves_singleton, Stmt.leaves]
      exact ((yields_of_expr htest).append (ih hc)).skip ht rfl
  | stmtLine _ _ ih => exact ih hc
  | wholeNewline ht _ ih => exact (ih hc).skip ht rfl
  | wholeMore _ _ _ ihss ihmore =>
      simp only [supported, blockSupported_append, Bool.and_eq_true] at hc
      simp only [leaves, blockLeaves_append]
      exact (ihss hc.1).append (ihmore hc.2)
  | branchesDone | branchesMore => cases hc
  | importFrom | conditional | conditionalElse | iteration | classDefinition | classWithParents =>
      simp [supported, Stmt.supported, blockSupported] at hc

end Clause

/-- A module that is read, and in which no statement is unsupported, has the leaves that its tokens
write: each has a value, none is lost or made up, and they keep their order. -/
theorem leaves_of_parseModule {source : String} {m : Module} (h : parseModule source = .ok m)
    (hm : blockSupported m.body = true) :
    ∃ tokens, lex source = .ok tokens ∧ tokenLeaves? tokens = some (blockLeaves m.body) := by
  obtain ⟨tokens, hlex, hparse⟩ := exists_of_bind_eq_ok h
  refine ⟨tokens, hlex, ?_⟩
  have hyields : Yields (blockLeaves m.body) tokens [] :=
    (derives_of_parseTokens hparse).yields hm
  simpa using hyields [] (by simp [tokenLeaves?])

def decoratedSource : String := "@f\ndef g(a):\n    b = 'x' \"y\" + 1\n"

def decoratedLeaves : List Leaf :=
  [.name ⟨"f", ⟨1, 2, 1, 1⟩⟩, .name ⟨"g", ⟨7, 8, 2, 4⟩⟩, .name ⟨"a", ⟨9, 10, 2, 6⟩⟩,
   .name ⟨"b", ⟨17, 18, 3, 4⟩⟩, .text "xy" ⟨21, 28, 3, 8⟩, .number 1 ⟨31, 32, 3, 18⟩]

theorem leaves_of_parseModule_decorated :
    ∃ m, parseModule decoratedSource = .ok m ∧ blockSupported m.body = true ∧
      blockLeaves m.body = decoratedLeaves ∧
      ∃ tokens, lex decoratedSource = .ok tokens ∧ tokenLeaves? tokens = some decoratedLeaves := by
  have hcheck : (parseModule decoratedSource).toOption.any (fun m =>
      blockSupported m.body ∧ blockLeaves m.body = decoratedLeaves) = true := by
    decide +kernel
  cases hm : parseModule decoratedSource with
  | error e => simp [hm, Except.toOption] at hcheck
  | ok m =>
      obtain ⟨hsupported, hleaves⟩ :
          blockSupported m.body ∧ blockLeaves m.body = decoratedLeaves := by
        simpa [hm, Except.toOption] using hcheck
      have htokens := leaves_of_parseModule hm hsupported
      rw [hleaves] at htokens
      exact ⟨m, rfl, hsupported, hleaves, htokens⟩

end P16
