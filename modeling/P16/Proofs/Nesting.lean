import P16.Proofs.StmtGrammarSound
import P16.Proofs.TreeParts

/-!
# Spans are nested

Tokens are read from left to right, and every part of a tree is put together from parts and tokens
that follow one another, so its span holds those of its parts, apart and in their order.
-/

namespace P16

namespace Literal

theorem bounds_of_integer? {text : String} {n : Int} (h : integer? text = some n) :
    0 ≤ n ∧ n ≤ maxInteger := by
  simp only [integer?, Option.map_eq_some_iff, Option.filter_eq_some_iff] at h
  obtain ⟨value, ⟨-, hvalue⟩, rfl⟩ := h
  exact ⟨Int.natCast_nonneg value, Int.ofNat_le.mpr (of_decide_eq_true hvalue)⟩

end Literal

section phrases

variable {source : String} {start low mid high : Nat} {t : Token} {ts rest : List Token}

theorem getLast?_cons_map {α β : Type} (f : α → β) (b : β) (xs : List α) :
    (b :: xs.map f).getLast? = some ((xs.getLast?.map f).getD b) := by
  rw [List.getLast?_cons, List.getLast?_map]

theorem Ahead.name (h : Ahead source low (t :: ts)) :
    Stands source low t.span.stop [.ident t.ident] ∧ Ahead source t.span.stop ts := by
  obtain ⟨ht, hts⟩ := h.next
  exact ⟨ht.leaf rfl trivial, hts⟩

theorem CompareOp.Derives.ahead {op : CompareOp} (h : op.Derives ts rest)
    (hts : Ahead source low ts) :
    ∃ high spans, Stretch source low high spans [] ∧ Ahead source high rest := by
  cases h with
  | sign _ | is _ _ =>
      obtain ⟨ht, hts⟩ := hts.next
      exact ⟨_, _, ht, hts⟩
  | notIn _ _ | isNot _ _ =>
      obtain ⟨ht, hts⟩ := hts.next
      obtain ⟨hu, hts⟩ := hts.next
      exact ⟨_, _, ht.snoc hu, hts⟩

theorem MoreText.stands {value : String} {span : Span} {e : Expr}
    (h : MoreText value span e ts rest) (hspan : Stretch source start low [span] [])
    (hts : Ahead source low ts) :
    ∃ high, Stands source start high [.expr e] ∧ Ahead source high rest := by
  induction h generalizing low with
  | done => exact ⟨low, hspan.leaf rfl trivial, hts⟩
  | more _ _ _ ih =>
      obtain ⟨ht, hts⟩ := hts.next
      exact ih (hspan.join ht) hts

/-- Parentheses belong to a tuple, and to nothing else that they enclose. -/
theorem Stretch.enclosed {e : Expr} {opening close : Span} {inner : Nat}
    (hopening : Stretch source low mid [opening] []) (he : Stands source mid inner [.expr e])
    (hclose : Stretch source inner high [close] []) :
    Stands source low high [.expr (e.enclosed (opening.through close))] := by
  cases e with
  | tuple items span => exact (hopening.append he.opened).closed hclose rfl rfl trivial
  | _ => exact ((hopening.append he).snoc hclose).bare

def Parser.Argument.part : Parser.Argument → TreePart
  | positional value => .expr value
  | keyword k => .keyword k

namespace Phrase

/-- Reading the phrase from `low` to `high` adds parts that stand there. Trailers and operators put
what they are applied to, which stands before them, into a larger part. -/
def Fits (source : String) (low high : Nat) : Phrase → Prop
  | expr _ e | operand e | exprList e => Stands source low high [.expr e]
  | moreExprs es | items _ es => Stands source low high (es.map .expr)
  | entries es => Stands source low high ((es.flatMap fun entry => [entry.1, entry.2]).map .expr)
  | argument _ a => Stands source low high [a.part]
  | arguments _ as => Stands source low high (as.map Parser.Argument.part)
  | trailer value e | operators _ value e =>
    ∀ start, Stands source start low [.expr value] → Stands source start high [.expr e]
  | links more => Stands source low high ((more.map Prod.snd).map .expr)

/-- No argument follows by position once one was passed by name. -/
theorem Derives.positional_first {latest : Option (Keyword Expr)} {as : List Parser.Argument}
    (h : (arguments latest as).Derives ts rest) :
    (latest ≠ none → as.filterMap Parser.Argument.positional? = []) ∧
      as.map Parser.Argument.part = (as.filterMap Parser.Argument.positional?).map .expr ++
        (as.filterMap Parser.Argument.keyword?).map .keyword := by
  generalize hp : arguments latest as = p at h
  induction h generalizing latest as with
  | argumentsDone _ =>
      cases hp
      exact ⟨fun _ => rfl, rfl⟩
  | argumentsLast _ ha _ =>
      cases hp
      cases ha with
      | keyword _ _ _ => exact ⟨fun _ => rfl, rfl⟩
      | positional _ _ => exact ⟨fun h => absurd rfl h, rfl⟩
  | argumentsMore _ ha _ _ _ ih =>
      cases hp
      obtain ⟨hlatest, hparts⟩ := ih rfl
      cases ha with
      | keyword _ _ _ =>
          have hnone := hlatest nofun
          refine ⟨fun _ => hnone, ?_⟩
          rw [List.filterMap_cons_none rfl, hnone, List.map_cons, hparts, hnone]
          rfl
      | positional _ _ => exact ⟨fun h => absurd rfl h, congrArg _ hparts⟩
  | _ => cases hp

/-- What is read from tokens that follow one another stands where they stand, and the tokens that
are left come after it. -/
theorem Derives.fits {p : Phrase} (h : p.Derives ts rest) (hts : Ahead source low ts) :
    ∃ high, p.Fits source low high ∧ Ahead source high rest := by
  -- Each rule reads its tokens and phrases in turn, each from where the one before it ended.
  induction h generalizing low with
  | expr _ _ ihleft ihops =>
      obtain ⟨mid, hleft, hts⟩ := ihleft hts
      obtain ⟨high, hops, hts⟩ := ihops hts
      exact ⟨high, hops low hleft, hts⟩
  | unary _ _ ih =>
      obtain ⟨ht, hts⟩ := hts.next
      obtain ⟨high, he, hts⟩ := ih hts
      exact ⟨high, (ht.append he).whole rfl rfl rfl trivial, hts⟩
  | name _ =>
      obtain ⟨ht, hts⟩ := hts.name
      exact ⟨_, ht.whole rfl rfl (Span.through_self _).symm trivial, hts⟩
  | number _ hvalue =>
      obtain ⟨ht, hts⟩ := hts.next
      exact ⟨_, ht.leaf rfl (Literal.bounds_of_integer? hvalue), hts⟩
  | text _ _ hmore =>
      obtain ⟨ht, hts⟩ := hts.next
      exact hmore.stands ht hts
  | unit _ _ =>
      obtain ⟨ht, hts⟩ := hts.next
      obtain ⟨hclose, hts⟩ := hts.next
      exact ⟨_, (ht.snoc hclose).whole rfl rfl rfl trivial, hts⟩
  | parens _ _ _ ih =>
      obtain ⟨ht, hts⟩ := hts.next
      obtain ⟨mid, he, hts⟩ := ih hts
      obtain ⟨hclose, hts⟩ := hts.next
      exact ⟨_, ht.enclosed he hclose, hts⟩
  | list _ _ _ ih =>
      obtain ⟨ht, hts⟩ := hts.next
      obtain ⟨mid, hes, hts⟩ := ih hts
      obtain ⟨hclose, hts⟩ := hts.next
      exact ⟨_, (ht.append hes).closed hclose (TreePart.children_list _ _) rfl trivial, hts⟩
  | dict _ _ _ ih =>
      obtain ⟨ht, hts⟩ := hts.next
      obtain ⟨mid, hes, hts⟩ := ih hts
      obtain ⟨hclose, hts⟩ := hts.next
      exact ⟨_, (ht.append hes).closed hclose (TreePart.children_dict _ _) rfl trivial, hts⟩
  | single _ _ ih => exact ih hts
  | tuple _ _ _ ihfirst ihmore =>
      obtain ⟨mid, hfirst, hts⟩ := ihfirst hts
      obtain ⟨high, hmore, hts⟩ := ihmore hts
      refine ⟨high, (hfirst.append hmore).whole (TreePart.children_tuple _ _) ?_ rfl trivial, hts⟩
      rw [List.map_map, List.getLastD_eq_getLast?, ← Option.getD_map Expr.span]
      exact getLast?_cons_map Expr.span _ _
  | exprsDone _ | itemsDone _ | entriesDone _ | argumentsDone _ | linksDone _ =>
      exact ⟨low, hts.nil, hts⟩
  | exprsComma _ _ =>
      obtain ⟨ht, hts⟩ := hts.next
      exact ⟨_, ht.bare, hts⟩
  | exprsMore _ _ _ _ ihe ihes =>
      obtain ⟨ht, hts⟩ := hts.next
      obtain ⟨mid, he, hts⟩ := ihe hts
      obtain ⟨high, hes, hts⟩ := ihes hts
      exact ⟨high, ((ht.append he).append hes).bare, hts⟩
  | itemsLast _ _ _ ih | argumentsLast _ _ _ ih => exact ih hts
  | itemsMore _ _ _ _ ihe ihes =>
      obtain ⟨mid, he, hts⟩ := ihe hts
      obtain ⟨ht, hts⟩ := hts.next
      obtain ⟨high, hes, hts⟩ := ihes hts
      exact ⟨high, ((he.append ht).append hes).bare, hts⟩
  | entriesLast _ _ _ _ _ ihkey ihvalue =>
      obtain ⟨mid, hkey, hts⟩ := ihkey hts
      obtain ⟨hcolon, hts⟩ := hts.next
      obtain ⟨high, hvalue, hts⟩ := ihvalue hts
      exact ⟨high, ((hkey.append hcolon).append hvalue).bare, hts⟩
  | entriesMore _ _ _ _ _ _ ihkey ihvalue ihes =>
      obtain ⟨mid, hkey, hts⟩ := ihkey hts
      obtain ⟨hcolon, hts⟩ := hts.next
      obtain ⟨mid, hvalue, hts⟩ := ihvalue hts
      obtain ⟨ht, hts⟩ := hts.next
      obtain ⟨high, hes, hts⟩ := ihes hts
      exact ⟨high, ((((hkey.append hcolon).append hvalue).append ht).append hes).bare, hts⟩
  | keyword _ _ _ ih =>
      obtain ⟨hname, hts⟩ := hts.name
      obtain ⟨heq, hts⟩ := hts.next
      obtain ⟨high, hvalue, hts⟩ := ih hts
      exact ⟨high, ((hname.append heq).append hvalue).whole rfl rfl rfl trivial, hts⟩
  | positional _ _ ih => exact ih hts
  | argumentsMore _ _ _ _ iha ihas =>
      obtain ⟨mid, ha, hts⟩ := iha hts
      obtain ⟨ht, hts⟩ := hts.next
      obtain ⟨high, has, hts⟩ := ihas hts
      exact ⟨high, ((ha.append ht).append has).bare, hts⟩
  | member _ _ =>
      obtain ⟨ht, hts⟩ := hts.next
      obtain ⟨hattr, hts⟩ := hts.name
      exact ⟨_, fun start hvalue =>
        ((hvalue.append ht).append hattr).whole rfl rfl rfl trivial, hts⟩
  | subscript _ _ _ ih =>
      obtain ⟨ht, hts⟩ := hts.next
      obtain ⟨mid, hindex, hts⟩ := ih hts
      obtain ⟨hclose, hts⟩ := hts.next
      exact ⟨_, fun start hvalue =>
        ((hvalue.append ht).append hindex).closed hclose rfl rfl trivial, hts⟩
  | call _ hargs _ ih =>
      have hparts := hargs.positional_first.2
      obtain ⟨ht, hts⟩ := hts.next
      obtain ⟨mid, hargs, hts⟩ := ih hts
      obtain ⟨hclose, hts⟩ := hts.next
      exact ⟨_, fun start hcallee => ((hcallee.append ht).append hargs).closed hclose
        ((TreePart.children_call _ _ _ _).trans (congrArg _ hparts.symm)) rfl trivial, hts⟩
  | linksMore hop _ _ ihe ihmore =>
      obtain ⟨mid, spans, hop, hts⟩ := hop.ahead hts
      obtain ⟨mid, he, hts⟩ := ihe hts
      obtain ⟨high, hmore, hts⟩ := ihmore hts
      exact ⟨high, ((hop.append he).append hmore).bare, hts⟩
  | operatorsDone _ => exact ⟨low, fun _ hleft => hleft, hts⟩
  | operatorsTrailer _ _ _ ihnext ihmore =>
      obtain ⟨mid, hnext, hts⟩ := ihnext hts
      obtain ⟨high, hmore, hts⟩ := ihmore hts
      exact ⟨high, fun start hleft => hmore start (hnext start hleft), hts⟩
  | operatorsCompare _ _ _ ihlinks ihmore =>
      obtain ⟨mid, hlinks, hts⟩ := ihlinks hts
      obtain ⟨high, hmore, hts⟩ := ihmore hts
      refine ⟨high, fun start hleft => hmore start ((hleft.append hlinks).whole
        (TreePart.children_compare _ _ _) ?_ rfl trivial), hts⟩
      rw [List.map_map, ← List.getLast?_map, ← Option.getD_map Expr.span]
      exact getLast?_cons_map Expr.span _ _
  | operatorsBinary _ _ _ _ ihright ihmore =>
      obtain ⟨ht, hts⟩ := hts.next
      obtain ⟨mid, hright, hts⟩ := ihright hts
      obtain ⟨high, hmore, hts⟩ := ihmore hts
      exact ⟨high, fun start hleft => hmore start
        (((hleft.append ht).append hright).whole rfl rfl rfl trivial), hts⟩

end Phrase

end phrases

section names

variable {source : String} {start low mid high : Nat} {ts rest : List Token}

theorem Stretch.snoc_segment {name : DottedName} {segment : Ident}
    (h : Stands source low mid [.path name]) (hsegment : Stands source mid high [.ident segment]) :
    Stands source low high [.path (name.snoc segment)] := by
  obtain ⟨hlow, -, hmid⟩ := h.row.bounds List.mem_cons_self
  obtain ⟨-, -, hhigh⟩ := hsegment.row.bounds List.mem_cons_self
  have hplaced := h.placed _ List.mem_cons_self
  obtain ⟨hlast, -⟩ := hsegment.clip rfl
  have hstop : (name.snoc segment).span.stop ≤ high :=
    max_le hhigh (hmid.trans hsegment.row.le)
  have hchildren : TreePart.children (.path (name.snoc segment)) =
      TreePart.children (.path name) ++ [.ident segment] := List.map_append
  -- The segments before it stand inside the shorter name, which begins where the longer one does.
  have hinside := (h.inside.append (hlast.widen hmid le_rfl hlast.high_le)).widen le_rfl
    (le_max_left _ _) (hstop.trans hsegment.high_le)
  rw [← hchildren] at hinside
  exact hinside.around hplaced trivial hlow hstop hsegment.high_le

theorem MoreName.stands {name whole : DottedName} (h : MoreName name whole ts rest)
    (hname : Stands source start low [.path name]) (hts : Ahead source low ts) :
    ∃ high, Stands source start high [.path whole] ∧ Ahead source high rest := by
  induction h generalizing low with
  | done _ => exact ⟨low, hname, hts⟩
  | more _ _ _ ih =>
      obtain ⟨hdot, hts⟩ := hts.next
      obtain ⟨hsegment, hts⟩ := hts.name
      exact ih (hname.snoc_segment (hdot.append hsegment).bare) hts

theorem DottedName.Derives.stands {name : DottedName} (h : name.Derives ts rest)
    (hts : Ahead source low ts) :
    ∃ high, Stands source low high [.path name] ∧ Ahead source high rest := by
  obtain ⟨t, ts, rfl, -, hmore⟩ := h
  obtain ⟨ht, hts⟩ := hts.name
  exact hmore.stands (ht.whole rfl rfl (Span.through_self _).symm trivial) hts

theorem ImportName.Derives.stands {name : ImportName} (h : name.Derives ts rest)
    (hts : Ahead source low ts) :
    ∃ high, Stands source low high [.importName name] ∧ Ahead source high rest := by
  cases h with
  | plain hpath _ =>
      obtain ⟨high, hpath, hts⟩ := hpath.stands hts
      exact ⟨high, hpath.whole rfl rfl (Span.through_self _).symm trivial, hts⟩
  | renamed hpath _ _ =>
      obtain ⟨mid, hpath, hts⟩ := hpath.stands hts
      obtain ⟨ht, hts⟩ := hts.next
      obtain ⟨hname, hts⟩ := hts.name
      exact ⟨_, ((hpath.append ht).append hname).whole rfl rfl rfl trivial, hts⟩

theorem ImportNames.stands {names : List ImportName} (h : ImportNames names ts rest)
    (hts : Ahead source low ts) :
    ∃ high, Stands source low high (names.map .importName) ∧ Ahead source high rest := by
  induction h generalizing low with
  | last hname _ => exact hname.stands hts
  | more hname _ _ ih =>
      obtain ⟨mid, hname, hts⟩ := hname.stands hts
      obtain ⟨ht, hts⟩ := hts.next
      obtain ⟨high, hnames, hts⟩ := ih hts
      exact ⟨high, ((hname.append ht).append hnames).bare, hts⟩

theorem Params.stands {params : List Ident} (h : Params params ts rest)
    (hts : Ahead source low ts) :
    ∃ high, Stands source low high (params.map .ident) ∧ Ahead source high rest := by
  induction h generalizing low with
  | done _ => exact ⟨low, hts.nil, hts⟩
  | last _ _ => exact ⟨_, hts.name⟩
  | more _ _ _ ih =>
      obtain ⟨hname, hts⟩ := hts.name
      obtain ⟨ht, hts⟩ := hts.next
      obtain ⟨high, hparams, hts⟩ := ih hts
      exact ⟨high, ((hname.append ht).append hparams).bare, hts⟩

end names

section clauses

variable {source : String} {low mid high : Nat} {t : Token} {ts rest : List Token}

theorem Stretch.ofSides {first : Expr} {sides : List Expr}
    (hfirst : Stands source low mid [.expr first])
    (hsides : Stands source mid high (sides.map .expr)) :
    Stands source low high [.stmt (.ofSides first sides)] := by
  unfold Stmt.ofSides
  cases hlast : sides.getLast? with
  | none =>
      cases List.getLast?_eq_none_iff.mp hlast
      exact (hfirst.append hsides).whole rfl rfl (Span.through_self _).symm trivial
  | some value =>
      have hsplit := List.dropLast_append_getLast? value hlast
      refine (hfirst.append hsides).whole ?_ ?_ rfl trivial
      · change (first :: sides.dropLast).map TreePart.expr ++ [value].map TreePart.expr = _
        rw [← List.map_append, List.cons_append, hsplit]
        rfl
      · rw [List.map_map]
        exact (getLast?_cons_map Expr.span _ _).trans (by rw [hlast]; rfl)

theorem eq_append_of_span {p : Token → Bool} {skipped : List Token}
    (h : ts.span p = (skipped, rest)) : ts = skipped ++ rest := by
  rw [List.span_eq_takeWhile_dropWhile, Prod.mk.injEq] at h
  rw [← h.1, ← h.2, List.takeWhile_append_dropWhile]

theorem LineEnd.ahead (h : LineEnd ts rest) (hts : Ahead source low ts) :
    ∃ high, low ≤ high ∧ Ahead source high rest := by
  cases h with
  | newline _ =>
      obtain ⟨ht, hts⟩ := hts.next
      exact ⟨_, ht.row.le, hts⟩
  | block _ => exact ⟨low, le_rfl, hts⟩

theorem BlockEnd.ahead (h : BlockEnd ts rest) (hts : Ahead source low ts) :
    ∃ high, low ≤ high ∧ Ahead source high rest := by
  cases h with
  | dedent _ =>
      obtain ⟨ht, hts⟩ := hts.next
      exact ⟨_, ht.row.le, hts⟩
  | none _ => exact ⟨low, le_rfl, hts⟩

theorem Stretch.suite {colon : Token} {body : List Stmt}
    (hcolon : Stretch source low mid [colon.span] [])
    (hbody : Stands source mid high (body.map .stmt)) :
    Stands source low (Clause.suiteEnd body colon).stop (body.map .stmt) ∧
      (Clause.suiteEnd body colon).stop ≤ high := by
  have hlast : ([colon.span] ++ (body.map TreePart.stmt).map TreePart.span).getLast? =
      some (Clause.suiteEnd body colon) := by
    rw [List.map_map]
    exact getLast?_cons_map Stmt.span _ _
  obtain ⟨hclipped, hhigh⟩ := (hcolon.append hbody).clip hlast
  exact ⟨hclipped.bare, hhigh⟩

theorem Stretch.unsupported {form : UnsupportedForm} {a stop : Span}
    (h : Stretch source low a.stop [a] []) (hstop : a.stop ≤ stop.stop) (hhigh : stop.stop ≤ high)
    (hsize : high ≤ source.utf8ByteSize) :
    Stands source low high [.stmt (.unsupported form (a.through stop))] :=
  (h.widen le_rfl hstop (hhigh.trans hsize)).upTo rfl rfl trivial hhigh hsize

namespace Clause

/-- Reading the clause from `low` to `high` adds parts that stand there. A suite gives the span at
which it ends; the stretch that is read with decorators begins with the first token. -/
def Fits (source : String) (low high : Nat) (ts rest : List Token) : Clause → Prop
  | assigned es | targets es => Stands source low high (es.map .expr)
  | decorators es => ∃ spans, Stretch source low high spans (es.map .expr) ∧
      (spans ++ rest.map Token.span).head? = (ts.map Token.span).head?
  | simple s => Stands source low high [.stmt s]
  | moreSimple ss | line ss | block ss | stmt ss | whole ss =>
    Stands source low high (ss.map .stmt)
  | suite body stop => Stands source low stop.stop (body.map .stmt) ∧ stop.stop ≤ high
  | branches before stop => low ≤ high ∧
      (before.stop ≤ low → before.stop ≤ stop.stop ∧ stop.stop ≤ high)

theorem exists_head {α : Type} {front : List α} {a b : α} {rest : List α}
    (h : (front ++ b :: rest).head? = some a) : ∃ more, front ++ [b] = a :: more := by
  cases front with
  | nil =>
      cases h
      exact ⟨[], rfl⟩
  | cons c front =>
      cases h
      exact ⟨front ++ [b], rfl⟩

theorem Derives.fits {c : Clause} (h : c.Derives ts rest) (hts : Ahead source low ts) :
    ∃ high, c.Fits source low high ts rest ∧ Ahead source high rest := by
  induction h generalizing low with
  | assignedDone _ | simpleDone _ | blockDone _ | wholeDone => exact ⟨low, hts.nil, hts⟩
  | assignedMore _ hside _ ih =>
      obtain ⟨ht, hts⟩ := hts.next
      obtain ⟨mid, hside, hts⟩ := hside.fits hts
      obtain ⟨high, hsides, hts⟩ := ih hts
      exact ⟨high, ((ht.append hside).append hsides).bare, hts⟩
  | pass _ | breakLoop _ | continueLoop _ | giveBackNothing _ _ =>
      obtain ⟨ht, hts⟩ := hts.next
      exact ⟨_, ht.leaf rfl trivial, hts⟩
  | giveBack _ _ hvalue =>
      obtain ⟨ht, hts⟩ := hts.next
      obtain ⟨high, hvalue, hts⟩ := hvalue.fits hts
      exact ⟨high, (ht.append hvalue).whole rfl rfl rfl trivial, hts⟩
  | importNames _ hnames =>
      obtain ⟨ht, hts⟩ := hts.next
      obtain ⟨high, hnames, hts⟩ := hnames.stands hts
      refine ⟨high, (ht.append hnames).whole (TreePart.children_importNames _ _) ?_ rfl trivial,
        hts⟩
      rw [List.map_map]
      exact getLast?_cons_map ImportName.span _ _
  | importFrom _ hname _ hskipped =>
      obtain ⟨ht, hts⟩ := hts.next
      obtain ⟨mid, hname, hts⟩ := hname.stands hts
      obtain ⟨hu, hts⟩ := hts.next
      rw [eq_append_of_span hskipped] at hts
      obtain ⟨high, hskipped, hts⟩ := hts.pass
      have hlow := (hname.append hu).row.le
      exact ⟨high, (ht.append (hskipped.widen hlow le_rfl hts.low_le)).whole rfl
        (getLast?_cons_map Token.span _ _) rfl trivial, hts⟩
  | augAssign _ htarget _ hvalue =>
      obtain ⟨mid, htarget, hts⟩ := htarget.fits hts
      obtain ⟨ht, hts⟩ := hts.next
      obtain ⟨high, hvalue, hts⟩ := hvalue.fits hts
      exact ⟨high, ((htarget.append ht).append hvalue).whole rfl rfl rfl trivial, hts⟩
  | sides _ hfirst _ _ ih =>
      obtain ⟨mid, hfirst, hts⟩ := hfirst.fits hts
      obtain ⟨high, hsides, hts⟩ := ih hts
      exact ⟨high, hfirst.ofSides hsides, hts⟩
  | simpleSemi _ _ =>
      obtain ⟨ht, hts⟩ := hts.next
      exact ⟨_, ht.bare, hts⟩
  | simpleMore _ _ _ _ ihs ihss =>
      obtain ⟨ht, hts⟩ := hts.next
      obtain ⟨mid, hs, hts⟩ := ihs hts
      obtain ⟨high, hss, hts⟩ := ihss hts
      exact ⟨high, ((ht.append hs).append hss).bare, hts⟩
  | line _ _ hend ihs ihss =>
      obtain ⟨mid, hs, hts⟩ := ihs hts
      obtain ⟨mid', hss, hts⟩ := ihss hts
      obtain ⟨high, hhigh, hts⟩ := hend.ahead hts
      exact ⟨high, ((hs.append hss).widen le_rfl hhigh hts.low_le).bare, hts⟩
  | decoratorsDone _ => exact ⟨low, ⟨[], hts.nil, rfl⟩, hts⟩
  | decoratorsMore _ he _ _ ih =>
      obtain ⟨ht, hts⟩ := hts.next
      obtain ⟨mid, he, hts⟩ := he.fits hts
      obtain ⟨hu, hts⟩ := hts.next
      obtain ⟨high, ⟨spans, hes, -⟩, hts⟩ := ih hts
      exact ⟨high, ⟨_, ((ht.append he).append hu).append hes, rfl⟩, hts⟩
  | targetsLast he _ => exact he.fits hts
  | targetsMore he _ _ ih =>
      obtain ⟨mid, he, hts⟩ := he.fits hts
      obtain ⟨ht, hts⟩ := hts.next
      obtain ⟨high, hes, hts⟩ := ih hts
      exact ⟨high, ((he.append ht).append hes).bare, hts⟩
  | blockMore _ _ _ ihss ihmore | wholeMore _ _ _ ihss ihmore =>
      obtain ⟨mid, hss, hts⟩ := ihss hts
      obtain ⟨high, hmore, hts⟩ := ihmore hts
      have hall := (hss.append hmore).bare
      rw [← List.map_append] at hall
      exact ⟨high, hall, hts⟩
  | suiteBlock _ _ _ _ hend ih =>
      obtain ⟨hcolon, hts⟩ := hts.next
      obtain ⟨ht, hts⟩ := hts.next
      obtain ⟨hu, hts⟩ := hts.next
      obtain ⟨mid, hbody, hts⟩ := ih hts
      obtain ⟨high, hhigh, hts⟩ := hend.ahead hts
      obtain ⟨hbody, hstop⟩ := hcolon.suite ((ht.append hu).append hbody).bare
      exact ⟨high, ⟨hbody, hstop.trans hhigh⟩, hts⟩
  | suiteLine _ _ _ ih =>
      obtain ⟨hcolon, hts⟩ := hts.next
      obtain ⟨high, hbody, hts⟩ := ih hts
      exact ⟨high, hcolon.suite hbody, hts⟩
  | branchesDone _ => exact ⟨low, ⟨le_rfl, fun hbefore => ⟨le_rfl, hbefore⟩⟩, hts⟩
  | branchesMore _ htest _ _ ihbody ihmore =>
      obtain ⟨ht, hts⟩ := hts.next
      obtain ⟨mid, htest, hts⟩ := htest.fits hts
      obtain ⟨mid', ⟨hbody, hbetween⟩, hts⟩ := ihbody hts
      obtain ⟨high, ⟨hhigh, hstop⟩, hts⟩ := ihmore hts
      obtain ⟨hstop, hhigh'⟩ := hstop hbetween
      have hlow := ((ht.append htest).append hbody).row.le
      exact ⟨high, ⟨by omega, fun _ => ⟨by omega, hhigh'⟩⟩, hts⟩
  | define _ _ _ _ _ hparams _ _ ihmarks ihbody =>
      obtain ⟨mid, ⟨spans, hmarks, hhead⟩, hts⟩ := ihmarks hts
      obtain ⟨hkw, hts⟩ := hts.next
      obtain ⟨hname, hts⟩ := hts.name
      obtain ⟨hopening, hts⟩ := hts.next
      obtain ⟨mid', hparams, hts⟩ := hparams.stands hts
      obtain ⟨hclose, hts⟩ := hts.next
      obtain ⟨high, ⟨hbody, hstop⟩, hts⟩ := ihbody hts
      -- The definition begins with the first decorator, or with `def` if there is none.
      obtain ⟨more, hmore⟩ := exists_head hhead
      have hfront := hmarks.snoc hkw
      rw [hmore] at hfront
      have hhead := (((hfront.append hname).snoc hopening).append hparams).snoc hclose
      refine ⟨high, (hhead.append hbody).upTo ?_ rfl trivial hstop hts.low_le, hts⟩
      simp [TreePart.children, TreePart.ofStmt]
  | whileLoop _ htest _ _ ih =>
      obtain ⟨ht, hts⟩ := hts.next
      obtain ⟨mid, htest, hts⟩ := htest.fits hts
      obtain ⟨high, ⟨hbody, hstop⟩, hts⟩ := ih hts
      exact ⟨high, ((ht.append htest).append hbody).upTo rfl rfl trivial hstop hts.low_le, hts⟩
  | conditional _ htest _ _ _ ihbody ihbranches =>
      obtain ⟨ht, hts⟩ := hts.next
      obtain ⟨mid, htest, hts⟩ := htest.fits hts
      obtain ⟨mid', ⟨hbody, hbetween⟩, hts⟩ := ihbody hts
      obtain ⟨high, ⟨-, hstop⟩, hts⟩ := ihbranches hts
      obtain ⟨hstop, hhigh⟩ := hstop hbetween
      have hlow := (htest.append hbody).row.le
      exact ⟨high, ht.unsupported (hlow.trans hstop) hhigh hts.low_le, hts⟩
  | conditionalElse _ htest _ _ _ _ ihbody ihbranches ihotherwise =>
      obtain ⟨ht, hts⟩ := hts.next
      obtain ⟨mid, htest, hts⟩ := htest.fits hts
      obtain ⟨mid', ⟨hbody, hbetween⟩, hts⟩ := ihbody hts
      obtain ⟨mid'', ⟨hmid, -⟩, hts⟩ := ihbranches hts
      obtain ⟨hu, hts⟩ := hts.next
      obtain ⟨high, ⟨hotherwise, hstop⟩, hts⟩ := ihotherwise hts
      have hlow := (htest.append hbody).row.le
      have hlast := (hu.append hotherwise).row.le
      exact ⟨high, ht.unsupported (by omega) hstop hts.low_le, hts⟩
  | iteration _ _ _ hsource _ ihes ihbody =>
      obtain ⟨ht, hts⟩ := hts.next
      obtain ⟨mid, hes, hts⟩ := ihes hts
      obtain ⟨hu, hts⟩ := hts.next
      obtain ⟨mid', hsource, hts⟩ := hsource.fits hts
      obtain ⟨high, ⟨hbody, hstop⟩, hts⟩ := ihbody hts
      have hlow := (((hes.append hu).append hsource).append hbody).row.le
      exact ⟨high, ht.unsupported hlow hstop hts.low_le, hts⟩
  | classDefinition _ _ _ _ ih =>
      obtain ⟨ht, hts⟩ := hts.next
      obtain ⟨hname, hts⟩ := hts.next
      obtain ⟨high, ⟨hbody, hstop⟩, hts⟩ := ih hts
      exact ⟨high, ht.unsupported (hname.append hbody).row.le hstop hts.low_le, hts⟩
  | classWithParents _ _ _ hparents _ _ ih =>
      obtain ⟨ht, hts⟩ := hts.next
      obtain ⟨hname, hts⟩ := hts.next
      obtain ⟨hopening, hts⟩ := hts.next
      obtain ⟨mid, hparents, hts⟩ := hparents.fits hts
      obtain ⟨hclose, hts⟩ := hts.next
      obtain ⟨high, ⟨hbody, hstop⟩, hts⟩ := ih hts
      have hlow := ((((hname.append hopening).append hparents).append hclose).append hbody).row.le
      exact ⟨high, ht.unsupported hlow hstop hts.low_le, hts⟩
  | stmtLine _ _ ih => exact ih hts
  | wholeNewline _ _ ih =>
      obtain ⟨ht, hts⟩ := hts.next
      obtain ⟨high, hss, hts⟩ := ih hts
      exact ⟨high, (ht.append hss).bare, hts⟩

end Clause

end clauses

section layout

variable {source : String} {low low' : Nat} {t : Token} {ts out marked : List Token}

theorem Ahead.lower (h : Ahead source low ts) (hlow : low' ≤ low) : Ahead source low' ts :=
  ⟨h.row.widen hlow le_rfl, h.placed⟩

theorem Ahead.cons (h : Ahead source low (t :: ts)) (hout : Ahead source t.span.stop out) :
    Ahead source t.span.start (t :: out) := by
  cases h.row with
  | cons _ ht _ =>
      exact ⟨.cons le_rfl ht hout.row,
        List.forall_mem_cons.mpr ⟨h.placed t List.mem_cons_self, hout.placed⟩⟩

/-- Marks without text stand where the next token begins. -/
theorem Ahead.marks {a : Span} (hmarked : ∀ t ∈ marked, t.span = a.collapse)
    (ha : a.Placed (.ofString source)) (hlow : low ≤ a.start) (h : Ahead source a.start ts) :
    Ahead source low (marked ++ ts) := by
  induction marked generalizing low with
  | nil => exact h.lower hlow
  | cons t marked ih =>
      obtain ⟨ht, hmarked⟩ := List.forall_mem_cons.mp hmarked
      have hrest := ih hmarked le_rfl
      refine ⟨?_, List.forall_mem_cons.mpr ⟨ht ▸ ha, hrest.placed⟩⟩
      rw [List.cons_append, List.map_cons, ht]
      exact .cons hlow le_rfl hrest.row

namespace Layout

theorem span_of_indentation {indents left : List Nat}
    (h : indentation indents t = .ok (marked, left)) :
    ∀ mark ∈ marked, mark.span = t.span.collapse := by
  unfold indentation at h
  dsimp only at h
  split at h
  · cases h
    simp [mark]
  split at h
  · cases h
    intro t ht
    obtain ⟨_, -, rfl⟩ := List.mem_map.mp ht
    rfl
  · cases h

theorem span_of_closing {eof : Span} (layout : Layout) :
    ∀ mark ∈ layout.closing eof, mark.span = eof.collapse := by
  simp only [closing, List.forall_mem_append]
  constructor
  · split <;> simp [mark]
  · simp [mark]

theorem ahead_of_tokensFrom {layout : Layout} (h : Ahead source low ts)
    (hout : tokensFrom ((LineIndex.ofString source).span source.utf8ByteSize source.utf8ByteSize)
      layout ts = .ok out) : Ahead source low out := by
  induction ts generalizing layout low out with
  | nil =>
      cases hout
      have hend : Ahead source source.utf8ByteSize [] := ⟨.nil le_rfl, by simp⟩
      rw [← List.append_nil (layout.closing _)]
      exact hend.marks (span_of_closing layout) rfl h.low_le
  | cons t ts ih =>
      obtain ⟨ht, hts⟩ := h.next
      have hlow : low ≤ t.span.start := (ht.row.bounds List.mem_cons_self).1
      have hplaced := ht.placed _ List.mem_cons_self
      rw [tokensFrom] at hout
      split at hout
      · split at hout
        · obtain ⟨tail, htail, hout⟩ := exists_of_bind_eq_ok hout
          cases hout
          exact (h.cons (ih hts htail)).lower hlow
        · exact (ih hts hout).lower ht.row.le
      · dsimp only at hout
        split at hout
        · obtain ⟨⟨marked, indents⟩, hmarked, hout⟩ := exists_of_bind_eq_ok hout
          obtain ⟨tail, htail, hout⟩ := exists_of_bind_eq_ok hout
          cases hout
          exact (h.cons (ih hts htail)).marks (span_of_indentation hmarked) hplaced hlow
        · obtain ⟨_, ⟨⟩, hout⟩ := exists_of_bind_eq_ok hout
          obtain ⟨tail, htail, hout⟩ := exists_of_bind_eq_ok hout
          cases hout
          exact (h.cons (ih hts htail)).lower hlow

end Layout

theorem ahead_scan (source : String) : Ahead source 0 (scan source) := by
  have hrow := (Scan.cut_scan source).row
  rw [width, String.ofList_toList, Nat.zero_add] at hrow
  exact ⟨hrow, (Scan.cut_scan source).placed⟩

theorem ahead_of_lex (h : lex source = .ok out) : Ahead source 0 out :=
  Layout.ahead_of_tokensFrom (ahead_scan source) h

end layout

section modules

variable {source : String} {m : Module}

/-- The span of the part lies in the source and begins at its line and column. The spans of its
children lie inside it, apart from one another and in the order of the source. -/
structure TreePart.Nested (source : String) (part : TreePart) : Prop where
  start_le_stop : part.span.start ≤ part.span.stop
  stop_le : part.span.stop ≤ source.utf8ByteSize
  placed : (part.span.line, part.span.column) =
    (LineIndex.ofString source).lineColumn part.span.start
  inside : ∀ child ∈ part.children,
    part.span.start ≤ child.span.start ∧ child.span.stop ≤ part.span.stop
  ordered : part.children.Pairwise fun a b => a.span.stop ≤ b.span.start

theorem TreePart.Sound.nested {part : TreePart} (h : part.Sound source) : part.Nested source where
  start_le_stop := h.row.le
  stop_le := h.stop_le
  placed := h.placed
  inside := fun _ hchild =>
    have hbounds := h.row.bounds (List.mem_map_of_mem hchild)
    ⟨hbounds.1, hbounds.2.2⟩
  ordered := List.pairwise_map.mp h.row.pairwise

theorem Clause.Derives.whole_nil {ss : List Stmt} {rest : List Token}
    (h : (whole ss).Derives [] rest) : ss = [] := by
  cases h with
  | wholeDone => rfl
  | wholeMore hts _ _ => exact absurd rfl hts.1

theorem stop_endSpan (source : String) (t : Token) (ts : List Token) :
    (endSpan source (t :: ts)).stop = source.utf8ByteSize := by
  rw [endSpan, List.getLast?_cons]

theorem stands_of_parseModule (h : parseModule source = .ok m) :
    Stands source m.span.start m.span.stop (m.body.map .stmt) := by
  obtain ⟨tokens, hlex, hparse⟩ := exists_of_bind_eq_ok h
  have hahead := ahead_of_lex hlex
  have hderives := derives_of_parseTokens hparse
  obtain ⟨-, -, hspan⟩ := exists_of_parseTokens hparse
  cases tokens with
  | nil =>
      rw [hspan, hderives.whole_nil]
      exact .nil le_rfl (Nat.zero_le _)
  | cons t ts =>
      obtain ⟨high, hbody, hend⟩ := hderives.fits (hahead.cons hahead.next.2)
      have hstop : m.span.stop = source.utf8ByteSize := by
        rw [hspan, Span.stop_through, stop_endSpan]
        exact max_eq_left hahead.next.2.low_le
      rw [hstop, hspan]
      exact hbody.widen le_rfl hend.low_le le_rfl

theorem sound_of_contains {part : TreePart} (h : parseModule source = .ok m)
    (hpart : m.Contains part) : part.Sound source :=
  (hpart.everywhere fun _ hs =>
    (stands_of_parseModule h).sound _ (List.mem_map_of_mem hs)).here

/-- Every part of a module that is read lies in the source, at the line and column it gives, and
holds its children, which follow one another. So do the statements of the module. -/
theorem nested_of_parseModule (h : parseModule source = .ok m) :
    (∀ part, m.Contains part → part.Nested source) ∧
      (∀ s ∈ m.body, m.span.start ≤ s.span.start ∧ s.span.stop ≤ m.span.stop) ∧
      m.body.Pairwise fun s s' => s.span.stop ≤ s'.span.start := by
  have hbody := stands_of_parseModule h
  refine ⟨fun part hpart => (sound_of_contains h hpart).nested, fun s hs => ?_, ?_⟩
  · have hbounds := hbody.row.bounds (List.mem_map_of_mem (List.mem_map_of_mem hs))
    exact ⟨hbounds.1, hbounds.2.2⟩
  · exact List.pairwise_map.mp (List.pairwise_map.mp hbody.row.pairwise)

def nestedSource : String :=
  "@f(a, b=-1)\ndef g(x):\n    while x < (1, 2)[0]:\n        y = z = x.k; pass\n"

theorem nested_of_parseModule_decorated :
    ∃ m, parseModule nestedSource = .ok m ∧ m.body.map Stmt.span = [⟨0, 72, 1, 0⟩] ∧
      (∀ part, m.Contains part → part.Nested nestedSource) ∧
      (∀ s ∈ m.body, m.span.start ≤ s.span.start ∧ s.span.stop ≤ m.span.stop) ∧
      m.body.Pairwise fun s s' => s.span.stop ≤ s'.span.start := by
  have hcheck : (parseModule nestedSource).toOption.any (fun m =>
      m.body.map Stmt.span = [⟨0, 72, 1, 0⟩]) = true := by
    decide +kernel
  cases hm : parseModule nestedSource with
  | error e => simp [hm, Except.toOption] at hcheck
  | ok m => exact ⟨m, rfl, by simpa [hm, Except.toOption] using hcheck, nested_of_parseModule hm⟩

end modules

end P16
