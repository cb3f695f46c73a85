import P16.Proofs.StmtGrammarComplete

/-!
# Tokens are read from the front

What remains of the tokens after a phrase or a clause is their end. With the number of tokens that a
rule takes at least, this says how far a parser has come when it succeeds.
-/

namespace P16

section suffixes

variable {ts rest : List Token}

@[grind →]
theorem suffix_of_cons_suffix {t : Token} (h : t :: rest <:+ ts) : rest <:+ ts :=
  (List.suffix_cons t rest).trans h

@[grind ←]
theorem suffix_cons_of_suffix (t : Token) (h : rest <:+ ts) : rest <:+ t :: ts :=
  h.trans (List.suffix_cons t ts)

theorem MoreText.suffix {value : String} {span : Span} {e : Expr}
    (h : MoreText value span e ts rest) : rest <:+ ts := by
  induction h with
  | done _ => exact List.suffix_rfl
  | more _ _ _ ih => exact suffix_cons_of_suffix _ ih

theorem CompareOp.Derives.suffix {op : CompareOp} (h : op.Derives ts rest) : rest <:+ ts := by
  cases h with
  | sign _ | is _ _ => exact List.suffix_cons _ _
  | notIn _ _ | isNot _ _ => exact suffix_cons_of_suffix _ (List.suffix_cons _ _)

@[grind →]
theorem Phrase.Derives.suffix {p : Phrase} (h : p.Derives ts rest) : rest <:+ ts := by
  induction h with
  | linksMore hop _ _ ihe ihmore => exact ihmore.trans (ihe.trans hop.suffix)
  | text _ _ hmore => exact suffix_cons_of_suffix _ hmore.suffix
  | _ => grind [List.IsSuffix.trans]

theorem MoreName.suffix {name whole : DottedName} (h : MoreName name whole ts rest) :
    rest <:+ ts := by
  induction h with
  | done _ => exact List.suffix_rfl
  | more _ _ _ ih => exact suffix_cons_of_suffix _ (suffix_cons_of_suffix _ ih)

@[grind →]
theorem DottedName.Derives.suffix {name : DottedName} (h : name.Derives ts rest) :
    rest <:+ ts := by
  obtain ⟨t, ts', rfl, -, hmore⟩ := h
  exact suffix_cons_of_suffix t hmore.suffix

theorem ImportName.Derives.suffix {name : ImportName} (h : name.Derives ts rest) :
    rest <:+ ts := by
  cases h with
  | plain hpath _ => exact hpath.suffix
  | renamed hpath _ _ => exact suffix_of_cons_suffix (suffix_of_cons_suffix hpath.suffix)

@[grind →]
theorem ImportNames.suffix {names : List ImportName} (h : ImportNames names ts rest) :
    rest <:+ ts := by
  induction h with
  | last hname _ => exact hname.suffix
  | more hname _ _ ih => exact ih.trans (suffix_of_cons_suffix hname.suffix)

@[grind →]
theorem Params.suffix {params : List Ident} (h : Params params ts rest) : rest <:+ ts := by
  induction h with
  | done _ => exact List.suffix_rfl
  | last _ _ => exact List.suffix_cons _ _
  | more _ _ _ ih => exact suffix_cons_of_suffix _ (suffix_cons_of_suffix _ ih)

@[grind →]
theorem LineEnd.suffix (h : LineEnd ts rest) : rest <:+ ts := by
  cases h with
  | newline _ => exact List.suffix_cons _ _
  | block _ => exact List.suffix_rfl

@[grind →]
theorem BlockEnd.suffix (h : BlockEnd ts rest) : rest <:+ ts := by
  cases h with
  | dedent _ => exact List.suffix_cons _ _
  | none _ => exact List.suffix_rfl

@[grind →]
theorem suffix_of_span {p : Token → Bool} {skipped : List Token}
    (h : ts.span p = (skipped, rest)) : rest <:+ ts := by
  rw [List.span_eq_takeWhile_dropWhile, Prod.mk.injEq] at h
  rw [← h.2]
  exact List.dropWhile_suffix p

theorem Clause.Derives.suffix {c : Clause} (h : c.Derives ts rest) : rest <:+ ts := by
  induction h with
  | _ => grind [List.IsSuffix.trans]

end suffixes

end P16
