import P16.Proofs.FailurePlaces
import P16.Proofs.Tiling

/-!
# Parts of a tree

A tree has parts at every depth, each with a span. `Stretch` says of a stretch of the source which
spans follow one another there, and which parts stand on some of them. Stretches are put together
end to end, and a part is put over the parts it consists of.
-/

namespace P16

/-- A node of a tree, or the path of an imported name. -/
inductive TreePart where
  | node (node : Node)
  | path (name : DottedName)

namespace TreePart

abbrev stmt (s : Stmt) : TreePart := node (.stmt s)

abbrev expr (e : Expr) : TreePart := node (.expr e)

abbrev keyword (k : Keyword Expr) : TreePart := node (.keyword k)

abbrev importName (name : ImportName) : TreePart := node (.importName name)

abbrev ident (name : Ident) : TreePart := node (.ident name)

def span : TreePart → Span
  | node n => n.span
  | path name => name.span

/-- The parts of a statement, in the order in which they are written, with the statements of its
body. -/
def ofStmt : Stmt → List TreePart
  | .assign targets value _ => targets.map expr ++ [expr value]
  | .define name params decorators body _ =>
    decorators.map expr ++ (ident name :: (params.map ident ++ body.map stmt))
  | .whileLoop test body _ => expr test :: body.map stmt
  | s => (Node.ofStmt s).map node

/-- The parts just below a part, in the order in which they are written. -/
def children : TreePart → List TreePart
  | node (.stmt s) => ofStmt s
  | node (.importName name) => path name.path :: name.newName?.toList.map ident
  | node n => n.parts.map node
  | path name => name.segments.map ident

/-- A number is one that a literal can denote. -/
def Bounded : TreePart → Prop
  | node (.expr (.number n _)) => 0 ≤ n ∧ n ≤ Literal.maxInteger
  | _ => True

/-- What holds of a part that was read from the source: its span lies in the source and begins where
it says, its children follow one another inside it, and a number is in range. -/
structure Sound (source : String) (part : TreePart) : Prop where
  placed : part.span.Placed (.ofString source)
  row : Span.Row part.span.start part.span.stop (part.children.map span)
  stop_le : part.span.stop ≤ source.utf8ByteSize
  bounded : part.Bounded

/-- The property holds of the part and of all parts below it. -/
inductive Everywhere (P : TreePart → Prop) : TreePart → Prop where
  | intro {part : TreePart} (h : P part)
      (hchildren : ∀ child ∈ part.children, Everywhere P child) : Everywhere P part

variable {P : TreePart → Prop} {part : TreePart}

theorem Everywhere.here (h : part.Everywhere P) : P part := by
  cases h with
  | intro h _ => exact h

theorem Everywhere.children (h : part.Everywhere P) :
    ∀ child ∈ part.children, child.Everywhere P := by
  cases h with
  | intro _ hchildren => exact hchildren

section children

variable (span : Span)

theorem children_tuple (items : List Expr) :
    (expr (.tuple items span)).children = items.map expr :=
  List.map_map

theorem children_list (items : List Expr) :
    (expr (.list items span)).children = items.map expr :=
  List.map_map

theorem children_dict (entries : List (Expr × Expr)) :
    (expr (.dict entries span)).children =
      (entries.flatMap fun entry => [entry.1, entry.2]).map expr :=
  List.map_map

theorem children_call (callee : Expr) (args : List Expr) (keywords : List (Keyword Expr)) :
    (expr (.call callee args keywords span)).children =
      expr callee :: (args.map expr ++ keywords.map keyword) := by
  simp only [children, Node.parts, Node.ofExpr, List.map_append, List.map_cons, List.map_map]
  rfl

theorem children_compare (left : Expr) (links : List (CompareOp × Expr)) :
    (expr (.compare left links span)).children =
      expr left :: (links.map Prod.snd).map expr := by
  simp only [children, Node.parts, Node.ofExpr, List.map_cons, List.map_map]
  rfl

theorem children_importNames (names : List ImportName) :
    (stmt (.importNames names span)).children = names.map importName :=
  List.map_map

end children

end TreePart

/-- The part stands in the module, at any depth. -/
inductive Module.Contains (m : Module) : TreePart → Prop where
  | stmt {s : Stmt} (h : s ∈ m.body) : Contains m (.stmt s)
  | child {part child : TreePart} (hpart : Contains m part) (h : child ∈ part.children) :
      Contains m child

theorem Module.Contains.everywhere {m : Module} {P : TreePart → Prop} {part : TreePart}
    (h : m.Contains part) (hm : ∀ s ∈ m.body, (TreePart.stmt s).Everywhere P) :
    part.Everywhere P := by
  induction h with
  | stmt hs => exact hm _ hs
  | child _ hchild ih => exact ih.children _ hchild

/-- Between the bytes `low` and `high` of the source these spans follow one another, and these parts
stand on some of them. -/
structure Stretch (source : String) (low high : Nat) (spans : List Span) (parts : List TreePart) :
    Prop where
  row : Span.Row low high spans
  placed : ∀ a ∈ spans, a.Placed (.ofString source)
  parts_sublist : (parts.map TreePart.span).Sublist spans
  sound : ∀ part ∈ parts, part.Everywhere (TreePart.Sound source)
  high_le : high ≤ source.utf8ByteSize

theorem Span.Row.sublist {low high : Nat} {spans some : List Span} (h : Row low high spans)
    (hsome : some.Sublist spans) : Row low high some := by
  induction hsome generalizing low with
  | slnil => exact h
  | cons a _ ih =>
      cases h with
      | cons hlow ha hrest => exact (ih hrest).widen (hlow.trans ha) le_rfl
  | cons_cons a _ ih =>
      cases h with
      | cons hlow ha hrest => exact .cons hlow ha (ih hrest)

theorem Span.Row.clip {low high : Nat} {spans : List Span} {b : Span} (h : Row low high spans)
    (hb : spans.getLast? = some b) : Row low b.stop spans := by
  induction h with
  | nil => cases hb
  | @cons low high a rest hlow ha _ ih =>
      cases rest with
      | nil =>
          cases hb
          exact .cons hlow ha (.nil le_rfl)
      | cons c rest =>
          rw [List.getLast?_cons_cons] at hb
          exact .cons hlow ha (ih hb)

/-- The parts follow one another between the bytes `low` and `high`. -/
abbrev Stands (source : String) (low high : Nat) (parts : List TreePart) : Prop :=
  Stretch source low high (parts.map TreePart.span) parts

namespace Stretch

variable {source : String} {low mid high : Nat} {a b : Span} {spans more : List Span}
  {part : TreePart} {parts others : List TreePart}

theorem nil (h : low ≤ high) (hhigh : high ≤ source.utf8ByteSize) :
    Stretch source low high [] [] :=
  ⟨.nil h, by simp, .slnil, by simp, hhigh⟩

theorem widen {low' high' : Nat} (h : Stretch source low high spans parts) (hlow : low' ≤ low)
    (hhigh : high ≤ high') (hsize : high' ≤ source.utf8ByteSize) :
    Stretch source low' high' spans parts :=
  ⟨h.row.widen hlow hhigh, h.placed, h.parts_sublist, h.sound, hsize⟩

theorem append (h : Stretch source low mid spans parts)
    (hmore : Stretch source mid high more others) :
    Stretch source low high (spans ++ more) (parts ++ others) where
  row := h.row.append hmore.row
  placed := List.forall_mem_append.mpr ⟨h.placed, hmore.placed⟩
  parts_sublist := by
    rw [List.map_append]
    exact h.parts_sublist.append hmore.parts_sublist
  sound := List.forall_mem_append.mpr ⟨h.sound, hmore.sound⟩
  high_le := hmore.high_le

theorem snoc (h : Stretch source low mid spans parts) (ha : Stretch source mid high [a] []) :
    Stretch source low high (spans ++ [a]) parts := by
  simpa using h.append ha

theorem join (ha : Stretch source low mid [a] []) (hb : Stretch source mid high [b] []) :
    Stretch source low high [a.through b] [] := by
  obtain ⟨hlow, hle, hmid⟩ := ha.row.bounds List.mem_cons_self
  obtain ⟨-, -, hhigh⟩ := hb.row.bounds List.mem_cons_self
  have hplaced : (a.through b).Placed (.ofString source) := ha.placed a List.mem_cons_self
  have hstop : (a.through b).stop ≤ high := max_le hhigh (hmid.trans hb.row.le)
  exact ⟨.cons hlow (hle.trans (le_max_right _ _)) (.nil hstop), by simpa using hplaced,
    List.nil_sublist _, by simp, hb.high_le⟩

theorem bare (h : Stretch source low high spans parts) : Stands source low high parts where
  row := h.row.sublist h.parts_sublist
  placed := fun a ha => h.placed a (h.parts_sublist.subset ha)
  parts_sublist := .refl _
  sound := h.sound
  high_le := h.high_le

theorem around (h : Stretch source part.span.start part.span.stop spans part.children)
    (hplaced : part.span.Placed (.ofString source)) (hbounded : part.Bounded)
    (hlow : low ≤ part.span.start) (hhigh : part.span.stop ≤ high)
    (hsize : high ≤ source.utf8ByteSize) : Stands source low high [part] := by
  have hsound : part.Sound source := ⟨hplaced, h.bare.row, hhigh.trans hsize, hbounded⟩
  exact ⟨.cons hlow h.row.le (.nil hhigh), by simpa using hplaced, .refl _,
    by simpa using .intro hsound h.sound, hsize⟩

/-- A part that spans from the first token or part it consists of to the end of `b`. -/
theorem upTo (h : Stretch source low b.stop (a :: spans) parts) (hchildren : part.children = parts)
    (hspan : part.span = a.through b) (hbounded : part.Bounded) (hhigh : b.stop ≤ high)
    (hsize : high ≤ source.utf8ByteSize) : Stands source low high [part] := by
  subst hchildren
  obtain ⟨-, -, hab⟩ := h.row.bounds List.mem_cons_self
  have hstart : part.span.start = a.start := by rw [hspan, Span.start_through]
  have hstop : part.span.stop = b.stop := by rw [hspan, Span.stop_through, max_eq_left hab]
  have hplaced : part.span.Placed (.ofString source) := by
    rw [hspan]
    exact h.placed a List.mem_cons_self
  cases h.row with
  | cons hlow ha hrest =>
      have hinner : Stretch source part.span.start part.span.stop (a :: spans) part.children :=
        ⟨.cons hstart.le ha (hrest.widen le_rfl hstop.ge), h.placed, h.parts_sublist, h.sound,
          hstop ▸ h.high_le⟩
      exact hinner.around hplaced hbounded (hstart ▸ hlow) (hstop ▸ hhigh) hsize

/-- What stands in the stretch stands before the end of its last span. -/
theorem clip (h : Stretch source low high spans parts) (hb : spans.getLast? = some b) :
    Stretch source low b.stop spans parts ∧ b.stop ≤ high := by
  have hhigh : b.stop ≤ high := (h.row.bounds (List.mem_of_getLast? hb)).2.2
  exact ⟨⟨h.row.clip hb, h.placed, h.parts_sublist, h.sound, hhigh.trans h.high_le⟩, hhigh⟩

theorem whole (h : Stretch source low high (a :: spans) parts) (hchildren : part.children = parts)
    (hb : (a :: spans).getLast? = some b) (hspan : part.span = a.through b)
    (hbounded : part.Bounded) : Stands source low high [part] := by
  obtain ⟨hclipped, hhigh⟩ := h.clip hb
  exact hclipped.upTo hchildren hspan hbounded hhigh h.high_le

theorem closed (h : Stretch source low mid (a :: spans) parts) (hb : Stretch source mid high [b] [])
    (hchildren : part.children = parts) (hspan : part.span = a.through b)
    (hbounded : part.Bounded) : Stands source low high [part] := by
  have hlast : (a :: spans ++ [b]).getLast? = some b := List.getLast?_concat
  exact (h.snoc hb).whole hchildren hlast hspan hbounded

theorem leaf (h : Stretch source low high [part.span] []) (hchildren : part.children = [])
    (hbounded : part.Bounded) : Stands source low high [part] :=
  h.whole hchildren rfl part.span.through_self.symm hbounded

theorem inside (h : Stands source low high [part]) :
    Stands source part.span.start part.span.stop part.children := by
  have hpart := h.sound part List.mem_cons_self
  refine ⟨hpart.here.row, fun a ha => ?_, .refl _, hpart.children, hpart.here.stop_le⟩
  obtain ⟨child, hchild, rfl⟩ := List.mem_map.mp ha
  exact (hpart.children child hchild).here.placed

theorem opened (h : Stands source low high [part]) : Stands source low high part.children := by
  obtain ⟨hlow, -, hhigh⟩ := h.row.bounds List.mem_cons_self
  exact h.inside.widen hlow hhigh h.high_le

end Stretch

section tokens

/-- The tokens that are left follow one another from the byte `low` on. -/
structure Ahead (source : String) (low : Nat) (ts : List Token) : Prop where
  row : Span.Row low source.utf8ByteSize (ts.map Token.span)
  placed : ∀ t ∈ ts, t.span.Placed (.ofString source)

variable {source : String} {low : Nat} {t : Token} {ts rest : List Token}

theorem Ahead.next (h : Ahead source low (t :: ts)) :
    Stretch source low t.span.stop [t.span] [] ∧ Ahead source t.span.stop ts := by
  obtain ⟨hplaced, hrest⟩ := List.forall_mem_cons.mp h.placed
  cases h.row with
  | cons hlow ht hrow =>
      have hplaced : ∀ a ∈ [t.span], a.Placed (.ofString source) := by simpa using hplaced
      exact ⟨⟨.cons hlow ht (.nil le_rfl), hplaced, List.nil_sublist _, by simp, hrow.le⟩, hrow,
        hrest⟩

theorem Ahead.low_le (h : Ahead source low ts) : low ≤ source.utf8ByteSize := h.row.le

theorem Ahead.nil (h : Ahead source low ts) : Stretch source low low [] [] :=
  .nil le_rfl h.low_le

theorem Ahead.pass {front : List Token} (h : Ahead source low (front ++ rest)) :
    ∃ high, Stretch source low high (front.map Token.span) [] ∧ Ahead source high rest := by
  induction front generalizing low with
  | nil => exact ⟨low, h.nil, h⟩
  | cons t front ih =>
      obtain ⟨ht, h⟩ := h.next
      obtain ⟨high, hfront, h⟩ := ih h
      exact ⟨high, ht.append hfront, h⟩

end tokens

end P16
