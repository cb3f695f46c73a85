import Mathlib.Data.List.Infix
import Mathlib.Logic.Relation
import P16.Proofs.ClosedOutput
import P16.Proofs.ParsedNames

/-!
# When two names share a label

The label of a name is the name with the parts of its module in front, joined by two underscores.
Names may have underscores of their own, so a label can be read in several ways, and names of
different modules can get the same label. This happens exactly if the pieces of both can be merged
to the same pieces. It does not happen among names in which no two underscores meet.
-/

namespace P16

namespace FunctionKey

variable (key key' : FunctionKey)

/-- The pieces that are joined to the label of the name. -/
def pieces : List String := key.path.segments ++ [key.name]

theorem pieces_injective : Function.Injective pieces := by
  rintro ⟨⟨segments⟩, name⟩ ⟨⟨segments'⟩, name'⟩ h
  obtain ⟨rfl, hname⟩ := List.append_inj' h rfl
  cases hname
  rfl

theorem pieces_ne_nil : key.pieces ≠ [] := by simp [pieces]

theorem mem_segments {before after : List String} {piece : String}
    (h : key.pieces = before ++ piece :: after) (ha : after ≠ []) :
    piece ∈ key.path.segments := by
  have hsegments : key.path.segments = (before ++ piece :: after).dropLast := by
    rw [← h, pieces, List.dropLast_concat]
  rw [hsegments, List.dropLast_append_of_ne_nil (List.cons_ne_nil _ _),
    List.dropLast_cons_of_ne_nil ha]
  simp

/-- No two underscores meet in a piece or at the end of a part of the module. -/
structure Plain : Prop where
  pieces : ∀ piece ∈ key.pieces, ¬ "__".toList <:+: piece.toList
  segments : ∀ piece ∈ key.path.segments, ¬ "_".toList <:+ piece.toList

instance : Decidable key.Plain :=
  decidable_of_iff ((∀ piece ∈ key.pieces, ¬ "__".toList <:+: piece.toList) ∧
      ∀ piece ∈ key.path.segments, ¬ "_".toList <:+ piece.toList)
    ⟨fun h => ⟨h.1, h.2⟩, fun h => ⟨h.pieces, h.segments⟩⟩

end FunctionKey

/-- Two neighbours become one piece, with two underscores inside. -/
inductive Merges : List String → List String → Prop where
  | merge (before : List String) (x y : String) (after : List String) :
      Merges (before ++ x :: y :: after) (before ++ (x ++ "__" ++ y) :: after)

theorem Merges.intercalate_eq {pieces merged : List String} (h : Merges pieces merged) :
    "__".intercalate pieces = "__".intercalate merged := by
  obtain ⟨before, x, y, after⟩ := h
  have hafter :
      "__".intercalate (x :: y :: after) = "__".intercalate ((x ++ "__" ++ y) :: after) := by
    cases after with
    | nil => simp only [String.intercalate_cons_cons, String.intercalate_singleton]
    | cons z after => simp only [String.intercalate_cons_cons, String.append_assoc]
  rcases eq_or_ne before [] with rfl | hbefore
  · exact hafter
  · rw [String.intercalate_append_of_ne_nil hbefore (List.cons_ne_nil _ _),
      String.intercalate_append_of_ne_nil hbefore (List.cons_ne_nil _ _), hafter]

theorem intercalate_eq_of_merges {pieces merged : List String}
    (h : Relation.ReflTransGen Merges pieces merged) :
    "__".intercalate pieces = "__".intercalate merged := by
  induction h with
  | refl => rfl
  | tail _ h ih => exact ih.trans h.intercalate_eq

theorem merges_label (x : String) (rest : List String) :
    Relation.ReflTransGen Merges (x :: rest) ["__".intercalate (x :: rest)] := by
  induction rest generalizing x with
  | nil => rw [String.intercalate_singleton]
  | cons y rest ih =>
      have hmerge : Merges (x :: y :: rest) ((x ++ "__" ++ y) :: rest) := .merge [] x y rest
      rw [hmerge.intercalate_eq]
      exact .head hmerge (ih _)

/-- The pieces of both names can be merged to the same pieces. -/
def Mergeable (key key' : FunctionKey) : Prop :=
  Relation.Join (Relation.ReflTransGen Merges) key.pieces key'.pieces

theorem mangle_eq_iff_mergeable (key key' : FunctionKey) :
    key.path.mangle key.name = key'.path.mangle key'.name ↔ Mergeable key key' := by
  constructor
  · intro h
    have hlabel (k : FunctionKey) :
        Relation.ReflTransGen Merges k.pieces [k.path.mangle k.name] := by
      obtain ⟨x, rest, hpieces⟩ := List.exists_cons_of_ne_nil k.pieces_ne_nil
      have hmerged := merges_label x rest
      rwa [← hpieces] at hmerged
    exact ⟨_, hlabel key, h ▸ hlabel key'⟩
  · rintro ⟨merged, hkey, hkey'⟩
    exact (intercalate_eq_of_merges hkey).trans (intercalate_eq_of_merges hkey').symm

/-- A piece goes on where the other one has ended: with two underscores, or with one before the two
that follow it. -/
def Overruns (x y : List Char) (after : List (List Char)) : Prop :=
  x ++ "__".toList <+: y ∨ (y = x ++ "_".toList ∧ after ≠ [])

theorem overruns_of_append {x y rest rest' : List Char} {after : List (List Char)}
    (h : x ++ "__".toList ++ rest = y ++ "__".toList ++ rest') (ha : after ≠ [])
    (hlt : x.length < y.length) : Overruns x y after := by
  have hunderscores : "__".toList = ['_', '_'] := rfl
  rw [List.append_assoc, List.append_assoc, List.append_eq_append_iff] at h
  rcases h with ⟨more, rfl, hmore⟩ | ⟨more, rfl, -⟩
  · -- What `y` has more begins like the two underscores after `x`.
    rw [hunderscores] at hmore
    match more with
    | [] => simp at hlt
    | [c] =>
        obtain ⟨rfl, -⟩ := List.cons.inj hmore
        exact .inr ⟨rfl, ha⟩
    | c :: d :: more =>
        obtain ⟨rfl, htail⟩ := List.cons.inj hmore
        obtain ⟨rfl, -⟩ := List.cons.inj htail
        exact .inl ((List.prefix_append_right_inj x).mpr ⟨more, rfl⟩)
  · rw [List.length_append] at hlt
    omega

/-- If different pieces are joined to the same text, then one of the first that differ overruns the
other. -/
theorem exists_overruns {xs ys : List (List Char)} (hx : xs ≠ []) (hy : ys ≠ [])
    (h : "__".toList.intercalate xs = "__".toList.intercalate ys) (hne : xs ≠ ys) :
    ∃ before x y xs' ys', xs = before ++ x :: xs' ∧ ys = before ++ y :: ys' ∧
      (Overruns x y ys' ∨ Overruns y x xs') := by
  induction xs generalizing ys with
  | nil => exact absurd rfl hx
  | cons x xs ih =>
      match xs, ys with
      | _, [] => exact absurd rfl hy
      | [], [y] => simp_all
      | [], y :: z :: ys =>
          rw [List.intercalate_singleton, List.intercalate_cons_cons] at h
          exact ⟨[], x, y, [], z :: ys, rfl, rfl, .inr (.inl ⟨_, h.symm⟩)⟩
      | z :: xs, [y] =>
          rw [List.intercalate_singleton, List.intercalate_cons_cons] at h
          exact ⟨[], x, y, z :: xs, [], rfl, rfl, .inl (.inl ⟨_, h⟩)⟩
      | z :: xs, y :: w :: ys =>
          rw [List.intercalate_cons_cons, List.intercalate_cons_cons] at h
          rcases lt_trichotomy x.length y.length with hlt | heq | hlt
          · exact ⟨[], x, y, _, _, rfl, rfl, .inl (overruns_of_append h (List.cons_ne_nil _ _) hlt)⟩
          · obtain ⟨hfirst, hrest⟩ := List.append_inj h (by simp [heq])
            obtain ⟨rfl, -⟩ := List.append_inj hfirst heq
            obtain ⟨before, x', y', xs', ys', hxs, hys, hover⟩ := ih (List.cons_ne_nil _ _)
              (List.cons_ne_nil _ _) hrest fun he => hne (congrArg (x :: ·) he)
            exact ⟨x :: before, x', y', xs', ys', by rw [hxs]; rfl, by rw [hys]; rfl, hover⟩
          · exact ⟨[], x, y, _, _, rfl, rfl,
              .inr (overruns_of_append h.symm (List.cons_ne_nil _ _) hlt)⟩

namespace FunctionKey

theorem Plain.not_overruns {key : FunctionKey} (h : key.Plain) {before after : List (List Char)}
    {x y : List Char} (hp : key.pieces.map String.toList = before ++ y :: after) :
    ¬ Overruns x y after := by
  obtain ⟨before', rest, hpieces, rfl, hrest⟩ := List.map_eq_append_iff.mp hp
  obtain ⟨piece, after', rfl, rfl, rfl⟩ := List.map_eq_cons_iff.mp hrest
  rintro (⟨more, hmore⟩ | ⟨hlast, hafter⟩)
  · exact h.pieces piece (by simp [hpieces]) ⟨x, more, hmore⟩
  · have hsegment := key.mem_segments hpieces (by simpa using hafter)
    exact h.segments piece hsegment ⟨x, hlast.symm⟩

theorem Plain.eq_of_mangle_eq {key key' : FunctionKey} (h : key.Plain) (h' : key'.Plain)
    (he : key.path.mangle key.name = key'.path.mangle key'.name) : key = key' := by
  have hchars := congrArg String.toList he
  simp only [ModulePath.mangle, String.toList_intercalate] at hchars
  by_contra hne
  have hpieces : key.pieces.map String.toList ≠ key'.pieces.map String.toList := by
    intro hmap
    have hlists := List.map_injective_iff.mpr (fun _ _ => String.toList_injective) hmap
    exact hne (pieces_injective hlists)
  obtain ⟨before, x, y, xs, ys, hx, hy, hover | hover⟩ :=
    exists_overruns (by simp) (by simp) hchars hpieces
  · exact h'.not_overruns hy hover
  · exact h.not_overruns hx hover

end FunctionKey

/-- Two names get the same label exactly if their pieces can be merged to the same pieces, which is
not so for different plain names. The functions of a program have the labels of their names, at the
end of its compilation and in all states on the way. -/
theorem labels_eq_iff_mergeable (env : Environment) (hr : env.registry.OnlyBundled)
    (file? : Option String) (modules : List Module) (key key' : FunctionKey) :
    (key.path.mangle key.name = key'.path.mangle key'.name ↔ Mergeable key key') ∧
      (key.Plain → key'.Plain → key ≠ key' → ¬ Mergeable key key') ∧
      Lowers env (modules.flatMap Module.body) (.start file?) (compileModules env file? modules) ∧
      ∀ code c, Lowers env code (.start file?) c → ∀ f f',
        c.function? key = some f → c.function? key' = some f' →
          (f.label = f'.label ↔ Mergeable key key') := by
  have hiff := mangle_eq_iff_mergeable key key'
  refine ⟨hiff, fun h h' hne hmerge => ?_, compileModules_lowers env file? modules, ?_⟩
  · exact hne (h.eq_of_mangle_eq h' (hiff.mpr hmerge))
  · intro code c hlowers f f' hf hf'
    have hclosed := (Compilation.Closed.start file?).of_lowers hr hlowers
    rw [(hclosed.function hf).1, (hclosed.function hf').1]
    exact hiff

/-- `@export def name(): pass` -/
def exportsNothing (name : String) : Stmt :=
  .define ⟨name, default⟩ [] [.name ⟨"export", default⟩] [.pass default] default

/-- A file `m.p16` with a function `f`. -/
def besideModuleF : Environment :=
  ⟨⟨[.directory "."], ⟨[], [(["m.p16"], .ok ⟨[exportsNothing "f"], default⟩)], []⟩⟩, .empty⟩

/-- `import m` and a function `m__f`. -/
def namesakeOfF : List Stmt :=
  [.importNames [⟨⟨[⟨"m", default⟩], default⟩, none, default⟩] default, exportsNothing "m__f"]

/-- `namesakeOfF` compiled. -/
def compiledNamesake : Compilation := LowerM.body besideModuleF 3 namesakeOfF (.start none)

theorem compiledNamesake_labels :
    (compiledNamesake.function? ⟨⟨["m"]⟩, "f"⟩).map FunctionSymbol.label = some "m__f" ∧
      (compiledNamesake.function? ⟨.root, "m__f"⟩).map FunctionSymbol.label = some "m__f" := by
  decide +kernel

/-- The function `f` of the module `m` and the function `m__f` are different, no error is reported,
and both bodies begin with the same label line. -/
theorem namesake_shares_label_line :
    (∀ name ∈ ["m", "f", "m__f"], IsWord name) ∧
      compiledNamesake.diagnostics.isEmpty ∧ compiledNamesake.program.lines =
      [.jump "builtin_halt", .label "builtin_halt", .jump "builtin_halt",
       .label "m__f", .pop (.reg .J), .jumpBack, .label "m__f", .pop (.reg .J), .jumpBack] ∧
      (compiledNamesake.function? ⟨⟨["m"]⟩, "f"⟩).map FunctionSymbol.label = some "m__f" ∧
      (compiledNamesake.function? ⟨.root, "m__f"⟩).map FunctionSymbol.label = some "m__f" := by
  refine ⟨?_, ?_, ?_, compiledNamesake_labels⟩
  · decide
  · decide +kernel
  · decide +kernel

/-- The two functions are mergeable, and plain names with underscores at other places are not. -/
theorem labels_eq_iff_mergeable_namesake :
    besideModuleF.registry.OnlyBundled ∧ Mergeable ⟨⟨["m"]⟩, "f"⟩ ⟨.root, "m__f"⟩ ∧
      ¬ Mergeable ⟨⟨["a_b"]⟩, "_c"⟩ ⟨⟨["a", "b_c"]⟩, "d_"⟩ := by
  have hr : besideModuleF.registry.OnlyBundled := Registry.onlyBundled_empty
  have hlowers : Lowers besideModuleF namesakeOfF (.start none) compiledNamesake :=
    LowerM.body_lowers besideModuleF 3 namesakeOfF (.start none)
  obtain ⟨f, hf, hlabel⟩ := Option.map_eq_some_iff.mp compiledNamesake_labels.1
  obtain ⟨f', hf', hlabel'⟩ := Option.map_eq_some_iff.mp compiledNamesake_labels.2
  have hall := labels_eq_iff_mergeable besideModuleF hr none []
  refine ⟨hr, ?_, ?_⟩
  · obtain ⟨-, -, -, hfunctions⟩ := hall ⟨⟨["m"]⟩, "f"⟩ ⟨.root, "m__f"⟩
    exact (hfunctions _ _ hlowers f f' hf hf').mp (hlabel.trans hlabel'.symm)
  · exact (hall _ _).2.1 (by decide +kernel) (by decide +kernel) (by decide)

end P16
