import Mathlib.Tactic.Common
import P16.Lowering.Function

/-!
# Symbols found after a change of the store

`Store.All` says that every symbol of every module has some property. It is kept by a change that
gives the property to the symbols it puts in.
-/

namespace P16

namespace Store

variable (s : Store) (path other : ModulePath) (name key : String)

theorem lookup?_update (f : Namespace → Namespace) :
    (s.update path f).lookup? other name =
      if path = other then (f ((s.namespaces.find? path).getD default)).symbols.find? name
      else s.lookup? other name := by
  unfold update lookup?
  rw [Table.find?_insert]
  split <;> rfl

theorem find?_getD_symbols :
    ((s.namespaces.find? path).getD default).symbols.find? name = s.lookup? path name := by
  unfold lookup?
  cases s.namespaces.find? path <;> rfl

theorem lookup?_start : Store.start.lookup? path name = none := by
  unfold lookup? Store.start
  rw [Table.find?_insert]
  split <;> rfl

@[simp] theorem current_enter : (s.enter path).current = path := rfl

theorem enter_congr {s s' : Store} (h : s'.namespaces = s.namespaces) :
    s'.enter path = s.enter path := by
  unfold enter has
  rw [h]

@[simp] theorem lookup?_enter : (s.enter path).lookup? other name = s.lookup? other name := by
  unfold enter lookup? has Table.contains
  cases hp : s.namespaces.find? path with
  | some n => simp
  | none =>
      by_cases ho : path = other
      · subst ho
        simp only [Option.isSome_none, Bool.false_eq_true, if_false, Table.find?_insert_self, hp]
        rfl
      · simp [Table.find?_insert_of_ne _ _ ho]

@[simp] theorem current_restore : (s.restore path).current = path := rfl

@[simp] theorem lookup?_restore : (s.restore path).lookup? other name = s.lookup? other name := rfl

@[simp] theorem current_define (symbol : Symbol) : (s.define name symbol).current = s.current := rfl

theorem lookup?_define (symbol : Symbol) :
    (s.define name symbol).lookup? path key =
      if s.current = path ∧ name = key then some symbol else s.lookup? path key := by
  unfold define
  rw [lookup?_update]
  by_cases hp : s.current = path
  · subst hp
    rw [if_pos rfl, Table.find?_insert, find?_getD_symbols]
    simp
  · simp [hp]

@[simp] theorem current_configure (value : Value) : (s.configure key value).current = s.current :=
  rfl

@[simp] theorem lookup?_configure (value : Value) :
    (s.configure key value).lookup? path name = s.lookup? path name := by
  unfold configure
  rw [lookup?_update]
  split
  · rename_i hp
    subst hp
    exact s.find?_getD_symbols _ _
  · rfl

theorem lookup?_foldl_configure (entries : List (String × Value)) :
    (entries.foldl (fun s entry => s.configure entry.1 entry.2) s).lookup? path name =
      s.lookup? path name := by
  induction entries generalizing s with
  | nil => rfl
  | cons entry entries ih => rw [List.foldl_cons, ih, lookup?_configure]

theorem functionIn?_eq_some {f : FunctionSymbol} :
    s.functionIn? path name = some f ↔ s.lookup? path name = some (.function f) := by
  unfold functionIn?
  cases s.lookup? path name with
  | none => simp
  | some symbol => cases symbol <;> simp [Symbol.function?]

@[simp] theorem current_updateFunction (f : FunctionSymbol → FunctionSymbol) :
    (s.updateFunction path name f).current = s.current := by
  unfold updateFunction
  split <;> rfl

theorem lookup?_updateFunction (f : FunctionSymbol → FunctionSymbol) :
    (s.updateFunction path name f).lookup? other key =
      match s.functionIn? path name with
      | some g => if path = other ∧ name = key then some (.function (f g)) else s.lookup? other key
      | none => s.lookup? other key := by
  unfold updateFunction
  cases s.functionIn? path name with
  | none => rfl
  | some g =>
      dsimp only
      rw [lookup?_update]
      by_cases hp : path = other
      · subst hp
        rw [if_pos rfl, Table.find?_insert, find?_getD_symbols]
        simp
      · simp [hp]

theorem isSome_lookup?_updateFunction (f : FunctionSymbol → FunctionSymbol) :
    ((s.updateFunction path name f).lookup? other key).isSome = (s.lookup? other key).isSome := by
  rw [lookup?_updateFunction]
  cases hg : s.functionIn? path name with
  | none => rfl
  | some g =>
      dsimp only
      split
      · rename_i h
        obtain ⟨rfl, rfl⟩ := h
        rw [(s.functionIn?_eq_some path name).mp hg]
        rfl
      · rfl

theorem lookup?_updateFunction_cases (f : FunctionSymbol → FunctionSymbol) :
    (s.updateFunction path name f).lookup? other key = s.lookup? other key ∨
      (path = other ∧ name = key) ∧ ∃ g, s.lookup? other key = some (.function g) ∧
        (s.updateFunction path name f).lookup? other key = some (.function (f g)) := by
  rw [lookup?_updateFunction]
  cases hg : s.functionIn? path name with
  | none => exact .inl rfl
  | some g =>
      dsimp only
      by_cases hk : path = other ∧ name = key
      · rw [if_pos hk]
        obtain ⟨rfl, rfl⟩ := hk
        exact .inr ⟨⟨rfl, rfl⟩, g, (s.functionIn?_eq_some path name).mp hg, rfl⟩
      · rw [if_neg hk]
        exact .inl rfl

section contents

def contents : Namespace := (s.namespaces.find? path).getD default

theorem contents_symbols : (s.contents path).symbols.find? name = s.lookup? path name :=
  s.find?_getD_symbols path name

theorem contents_update (f : Namespace → Namespace) :
    (s.update path f).contents other =
      if path = other then f (s.contents path) else s.contents other := by
  unfold update contents
  rw [Table.find?_insert]
  split <;> rfl

@[simp] theorem contents_enter : (s.enter path).contents other = s.contents other := by
  unfold enter contents has Table.contains
  cases hp : s.namespaces.find? path with
  | some n => simp
  | none =>
      by_cases ho : path = other
      · subst ho
        simp [Table.find?_insert_self, hp]
      · simp [Table.find?_insert_of_ne _ _ ho]

@[simp] theorem contents_restore : (s.restore path).contents other = s.contents other := rfl

theorem contents_updateFunction_of_ne (f : FunctionSymbol → FunctionSymbol) (hne : other ≠ path) :
    (s.updateFunction path name f).contents other = s.contents other := by
  unfold updateFunction
  split
  · rfl
  · rw [contents_update, if_neg hne.symm]

/-- At most the current module is changed. -/
structure KeepsOthers (s s' : Store) : Prop where
  current : s'.current = s.current
  contents : ∀ path, path ≠ s.current → s'.contents path = s.contents path

namespace KeepsOthers

variable {s s₁ s₂ : Store}

theorem refl (s : Store) : s.KeepsOthers s := ⟨rfl, fun _ _ => rfl⟩

theorem trans (h : s.KeepsOthers s₁) (g : s₁.KeepsOthers s₂) : s.KeepsOthers s₂ := by
  refine ⟨g.current.trans h.current, fun path hne => ?_⟩
  rw [g.contents path (h.current ▸ hne), h.contents path hne]

theorem update (s : Store) (f : Namespace → Namespace) :
    s.KeepsOthers (s.update s.current f) := by
  refine ⟨rfl, fun path hne => ?_⟩
  rw [contents_update, if_neg hne.symm]

theorem define (s : Store) (name : String) (symbol : Symbol) :
    s.KeepsOthers (s.define name symbol) :=
  update s _

theorem configure (s : Store) (key : String) (value : Value) :
    s.KeepsOthers (s.configure key value) :=
  update s _

theorem foldl {α : Type} {f : Store → α → Store} (hf : ∀ (s : Store) a, s.KeepsOthers (f s a))
    (items : List α) (s : Store) : s.KeepsOthers (items.foldl f s) := by
  induction items generalizing s with
  | nil => exact refl s
  | cons a items ih => exact (hf s a).trans (ih _)

theorem lookup? (h : s.KeepsOthers s₁) {path : ModulePath} (hne : path ≠ s.current)
    (name : String) : s₁.lookup? path name = s.lookup? path name := by
  rw [← contents_symbols, h.contents path hne, contents_symbols]

end KeepsOthers

end contents

section All

/-- Every symbol has a property, which may depend on its module and its name. -/
def All (Good : ModulePath → String → Symbol → Prop) : Prop :=
  ∀ path name symbol, s.lookup? path name = some symbol → Good path name symbol

variable {s path name} {Good Better : ModulePath → String → Symbol → Prop}

theorem All.mono (h : s.All Good)
    (hi : ∀ path name symbol, Good path name symbol → Better path name symbol) : s.All Better :=
  fun path name symbol hl => hi path name symbol (h path name symbol hl)

theorem All.enter (h : s.All Good) : (s.enter path).All Good :=
  fun _ _ _ hl => h _ _ _ (by rwa [lookup?_enter] at hl)

theorem All.define {symbol : Symbol} (h : s.All Good) (hg : Good s.current name symbol) :
    (s.define name symbol).All Good := by
  intro path key found hl
  rw [lookup?_define] at hl
  split at hl
  · rename_i he
    obtain ⟨rfl, rfl⟩ := he
    cases hl
    exact hg
  · exact h _ _ _ hl

theorem All.updateFunction {f : FunctionSymbol → FunctionSymbol} (h : s.All Good)
    (hg : ∀ g, s.functionIn? path name = some g → Good path name (.function (f g))) :
    (s.updateFunction path name f).All Good := by
  intro other key found hl
  rw [lookup?_updateFunction] at hl
  cases he : s.functionIn? path name with
  | none =>
      rw [he] at hl
      exact h _ _ _ hl
  | some g =>
      rw [he] at hl
      dsimp only at hl
      split at hl
      · rename_i hk
        obtain ⟨rfl, rfl⟩ := hk
        cases hl
        exact hg g he
      · exact h _ _ _ hl

end All

section define

variable {α : Type} (nameOf : α → String) (symbolOf : ModulePath → α → Symbol) (items : List α)
  (s : Store)

theorem foldl_define_keepsOthers :
    s.KeepsOthers (items.foldl (fun s a => s.define (nameOf a) (symbolOf s.current a)) s) :=
  .foldl (fun s _ => .define s _ _) items s

@[simp] theorem current_foldl_define :
    (items.foldl (fun s a => s.define (nameOf a) (symbolOf s.current a)) s).current =
      s.current :=
  (foldl_define_keepsOthers nameOf symbolOf items s).current

/-- A name that is defined stands for one of the symbols, any other for what it did. -/
theorem lookup?_foldl_define (path : ModulePath) (name : String) :
    (¬ (s.current = path ∧ name ∈ items.map nameOf) ∧
      (items.foldl (fun s a => s.define (nameOf a) (symbolOf s.current a)) s).lookup? path name =
        s.lookup? path name) ∨
    (s.current = path ∧ name ∈ items.map nameOf) ∧ ∃ a ∈ items,
      (items.foldl (fun s a => s.define (nameOf a) (symbolOf s.current a)) s).lookup? path name =
        some (symbolOf s.current a) := by
  induction items generalizing s with
  | nil => exact .inl ⟨by simp, rfl⟩
  | cons a items ih =>
      rw [List.foldl_cons, List.map_cons]
      rcases ih (s.define (nameOf a) (symbolOf s.current a)) with ⟨hn, h⟩ | ⟨⟨hp, hn⟩, b, hb, h⟩
      · rw [h, lookup?_define]
        by_cases ha : s.current = path ∧ nameOf a = name
        · rw [if_pos ha]
          exact .inr ⟨⟨ha.1, ha.2 ▸ List.mem_cons_self⟩, a, List.mem_cons_self, rfl⟩
        · rw [if_neg ha]
          refine .inl ⟨?_, rfl⟩
          rintro ⟨hp, hmem⟩
          rcases List.mem_cons.mp hmem with hname | hmem
          · exact ha ⟨hp, hname.symm⟩
          · exact hn ⟨hp, hmem⟩
      · exact .inr ⟨⟨hp, List.mem_cons_of_mem _ hn⟩, b, List.mem_cons_of_mem _ hb, h⟩

end define

end Store

section defineNumbers

variable (names : List String) (s : Store)

theorem lookup?_defineNumbers (path : ModulePath) (name : String) :
    (¬ (s.current = path ∧ name ∈ names) ∧
      (LowerM.defineNumbers names s).lookup? path name = s.lookup? path name) ∨
    (s.current = path ∧ name ∈ names) ∧
      ∃ n, (LowerM.defineNumbers names s).lookup? path name = some (.constant (.number n)) := by
  have hlookup := Store.lookup?_foldl_define (fun entry : String × Nat => entry.1)
    (fun _ entry => .constant (.number entry.2)) names.zipIdx s path name
  rw [show names.zipIdx.map (fun entry => entry.1) = names from List.zipIdx_map_fst ..] at hlookup
  rcases hlookup with h | ⟨hn, entry, -, h⟩
  · exact .inl h
  · exact .inr ⟨hn, _, h⟩

theorem defineNumbers_keepsOthers : s.KeepsOthers (LowerM.defineNumbers names s) :=
  Store.foldl_define_keepsOthers (fun entry : String × Nat => entry.1)
    (fun _ entry => .constant (.number entry.2)) names.zipIdx s

@[simp] theorem current_defineNumbers : (LowerM.defineNumbers names s).current = s.current :=
  (defineNumbers_keepsOthers names s).current

end defineNumbers

end P16
