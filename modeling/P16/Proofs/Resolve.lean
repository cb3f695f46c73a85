import Mathlib.Data.List.Forall2
import P16.Lowering.Loop

/-!
# What expressions resolve to

From a resolved operand, address or loop condition back to the expression and to the names in it.
-/

namespace P16

theorem exists_of_bind_eq_ok {ε α β : Type} {x : Except ε α} {f : α → Except ε β} {b : β}
    (h : x >>= f = .ok b) : ∃ a, x = .ok a ∧ f a = .ok b := by
  cases x with
  | error e => cases h
  | ok a => exact ⟨a, rfl, h⟩

theorem forall₂_of_mapM {ε α β : Type} {f : α → Except ε β} {xs : List α} {ys : List β}
    (h : xs.mapM f = .ok ys) : List.Forall₂ (fun x y => f x = .ok y) xs ys := by
  induction xs generalizing ys with
  | nil =>
      cases h
      exact .nil
  | cons x xs ih =>
      rw [List.mapM_cons] at h
      obtain ⟨y, hy, h⟩ := exists_of_bind_eq_ok h
      obtain ⟨rest, hrest, h⟩ := exists_of_bind_eq_ok h
      cases h
      exact .cons hy (ih hrest)

theorem exists_of_mem_mapM {ε α β : Type} {f : α → Except ε β} {xs : List α} {ys : List β}
    (h : xs.mapM f = .ok ys) {y : β} (hy : y ∈ ys) : ∃ x, f x = .ok y := by
  have hall := forall₂_of_mapM h
  clear h
  induction hall with
  | nil => cases hy
  | @cons x _ _ _ hx _ ih =>
      rcases List.mem_cons.mp hy with rfl | hy
      · exact ⟨x, hx⟩
      · exact ih hy

namespace Compilation

variable (c : Compilation)

inductive Resolves : Expr → Operand → Prop where
  | literal {n : Int} {span : Span} {w : UInt16} (hw : word? n = some w) :
      Resolves (.number n span) (.lit w)
  | negative {n : Int} {inner span : Span} {w : UInt16} (hw : word? (-n) = some w) :
      Resolves (.unary .neg (.number n inner) span) (.lit w)
  | register {ident : Ident} {x : Register} (hx : c.registerNamed? ident.text = some x) :
      Resolves (.name ident) (.reg x)
  | named {ident : Ident} {v : Value} {a : Operand} (hx : c.registerNamed? ident.text = none)
      (hv : c.store.constant? ident.text = some v) (ha : v.operand? = some a) :
      Resolves (.name ident) a
  | qualified {value : Expr} {attr : Ident} {span : Span} {path : ModulePath} {name : String}
      {v : Value} {a : Operand} (hs : splitMember (.member value attr span) = .ok (path, name))
      (hv : c.store.constantIn? path name = some v) (ha : v.operand? = some a) :
      Resolves (.member value attr span) a

variable {c}

theorem word?_of_literalOperand {n : Int} {e : Expr} {a : Operand}
    (h : literalOperand n e = .ok a) : ∃ w, word? n = some w ∧ a = .lit w := by
  unfold literalOperand at h
  split at h
  · rename_i w hw
    cases h
    exact ⟨w, hw, rfl⟩
  · cases h

theorem operand?_of_constantOperand {v : Value} {e : Expr} {a : Operand}
    (h : constantOperand v e = .ok a) : v.operand? = some a := by
  unfold constantOperand at h
  split at h
  · rename_i operand ho
    cases h
    exact ho
  · cases h

theorem constant?_of_namedConstant {ident : Ident} {v : Value}
    (h : c.namedConstant ident = .ok v) : c.store.constant? ident.text = some v := by
  unfold namedConstant at h
  split at h
  · rename_i found hf
    cases h
    exact hf
  · cases h

theorem constantIn?_of_qualifiedConstant {e : Expr} {v : Value}
    (h : c.qualifiedConstant e = .ok v) :
    ∃ path name, splitMember e = .ok (path, name) ∧ c.store.constantIn? path name = some v := by
  obtain ⟨⟨path, name⟩, hs, h⟩ := exists_of_bind_eq_ok h
  dsimp only at h
  split at h
  · rename_i found hf
    cases h
    exact ⟨path, name, hs, hf⟩
  · cases h

theorem resolves_of_operand {e : Expr} {a : Operand} (h : c.operand e = .ok a) :
    c.Resolves e a := by
  cases e with
  | number n span =>
      obtain ⟨w, hw, rfl⟩ := word?_of_literalOperand h
      exact .literal hw
  | unary op inner span =>
      cases op with
      | neg =>
          cases inner with
          | number n span =>
              obtain ⟨w, hw, rfl⟩ := word?_of_literalOperand h
              exact .negative hw
          | _ => cases h
      | _ => cases h
  | name ident =>
      simp only [operand] at h
      split at h
      · rename_i x hx
        cases h
        exact .register hx
      · rename_i hx
        obtain ⟨v, hv, h⟩ := exists_of_bind_eq_ok h
        exact .named hx (constant?_of_namedConstant hv) (operand?_of_constantOperand h)
  | member value attr span =>
      obtain ⟨v, hv, h⟩ := exists_of_bind_eq_ok h
      obtain ⟨path, name, hs, hv⟩ := constantIn?_of_qualifiedConstant hv
      exact .qualified hs hv (operand?_of_constantOperand h)
  | _ => cases h

theorem operands_of_loopTest {e : Expr} {test : LoopTest} (h : c.loopTest e = .ok test) :
    ∃ left op right span l r, e = .compare left [(op, right)] span ∧ c.operand left = .ok l ∧
      c.operand right = .ok r ∧ LoopTest.ofCompare? op l r = some test := by
  unfold loopTest at h
  split at h
  · rename_i left op right span
    obtain ⟨l, hl, h⟩ := exists_of_bind_eq_ok h
    obtain ⟨r, hr, h⟩ := exists_of_bind_eq_ok h
    split at h
    · rename_i found hf
      cases h
      exact ⟨left, op, right, span, l, r, rfl, hl, hr, hf⟩
    · cases h
  · cases h
  · cases h

end Compilation

end P16
