import P16.Proofs.Machine
import P16.Proofs.Resolve

/-!
# Blocks of structured statements

The meaning of statement blocks without calls, as a relation between the registers before and after.
A `while` tests its condition before each iteration. `break` leaves the innermost loop, `continue`
goes on with its test, and both may end a block whose loop lies outside of it.

Names stand for what they stand for in a given compilation. Open are the words of the labels that
constants stand for, and the results of arithmetic.
-/

namespace P16

inductive Ending where
  | done
  | left
  | again
deriving DecidableEq, Inhabited

def Value.word? (labels : String → UInt16) (r : Registers) : Value → Option UInt16
  | number n => P16.word? n
  | register x => some (r x)
  | label name => some (labels name)
  | _ => none

namespace Compilation

variable (c : Compilation) (labels : String → UInt16) (r : Registers)

def word? : Expr → Option UInt16
  | .number n _ => P16.word? n
  | .unary .neg (.number n _) _ => P16.word? (-n)
  | .name ident =>
    match c.registerNamed? ident.text with
    | some x => some (r x)
    | none => (c.store.constant? ident.text).bind (Value.word? labels r)
  | e@(.member ..) =>
    match splitMember e with
    | .ok (path, name) => (c.store.constantIn? path name).bind (Value.word? labels r)
    | .error _ => none
  | _ => none

variable {c : Compilation} (m : Machine) (r : Registers)

theorem plain?_of_operand? {v : Value} {a : Operand} (h : v.operand? = some a) :
    ∃ w, m.plain? r a = some w ∧ v.word? m.word r = some w := by
  cases v with
  | number n =>
      obtain ⟨w, hw, rfl⟩ := Option.map_eq_some_iff.mp h
      exact ⟨w, rfl, hw⟩
  | register x =>
      cases h
      exact ⟨r x, rfl, rfl⟩
  | label name =>
      cases h
      exact ⟨m.word name, rfl, rfl⟩
  | _ => cases h

theorem plain?_of_operand {e : Expr} {a : Operand} (h : c.operand e = .ok a) :
    ∃ w, m.plain? r a = some w ∧ c.word? m.word r e = some w := by
  cases resolves_of_operand h with
  | literal hw => exact ⟨_, rfl, hw⟩
  | negative hw => exact ⟨_, rfl, hw⟩
  | register hx => exact ⟨_, rfl, by simp [word?, hx]⟩
  | named hx hv ha =>
      obtain ⟨w, hplain, hw⟩ := plain?_of_operand? m r ha
      exact ⟨w, hplain, by simp [word?, hx, hv, hw]⟩
  | qualified hs hv ha =>
      obtain ⟨w, hplain, hw⟩ := plain?_of_operand? m r ha
      exact ⟨w, hplain, by simp [word?, hs, hv, hw]⟩

end Compilation

section Runs

variable (c : Compilation) (compute : BasicOpcode → UInt16 → UInt16 → UInt16)
  (labels : String → UInt16)

end Runs

end P16
