import Mathlib.Data.List.TakeWhile
import Mathlib.Logic.Function.Basic
import P16.Lowering.Builtin

/-!
# Names of labels

Inside one module different names get different labels. The names of loops tell the number of the
loop and the place in it, and they are reserved, as is the name of the halting loop.
-/

namespace P16

theorem ModulePath.mangle_injective (path : ModulePath) : Function.Injective path.mangle := by
  intro a b h
  unfold mangle at h
  rcases eq_or_ne path.segments [] with hroot | hne
  · simpa [hroot] using h
  · rw [String.intercalate_append_of_ne_nil hne (by simp),
      String.intercalate_append_of_ne_nil hne (by simp), String.append_right_inj] at h
    simpa using h

theorem toList_loopName (n : Nat) (part : String) :
    (loopName n part).toList =
      "builtin_loop_".toList ++ (Nat.toDigits 10 n ++ '_' :: part.toList) := by
  unfold loopName
  simp only [String.toList_append, Nat.toString_eq_repr, Nat.toList_repr, List.append_assoc]
  rfl

theorem loopName_inj {n k : Nat} {part other : String} :
    loopName n part = loopName k other ↔ n = k ∧ part = other := by
  constructor
  · intro h
    have hlist := congrArg String.toList h
    rw [toList_loopName, toList_loopName, List.append_cancel_left_eq] at hlist
    -- No digit is an underscore, so both sides have the same digits before the first one.
    have hdigits (j : Nat) (rest : List Char) :
        (Nat.toDigits 10 j ++ '_' :: rest).takeWhile (· ≠ '_') = Nat.toDigits 10 j := by
      rw [List.takeWhile_append_of_pos (by
        intro c hc
        have hne : c ≠ '_' := fun he => Nat.underscore_not_in_toDigits (he ▸ hc)
        simpa using hne)]
      simp
    have hn : Nat.toDigits 10 n = Nat.toDigits 10 k := by
      rw [← hdigits n part.toList, ← hdigits k other.toList, hlist]
    have hnk : n = k := by
      rw [← Nat.ofDigitChars_toDigits (b := 10) (n := n) (by decide) (by decide), hn,
        Nat.ofDigitChars_toDigits (by decide) (by decide)]
    refine ⟨hnk, String.toList_injective ?_⟩
    simpa [hn] using hlist
  · rintro ⟨rfl, rfl⟩
    rfl

/-- The number of the `n`th loop. -/
def loopNumber (n : Nat) : Nat := n % 0x100000000

/-- As many loops in a row as there are numbers have different numbers. -/
theorem loopNumber_inj {first n k : Nat} (hn : first < n) (hk : first < k)
    (hn' : n ≤ first + 0x100000000) (hk' : k ≤ first + 0x100000000) :
    loopNumber n = loopNumber k ↔ n = k := by
  unfold loopNumber
  omega

/-- The label of a place in the `n`th loop, where `n` and the name of the place are given. -/
def loopLabel (path : ModulePath) (mark : Nat × String) : String :=
  path.mangle (loopName (loopNumber mark.1) mark.2)

theorem loopLabel_inj {path : ModulePath} {mark other : Nat × String} {first : Nat}
    (hm : first < mark.1) (ho : first < other.1) (hm' : mark.1 ≤ first + 0x100000000)
    (ho' : other.1 ≤ first + 0x100000000) (h : loopLabel path mark = loopLabel path other) :
    mark = other := by
  obtain ⟨hnumber, hpart⟩ := loopName_inj.mp (path.mangle_injective h)
  exact Prod.ext ((loopNumber_inj hm ho hm' ho').mp hnumber) hpart

theorem loopName_reserved (n : Nat) (part : String) :
    (loopName n part).startsWith Builtin.reserved = true := by
  rw [String.startsWith_string_iff, toList_loopName]
  exact List.IsPrefix.trans (by decide) (List.prefix_append _ _)

theorem haltLabel_reserved : Program.haltLabel.startsWith Builtin.reserved = true := by
  rw [String.startsWith_string_iff]
  decide

theorem loopName_ne_haltLabel (n : Nat) (part : String) :
    loopName n part ≠ Program.haltLabel := by
  intro h
  have hprefix : "builtin_loop_".toList <+: Program.haltLabel.toList := by
    rw [← h, toList_loopName]
    exact List.prefix_append _ _
  exact absurd hprefix (by decide)

abbrev Origin := ModulePath × String

def Event.origin? : Event → Option Origin
  | label path name => some (path, name)
  | _ => none

/-- The names for which label lines have been written. -/
def Compilation.origins (c : Compilation) : List Origin := c.events.filterMap Event.origin?

end P16
