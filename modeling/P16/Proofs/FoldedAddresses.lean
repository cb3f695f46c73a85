import P16.Proofs.MemoryWrites
import P16.Proofs.Structured

/-!
# Addresses that are sums

The built-in that writes a word of memory takes its location as a sum, too. If a register is in the
sum, the machine adds, and adds words. The sum of two numbers is formed at compile time from the
words that stand for them, but the result is not reduced to a word again: it is refused as soon as
one of the numbers is negative, although the sum may be an address.
-/

namespace P16

section words

variable {a b : Int} {wa wb w : UInt16}

/-- The sum of the words exceeds that of the numbers by a full turn if one of these is negative. -/
theorem toNat_add_toNat_of_word? (ha : word? a = some wa) (hb : word? b = some wb)
    (hw : (w.toNat : Int) = a + b) :
    wa.toNat + wb.toNat = if 0 ≤ a ∧ 0 ≤ b then w.toNat else 0x10000 + w.toNat := by
  obtain ⟨hrange, hmod⟩ := word?_eq_some_iff.mp ha
  obtain ⟨hrange', hmod'⟩ := word?_eq_some_iff.mp hb
  have hwa := wa.toNat_lt
  have hwb := wb.toNat_lt
  have hlt := w.toNat_lt
  unfold Int.ModEq at hmod hmod'
  split <;> omega

theorem add_eq_of_word? (ha : word? a = some wa) (hb : word? b = some wb)
    (hw : (w.toNat : Int) = a + b) : wa + wb = w := by
  have hsum := toNat_add_toNat_of_word? ha hb hw
  have hlt := w.toNat_lt
  rw [← UInt16.toNat_inj, UInt16.toNat_add, hsum]
  split <;> omega

end words

namespace Compilation

variable {c : Compilation} {l r : Expr} {a b : Int} {w : UInt16}

theorem operand_of_fits {e : Expr} (he : e.integer? = some a) (ha : -0x8000 ≤ a ∧ a ≤ 0xffff) :
    ∃ wa, P16.word? a = some wa ∧ c.operand e = .ok (.lit wa) := by
  have hword : P16.word? a = some (UInt16.ofNat (a % 0x10000).toNat) := if_pos ha
  refine ⟨_, hword, ?_⟩
  rw [(operand_of_integer? he c).1, literalOperand_eq_ok_iff]
  exact ⟨_, rfl, hword⟩

theorem address_of_integers (hl : l.integer? = some a) (hr : r.integer? = some b)
    (ha : -0x8000 ≤ a ∧ a ≤ 0xffff) (hb : -0x8000 ≤ b ∧ b ≤ 0xffff)
    (hw : (w.toNat : Int) = a + b) (span : Span) :
    c.address (.binary .add l r span) = if 0 ≤ a ∧ 0 ≤ b then .ok (.mem (.lit w))
      else .error ⟨.invalidOperand ("address " ++ Text.hexNumber (0x10000 + w.toNat) ++
        " is out of range"), span⟩ := by
  obtain ⟨wa, hwa, hleft⟩ := operand_of_fits (c := c) hl ha
  obtain ⟨wb, hwb, hright⟩ := operand_of_fits (c := c) hr hb
  have hsum := toNat_add_toNat_of_word? hwa hwb hw
  have haddress : c.address (.binary .add l r span) = addressSum span (.lit wa) (.lit wb) := by
    simp only [address, hleft, hright]
    rfl
  have hlt : w.toNat < 0x10000 := w.toNat_lt
  rw [haddress, addressSum]
  by_cases hpos : 0 ≤ a ∧ 0 ≤ b
  · rw [if_pos hpos] at hsum ⊢
    rw [hsum, if_pos hlt, UInt16.ofNat_toNat]
  · rw [if_neg hpos] at hsum ⊢
    rw [hsum, if_neg (by omega)]

theorem address_of_register {ident : Ident} {x : Register}
    (hx : c.registerNamed? ident.text = some x) (hr : r.integer? = some b)
    (hb : -0x8000 ≤ b ∧ b ≤ 0xffff) (span : Span) :
    ∃ wb, P16.word? b = some wb ∧
      c.address (.binary .add (.name ident) r span) = .ok (.memOffset (.reg x) (.lit wb)) := by
  obtain ⟨wb, hwb, hright⟩ := operand_of_fits (c := c) hr hb
  have hleft : c.operand (.name ident) = .ok (.reg x) := by simp [operand, hx]
  refine ⟨wb, hwb, ?_⟩
  simp only [address, hleft, hright]
  rfl

end Compilation

namespace LowerM

variable (env : Environment) (enter : Enter) {c : Compilation} {s : Stmt} {l r v : Expr}

theorem stmt_memset_of_address {target source : Operand}
    (hs : s.CallsName [Builtin.memset.name] [l, v]) (hl : c.address l = .ok target)
    (hv : c.operand v = .ok source) :
    stmt env enter s c = .ok () (c.write fun p => p.write (.set target source)) := by
  obtain ⟨callee, span, heq⟩ := stmt_eq_memset env enter hs
  rw [heq]
  exact memset_eq_ok_iff.mpr ⟨target, source, hl, hv, rfl⟩

theorem stmt_memset_of_address_error {failure : Failure}
    (hs : s.CallsName [Builtin.memset.name] [l, v]) (hl : c.address l = .error failure) :
    stmt env enter s c = .error failure c := by
  obtain ⟨callee, span, heq⟩ := stmt_eq_memset env enter hs
  rw [heq]
  simp only [memset, ask, Bind.bind, EStateM.bind, hl]

/-- The sum of two numbers that fit into words, if it is an address, is accepted as a location
exactly if neither is negative; then it is the place that is written. With a register that holds the
first number it is accepted always, and the machine writes to this place. -/
theorem sum_accepted_iff_nonnegative {a b : Int} {span : Span} {y : Operand} {w : UInt16}
    (hs : s.CallsName [Builtin.memset.name] [.binary .add l r span, v])
    (hl : l.integer? = some a) (hr : r.integer? = some b) (ha : -0x8000 ≤ a ∧ a ≤ 0xffff)
    (hb : -0x8000 ≤ b ∧ b ≤ 0xffff) (hw : (w.toNat : Int) = a + b) (hv : c.operand v = .ok y) :
    (stmt env enter s c = .ok () (c.write fun p => p.write (.set (.mem (.lit w)) y)) ↔
        0 ≤ a ∧ 0 ≤ b) ∧
      (¬ (0 ≤ a ∧ 0 ≤ b) → stmt env enter s c = .error ⟨.invalidOperand
        ("address " ++ Text.hexNumber (0x10000 + w.toNat) ++ " is out of range"), span⟩ c) ∧
      ∀ (s' : Stmt) (ident : Ident) (x : Register) (span' : Span),
        s'.CallsName [Builtin.memset.name] [.binary .add (.name ident) r span', v] →
        c.registerNamed? ident.text = some x →
        ∃ target, stmt env enter s' c = .ok () (c.write fun p => p.write (.set target y)) ∧
          ∀ (m : Machine) (σ : Machine.State), word? a = some (σ.registers x) →
            ∃ u, m.execute? σ (.basic .set (.mem (.lit w)) y) =
                some { σ with memory := Function.update σ.memory w u } ∧
              m.execute? σ (.basic .set target y) =
                some { σ with memory := Function.update σ.memory w u } := by
  have haddress : c.address (.binary .add l r span) = _ :=
    Compilation.address_of_integers hl hr ha hb hw span
  have hrefused (hneg : ¬ (0 ≤ a ∧ 0 ≤ b)) : stmt env enter s c = .error ⟨.invalidOperand
      ("address " ++ Text.hexNumber (0x10000 + w.toNat) ++ " is out of range"), span⟩ c := by
    rw [if_neg hneg] at haddress
    exact stmt_memset_of_address_error env enter hs haddress
  refine ⟨⟨fun h => ?_, fun hpos => ?_⟩, hrefused, fun s' ident x span' hs' hx => ?_⟩
  · by_contra hneg
    rw [hrefused hneg] at h
    cases h
  · rw [if_pos hpos] at haddress
    exact stmt_memset_of_address env enter hs haddress hv
  · obtain ⟨wb, hwb, htarget⟩ := Compilation.address_of_register hx hr hb span'
    refine ⟨_, stmt_memset_of_address env enter hs' htarget hv, fun m σ hσ => ?_⟩
    obtain ⟨u, hu, -⟩ := Compilation.plain?_of_operand m σ.registers hv
    refine ⟨u, Machine.execute?_store rfl hu, Machine.execute?_store ?_ hu⟩
    simp [Machine.cell?, Machine.plain?, add_eq_of_word? hσ hwb hw]

/-- `builtin_memset(-1 + 5, 7)` is refused, although the sum is 4. -/
theorem negative_summand_refused :
    let sum : Expr :=
      .binary .add (.unary .neg (.number 1 default) default) (.number 5 default) default
    let s : Stmt := .expr (.call (.name ⟨"builtin_memset", default⟩) [sum, .number 7 default] []
      default) default
    stmt ⟨⟨[], .empty []⟩, .empty⟩ (fun _ c => c) s (.start none) =
      .error ⟨.invalidOperand "address 0x10004 is out of range", default⟩ (.start none) := by
  refine stmt_memset_of_address_error _ _ ⟨_, _, _, _, rfl, rfl, rfl⟩ ?_
  have htext : Text.hexNumber 0x10004 = "0x10004" := by decide +kernel
  rw [show "address 0x10004 is out of range" = "address " ++ "0x10004" ++ " is out of range" by rfl,
    ← htext]
  rfl

/-- `builtin_memset(0x7fff + 0x8000, B)` writes to the last word of memory, as does
`builtin_memset(place + 0x8000, B)` if the parameter `place` is 0x7fff; but 0x8000 cannot be added
to a negative number. -/
theorem sum_accepted_iff_nonnegative_last_word :
    let env : Environment := ⟨⟨[], .empty []⟩, .empty⟩
    let c : Compilation :=
      { Compilation.start none with scope := ⟨none, [], .ofList [("place", .C)], none⟩ }
    let memset (l : Expr) : Stmt := .expr (.call (.name ⟨"builtin_memset", default⟩)
      [.binary .add l (.number 0x8000 default) default, .name ⟨"B", default⟩] [] default) default
    stmt env (fun _ c => c) (memset (.number 0x7fff default)) c =
        .ok () (c.write fun p => p.write (.set (.mem (.lit 0xffff)) (.reg .B))) ∧
      stmt env (fun _ c => c) (memset (.unary .neg (.number 2 default) default)) c ≠
        .ok () (c.write fun p => p.write (.set (.mem (.lit 0x7ffe)) (.reg .B))) ∧
      ∃ target, stmt env (fun _ c => c) (memset (.name ⟨"place", default⟩)) c =
          .ok () (c.write fun p => p.write (.set target (.reg .B))) ∧
        ∀ (m : Machine) (σ : Machine.State), σ.registers .C = 0x7fff →
          ∃ u, m.execute? σ (.basic .set target (.reg .B)) =
            some { σ with memory := Function.update σ.memory 0xffff u } := by
  intro env c memset
  have hcalls (l : Expr) : (memset l).CallsName [Builtin.memset.name]
      [.binary .add l (.number 0x8000 default) default, .name ⟨"B", default⟩] :=
    ⟨_, _, _, _, rfl, rfl, rfl⟩
  obtain ⟨haccepted, -, hregister⟩ := sum_accepted_iff_nonnegative env (fun _ c => c) (c := c)
    (w := 0xffff) (hcalls (.number 0x7fff default)) rfl rfl (by decide) (by decide) (by decide) rfl
  obtain ⟨hrefused, -, -⟩ := sum_accepted_iff_nonnegative env (fun _ c => c) (c := c) (w := 0x7ffe)
    (hcalls (.unary .neg (.number 2 default) default)) rfl rfl (by decide) (by decide) (by decide)
    rfl
  obtain ⟨target, htarget, hrun⟩ :=
    hregister (memset (.name ⟨"place", default⟩)) ⟨"place", default⟩ .C default (hcalls _) rfl
  refine ⟨haccepted.mpr (by decide), mt hrefused.mp (by decide), target, htarget, fun m σ hσ => ?_⟩
  obtain ⟨u, -, hu⟩ := hrun m σ (by rw [hσ]; rfl)
  exact ⟨u, hu⟩

end LowerM

end P16
