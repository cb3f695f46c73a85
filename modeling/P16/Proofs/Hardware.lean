import Mathlib.Logic.Relation
import P16.Proofs.CallingConvention

/-!
# Machines with hardware

A machine alone stops at the instructions for hardware. A computer is a machine with devices, and
executes them: `HWN` gives the number of devices, `HWQ` asks a device for its identity, and `HWI`
sends the word in `A` to a device. A device may change the registers and the memory when it gets a
message, but not the stack.
-/

namespace P16

structure Computer where
  machine : Machine
  /-- The identities of the attached devices, in the order of their numbers. -/
  ids : List UInt32
  /-- The words that are left in `C`, `X` and `Y` when a device is asked. -/
  details : Machine.State → Register → UInt16
  /-- The registers and the memory after a device has got a message. -/
  respond : UInt16 → Machine.State → Registers × (UInt16 → UInt16)

structure Interrupt where
  device : UInt16
  message : UInt16
deriving DecidableEq

namespace Computer

structure State extends Machine.State where
  sent : List Interrupt

variable (c : Computer)

def answer (id : UInt32) (s : Machine.State) : Registers
  | .A => id.toUInt16
  | .B => (id >>> 16).toUInt16
  | .C => c.details s .C
  | .X => c.details s .X
  | .Y => c.details s .Y
  | x => s.registers x

def step? (s : State) : Option State :=
  match c.machine.lines[s.line]? with
  | some (.instruction (.special .hwn target)) => do
    let t ← c.machine.write? s.next (UInt16.ofNat c.ids.length) target
    return { s with toState := t }
  | some (.instruction (.special .hwq operand)) => do
    let (k, t) ← c.machine.read? s.next operand
    let id ← c.ids[k.toNat]?
    return { s with toState := { t with registers := c.answer id t } }
  | some (.instruction (.special .hwi operand)) => do
    let (k, t) ← c.machine.read? s.next operand
    let (registers, memory) := c.respond k t
    return ⟨{ t with registers, memory }, s.sent ++ [⟨k, t.registers .A⟩]⟩
  | _ => do
    let t ← c.machine.step? s.toState
    return { s with toState := t }

def Reaches : State → State → Prop := Relation.ReflTransGen fun s t => c.step? s = some t

variable {c} {s t u : State}

theorem Reaches.refl (s : State) : c.Reaches s s := Relation.ReflTransGen.refl

theorem Reaches.trans (h : c.Reaches s t) (g : c.Reaches t u) : c.Reaches s u :=
  Relation.ReflTransGen.trans h g

theorem Reaches.head (h : c.step? s = some t) (g : c.Reaches t u) : c.Reaches s u :=
  Relation.ReflTransGen.head h g

theorem step?_of_machine {t : Machine.State} (h : c.machine.step? s.toState = some t) :
    c.step? s = some { s with toState := t } := by
  unfold step?
  split
  next hline => simp [Machine.step?, hline, Machine.execute?] at h
  next hline => simp [Machine.step?, hline, Machine.execute?] at h
  next hline => simp [Machine.step?, hline, Machine.execute?] at h
  next => simp [h]

theorem step?_count {x : Register}
    (h : c.machine.lines[s.line]? = some (.instruction (.special .hwn (.reg x)))) :
    c.step? s =
      some { s with toState := s.toState.next.assign x (UInt16.ofNat c.ids.length) } := by
  simp [step?, h, Machine.write?]

theorem step?_ask {operand : Operand} {k : UInt16} {id : UInt32}
    (h : c.machine.lines[s.line]? = some (.instruction (.special .hwq operand)))
    (hk : c.machine.plain? s.registers operand = some k) (hid : c.ids[k.toNat]? = some id) :
    c.step? s =
      some { s with toState :=
        { s.toState.next with registers := c.answer id s.toState.next } } := by
  have hr : c.machine.read? s.toState.next operand = some (k, s.toState.next) :=
    Machine.read?_of_plain? hk
  simp [step?, h, hr, hid]

theorem step?_send {operand : Operand} {k : UInt16}
    (h : c.machine.lines[s.line]? = some (.instruction (.special .hwi operand)))
    (hk : c.machine.read? s.toState.next operand = some (k, s.toState.next)) :
    c.step? s = some ⟨{ s.toState.next with
      registers := (c.respond k s.toState.next).1
      memory := (c.respond k s.toState.next).2 }, s.sent ++ [⟨k, s.registers .A⟩]⟩ := by
  simp only [step?, h, hk]
  rfl

theorem reaches_of_machine {t : Machine.State} (h : c.machine.Reaches s.toState t) :
    c.Reaches s { s with toState := t } := by
  obtain ⟨n, hn⟩ := h
  induction n generalizing s with
  | zero =>
      cases hn
      exact .refl s
  | succ n ih =>
      obtain ⟨u, hu, hn⟩ := Option.bind_eq_some_iff.mp hn
      exact .head (step?_of_machine hu) (ih (s := { s with toState := u }) hn)

end Computer

/-- The lines that keep registers on the stack around others. -/
def preserveLines (registers : List Register) (code : List Line) : List Line :=
  (registers.map fun x => .push (.reg x)) ++ code ++ registers.reverse.map fun x => .pop (.reg x)

theorem assignAll_map (targets : List Register) (r r' : Registers) :
    assignAll targets (targets.map r) r' = fun x => if x ∈ targets then r x else r' x := by
  induction targets with
  | nil => simp [assignAll]
  | cons y targets ih =>
      funext x
      rw [List.map_cons, assignAll_cons, ih]
      rcases eq_or_ne x y with rfl | hne
      · simp
      · simp [hne]

namespace Computer

variable {c : Computer} {s t : State} {registers : List Register} {code : List Line}

/-- The state in which the lines begin around which registers are kept. -/
def State.keeping (s : State) (registers : List Register) : State :=
  { s with
    line := s.line + registers.length
    stack := (registers.map s.registers).reverse ++ s.stack }

/-- Lines that leave the stack as they find it, with registers kept around them. -/
theorem reaches_preserve (h : c.machine.Holds s.line (preserveLines registers code))
    (hinner : c.Reaches (s.keeping registers) t)
    (hline : t.line = s.line + registers.length + code.length)
    (hstack : t.stack = (s.keeping registers).stack) :
    c.Reaches s { t with
      line := s.line + (preserveLines registers code).length
      registers := fun x => if x ∈ registers then s.registers x else t.registers x
      stack := s.stack } := by
  obtain ⟨hbegin, hpops⟩ := Machine.holds_append.mp h
  obtain ⟨hpushes, -⟩ := Machine.holds_append.mp hbegin
  have hwords : List.Forall₂ (fun a w => c.machine.plain? s.registers a = some w)
      (registers.map .reg) (registers.map s.registers) := by
    rw [List.forall₂_map_left_iff, List.forall₂_map_right_iff]
    exact List.forall₂_same.mpr fun x _ => rfl
  have hpushed := Machine.reaches_pushes hwords (by rwa [List.map_map])
  rw [List.length_map] at hpushed
  rw [List.length_append, List.length_map, ← Nat.add_assoc, ← hline] at hpops
  have hpopped := Machine.reaches_pops (by simp) hpops hstack
  rw [foldl_reverse_eq_assignAll (by simp), assignAll_map, List.length_reverse] at hpopped
  have hend : s.line + (preserveLines registers code).length = t.line + registers.length := by
    simp only [preserveLines, List.length_append, List.length_map, List.length_reverse]
    omega
  rw [hend]
  exact (reaches_of_machine hpushed).trans (hinner.trans (reaches_of_machine hpopped))

end Computer

end P16
