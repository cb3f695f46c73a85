import P16.Proofs.Hardware
import P16.Proofs.MemoryImages
import P16.Proofs.MemoryWrites

/-!
# Sending messages to devices

The hook `interrupt` puts the message into `A` before the device is looked up, and keeps `A` on the
stack meanwhile. So the message goes to the device that the caller means, unless the caller means
the one whose number is in `A`: then the message is taken for the number of the device.
-/

namespace P16

/-- The number of the device that an argument stands for. A label stands for the word that is kept
there. -/
def Cpu.deviceNumber? (m : Machine) (s : Machine.State) : Value → Option UInt16
  | .label name => some (s.memory (m.word name))
  | value => value.word? m.word s.registers

def Cpu.interruptLines (device message : Operand) : List Line :=
  preserveLines [.A] [.set (.reg .A) message, .instruction (.special .hwi device)]

namespace Cpu

variable {args : CallArguments} {t t' : Target} {device message : Operand}

theorem interrupt_inv (h : interrupt args t = .ok () t') :
    ∃ v v' device message, args.find? 0 "hardware" = some v ∧ args.find? 1 "message" = some v' ∧
      hardware v = .ok device ∧ v'.operand? = some message ∧
      t' = { t with program := t.program.writeAll (interruptLines device message) } := by
  obtain ⟨-, -, h⟩ := HookM.check_bind_eq_ok_iff.mp h
  obtain ⟨device, hdevice, h⟩ := HookM.check_bind_eq_ok_iff.mp h
  obtain ⟨message, hmessage, h⟩ := HookM.check_bind_eq_ok_iff.mp h
  obtain ⟨v, hv, hdevice⟩ := exists_of_bind_eq_ok hdevice
  obtain ⟨v', hv', -⟩ := exists_of_bind_eq_ok hmessage
  have hfound := CallArguments.find?_of_get hv'
  cases h
  exact ⟨v, v', device, message, CallArguments.find?_of_get hv, hfound, hdevice,
    (CallArguments.operand_eq_ok_iff hfound).mp hmessage, rfl⟩

theorem read?_of_hardware {v : Value} (h : hardware v = .ok device) (m : Machine)
    (s : Machine.State) : ∃ k, deviceNumber? m s v = some k ∧ m.read? s device = some (k, s) := by
  have hoperand (hv : deviceNumber? m s v = v.word? m.word s.registers)
      (ho : v.expectOperand "hardware" = .ok device) :
      ∃ k, deviceNumber? m s v = some k ∧ m.read? s device = some (k, s) := by
    have hdevice : v.operand? = some device := by
      unfold Value.expectOperand at ho
      split at ho
      · cases ho
        assumption
      · cases ho
    obtain ⟨k, hplain, hk⟩ := Compilation.plain?_of_operand? m s.registers hdevice
    exact ⟨k, hv.trans hk, Machine.read?_of_plain? hplain⟩
  cases v with
  | label name =>
      cases h
      exact ⟨_, rfl, rfl⟩
  | _ => exact hoperand rfl h

theorem deviceNumber?_assign {m : Machine} {s : Machine.State} {v : Value} {w : UInt16}
    (hv : v ≠ .register .A) : deviceNumber? m (s.assign .A w) v = deviceNumber? m s v := by
  cases v with
  | register x =>
      have hx : x ≠ .A := fun hx => hv (hx ▸ rfl)
      simp [deviceNumber?, Value.word?, hx]
  | _ => rfl

/-- The lines send one message, which is the word that was asked for, to the device whose number the
operand gives once the message is in `A`. -/
theorem reaches_interrupt {c : Computer} {s : Computer.State} {v v' : Value}
    (hv : hardware v = .ok device) (hv' : v'.operand? = some message)
    (h : c.machine.Holds s.line (interruptLines device message)) :
    ∃ w k s', v'.word? c.machine.word s.registers = some w ∧ c.Reaches s s' ∧
      s'.line = s.line + (interruptLines device message).length ∧
      s'.registers .A = s.registers .A ∧ s'.stack = s.stack ∧ s'.sent = s.sent ++ [⟨k, w⟩] ∧
      deviceNumber? c.machine (s.toState.assign .A w) v = some k := by
  obtain ⟨hbegin, -⟩ := Machine.holds_append.mp h
  obtain ⟨-, hcode⟩ := Machine.holds_append.mp hbegin
  obtain ⟨hset, hcode⟩ := Machine.holds_cons.mp hcode
  obtain ⟨hsend, -⟩ := Machine.holds_cons.mp hcode
  obtain ⟨w, hplain, hw⟩ := Compilation.plain?_of_operand? c.machine s.registers hv'
  have hstep : c.machine.step? (s.keeping [.A]).toState =
      some ((s.keeping [.A]).toState.next.assign .A w) := Machine.step?_set hset hplain
  let s₁ : Computer.State :=
    { s.keeping [.A] with toState := (s.keeping [.A]).toState.next.assign .A w }
  obtain ⟨k, hk, hread⟩ := read?_of_hardware hv c.machine s₁.toState.next
  have hinner : c.Reaches (s.keeping [.A]) _ :=
    .head (Computer.step?_of_machine hstep) (.head (Computer.step?_send (s := s₁) hsend hread)
      (.refl _))
  have hall := Computer.reaches_preserve h hinner rfl rfl
  refine ⟨w, k, _, hw, hall, rfl, rfl, rfl, ?_, hk⟩
  change s.sent ++ [⟨k, Function.update s.registers .A w .A⟩] = _
  rw [Function.update_self]

end Cpu

/-- Where the hook `interrupt` is given a device and a message that it accepts, the lines that it
writes send one message, the word that was asked for, and leave `A` and the stack as they were. The
message goes to the device that was asked for exactly if the device is not given by `A`, or `A`
happens to hold the message. -/
theorem interrupt_delivered_iff {args : CallArguments} {t t' : Target}
    (h : Cpu.interrupt args t = .ok () t') :
    ∃ hardware message code, args.find? 0 "hardware" = some hardware ∧
      args.find? 1 "message" = some message ∧
      t' = { t with program := t.program.writeAll code } ∧
      ∀ (c : Computer) (s : Computer.State), c.machine.Holds s.line code →
        ∃ device w k s', Cpu.deviceNumber? c.machine s.toState hardware = some device ∧
          message.word? c.machine.word s.registers = some w ∧ c.Reaches s s' ∧
          s'.line = s.line + code.length ∧ s'.registers .A = s.registers .A ∧
          s'.stack = s.stack ∧ s'.sent = s.sent ++ [⟨k, w⟩] ∧
          (k = device ↔ (hardware = .register .A → w = device)) := by
  obtain ⟨v, v', deviceOperand, messageOperand, hfound, hfound', hv, hv', rfl⟩ :=
    Cpu.interrupt_inv h
  refine ⟨v, v', _, hfound, hfound', rfl, fun c s hcode => ?_⟩
  obtain ⟨w, k, s', hw, hreach, hline, hA, hstack, hsent, hk⟩ := Cpu.reaches_interrupt hv hv' hcode
  obtain ⟨device, hdevice, -⟩ := Cpu.read?_of_hardware hv c.machine s.toState
  refine ⟨device, w, k, s', hdevice, hw, hreach, hline, hA, hstack, hsent, ?_⟩
  by_cases hregister : v = .register .A
  · subst hregister
    have hkw : k = w := by simpa [Cpu.deviceNumber?, Value.word?, eq_comm] using hk
    simp [hkw]
  · rw [Cpu.deviceNumber?_assign hregister, hdevice] at hk
    cases hk
    simp [hregister]

/-- `interrupt(A, 3)` sends the message to device 3, although `A` holds 5. -/
theorem interrupt_message_taken_for_device :
    let code := Cpu.interruptLines (.reg .A) (.lit 3)
    let c : Computer :=
      ⟨.ofLines code (fun _ a _ => a) (by decide), [], fun s => s.registers,
        fun _ s => (s.registers, s.memory)⟩
    let s : Computer.State := ⟨⟨0, fun _ => 5, fun _ => 0, []⟩, []⟩
    ∃ t' s', Cpu.interrupt ⟨[.register .A, .number 3], .empty⟩ ⟨.start, .start, #[]⟩ = .ok () t' ∧
      t'.program.body = code.toArray ∧
      Cpu.deviceNumber? c.machine s.toState (.register .A) = some 5 ∧ c.Reaches s s' ∧
      s'.line = code.length ∧ s'.sent = [⟨3, 3⟩] := by
  intro code c s
  have hdevice : Cpu.hardware (.register .A) = .ok (.reg .A) := rfl
  have hmessage : (Value.number 3).operand? = some (.lit 3) := rfl
  obtain ⟨w, k, s', hw, hreach, hline, -, -, hsent, hk⟩ :=
    Cpu.reaches_interrupt (c := c) (s := s) hdevice hmessage (List.prefix_refl code)
  cases hw
  cases hk
  exact ⟨_, s', rfl, rfl, rfl, hreach, hline.trans (Nat.zero_add _), hsent⟩

/-- A message that is in `A` reaches the device whose number is kept under a label. -/
theorem interrupt_delivered_iff_labelled :
    let code := Cpu.interruptLines (.mem (.label "keyboard")) (.reg .A)
    let lines := code ++ [.label "keyboard", .instruction (.data [.lit 7])]
    let c : Computer :=
      ⟨.ofLines lines (fun _ a _ => a) (by decide), [], fun s => s.registers,
        fun _ s => (s.registers, s.memory)⟩
    let s : Computer.State := ⟨⟨0, fun _ => 5, Machine.imageMemory lines, []⟩, []⟩
    ∃ t' s', Cpu.interrupt ⟨[.label "keyboard", .register .A], .empty⟩ ⟨.start, .start, #[]⟩ =
        .ok () t' ∧
      t'.program.body = code.toArray ∧ c.Reaches s s' ∧ s'.line = code.length ∧
      s'.registers .A = 5 ∧ s'.stack = [] ∧ s'.sent = [⟨7, 5⟩] := by
  intro code lines c s
  obtain ⟨v, v', written, hv, hv', hprogram, hrun⟩ := @interrupt_delivered_iff
    ⟨[.label "keyboard", .register .A], .empty⟩ ⟨.start, .start, #[]⟩ _ rfl
  cases hv
  cases hv'
  obtain rfl : code = written :=
    (congrArg (fun t => t.program.written) hprogram).trans (Program.written_writeAll _ _)
  obtain ⟨device, w, k, s', hdevice, hw, hreach, hline, hA, hstack, hsent, hk⟩ :=
    hrun c s (List.prefix_append code _)
  cases hdevice
  cases hw
  rw [hk.mpr nofun] at hsent
  exact ⟨_, s', rfl, rfl, hreach, hline.trans (Nat.zero_add _), hA, hstack, hsent⟩

end P16
