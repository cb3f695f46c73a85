import P16.Extension.Arguments

/-!
# The extension `dev.cpu`

Hardware interrupts.
-/

namespace P16.Cpu

/-- The device to interrupt. A label names the word in which the device's number is kept. -/
def hardware : Value → Except String Operand
  | .label name => .ok (.mem (.label name))
  | value => value.expectOperand "hardware"

/-- Sends a message to a device. The register that carries the message keeps its value. -/
def interrupt (args : CallArguments) : HookM Unit := do
  MonadExcept.ofExcept (args.atMost 2)
  let device ← MonadExcept.ofExcept (args.get 0 "hardware" >>= hardware)
  let message ← MonadExcept.ofExcept (args.operand 1 "message")
  HookM.write fun p =>
    p.preserve [.A] fun p => (p.set (.reg .A) message).special .hwi device

def extension : Extension :=
  { Extension.empty with hooks := [⟨"interrupt", interrupt⟩] }

end P16.Cpu
