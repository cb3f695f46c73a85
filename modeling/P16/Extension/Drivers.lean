import P16.Extension.Basic

/-!
# The extension `dev.drivers`

Finds the attached hardware. Importing the module calls a routine that asks every attached device
for its identity and keeps the number of each known device in that device's word. The words of
devices that are not attached keep `0xffff`.
-/

namespace P16.Drivers

structure Device where
  cell : String
  /-- The place in the routine where the device has been recognised. -/
  detected : String
  idHigh : UInt16
  idLow : UInt16
deriving DecidableEq, Inhabited

def devices : List Device :=
  [⟨"generic_clock", "clock_detected", 0x12d0, 0xb402⟩,
   ⟨"floppy_drive", "floppy_detected", 0x4fd5, 0x24c5⟩,
   ⟨"generic_keyboard", "keyboard_detected", 0x30cf, 0x7406⟩,
   ⟨"display_monitor", "monitor_detected", 0x7349, 0xf615⟩,
   ⟨"sleep_chamber", "chamber_detected", 0x30e4, 0x1d9d⟩,
   ⟨"vector_display", "vector_detected", 0x42ba, 0xbf3c⟩]

/-- The registers that the routine changes. -/
def clobbered : List Register := [.A, .B, .C, .X, .Y, .I, .J]

/-- Jumps away if the device just asked is `device`. -/
def recognise (path : ModulePath) (p : Program) (device : Device) : Program :=
  ((p.basic .ife (.reg .A) (.lit device.idLow)).basic .ife (.reg .B) (.lit device.idHigh)).jump
    (path.mangle device.detected)

def keep (path : ModulePath) (p : Program) (device : Device) : Program :=
  let cell := path.mangle device.cell
  let p := (p.label (path.mangle device.detected)).set (.mem (.label cell)) (.reg .J)
  ((p.jump (path.mangle "continue")).label cell).data [.lit 0xffff]

def routine (path : ModulePath) (p : Program) : Program :=
  let loopStart := path.mangle "loop_start"
  let p := (p.label (path.mangle "initialize")).special .hwn (.reg .I)
  let p := (p.set (.reg .J) (.lit 0)).label loopStart
  let p := (p.basic .ife (.reg .J) (.reg .I)).popReturn
  let p := devices.foldl (recognise path) (p.special .hwq (.reg .J))
  let p := (p.label (path.mangle "continue")).basic .add (.reg .J) (.lit 1)
  devices.foldl (keep path) (p.jump loopStart)

def startUp : HookM Unit := do
  let path := (← HookM.getStore).current
  HookM.write fun p =>
    (p.preserve clobbered fun p => p.callSubroutine (path.mangle "initialize")).inFooter
      (routine path)

def extension : Extension :=
  { Extension.empty with cells := devices.map Device.cell, startUp? := some startUp }

end P16.Drivers
