import P16.Extension.ScreenText

/-!
# The extension `mem`

Writes to memory: one word, or a text in screen cells.
-/

namespace P16.Memory

def set (args : CallArguments) : HookM Unit := do
  MonadExcept.ofExcept (args.atMost 2)
  let location ← MonadExcept.ofExcept (args.operand 0 "location")
  let value ← MonadExcept.ofExcept (args.operand 1 "value")
  HookM.write fun p => p.set (.mem location) value

def setString (args : CallArguments) : HookM Unit := do
  MonadExcept.ofExcept (args.atMost 4)
  let start ← MonadExcept.ofExcept (args.number 0 "start")
  let text ← MonadExcept.ofExcept (args.text 1 "text")
  let foreground ← MonadExcept.ofExcept (args.number 2 "color")
  let background ← MonadExcept.ofExcept (args.number 3 "highlight_color")
  ScreenText.write ⟨foreground, background⟩ start text.toList

def extension : Extension :=
  { Extension.empty with hooks := [⟨"set", set⟩, ⟨"set_string", setString⟩] }

end P16.Memory
