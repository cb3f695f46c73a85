import P16.Extension.ScreenText

/-!
# The extension `dev.display`

Fixed text on the screen. `configure` keeps colours in the settings of the module, and
`write_static` uses them where a call gives none.
-/

namespace P16.Display

def colorNames : List String :=
  ["color_black", "color_dark_blue", "color_green", "color_teal", "color_purple",
   "color_dark_red", "color_brown", "color_light_gray", "color_gray", "color_blue",
   "color_light_green", "color_light_blue", "color_red", "color_pink", "color_yellow",
   "color_white"]

def configure (args : CallArguments) : HookM Unit := do
  MonadExcept.ofExcept (args.atMost 0)
  HookM.updateStore fun s =>
    args.keywords.entries.foldl (fun s entry => s.configure entry.1 entry.2) s

def color (args : CallArguments) (s : Store) (place : Nat) (name : String) : Except String Int :=
  match args.find? place name <|> s.setting? name with
  | some value => value.expectNumber name
  | none => .error ("no `" ++ name ++ "` given or configured")

def writeStatic (args : CallArguments) : HookM Unit := do
  MonadExcept.ofExcept (args.atMost 4)
  let text ← MonadExcept.ofExcept (args.text 0 "text")
  let location ← MonadExcept.ofExcept (args.number 1 "location")
  let store ← HookM.getStore
  let foreground ← MonadExcept.ofExcept (color args store 2 "color")
  let background ← MonadExcept.ofExcept (color args store 3 "highlight_color")
  ScreenText.write ⟨foreground, background⟩ location text.toList

def extension : Extension :=
  { Extension.empty with
    hooks := [⟨"configure", configure⟩, ⟨"write_static", writeStatic⟩]
    constants := colorNames.zipIdx.map fun entry => (entry.1, .number entry.2) }

end P16.Display
