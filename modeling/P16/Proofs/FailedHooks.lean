import P16.Proofs.StaticText

/-!
# Hooks that fail

A bundled hook checks its arguments before it changes anything, so that it leaves everything as it
was if it fails. The two hooks for static text are the exception: they look at each character when
they come to it, and by then the characters before it are written.
-/

namespace P16

section runs

variable {α β : Type} {t t' : Target} {message : String}

theorem HookM.check_bind_eq_error_iff {x : Except String α} {f : α → HookM β} :
    ((MonadExcept.ofExcept x : HookM α) >>= f) t = .error message t' ↔
      x = .error message ∧ t' = t ∨ ∃ a, x = .ok a ∧ f a t = .error message t' := by
  cases x with
  | error other =>
      change EStateM.Result.error other t = .error message t' ↔ _
      simp [eq_comm]
  | ok a =>
      change f a t = .error message t' ↔ _
      simp

/-- Where the action fails, it has changed nothing, or else `P` holds of what it found. -/
def HookM.CleanUnless (P : Target → Prop) (act : HookM α) : Prop :=
  ∀ t message t', act t = .error message t' → P t ∨ t' = t

namespace HookM.CleanUnless

variable {P : Target → Prop}

theorem check_bind {x : Except String α} {f : α → HookM β}
    (h : ∀ a, x = .ok a → (f a).CleanUnless P) :
    ((MonadExcept.ofExcept x : HookM α) >>= f).CleanUnless P := by
  intro t message t' hrun
  rcases check_bind_eq_error_iff.mp hrun with ⟨-, ht⟩ | ⟨a, ha, hrun⟩
  · exact .inr ht
  · exact h a ha t message t' hrun

theorem getStore_bind {f : Store → HookM β}
    (h : ∀ s, (f s).CleanUnless fun t => t.store = s → P t) :
    (HookM.getStore >>= f).CleanUnless P := by
  intro t message t' hrun
  exact (h t.store t message t' hrun).imp_left fun hP => hP rfl

theorem write (f : Program → Program) : (HookM.write f).CleanUnless P := by
  rintro t message t' ⟨⟩

theorem updateStore (f : Store → Store) : (HookM.updateStore f).CleanUnless P := by
  rintro t message t' ⟨⟩

end HookM.CleanUnless

end runs

namespace ScreenText

variable {colors : Colors} {location : Int} {c : Char} {cs before rest : List Char}
  {lines : List Line} {t t' : Target} {message : String}

/-- The character cannot be written to the place, for the reason that the message gives. -/
def Refused (colors : Colors) (location : Int) (c : Char) (message : String) : Prop :=
  cell colors c = .error message ∨ (∃ w, cell colors c = .ok w) ∧ address location = .error message

theorem Refused.not_fits (h : Refused colors location c message) : ¬ Fits colors location [c] := by
  intro hfits
  have hshown : ∃ lines, Shown colors location [c] lines := exists_shown_iff.mpr (.inr hfits)
  obtain ⟨_, hshown⟩ := hshown
  cases hshown with
  | @cons _ _ _ _ a w hc hw ha hrest =>
      have hcell : cell colors c = .ok w := cell_eq_ok_iff.mpr ⟨hc, hw⟩
      have haddress : address location = .ok (.mem (.lit a)) := address_eq_ok_iff.mpr ⟨a, ha, rfl⟩
      rcases h with h | ⟨-, h⟩
      · rw [hcell] at h
        cases h
      · rw [haddress] at h
        cases h

theorem Shown.fits_head (h : Shown colors location (c :: cs) lines) : Fits colors location [c] := by
  cases h with
  | cons hc hw ha _ =>
      have hshown := exists_shown_iff.mp ⟨_, Shown.cons hc hw ha .nil⟩
      exact hshown.resolve_left (List.cons_ne_nil c [])

theorem write_of_refused (h : Refused colors location c message) :
    write colors location (c :: cs) t = .error message t := by
  rw [write, HookM.check_bind_eq_error_iff]
  rcases h with hcell | ⟨⟨w, hcell⟩, haddress⟩
  · exact .inl ⟨hcell, rfl⟩
  · exact .inr ⟨w, hcell, HookM.check_bind_eq_error_iff.mpr (.inl ⟨haddress, rfl⟩)⟩

/-- Where writing fails, it has written the characters before one that cannot be written. -/
theorem write_eq_error_iff :
    write colors location cs t = .error message t' ↔ ∃ before c rest lines,
      cs = before ++ c :: rest ∧ Shown colors location before lines ∧
      Refused colors (location + before.length) c message ∧
      t' = { t with program := t.program.writeAll lines } := by
  constructor
  · intro h
    induction cs generalizing location t with
    | nil => cases h
    | cons c cs ih =>
        rcases HookM.check_bind_eq_error_iff.mp h with ⟨hcell, rfl⟩ | ⟨w, hcell, h⟩
        · exact ⟨[], c, cs, [], rfl, .nil, .inl hcell, rfl⟩
        rcases HookM.check_bind_eq_error_iff.mp h with ⟨haddress, rfl⟩ | ⟨target, htarget, h⟩
        · exact ⟨[], c, cs, [], rfl, .nil, .inr ⟨⟨w, hcell⟩, by simpa using haddress⟩, rfl⟩
        obtain ⟨before, d, rest, lines, rfl, hshown, hrefused, rfl⟩ := ih h
        obtain ⟨hc, hw⟩ := cell_eq_ok_iff.mp hcell
        obtain ⟨a, ha, rfl⟩ := address_eq_ok_iff.mp htarget
        refine ⟨c :: before, d, rest, _, rfl, .cons hc hw ha hshown, ?_, rfl⟩
        rwa [List.length_cons, Nat.cast_add, Nat.cast_one, Int.add_comm _ 1, ← Int.add_assoc]
  · rintro ⟨before, c, rest, lines, rfl, hshown, hrefused, rfl⟩
    rw [write_append (write_eq_ok_iff.mpr ⟨lines, hshown, rfl⟩), write_of_refused hrefused]

end ScreenText

open ScreenText

/-- The hook of this name is called to write the characters to the screen. -/
inductive WritesText (args : CallArguments) (s : Store) (name : String) :
    Colors → Int → List Char → Prop where
  | setString {start foreground background : Int} {text : String} (hname : name = "set_string")
      (hmost : args.atMost 4 = .ok ()) (hstart : args.number 0 "start" = .ok start)
      (htext : args.text 1 "text" = .ok text)
      (hforeground : args.number 2 "color" = .ok foreground)
      (hbackground : args.number 3 "highlight_color" = .ok background) :
      WritesText args s name ⟨foreground, background⟩ start text.toList
  | writeStatic {location foreground background : Int} {text : String}
      (hname : name = "write_static") (hmost : args.atMost 4 = .ok ())
      (htext : args.text 0 "text" = .ok text) (hlocation : args.number 1 "location" = .ok location)
      (hforeground : Display.color args s 2 "color" = .ok foreground)
      (hbackground : Display.color args s 3 "highlight_color" = .ok background) :
      WritesText args s name ⟨foreground, background⟩ location text.toList

section hooks

variable {args : CallArguments} {name : String} {colors colors' : Colors}
  {location location' : Int} {cs cs' : List Char} {t t' : Target} {message : String}

theorem WritesText.name_eq {s : Store} (h : WritesText args s name colors location cs) :
    name = "set_string" ∨ name = "write_static" := by
  cases h with
  | setString hname => exact .inl hname
  | writeStatic hname => exact .inr hname

theorem WritesText.unique {s : Store} (h : WritesText args s name colors location cs)
    (h' : WritesText args s name colors' location' cs') :
    colors' = colors ∧ location' = location ∧ cs' = cs := by
  cases h <;> cases h' <;> simp_all

def AsksForText (args : CallArguments) (name : String) (t : Target) : Prop :=
  ∃ colors location cs, WritesText args t.store name colors location cs

theorem Memory.setString_cleanUnless :
    (Memory.setString args).CleanUnless (AsksForText args "set_string") := by
  refine .check_bind fun _ hmost => .check_bind fun start hstart => .check_bind fun text htext => ?_
  refine .check_bind fun foreground hforeground => .check_bind fun background hbackground => ?_
  intro t _ _ _
  exact .inl ⟨_, _, _, .setString rfl hmost hstart htext hforeground hbackground⟩

theorem Display.writeStatic_cleanUnless :
    (Display.writeStatic args).CleanUnless (AsksForText args "write_static") := by
  refine .check_bind fun _ hmost => .check_bind fun text htext => ?_
  refine .check_bind fun location hlocation => .getStore_bind fun s => ?_
  refine .check_bind fun foreground hforeground => .check_bind fun background hbackground => ?_
  rintro t _ _ _
  refine .inl ?_
  rintro rfl
  exact ⟨_, _, _, .writeStatic rfl hmost htext hlocation hforeground hbackground⟩

theorem WritesText.setString_eq {s : Store}
    (h : WritesText args s "set_string" colors location cs) :
    Memory.setString args = ScreenText.write colors location cs := by
  cases h with
  | setString _ hmost hstart htext hforeground hbackground =>
      rw [Memory.setString, hmost, hstart, htext, hforeground, hbackground]
      rfl
  | writeStatic hname => exact absurd hname (by decide)

theorem WritesText.writeStatic_eq (h : WritesText args t.store "write_static" colors location cs) :
    Display.writeStatic args t = ScreenText.write colors location cs t := by
  cases h with
  | setString hname => exact absurd hname (by decide)
  | writeStatic _ hmost htext hlocation hforeground hbackground =>
      rw [Display.writeStatic, hmost, htext, hlocation]
      change ((MonadExcept.ofExcept (Display.color args t.store 2 "color") : HookM Int) >>= _) t = _
      rw [hforeground, hbackground]
      rfl

theorem Registry.mem_of_hook?_bundled {ref : HookRef} {hook : Hook}
    (h : bundled.hook? ref = some hook) :
    hook ∈ Cpu.extension.hooks ++ Display.extension.hooks ++ Memory.extension.hooks := by
  obtain ⟨e, he, hfound⟩ := Option.bind_eq_some_iff.mp h
  have hmem : hook ∈ e.hooks := List.mem_reverse.mp (List.mem_of_find?_eq_some hfound)
  have hbundled := mem_bundled he
  simp only [List.mem_cons, List.not_mem_nil, or_false] at hbundled
  rcases hbundled with rfl | rfl | rfl | rfl
  · exact List.mem_append_left _ (List.mem_append_left _ hmem)
  · exact List.mem_append_left _ (List.mem_append_right _ hmem)
  · cases hmem
  · exact List.mem_append_right _ hmem

/-- A bundled hook that is called to write a text writes it, and any other one has changed nothing
if it fails. -/
theorem hook_writesText {ref : HookRef} {hook : Hook}
    (hhook : Registry.bundled.hook? ref = some hook) (args : CallArguments) :
    (hook.run args).CleanUnless (AsksForText args hook.name) ∧
      ∀ t colors location cs, WritesText args t.store hook.name colors location cs →
        hook.run args t = ScreenText.write colors location cs t := by
  rcases List.mem_append.mp (Registry.mem_of_hook?_bundled hhook) with hmem | hmem
  · rcases hmem with ⟨⟩ | ⟨_, ⟨⟩ | ⟨_, ⟨⟩ | ⟨_, ⟨⟩⟩⟩⟩
    · refine ⟨.check_bind fun _ _ => .check_bind fun _ _ => .check_bind fun _ _ => .write _, ?_⟩
      exact fun _ _ _ _ h => absurd h.name_eq (by decide)
    · refine ⟨.check_bind fun _ _ => .updateStore _, ?_⟩
      exact fun _ _ _ _ h => absurd h.name_eq (by decide)
    · exact ⟨Display.writeStatic_cleanUnless, fun t _ _ _ h => h.writeStatic_eq⟩
  · rcases hmem with ⟨⟩ | ⟨_, ⟨⟩ | ⟨_, ⟨⟩⟩⟩
    · refine ⟨.check_bind fun _ _ => .check_bind fun _ _ => .check_bind fun _ _ => .write _, ?_⟩
      exact fun _ _ _ _ h => absurd h.name_eq (by decide)
    · exact ⟨Memory.setString_cleanUnless, fun t _ _ _ h => congrFun h.setString_eq t⟩

theorem fits_last {before : List Char} {c : Char} (h : Fits colors location (before ++ [c])) :
    Fits colors (location + before.length) [c] := by
  obtain ⟨hascii, hforeground, hbackground, hlow, hhigh⟩ := h
  rw [List.length_append, List.length_singleton] at hhigh
  refine ⟨fun d hd => hascii d (List.mem_append_right _ hd), hforeground, hbackground, ?_, ?_⟩
  · omega
  · rw [List.length_singleton]
    omega

theorem Program.writeAll_eq_self_iff {p : Program} {lines : List Line} :
    p.writeAll lines = p ↔ lines = [] := by
  constructor
  · intro h
    have hwritten := p.written_writeAll lines
    rw [h] at hwritten
    simpa using hwritten
  · rintro rfl
    rfl

theorem ScreenText.unchanged_iff_of_write_error
    (h : ScreenText.write colors location cs t = .error message t') :
    (t' = t ↔ ∀ c rest, cs = c :: rest → ¬ Fits colors location [c]) ∧
      ∃ lines, t' = { t with program := t.program.writeAll lines } ∧
        ∃ before c rest, cs = before ++ c :: rest ∧ Shown colors location before lines ∧
          ¬ Fits colors location (before ++ [c]) := by
  obtain ⟨before, c, rest, lines, rfl, hshown, hrefused, rfl⟩ := write_eq_error_iff.mp h
  refine ⟨?_, lines, rfl, before, c, rest, rfl, hshown, fun hfits =>
    hrefused.not_fits (fits_last hfits)⟩
  cases hshown with
  | nil =>
      refine iff_of_true rfl ?_
      rintro d rest' ⟨⟩
      simpa using hrefused.not_fits
  | @cons _ d before lines a w hc hw ha hrest =>
      refine iff_of_false (fun hsame => ?_) fun hnone => ?_
      · have hprogram := congrArg Target.program hsame
        exact List.cons_ne_nil _ _ (Program.writeAll_eq_self_iff.mp hprogram)
      · exact hnone d _ rfl (Shown.cons hc hw ha hrest).fits_head

end hooks

/-- A bundled hook that fails has changed the store in no way, and has written lines only if it is
one of the two for static text and the first character can be shown at its place. What it has
written then are the characters before the first one that cannot be shown. -/
theorem failed_hook_unchanged_iff {ref : HookRef} {hook : Hook} {args : CallArguments}
    {t t' : Target} {message : String} (hhook : Registry.bundled.hook? ref = some hook)
    (hrun : hook.run args t = .error message t') :
    (t' = t ↔ ∀ colors location c rest,
        WritesText args t.store hook.name colors location (c :: rest) →
          ¬ Fits colors location [c]) ∧
      ∃ lines, t' = { t with program := t.program.writeAll lines } ∧
        ∀ colors location cs, WritesText args t.store hook.name colors location cs →
          ∃ before c rest, cs = before ++ c :: rest ∧ Shown colors location before lines ∧
            ¬ Fits colors location (before ++ [c]) := by
  obtain ⟨hclean, hwrites⟩ := hook_writesText hhook args
  by_cases hasks : AsksForText args hook.name t
  case neg =>
    obtain rfl : t' = t := (hclean t message t' hrun).resolve_left hasks
    refine ⟨iff_of_true rfl fun colors location c rest htext => ?_, [], rfl, ?_⟩
    · exact absurd ⟨colors, location, _, htext⟩ hasks
    · exact fun colors location cs htext => absurd ⟨colors, location, cs, htext⟩ hasks
  obtain ⟨colors, location, cs, htext⟩ := hasks
  rw [hwrites t colors location cs htext] at hrun
  obtain ⟨hsame, lines, hlines, hstop⟩ := ScreenText.unchanged_iff_of_write_error hrun
  refine ⟨hsame.trans ⟨fun h colors' location' c rest htext' => ?_, fun h c rest hcs => ?_⟩,
    lines, hlines, fun colors' location' cs' htext' => ?_⟩
  · obtain ⟨rfl, rfl, hcs⟩ := htext.unique htext'
    exact h c rest hcs.symm
  · exact h colors location c rest (hcs ▸ htext)
  · obtain ⟨rfl, rfl, rfl⟩ := htext.unique htext'
    exact hstop

/-- A text is written up to the character that has no glyph. -/
theorem setString_fails_half_written :
    let t : Target := ⟨.start, .start, #[]⟩
    ∃ message t',
      Memory.setString ⟨[.number 0x8000, .text "aé", .number 1, .number 2], .empty⟩ t =
        .error message t' ∧
      t.program.body = #[] ∧
      t'.program.body = #[.set (.mem (.lit 0x8000)) (.lit 0x1261)] :=
  ⟨_, _, rfl, rfl, rfl⟩

/-- One character fits into the last word of memory, and the other has no place: the first one is
written. A word that cannot be written, on the other hand, changes nothing. -/
theorem failed_hook_unchanged_iff_last_word :
    let t : Target := ⟨.start, .start, #[]⟩
    let text : CallArguments := ⟨[.text "ab", .number 0xffff],
      .ofList [("highlight_color", .number 2), ("color", .number 15)]⟩
    let word : CallArguments := ⟨[.number 0x10000, .number 1], .empty⟩
    (∃ hook message t', Registry.bundled.hook? ⟨"dev.display", "write_static"⟩ = some hook ∧
      hook.run text t = .error message t' ∧ t' ≠ t) ∧
    ∃ hook message t', Registry.bundled.hook? ⟨"mem", "set"⟩ = some hook ∧
      hook.run word t = .error message t' ∧ t' = t := by
  intro t text word
  constructor
  · refine ⟨_, _, _, rfl, rfl, fun hsame => ?_⟩
    have hnone := (@failed_hook_unchanged_iff ⟨"dev.display", "write_static"⟩
      ⟨"write_static", Display.writeStatic⟩ text t _ _ rfl rfl).1.mp hsame
    have htext : WritesText text t.store "write_static" ⟨15, 2⟩ 0xffff "ab".toList :=
      .writeStatic rfl rfl rfl rfl rfl rfl
    exact hnone _ _ 'a' ['b'] htext ⟨by simp, by decide, by decide, by decide⟩
  · refine ⟨_, _, _, rfl, rfl, ?_⟩
    refine (@failed_hook_unchanged_iff ⟨"mem", "set"⟩ ⟨"set", Memory.set⟩ word t _ _ rfl
      rfl).1.mpr ?_
    intro colors location c rest htext
    exact absurd htext.name_eq (by decide)

end P16
