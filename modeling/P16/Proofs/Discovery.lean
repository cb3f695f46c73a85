import P16.Proofs.FooterBlocks
import P16.Proofs.Frames
import P16.Proofs.Hardware
import P16.Proofs.ImportReports
import P16.Proofs.MemoryImages
import P16.Proofs.Subroutines

/-!
# The search for devices

Importing `dev.drivers` writes a call of a routine that asks all devices, one after the other, for
their identities. On every computer the call ends with the registers and the stack as they were, and
the word of each known device then keeps the number of the last device of that identity, or 0xffff
if there is none.

The invariant of the loop is about all words at once: after `k` devices have been asked, each word
keeps what it should if there were only those. A round changes at most one word, because the known
identities differ, and no other, because the words lie at different addresses.
-/

namespace P16

namespace Drivers

def Device.id (d : Device) : UInt32 := .ofNat (d.idHigh.toNat * 0x10000 + d.idLow.toNat)

theorem Device.id_eq_iff {d : Device} {id : UInt32} :
    d.id = id ↔ id.toUInt16 = d.idLow ∧ (id >>> 16).toUInt16 = d.idHigh := by
  have hlow := d.idLow.toNat_lt
  have hhigh := d.idHigh.toNat_lt
  have hid := id.toNat_lt
  have hd : d.id.toNat = d.idHigh.toNat * 0x10000 + d.idLow.toNat :=
    UInt32.toNat_ofNat_of_lt' (by rw [UInt32.size]; omega)
  have hshift : (id >>> 16).toNat = id.toNat / 0x10000 := by
    rw [UInt32.toNat_shiftRight, Nat.shiftRight_eq_div_pow]
    rfl
  rw [← UInt32.toNat_inj, ← UInt16.toNat_inj, ← UInt16.toNat_inj, UInt32.toNat_toUInt16,
    UInt32.toNat_toUInt16, hshift, hd]
  omega

theorem eq_of_id_eq : ∀ d ∈ devices, ∀ e ∈ devices, d.id = e.id → d = e := by
  decide

/-- The word is the number of the last device of the identity, or 0xffff if there is none. -/
def IsLast (ids : List UInt32) (id : UInt32) (w : UInt16) : Prop :=
  ids[w.toNat]? = some id ∧ (∀ k, w.toNat < k → ids[k]? ≠ some id) ∨ id ∉ ids ∧ w = 0xffff

section IsLast

variable {ids : List UInt32} {id other : UInt32} {w : UInt16}

theorem isLast_nil : IsLast [] id 0xffff := .inr ⟨List.not_mem_nil, rfl⟩

theorem isLast_concat_self (h : ids.length < 0x10000) :
    IsLast (ids ++ [id]) id (UInt16.ofNat ids.length) := by
  refine .inl ?_
  rw [UInt16.toNat_ofNat_of_lt' h]
  refine ⟨List.getElem?_concat_length, fun k hk => ?_⟩
  rw [List.getElem?_eq_none (by simp; omega)]
  exact (Option.some_ne_none id).symm

theorem IsLast.concat_of_ne (h : IsLast ids id w) (hne : other ≠ id) :
    IsLast (ids ++ [other]) id w := by
  rcases h with ⟨hw, hlast⟩ | ⟨hnone, hw⟩
  · have hlt := (List.getElem?_eq_some_iff.mp hw).1
    refine .inl ⟨by rwa [List.getElem?_append_left hlt], fun k hk => ?_⟩
    rcases Nat.lt_trichotomy k ids.length with hk' | rfl | hk'
    · rw [List.getElem?_append_left hk']
      exact hlast k hk
    · simpa using hne
    · rw [List.getElem?_eq_none (by simp; omega)]
      exact (Option.some_ne_none id).symm
  · refine .inr ⟨?_, hw⟩
    simp [hnone, hne.symm]

theorem IsLast.unique {w' : UInt16} (h : IsLast ids id w) (h' : IsLast ids id w') : w = w' := by
  rcases h with ⟨hw, hlast⟩ | ⟨hnone, rfl⟩
  · rcases h' with ⟨hw', hlast'⟩ | ⟨hnone, -⟩
    · have hle : w'.toNat ≤ w.toNat := Nat.le_of_not_lt fun hlt => hlast _ hlt hw'
      have hge : w.toNat ≤ w'.toNat := Nat.le_of_not_lt fun hlt => hlast' _ hlt hw
      exact UInt16.toNat_inj.mp (Nat.le_antisymm hge hle)
    · exact absurd (List.mem_of_getElem? hw) hnone
  · rcases h' with ⟨hw', -⟩ | ⟨-, rfl⟩
    · exact absurd (List.mem_of_getElem? hw') hnone
    · rfl

end IsLast

/-- The routine is in the program, and its labels do not occur before it. -/
structure Placed (m : Machine) (path : ModulePath) (start : Nat) : Prop where
  holds : m.Holds start (routineLines path)
  labels : ∀ name ∈ labelNames (routineLines path), name ∉ labelNames (m.lines.take start)

theorem nodup_labelNames_routineLines (path : ModulePath) :
    (labelNames (routineLines path)).Nodup := by
  rw [labelNames_routineLines]
  exact List.Nodup.map path.mangle_injective (by decide)

theorem exists_routineLines_eq (path : ModulePath) {d : Device} (hd : d ∈ devices) :
    ∃ before after, routineLines path = before ++ (keepLines path d ++ after) := by
  obtain ⟨first, last, hdevices⟩ := List.append_of_mem hd
  have hkeep : devices.flatMap (keepLines path) =
      first.flatMap (keepLines path) ++ (keepLines path d ++ last.flatMap (keepLines path)) := by
    rw [hdevices, List.flatMap_append, List.flatMap_cons]
  unfold routineLines
  rw [hkeep, ← List.append_assoc]
  exact ⟨_, _, rfl⟩

namespace Placed

variable {m : Machine} {path : ModulePath} {start : Nat} (h : Placed m path start)
include h

theorem position {name : String} (before code : List Line) {after : List Line}
    (hsplit : routineLines path = before ++ .label name :: (code ++ after)) :
    m.position? name = some (start + before.length) ∧
      m.Holds (start + before.length) (.label name :: code) := by
  have hholds := h.holds
  rw [hsplit, ← List.cons_append] at hholds
  refine ⟨?_, (Machine.holds_append.mp (Machine.holds_append.mp hholds).2).1⟩
  obtain ⟨rest, hrest⟩ := h.holds
  have hlines : m.lines =
      m.lines.take start ++ before ++ .label name :: (code ++ after ++ rest) := by
    conv_lhs => rw [← List.take_append_drop start m.lines, ← hrest, hsplit]
    simp
  have hlength : (m.lines.take start).length = start := by
    have hroom := congrArg List.length hrest
    rw [hsplit] at hroom
    simp only [List.length_append, List.length_cons, List.length_drop] at hroom
    rw [List.length_take]
    omega
  have hfresh := h.labels name (by rw [hsplit]; simp)
  have hnodup := nodup_labelNames_routineLines path
  rw [hsplit, labelNames_append, labelNames_label] at hnodup
  rw [Machine.position?_of_split hlines, List.length_append, hlength]
  rw [labelNames_append, List.mem_append]
  rintro (hmem | hmem)
  · exact hfresh hmem
  · exact (List.nodup_append.mp hnodup).2.2 name hmem name List.mem_cons_self rfl

theorem atEntry : m.position? (path.mangle "initialize") = some start ∧
    m.Holds start [.label (path.mangle "initialize"), .instruction (.special .hwn (.reg .I)),
      .set (.reg .J) (.lit 0)] :=
  h.position [] [_, _] rfl

theorem atLoopStart : m.position? (path.mangle "loop_start") = some (start + 3) ∧
    m.Holds (start + 3) ([.label (path.mangle "loop_start"),
      .instruction (.basic .ife (.reg .J) (.reg .I)), .pop (.special .pc),
      .instruction (.special .hwq (.reg .J))] ++ devices.flatMap (recogniseLines path)) :=
  h.position ((routineLines path).take 3) ([_, _, _] ++ devices.flatMap (recogniseLines path)) rfl

theorem behindTest : m.lines[start + 5]? = some (.pop (.special .pc)) ∧
    m.lines[start + 6]? = some (.instruction (.special .hwq (.reg .J))) := by
  obtain ⟨-, hlines⟩ := Machine.holds_cons.mp h.atLoopStart.2
  obtain ⟨-, hlines⟩ := Machine.holds_cons.mp hlines
  obtain ⟨hpop, hlines⟩ := Machine.holds_cons.mp hlines
  exact ⟨hpop, (Machine.holds_cons.mp hlines).1⟩

theorem atContinue : m.position? (path.mangle "continue") =
      some (start + 7 + (devices.flatMap (recogniseLines path)).length) ∧
    m.Holds (start + 7 + (devices.flatMap (recogniseLines path)).length)
      [.label (path.mangle "continue"), .instruction (.basic .add (.reg .J) (.lit 1)),
        .jump (path.mangle "loop_start")] :=
  h.position ((routineLines path).take 7 ++ devices.flatMap (recogniseLines path)) [_, _] rfl

theorem atKeep {d : Device} (hd : d ∈ devices) :
    ∃ i, m.position? (path.mangle d.detected) = some i ∧ m.Holds i (keepLines path d) := by
  obtain ⟨before, after, hsplit⟩ := exists_routineLines_eq path hd
  exact ⟨_, h.position before ((keepLines path d).drop 1) hsplit⟩

theorem atCell {d : Device} (hd : d ∈ devices) :
    ∃ i, m.position? (path.mangle d.cell) = some i ∧
      m.lines[i + 1]? = some (.instruction (.data [.lit 0xffff])) := by
  obtain ⟨before, after, hsplit⟩ := exists_routineLines_eq path hd
  have hcell : routineLines path = before ++ (keepLines path d).take 3 ++
      .label (path.mangle d.cell) :: ([.instruction (.data [.lit 0xffff])] ++ after) := by
    rw [hsplit, List.append_assoc]
    rfl
  obtain ⟨hposition, hlines⟩ := h.position _ _ hcell
  exact ⟨_, hposition, (Machine.holds_cons.mp (Machine.holds_cons.mp hlines).2).1⟩

theorem word_cell_ne (layout : m.Layout) {d e : Device} (hd : d ∈ devices) (he : e ∈ devices)
    (hne : d ≠ e) : m.word (path.mangle d.cell) ≠ m.word (path.mangle e.cell) := by
  have hcells : ∀ d ∈ devices, ∀ e ∈ devices, d.cell = e.cell → d = e := by decide
  have hnames : path.mangle d.cell ≠ path.mangle e.cell := fun heq =>
    hne (hcells d hd e he (path.mangle_injective heq))
  obtain ⟨i, hi, hdata⟩ := h.atCell hd
  obtain ⟨j, hj, hdata'⟩ := h.atCell he
  exact layout.word_ne hnames hi hj hdata hdata'

end Placed

section machine

variable {m : Machine} {path : ModulePath} {s : Machine.State} {id : UInt32}

theorem reaches_recogniseOne {d : Device} {i : Nat} (h : m.Holds s.line (recogniseLines path d))
    (hi : m.position? (path.mangle d.detected) = some i) (hA : s.registers .A = id.toUInt16)
    (hB : s.registers .B = (id >>> 16).toUInt16) :
    m.Reaches s (s.jump (if d.id = id then i else s.line + 3)) := by
  have hrest := (Machine.holds_cons.mp h).2
  have hjump := (Machine.holds_cons.mp (Machine.holds_cons.mp hrest).2).1
  have hlow := Machine.step?_guard [_] h rfl rfl rfl (by simp [Line.isTest]; rfl) rfl
  have hhigh := Machine.step?_guard (s := s.next) [] hrest rfl rfl rfl (by simp) rfl
  have hfound : m.step? s.next.next = some (s.jump i) := by
    rw [Machine.step?_jump hjump, hi]
    rfl
  simp only [hA, decide_eq_true_eq] at hlow
  simp only [Machine.State.next, Machine.State.registers_jump, hB, decide_eq_true_eq] at hhigh
  simp only [Device.id_eq_iff]
  -- If the first test fails, the second one is passed over together with the jump.
  by_cases hsameLow : id.toUInt16 = d.idLow
  · rw [if_pos hsameLow] at hlow
    refine .head hlow (.head hhigh ?_)
    by_cases hsameHigh : (id >>> 16).toUInt16 = d.idHigh
    · rw [if_pos hsameHigh, if_pos ⟨hsameLow, hsameHigh⟩]
      exact .single hfound
    · rw [if_neg hsameHigh, if_neg fun hsame => hsameHigh hsame.2]
      exact .refl _
  · rw [if_neg hsameLow] at hlow
    rw [if_neg fun hsame => hsameLow hsame.1]
    exact .single hlow

/-- The device that was asked is compared with the known devices, one after the other. -/
theorem reaches_recognise {known : List Device}
    (h : m.Holds s.line (known.flatMap (recogniseLines path)))
    (hknown : ∀ d ∈ known, ∃ i, m.position? (path.mangle d.detected) = some i)
    (hA : s.registers .A = id.toUInt16) (hB : s.registers .B = (id >>> 16).toUInt16) :
    (∃ d ∈ known, d.id = id ∧ ∃ i, m.position? (path.mangle d.detected) = some i ∧
      m.Reaches s (s.jump i)) ∨
    (∀ d ∈ known, d.id ≠ id) ∧
      m.Reaches s (s.jump (s.line + (known.flatMap (recogniseLines path)).length)) := by
  induction known generalizing s with
  | nil => exact .inr ⟨by simp, .refl s⟩
  | cons d known ih =>
      obtain ⟨hd, hrest⟩ := Machine.holds_append.mp h
      obtain ⟨i, hi⟩ := hknown d List.mem_cons_self
      have hone := reaches_recogniseOne hd hi hA hB
      by_cases hid : d.id = id
      · rw [if_pos hid] at hone
        exact .inl ⟨d, List.mem_cons_self, hid, i, hi, hone⟩
      rw [if_neg hid] at hone
      rcases ih (s := s.jump (s.line + 3)) hrest
        (fun e he => hknown e (List.mem_cons_of_mem _ he)) hA hB with
        ⟨e, he, heid, j, hj, hreach⟩ | ⟨hnone, hreach⟩
      · exact .inl ⟨e, List.mem_cons_of_mem _ he, heid, j, hj, hone.trans hreach⟩
      · refine .inr ⟨List.forall_mem_cons.mpr ⟨hid, hnone⟩, ?_⟩
        rw [List.flatMap_cons, List.length_append, ← Nat.add_assoc]
        exact hone.trans hreach

theorem reaches_loopTest {start : Nat} (h : Placed m path start) (hline : s.line = start + 3) :
    m.Reaches s (s.jump (if s.registers .J = s.registers .I then start + 5 else start + 6)) := by
  obtain ⟨hlabel, hlines⟩ := Machine.holds_cons.mp h.atLoopStart.2
  rw [← hline] at hlabel hlines
  have htest := Machine.step?_guard (s := s.next) [] hlines rfl rfl rfl (by simp) rfl
  refine .head (Machine.step?_label hlabel) (.single ?_)
  simpa [Machine.State.next, hline] using htest

theorem reaches_keep {start i : Nat} {d : Device} (h : Placed m path start) (hline : s.line = i)
    (hkeep : m.Holds i (keepLines path d)) :
    m.Reaches s { s with
      line := start + 7 + (devices.flatMap (recogniseLines path)).length
      memory := Function.update s.memory (m.word (path.mangle d.cell)) (s.registers .J) } := by
  subst hline
  obtain ⟨hlabel, hrest⟩ := Machine.holds_cons.mp hkeep
  obtain ⟨hstore, hrest⟩ := Machine.holds_cons.mp hrest
  obtain ⟨hjump, -⟩ := Machine.holds_cons.mp hrest
  refine .head (Machine.step?_label hlabel) ?_
  refine .head (Machine.step?_store hstore rfl rfl) (.single ?_)
  rw [Machine.step?_jump hjump, h.atContinue.1]
  rfl

/-- What the memory holds after a device of this identity has been asked. -/
structure Noted (m : Machine) (path : ModulePath) (id : UInt32) (number : UInt16)
    (memory memory' : UInt16 → UInt16) : Prop where
  word : ∀ d ∈ devices, memory' (m.word (path.mangle d.cell)) =
    if d.id = id then number else memory (m.word (path.mangle d.cell))
  frame : ∀ a, (∀ d ∈ devices, a ≠ m.word (path.mangle d.cell)) → memory' a = memory a

theorem reaches_noted {start : Nat} (layout : m.Layout) (h : Placed m path start)
    (hline : s.line = start + 7) (hA : s.registers .A = id.toUInt16)
    (hB : s.registers .B = (id >>> 16).toUInt16) :
    ∃ memory, Noted m path id (s.registers .J) s.memory memory ∧
      m.Reaches s { s with
        line := start + 7 + (devices.flatMap (recogniseLines path)).length
        memory } := by
  have hlines := (Machine.holds_append.mp h.atLoopStart.2).2
  rw [show start + 3 + _ = s.line from hline.symm] at hlines
  have hknown : ∀ d ∈ devices, ∃ i, m.position? (path.mangle d.detected) = some i := by
    intro d hd
    obtain ⟨i, hi, -⟩ := h.atKeep hd
    exact ⟨i, hi⟩
  rcases reaches_recognise hlines hknown hA hB with ⟨d, hd, rfl, i, hi, hreach⟩ | ⟨hnone, hreach⟩
  · obtain ⟨j, hj, hkeep⟩ := h.atKeep hd
    obtain rfl : i = j := Option.some.inj (hi.symm.trans hj)
    refine ⟨_, ⟨fun e he => ?_, fun a ha => ?_⟩, hreach.trans (reaches_keep h rfl hkeep)⟩
    · by_cases heq : e = d
      · subst heq
        rw [if_pos rfl, Function.update_self]
        rfl
      · rw [if_neg (mt (eq_of_id_eq e he d hd) heq),
          Function.update_of_ne (h.word_cell_ne layout he hd heq)]
        rfl
    · rw [Function.update_of_ne (ha d hd)]
      rfl
  · rw [hline] at hreach
    refine ⟨s.memory, ⟨fun d hd => ?_, fun _ _ => rfl⟩, hreach⟩
    rw [if_neg (hnone d hd)]

theorem reaches_nextRound {start : Nat} (h : Placed m path start)
    (hadd : ∀ a b, m.compute .add a b = a + b)
    (hline : s.line = start + 7 + (devices.flatMap (recogniseLines path)).length) :
    m.Reaches s { s with
      line := start + 3
      registers := Function.update s.registers .J (s.registers .J + 1) } := by
  have hlines := h.atContinue.2
  rw [← hline] at hlines
  obtain ⟨hlabel, hrest⟩ := Machine.holds_cons.mp hlines
  obtain ⟨hcount, hrest⟩ := Machine.holds_cons.mp hrest
  obtain ⟨hjump, -⟩ := Machine.holds_cons.mp hrest
  refine .head (Machine.step?_label hlabel)
    (.head (Machine.step?_compute (w := 1) hcount rfl rfl) (.single ?_))
  rw [Machine.step?_jump hjump, h.atLoopStart.1, hadd]
  rfl

end machine

theorem eq_of_not_mem_clobbered (x : Register) (h : x ∉ clobbered) : x = .Z := by
  cases x with
  | Z => rfl
  | _ => exact absurd (by decide) h

section computer

variable {c : Computer} {path : ModulePath} {start k : Nat} {s s₀ : Computer.State}

/-- The search that began in `s₀` has asked `k` devices. -/
structure Searching (c : Computer) (path : ModulePath) (s₀ : Computer.State) (k : Nat)
    (s : Computer.State) : Prop where
  count : s.registers .I = UInt16.ofNat c.ids.length
  number : s.registers .J = UInt16.ofNat k
  registers : ∀ x ∉ clobbered, s.registers x = s₀.registers x
  stack : s.stack = s₀.stack
  sent : s.sent = s₀.sent
  found : ∀ d ∈ devices,
    IsLast (c.ids.take k) d.id (s.memory (c.machine.word (path.mangle d.cell)))
  frame : ∀ a, (∀ d ∈ devices, a ≠ c.machine.word (path.mangle d.cell)) →
    s.memory a = s₀.memory a

section placed

variable (h : Placed c.machine path start)
include h

theorem reaches_searching {layout : c.machine.Layout} (hloaded : layout.Loaded s.memory)
    (hline : s.line = start) :
    ∃ t, c.Reaches s t ∧ t.line = start + 3 ∧ Searching c path s 0 t := by
  subst hline
  obtain ⟨hlabel, hrest⟩ := Machine.holds_cons.mp h.atEntry.2
  obtain ⟨hcount, hrest⟩ := Machine.holds_cons.mp hrest
  obtain ⟨hset, -⟩ := Machine.holds_cons.mp hrest
  let s₁ : Computer.State := { s with toState := s.toState.next }
  let s₂ : Computer.State :=
    { s with toState := s₁.toState.next.assign .I (UInt16.ofNat c.ids.length) }
  have hset : c.machine.step? s₂.toState = some (s₂.toState.next.assign .J 0) :=
    Machine.step?_set hset rfl
  refine ⟨_, .head (Computer.step?_of_machine (Machine.step?_label hlabel))
    (.head (Computer.step?_count (s := s₁) hcount)
      (.head (Computer.step?_of_machine (s := s₂) hset) (.refl _))), rfl, ?_⟩
  constructor
  case count => rfl
  case number => rfl
  case registers =>
    intro x hx
    obtain rfl := eq_of_not_mem_clobbered x hx
    rfl
  case stack => rfl
  case sent => rfl
  case frame => exact fun a _ => rfl
  case found =>
    intro d hd
    obtain ⟨i, hi, hdata⟩ := h.atCell hd
    have hword : s.memory (c.machine.word (path.mangle d.cell)) = 0xffff := hloaded.datum hi hdata
    rw [List.take_zero]
    exact hword ▸ isLast_nil

theorem reaches_ask {id : UInt32} (hline : s.line = start + 3)
    (hmore : s.registers .J ≠ s.registers .I)
    (hid : c.ids[(s.registers .J).toNat]? = some id) :
    c.Reaches s { s with toState := { s.toState with
      line := start + 7
      registers := c.answer id (s.toState.jump (start + 7)) } } := by
  obtain ⟨-, hask⟩ := h.behindTest
  have htest := reaches_loopTest h hline
  rw [if_neg hmore] at htest
  refine (Computer.reaches_of_machine htest).trans ?_
  exact .head (Computer.step?_ask hask rfl hid) (.refl _)

theorem Searching.round (layout : c.machine.Layout)
    (hadd : ∀ a b, c.machine.compute .add a b = a + b)
    (hids : c.ids.length ≤ 0xffff) (hs : Searching c path s₀ k s) (hline : s.line = start + 3)
    (hk : k < c.ids.length) :
    ∃ t, c.Reaches s t ∧ t.line = start + 3 ∧ Searching c path s₀ (k + 1) t := by
  have hid : c.ids[(s.registers .J).toNat]? = some c.ids[k] := by
    rw [hs.number, UInt16.toNat_ofNat_of_lt' (by rw [UInt16.size]; omega)]
    exact List.getElem?_eq_getElem hk
  have hmore : s.registers .J ≠ s.registers .I := by
    rw [hs.number, hs.count, ne_eq, ← UInt16.toNat_inj,
      UInt16.toNat_ofNat_of_lt' (by rw [UInt16.size]; omega),
      UInt16.toNat_ofNat_of_lt' (by rw [UInt16.size]; omega)]
    omega
  have hasked := reaches_ask h hline hmore hid
  let s₁ : Computer.State := { s with toState := { s.toState with
    line := start + 7
    registers := c.answer c.ids[k] (s.toState.jump (start + 7)) } }
  obtain ⟨memory, hnoted, hreach⟩ := reaches_noted (s := s₁.toState) layout h rfl rfl rfl
  have hround := hreach.trans (reaches_nextRound h hadd rfl)
  refine ⟨_, hasked.trans (Computer.reaches_of_machine (s := s₁) hround), rfl, ?_⟩
  constructor
  case count => exact hs.count
  case number =>
    change s.registers .J + 1 = _
    rw [hs.number]
    exact (UInt16.ofNat_add k 1).symm
  case registers =>
    intro x hx
    rw [← hs.registers x hx]
    obtain rfl := eq_of_not_mem_clobbered x hx
    rfl
  case stack => exact hs.stack
  case sent => exact hs.sent
  case frame => exact fun a ha => (hnoted.frame a ha).trans (hs.frame a ha)
  case found =>
    intro d hd
    have hnumber : s₁.registers .J = UInt16.ofNat (c.ids.take k).length := by
      rw [List.length_take_of_le hk.le]
      exact hs.number
    rw [← List.take_concat_get' _ _ hk]
    change IsLast _ _ (memory _)
    rw [hnoted.word d hd]
    by_cases hd' : d.id = c.ids[k]
    · rw [if_pos hd', hd', hnumber]
      exact isLast_concat_self (by rw [List.length_take]; omega)
    · rw [if_neg hd']
      exact (hs.found d hd).concat_of_ne (Ne.symm hd')

/-- The rounds of the search go on until all devices have been asked. -/
theorem Searching.finish (layout : c.machine.Layout)
    (hadd : ∀ a b, c.machine.compute .add a b = a + b) (hids : c.ids.length ≤ 0xffff)
    (hs : Searching c path s₀ k s) (hline : s.line = start + 3) (hk : k ≤ c.ids.length) :
    ∃ t, c.Reaches s t ∧ t.line = start + 3 ∧ Searching c path s₀ c.ids.length t := by
  -- Induction on the number of devices that are left.
  obtain ⟨left, hleft⟩ := Nat.exists_eq_add_of_le hk
  induction left generalizing k s with
  | zero =>
      obtain rfl : c.ids.length = k := hleft
      exact ⟨s, .refl s, hline, hs⟩
  | succ left ih =>
      obtain ⟨u, hu, huline, hus⟩ := hs.round h layout hadd hids hline (by omega)
      obtain ⟨t, ht, hend⟩ := ih hus huline (by omega) (by omega)
      exact ⟨t, hu.trans ht, hend⟩

theorem reaches_return {w : UInt16} {rest : List UInt16} (hline : s.line = start + 3)
    (hdone : s.registers .J = s.registers .I) (hstack : s.stack = w :: rest) :
    c.Reaches s { s with line := c.machine.lineAt w, stack := rest } := by
  obtain ⟨hpop, -⟩ := h.behindTest
  have htest := reaches_loopTest h hline
  rw [if_pos hdone] at htest
  refine Computer.reaches_of_machine (htest.trans (.single ?_))
  exact Machine.step?_popReturn hpop (Machine.pop?_of_cons hstack)

theorem reaches_found {layout : c.machine.Layout} (hloaded : layout.Loaded s.memory)
    (hadd : ∀ a b, c.machine.compute .add a b = a + b) (hids : c.ids.length ≤ 0xffff)
    {w : UInt16} {rest : List UInt16} (hline : s.line = start) (hstack : s.stack = w :: rest) :
    ∃ t, Searching c path s c.ids.length t ∧
      c.Reaches s { t with line := c.machine.lineAt w, stack := rest } := by
  obtain ⟨u, hu, huline, hus⟩ := reaches_searching h hloaded hline
  obtain ⟨t, ht, htline, hts⟩ := hus.finish h layout hadd hids huline (Nat.zero_le _)
  have hback := reaches_return h htline (hts.number.trans hts.count.symm) (hts.stack.trans hstack)
  exact ⟨t, hts, (hu.trans ht).trans hback⟩

end placed

theorem startUpLines_eq (path : ModulePath) :
    startUpLines path = preserveLines clobbered [.call (path.mangle "initialize")] := rfl

/-- The call of the routine, with the registers kept around it. -/
theorem reaches_startUp (h : Placed c.machine path start) {layout : c.machine.Layout}
    (hloaded : layout.Loaded s.memory) (hadd : ∀ a b, c.machine.compute .add a b = a + b)
    (hids : c.ids.length ≤ 0xffff) (hcall : c.machine.Holds s.line (startUpLines path)) :
    ∃ t, c.Reaches s t ∧ t.line = s.line + (startUpLines path).length ∧
      t.registers = s.registers ∧ t.stack = s.stack ∧ t.sent = s.sent ∧
      (∀ d ∈ devices, IsLast c.ids d.id (t.memory (c.machine.word (path.mangle d.cell)))) ∧
      ∀ a, (∀ d ∈ devices, a ≠ c.machine.word (path.mangle d.cell)) →
        t.memory a = s.memory a := by
  rw [startUpLines_eq] at hcall ⊢
  let inner := s.keeping clobbered
  obtain ⟨hbefore, -⟩ := Machine.holds_append.mp hcall
  obtain ⟨-, hlines⟩ := Machine.holds_append.mp hbefore
  have hjsr : c.machine.lines[inner.line]? = some (.call (path.mangle "initialize")) :=
    (Machine.holds_cons.mp hlines).1
  have hentered : c.machine.step? inner.toState =
      some ((inner.toState.push (c.machine.address (inner.line + 1))).jump start) := by
    rw [Machine.step?_call hjsr, h.atEntry.1]
    rfl
  let called : Computer.State :=
    { inner with toState := (inner.toState.push (c.machine.address (inner.line + 1))).jump start }
  obtain ⟨t, ht, hreach⟩ := reaches_found (s := called) h hloaded hadd hids rfl rfl
  rw [c.machine.lineAt_address _ _ hjsr] at hreach
  have hall := Computer.reaches_preserve hcall
    (.head (Computer.step?_of_machine (s := inner) hentered) hreach) rfl rfl
  refine ⟨_, hall, rfl, ?_, rfl, ht.sent, fun d hd => ?_, ht.frame⟩
  · funext x
    change (if x ∈ clobbered then s.registers x else t.registers x) = s.registers x
    split
    · rfl
    · next hx => exact ht.registers x hx
  · have hfound := ht.found d hd
    rwa [List.take_length] at hfound

end computer

theorem placed_of_continues {p p' : Program} {path : ModulePath} (hactive : p.active = .body)
    (hopen : p.openBlocks = 0) (haside : p.setAside = #[])
    (h : ((p.writeAll (startUpLines path)).inFooter fun p =>
      p.writeAll (routineLines path)).Continues p')
    {m : Machine} (hm : m.lines = p'.lines) (hnodup : (labelNames m.lines).Nodup) :
    m.Holds p.body.size (startUpLines path) ∧ Placed m path (p'.body.size + p.footer.size) := by
  have hgrows := Program.grows_inFooter hactive hopen haside (startUpLines path)
    (routineLines path)
  obtain ⟨body, hbody⟩ := h.body
  obtain ⟨footer, hfooter⟩ := h.footer
  have hcall : m.lines = p.body.toList ++ (startUpLines path ++ (body ++ p'.footer.toList)) := by
    rw [hm, Program.lines, ← hbody, hgrows.body]
    simp only [List.append_assoc]
  have hroutine : m.lines = p'.body.toList ++ p.footer.toList ++ (routineLines path ++ footer) := by
    rw [hm, Program.lines, ← hfooter, hgrows.footer]
    simp only [List.append_assoc]
  have hbefore : (p'.body.toList ++ p.footer.toList).length = p'.body.size + p.footer.size := by
    simp
  rw [← hbefore]
  refine ⟨Machine.holds_of_split hcall, Machine.holds_of_split hroutine, ?_⟩
  intro name hname hbefore
  rw [hroutine, List.take_left] at hbefore
  rw [hroutine, labelNames_append (_ ++ _), labelNames_append (routineLines path)] at hnodup
  exact (List.nodup_append.mp hnodup).2.2 name hbefore name (List.mem_append_left _ hname) rfl

end Drivers

open Drivers

theorem LowerM.importName_drivers {env : Environment} (enter : Enter) {name : ImportName}
    {c : Compilation} (hregistry : env.registry.find? "dev.drivers" = some Drivers.extension)
    (hsource : env.sources.find? (.ofDotted "dev.drivers") = none)
    (hname : name.path.text = "dev.drivers") (hnew : name.newName? = none)
    (hfresh : "dev.drivers" ∉ c.imported) :
    ∃ c', importName env enter name c = .ok () c' ∧
      c'.program = (c.program.writeAll (startUpLines (.ofDotted "dev.drivers"))).inFooter
        fun p => p.writeAll (routineLines (.ofDotted "dev.drivers")) := by
  refine ⟨c.begun env "dev.drivers", ?_, ?_⟩
  · have hfault : c.installFault? env "dev.drivers" = none := by
      unfold Compilation.installFault?
      rw [hregistry]
      rfl
    rw [importName_of_not_mem hnew (hname ▸ hfresh), hname,
      importFresh_eq _ _ _ _ _ (.inl (by rw [hregistry]; rfl)), hfault,
      ← Compilation.errorCount_begun env "dev.drivers" c]
    exact importFile_of_none env enter _ _ _ hsource
  · rw [(c.begun_of_extension hregistry).1]
    exact Drivers.program_install _ _ rfl

/-- After an import of `dev.drivers` at the top level, the call of the search and the search itself
are in every program of which this becomes a part, if no label is defined twice there. The call ends
on every computer into which such a program has been loaded, with all registers and the stack as
they were, without a message to a device and without a change in memory outside the words of the
known devices. Each of these words keeps the number of the last device of its identity, or 0xffff if
none is attached. -/
theorem import_finds_devices {env : Environment} (enter : Enter) {name : ImportName}
    {c : Compilation} (hregistry : env.registry.find? "dev.drivers" = some Drivers.extension)
    (hsource : env.sources.find? (.ofDotted "dev.drivers") = none)
    (hname : name.path.text = "dev.drivers") (hnew : name.newName? = none)
    (hfresh : "dev.drivers" ∉ c.imported) :
    let path := ModulePath.ofDotted "dev.drivers"
    ∃ c', LowerM.importName env enter name c = .ok () c' ∧
      c'.program = ((c.program.writeAll (startUpLines path)).inFooter
        fun p => p.writeAll (routineLines path)) ∧
      (env.registry.OnlyBundled → c.program.active = .body → c.program.openBlocks = 0 →
        c.program.setAside = #[] → ∀ (code : List Stmt) (final : Compilation),
        Lowers env code c' final → ∀ m : Machine, m.lines = final.program.lines →
        (labelNames m.lines).Nodup → m.Holds c.program.body.size (startUpLines path) ∧
          Placed m path (final.program.body.size + c.program.footer.size)) ∧
      ∀ (computer : Computer) (layout : computer.machine.Layout) (start : Nat)
        (s : Computer.State),
        computer.machine.Holds s.line (startUpLines path) → Placed computer.machine path start →
        layout.Loaded s.memory → (∀ a b, computer.machine.compute .add a b = a + b) →
        computer.ids.length ≤ 0xffff →
        ∃ t, computer.Reaches s t ∧ t.line = s.line + (startUpLines path).length ∧
          t.registers = s.registers ∧ t.stack = s.stack ∧ t.sent = s.sent ∧
          (∀ d ∈ devices,
            IsLast computer.ids d.id (t.memory (computer.machine.word (path.mangle d.cell)))) ∧
          ∀ a, (∀ d ∈ devices, a ≠ computer.machine.word (path.mangle d.cell)) →
            t.memory a = s.memory a := by
  intro path
  obtain ⟨c', himport, hprogram⟩ :=
    LowerM.importName_drivers enter hregistry hsource hname hnew hfresh
  refine ⟨c', himport, hprogram, ?_, ?_⟩
  · intro hbundled hactive hopen haside code final hlowers m hm hnodup
    have hcontinues := (hlowers.frame hbundled).continues
    rw [hprogram] at hcontinues
    exact placed_of_continues hactive hopen haside hcontinues hm hnodup
  · intro computer layout start s hcall hplaced hloaded hadd hids
    exact reaches_startUp hplaced hloaded hadd hids hcall

/-- `import dev.drivers` at the beginning of a program. Of two keyboards the second one is found,
and no monitor. -/
theorem import_finds_devices_two_keyboards :
    let path := ModulePath.ofDotted "dev.drivers"
    let env : Environment := ⟨⟨[], .empty []⟩, .bundled⟩
    let name : ImportName :=
      ⟨⟨[⟨"dev", default⟩, ⟨"drivers", default⟩], default⟩, none, default⟩
    ∃ c', LowerM.importName env (fun _ c => c) name (.start none) = .ok () c' ∧
      ∃ (computer : Computer) (t : Computer.State), computer.machine.lines = c'.program.lines ∧
        computer.ids = [0x30cf7406, 0x12d0b402, 0x30cf7406, 7] ∧
        computer.Reaches ⟨⟨0, fun _ => 5, Machine.imageMemory c'.program.lines, [8]⟩, []⟩ t ∧
        t.line = 15 ∧ (∀ x, t.registers x = 5) ∧ t.stack = [8] ∧
        t.memory (computer.machine.word (path.mangle "generic_keyboard")) = 2 ∧
        t.memory (computer.machine.word (path.mangle "generic_clock")) = 1 ∧
        t.memory (computer.machine.word (path.mangle "display_monitor")) = 0xffff := by
  intro path env name
  obtain ⟨c', himport, hprogram, hplaced, hrun⟩ := @import_finds_devices env (fun _ c => c) name
    (.start none) rfl rfl rfl rfl (by simp [Compilation.start])
  have hlines : c'.program.lines =
      startUpLines path ++ (Program.haltLines ++ routineLines path) := by
    rw [hprogram]
    rfl
  have hsmall : (imageUpTo c'.program.lines c'.program.lines.length).length < 0x10000 := by
    rw [hlines]
    decide
  let computer : Computer :=
    ⟨.ofLines c'.program.lines (fun _ a b => a + b) hsmall,
      [0x30cf7406, 0x12d0b402, 0x30cf7406, 7], fun _ _ => 9, fun _ s => (s.registers, s.memory)⟩
  have hnodup : (labelNames c'.program.lines).Nodup := by
    rw [hlines]
    decide
  obtain ⟨hcall, hroutine⟩ := hplaced Registry.onlyBundled_bundled rfl rfl rfl [] c' (.refl _ _)
    computer.machine rfl hnodup
  obtain ⟨t, hreach, hline, hregisters, hstack, -, hfound, -⟩ :=
    hrun computer (Machine.imageLayout _ hsmall) _
      ⟨⟨0, fun _ => 5, Machine.imageMemory c'.program.lines, [8]⟩, []⟩ hcall hroutine
      (Machine.imageLayout_loaded _ hsmall) (fun _ _ => rfl) (Nat.le_of_ble_eq_true rfl)
  have hkeyboard : IsLast ([0x30cf7406, 0x12d0b402] ++ [0x30cf7406] ++ [7]) 0x30cf7406 2 :=
    (isLast_concat_self (by decide)).concat_of_ne (by decide)
  have hclock : IsLast ([0x30cf7406] ++ [0x12d0b402] ++ [0x30cf7406] ++ [7]) 0x12d0b402 1 :=
    ((isLast_concat_self (by decide)).concat_of_ne (by decide)).concat_of_ne (by decide)
  have hmonitor : IsLast [0x30cf7406, 0x12d0b402, 0x30cf7406, 7] 0x7349f615 0xffff :=
    .inr ⟨by decide, rfl⟩
  refine ⟨c', himport, computer, t, rfl, rfl, hreach, hline, fun x => congrFun hregisters x, hstack,
    ?_, ?_, ?_⟩
  · exact (hfound ⟨"generic_keyboard", "keyboard_detected", 0x30cf, 0x7406⟩ (by decide)).unique
      hkeyboard
  · exact (hfound ⟨"generic_clock", "clock_detected", 0x12d0, 0xb402⟩ (by decide)).unique hclock
  · exact (hfound ⟨"display_monitor", "monitor_detected", 0x7349, 0xf615⟩ (by decide)).unique
      hmonitor

end P16
