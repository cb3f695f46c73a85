import P16.Proofs.Lines
import P16.Proofs.Machine

/-!
# Running from line to line

Control goes from a line to the next one, except at jumps and calls; a failed test passes over what
comes after it. Code in which every test stands before a jump is left at its end at the latest, and
code that ends in a barrier, which is a jump that no test stands before, is not left at all.
-/

namespace P16

namespace Line

def isTest : Line → Bool
  | instruction (.basic op _ _) => op.test?.isSome
  | _ => false

def isJump : Line → Bool
  | instruction (.basic .set (.special .pc) _) => true
  | _ => false

def isCall : Line → Bool
  | instruction (.special .jsr _) => true
  | _ => false

def isData : Line → Bool
  | instruction (.data _) => true
  | _ => false

end Line

/-- Every test stands before a jump, with nothing but other tests in between. -/
def guarded : List Line → Bool
  | [] => true
  | line :: rest =>
    (!line.isTest || rest.head?.any fun next => next.isTest || next.isJump) && guarded rest

/-- Control does not run over the end of these lines: they end in a jump that no test stands before,
or in a labelled word of data behind such a jump. -/
def Barrier (lines : List Line) : Prop :=
  ∃ front jump tail, lines = front ++ jump :: tail ∧ jump.isJump = true ∧
    (∀ last ∈ front.getLast?, last.isTest = false) ∧
    (tail = [] ∨ ∃ name words, tail = [.label name, .instruction (.data words)])

theorem Barrier.prepend {lines : List Line} (h : Barrier lines) (before : List Line)
    (hb : ∀ last ∈ before.getLast?, last.isTest = false) : Barrier (before ++ lines) := by
  obtain ⟨front, jump, tail, rfl, hjump, hfront, htail⟩ := h
  refine ⟨before ++ front, jump, tail, by simp, hjump, fun last hlast => ?_, htail⟩
  rcases List.eq_nil_or_concat front with rfl | ⟨init, line, rfl⟩
  · rw [List.append_nil] at hlast
    exact hb last hlast
  · exact hfront last (by simpa using hlast)

theorem Barrier.getLast? {lines : List Line} {last : Line} (h : Barrier lines)
    (hl : lines.getLast? = some last) : last.isJump = true ∨ last.isData = true := by
  obtain ⟨front, jump, tail, rfl, hjump, -, rfl | ⟨name, words, rfl⟩⟩ := h
  · have heq : jump = last := by simpa using hl
    exact .inl (heq ▸ hjump)
  · have heq : Line.instruction (.data words) = last := by simpa using hl
    exact .inr (heq ▸ rfl)

theorem Barrier.isTest_of_jump {init : List Line} {jump last : Line} (h : Barrier (init ++ [jump]))
    (hj : jump.isJump = true) (hl : init.getLast? = some last) : last.isTest = false := by
  obtain ⟨front, other, tail, heq, hjump, hfront, rfl | ⟨name, words, rfl⟩⟩ := h
  · obtain ⟨rfl, -⟩ := List.append_inj' heq rfl
    exact hfront last hl
  · have hdata : jump = .instruction (.data words) := by
      have hlast := congrArg List.getLast? heq
      simpa using hlast
    rw [hdata] at hj
    cases hj

section guarded

variable {first rest lines : List Line} {line : Line}

theorem guarded_append (hf : guarded first = true) (hr : guarded rest = true) :
    guarded (first ++ rest) = true := by
  induction first with
  | nil => exact hr
  | cons line first ih =>
      simp only [guarded, Bool.and_eq_true, Bool.or_eq_true] at hf
      simp only [List.cons_append, guarded, Bool.and_eq_true, Bool.or_eq_true]
      refine ⟨hf.1.imp_right fun hnext => ?_, ih hf.2⟩
      cases first with
      | nil => cases hnext
      | cons next first => exact hnext

theorem guarded_of_no_test (h : lines.any Line.isTest = false) : guarded lines = true := by
  induction lines with
  | nil => rfl
  | cons line lines ih =>
      rw [List.any_cons, Bool.or_eq_false_iff] at h
      simp [guarded, h.1, ih h.2]

theorem guarded_of_append (h : guarded (first ++ rest) = true) : guarded rest = true := by
  induction first with
  | nil => exact h
  | cons line first ih =>
      simp only [List.cons_append, guarded, Bool.and_eq_true] at h
      exact ih h.2

theorem exists_jump_of_guarded (h : guarded (line :: rest) = true) (ht : line.isTest = true) :
    ∃ tests jump after, rest = tests ++ jump :: after ∧ (∀ line ∈ tests, line.isTest = true) ∧
      jump.isJump = true := by
  induction rest generalizing line with
  | nil => simp [guarded, ht] at h
  | cons next rest ih =>
      have hrest : guarded (next :: rest) = true := (Bool.and_eq_true_iff.mp h).2
      have hnext : next.isTest = true ∨ next.isJump = true := by
        simpa [ht] using (Bool.and_eq_true_iff.mp h).1
      rcases hnext with hnext | hnext
      · obtain ⟨tests, jump, after, rfl, htests, hjump⟩ := ih hrest hnext
        refine ⟨next :: tests, jump, after, rfl, ?_, hjump⟩
        exact List.forall_mem_cons.mpr ⟨hnext, htests⟩
      · exact ⟨[], next, rest, rfl, by simp, hnext⟩

theorem getLast?_isTest_of_guarded (h : guarded lines = true) :
    ∀ last ∈ lines.getLast?, last.isTest = false := by
  rcases List.eq_nil_or_concat lines with rfl | ⟨init, line, rfl⟩
  · intro last hlast
    cases hlast
  · intro last hlast
    have hline : line = last := by simpa using hlast
    subst hline
    have hend : guarded [line] = true := guarded_of_append (by simpa using h)
    by_contra htest
    have hfalse := exists_jump_of_guarded hend (by simpa using htest)
    obtain ⟨tests, jump, after, hnil, -⟩ := hfalse
    simp at hnil

theorem skipped_tests {tests after : List Line} {jump : Line}
    (ht : ∀ line ∈ tests, line.isTest = true) (hj : jump.isJump = true) :
    skipped (tests ++ jump :: after) = tests.length + 1 := by
  induction tests with
  | nil =>
      unfold Line.isJump at hj
      split at hj
      · simp [skipped, BasicOpcode.test?]
      · cases hj
  | cons line tests ih =>
      have hline := ht line List.mem_cons_self
      have hrest := ih fun line hmem => ht line (List.mem_cons_of_mem _ hmem)
      unfold Line.isTest at hline
      split at hline
      · simp [skipped, hline, hrest]
      · cases hline

end guarded

namespace Machine

variable {σ : Type} [Stack σ] {m : Machine} {s t : State σ} {line : Line}

/-- A test with other tests and a jump behind it. If it fails, all of them are passed over. -/
theorem step?_guard {op : BasicOpcode} {test : UInt16 → UInt16 → Bool}
    {left right : Operand} {a b : UInt16} (tests : List Line) {jump : Line} {after : List Line}
    (h : m.Holds s.line (.instruction (.basic op left right) :: (tests ++ jump :: after)))
    (hop : op.test? = some test) (ha : m.plain? s.registers left = some a)
    (hb : m.plain? s.registers right = some b) (htests : ∀ line ∈ tests, line.isTest = true)
    (hjump : jump.isJump = true) :
    m.step? s = some (s.jump (if test a b then s.line + 1 else s.line + 2 + tests.length)) := by
  obtain ⟨hline, rest, hrest⟩ := holds_cons.mp h
  rw [step?_test hline hop ha hb, ← hrest, List.append_assoc, List.cons_append,
    skipped_tests htests hjump]
  split
  · rfl
  · rw [show s.line + 1 + (tests.length + 1) = s.line + 2 + tests.length by omega]

theorem read?_line {operand : Operand} {w : UInt16} (h : m.read? s operand = some (w, t)) :
    t.line = s.line := by
  unfold read? at h
  split at h
  all_goals
    obtain ⟨_, -, heq⟩ := Option.map_eq_some_iff.mp h
    cases heq
    rfl

theorem write?_line {operand : Operand} {w : UInt16} (h : m.write? s w operand = some t) :
    t.line = s.line := by
  unfold write? at h
  split at h
  · cases h
    rfl
  · cases h
    rfl
  · obtain ⟨_, -, rfl⟩ := Option.map_eq_some_iff.mp h
    rfl

theorem execute?_line {i : Instruction} (hj : (Line.instruction i).isJump = false)
    (hc : (Line.instruction i).isCall = false) (h : m.execute? s i = some t) :
    (Line.instruction i).isData = false ∧ (t.line = s.line ∨
      (Line.instruction i).isTest = true ∧ t.line = s.line + skipped (m.lines.drop s.line)) := by
  unfold execute? at h
  split at h
  · cases hj
  · obtain ⟨⟨w, s₁⟩, hread, hwrite⟩ := Option.bind_eq_some_iff.mp h
    exact ⟨rfl, .inl ((write?_line hwrite).trans (read?_line hread))⟩
  · split at h
    · rename_i test htest
      obtain ⟨⟨b, s₁⟩, hb, h⟩ := Option.bind_eq_some_iff.mp h
      obtain ⟨⟨a, s₂⟩, ha, h⟩ := Option.bind_eq_some_iff.mp h
      have hline : s₂.line = s.line := (read?_line ha).trans (read?_line hb)
      refine ⟨rfl, ?_⟩
      cases h
      split
      · exact .inl hline
      · right
        rw [hline]
        exact ⟨by simp [Line.isTest, htest], rfl⟩
    · split at h
      · obtain ⟨⟨b, s₁⟩, hb, h⟩ := Option.bind_eq_some_iff.mp h
        obtain ⟨⟨a, s₂⟩, ha, hwrite⟩ := Option.bind_eq_some_iff.mp h
        have hline : s₂.line = s.line := (read?_line ha).trans (read?_line hb)
        exact ⟨rfl, .inl ((write?_line hwrite).trans hline)⟩
      · cases h
  · cases hc
  · cases h
  · cases h

theorem step?_line (hl : m.lines[s.line]? = some line) (hj : line.isJump = false)
    (hc : line.isCall = false) (h : m.step? s = some t) :
    line.isData = false ∧ (t.line = s.line + 1 ∨
      line.isTest = true ∧ t.line = s.line + 1 + skipped (m.lines.drop (s.line + 1))) := by
  unfold step? at h
  rw [hl] at h
  cases line with
  | label name =>
      cases h
      exact ⟨rfl, .inl rfl⟩
  | instruction i => exact execute?_line hj hc h

/-- A step that is neither a jump nor a call. -/
def GoesOn (m : Machine) (s t : State σ) : Prop :=
  m.step? s = some t ∧
    ∃ line, m.lines[s.line]? = some line ∧ line.isJump = false ∧ line.isCall = false

section within

variable {before after : List Line} (hm : m.lines = before ++ after) (hg : guarded before = true)
include hm hg

/-- Guarded code is left at its end at the latest, and not at all if it ends in a barrier. -/
theorem GoesOn.within (h : m.GoesOn s t) (hs : s.line < before.length) :
    s.line < t.line ∧ t.line ≤ before.length ∧ (Barrier before → t.line < before.length) := by
  obtain ⟨hstep, line, hl, hj, hc⟩ := h
  have hline : before[s.line]? = some line := by
    rwa [hm, List.getElem?_append_left hs] at hl
  have hsplit : before = before.take s.line ++ line :: before.drop (s.line + 1) := by
    obtain ⟨-, rfl⟩ := List.getElem?_eq_some_iff.mp hline
    rw [← List.drop_eq_getElem_cons hs, List.take_append_drop]
  obtain ⟨hdata, hnext | ⟨htest, hskip⟩⟩ := step?_line hl hj hc hstep
  · refine ⟨by omega, by omega, fun hbarrier => ?_⟩
    by_contra hend
    have hlast : before.getLast? = some line := by
      rw [List.getLast?_eq_getElem?, show before.length - 1 = s.line by omega, hline]
    have hends := hbarrier.getLast? hlast
    simp [hj, hdata] at hends
  · have htail : guarded (line :: before.drop (s.line + 1)) = true :=
      guarded_of_append (hsplit ▸ hg)
    obtain ⟨tests, jump, rest, hrest, htests, hjump⟩ := exists_jump_of_guarded htail htest
    have hskipped : skipped (m.lines.drop (s.line + 1)) = tests.length + 1 := by
      rw [hm, List.drop_append_of_le_length hs, hrest, List.append_assoc, List.cons_append,
        skipped_tests htests hjump]
    have hlength : before.length = s.line + 1 + (tests.length + 1 + rest.length) := by
      have hdrop := congrArg List.length hrest
      simp only [List.length_drop, List.length_append, List.length_cons] at hdrop
      omega
    refine ⟨by omega, by omega, fun hbarrier => ?_⟩
    -- A jump at the very end would have a test before it.
    rcases rest with - | ⟨next, rest⟩
    · obtain ⟨last, hlast⟩ : ∃ last, (line :: tests).getLast? = some last :=
        ⟨_, List.getLast?_eq_some_getLast (List.cons_ne_nil _ _)⟩
      have hmem : last ∈ line :: tests := List.mem_of_getLast? hlast
      have hbefore : before = (before.take s.line ++ line :: tests) ++ [jump] := by
        rw [hrest] at hsplit
        simpa using hsplit
      have hend : (before.take s.line ++ line :: tests).getLast? = some last := by
        rw [List.getLast?_append, hlast]
        rfl
      rw [hbefore] at hbarrier
      have hnone := hbarrier.isTest_of_jump hjump hend
      rcases List.mem_cons.mp hmem with rfl | hmem
      · simp [htest] at hnone
      · simp [htests last hmem] at hnone
    · simp only [List.length_cons] at hlength
      omega

/-- A machine that neither stops in guarded code nor jumps or calls from there comes to its end. -/
theorem exists_reaches_end (hs : s.line ≤ before.length)
    (hon : ∀ u, m.Reaches s u → u.line < before.length → ∃ v, m.GoesOn u v) :
    ∃ t, m.Reaches s t ∧ t.line = before.length := by
  generalize hleft : before.length - s.line = left
  induction left using Nat.strongRecOn generalizing s with
  | ind left ih =>
      by_cases hend : s.line = before.length
      · exact ⟨s, .refl s, hend⟩
      · obtain ⟨v, hv⟩ := hon s (.refl s) (by omega)
        obtain ⟨hlt, hle, -⟩ := hv.within hm hg (by omega)
        have hthen (u : State σ) (hu : m.Reaches v u) :
            u.line < before.length → ∃ w, m.GoesOn u w :=
          hon u (.head hv.1 hu)
        obtain ⟨t, ht, hline⟩ := ih (before.length - v.line) (by omega) hle hthen rfl
        exact ⟨t, .head hv.1 ht, hline⟩

end within

end Machine

end P16
