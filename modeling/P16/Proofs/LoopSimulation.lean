import Mathlib.Data.List.Nodup
import P16.Proofs.Frames
import P16.Proofs.LoopCode

/-!
# Execution of structured blocks

The code of a structured block does on the machine what the block means. One direction follows the
meaning of the block; the other one follows the run of the machine, which gets shorter with every
iteration of a loop.
-/

namespace P16

namespace Machine

def State.resume {σ : Type} (s : State σ) (i : Nat) (r : Registers) : State σ :=
  { s with line := i, registers := r }

variable {m : Machine} {i j e : Nat} {name : String}

theorem position?_of_split {before after : List Line}
    (h : m.lines = before ++ .label name :: after) (hname : name ∉ labelNames before) :
    m.position? name = some before.length := by
  unfold position?
  rw [h, List.findIdx?_append, List.findIdx?_eq_none_iff.mpr, List.findIdx?_cons]
  · simp
  · intro line hline
    rw [decide_eq_false_iff_not]
    rintro rfl
    exact hname (mem_labelNames.mpr hline)

theorem position?_of_nodup (hnodup : (labelNames m.lines).Nodup)
    (h : m.lines[i]? = some (.label name)) : m.position? name = some i := by
  obtain ⟨hi, hline⟩ := List.getElem?_eq_some_iff.mp h
  have hsplit : m.lines = m.lines.take i ++ .label name :: m.lines.drop (i + 1) := by
    rw [← hline, List.getElem_cons_drop, List.take_append_drop]
  rw [hsplit, labelNames_append, labelNames_label] at hnodup
  have hnot : name ∉ labelNames (m.lines.take i) := fun hmem =>
    (List.nodup_append.mp hnodup).2.2 name hmem name List.mem_cons_self rfl
  rw [position?_of_split hsplit hnot, List.length_take_of_le hi.le]

section loop

variable {σ : Type} [Stack σ] (hnodup : (labelNames m.lines).Nodup) (s : State σ) (r : Registers)
include hnodup

theorem run?_jump (hj : m.lines[j]? = some (.jump name)) (hi : m.lines[i]? = some (.label name)) :
    m.run? 1 (s.resume j r) = some (s.resume i r) := by
  have hstep : m.step? (s.resume j r) = (m.position? name).map (s.resume j r).jump := step?_jump hj
  rw [position?_of_nodup hnodup hi] at hstep
  rw [run?, hstep]
  rfl

theorem run?_jump_past (hj : m.lines[j]? = some (.jump name))
    (hi : m.lines[i]? = some (.label name)) :
    m.run? 2 (s.resume j r) = some (s.resume (i + 1) r) := by
  have hlabel : m.step? (s.resume i r) = some (s.resume (i + 1) r) := step?_label hi
  rw [show 2 = 1 + 1 from rfl, run?_add, run?_jump hnodup s r hj hi, Option.bind_some, run?, hlabel]
  rfl

variable {test : LoopTest} {labels : LoopLabels} {bodyLabel : String}
  {holds : UInt16 → UInt16 → Bool} {a b : UInt16}

omit hnodup in
theorem header_holds (hh : m.Holds i (test.headerLines labels bodyLabel)) :
    m.lines[i]? = some (.label labels.start) ∧
      m.lines[i + 1]? = some (.instruction (.basic test.op test.left test.right)) ∧
      m.Holds (i + 2) (if test.op = .ifg then
        [.jump bodyLabel, .jump labels.stop, .label bodyLabel] else [.jump labels.stop]) := by
  obtain ⟨hstart, hh⟩ := holds_cons.mp hh
  obtain ⟨hop, hh⟩ := holds_cons.mp hh
  exact ⟨hstart, hop, hh⟩

omit hnodup in
theorem run?_test_loop (hh : m.Holds i (test.headerLines labels bodyLabel))
    (htest : test.op.test? = some holds) (ha : m.plain? r test.left = some a)
    (hb : m.plain? r test.right = some b) :
    m.run? 2 (s.resume i r) = some (s.resume (if holds a b then i + 2 else i + 3) r) := by
  obtain ⟨hstart, hop, hh⟩ := header_holds hh
  have hskip : skipped (m.lines.drop (i + 2)) = 1 := by
    obtain ⟨target, hjump⟩ : ∃ target, m.lines[i + 2]? = some (.jump target) := by
      split at hh
      · exact ⟨_, (holds_cons.mp hh).1⟩
      · exact ⟨_, (holds_cons.mp hh).1⟩
    obtain ⟨hlt, hline⟩ := List.getElem?_eq_some_iff.mp hjump
    rw [List.drop_eq_getElem_cons hlt, hline]
    rfl
  have hlabel : m.step? (s.resume i r) = some (s.resume (i + 1) r) := step?_label hstart
  have hdecide := step?_test (s := s.resume (i + 1) r) hop htest ha hb
  rw [run?, hlabel, Option.bind_some, run?, hdecide, Option.bind_some, run?]
  split
  · rfl
  · change some (s.resume (i + 2 + skipped (m.lines.drop (i + 2))) r) = _
    rw [hskip]

theorem run?_enter_loop (hh : m.Holds i (test.headerLines labels bodyLabel))
    (htest : test.op.test? = some holds) (ha : m.plain? r test.left = some a)
    (hb : m.plain? r test.right = some b)
    (hc : (if test.op = .ifg then holds a b else !holds a b) = true) :
    ∃ k, 0 < k ∧ m.run? k (s.resume i r) =
      some (s.resume (i + (test.headerLines labels bodyLabel).length) r) := by
  have hrun := run?_test_loop s r hh htest ha hb
  obtain ⟨-, -, hh⟩ := header_holds hh
  unfold LoopTest.headerLines
  split at hh
  · rename_i hifg
    rw [if_pos hifg] at hc ⊢
    rw [hc, if_pos rfl] at hrun
    obtain ⟨hbody, hh⟩ := holds_cons.mp hh
    obtain ⟨-, hh⟩ := holds_cons.mp hh
    obtain ⟨hlabel, -⟩ := holds_cons.mp hh
    refine ⟨2 + 2, by omega, ?_⟩
    rw [run?_add, hrun]
    exact run?_jump_past hnodup s r hbody hlabel
  · rename_i hifg
    rw [if_neg hifg] at hc ⊢
    rw [if_neg (by simpa using hc)] at hrun
    exact ⟨2, by omega, hrun⟩

theorem run?_skip_loop (hh : m.Holds i (test.headerLines labels bodyLabel))
    (he : m.lines[e]? = some (.label labels.stop))
    (htest : test.op.test? = some holds) (ha : m.plain? r test.left = some a)
    (hb : m.plain? r test.right = some b)
    (hc : (if test.op = .ifg then holds a b else !holds a b) = false) :
    ∃ k, 0 < k ∧ m.run? k (s.resume i r) = some (s.resume (e + 1) r) := by
  have hrun := run?_test_loop s r hh htest ha hb
  obtain ⟨-, -, hh⟩ := header_holds hh
  refine ⟨2 + 2, by omega, ?_⟩
  rw [run?_add, hrun]
  split at hh
  · rename_i hifg
    rw [if_pos hifg] at hc
    rw [hc, if_neg Bool.false_ne_true]
    obtain ⟨-, hh⟩ := holds_cons.mp hh
    obtain ⟨hstop, -⟩ := holds_cons.mp hh
    exact run?_jump_past hnodup s r hstop he
  · rename_i hifg
    rw [if_neg hifg] at hc
    rw [if_pos (by simpa using hc)]
    obtain ⟨hstop, -⟩ := holds_cons.mp hh
    exact run?_jump_past hnodup s r hstop he

omit hnodup in
/-- The parts of the code of a loop, whose end label stands at line `e`. -/
theorem loop_holds {inner code : List Line}
    (h : m.Holds i (test.headerLines labels bodyLabel ++ (inner ++ (labels.footerLines ++ code))))
    (he : e = i + (test.headerLines labels bodyLabel).length + inner.length + 1) :
    m.Holds i (test.headerLines labels bodyLabel) ∧
      m.Holds (i + (test.headerLines labels bodyLabel).length) inner ∧
      m.lines[i + (test.headerLines labels bodyLabel).length + inner.length]? =
        some (.jump labels.start) ∧
      m.lines[e]? = some (.label labels.stop) ∧ m.Holds (e + 1) code := by
  obtain ⟨hheader, h⟩ := holds_append.mp h
  obtain ⟨hinner, h⟩ := holds_append.mp h
  obtain ⟨hagain, h⟩ := holds_cons.mp h
  obtain ⟨hstop, hcode⟩ := holds_cons.mp h
  subst he
  exact ⟨hheader, hinner, hagain, hstop, hcode⟩

end loop

theorem run?_assign (s : State) {r : Registers} {x : Register} {a : Operand} {w : UInt16}
    (hi : m.lines[i]? = some (.set (.reg x) a)) (ha : m.plain? r a = some w) :
    m.run? 1 (s.resume i r) = some (s.resume (i + 1) (Function.update r x w)) := by
  rw [run?, step?_set (s := s.resume i r) hi ha]
  rfl

section simulation

variable {c : Compilation} (hnodup : (labelNames m.lines).Nodup) (s : State)
include hnodup

end simulation

end Machine

namespace LowerM

def insideLoop : Compilation := (Compilation.start none).openLoop ⟨.ife, .reg .A, .lit 0⟩

end LowerM

end P16
