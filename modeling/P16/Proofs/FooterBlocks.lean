import P16.Proofs.Lines

/-!
# The layout of footer blocks

An `Emission` is something done to a program under construction: a line is written, a number is
given out, or a footer block is filled with the emissions inside it, to any depth. What a list of
emissions makes of a program is given here in closed form: where each line goes, in terms of the
tree alone.

Inside an open block the lines go to the footer, and the blocks inside are set aside in the order in
which they are closed. Outside of all blocks the lines go to the body, and each block goes to the
footer, followed by all the blocks that were closed inside it.
-/

namespace P16

inductive Emission where
  | line (line : Line)
  | count (purpose : String)
  | block (inner : List Emission)

namespace Emission

mutual

def run : Emission → Program → Program
  | line l, p => p.write l
  | count purpose, p => (p.nextCounter purpose).2
  | block inner, p => p.inFooter (runAll inner)

def runAll : List Emission → Program → Program
  | [], p => p
  | e :: rest, p => runAll rest (e.run p)

end

/-- The lines outside of the inner blocks. -/
@[simp] def own : List Emission → List Line
  | [] => []
  | line l :: rest => l :: own rest
  | count _ :: rest => own rest
  | block _ :: rest => own rest

mutual

/-- The own lines of the blocks in the order in which these are closed. -/
@[simp] def closed : List Emission → List (List Line)
  | [] => []
  | e :: rest => e.closedIn ++ closed rest

@[simp] def closedIn : Emission → List (List Line)
  | line _ => []
  | count _ => []
  | block inner => closed inner ++ [own inner]

end

/-- The own lines of the blocks in the order of the footer: after each block that is in no other one
come those inside it. -/
@[simp] def placed : List Emission → List (List Line)
  | [] => []
  | line _ :: rest => placed rest
  | count _ :: rest => placed rest
  | block inner :: rest => own inner :: closed inner ++ placed rest

mutual

@[simp] def lines : List Emission → List Line
  | [] => []
  | e :: rest => e.linesIn ++ lines rest

@[simp] def linesIn : Emission → List Line
  | line l => [l]
  | count _ => []
  | block inner => lines inner

end

/-- Induction over lists of emissions, in which the inside of a block is smaller than a list that
begins with the block. -/
@[elab_as_elim]
theorem list_induction {motive : List Emission → Prop} (nil : motive [])
    (line : ∀ l rest, motive rest → motive (.line l :: rest))
    (count : ∀ purpose rest, motive rest → motive (.count purpose :: rest))
    (block : ∀ inner rest, motive inner → motive rest → motive (.block inner :: rest)) :
    ∀ ops, motive ops
  | [] => nil
  | .line l :: rest => line l rest (list_induction nil line count block rest)
  | .count purpose :: rest => count purpose rest (list_induction nil line count block rest)
  | .block inner :: rest =>
      block inner rest (list_induction nil line count block inner)
        (list_induction nil line count block rest)

section append

variable (first rest : List Emission)

theorem runAll_append (p : Program) : runAll (first ++ rest) p = runAll rest (runAll first p) := by
  induction first generalizing p with
  | nil => rw [runAll, List.nil_append]
  | cons e first ih => rw [List.cons_append, runAll, runAll, ih]

theorem own_append : own (first ++ rest) = own first ++ own rest := by
  induction first with
  | nil => rfl
  | cons e first ih => cases e <;> simp [ih]

theorem closed_append : closed (first ++ rest) = closed first ++ closed rest := by
  induction first with
  | nil => simp
  | cons e first ih => simp [ih]

theorem placed_append : placed (first ++ rest) = placed first ++ placed rest := by
  induction first with
  | nil => rfl
  | cons e first ih => cases e <;> simp [ih]

end append

theorem placed_perm_closed (ops : List Emission) : (placed ops).Perm (closed ops) := by
  induction ops using list_induction with
  | nil => exact .refl _
  | line l rest ih => exact ih
  | count purpose rest ih => exact ih
  | block inner rest _ ih =>
      have hblock : (own inner :: closed inner).Perm (closed inner ++ [own inner]) :=
        (List.perm_append_singleton _ _).symm
      exact hblock.append ih

/-- Every line is an own line of the whole or of one block. -/
theorem own_closed_perm_lines (ops : List Emission) :
    (own ops ++ (closed ops).flatten).Perm (lines ops) := by
  induction ops using list_induction with
  | nil => simp
  | line l rest ih => simpa using ih
  | count purpose rest ih => simpa using ih
  | block inner rest ihinner ih =>
      have hinner : ((closed inner).flatten ++ own inner).Perm (lines inner) :=
        List.perm_append_comm.trans ihinner
      have hmoved :
          (own rest ++ (((closed inner).flatten ++ own inner) ++ (closed rest).flatten)).Perm
            (((closed inner).flatten ++ own inner) ++ (own rest ++ (closed rest).flatten)) :=
        List.perm_append_comm_assoc _ _ _
      simpa using hmoved.trans (hinner.append ih)

end Emission

/-- Lines have been added at the ends, and the place where the next ones go is the same. -/
structure Program.Grows (p p' : Program) (body footer aside : List Line) : Prop where
  body : p'.body.toList = p.body.toList ++ body
  footer : p'.footer.toList = p.footer.toList ++ footer
  setAside : p'.setAside.toList = p.setAside.toList ++ aside
  active : p'.active = p.active
  openBlocks : p'.openBlocks = p.openBlocks

namespace Program

variable {p p₁ p₂ : Program} {body footer aside body' footer' aside' : List Line}

theorem Grows.refl (p : Program) : p.Grows p [] [] [] := by
  constructor <;> simp

theorem Grows.trans (h : p.Grows p₁ body footer aside) (g : p₁.Grows p₂ body' footer' aside') :
    p.Grows p₂ (body ++ body') (footer ++ footer') (aside ++ aside') where
  body := by rw [g.body, h.body, List.append_assoc]
  footer := by rw [g.footer, h.footer, List.append_assoc]
  setAside := by rw [g.setAside, h.setAside, List.append_assoc]
  active := g.active.trans h.active
  openBlocks := g.openBlocks.trans h.openBlocks

theorem grows_write_body (ha : p.active = .body) (line : Line) :
    p.Grows (p.write line) [line] [] [] := by
  constructor <;> simp [write, ha]

theorem grows_write_footer (ha : p.active = .footer) (line : Line) :
    p.Grows (p.write line) [] [line] [] := by
  constructor <;> simp [write, ha]

theorem grows_writeAll_body (ha : p.active = .body) (lines : List Line) :
    p.Grows (p.writeAll lines) lines [] [] := by
  induction lines generalizing p with
  | nil => exact .refl p
  | cons line lines ih =>
      have hfirst := grows_write_body ha line
      exact hfirst.trans (ih (hfirst.active.trans ha))

theorem grows_writeAll_footer (ha : p.active = .footer) (lines : List Line) :
    p.Grows (p.writeAll lines) [] lines [] := by
  induction lines generalizing p with
  | nil => exact .refl p
  | cons line lines ih =>
      have hfirst := grows_write_footer ha line
      exact hfirst.trans (ih (hfirst.active.trans ha))

theorem setAside_leaveFooter_inside (p : Program) (mark : FooterMark) (h : 1 < p.openBlocks) :
    (p.leaveFooter mark).setAside = p.setAside ++ p.footer := by
  unfold leaveFooter switch closeBlock
  have hinner : ¬ p.openBlocks - 1 = 0 := by omega
  rw [if_neg hinner]

/-- The end of the outermost block puts back what the footer held, and adds the block and what was
set aside. -/
theorem footer_leaveFooter_outside (p : Program) (mark : FooterMark) (h : p.openBlocks = 1) :
    (p.leaveFooter mark).footer = mark.lines ++ p.footer ++ p.setAside := by
  unfold leaveFooter switch closeBlock
  rw [if_pos (by simp [h])]

theorem Grows.leaveFooter_inside (hin : p.enterFooter.2.Grows p₁ [] footer aside)
    (ho : 0 < p.openBlocks) :
    p.Grows (p₁.leaveFooter p.enterFooter.1) [] [] (aside ++ footer) := by
  have hopen : p₁.openBlocks = p.openBlocks + 1 := hin.openBlocks
  have hinner : 1 < p₁.openBlocks := by omega
  constructor
  case body => simpa [enterFooter, openBlock, switch] using hin.body
  case footer =>
    rw [footer_leaveFooter _ _ hinner, List.append_nil]
    rfl
  case setAside =>
    have hfooter : p₁.footer.toList = footer := by
      simpa [enterFooter, openBlock, switch] using hin.footer
    have haside : p₁.setAside.toList = p.setAside.toList ++ aside := hin.setAside
    rw [setAside_leaveFooter_inside _ _ hinner, Array.toList_append, haside, hfooter,
      List.append_assoc]
  case active => exact active_leaveFooter _ _
  case openBlocks =>
    rw [openBlocks_leaveFooter, hopen]
    rfl

/-- What is written in a block inside no other one is followed by what was set aside meanwhile. -/
theorem Grows.leaveFooter_outside (hin : p.enterFooter.2.Grows p₁ [] footer aside)
    (ho : p.openBlocks = 0) (hs : p.setAside = #[]) :
    p.Grows (p₁.leaveFooter p.enterFooter.1) [] (footer ++ aside) [] := by
  have hopen : p₁.openBlocks = 1 := hin.openBlocks.trans (congrArg (· + 1) ho)
  constructor
  case body => simpa [enterFooter, openBlock, switch] using hin.body
  case footer =>
    have hfooter : p₁.footer.toList = footer := by
      simpa [enterFooter, openBlock, switch] using hin.footer
    have haside : p₁.setAside.toList = aside := by
      simpa [enterFooter, openBlock, switch, hs] using hin.setAside
    rw [footer_leaveFooter_outside _ _ hopen, Array.toList_append, Array.toList_append, hfooter,
      haside, List.append_assoc]
    rfl
  case setAside => rw [setAside_leaveFooter _ _ hopen, hs, List.append_nil]
  case active => exact active_leaveFooter _ _
  case openBlocks => rw [openBlocks_leaveFooter, hopen, ho]

theorem grows_inFooter (ha : p.active = .body) (ho : p.openBlocks = 0) (hs : p.setAside = #[])
    (lines block : List Line) :
    p.Grows ((p.writeAll lines).inFooter fun p => p.writeAll block) lines block [] := by
  have hlines := grows_writeAll_body ha lines
  have hblock := (grows_writeAll_footer (p := (p.writeAll lines).enterFooter.2) rfl
    block).leaveFooter_outside (hlines.openBlocks.trans ho) ((p.setAside_writeAll lines).trans hs)
  simpa [inFooter] using hlines.trans hblock

end Program

namespace Emission

/-- What emissions do while a block is open. -/
theorem runAll_inside (ops : List Emission) (p : Program) (ha : p.active = .footer)
    (ho : 0 < p.openBlocks) : p.Grows (runAll ops p) [] (own ops) (closed ops).flatten := by
  induction ops using list_induction generalizing p with
  | nil =>
      rw [runAll]
      exact .refl p
  | line l rest ih =>
      have hfirst := Program.grows_write_footer ha l
      rw [runAll, run]
      exact hfirst.trans (ih _ (hfirst.active.trans ha) (hfirst.openBlocks ▸ ho))
  | count purpose rest ih =>
      have hfirst : p.Grows (p.nextCounter purpose).2 [] [] [] := by
        constructor <;> simp [Program.nextCounter]
      rw [runAll, run]
      exact hfirst.trans (ih _ (hfirst.active.trans ha) (hfirst.openBlocks ▸ ho))
  | block inner rest ihinner ih =>
      have hfirst : p.Grows (p.inFooter (runAll inner)) [] []
          ((closed inner).flatten ++ own inner) :=
        (ihinner _ rfl (Nat.succ_pos _)).leaveFooter_inside ho
      rw [runAll, run]
      have hall := hfirst.trans (ih _ (hfirst.active.trans ha) (hfirst.openBlocks ▸ ho))
      simpa using hall

theorem run_outside (e : Emission) {p : Program} (ha : p.active = .body) (ho : p.openBlocks = 0)
    (hs : p.setAside = #[]) : p.Grows (e.run p) (own [e]) (placed [e]).flatten [] := by
  cases e with
  | line l =>
      rw [run]
      exact Program.grows_write_body ha l
  | count purpose =>
      rw [run]
      constructor <;> simp [Program.nextCounter]
  | block inner =>
      have hinner := runAll_inside inner p.enterFooter.2 rfl (Nat.succ_pos _)
      have hblock :
          p.Grows (p.inFooter (runAll inner)) [] (own inner ++ (closed inner).flatten) [] :=
        hinner.leaveFooter_outside ho hs
      rw [run]
      simpa using hblock

theorem runAll_outside (ops : List Emission) {p : Program} (ha : p.active = .body)
    (ho : p.openBlocks = 0) (hs : p.setAside = #[]) :
    p.Grows (runAll ops p) (own ops) (placed ops).flatten [] := by
  induction ops generalizing p with
  | nil =>
      rw [runAll]
      exact .refl p
  | cons e rest ih =>
      have hfirst := run_outside e ha ho hs
      have hempty : (e.run p).setAside = #[] := by simpa [hs] using hfirst.setAside
      have hrest := ih (hfirst.active.trans ha) (hfirst.openBlocks.trans ho) hempty
      have hall := hfirst.trans hrest
      rwa [← own_append, ← List.flatten_append, ← placed_append, List.singleton_append,
        ← runAll] at hall

end Emission

namespace Program

def haltLines : List Line := [.jump haltLabel, .label haltLabel, .jump haltLabel]

theorem footer_start : start.footer.toList = haltLines := rfl

end Program

/-- Each line of a tree of emissions is in the program once. The body has the lines outside of all
blocks. In the footer, after the lines that end every program, the lines of each block are together,
and a block that is inside no other one is followed by those inside it in the order in which these
were closed. -/
theorem runAll_start_layout (ops : List Emission) :
    let p := Emission.runAll ops .start
    p.body.toList = Emission.own ops ∧
      p.footer.toList = Program.haltLines ++ (Emission.placed ops).flatten ∧
      p.lines.Perm (Program.haltLines ++ Emission.lines ops) ∧
      p.setAside = #[] ∧ p.openBlocks = 0 ∧ p.active = .body := by
  intro p
  have hgrows := Emission.runAll_outside ops (p := Program.start) rfl rfl rfl
  have hbody : p.body.toList = Emission.own ops := hgrows.body
  have hfooter : p.footer.toList = Program.haltLines ++ (Emission.placed ops).flatten :=
    hgrows.footer
  have hempty : p.setAside = #[] := Array.toList_eq_nil_iff.mp hgrows.setAside
  refine ⟨hbody, hfooter, ?_, hempty, hgrows.openBlocks, hgrows.active⟩
  rw [Program.lines, hbody, hfooter]
  refine (List.perm_append_comm_assoc _ _ _).trans (.append_left _ ?_)
  exact ((Emission.placed_perm_closed ops).flatten.append_left _).trans
    (Emission.own_closed_perm_lines ops)

/-- Of two blocks inside one, the innermost is closed first. -/
example (a b c d e : Line) :
    Emission.placed [.block [.line a, .block [.line b, .block [.line c], .line d], .line e]] =
      [[a, e], [c], [b, d]] := by
  rfl

end P16
