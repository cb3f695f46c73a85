import P16.Proofs.LibraryModules
import P16.Proofs.Routines

/-!
# The library's arithmetic

The functions of the library's module `math`, from their text to what the machine does when a
program calls them. `max` and `min` have loops that run once at most; `clamp` calls both.
-/

namespace P16

open Machine (selectLines)

namespace Library

def math : Entry := ⟨["math"], ["math.p16"], moduleOf mathSource⟩

/-- A function of the module. Its arguments are given in registers, and its value follows from
what they hold. -/
structure MathFunction where
  name : String
  args : List Register
  value : Registers → Nat

def MathFunction.maximum : MathFunction :=
  ⟨"max", [.A, .B], fun r => max (r .A).toNat (r .B).toNat⟩

def MathFunction.minimum : MathFunction :=
  ⟨"min", [.A, .B], fun r => min (r .A).toNat (r .B).toNat⟩

def MathFunction.clamp : MathFunction :=
  ⟨"clamp", [.A, .B, .C], fun r => min (max (r .A).toNat (r .B).toNat) (r .C).toNat⟩

namespace MathFunction

variable (f : MathFunction)

def key : FunctionKey := ⟨⟨["math"]⟩, f.name⟩

def symbol : FunctionSymbol :=
  .routine (ModulePath.mangle ⟨["math"]⟩ f.name) (f.args.map Register.name)

/-- `A = math.f(A, …)` -/
def statement : Stmt :=
  .assign [.name ⟨"A", default⟩]
    (.call (.member (.name ⟨"math", default⟩) ⟨f.name, default⟩ default)
      (f.args.map fun x => .name ⟨x.name, default⟩) [] default) default

/-- What the function gives back for the words of its arguments. -/
def Gives (words : List UInt16) (w : UInt16) : Prop :=
  ∀ r : Registers, words = f.args.map r → w.toNat = f.value r

/-- The code of a function with the body `body` and a `return` of `A`. -/
def functionLines (body : List Line) : List Line :=
  f.symbol.prologueLines ++ (body ++ giveBackLines [.reg .A]) ++ [.jumpBack]

/-- The code of a function whose loop has the number `n`. -/
def choiceLines (left right : Register) (n : Nat) : List Line :=
  f.functionLines (selectLines left right (.numbered ⟨["math"]⟩ n)
    (ModulePath.mangle ⟨["math"]⟩ (loopName n "body")))

def clampLines : List Line :=
  clamp.functionLines (callLines true maximum.symbol.label [.reg .A, .reg .B] [.A] ++
    callLines true minimum.symbol.label [.reg .A, .reg .C] [.A])

end MathFunction

open MathFunction in
theorem math_checked : (parseModule mathSource).toOption.isSome = true ∧ math.Ready ∧
    math.imported.Offers math.enter maximum.key maximum.symbol.label 2 1
      (Program.haltLines ++ maximum.choiceLines .B .A 1) ∧
    math.imported.Offers math.enter minimum.key minimum.symbol.label 2 1
      (Program.haltLines ++ minimum.choiceLines .A .B 1) ∧
    math.imported.Offers math.enter clamp.key clamp.symbol.label 3 1
      (Program.haltLines ++
        (clampLines ++ maximum.choiceLines .B .A 1 ++ minimum.choiceLines .A .B 2)) := by
  unfold math moduleOf
  rw [parseModule_eq_parseText mathSource, mathSource, toList_unlines]
  decide +kernel

theorem math_found : math.Found := by
  refine Entry.found_of_lookup ?_ ?_ ?_ ?_ (parseModule_eq_moduleOf math_checked.1)
  · with_unfolding_all rfl
  · with_unfolding_all rfl
  · with_unfolding_all rfl
  · with_unfolding_all rfl

namespace MathFunction

theorem gives_maximum {a b w : UInt16} (h : maximum.Gives [a, b] w) :
    w.toNat = max a.toNat b.toNat :=
  h (Function.update (fun _ => b) .A a) rfl

theorem gives_minimum {a b w : UInt16} (h : minimum.Gives [a, b] w) :
    w.toNat = min a.toNat b.toNat :=
  h (Function.update (fun _ => b) .A a) rfl

variable {f : MathFunction} {m : Machine} {q n : Nat} (hnodup : (labelNames m.lines).Nodup)
include hnodup

theorem serves_maximum (h : m.Holds q (maximum.choiceLines .B .A n)) :
    m.Serves maximum.symbol (.link :: maximum.args) maximum.Gives := by
  refine (Machine.serves_select hnodup rfl (Machine.holds_append.mp h).1 (.inr ⟨rfl, rfl⟩)).mono ?_
  intro words w hw r hwords
  rw [hw r hwords]
  simp only [maximum]
  split <;> rename_i hlt <;> rw [UInt16.lt_iff_toNat_lt] at hlt <;> omega

theorem serves_minimum (h : m.Holds q (minimum.choiceLines .A .B n)) :
    m.Serves minimum.symbol (.link :: minimum.args) minimum.Gives := by
  refine (Machine.serves_select hnodup rfl (Machine.holds_append.mp h).1 (.inl ⟨rfl, rfl⟩)).mono ?_
  intro words w hw r hwords
  rw [hw r hwords]
  simp only [minimum]
  split <;> rename_i hlt <;> rw [UInt16.lt_iff_toNat_lt] at hlt <;> omega

theorem serves_clamp (h : m.Holds q clampLines)
    (hmax : m.Serves maximum.symbol (.link :: maximum.args) maximum.Gives)
    (hmin : m.Serves minimum.symbol (.link :: minimum.args) minimum.Gives) :
    m.Serves clamp.symbol (.link :: clamp.args) clamp.Gives := by
  have hcode := (Machine.holds_append.mp h).1
  have hlabel := Machine.position?_of_nodup hnodup (Machine.holds_cons.mp hcode).1
  refine Machine.serves_of_body hlabel hcode (by decide) (by decide) ?_
  intro s r words hlength
  obtain ⟨a, b, c, rfl⟩ := List.length_eq_three.mp hlength.symm
  obtain ⟨hbody, -⟩ := Machine.holds_append.mp (Machine.holds_append.mp hcode).2
  obtain ⟨hfirst, hsecond⟩ := Machine.holds_append.mp hbody
  obtain ⟨r₁, hrun₁, hgives₁, hlink₁, hkeep₁⟩ := @hmax (s.resume _ (assignAll
    (Register.arguments.take clamp.symbol.arity) [a, b, c] r)) _ _ [a, b] hfirst
    (.cons rfl (.cons rfl .nil)) rfl
  obtain ⟨r₂, hrun₂, hgives₂, hlink₂, hkeep₂⟩ := @hmin (s.resume _ r₁) _ _ [r₁ .A, r₁ .C] hsecond
    (.cons rfl (.cons rfl .nil)) rfl
  have hhigh : r₁ .C = c := hkeep₁ .C (by decide)
  rw [List.length_append, ← Nat.add_assoc]
  refine ⟨r₂, hrun₁.trans hrun₂, ?_, ?_, ?_⟩
  · rintro r' ⟨⟩
    rw [gives_minimum hgives₂, gives_maximum hgives₁, hhigh]
    rfl
  · rw [hlink₂ rfl]
    exact hlink₁ rfl
  · intro x hx
    have hpair : ∀ y ∈ Register.link :: maximum.args, y ∈ Register.link :: clamp.args := by decide
    have hthree : ∀ y ∈ Register.arguments.take clamp.symbol.arity,
        y ∈ Register.link :: clamp.args := by decide
    calc r₂ x
      _ = r₁ x := hkeep₂ x fun h => hx (hpair x h)
      _ = _ := hkeep₁ x fun h => hx (hpair x h)
      _ = r x := assignAll_of_not_mem fun h => hx (hthree x h)

omit hnodup

/-- The code is what is written for a call of the function, and does what the function says. -/
structure Implements (f : MathFunction) (code : List Line) : Prop where
  offers : math.imported.Offers math.enter f.key f.symbol.label f.args.length 1
    (Program.haltLines ++ code)
  labels : (labelNames (Program.haltLines ++ code)).Nodup
  serves : ∀ {m : Machine} {q : Nat}, (labelNames m.lines).Nodup → m.Holds q code →
    m.Serves f.symbol (.link :: f.args) f.Gives

theorem implements_maximum : maximum.Implements (maximum.choiceLines .B .A 1) where
  offers := math_checked.2.2.1
  labels := by decide +kernel
  serves := serves_maximum

theorem implements_minimum : minimum.Implements (minimum.choiceLines .A .B 1) where
  offers := math_checked.2.2.2.1
  labels := by decide +kernel
  serves := serves_minimum

theorem implements_clamp : clamp.Implements
    (clampLines ++ maximum.choiceLines .B .A 1 ++ minimum.choiceLines .A .B 2) where
  offers := math_checked.2.2.2.2
  labels := by decide +kernel
  serves hnodup h := by
    obtain ⟨h, hmin⟩ := Machine.holds_append.mp h
    obtain ⟨hclamp, hmax⟩ := Machine.holds_append.mp h
    exact serves_clamp hnodup hclamp (serves_maximum hnodup hmax) (serves_minimum hnodup hmin)

theorem calls_statement (f : MathFunction) : f.statement.Calls f.key (f.args.map .reg) [.A] := by
  refine .assign rfl (.call rfl ?_)
  rw [List.forall₂_map_left_iff, List.forall₂_map_right_iff, List.forall₂_same]
  exact fun x _ => .register x.ofName?_name

end MathFunction

def mathFunctions : List MathFunction := [.maximum, .minimum, .clamp]

end Library

open Library in
/-- A program that imports `math` and assigns a function's value to `A` comes to its end with that
value in `A`. Stack and memory are as before, and so are the other registers except for the
arguments and the link. -/
theorem math_function_computes (roots : List SearchRoot) (tree : SourceTree) (file? : Option String)
    {f : MathFunction} (hf : f ∈ mathFunctions) {source : String}
    (hsource : ReadAs source [.importing ["math"], f.statement]) :
    CompilesInto (.bundled (.library :: roots) tree) file? source fun m =>
      ∀ s : Machine.State, s.line = 0 → ∃ t, m.Reaches s t ∧ m.HaltsAt t.line ∧
        t.stack = s.stack ∧ t.memory = s.memory ∧ (t.registers .A).toNat = f.value s.registers ∧
        ∀ x ∉ .link :: f.args, t.registers x = s.registers x := by
  obtain ⟨code, hcode⟩ : ∃ code, f.Implements code := by
    simp only [mathFunctions, List.mem_cons, List.not_mem_nil, or_false] at hf
    rcases hf with rfl | rfl | rfl
    · exact ⟨_, MathFunction.implements_maximum⟩
    · exact ⟨_, MathFunction.implements_minimum⟩
    · exact ⟨_, MathFunction.implements_clamp⟩
  obtain ⟨c, hc, hdiagnostics, hlines⟩ := Entry.compileSource_call math_found math_checked.2.1
    (by simpa using hcode.offers) hsource f.calls_statement roots tree file?
  refine ⟨c, hc, hdiagnostics, fun m hm s hs => ?_⟩
  rw [hlines] at hm
  have hnodup := Machine.nodup_labelNames_of_call hm hcode.labels
  have hholds := Machine.holds_of_lines (hm.trans (List.append_assoc ..).symm)
  have hwords : List.Forall₂ (fun a w => m.plain? s.registers a = some w) (f.args.map .reg)
      (f.args.map s.registers) := by
    rw [List.forall₂_map_left_iff, List.forall₂_map_right_iff, List.forall₂_same]
    exact fun _ _ => rfl
  obtain ⟨t, hrun, hhalts, hstack, hmemory, hgives, hkeep⟩ :=
    (hcode.serves hnodup hholds).reaches_halt hnodup hm hs hwords
      (by simp [FunctionSymbol.arity, MathFunction.symbol, FunctionSymbol.routine])
  exact ⟨t, hrun, hhalts, hstack, hmemory, hgives s.registers rfl, hkeep⟩

open Library in
theorem math_function_computes_clamp :
    ReadAs "import math\nA = math.clamp(A, B, C)\n"
      [.importing ["math"], MathFunction.clamp.statement] ∧
    ∃ c, compileSource (.bundled [.library] (.empty [])) none
        "import math\nA = math.clamp(A, B, C)\n" = .ok c ∧
      ∃ m : Machine, m.lines = c.program.lines ∧ ∃ t : Machine.State,
        m.Reaches ⟨0, fun | .A => 7 | .B => 0xfff0 | .C => 0x8001 | _ => 3, fun _ => 0, [5]⟩ t ∧
          m.HaltsAt t.line ∧ t.stack = [5] ∧ (t.registers .A).toNat = 0x8001 := by
  have hread : ReadAs "import math\nA = math.clamp(A, B, C)\n"
      [.importing ["math"], MathFunction.clamp.statement] :=
    .of_render (by decide +kernel) (by decide +kernel)
  obtain ⟨c, hc, -, hlines⟩ := Entry.compileSource_call math_found math_checked.2.1
    math_checked.2.2.2.2 hread MathFunction.clamp.calls_statement [] (.empty []) none
  have hsmall : (imageUpTo c.program.lines c.program.lines.length).length < 0x10000 := by
    rw [hlines]
    decide +kernel
  have hcomputes := math_function_computes [] (.empty []) none (f := .clamp)
    (by simp [mathFunctions]) hread
  obtain ⟨t, hreaches, hhalts, hstack, -, hvalue, -⟩ :=
    hcomputes.ofLines hc hsmall (fun _ a _ => a)
      ⟨0, fun | .A => 7 | .B => 0xfff0 | .C => 0x8001 | _ => 3, fun _ => 0, [5]⟩ rfl
  exact ⟨hread, c, hc, _, rfl, t, hreaches, hhalts, hstack, hvalue.trans (by decide)⟩

end P16
