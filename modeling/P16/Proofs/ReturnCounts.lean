import P16.Proofs.KeptFunctions
import P16.Proofs.LabelNames

/-!
# Numbers of results

The number of results of a function becomes known once: by a `return`, by a call that is lowered
while the body of the function is, or at the end of the body. From then on it does not change, and
all calls and every `return`, also those before, agree with it.

At the end of a body without `return` the number of results is zero, unless the function has been
called inside the body with targets. Such a call pops what is never pushed.

Calls and `return`s are counted in the record of what has happened. What is recorded there has been
written at the same time: a call pops, and a `return` pushes, as many words as the record says
(`Course.call_written`, `Course.giveBack_written`).
-/

namespace P16

open Compilation

namespace Compilation

variable {c c' : Compilation} {key : FunctionKey} {f : FunctionSymbol} {n : Nat}

theorem function?_updateFunction (c : Compilation) (key : FunctionKey)
    (g : FunctionSymbol → FunctionSymbol) :
    (c.updateFunction key g).function? key = (c.function? key).map g := by
  change ((c.store.updateFunction _ _ g).lookup? _ _).bind _ = (c.store.functionIn? _ _).map g
  rw [Store.lookup?_updateFunction]
  cases hf : c.store.functionIn? key.path key.name with
  | none => exact hf
  | some f => simp [Symbol.function?]

theorem Settles.settled (h : c.Settles key n c') : c'.Settled key n := by
  cases h with
  | agrees h => exact h
  | fixes hopen =>
      intro f' hf'
      rw [function?_updateFunction] at hf'
      obtain ⟨f, -, rfl⟩ := Option.map_eq_some_iff.mp hf'
      rfl

theorem Keeps.settled (h : c.Keeps c') (hsome : (c.symbol? key).isSome) (hs : c.Settled key n) :
    c'.Settled key n := by
  intro f' hf'
  obtain ⟨symbol, hsymbol⟩ := Option.isSome_iff_exists.mp hsome
  obtain ⟨f, rfl, he⟩ := h.exists_evolves hsymbol hf'
  exact he.returns? n (hs f (function?_eq_some.mpr hsymbol))

theorem Keeps.isSome (h : c.Keeps c') (hsome : (c.symbol? key).isSome) :
    (c'.symbol? key).isSome := by
  obtain ⟨symbol, hsymbol⟩ := Option.isSome_iff_exists.mp hsome
  obtain ⟨symbol', hsymbol', -⟩ := h key symbol hsymbol
  exact Option.isSome_iff_exists.mpr ⟨symbol', hsymbol'⟩

end Compilation

/-- What a step can add to the record. -/
inductive Recorded (m m' : Moment) : Event → Prop where
  | install (dotted : String) : Recorded m m' (.install dotted)
  | load (dotted : String) : Recorded m m' (.load dotted)
  | loopLabel (path : ModulePath) (n : Nat) (part : String) :
      Recorded m m' (.label path (loopName n part))
  | bodyLabel {key : FunctionKey} {f : FunctionSymbol}
      (hf : m'.now.function? key = some f) (he : f.emitted = true) :
      Recorded m m' (.label key.path key.name)
  | call {key : FunctionKey} {f : FunctionSymbol} {arguments : List Operand}
      {results : List Register} {nested : Bool}
      (hp : .call key f arguments results ∈ m.pending)
      (hs : m'.now.Settled key results.length)
      (hevents : m'.now.events = .call key results.length nested :: m.now.events)
      (hlines : m'.now.program =
        m.now.program.writeAll (callLines nested f.label arguments results)) :
      Recorded m m' (.call key results.length nested)
  | giveBack {key : FunctionKey} {operands : List Operand}
      (hk : m.now.scope.function? = some key) (hs : m'.now.Settled key operands.length)
      (hevents : m'.now.events = .giveBack key operands.length :: m.now.events)
      (hlines : m'.now.program = m.now.program.writeAll (giveBackLines operands)) :
      Recorded m m' (.giveBack key operands.length)

section recorded

variable {env : Environment} {entry : List Stmt} {m m' : Moment} {event : Event}

theorem Acts.recorded {c : Compilation} (h : Acts env (m.code entry) m.now c)
    (he : event ∈ c.events) : event ∈ m.now.events ∨ Recorded m ⟨c, m.pending⟩ event := by
  cases h with
  | giveBack hm hk ho hs =>
      rw [record, List.mem_cons] at he
      rcases he with rfl | he
      · refine .inr (.giveBack hk hs.settled (congrArg _ hs.events) ?_)
        change Program.jumpBack _ = _
        rw [Program.giveBack_eq, hs.program]
      · exact .inl (hs.events ▸ he)
  | @beginImport dotted hi hd hs =>
      unfold begun at he
      dsimp only at he
      split at he
      · exact .inl he
      · rcases List.mem_cons.mp he with rfl | he
        · exact .inr (.install dotted)
        · exact .inl he
  | _ => exact .inl he

theorem Step.recorded (h : Step env entry m m') (he : event ∈ m'.now.events) :
    event ∈ m.now.events ∨ Recorded m m' event := by
  cases h with
  | act ha => exact ha.recorded he
  | beginCall hc hk hf hn ha hr => exact .inl he
  | endCall _ hs =>
      rcases List.mem_cons.mp he with rfl | he
      · refine .inr (.call List.mem_cons_self hs.settled (congrArg _ hs.events) ?_)
        change Program.callSequence .. = _
        rw [Program.callSequence_eq, hs.program]
      · exact .inl (hs.events ▸ he)
  | @beginLoop _ e body span test hm ht =>
      rcases List.mem_append.mp he with he | he
      · right
        unfold LoopTest.labelEvents at he
        split at he
        · rcases he with ⟨⟩ | ⟨_, ⟨⟩ | ⟨_, ⟨⟩⟩⟩
          · exact .loopLabel _ _ "body"
          · exact .loopLabel _ _ "start"
        · rcases he with ⟨⟩ | ⟨_, ⟨⟩⟩
          exact .loopLabel _ _ "start"
      · exact .inl he
  | endLoop =>
      rcases List.mem_cons.mp he with rfl | he
      · exact .inr (.loopLabel _ _ "end")
      · exact .inl he
  | @beginBody _ key f hf _ =>
      rcases List.mem_cons.mp he with rfl | he
      · have hopened : (m.now.openBody key f).function? key = some { f with emitted := true } := by
          have hmarked := m.now.function?_updateFunction key fun f => { f with emitted := true }
          rw [hf, Option.map_some, function?_eq_some] at hmarked
          rw [function?_eq_some]
          exact (Store.lookup?_enter ..).trans hmarked
        exact .inr (.bodyLabel hopened rfl)
      · exact .inl he
  | endBody => exact .inl he
  | @beginFile _ dotted file loaded hi hd hs =>
      rcases List.mem_cons.mp he with rfl | he
      · exact .inr (.load dotted)
      · exact .inl he
  | endFile => exact .inl he

/-- What is recorded was so in the beginning, or was added between two moments in a row. -/
theorem Course.recorded {first : Moment} {past : List Moment}
    (h : Course env entry first (m :: past)) (he : event ∈ m.now.events) :
    event ∈ first.now.events ∨ ∃ m₁ m₂, [m₂, m₁] <:+: m :: past ∧ Recorded m₁ m₂ event := by
  generalize hmoments : m :: past = moments at h
  induction h generalizing m past with
  | start =>
      cases hmoments
      exact .inl he
  | @next m₁ m' past' hcourse hs ih =>
      cases hmoments
      rcases hs.recorded he with hold | hnew
      · rcases ih hold rfl with hfirst | ⟨m₂, m₃, hrow, hnew⟩
        · exact .inl hfirst
        · exact .inr ⟨m₂, m₃, List.infix_cons hrow, hnew⟩
      · exact .inr ⟨m₁, m', ⟨[], past', rfl⟩, hnew⟩

end recorded

/-- How many results of which function a call takes or a `return` gives. -/
def Event.count? : Event → Option (FunctionKey × Nat)
  | call key results _ => some (key, results)
  | giveBack key results => some (key, results)
  | _ => none

namespace Moment

/-- The functions of pending calls and bodies have not been given up. -/
def Tracks (m : Moment) : Prop :=
  ∀ p ∈ m.pending, ∀ key f, p.function? = some (key, f) →
    ∃ symbol, m.now.symbol? key = some symbol ∧ (Symbol.function f).Becomes symbol

/-- All calls of a function and every `return` in it have the number of results that is known. -/
def Agrees (m : Moment) : Prop :=
  ∀ event ∈ m.now.events, ∀ key n, event.count? = some (key, n) →
    (m.now.symbol? key).isSome ∧ m.now.Settled key n

variable {m : Moment} {key : FunctionKey} {f f' : FunctionSymbol}

theorem Tracks.evolves (h : m.Tracks) {p : Pending} (hp : p ∈ m.pending)
    (hf : p.function? = some (key, f)) (hf' : m.now.function? key = some f') : f.Evolves f' := by
  obtain ⟨symbol, hs, hb⟩ := h p hp key f hf
  cases hs.symm.trans (function?_eq_some.mp hf')
  obtain ⟨_, ⟨⟩, he⟩ := hb.exists_evolves
  exact he

theorem Tracks.isSome (h : m.Tracks) {p : Pending} (hp : p ∈ m.pending)
    (hf : p.function? = some (key, f)) : (m.now.symbol? key).isSome := by
  obtain ⟨symbol, hs, -⟩ := h p hp key f hf
  exact Option.isSome_iff_exists.mpr ⟨symbol, hs⟩

end Moment

section agrees

variable {env : Environment} {entry : List Stmt} {m m' : Moment}

theorem Step.pending (h : Step env entry m m') {p : Pending} (hp : p ∈ m'.pending) :
    p ∈ m.pending ∨ ∀ key f, p.function? = some (key, f) → m.now.function? key = some f := by
  cases h with
  | act ha => exact .inl hp
  | beginCall hc hk hf hn ha hr =>
      rcases List.mem_cons.mp hp with rfl | hp
      · right
        rintro key f ⟨⟩
        exact hf
      · exact .inl hp
  | endCall he hs => exact .inl (List.mem_cons_of_mem _ hp)
  | beginLoop hm ht =>
      rcases List.mem_cons.mp hp with rfl | hp
      · exact .inr nofun
      · exact .inl hp
  | endLoop => exact .inl (List.mem_cons_of_mem _ hp)
  | beginBody hf he =>
      rcases List.mem_cons.mp hp with rfl | hp
      · right
        rintro key f ⟨⟩
        exact hf
      · exact .inl hp
  | endBody => exact .inl (List.mem_cons_of_mem _ hp)
  | beginFile hi hd hs =>
      rcases List.mem_cons.mp hp with rfl | hp
      · exact .inr nofun
      · exact .inl hp
  | endFile => exact .inl (List.mem_cons_of_mem _ hp)

theorem Step.tracks (hr : env.registry.AddsNoFunction) (h : Step env entry m m')
    (htracks : m.Tracks) : m'.Tracks := by
  intro p hp key f hf
  have hkeeps := h.keeps hr
  rcases h.pending hp with hold | hnew
  · obtain ⟨symbol, hs, hb⟩ := htracks p hold key f hf
    obtain ⟨symbol', hs', hb'⟩ := hkeeps key symbol hs
    exact ⟨symbol', hs', hb.trans hb'⟩
  · exact hkeeps key _ (function?_eq_some.mp (hnew key f hf))

theorem Step.agrees (hr : env.registry.AddsNoFunction) (h : Step env entry m m')
    (hscope : m.now.scope.function? = (Pending.owner? m.pending).map Prod.fst)
    (htracks : m.Tracks) (hagrees : m.Agrees) : m'.Agrees := by
  intro event hevent key n hcount
  have hkeeps := h.keeps hr
  rcases h.recorded hevent with hold | hnew
  · obtain ⟨hsome, hsettled⟩ := hagrees event hold key n hcount
    exact ⟨hkeeps.isSome hsome, hkeeps.settled hsome hsettled⟩
  · cases hnew with
    | call hp hs =>
        cases hcount
        exact ⟨hkeeps.isSome (htracks.isSome hp rfl), hs⟩
    | giveBack hk hs =>
        cases hcount
        rw [hscope] at hk
        obtain ⟨⟨key, f⟩, howner, rfl⟩ := Option.map_eq_some_iff.mp hk
        obtain ⟨before, hp⟩ := Pending.exists_of_owner? howner
        exact ⟨hkeeps.isSome (htracks.isSome hp rfl), hs⟩
    | _ => cases hcount

theorem Course.tracks_agrees (hr : env.registry.AddsNoFunction) {file? : Option String}
    {moments : List Moment} (h : Course env entry (.start file?) moments) :
    ∀ m ∈ moments, m.Tracks ∧ m.Agrees := by
  induction h with
  | start =>
      intro m hm
      cases List.mem_singleton.mp hm
      refine ⟨nofun, fun event hevent key n hcount => ?_⟩
      cases List.mem_singleton.mp hevent
      cases hcount
  | @next m₁ m' past hcourse hs ih =>
      intro m hm
      rcases List.mem_cons.mp hm with rfl | hm
      · obtain ⟨htracks, hagrees⟩ := ih m₁ List.mem_cons_self
        have hscope := hcourse.scope_eq List.mem_cons_self
        exact ⟨hs.tracks hr htracks, hs.agrees hr hscope htracks hagrees⟩
      · exact ih m hm

end agrees

/-- Between two moments in a row, the event is recorded and the lines are written. -/
def RecordedWith (moments : List Moment) (event : Event) (lines : List Line) : Prop :=
  ∃ m₁ m₂, [m₂, m₁] <:+: moments ∧ m₂.now.events = event :: m₁.now.events ∧
    m₂.now.program = m₁.now.program.writeAll lines

section written

variable {env : Environment} {entry : List Stmt} {file? : Option String} {m : Moment}
  {past : List Moment} {key : FunctionKey} {f : FunctionSymbol} {n : Nat}

theorem Course.call_written (hr : env.registry.AddsNoFunction)
    (h : Course env entry (.start file?) (m :: past)) (hf : m.now.function? key = some f)
    {nested : Bool} (he : .call key n nested ∈ m.now.events) :
    ∃ arguments results, results.length = n ∧
      RecordedWith (m :: past) (.call key n nested)
        (callLines nested f.label arguments results) := by
  rcases h.recorded he with hfirst | ⟨m₁, m₂, hrow, hnew⟩
  · cases List.mem_singleton.mp hfirst
  · cases hnew with
    | @call _ g arguments results _ hp _ hevents hlines =>
        -- the function has the label which it had when the call was written
        have hm₁ : m₁ ∈ past := by
          rcases List.infix_cons_iff.mp hrow with hrow | hrow
          · exact (List.cons_prefix_cons.mp hrow).2.subset List.mem_cons_self
          · exact hrow.subset (List.mem_cons_of_mem _ List.mem_cons_self)
        have htracks := (h.tracks_agrees hr m₁ (List.mem_cons_of_mem _ hm₁)).1
        have hkeeps := (List.pairwise_cons.mp (h.keeps hr)).1 m₁ hm₁
        obtain ⟨symbol, hs, hb⟩ := htracks _ hp key g rfl
        obtain ⟨symbol', hs', hb'⟩ := hkeeps key symbol hs
        cases hs'.symm.trans (function?_eq_some.mp hf)
        obtain ⟨_, ⟨⟩, hevolves⟩ := (hb.trans hb').exists_evolves
        rw [hevolves.label]
        exact ⟨arguments, results, rfl, m₁, m₂, hrow, hevents, hlines⟩

theorem Course.giveBack_written (h : Course env entry (.start file?) (m :: past))
    (he : .giveBack key n ∈ m.now.events) :
    ∃ operands, operands.length = n ∧
      RecordedWith (m :: past) (.giveBack key n) (giveBackLines operands) := by
  rcases h.recorded he with hfirst | ⟨m₁, m₂, hrow, hnew⟩
  · cases List.mem_singleton.mp hfirst
  · cases hnew with
    | @giveBack _ operands _ _ hevents hlines =>
        exact ⟨operands, rfl, m₁, m₂, hrow, hevents, hlines⟩

end written

/-- The number of results of a function does not change once it is known, and all calls of the
function and every `return` in it so far agree with it, in every state through which a compilation
goes: the calls have been written with as many words to pop, and the `return`s with as many to push.
Every call and every `return` that is lowered is among them. -/
theorem return_count_respected (env : Environment) (hr : env.registry.AddsNoFunction)
    (file? : Option String) (modules : List Module) :
    Passes env (modules.flatMap Module.body) (.start file?)
      ⟨compileModules env file? modules, []⟩ ∧
    ∀ moments, Course env (modules.flatMap Module.body) (.start file?) moments →
      (moments.Pairwise fun later earlier => ∀ key f f' n, earlier.now.function? key = some f →
        f.returns? = some n → later.now.function? key = some f' → f'.returns? = some n) ∧
      (∀ m past, m :: past <:+ moments → ∀ key f n, m.now.function? key = some f →
        f.returns? = some n →
        (∀ k nested, .call key k nested ∈ m.now.events → k = n ∧ ∃ arguments results,
          results.length = n ∧ RecordedWith (m :: past) (.call key n nested)
            (callLines nested f.label arguments results)) ∧
        ∀ k, .giveBack key k ∈ m.now.events → k = n ∧ ∃ operands, operands.length = n ∧
          RecordedWith (m :: past) (.giveBack key n) (giveBackLines operands)) ∧
      ∀ m ∈ moments,
        (∀ enter key shown f site targets c',
          LowerM.callFunction enter key shown f site targets m.now = .ok () c' →
          ∃ nested, c'.events =
            .call key targets.length nested :: (m.now.ensureEmitted enter key).events) ∧
        ∀ value? span c', LowerM.giveBack value? span m.now = .ok () c' →
          ∃ key, m.now.scope.function? = some key ∧
            c'.events = .giveBack key (LowerM.returned value?).length :: m.now.events := by
  refine ⟨compileModules_passes env file? modules, fun moments hcourse => ⟨?_, ?_, ?_⟩⟩
  · apply (hcourse.keeps hr).imp
    intro later earlier hkeeps key f f' n hf hn hf'
    exact (hkeeps.evolves hf hf').returns? n hn
  · intro m past hsuffix key f n hf hn
    have hcourse := hcourse.of_suffix hsuffix
    have hagrees := (hcourse.tracks_agrees hr m List.mem_cons_self).2
    have hcount (event : Event) (he : event ∈ m.now.events) (k : Nat)
        (hc : event.count? = some (key, k)) : k = n := by
      obtain ⟨-, hsettled⟩ := hagrees event he key k hc
      exact Option.some.inj ((hsettled f hf).symm.trans hn)
    constructor
    · intro k nested he
      obtain rfl := hcount _ he k rfl
      exact ⟨rfl, hcourse.call_written hr hf he⟩
    · intro k he
      obtain rfl := hcount _ he k rfl
      exact ⟨rfl, hcourse.giveBack_written he⟩
  · intro m _
    constructor
    · intro enter key shown f site targets c' hcall
      obtain ⟨arguments, results, c₁, -, -, hres, hs, rfl⟩ :=
        (LowerM.callFunction_meets m.now enter key shown f site targets).ok hcall
      refine ⟨c₁.scope.function?.isSome, ?_⟩
      rw [(forall₂_of_mapM hres).length_eq, ← hs.events]
      rfl
    · intro value? span c' hgive
      obtain ⟨key, operands, c₁, hk, ho, hs, rfl⟩ :=
        (LowerM.giveBack_meets m.now value? span).ok hgive
      refine ⟨key, hk, ?_⟩
      rw [(forall₂_of_mapM ho).length_eq, ← hs.events]
      rfl

/-- `A = f()` -/
def takesResult : Stmt :=
  .assign [.name ⟨"A", default⟩] (.call (.name ⟨"f", default⟩) [] [] default) default

/-- `A = f()` after the definition of `f`, whose body is `A = f()` and `rest`. -/
def selfCalling (rest : List Stmt) : Module :=
  ⟨[.define ⟨"f", default⟩ [] [] (takesResult :: rest) default, takesResult], default⟩

def afterSelfCalling (rest : List Stmt) : Moment :=
  let m := (Moment.start none).lowered .bare 1
    (.define ⟨"f", default⟩ [] [] (takesResult :: rest) default)
  m.lowered .bare 1 takesResult

theorem passes_afterSelfCalling (rest : List Stmt) :
    Passes .bare ([selfCalling rest].flatMap Module.body) (.start none)
      (afterSelfCalling rest) := by
  have hdefine : Passes .bare ([selfCalling rest].flatMap Module.body) (.start none) _ :=
    Moment.passes_lowered .bare 1 List.mem_cons_self
  exact hdefine.trans (Moment.passes_lowered .bare 1 (List.mem_cons_of_mem _ List.mem_cons_self))

/-- `return A` -/
def returnsA : Stmt := .giveBack (some (.name ⟨"A", default⟩)) default

/-- The call in the body comes before the `return`, and the other one behind the body. -/
theorem return_count_respected_selfCalling :
    Environment.bare.registry.AddsNoFunction ∧ ∃ past f,
      Course .bare ([selfCalling [returnsA]].flatMap Module.body) (.start none)
        (afterSelfCalling [returnsA] :: past) ∧
      (afterSelfCalling [returnsA]).now.function? ⟨.root, "f"⟩ = some f ∧ f.returns? = some 1 ∧
      (∀ nested, ∃ arguments results, results.length = 1 ∧
        RecordedWith (afterSelfCalling [returnsA] :: past) (.call ⟨.root, "f"⟩ 1 nested)
          (callLines nested "f" arguments results)) ∧
      ∃ operands, operands.length = 1 ∧
        RecordedWith (afterSelfCalling [returnsA] :: past) (.giveBack ⟨.root, "f"⟩ 1)
          (giveBackLines operands) := by
  have hr : Environment.bare.registry.AddsNoFunction := Registry.onlyBundled_empty.addsNoFunction
  obtain ⟨past, hcourse⟩ := passes_afterSelfCalling [returnsA]
  have hcounts := (return_count_respected .bare hr none _).2 _ hcourse
  obtain ⟨hcalls, hreturns⟩ := hcounts.2.1 _ past List.suffix_rfl ⟨.root, "f"⟩ _ 1 rfl rfl
  have hevents : (afterSelfCalling [returnsA]).now.events =
      [.call ⟨.root, "f"⟩ 1 false, .giveBack ⟨.root, "f"⟩ 1, .call ⟨.root, "f"⟩ 1 true,
        .label .root "f", .label .root Program.haltLabel] := rfl
  refine ⟨hr, past, _, hcourse, rfl, rfl, fun nested => ?_, ?_⟩
  · exact (hcalls 1 nested (by rw [hevents]; cases nested <;> simp)).2
  · exact (hreturns 1 (by rw [hevents]; simp)).2

namespace Stmt

mutual

/-- Whether a `return` is lowered with the statement. -/
def hasReturn : Stmt → Bool
  | giveBack .. => true
  | whileLoop _ body _ => hasReturns body
  | _ => false

def hasReturns : List Stmt → Bool
  | [] => false
  | s :: rest => s.hasReturn || hasReturns rest

end

theorem hasReturns_of_mem {s : Stmt} {code : List Stmt} (hs : s ∈ code)
    (h : s.hasReturn = true) : hasReturns code = true := by
  induction code with
  | nil => cases hs
  | cons first rest ih =>
      rw [hasReturns, Bool.or_eq_true]
      rcases List.mem_cons.mp hs with rfl | hs
      · exact .inl h
      · exact .inr (ih hs)

end Stmt

namespace Moment

/-- A `return` among the current statements is one of the function that they belong to. -/
def ReturnsInside (entry : List Stmt) (m : Moment) : Prop :=
  ∀ rest, rest <:+ m.pending → ∀ key f, Pending.owner? rest = some (key, f) →
    Stmt.hasReturns (Pending.code entry rest) = true →
    Stmt.hasReturns f.definition.body = true

/-- What is known about functions whose bodies are written or being written. -/
structure Emits (m : Moment) : Prop where
  unreserved : ∀ key f, m.now.function? key = some f →
    key.name.startsWith Builtin.reserved = false
  writes : ∀ key f, m.now.function? key = some f → f.emitted = true → f.returns? = none →
    m.Writes key
  labels : ∀ path name, .label path name ∈ m.now.events →
    name.startsWith Builtin.reserved = false → ∃ symbol, m.now.symbol? ⟨path, name⟩ = some symbol ∧
      ∀ f, symbol = .function f → f.emitted = true

end Moment

section emits

variable {env : Environment} {entry : List Stmt} {m m' : Moment} {key : FunctionKey}

theorem Step.returnsInside (h : Step env entry m m') (hm : m.ReturnsInside entry) :
    m'.ReturnsInside entry := by
  intro rest hrest key f howner hreturns
  cases h with
  | act ha => exact hm rest hrest key f howner hreturns
  | beginCall hc hk hf hn ha hr =>
      rcases List.suffix_cons_iff.mp hrest with rfl | hrest
      · exact hm _ List.suffix_rfl key f howner hreturns
      · exact hm rest hrest key f howner hreturns
  | beginLoop hmem ht =>
      rcases List.suffix_cons_iff.mp hrest with rfl | hrest
      · have houter := Stmt.hasReturns_of_mem hmem (by rw [Stmt.hasReturn]; exact hreturns)
        exact hm _ List.suffix_rfl key f howner houter
      · exact hm rest hrest key f howner hreturns
  | beginBody hf he =>
      rcases List.suffix_cons_iff.mp hrest with rfl | hrest
      · cases howner
        exact hreturns
      · exact hm rest hrest key f howner hreturns
  | beginFile hi hd hs =>
      rcases List.suffix_cons_iff.mp hrest with rfl | hrest
      · cases howner
      · exact hm rest hrest key f howner hreturns
  | _ => exact hm rest (hrest.trans (List.suffix_cons _ _)) key f howner hreturns

/-- When a body has been written, the number of results is known. -/
theorem Step.writes (h : Step env entry m m') (hw : m.Writes key) :
    m'.Writes key ∨ ∀ f, m'.now.function? key = some f → f.returns? ≠ none := by
  obtain ⟨f, before, hp⟩ := hw
  cases h with
  | act ha => exact .inl ⟨f, before, hp⟩
  | endCall _ _ | endLoop | endFile =>
      rcases List.mem_cons.mp hp with hp | hp
      · cases hp
      · exact .inl ⟨f, before, hp⟩
  | @endBody c _ _ _ rest =>
      rcases List.mem_cons.mp hp with hp | hp
      · cases hp
        right
        intro f' hf'
        rw [closeBody, function?_updateFunction] at hf'
        obtain ⟨g, -, rfl⟩ := Option.map_eq_some_iff.mp hf'
        cases g.returns? <;> simp
      · exact .inl ⟨f, before, hp⟩
  | _ => exact .inl ⟨f, before, List.mem_cons_of_mem _ hp⟩

theorem Step.emits (hr : env.registry.AddsNoFunction) (h : Step env entry m m') (hm : m.Emits) :
    m'.Emits := by
  constructor
  case unreserved =>
    intro key f hf
    obtain ⟨old?, hold, hchange⟩ := h.change_to hr hf
    cases hchange with
    | same => exact hm.unreserved key f (function?_eq_some.mpr hold)
    | provided hnone ho => cases hnone
    | declared hd hk =>
        rw [hk]
        exact hd.unreserved
    | begun hp => exact hm.unreserved key _ (function?_eq_some.mpr hold)
    | fixed hn hfix => exact hm.unreserved key _ (function?_eq_some.mpr hold)
  case writes =>
    intro key f hf he hn
    obtain ⟨old?, hold, hchange⟩ := h.change_to hr hf
    cases hchange with
    | same =>
        have hwrites := hm.writes key f (function?_eq_some.mpr hold) he hn
        rcases h.writes hwrites with hwrites | hknown
        · exact hwrites
        · exact absurd hn (hknown f hf)
    | provided hnone ho => cases hnone
    | declared hd hk => cases he
    | @begun g hp =>
        refine ⟨g, m.now, ?_⟩
        rw [hp]
        exact List.mem_cons_self
    | fixed hopen hfix => cases hn
  case labels =>
    intro path name hlabel hunreserved
    rcases h.recorded hlabel with hold | hnew
    · obtain ⟨symbol, hs, hemitted⟩ := hm.labels path name hold hunreserved
      obtain ⟨symbol', hs', hb⟩ := h.keeps hr _ symbol hs
      refine ⟨symbol', hs', ?_⟩
      rintro f rfl
      obtain ⟨g, rfl, he⟩ := hb.exists_evolves
      exact he.emitted (hemitted g rfl)
    · cases hnew with
      | loopLabel _ n part =>
          rw [loopName_reserved] at hunreserved
          cases hunreserved
      | @bodyLabel key f hf he =>
          refine ⟨.function f, function?_eq_some.mp hf, ?_⟩
          rintro _ ⟨⟩
          exact he

theorem Moment.emits_start (file? : Option String) : (Moment.start file?).Emits := by
  have hnone (key : FunctionKey) (f : FunctionSymbol) :
      (Moment.start file?).now.function? key ≠ some f := by
    intro hf
    rw [function?_eq_some] at hf
    cases (Store.lookup?_start _ _).symm.trans hf
  constructor
  · exact fun key f hf => absurd hf (hnone key f)
  · exact fun key f hf => absurd hf (hnone key f)
  · intro path name hlabel hunreserved
    cases List.mem_singleton.mp hlabel
    rw [haltLabel_reserved] at hunreserved
    cases hunreserved

theorem Course.emits (hr : env.registry.AddsNoFunction) {file? : Option String}
    {moments : List Moment} (h : Course env entry (.start file?) moments) :
    ∀ m ∈ moments, m.Emits :=
  h.forall_mem (Moment.emits_start file?) fun _ _ hm hs => hs.emits hr hm

theorem Course.returnsInside {file? : Option String} {moments : List Moment}
    (h : Course env entry (.start file?) moments) : ∀ m ∈ moments, m.ReturnsInside entry := by
  have hfirst : (Moment.start file?).ReturnsInside entry := by
    intro rest hrest key f howner
    cases List.suffix_nil.mp hrest
    cases howner
  exact h.forall_mem hfirst fun _ _ hm hs => hs.returnsInside hm

/-- A step fixes the number of results of a function without `return` at the end of the body, or
by a call inside the body. -/
theorem Fixes.zero_or_call {n : Nat} {f : FunctionSymbol} (h : Fixes entry m m' key n)
    (hf : m.now.function? key = some f) (hn : f.returns? = none)
    (hno : Stmt.hasReturns f.definition.body = false)
    (hscope : m.now.scope.function? = (Pending.owner? m.pending).map Prod.fst)
    (htracks : m.Tracks) (hinside : m.ReturnsInside entry) (hemits : m.Emits) :
    n = 0 ∨ m'.Writes key ∧ ∃ nested, .call key n nested ∈ m'.now.events := by
  cases h with
  | giveBack hmem hk =>
      -- The `return` would be one of the function.
      rw [hscope] at hk
      obtain ⟨⟨_, g⟩, howner, rfl⟩ := Option.map_eq_some_iff.mp hk
      obtain ⟨before, hp⟩ := Pending.exists_of_owner? howner
      have hcode := Stmt.hasReturns_of_mem hmem (by rw [Stmt.hasReturn])
      have hbody := hinside _ List.suffix_rfl _ g howner hcode
      rw [← (htracks.evolves hp rfl hf).definition, hno] at hbody
      cases hbody
  | @call g arguments results nested hp he hc =>
      have hmem : Pending.call key g arguments results ∈ m.pending := by
        rw [hp]
        exact List.mem_cons_self
      have hemitted : f.emitted = true := by
        rcases he with he | hlabel
        · exact (htracks.evolves hmem rfl hf).emitted he
        · obtain ⟨symbol, hs, hemitted⟩ := hemits.labels _ _ hlabel (hemits.unreserved key f hf)
          cases hs.symm.trans (function?_eq_some.mp hf)
          exact hemitted f rfl
      obtain ⟨g', before, hbody⟩ := hemits.writes key f hf hemitted hn
      rw [hp] at hbody
      rcases List.mem_cons.mp hbody with hbody | hbody
      · cases hbody
      · exact .inr ⟨⟨g', before, hbody⟩, nested, hc⟩
  | endBody hp => exact .inl rfl

/-- The number of results of a function without `return` is zero, or that of a call which was
lowered while the body of the function was being written. -/
theorem Course.zero_or_call (hr : env.registry.AddsNoFunction) {file? : Option String}
    {past : List Moment} (h : Course env entry (.start file?) (m :: past)) {f : FunctionSymbol}
    (hf : m.now.function? key = some f) (hno : Stmt.hasReturns f.definition.body = false) {n : Nat}
    (hn : f.returns? = some n) :
    n = 0 ∨ ∃ m₁ ∈ m :: past, m₁.Writes key ∧ ∃ nested, .call key n nested ∈ m₁.now.events := by
  generalize hmoments : m :: past = moments at h
  induction h generalizing m past f with
  | start =>
      cases hmoments
      rw [function?_eq_some] at hf
      cases (Store.lookup?_start _ _).symm.trans hf
  | @next m₁ m' past' hcourse hs ih =>
      cases hmoments
      have hearlier {g : FunctionSymbol} (hg : m₁.now.symbol? key = some (.function g))
          (hno : Stmt.hasReturns g.definition.body = false) (hn : g.returns? = some n) :
          n = 0 ∨ ∃ m₂ ∈ m' :: m₁ :: past',
            m₂.Writes key ∧ ∃ nested, .call key n nested ∈ m₂.now.events := by
        rcases ih (function?_eq_some.mpr hg) hno hn rfl with hzero | ⟨m₂, hm₂, hcall⟩
        · exact .inl hzero
        · exact .inr ⟨m₂, List.mem_cons_of_mem _ hm₂, hcall⟩
      obtain ⟨old?, hold, hchange⟩ := hs.change_to hr hf
      cases hchange with
      | same => exact hearlier hold hno hn
      | provided hnone ho => cases hnone
      | declared hd hk => cases hn
      | begun hp => exact hearlier hold hno hn
      | @fixed g k hopen hfix =>
          cases hn
          have hmem : m₁ ∈ m₁ :: past' := List.mem_cons_self
          rcases hfix.zero_or_call (function?_eq_some.mpr hold) hopen hno
            (hcourse.scope_eq hmem) (hcourse.tracks_agrees hr m₁ hmem).1
            (hcourse.returnsInside m₁ hmem) (hcourse.emits hr m₁ hmem) with hzero | hcall
          · exact .inl hzero
          · exact .inr ⟨m', List.mem_cons_self, hcall⟩

end emits

/-- The calls of a function without `return` take no results exactly if those do that were lowered
while the body of the function was being written. -/
theorem calls_take_nothing_iff (env : Environment) (hr : env.registry.AddsNoFunction)
    (file? : Option String) (modules : List Module) :
    Passes env (modules.flatMap Module.body) (.start file?)
      ⟨compileModules env file? modules, []⟩ ∧
    ∀ m past, Course env (modules.flatMap Module.body) (.start file?) (m :: past) →
      ∀ key f, m.now.function? key = some f → Stmt.hasReturns f.definition.body = false →
        ((∀ results nested, .call key results nested ∈ m.now.events → results = 0) ↔
          ∀ m₁ ∈ m :: past, m₁.Writes key →
            ∀ results nested, .call key results nested ∈ m₁.now.events → results = 0) := by
  refine ⟨compileModules_passes env file? modules, fun m past hcourse key f hf hno => ⟨?_, ?_⟩⟩
  · intro hzero m₁ hm₁ _ results nested hcall
    apply hzero results nested
    rcases List.mem_cons.mp hm₁ with rfl | hm₁
    · exact hcall
    · exact ((List.pairwise_cons.mp hcourse.events_suffix).1 m₁ hm₁).subset hcall
  · intro hinside results nested hcall
    have hagrees := (hcourse.tracks_agrees hr m List.mem_cons_self).2
    obtain ⟨-, hsettled⟩ := hagrees _ hcall key results rfl
    rcases hcourse.zero_or_call hr hf hno (hsettled f hf) with hzero | ⟨m₁, hm₁, hw, nested', hc⟩
    · exact hzero
    · exact hinside m₁ hm₁ hw results nested' hc

/-- A function without `return` is called with a target, inside its body and after it, and there is
no error. -/
theorem selfCalling_takes_result :
    ∃ f, (afterSelfCalling []).now.function? ⟨.root, "f"⟩ = some f ∧
      Stmt.hasReturns f.definition.body = false ∧ (afterSelfCalling []).now.diagnostics = #[] ∧
      .call ⟨.root, "f"⟩ 1 true ∈ (afterSelfCalling []).now.events ∧
      .call ⟨.root, "f"⟩ 1 false ∈ (afterSelfCalling []).now.events :=
  ⟨_, rfl, rfl, rfl, List.mem_cons_of_mem _ List.mem_cons_self, List.mem_cons_self⟩

theorem calls_take_nothing_iff_selfCalling :
    Environment.bare.registry.AddsNoFunction ∧ ∃ past,
      Course .bare ([selfCalling []].flatMap Module.body) (.start none)
        (afterSelfCalling [] :: past) ∧
      ¬ ∀ m ∈ afterSelfCalling [] :: past, m.Writes ⟨.root, "f"⟩ →
        ∀ results nested, .call ⟨.root, "f"⟩ results nested ∈ m.now.events → results = 0 := by
  have hr : Environment.bare.registry.AddsNoFunction := Registry.onlyBundled_empty.addsNoFunction
  obtain ⟨past, hcourse⟩ := passes_afterSelfCalling []
  have hiff := (calls_take_nothing_iff .bare hr none _).2 _ past hcourse ⟨.root, "f"⟩ _ rfl rfl
  refine ⟨hr, past, hcourse, fun hinside => ?_⟩
  have hzero := hiff.mpr hinside 1 false List.mem_cons_self
  omega

end P16
