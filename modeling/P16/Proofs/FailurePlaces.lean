import Mathlib.Logic.Relation
import P16.Lowering.Stmt

/-!
# Where statements fail

A failure is at the place of something in the statement that fails: at the statement itself, at an
expression however deep in it, at an argument, at a name. It is never at the place of a statement in
its body, and never at a place elsewhere, whatever has been lowered on the way.
-/

namespace P16

/-- Something in a tree that has a place. -/
inductive Node where
  | stmt (s : Stmt)
  | expr (e : Expr)
  | keyword (k : Keyword Expr)
  | importName (name : ImportName)
  | ident (name : Ident)

namespace Node

def span : Node → Span
  | stmt s => s.span
  | expr e => e.span
  | keyword k => k.span
  | importName name => name.span
  | ident name => name.span

def ofExpr : Expr → List Node
  | .name name => [ident name]
  | .member value attr _ => [expr value, ident attr]
  | .number .. | .text .. => []
  | .tuple items _ | .list items _ => items.map expr
  | .dict entries _ => (entries.flatMap fun entry => [entry.1, entry.2]).map expr
  | .call callee args keywords _ => expr callee :: args.map expr ++ keywords.map keyword
  | .binary _ left right _ => [expr left, expr right]
  | .unary _ operand _ => [expr operand]
  | .compare left links _ => expr left :: (links.map Prod.snd).map expr
  | .subscript value index _ => [expr value, expr index]

def ofStmt : Stmt → List Node
  | .importNames names _ => names.map importName
  | .assign targets value _ => expr value :: targets.map expr
  | .augAssign target _ value _ => [expr target, expr value]
  | .expr e _ => [expr e]
  | .define name params decorators _ _ => ident name :: params.map ident ++ decorators.map expr
  | .giveBack value? _ => value?.toList.map expr
  | .whileLoop test _ _ => [expr test]
  | .breakLoop _ | .continueLoop _ | .pass _ | .unsupported .. => []

/-- What a node consists of, without the statements in the body of a statement. -/
def parts : Node → List Node
  | stmt s => ofStmt s
  | expr e => ofExpr e
  | keyword k => [ident k.name, expr k.value]
  | importName name => name.path.segments.map ident ++ name.newName?.toList.map ident
  | ident _ => []

/-- The second node is the first one or stands in it, at any depth. -/
def Contains : Node → Node → Prop := Relation.ReflTransGen fun node part => part ∈ node.parts

/-- The place of something in the node. -/
def Covers (node : Node) (span : Span) : Prop := ∃ part, node.Contains part ∧ part.span = span

theorem Covers.self {node : Node} : node.Covers node.span := ⟨node, .refl, rfl⟩

theorem Covers.of_part {node part : Node} {span : Span} (hp : part ∈ node.parts)
    (h : part.Covers span) : node.Covers span := by
  obtain ⟨inner, hinner, hspan⟩ := h
  exact ⟨inner, .head hp hinner, hspan⟩

end Node

open Node

/-- A place in one of the expressions. -/
def CoversAny (es : List Expr) (span : Span) : Prop := ∃ e ∈ es, (expr e).Covers span

theorem CoversAny.of_head {e : Expr} {rest : List Expr} {span : Span} (h : (expr e).Covers span) :
    CoversAny (e :: rest) span :=
  ⟨e, List.mem_cons_self, h⟩

theorem CoversAny.of_tail {e : Expr} {rest : List Expr} {span : Span} (h : CoversAny rest span) :
    CoversAny (e :: rest) span := by
  obtain ⟨inner, hmem, hcovers⟩ := h
  exact ⟨inner, List.mem_cons_of_mem e hmem, hcovers⟩

theorem CoversAny.covers {es : List Expr} {node : Node} {span : Span} (h : CoversAny es span)
    (hn : ∀ e ∈ es, expr e ∈ node.parts) : node.Covers span := by
  obtain ⟨e, hmem, hcovers⟩ := h
  exact .of_part (hn e hmem) hcovers

/-- If the result is a failure, it is at one of the places. -/
def FailsAt {α : Type} (result : Except Failure α) (places : Span → Prop) : Prop :=
  ∀ failure, result = .error failure → places failure.span

namespace FailsAt

variable {α β : Type} {places places' : Span → Prop}

theorem ok (a : α) : FailsAt (.ok a) places := nofun

theorem error {failure : Failure} (h : places failure.span) :
    FailsAt (.error failure : Except Failure α) places := by
  rintro _ ⟨⟩
  exact h

theorem bind {result : Except Failure β} {f : β → Except Failure α} (h : FailsAt result places)
    (hf : ∀ b, FailsAt (f b) places) : FailsAt (result >>= f) places := by
  cases result with
  | ok b => exact hf b
  | error failure => exact .error (h failure rfl)

theorem mono {result : Except Failure α} (h : FailsAt result places)
    (hp : ∀ span, places span → places' span) : FailsAt result places' :=
  fun failure he => hp _ (h failure he)

theorem mapM {f : Expr → Except Failure α} (hf : ∀ e, FailsAt (f e) (expr e).Covers)
    (es : List Expr) : FailsAt (es.mapM f) (CoversAny es) := by
  induction es with
  | nil => exact .ok []
  | cons e rest ih =>
      rw [List.mapM_cons]
      refine .bind ((hf e).mono fun _ => .of_head) fun first => ?_
      exact .bind (ih.mono fun _ => .of_tail) fun others => .ok (first :: others)

end FailsAt

section expressions

theorem splitMember_failsAt (e : Expr) : FailsAt (splitMember e) (expr e).Covers := by
  unfold splitMember
  split
  · exact .error .self
  · exact .ok _

theorem literalOperand_failsAt (n : Int) (e : Expr) :
    FailsAt (literalOperand n e) (expr e).Covers := by
  unfold literalOperand
  split
  · exact .ok _
  · exact .error .self

theorem constantOperand_failsAt (value : Value) (e : Expr) :
    FailsAt (constantOperand value e) (expr e).Covers := by
  unfold constantOperand
  split
  · exact .ok _
  · exact .error .self

namespace Compilation

variable (c : Compilation)

theorem target_failsAt (e : Expr) : FailsAt (c.target e) (expr e).Covers := by
  unfold target
  split
  · rename_i ident
    split
    · exact .ok _
    · exact .error .self
  · exact .error .self

theorem namedConstant_failsAt (ident : Ident) :
    FailsAt (c.namedConstant ident) (expr (.name ident)).Covers := by
  unfold namedConstant
  split
  · exact .ok _
  · exact .error .self

theorem qualifiedConstant_failsAt (e : Expr) :
    FailsAt (c.qualifiedConstant e) (expr e).Covers := by
  unfold qualifiedConstant
  apply (splitMember_failsAt e).bind
  rintro ⟨path, name⟩
  dsimp only
  split
  · exact .ok _
  · exact .error .self

theorem operand_failsAt (e : Expr) : FailsAt (c.operand e) (expr e).Covers := by
  unfold operand
  split
  · exact literalOperand_failsAt _ _
  · split
    · exact literalOperand_failsAt _ _
    · exact .error (.of_part (List.mem_singleton_self _) .self)
  · split
    · exact .ok _
    · exact (c.namedConstant_failsAt _).bind fun value => constantOperand_failsAt value _
  · exact (c.qualifiedConstant_failsAt _).bind fun value => constantOperand_failsAt value _
  · exact .error .self

mutual

theorem value_failsAt : ∀ e, FailsAt (c.value e) (expr e).Covers
  | .number n span => by
      rw [value]
      exact .ok _
  | .text text span => by
      rw [value]
      exact .ok _
  | .unary op inner span => by
      cases op with
      | neg =>
          unfold value
          split
          · exact .ok _
          · exact .error (.of_part (List.mem_singleton_self _) .self)
      | _ =>
          simp only [value]
          exact .error .self
  | .tuple items span => by
      rw [value]
      refine .bind ((values_failsAt items).mono fun _ h => h.covers fun e he => ?_) fun _ => .ok _
      exact List.mem_map_of_mem he
  | .list items span => by
      rw [value]
      refine .bind ((values_failsAt items).mono fun _ h => h.covers fun e he => ?_) fun _ => .ok _
      exact List.mem_map_of_mem he
  | .dict entries span => by
      rw [value]
      refine .bind ((entryValues_failsAt entries).mono fun _ h => h.covers fun e he => ?_)
        fun _ => .ok _
      exact List.mem_map_of_mem he
  | .name name => by
      rw [value]
      split
      · exact .ok _
      · exact c.namedConstant_failsAt name
  | .member inner attr span => by
      rw [value]
      exact c.qualifiedConstant_failsAt _
  | .call .. | .binary .. | .compare .. | .subscript .. => by
      simp only [value]
      exact .error .self

theorem values_failsAt : ∀ es, FailsAt (c.values es) (CoversAny es)
  | [] => by
      rw [values]
      exact .ok _
  | e :: rest => by
      rw [values]
      refine .bind ((value_failsAt e).mono fun _ => .of_head) fun first => ?_
      exact .bind ((values_failsAt rest).mono fun _ => .of_tail) fun others => .ok _

theorem entryValues_failsAt : ∀ entries,
    FailsAt (c.entryValues entries) (CoversAny (entries.flatMap fun entry => [entry.1, entry.2]))
  | [] => by
      rw [entryValues]
      exact .ok _
  | (key, item) :: rest => by
      rw [entryValues]
      refine .bind ((value_failsAt key).mono fun _ => .of_head) fun k => ?_
      refine .bind ((value_failsAt item).mono fun _ h => .of_tail (.of_head h)) fun v => ?_
      exact .bind ((entryValues_failsAt rest).mono fun _ h => .of_tail (.of_tail h))
        fun others => .ok _

end

theorem keywordValues_failsAt (table : Table String Value) (keywords : List (Keyword Expr)) :
    FailsAt (c.keywordValues table keywords) (CoversAny (keywords.map Keyword.value)) := by
  induction keywords generalizing table with
  | nil => exact .ok _
  | cons k rest ih =>
      refine .bind ((c.value_failsAt k.value).mono fun _ => .of_head) fun v => ?_
      exact (ih _).mono fun _ => .of_tail

theorem address_failsAt (e : Expr) : FailsAt (c.address e) (expr e).Covers := by
  unfold address
  split
  · rename_i op left right span
    have hleft : expr left ∈ (expr (.binary op left right span)).parts := List.mem_cons_self
    have hright : expr right ∈ (expr (.binary op left right span)).parts :=
      List.mem_cons_of_mem _ List.mem_cons_self
    split
    · refine .bind ((c.operand_failsAt left).mono fun _ => .of_part hleft) fun l => ?_
      refine .bind ((c.operand_failsAt right).mono fun _ => .of_part hright) fun r => ?_
      unfold addressSum
      split
      · exact .error .self
      · dsimp only
        split
        · exact .ok _
        · exact .error .self
      · exact .ok _
      · exact .ok _
    · exact .error .self
  · exact (c.operand_failsAt _).bind fun a => .ok _

theorem callee_failsAt (e : Expr) : FailsAt (c.callee e) (expr e).Covers := by
  unfold callee
  split
  · exact .ok _
  · exact (splitMember_failsAt _).bind fun member => .ok _
  · exact .error .self

theorem loopTest_failsAt (e : Expr) : FailsAt (c.loopTest e) (expr e).Covers := by
  unfold loopTest
  split
  · rename_i left op right span
    have hleft : expr left ∈ (expr (.compare left [(op, right)] span)).parts := List.mem_cons_self
    have hright : expr right ∈ (expr (.compare left [(op, right)] span)).parts :=
      List.mem_cons_of_mem _ List.mem_cons_self
    refine .bind ((c.operand_failsAt left).mono fun _ => .of_part hleft) fun l => ?_
    refine .bind ((c.operand_failsAt right).mono fun _ => .of_part hright) fun r => ?_
    split
    · exact .ok _
    · exact .error .self
  · exact .error .self
  · exact .error .self

end Compilation

theorem builtinCallee_failsAt (e : Expr) : FailsAt (LowerM.builtinCallee e) (expr e).Covers := by
  unfold LowerM.builtinCallee
  split
  · split
    · split
      · exact .ok _
      · exact .error .self
    · exact .ok _
  · exact .ok _

theorem enumerated_failsAt (es : List Expr) : FailsAt (LowerM.enumerated es) (CoversAny es) := by
  fun_induction LowerM.enumerated es with
  | case1 => exact .ok _
  | case2 name rest ih => exact .bind (ih.mono fun _ => .of_tail) fun names => .ok _
  | case3 e rest _ => exact .error (.of_head .self)

theorem isExported_failsAt (decorators : List Expr) :
    FailsAt (isExported decorators) (CoversAny decorators) := by
  unfold isExported
  split
  · exact .ok _
  · split
    · split
      · exact .ok _
      · exact .error (.of_head .self)
    · exact .error (.of_head .self)
  · exact .error (.of_tail (.of_head .self))

theorem mem_of_firstRepeated? {seen : List String} {idents : List Ident} {repeated : Ident}
    (h : firstRepeated? seen idents = some repeated) : repeated ∈ idents := by
  induction idents generalizing seen with
  | nil => cases h
  | cons name rest ih =>
      unfold firstRepeated? at h
      split at h
      · cases h
        exact List.mem_cons_self
      · exact List.mem_cons_of_mem _ (ih h)

end expressions

def CallSite.node (site : CallSite) : Node :=
  expr (.call site.callee site.args site.keywords site.span)

namespace CallSite

variable {site : CallSite} {span : Span}

theorem covers_callee (h : (expr site.callee).Covers span) : site.node.Covers span :=
  .of_part List.mem_cons_self h

theorem covers_args (h : CoversAny site.args span) : site.node.Covers span :=
  h.covers fun _ he =>
    List.mem_cons_of_mem _ (List.mem_append_left _ (List.mem_map_of_mem he))

theorem covers_keyword {k : Keyword Expr} (hk : k ∈ site.keywords)
    (h : (keyword k).Covers span) : site.node.Covers span :=
  .of_part (List.mem_cons_of_mem _ (List.mem_append_right _ (List.mem_map_of_mem hk))) h

theorem covers_first_keyword {k : Keyword Expr} {rest : List (Keyword Expr)}
    (h : site.keywords = k :: rest) : site.node.Covers k.span := by
  have hk : k ∈ site.keywords := h ▸ List.mem_cons_self
  exact covers_keyword hk .self

theorem covers_keywords (h : CoversAny (site.keywords.map Keyword.value) span) :
    site.node.Covers span := by
  obtain ⟨e, he, hcovers⟩ := h
  obtain ⟨k, hk, rfl⟩ := List.mem_map.mp he
  exact covers_keyword hk (.of_part (List.mem_cons_of_mem _ List.mem_cons_self) hcovers)

end CallSite

def FunctionDef.node (d : FunctionDef) : Node :=
  stmt (.define d.name d.params d.decorators d.body d.span)

namespace LowerM

/-- In whatever state the action is run, it fails only at one of the places. -/
def FailsAt {α : Type} (act : LowerM α) (places : Span → Prop) : Prop :=
  ∀ c failure c', act c = .error failure c' → places failure.span

section rules

variable {α β : Type} {places places' : Span → Prop}

theorem FailsAt.pure (a : α) : (pure a : LowerM α).FailsAt places := by
  rintro _ _ _ ⟨⟩

theorem FailsAt.update (f : Compilation → Compilation) :
    (modify f : LowerM PUnit).FailsAt places := by
  rintro _ _ _ ⟨⟩

theorem FailsAt.failed {cause : Cause} {span : Span} (h : places span) :
    (fail cause span : LowerM α).FailsAt places := by
  rintro _ _ _ ⟨⟩
  exact h

theorem FailsAt.failed_bind {cause : Cause} {span : Span} {g : β → LowerM α} (h : places span) :
    ((fail cause span : LowerM β) >>= g).FailsAt places := by
  rintro _ _ _ ⟨⟩
  exact h

theorem FailsAt.bind {act : LowerM β} {f : β → LowerM α} (h : act.FailsAt places)
    (hf : ∀ b, (f b).FailsAt places) : (act >>= f).FailsAt places := by
  intro c failure c' he
  simp only [Bind.bind, EStateM.bind] at he
  cases hact : act c with
  | ok b c₁ =>
      rw [hact] at he
      exact hf b c₁ failure c' he
  | error failure₁ c₁ =>
      rw [hact] at he
      cases he
      exact h c _ _ hact

theorem FailsAt.ask_bind {f : Compilation → Except Failure β} {g : β → LowerM α}
    (h : ∀ c, P16.FailsAt (f c) places) (hg : ∀ b, (g b).FailsAt places) :
    (ask f >>= g).FailsAt places := by
  refine .bind (fun c failure c' he => ?_) hg
  unfold ask at he
  cases hf : f c with
  | ok b =>
      rw [hf] at he
      cases he
  | error failure₁ =>
      rw [hf] at he
      cases he
      exact h c _ hf

theorem FailsAt.get_bind {g : Compilation → LowerM α} (h : ∀ c, (g c).FailsAt places) :
    ((get : LowerM Compilation) >>= g).FailsAt places :=
  fun c => h c c

theorem FailsAt.mono {act : LowerM α} (h : act.FailsAt places)
    (hp : ∀ span, places span → places' span) : act.FailsAt places' :=
  fun c failure c' he => hp _ (h c failure c' he)

theorem FailsAt.at_self {act : LowerM α} {node : Node} (h : act.FailsAt (· = node.span)) :
    act.FailsAt node.Covers :=
  h.mono fun _ hspan => hspan ▸ .self

end rules

section calls

theorem loopJump_failsAt (jump : LoopJump) (span : Span) :
    (loopJump jump span).FailsAt (· = span) := by
  unfold loopJump
  refine .get_bind fun c => ?_
  split
  · exact .failed rfl
  · cases jump <;> exact .update _

theorem settleReturns_failsAt (key : FunctionKey) (count : Nat) (shown : String) (span : Span) :
    (settleReturns key count shown span).FailsAt (· = span) := by
  unfold settleReturns
  refine .get_bind fun c => ?_
  split
  · exact .pure _
  · exact .update _
  · split
    · exact .failed rfl
    · exact .pure _

theorem runHook_failsAt (path : ModulePath) (act : HookM Unit) {places : Span → Prop} :
    (runHook path act).FailsAt places := by
  intro c failure c' he
  unfold runHook at he
  dsimp only at he
  split at he <;> cases he

theorem noTargets_failsAt (name : String) (targets : List Expr) :
    (noTargets name targets).FailsAt (CoversAny targets) := by
  unfold noTargets
  split
  · exact .pure _
  · exact .failed (.of_head .self)

variable (site : CallSite)

theorem memset_failsAt : (memset site).FailsAt (CoversAny site.args) := by
  unfold memset
  split
  · rename_i location value hargs
    rw [hargs]
    refine .ask_bind (fun c => (c.address_failsAt location).mono fun _ => .of_head) fun target => ?_
    exact .ask_bind (fun c => (c.operand_failsAt value).mono fun _ h => .of_tail (.of_head h))
      fun source => .update _
  · exact .pure _

theorem runBuiltin_failsAt (b : Builtin) : (runBuiltin b site).FailsAt site.node.Covers := by
  cases b with
  | halt => exact .update _
  | continueLoop => exact .at_self (loopJump_failsAt .continueLoop site.span)
  | breakLoop => exact .at_self (loopJump_failsAt .breakLoop site.span)
  | memset => exact (memset_failsAt site).mono fun _ => CallSite.covers_args
  | defineEnumerate =>
      exact .ask_bind (fun _ => (enumerated_failsAt site.args).mono fun _ => CallSite.covers_args)
        fun names => .update _

theorem builtin_failsAt (b : Builtin) : (builtin b site).FailsAt site.node.Covers := by
  unfold builtin
  dsimp only
  split
  · rename_i hkeywords
    exact .failed_bind (CallSite.covers_first_keyword hkeywords)
  split
  · split
    · exact .failed_bind .self
    · exact runBuiltin_failsAt site b
  · exact runBuiltin_failsAt site b

theorem callHook_failsAt (env : Environment) (key : FunctionKey) (shown : String) (ref : HookRef) :
    (callHook env key shown ref site).FailsAt site.node.Covers := by
  unfold callHook
  refine .ask_bind (fun c => (c.values_failsAt site.args).mono fun _ => CallSite.covers_args)
    fun positional => ?_
  refine .ask_bind (fun c => (c.keywordValues_failsAt .empty site.keywords).mono
    fun _ => CallSite.covers_keywords) fun keywords => ?_
  split
  · exact .failed (CallSite.covers_callee .self)
  · refine .bind (runHook_failsAt key.path _) fun result => ?_
    cases result with
    | ok _ => exact .pure _
    | error message => exact .failed .self

/-- The places of a call and of the targets of its results. -/
def CallCovers (targets : List Expr) (span : Span) : Prop :=
  site.node.Covers span ∨ CoversAny targets span

variable (enter : Enter) (targets : List Expr)

theorem callFunction_failsAt (key : FunctionKey) (shown : String) (f : FunctionSymbol) :
    (callFunction enter key shown f site targets).FailsAt (CallCovers site targets) := by
  unfold callFunction
  dsimp only
  split
  · rename_i hkeywords
    exact .failed_bind (.inl (CallSite.covers_first_keyword hkeywords))
  split
  · exact .failed_bind (.inl .self)
  refine .ask_bind (fun c => (FailsAt.mapM c.operand_failsAt site.args).mono
    fun _ h => .inl (CallSite.covers_args h)) fun arguments => ?_
  refine .ask_bind (fun c => (FailsAt.mapM c.target_failsAt targets).mono fun _ h => .inr h)
    fun results => ?_
  refine .bind (.update _) fun _ => ?_
  have hsettle : (settleReturns key results.length shown site.span).FailsAt site.node.Covers :=
    .at_self (settleReturns_failsAt key _ shown site.span)
  exact .bind (hsettle.mono fun _ => .inl) fun _ => .get_bind fun c => .update _

theorem call_failsAt (env : Environment) :
    (call env enter site targets).FailsAt (CallCovers site targets) := by
  unfold call
  refine .ask_bind (fun _ => (builtinCallee_failsAt site.callee).mono
    fun _ h => .inl (CallSite.covers_callee h)) fun callee => ?_
  cases callee with
  | some b =>
      refine .bind ((noTargets_failsAt b.name targets).mono fun _ => .inr) fun _ => ?_
      exact (builtin_failsAt site b).mono fun _ => .inl
  | none =>
      refine .ask_bind (fun c => (c.callee_failsAt site.callee).mono
        fun _ h => .inl (CallSite.covers_callee h)) fun key => .get_bind fun c => ?_
      dsimp only
      split
      · refine .bind ((noTargets_failsAt _ targets).mono fun _ => .inr) fun _ => ?_
        exact (callHook_failsAt site env key _ _).mono fun _ => .inl
      · exact callFunction_failsAt site enter targets key _ _
      · exact .failed (.inl (CallSite.covers_callee .self))
      · exact .failed (.inl (CallSite.covers_callee .self))

end calls

section statements

variable (env : Environment) (enter : Enter)

theorem covers_callTargets {target : Expr} {span : Span} (h : CoversAny (callTargets target) span) :
    (expr target).Covers span := by
  unfold callTargets at h
  split at h
  · exact h.covers fun e he => List.mem_map_of_mem he
  · exact h.covers fun e he => List.mem_map_of_mem he
  · obtain ⟨e, he, hcovers⟩ := h
    cases List.mem_singleton.mp he
    exact hcovers

theorem covers_returned {value? : Option Expr} {span place : Span}
    (h : CoversAny (returned value?) place) : (Node.stmt (.giveBack value? span)).Covers place := by
  unfold returned at h
  split at h
  · obtain ⟨e, he, -⟩ := h
    cases he
  · exact .of_part (List.mem_singleton_self _) (h.covers fun e he => List.mem_map_of_mem he)
  · obtain ⟨e, he, hcovers⟩ := h
    cases List.mem_singleton.mp he
    exact .of_part (List.mem_singleton_self _) hcovers

theorem assignOperand_failsAt (target value : Expr) :
    (assignOperand target value).FailsAt (CoversAny [value, target]) := by
  unfold assignOperand
  split
  · exact .failed (.of_tail (.of_head .self))
  · exact .failed (.of_tail (.of_head .self))
  · refine .ask_bind (fun c => (c.target_failsAt _).mono fun _ h => .of_tail (.of_head h))
      fun register => ?_
    exact .ask_bind (fun c => (c.operand_failsAt value).mono fun _ => .of_head)
      fun operand => .update _

theorem assign_failsAt (targets : List Expr) (value : Expr) (span : Span) :
    (assign env enter targets value span).FailsAt
      (Node.stmt (.assign targets value span)).Covers := by
  unfold assign
  split
  · rename_i target
    have htarget : expr target ∈ (Node.stmt (.assign [target] value span)).parts :=
      List.mem_cons_of_mem _ List.mem_cons_self
    split
    · refine (call_failsAt _ enter _ env).mono ?_
      rintro place (hcall | htargets)
      · exact .of_part List.mem_cons_self hcall
      · exact .of_part htarget (covers_callTargets htargets)
    · refine (assignOperand_failsAt target value).mono fun _ h => h.covers fun e he => ?_
      exact List.mem_map_of_mem he
  · exact .failed .self

theorem augAssign_failsAt (target : Expr) (op : BinaryOp) (value : Expr) (span : Span) :
    (augAssign target op value span).FailsAt
      (Node.stmt (.augAssign target op value span)).Covers := by
  unfold augAssign
  split
  · exact .failed .self
  · refine .ask_bind (fun c => (c.target_failsAt target).mono fun _ =>
      .of_part List.mem_cons_self) fun register => ?_
    exact .ask_bind (fun c => (c.operand_failsAt value).mono fun _ =>
      .of_part (List.mem_cons_of_mem _ List.mem_cons_self)) fun operand => .update _

theorem exprStmt_failsAt (e : Expr) : (exprStmt env enter e).FailsAt (expr e).Covers := by
  unfold exprStmt
  split
  · refine (call_failsAt _ enter [] env).mono ?_
    rintro place (hcall | ⟨_, he, -⟩)
    · exact hcall
    · cases he
  · exact .pure _
  · exact .failed .self

theorem giveBack_failsAt (value? : Option Expr) (span : Span) :
    (giveBack value? span).FailsAt (Node.stmt (.giveBack value? span)).Covers := by
  unfold giveBack
  refine .get_bind fun c => ?_
  split
  · exact .failed .self
  · refine .ask_bind (fun c => (P16.FailsAt.mapM c.operand_failsAt _).mono
      fun _ => covers_returned) fun operands => ?_
    exact .bind (.at_self (settleReturns_failsAt _ _ _ span)) fun _ => .update _

theorem checkDefinition_failsAt (d : FunctionDef) :
    (checkDefinition d).FailsAt d.node.Covers := by
  have hname : d.node.Covers d.name.span := .of_part List.mem_cons_self .self
  unfold checkDefinition
  refine .get_bind fun c => ?_
  dsimp only
  split
  · exact .failed_bind hname
  split
  · exact .failed_bind hname
  split
  · exact .failed_bind hname
  split
  · rename_i repeated hrepeated
    have hmem : ident repeated ∈ d.node.parts :=
      List.mem_cons_of_mem _
        (List.mem_append_left _ (List.mem_map_of_mem (mem_of_firstRepeated? hrepeated)))
    exact .failed_bind (.of_part hmem .self)
  split
  · exact .failed hname
  · exact .pure _

theorem define_failsAt (d : FunctionDef) : (define enter d).FailsAt d.node.Covers := by
  unfold define
  refine .bind (checkDefinition_failsAt d) fun _ => ?_
  refine .ask_bind (fun _ => (isExported_failsAt d.decorators).mono fun _ h => h.covers
    fun e he => ?_) fun exported => ?_
  · exact List.mem_cons_of_mem _ (List.mem_append_right _ (List.mem_map_of_mem he))
  · refine .get_bind fun c => .bind (.update _) fun _ => ?_
    split
    · exact .update _
    · exact .pure _

theorem stmt_failsAt (s : Stmt) : (stmt env enter s).FailsAt (Node.stmt s).Covers := by
  cases s with
  | importNames names span =>
      rw [stmt]
      exact .update _
  | assign targets value span =>
      rw [stmt]
      exact assign_failsAt env enter targets value span
  | augAssign target op value span =>
      rw [stmt]
      exact augAssign_failsAt target op value span
  | expr e span =>
      rw [stmt]
      exact (exprStmt_failsAt env enter e).mono fun _ => .of_part (List.mem_singleton_self _)
  | define name params decorators body span =>
      rw [stmt]
      exact define_failsAt enter ⟨name, params, decorators, body, span⟩
  | giveBack value? span =>
      rw [stmt]
      exact giveBack_failsAt value? span
  | whileLoop test body span =>
      rw [stmt]
      exact .ask_bind (fun c => (c.loopTest_failsAt test).mono fun _ =>
        .of_part (List.mem_singleton_self _)) fun loopTest => .update _
  | breakLoop span =>
      rw [stmt]
      exact .at_self (loopJump_failsAt .breakLoop span)
  | continueLoop span =>
      rw [stmt]
      exact .at_self (loopJump_failsAt .continueLoop span)
  | pass span =>
      rw [stmt]
      exact .pure _
  | unsupported form span =>
      rw [stmt]
      exact .failed .self

end statements

section imports

variable (env : Environment) (enter : Enter)

theorem installExtension_failsAt (path : ModulePath) (dotted : String) (e : Extension)
    (span : Span) : (installExtension path dotted e span).FailsAt (· = span) := by
  unfold installExtension
  refine .bind (.update _) fun _ => .bind (runHook_failsAt path _) fun result => ?_
  cases result with
  | ok _ => exact .pure _
  | error message => exact .failed rfl

theorem lowerFile_failsAt (path : ModulePath) (dotted file : String)
    (loaded : Except LoadFault Module) (span : Span) :
    (lowerFile enter path dotted file loaded span).FailsAt (· = span) := by
  unfold lowerFile
  split
  · exact .failed rfl
  · exact .update _

theorem importFresh_failsAt (dotted : String) (span : Span) :
    (importFresh env enter dotted span).FailsAt (· = span) := by
  unfold importFresh
  dsimp only
  split
  · exact .failed_bind rfl
  refine .bind (.update _) fun _ => .get_bind fun before => ?_
  have hlast : (do if before.errorCount < (← get).errorCount then fail (.importFailed dotted) span :
      LowerM Unit).FailsAt (· = span) := by
    refine .get_bind fun c => ?_
    split
    · exact .failed rfl
    · exact .pure _
  split
  · refine .bind (installExtension_failsAt _ dotted _ span) fun _ => ?_
    split
    · exact .bind (lowerFile_failsAt enter _ dotted _ _ span) fun _ => hlast
    · exact hlast
  · split
    · exact .bind (lowerFile_failsAt enter _ dotted _ _ span) fun _ => hlast
    · exact hlast

theorem importName_failsAt (name : ImportName) :
    (importName env enter name).FailsAt (· = name.span) := by
  unfold importName
  dsimp only
  split
  · exact .failed_bind rfl
  refine .get_bind fun c => ?_
  split
  · exact .pure _
  · exact importFresh_failsAt env enter name.path.text name.span

end imports

end LowerM

end P16
