import ScopeScript.Proofs.Law

/-!
# How constructs are put together

Every construct is put together in the same few ways: a sub-expression is evaluated, one action
follows another, a name is declared for an action, a round of a loop comes before the next ones.
Everything else that a construct does it does by itself, evaluating nothing, or it is a call.
`Eval.Built u x` says that the action `x`, which is told how to evaluate sub-expressions, is put
together in these ways; `u` says which expressions it evaluates, and what else it makes use of
(`Eval.Means`).

Constructs are built, and of the means of their expressions only (`Eval.Built.node`). So what holds
of the actions that evaluate nothing, and of an action that is put together of others if it holds of
these, holds of all constructs, by induction on `Eval.Built`.
-/

namespace ScopeScript

open Eval

/-! ### Means -/

/-- What an action may make use of. -/
structure Eval.Means where
  /-- Expressions that are evaluated, bodies of loops and of functions aside. -/
  operand : Expr → Prop
  /-- Expressions that are evaluated round by round. -/
  loopBody : Expr → Prop
  /-- Stops that leave a loop or go on with its next round. -/
  jump : Stop → Prop
  declares : Prop
  prints : Prop
  calls : Prop

/-- Everything but declarations, output and calls. -/
def Eval.Means.plain : Means :=
  ⟨fun _ => True, fun _ => True, fun _ => True, False, False, False⟩

/-- Everything there is. -/
def Eval.Means.full : Means :=
  ⟨fun _ => True, fun _ => True, fun _ => True, True, True, True⟩

/-- Whether the stop leaves a loop or goes on with its next round. -/
def Stop.leavesLoop : Stop → Bool
  | .brk | .nxt => true
  | .quit | .error _ | .unfinished => false

theorem Limits.leavesLoop_exhausted (lim : Limits) (e : Expr) :
    (lim.exhausted e).leavesLoop = false := by
  unfold exhausted
  cases lim.maxIterations <;> rfl

namespace Expr

/-- The parts of an expression, but for the body of a loop. -/
def operands : Expr → List Expr
  | .whileDo _ cond _ => [cond]
  | .forIn _ _ items _ => [items]
  | e => e.parts

/-- The body of a loop. -/
def loopBody? : Expr → Option Expr
  | .whileDo _ _ body | .forIn _ _ _ body => some body
  | _ => none

/-- The stop of an expression that leaves a loop, or goes on with its next round. -/
def jump? : Expr → Option Stop
  | .brk _ => some .brk
  | .nxt _ => some .nxt
  | _ => none

/-- Whether an expression declares a name before it has a value for it. -/
def declares : Expr → Bool
  | .assign _ _ _ | .assignAt _ _ _ _ | .forIn _ _ _ _ => true
  | _ => false

/-- Whether an expression is an operation that prints a line. -/
def isOutput : Expr → Bool
  | .print _ _ | .cat _ _ | .assignAt _ _ _ _ => true
  | _ => false

/-- Whether an expression is a call. -/
def isCall : Expr → Bool
  | .call _ _ _ => true
  | _ => false

/-- What the evaluation of an expression may make use of. -/
def means (e : Expr) : Means where
  operand a := a ∈ e.operands
  loopBody a := e.loopBody? = some a
  jump stop := e.jump? = some stop
  declares := e.declares
  prints := e.isOutput
  calls := e.isCall

end Expr

/-! ### Built actions -/

/-- The action is put together of evaluations and of actions that evaluate nothing. -/
inductive Eval.Built (u : Means) : {α : Type} → (Recur → Eval α) → Prop where
  | pure {α : Type} (a : α) : Built u fun _ => Pure.pure a
  | stop {α : Type} {stop : Stop} (h : stop.leavesLoop = true → u.jump stop) :
      Built u (fun _ m => .error stop m : Recur → Eval α)
  -- ways to put actions together
  | ask {a : Expr} (h : u.operand a) : Built u fun recur => recur a
  | bind {α β : Type} {y : Recur → Eval α} {f : Recur → α → Eval β} (hy : Built u y)
      (hf : ∀ a, Built u (f · a)) : Built u fun recur => y recur >>= f recur
  | get_bind {α : Type} {f : Recur → Machine → Eval α} (hf : ∀ m, Built u (f · m)) :
      Built u fun recur => get >>= f recur
  | declaring (hdeclares : u.declares) (name : String) {action : Recur → Eval Value}
      (h : Built u action) :
      Built u fun recur => declaring name (action recur)
  | round {body : Expr} (hbody : u.loopBody body) (result : Value)
      {next : Recur → Value → Eval Value} (hnext : ∀ v, Built u (next · v)) :
        Built u fun recur => round (recur body) result (next recur)
  -- actions that evaluate nothing
  | rebind (e : Expr) (name : String) (v : Value) : Built u fun _ => rebind e name v
  | declareLoopVar (hdeclares : u.declares) (e : Expr) (name : String) :
      Built u fun _ => declareLoopVar e name
  | printValue (hprints : u.prints) (v : Value) : Built u fun _ => printValue v
  | store (hprints : u.prints) (e : Expr) (id : ListId) (index v : Value) :
      Built u fun _ => store e id index v
  | evalFunction (e : Expr) (params : List String) (body : Expr) :
      Built u fun _ => evalFunction e params body
  | evalList (items : List Literal) : Built u fun _ => evalList items
  | evalRead : Built u fun _ => evalRead
  -- calls
  | apply (hcalls : u.calls) (e : Expr) (name : String) (id : FunctionId) (f : Function)
      (args : List Int64) :
      Built u fun recur => apply recur e name id f args

/-- A loop over values with a round left makes it. -/
theorem Eval.forRounds_cons {left : Option Nat} (h : left ≠ some 0) (lim : Limits) (recur : Recur)
    (e : Expr) (name : String) (body : Expr) (v : Value) (vs : List Value) (result : Value) :
    forRounds lim recur e name body (v :: vs) left result = (do
      rebind e name v
      round (recur body) result
        (forRounds lim recur e name body vs (left.map (· - 1))) : Eval Value) := by
  match left with
  | none => rfl
  | some 0 => exact absurd rfl h
  | some (_ + 1) => rfl

/-- What a call does once its arguments are evaluated. -/
def Eval.callWith (recur : Recur) (e : Expr) (name : String) (ns : List Int64) : Eval Value := do
  let m ← get
  match m.scopes.lookup? name with
  | none => fail e .undefinedIdent
  | some (.function id) =>
    match m.heap.function? id with
    | some f => apply recur e name id f ns
    | none => failAt e 1 .mustBeFunct
  | some _ => failAt e 1 .mustBeFunct

theorem Eval.evalCall_eq (recur : Recur) (e : Expr) (name : String) (args : List Expr) :
    evalCall recur e name args = evalArgs recur e args >>= callWith recur e name := rfl

namespace Eval.Built

variable {u : Means} {α : Type}

/-! ### Actions that evaluate nothing -/

theorem failWith (e : Expr) (error : SemanticError) :
    Built u (fun _ => failWith e error : Recur → Eval α) :=
  .stop nofun

theorem exhausted (lim : Limits) (e : Expr) :
    Built u (fun _ m => .error (lim.exhausted e) m : Recur → Eval α) := by
  refine .stop fun h => ?_
  rw [lim.leavesLoop_exhausted e] at h
  cases h

theorem check (e : Expr) (c : Checked α) : Built u fun _ => check e c := by
  cases c with
  | ok a => exact .pure a
  | error error => exact failWith e error

theorem rejectFunction (e : Expr) (arg : Nat) (v : Value) :
    Built u fun _ => rejectFunction e arg v := by
  cases v with
  | function => exact failWith e _
  | _ => exact .pure _

theorem evalVar (e : Expr) (name : String) : Built u fun _ => evalVar e name := by
  refine .get_bind fun m => ?_
  cases m.scopes.lookup? name with
  | none => exact failWith e _
  | some v => exact .pure v

/-! ### Names, elements and conditionals -/

theorem evalElement (e : Expr) (name : String) {index : Expr} (hindex : u.operand index) :
    Built u (evalElement · e name index) := by
  refine .bind (.ask hindex) fun i => .get_bind fun m => ?_
  cases m.scopes.lookup? name with
  | none => exact failWith e _
  | some target =>
    cases target with
    | list id =>
      cases i.toInt? with
      | none => exact failWith e _
      | some k =>
        dsimp only
        cases m.heap.item? id k with
        | none => exact failWith e _
        | some v => exact .pure v
    | _ => exact failWith e _

theorem evalCondition (e : Expr) {cond : Expr} (hcond : u.operand cond) :
    Built u (evalCondition · e cond) := by
  refine .bind (.ask hcond) fun v => ?_
  cases v.truth? with
  | none => exact failWith e _
  | some b => exact .pure b

theorem evalBranch (e : Expr) (arg : Nat) {branch : Expr} (hbranch : u.operand branch) :
    Built u (evalBranch · e arg branch) :=
  .bind (.ask hbranch) fun v => rejectFunction e arg v

/-! ### Binding -/

theorem evalAssign (hdeclares : u.declares) (e : Expr) (name : String) {value : Expr}
    (hvalue : u.operand value) :
    Built u (evalAssign · e name value) :=
  .declaring hdeclares name (.bind (.ask hvalue) fun v => .bind (.rebind e name v) fun _ => .pure v)

theorem evalAssignAt (hdeclares : u.declares) (hprints : u.prints) (e : Expr) (name : String)
    {index value : Expr} (hindex : u.operand index) (hvalue : u.operand value) :
    Built u (evalAssignAt · e name index value) := by
  refine .declaring hdeclares name (.bind (.ask hindex) fun i => .bind (.ask hvalue) fun v =>
    .get_bind fun m => ?_)
  split
  · exact failWith e _
  · exact .store hprints e _ i _
  · exact failWith e _

/-! ### Sequences and loops -/

theorem evalSequence {es : List Expr} (hes : ∀ e ∈ es, u.operand e) (last : Value) :
    Built u (evalSequence · es last) := by
  induction es generalizing last with
  | nil => exact .pure last
  | cons e es ih =>
    obtain ⟨he, hes⟩ := List.forall_mem_cons.mp hes
    exact .bind (.ask he) (ih hes)

theorem whileRounds (lim : Limits) (e : Expr) {cond body : Expr} (hcond : u.operand cond)
    (hbody : u.loopBody body)
    (left : Nat) (result : Value) : Built u (whileRounds lim · e cond body left result) := by
  induction left generalizing result with
  | zero =>
    unfold Eval.whileRounds
    refine .bind (evalCondition e hcond) fun b => ?_
    cases b with
    | true => exact exhausted lim e
    | false => exact .pure result
  | succ left ih =>
    unfold Eval.whileRounds
    refine .bind (evalCondition e hcond) fun b => ?_
    cases b with
    | true => exact .round hbody result ih
    | false => exact .pure result

theorem forRounds (lim : Limits) (e : Expr) (name : String) {body : Expr} (hbody : u.loopBody body)
    (vs : List Value) (left : Option Nat) (result : Value) :
    Built u (forRounds lim · e name body vs left result) := by
  induction vs generalizing left result with
  | nil => exact .pure result
  | cons v vs ih =>
    by_cases hlast : left = some 0
    · subst hlast
      exact exhausted lim e
    · simp only [forRounds_cons hlast]
      exact .bind (.rebind e name v) fun _ => .round hbody result (ih _)

theorem evalFor (lim : Limits) (hdeclares : u.declares) (e : Expr) (name : String)
    {items body : Expr} (hitems : u.operand items) (hbody : u.loopBody body) :
    Built u (evalFor lim · e name items body) := by
  refine .bind (.declareLoopVar hdeclares e name) fun _ => .bind (.ask hitems) fun v => ?_
  cases v with
  | list id => exact .get_bind fun m => forRounds lim e name hbody _ _ _
  | _ => exact failWith e _

/-! ### Calls and output -/

theorem evalArgs (e : Expr) {args : List Expr} (hargs : ∀ a ∈ args, u.operand a) :
    Built u (evalArgs · e args) := by
  induction args with
  | nil => exact .pure []
  | cons a as ih =>
    obtain ⟨ha, has⟩ := List.forall_mem_cons.mp hargs
    refine .bind (.ask ha) fun v => ?_
    cases v.toInt? with
    | none => exact failWith e _
    | some n => exact .bind (ih has) fun ns => .pure (n :: ns)

theorem callWith (hcalls : u.calls) (e : Expr) (name : String) (ns : List Int64) :
    Built u (callWith · e name ns) := by
  refine .get_bind fun m => ?_
  cases m.scopes.lookup? name with
  | none => exact failWith e _
  | some target =>
    cases target with
    | function id =>
      dsimp only
      cases m.heap.function? id with
      | none => exact failWith e _
      | some f => exact .apply hcalls e name id f ns
    | _ => exact failWith e _

theorem evalPrint (hprints : u.prints) (e : Expr) {operand : Expr} (hoperand : u.operand operand) :
    Built u (evalPrint · e operand) := by
  refine .bind (.ask hoperand) fun v => ?_
  cases v with
  | function | null => exact failWith e _
  | _ => exact .bind (.printValue hprints _) fun _ => .pure _

/-! ### Expressions -/

/-- **Every construct is built**, of the means of its expression. -/
theorem node (lim : Limits) (e : Expr) : Built e.means (node lim · e) := by
  have hmem : ∀ {a : Expr}, a ∈ e.operands → e.means.operand a := id
  cases e with
  | literal => exact .pure _
  | var _ name => exact evalVar _ name
  | element _ name index => exact evalElement _ name (hmem (.head _))
  | arith _ op a b =>
    exact .bind (.ask (hmem (.head _))) fun _ => .bind (.ask (hmem (.tail _ (.head _))))
      fun _ => check _ _
  | logical _ op a b =>
    exact .bind (.ask (hmem (.head _))) fun _ => .bind (.ask (hmem (.tail _ (.head _))))
      fun _ => check _ _
  | compare _ op a b =>
    exact .bind (.ask (hmem (.head _))) fun _ => .bind (.ask (hmem (.tail _ (.head _))))
      fun _ => check _ _
  | not _ a => exact .bind (.ask (hmem (.head _))) fun _ => check _ _
  | ifThen _ cond yes =>
    refine .bind (evalCondition _ (hmem (.head _))) fun b => ?_
    cases b with
    | true => exact evalBranch _ 2 (hmem (.tail _ (.head _)))
    | false => exact .pure _
  | ifElse _ cond yes no =>
    refine .bind (evalCondition _ (hmem (.head _))) fun b => ?_
    cases b with
    | true => exact evalBranch _ 2 (hmem (.tail _ (.head _)))
    | false => exact evalBranch _ 3 (hmem (.tail _ (.tail _ (.head _))))
  | whileDo _ cond body => exact whileRounds lim _ (hmem (.head _)) rfl _ _
  | forIn _ name items body => exact evalFor lim rfl _ name (hmem (.head _)) rfl
  | brk | nxt => exact .stop fun _ => rfl
  | block _ es => exact evalSequence (fun _ => hmem) _
  | assign _ name value => exact evalAssign rfl _ name (hmem (.head _))
  | assignAt _ name index value =>
    exact evalAssignAt rfl rfl _ name (hmem (.head _)) (hmem (.tail _ (.head _)))
  | function _ params body => exact .evalFunction _ params body
  | call _ name args => exact .bind (evalArgs _ fun _ => hmem) (callWith rfl _ name)
  | list _ items => exact .evalList items
  | print _ operand => exact evalPrint rfl _ (hmem (.head _))
  | cat _ operand => exact .bind (evalPrint rfl _ (hmem (.head _))) fun _ => .pure _
  | read => exact .evalRead
  | quit => exact .stop nofun

end Eval.Built

end ScopeScript
