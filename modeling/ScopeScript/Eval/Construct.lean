import ScopeScript.Eval.Input
import ScopeScript.Eval.Machine

/-!
# Constructs of the language

Each construct is an action that is told how to evaluate the expressions inside
it: `recur` evaluates a sub-expression one level deeper. No construct calls
itself; loops recurse on the rounds that are left, and so a statement about a
construct follows from the same statement about `recur`.

The order in which operands are evaluated and checked is part of the meaning: the
first failure is the one reported.
-/

namespace ScopeScript

/-- Limits of a run. -/
structure Limits where
  /-- Largest number of expressions under evaluation. -/
  maxDepth : Nat := 1000
  /-- Largest number of rounds of a single loop. -/
  maxIterations : Option Nat := none
  /-- Rounds after which a loop without a limit is given up as unfinished. -/
  patience : Nat := twoPow 62
deriving DecidableEq, Inhabited

namespace Limits

/-- Number of rounds that a loop may make. -/
def rounds (lim : Limits) : Nat :=
  lim.maxIterations.getD lim.patience

/-- How a loop ends that wants another round after its last one. -/
def exhausted (lim : Limits) (e : Expr) : Stop :=
  match lim.maxIterations with
  | some n => .error (.resource (.iterationLimit n) e.span)
  | none => .unfinished

end Limits

/-- How sub-expressions are evaluated. -/
abbrev Recur := Expr → Eval Value

namespace Eval

/-! ### Names and elements -/

/-- The value of a name. -/
def evalVar (e : Expr) (name : String) : Eval Value := do
  match (← get).scopes.lookup? name with
  | some v => return v
  | none => fail e .undefinedIdent

/-- An element of the list that a name is bound to. The index is evaluated first. -/
def evalElement (recur : Recur) (e : Expr) (name : String) (index : Expr) : Eval Value := do
  let i ← recur index
  let m ← get
  match m.scopes.lookup? name with
  | none => fail e .undefinedIdent
  | some (.list id) =>
    match i.toInt? with
    | none => fail e .mustBeInteger
    | some k =>
      match m.heap.item? id k with
      | some v => return v
      | none => fail e .subOutOfBounds
  | some _ => failAt e 1 .mustBeList

/-! ### Conditionals -/

/-- The truth of a condition. -/
def evalCondition (recur : Recur) (e cond : Expr) : Eval Bool := do
  match (← recur cond).truth? with
  | some b => return b
  | none => failAt e 1 .cannotBeFunctNullListOrStr

/-- Passes on a value that is not a function. -/
def rejectFunction (e : Expr) (arg : Nat) (v : Value) : Eval Value :=
  match v with
  | .function _ => failAt e arg .cannotBeFunct
  | v => return v

/-- A branch of a conditional. -/
def evalBranch (recur : Recur) (e : Expr) (arg : Nat) (branch : Expr) : Eval Value := do
  rejectFunction e arg (← recur branch)

/-! ### Binding -/

/-- Binds a value to a name of the innermost scope. A parameter stays one, and has to stay an
integer. -/
def rebind (e : Expr) (name : String) (v : Value) : Eval Unit := fun m =>
  let isParam := (m.scopes.find? name).any (·.info.isParam)
  if isParam && !v.typeClass.acceptsInt then failAt e 1 .mustBeInteger m
  else
    match m.scopes.change ⟨name, { m.heap.typeInfo v with isParam }, some v⟩ with
    | .ok s => .ok () ({ m with scopes := s }.note (.bound name v))
    | .error _ => fail e .internal m

/-- Declares a name, if it is new to the innermost scope, while an action computes its value. If
the action is left for a loop, a name declared here is removed again. -/
def declaring (name : String) (action : Eval Value) : Eval Value := fun m =>
  match m.scopes.find? name with
  | some _ => action m
  | none =>
    match action (m.declare (.placeholder name)) with
    | .error .brk m => .error .brk (m.forget name)
    | .error .nxt m => .error .nxt (m.forget name)
    | ended => ended

/-- Assignment to a name. -/
def evalAssign (recur : Recur) (e : Expr) (name : String) (value : Expr) : Eval Value :=
  declaring name do
    let v ← recur value
    rebind e name v
    return v

/-- Stores a value into a list of the heap and prints the list. -/
def store (e : Expr) (id : ListId) (index v : Value) : Eval Value := do
  match index.toInt? with
  | none => fail e .mustBeInteger
  | some k =>
    match (← get).heap.setItem? id k v with
    | none => fail e .subOutOfBounds
    | some heap =>
      modify fun m => { m with heap }
      note (.stored id k v)
      printValue (.list id)
      return .list id

/-- Assignment to an element of the list that a name is bound to in the innermost scope. The list
is looked up after index and value have been evaluated. -/
def evalAssignAt (recur : Recur) (e : Expr) (name : String) (index value : Expr) : Eval Value :=
  declaring name do
    let i ← recur index
    let v ← recur value
    match ((← get).scopes.find? name).bind (·.value), v with
    | some (.list _), .list _ => failAt e 1 .cannotBeList
    | some (.list id), v => store e id i v
    | _, _ => failAt e 1 .mustBeList

/-! ### Sequences and loops -/

/-- Expressions one after the other; the last one gives the value. -/
def evalSequence (recur : Recur) : List Expr → Value → Eval Value
  | [], last => return last
  | e :: es, _ => do
    let v ← recur e
    evalSequence recur es v

/-- A round of a loop. What comes next is told the value of the last round that had one; a loop that
is left has this value as its own. -/
@[inline] def round (body : Eval Value) (result : Value) (next : Value → Eval Value) : Eval Value :=
  fun m =>
    match body m with
    | .ok v m => next v m
    | .error .brk m => .ok result m
    | .error .nxt m => next result m
    | .error stop m => .error stop m

/-- A loop on a condition, with the number of rounds left and the value of the last round that had
one. -/
def whileRounds (lim : Limits) (recur : Recur) (e cond body : Expr) : Nat → Value → Eval Value :=
  fun left result => do
    if ← evalCondition recur e cond then
      match left with
      | 0 => throw (lim.exhausted e)
      | left + 1 => round (recur body) result (whileRounds lim recur e cond body left)
    else return result

/-- A loop over given values, with the number of rounds left, unless there is no limit. -/
def forRounds (lim : Limits) (recur : Recur) (e : Expr) (name : String) (body : Expr) :
    List Value → Option Nat → Value → Eval Value
  | [], _, result => return result
  | _ :: _, some 0, _ => throw (lim.exhausted e)
  | v :: vs, left, result => do
    rebind e name v
    round (recur body) result (forRounds lim recur e name body vs (left.map (· - 1)))

/-- Declares a loop variable, or checks that a name can be one. -/
def declareLoopVar (e : Expr) (name : String) : Eval Unit := fun m =>
  match m.scopes.find? name with
  | none => .ok () (m.declare ⟨name, .plain .ofScalar, none⟩)
  | some entry =>
    if entry.info.kind = .ofFunction ∨ entry.info.kind = .nothing ∨ entry.info.kind = .ofList then
      failAt e 1 .cannotBeFunctOrNullOrList m
    else .ok () m

/-- A loop over the elements that a list has when the loop begins. -/
def evalFor (lim : Limits) (recur : Recur) (e : Expr) (name : String) (items body : Expr) :
    Eval Value := do
  declareLoopVar e name
  match ← recur items with
  | .list id =>
    let values := (← get).heap.items id
    forRounds lim recur e name body values lim.maxIterations .null
  | _ => failAt e 2 .mustBeList

/-! ### Functions -/

/-- Declares the parameters of a function in the innermost scope; a repeated one closes it. -/
def declareParams (e : Expr) : List String → Eval Unit
  | [] => return
  | p :: ps => do
    match (← get).scopes.find? p with
    | some _ =>
      closeScope e
      fail e .multiplyDefinedIdent
    | none =>
      modify (·.declare ⟨p, .param, none⟩)
      declareParams e ps

/-- A function definition. Its parameters are checked in a scope of their own. -/
def evalFunction (e : Expr) (params : List String) (body : Expr) : Eval Value := do
  let outer := (← get).scopes
  modify Machine.openScope
  declareParams e params
  let numParams := (← get).scopes.numEntries
  closeScope e
  let f : Function := { params, body, numParams, scopeDepth := outer.depth, home := outer.ids }
  modifyGet fun m =>
    let (id, heap) := m.heap.newFunction f
    (.function id, { m with heap })

/-- The arguments of a call, from left to right; each has to be an integer. -/
def evalArgs (recur : Recur) (e : Expr) : List Expr → Eval (List Int64)
  | [] => return []
  | a :: as => do
    match (← recur a).toInt? with
    | none => fail e .nonIntFunctParam
    | some n =>
      let ns ← evalArgs recur e as
      return n :: ns

/-- Binds parameters to arguments in the innermost scope. -/
def bindParams (m : Machine) : List String → List Int64 → Machine
  | p :: ps, n :: ns => bindParams (m.declare ⟨p, .param, some (.int n)⟩) ps ns
  | _, _ => m

/-- The scopes that are set aside for a call, and the machine on which the body of the function
runs: the scopes of its definition and a new one with its parameters. -/
def enter (m : Machine) (id : FunctionId) (f : Function) (args : List Int64) :
    List Scope × Machine :=
  let (hidden, outer) := m.detach f.scopeDepth
  (hidden, (bindParams outer.openScope f.params args).note
    (.opened id outer.scopes.ids m.scopes.ids))

/-- Leaves a call: closes its scope and puts back the scopes of the caller. A body that was left
for a loop has null for its value. -/
def leaveCall (e : Expr) (hidden : List Scope) (ended : Except Stop Value) : Eval Value := fun m =>
  match m.closeScope? with
  | none => fail e .internal (m.reattach hidden)
  | some m =>
    let m := m.reattach hidden
    match ended with
    | .ok v => .ok v m
    | .error .brk => .ok .null m
    | .error .nxt => .ok .null m
    | .error stop => .error stop m

/-- Runs the body of a function. -/
def invoke (recur : Recur) (e : Expr) (id : FunctionId) (f : Function) (args : List Int64) :
    Eval Value := fun m =>
  let (hidden, inner) := enter m id f args
  match recur f.body inner with
  | .ok v m => leaveCall e hidden (.ok v) m
  | .error stop m => leaveCall e hidden (.error stop) m

/-- Notes the class of the value that a call returns. -/
def noteReturn (id : FunctionId) (v : Value) : Eval Unit := do
  modify fun m => { m with heap := m.heap.noteResult id v.typeClass }
  note (.returned id v.typeClass)

/-- A call of a known function. -/
def apply (recur : Recur) (e : Expr) (name : String) (id : FunctionId) (f : Function)
    (args : List Int64) : Eval Value := do
  if f.numParams < args.length then fail e .tooManyParams
  else if args.length < f.numParams then fail e .tooFewParams
  else
    note (.calling name args.length)
    let v ← rejectFunction e 2 (← invoke recur e id f args)
    noteReturn id v
    return v

/-- A call by name. The arguments are evaluated before the name is looked up. -/
def evalCall (recur : Recur) (e : Expr) (name : String) (args : List Expr) : Eval Value := do
  let values ← evalArgs recur e args
  let m ← get
  match m.scopes.lookup? name with
  | none => fail e .undefinedIdent
  | some (.function id) =>
    match m.heap.function? id with
    | some f => apply recur e name id f values
    | none => failAt e 1 .mustBeFunct
  | some _ => failAt e 1 .mustBeFunct

/-! ### Lists, input and output -/

/-- A new list of constants. -/
def evalList (items : List Literal) : Eval Value :=
  modifyGet fun m =>
    let (id, heap) := m.heap.newList (items.map Value.ofLiteral)
    (.list id, { m with heap })

/-- Evaluates and prints an operand, which must be neither a function nor null. -/
def evalPrint (recur : Recur) (e operand : Expr) : Eval Value := do
  match ← recur operand with
  | .function _ => failAt e 1 .cannotBeFunctOrNull
  | .null => failAt e 1 .cannotBeFunctOrNull
  | v =>
    printValue v
    return v

/-- Reads a line; at the end of the input an empty one. -/
def evalRead : Eval Value := do
  let line ← onConsole Console.readLine
  note (.consumed line)
  return .ofInput (line.getD "")

end Eval

end ScopeScript
