import ScopeScript.Proofs.Discipline

/-!
# Twins

What a program does depends neither on where in the source its expressions stand nor on how patient
the other side of its console is. To say so, a run is put side by side with a second one, which has
other source ranges and another console. A `Twin` fixes the difference between the two:

* `Twin.span` and `Twin.console` say what becomes of a range and of a console, and `Twin.past` is
  what the log of the second run holds from before;
* `Twin.expr`, `Twin.function`, `Twin.stop` and `Twin.event` carry ranges over to whatever holds
  them;
* `Twin.machine` is the machine of the second run, and `Twin.result` the way in which it ends.

The scopes, the lists and the number of expressions under evaluation are the same on both sides, and
values are too, since they name lists and functions by their place in the heap. So each operation of
a machine does the same to both: the lemmas below say that it may be done before or after passing to
the twin. `Twin.Commutes` says so of two actions, and holds of those that evaluate no
sub-expression.
-/

namespace ScopeScript

/-- What distinguishes a second run from a first one. -/
structure Twin where
  span : Span → Span
  console : Console → Console
  past : List Event := []

namespace Twin

/-! ### From the first run to the second -/

/-- The twin of an expression. -/
def expr (t : Twin) (e : Expr) : Expr := e.mapSpans t.span

/-- The twin of an error. -/
def error (t : Twin) : EvalError → EvalError
  | .semantic error span => .semantic error (t.span span)
  | .resource error span => .resource error (t.span span)
  | .io fault => .io fault

/-- The twin of a reason to stop. -/
def stop (t : Twin) : Stop → Stop
  | .error e => .error (t.error e)
  | s => s

/-- The twin of an event. -/
def event (t : Twin) : Event → Event
  | .evaluating kind span => .evaluating kind (t.span span)
  | .left span stop => .left (t.span span) (stop.map t.stop)
  | ev => ev

/-- The twin of a function. -/
def function (t : Twin) (f : Function) : Function :=
  { f with body := t.expr f.body }

/-- The twin of a heap. -/
def heap (t : Twin) (h : Heap) : Heap :=
  { h with functions := h.functions.map t.function }

/-- The twin of a machine. -/
def machine (t : Twin) (m : Machine) : Machine :=
  { m with
    heap := t.heap m.heap
    console := t.console m.console
    log := m.log.map t.event ++ t.past }

/-- The twin of the way in which an action ends; its value is the same. -/
def result (t : Twin) {α : Type} :
    EStateM.Result Stop Machine α → EStateM.Result Stop Machine α
  | .ok a m => .ok a (t.machine m)
  | .error s m => .error (t.stop s) (t.machine m)

variable (t : Twin)

/-! ### Heaps -/

theorem textWithin_heap (h : Heap) (fuel : Nat) (v : Value) :
    (t.heap h).textWithin fuel v = h.textWithin fuel v := by
  induction fuel generalizing v with
  | zero => rfl
  | succ fuel ih =>
    have hsame : (t.heap h).textWithin fuel = h.textWithin fuel := funext ih
    cases v with
    | list id =>
      show Heap.listText ((h.items id).map ((t.heap h).textWithin fuel)) = _
      rw [hsame]
      rfl
    | _ => rfl

@[simp] theorem text_heap (h : Heap) (v : Value) : (t.heap h).text v = h.text v :=
  t.textWithin_heap h h.lists.size v

@[simp] theorem setItem?_heap (h : Heap) (id : ListId) (k : Int64) (v : Value) :
    (t.heap h).setItem? id k v = (h.setItem? id k v).map t.heap := by
  unfold Heap.setItem?
  cases Heap.slot? k with
  | none => rfl
  | some i =>
    show (if i < (h.items id).length then some _ else none) = _
    by_cases hi : i < (h.items id).length
    · simp only [hi, if_true, Option.map_some]
      rfl
    · simp only [hi, if_false, Option.map_none]

@[simp] theorem function?_heap (h : Heap) (id : FunctionId) :
    (t.heap h).function? id = (h.function? id).map t.function := by
  simp only [Heap.function?, heap, Array.getElem?_map]

@[simp] theorem typeInfo_heap (h : Heap) (v : Value) : (t.heap h).typeInfo v = h.typeInfo v := by
  cases v with
  | function id =>
    simp only [Heap.typeInfo, function?_heap]
    cases h.function? id <;> rfl
  | _ => rfl

@[simp] theorem newFunction_heap (h : Heap) (f : Function) :
    (t.heap h).newFunction (t.function f) = ((h.newFunction f).1, t.heap (h.newFunction f).2) := by
  simp only [Heap.newFunction, heap, Array.size_map, Array.map_push]

@[simp] theorem noteResult_heap (h : Heap) (id : FunctionId) (c : TypeClass) :
    (t.heap h).noteResult id c = t.heap (h.noteResult id c) := by
  simp only [Heap.noteResult, heap, Heap.mk.injEq, true_and]
  apply Array.ext_getElem?
  intro i
  simp only [Array.getElem?_modify, Array.getElem?_map]
  split <;> cases h.functions[i]? <;> rfl

/-! ### Machines -/

@[simp] theorem machine_scopes (m : Machine) : (t.machine m).scopes = m.scopes := rfl

@[simp] theorem machine_heap (m : Machine) : (t.machine m).heap = t.heap m.heap := rfl

@[simp] theorem machine_depth (m : Machine) : (t.machine m).depth = m.depth := rfl

@[simp] theorem declare_machine (m : Machine) (e : Entry) :
    (t.machine m).declare e = t.machine (m.declare e) := by
  unfold Machine.declare
  rw [machine_scopes]
  cases m.scopes.add? e <;> rfl

@[simp] theorem openScope_machine (m : Machine) :
    (t.machine m).openScope = t.machine m.openScope := rfl

@[simp] theorem closeScope?_machine (m : Machine) :
    (t.machine m).closeScope? = m.closeScope?.map t.machine := by
  unfold Machine.closeScope?
  rw [machine_scopes]
  cases m.scopes.pop <;> rfl

@[simp] theorem detach_machine (m : Machine) (depth : Nat) :
    (t.machine m).detach depth = ((m.detach depth).1, t.machine (m.detach depth).2) := by
  unfold Machine.detach
  dsimp only [machine_scopes]
  split <;> rfl

@[simp] theorem bindParams_machine (m : Machine) (ps : List String) (ns : List Int64) :
    Eval.bindParams (t.machine m) ps ns = t.machine (Eval.bindParams m ps ns) := by
  induction ps generalizing m ns with
  | nil => rfl
  | cons p ps ih =>
    cases ns with
    | nil => rfl
    | cons n ns =>
      rw [Eval.bindParams, Eval.bindParams, declare_machine, ih]

@[simp] theorem enter_machine (m : Machine) (id : FunctionId) (f : Function) (args : List Int64) :
    Eval.enter (t.machine m) id (t.function f) args =
      ((Eval.enter m id f args).1, t.machine (Eval.enter m id f args).2) := by
  have hdepth : (t.function f).scopeDepth = f.scopeDepth := rfl
  have hparams : (t.function f).params = f.params := rfl
  simp only [Eval.enter, hdepth, hparams, detach_machine, openScope_machine, bindParams_machine,
    machine_scopes]
  rfl

theorem begin_machine (m : Machine) (e : Expr) :
    (t.machine m).begin (t.expr e) = t.machine (m.begin e) := by
  have hevent : Event.evaluating (t.expr e).kindName (t.expr e).span =
      t.event (.evaluating e.kindName e.span) := by
    rw [expr, Expr.kindName_mapSpans, Expr.span_mapSpans]
    rfl
  unfold Machine.begin
  rw [hevent]
  rfl

theorem finish_machine (m : Machine) (e : Expr) (stop : Option Stop) :
    (t.machine m).finish (t.expr e) (stop.map t.stop) = t.machine (m.finish e stop) := by
  have hevent : Event.left (t.expr e).span (stop.map t.stop) = t.event (.left e.span stop) := by
    rw [expr, Expr.span_mapSpans]
    rfl
  unfold Machine.finish
  rw [hevent]
  rfl

/-! ### Actions -/

/-- The second action does on the twin of a machine what the first one does on the machine. -/
def Commutes {α : Type} (x x' : Eval α) : Prop :=
  ∀ m, x' (t.machine m) = t.result (x m)

namespace Commutes

variable {t} {α β : Type}

theorem pure (a : α) : t.Commutes (Pure.pure a) (Pure.pure a) := fun _ => rfl

theorem bind {x x' : Eval α} {f f' : α → Eval β} (hx : t.Commutes x x')
    (hf : ∀ a, t.Commutes (f a) (f' a)) : t.Commutes (x >>= f) (x' >>= f') := by
  intro m
  cases h : x m with
  | ok a m₁ =>
    have h' : x' (t.machine m) = .ok a (t.machine m₁) := by rw [hx m, h, result]
    rw [Eval.bind_of_ok h, Eval.bind_of_ok h', hf a m₁]
  | error s m₁ =>
    have h' : x' (t.machine m) = .error (t.stop s) (t.machine m₁) := by rw [hx m, h, result]
    rw [Eval.bind_of_error h, Eval.bind_of_error h', result]

/-- An action may look at the machine if both sides go on alike after what they see. -/
theorem get_bind {f f' : Machine → Eval α} (hf : ∀ m, t.Commutes (f m) (f' (t.machine m))) :
    t.Commutes (get >>= f) (get >>= f') :=
  fun m => hf m m

theorem modify {g g' : Machine → Machine} (hg : ∀ m, g' (t.machine m) = t.machine (g m)) :
    t.Commutes (modify g) (modify g') := by
  intro m
  show EStateM.Result.ok () (g' (t.machine m)) = _
  rw [hg]
  rfl

theorem throw (s : Stop) : t.Commutes (throw s : Eval α) (throw (t.stop s)) := fun _ => rfl

theorem failWith (e : Expr) (error : SemanticError) :
    t.Commutes (Eval.failWith e error : Eval α) (Eval.failWith (t.expr e) error) := by
  intro m
  rw [Eval.failWith, Eval.failWith, Twin.expr, Expr.span_mapSpans]
  rfl

theorem check (e : Expr) (c : Checked α) :
    t.Commutes (Eval.check e c) (Eval.check (t.expr e) c) := by
  cases c with
  | ok a => exact .pure a
  | error error => exact .failWith e error

theorem note {ev ev' : Event} (h : ev' = t.event ev) :
    t.Commutes (Eval.note ev) (Eval.note ev') := by
  subst h
  exact fun _ => rfl

theorem rejectFunction (e : Expr) (arg : Nat) (v : Value) :
    t.Commutes (Eval.rejectFunction e arg v) (Eval.rejectFunction (t.expr e) arg v) := by
  cases v with
  | function => exact .failWith e _
  | _ => exact .pure _

theorem closeScope (e : Expr) : t.Commutes (Eval.closeScope e) (Eval.closeScope (t.expr e)) := by
  intro m
  unfold Eval.closeScope
  rw [closeScope?_machine]
  cases m.closeScope? with
  | none => exact failWith e _ m
  | some m' => rfl

theorem rebind (e : Expr) (name : String) (v : Value) :
    t.Commutes (Eval.rebind e name v) (Eval.rebind (t.expr e) name v) := by
  intro m
  unfold Eval.rebind
  simp only [machine_scopes, machine_heap, typeInfo_heap]
  split
  · exact failWith e _ m
  · cases m.scopes.change
        ⟨name, { m.heap.typeInfo v with isParam := (m.scopes.find? name).any (·.info.isParam) },
          some v⟩ with
    | ok stack => rfl
    | error _ => exact failWith e _ m

theorem declareLoopVar (e : Expr) (name : String) :
    t.Commutes (Eval.declareLoopVar e name) (Eval.declareLoopVar (t.expr e) name) := by
  intro m
  unfold Eval.declareLoopVar
  rw [machine_scopes]
  cases m.scopes.find? name with
  | none =>
    dsimp only
    rw [declare_machine]
    rfl
  | some entry =>
    dsimp only
    split
    · exact failWith e _ m
    · rfl

theorem declareParams (e : Expr) (ps : List String) :
    t.Commutes (Eval.declareParams e ps) (Eval.declareParams (t.expr e) ps) := by
  induction ps with
  | nil => exact .pure ()
  | cons p ps ih =>
    refine .get_bind fun m => ?_
    rw [machine_scopes]
    cases m.scopes.find? p with
    | none => exact (modify fun m => t.declare_machine m _).bind fun _ => ih
    | some _ => exact (closeScope e).bind fun _ => .failWith e _

theorem evalFunction (e : Expr) (params : List String) (body : Expr) :
    t.Commutes (Eval.evalFunction e params body)
      (Eval.evalFunction (t.expr e) params (t.expr body)) := by
  refine .get_bind fun m₀ => (modify t.openScope_machine).bind fun _ => ?_
  refine (declareParams e params).bind fun _ => .get_bind fun m₁ => (closeScope e).bind fun _ => ?_
  intro m
  have hnew := t.newFunction_heap m.heap
    ⟨params, body, m₁.scopes.numEntries, m₀.scopes.depth, m₀.scopes.ids, none⟩
  show EStateM.Result.ok (Value.function ((t.heap m.heap).newFunction (t.function
    ⟨params, body, m₁.scopes.numEntries, m₀.scopes.depth, m₀.scopes.ids, none⟩)).1)
    { t.machine m with heap := ((t.heap m.heap).newFunction (t.function
      ⟨params, body, m₁.scopes.numEntries, m₀.scopes.depth, m₀.scopes.ids, none⟩)).2 } = _
  rw [hnew]
  rfl

theorem evalList (items : List Literal) : t.Commutes (Eval.evalList items) (Eval.evalList items) :=
  fun _ => rfl

theorem noteReturn (id : FunctionId) (v : Value) :
    t.Commutes (Eval.noteReturn id v) (Eval.noteReturn id v) := by
  refine (modify fun m => ?_).bind fun _ => .note rfl
  rw [machine_heap, noteResult_heap]
  rfl

theorem leaveCall (e : Expr) (hidden : List Scope) (ended : Except Stop Value) :
    t.Commutes (Eval.leaveCall e hidden ended)
      (Eval.leaveCall (t.expr e) hidden (ended.mapError t.stop)) := by
  intro m
  unfold Eval.leaveCall
  rw [closeScope?_machine]
  cases m.closeScope? with
  | none => exact failWith e _ (m.reattach hidden)
  | some m' =>
    cases ended with
    | ok v => rfl
    | error s => cases s <;> rfl

end Commutes

/-! ### No difference at all -/

/-- The second run is the first one. -/
def same : Twin := ⟨id, id, []⟩

@[simp] theorem same_expr (e : Expr) : same.expr e = e := e.mapSpans_id

@[simp] theorem map_same_expr (es : List Expr) : es.map same.expr = es := by
  rw [funext same_expr]
  exact List.map_id es

@[simp] theorem same_stop (s : Stop) : same.stop s = s := by
  cases s with
  | error e => cases e <;> rfl
  | _ => rfl

theorem same_event (ev : Event) : same.event ev = ev := by
  cases ev with
  | left span stop =>
    have hstop : same.stop = id := funext same_stop
    show Event.left span (stop.map same.stop) = _
    rw [hstop, Option.map_id_apply]
  | _ => rfl

theorem same_function (f : Function) : same.function f = f := by
  rw [function, same_expr]

@[simp] theorem same_machine (m : Machine) : same.machine m = m := by
  have hfunctions : same.function = id := funext same_function
  have hevents : same.event = id := funext same_event
  have hpast : same.past = [] := rfl
  simp only [machine, heap, hfunctions, hevents, hpast, Array.map_id, List.map_id, List.append_nil]
  rfl

@[simp] theorem same_result {α : Type} (r : EStateM.Result Stop Machine α) : same.result r = r := by
  cases r with
  | ok a m => rw [result, same_machine]
  | error s m => rw [result, same_stop, same_machine]

end Twin

end ScopeScript
