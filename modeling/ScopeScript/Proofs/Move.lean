import ScopeScript.Proofs.Call

/-!
# The moves of a machine

Between two evaluations of sub-expressions a machine changes in few ways. `Move` lists them: each
constructor is one change, together with everything that the evaluator has checked by then. `Arises`
lists in the same way the reasons for which evaluation stops early. A statement about all of
evaluation needs to look at these two lists only, and at calls, which run code in between.

* `Move.kept`: no move takes anything away from the scopes.
* `Arises.error_cases`: the errors among the reasons. The internal error is the one that no program
  is to blame for; it arises without a scope only.
-/

namespace ScopeScript

namespace Machine

/-- Makes a list. -/
def allocList (m : Machine) (items : List Value) : Machine :=
  { m with heap := (m.heap.newList items).2 }

/-- Makes a function. -/
def allocFunction (m : Machine) (f : Function) : Machine :=
  { m with heap := (m.heap.newFunction f).2 }

end Machine

/-- Type information on a name before it has a value: that of an assigned name or of a loop
variable. -/
def TypeInfo.IsPending (info : TypeInfo) : Prop :=
  info = .placeholder ∨ info = .plain .ofScalar

/-- The ways in which a machine changes other than by running code; values that it stores or prints
are among those that `Fits` allows. -/
inductive Move (Fits : Machine → Value → Prop) (m : Machine) : Machine → Prop where
  /-- A call is announced. -/
  | announce (name : String) (args : Nat) : Move Fits m (m.note (.calling name args))
  /-- A name is declared that the innermost scope does not have. -/
  | declare (name : String) (info : TypeInfo) (hinfo : info.IsPending)
      (hnew : m.scopes.find? name = none) : Move Fits m (m.declare ⟨name, info, none⟩)
  /-- A value is bound to a name of the innermost scope; a parameter stays an integer. -/
  | bind (name : String) (v : Value) (old : Entry) (stack : ScopeStack)
      (hold : m.scopes.find? name = some old)
      (hparam : old.info.isParam → v.typeClass.acceptsInt) (hv : Fits m v)
      (hchange : m.scopes.change
        ⟨name, { m.heap.typeInfo v with isParam := old.info.isParam }, some v⟩ = .ok stack) :
      Move Fits m ({ m with scopes := stack }.note (.bound name v))
  /-- An element is replaced in the list that a name of the innermost scope is bound to. -/
  | store (name : String) (id : ListId) (k : Int64) (v : Value) (heap : Heap)
      (htarget : (m.scopes.find? name).bind (·.value) = some (.list id)) (hv : Fits m v)
      (hlist : ∀ other, v ≠ .list other) (hset : m.heap.setItem? id k v = some heap) :
      Move Fits m ({ m with heap }.note (.stored id k v))
  /-- A value is printed. -/
  | print (v : Value) (console : Console) (hv : Fits m v)
      (hprint : Console.printLine (String.ofList (m.heap.text v)) m.console = .ok () console) :
      Move Fits m ({ m with console }.note (.printed (m.heap.text v)))
  /-- A line is refused, perhaps after a part of it was written. -/
  | refuse (v : Value) (fault : IoFault) (console : Console) (hv : Fits m v)
      (hprint : Console.printLine (String.ofList (m.heap.text v)) m.console =
        .error fault console) :
      Move Fits m { m with console }
  /-- A line is read. -/
  | read (line : Option String) (console : Console)
      (hread : Console.readLine m.console = .ok line console) :
      Move Fits m ({ m with console }.note (.consumed line))
  /-- A line is skipped that is no text. -/
  | skip (fault : IoFault) (console : Console)
      (hread : Console.readLine m.console = .error fault console) : Move Fits m { m with console }
  /-- A scope is opened and closed again. -/
  | probe (events : List Event) (hspoken : Spoken events) : Move Fits m (m.probed events)
  /-- The class of a returned value is noted; no call returns a function. -/
  | credit (id : FunctionId) (v : Value) (hv : ∀ f, v ≠ .function f) :
      Move Fits m ({ m with heap := m.heap.noteResult id v.typeClass }.note
        (.returned id v.typeClass))

/-- Whether an expression is a loop on a condition. -/
def Expr.isWhile : Expr → Bool
  | .whileDo _ _ _ => true
  | _ => false

/-- The reasons for which evaluation on a machine stops early; the loops among the expressions at
hand are those that `Admits` allows. -/
inductive Arises (lim : Limits) (Admits : Expr → Prop) (m : Machine) : Stop → Prop where
  | brk : Arises lim Admits m .brk
  | nxt : Arises lim Admits m .nxt
  | quit : Arises lim Admits m .quit
  /-- A rule is violated that programs can violate. -/
  | violation (kind : SemanticKind) (arg : Option Nat) (span : Span) (hkind : kind ≠ .internal) :
      Arises lim Admits m (.error (.semantic ⟨kind, arg⟩ span))
  /-- There is no scope to bind a name in. -/
  | internal (span : Span) (hnil : m.scopes.scopes = []) :
      Arises lim Admits m (.error (.semantic ⟨.internal, none⟩ span))
  | overflow (span : Span) (hfull : lim.maxDepth ≤ m.depth) :
      Arises lim Admits m (.error (.resource (.stackOverflow m.depth lim.maxDepth) span))
  /-- A loop wants another round after its last one; without a limit only a loop on a condition
  can. -/
  | exhausted (e : Expr) (hloop : lim.maxIterations = none → Admits e ∧ e.isWhile) :
      Arises lim Admits m (lim.exhausted e)
  | refused : Arises lim Admits m (.error (.io .writeRefused))
  | garbled : Arises lim Admits m (.error (.io .notUtf8))

/-- The errors among these reasons: a violated rule, a binding without a scope, an exceeded limit or
a line that could not be written or read. -/
theorem Arises.error_cases {lim : Limits} {Admits : Expr → Prop} {m : Machine} {e : EvalError}
    (h : Arises lim Admits m (.error e)) :
    (∃ kind arg span, kind ≠ .internal ∧ e = .semantic ⟨kind, arg⟩ span) ∨
      (∃ span, m.scopes.scopes = [] ∧ e = .semantic ⟨.internal, none⟩ span) ∨
      (∃ limit span, e = .resource limit span) ∨ e = .io .writeRefused ∨ e = .io .notUtf8 := by
  generalize hstop : Stop.error e = stop at h
  cases h with
  | brk | nxt | quit => cases hstop
  | violation kind arg span hkind =>
    cases hstop
    exact .inl ⟨kind, arg, span, hkind, rfl⟩
  | internal span hnil =>
    cases hstop
    exact .inr (.inl ⟨span, hnil, rfl⟩)
  | overflow span =>
    cases hstop
    exact .inr (.inr (.inl ⟨_, span, rfl⟩))
  | exhausted e' =>
    unfold Limits.exhausted at hstop
    split at hstop
    · cases hstop
      exact .inr (.inr (.inl ⟨_, e'.span, rfl⟩))
    · cases hstop
  | refused =>
    cases hstop
    exact .inr (.inr (.inr (.inl rfl)))
  | garbled =>
    cases hstop
    exact .inr (.inr (.inr (.inr rfl)))

/-! ### What moves keep -/

/-- **No move takes anything away from the scopes.** -/
theorem Move.kept {Fits : Machine → Value → Prop} {m m' : Machine} (h : Move Fits m m') :
    m.Kept m' := by
  cases h with
  | declare name info _ hnew => exact .declare hnew
  | bind name v old stack hold _ _ hchange =>
    have hkept : old.Kept ⟨name, { m.heap.typeInfo v with isParam := old.info.isParam }, some v⟩ :=
      ⟨fun _ => rfl, rfl⟩
    exact (Machine.Kept.bind hold hkept hchange).trans (.of_eq rfl rfl)
  | announce | store | print | refuse | read | skip | probe | credit => exact .of_eq rfl rfl

/-! ### Faults of the console -/

theorem Console.write_error {text : String} {c c' : Console} {fault : IoFault}
    (h : write text c = .error fault c') : fault = .writeRefused := by
  unfold write at h
  split at h
  · cases h
    rfl
  · cases h

theorem Console.printLine_error {text : String} {c c' : Console} {fault : IoFault}
    (h : printLine text c = .error fault c') : fault = .writeRefused := by
  unfold printLine at h
  split at h
  · cases htext : write text c with
    | ok u c₁ =>
      have hend : write "\n" c₁ = .error fault c' := by
        simpa only [bind, EStateM.bind, htext] using h
      exact write_error hend
    | error fault' c₁ =>
      simp only [bind, EStateM.bind, htext, EStateM.Result.error.injEq] at h
      exact h.1 ▸ write_error htext
  · exact write_error h

theorem Console.readLine_error {c c' : Console} {fault : IoFault}
    (h : readLine c = .error fault c') : fault = .notUtf8 := by
  unfold readLine at h
  split at h
  · cases h
  · dsimp only at h
    split at h
    · cases h
    · cases h
      rfl

/-! ### Acting on the console -/

namespace Eval

variable {α : Type} {action : Console.Action α} {m : Machine} {c : Console} {fault : IoFault}

theorem onConsole_of_ok {a : α} (h : action m.console = .ok a c) :
    onConsole action m = .ok a { m with console := c } := by
  rw [onConsole, h]

theorem onConsole_of_error (h : action m.console = .error fault c) :
    onConsole action m = .error (.error (.io fault)) { m with console := c } := by
  rw [onConsole, h]

theorem printValue_of_ok {v : Value}
    (h : Console.printLine (String.ofList (m.heap.text v)) m.console = .ok () c) :
    printValue v m = .ok () ({ m with console := c }.note (.printed (m.heap.text v))) := by
  rw [printValue, get_bind, bind_of_ok (onConsole_of_ok h)]
  rfl

theorem printValue_of_error {v : Value}
    (h : Console.printLine (String.ofList (m.heap.text v)) m.console = .error fault c) :
    printValue v m = .error (.error (.io fault)) { m with console := c } := by
  rw [printValue, get_bind, bind_of_error (onConsole_of_error h)]

end Eval

end ScopeScript
