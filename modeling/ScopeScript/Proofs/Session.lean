import ScopeScript.Proofs.LogLaw

/-!
# The life of a session

Programs run one after the other on one machine. As long as none of them ends in an error of
evaluation, the machine has the global scope and no other between them, whether they complete, quit
from within calls and loops, or have their last flush refused. The first error closes the global
scope, and no later program opens one that stays: every name is unbound from then on, and nothing
can be bound (`Machine.runAll_session`).

A single run is described by `Machine.run_scopes`, a sequence of them by induction. The state after
an error has a law of its own, `LogLaw.noScope`: without a scope nothing is found, so nothing is
bound, stored or called.
-/

namespace ScopeScript

/-- Whether a program ended because evaluation failed; a refused flush at its end does not count. -/
def Ending.isEvalError : Ending → Bool
  | .failed (.io .flushRefused) => false
  | .failed _ => true
  | .completed _ | .quit | .unfinished => false

/-- Whether an event says that an assignment or a loop has bound a name or stored an element. -/
def Event.isBinding : Event → Bool
  | .bound _ _ | .stored _ _ _ => true
  | _ => false

namespace Machine

/-- How programs end that run one after the other on one machine. -/
def endings (m : Machine) (lim : Limits) : List Program → List Ending
  | [] => []
  | p :: ps => (m.run lim p).1 :: endings (m.run lim p).2 lim ps

end Machine

/-- Evaluation does not flush. -/
theorem Arises.isEvalError {lim : Limits} {Admits : Expr → Prop} {m : Machine} {e : EvalError}
    (h : Arises lim Admits m (.error e)) : (Ending.failed e).isEvalError = true := by
  rcases h.error_cases with
    ⟨kind, arg, span, -, rfl⟩ | ⟨span, -, rfl⟩ | ⟨limit, span, rfl⟩ | rfl | rfl <;> rfl

/-! ### Machines without a scope -/

theorem ScopeStack.find?_of_nil {s : ScopeStack} (h : s.scopes = []) (name : String) :
    s.find? name = none := by
  rw [find?, h]

theorem ScopeStack.lookup?_of_nil {s : ScopeStack} (h : s.scopes = []) (name : String) :
    s.lookup? name = none := by
  rw [lookup?, findAny?, h]
  rfl

theorem not_calls_of_nil {m : Machine} {name : String} {id : FunctionId} {f : Function}
    {args : List Int64} (h : m.scopes.scopes = []) : ¬ Calls m name id f args := by
  intro hcall
  have hlookup := hcall.lookup
  rw [ScopeStack.lookup?_of_nil h] at hlookup
  cases hlookup

/-- Without a scope nothing is bound. -/
def LogLaw.noScope (lim : Limits) : LogLaw lim where
  Inv scopes := scopes = []
  Allows ev := ev.isBinding = false
  inv_kept hkept h := hkept.eq_nil_iff.mpr h
  inv_enter h hcall := absurd hcall (not_calls_of_nil h)
  spoken {ev} h := by
    cases ev with
    | bound | stored => cases h
    | _ => rfl
  bound {m name old} h hold := by
    rw [ScopeStack.find?_of_nil h] at hold
    cases hold
  stored {m name old} h hold := by
    rw [ScopeStack.find?_of_nil h] at hold
    cases hold
  opened h hcall := absurd hcall (not_calls_of_nil h)
  returned _ _ := rfl
  printed _ := rfl
  consumed _ := rfl
  left _ _ := rfl

namespace Machine

variable {m : Machine}

/-! ### Runs -/

/-- A run leaves as many expressions under evaluation as there were, and as many scopes, unless
evaluation fails. -/
theorem run_scopes (lim : Limits) (p : Program) (m : Machine) :
    (m.run lim p).2.depth = m.depth ∧
      (m.run lim p).2.scopes.depth = if (m.run lim p).1.isEvalError then 0 else m.scopes.depth := by
  obtain ⟨m', hleads, hcloses⟩ := (LogLaw.free lim).toLaw.run (p := p) (m := m) (fun _ _ => trivial)
    trivial
  rcases hcloses.abandoned_or_kept with ⟨e, c, events, ⟨m₁, -, harises⟩, -, heq⟩ | ⟨c, heq, hflush⟩
  · rw [heq]
    refine ⟨hleads.kept.depth, ?_⟩
    rw [harises.isEvalError]
    rfl
  · have hending : (m.run lim p).1.isEvalError = false := by
      cases hr : (m.run lim p).1 with
      | failed e =>
        obtain rfl := hflush e hr
        rfl
      | _ => rfl
    rw [heq, hending]
    exact ⟨hleads.kept.depth, hleads.kept.stack.length_eq⟩

/-- What runs one after the other leave, by the endings of all of them. -/
theorem runAll_scopes (lim : Limits) (ps : List Program) (m : Machine) :
    (m.runAll lim ps).depth = m.depth ∧
      (m.runAll lim ps).scopes.depth =
        if (m.endings lim ps).any (·.isEvalError) then 0 else m.scopes.depth := by
  induction ps generalizing m with
  | nil => exact ⟨rfl, rfl⟩
  | cons p ps ih =>
    obtain ⟨hdepth, hscopes⟩ := run_scopes lim p m
    obtain ⟨hdepth', hscopes'⟩ := ih (m.run lim p).2
    refine ⟨hdepth'.trans hdepth, ?_⟩
    rw [runAll, endings, List.any_cons, hscopes', hscopes]
    by_cases hp : (m.run lim p).1.isEvalError
    · simp only [hp, if_true, Bool.true_or, ite_self]
    · simp only [hp, Bool.false_or]
      rfl

/-- Without a scope runs bind nothing. -/
theorem runAll_of_nil (lim : Limits) (qs : List Program) (h : m.scopes.scopes = []) :
    (m.runAll lim qs).scopes.scopes = [] ∧
      Logs (fun ev => ev.isBinding = false) m (m.runAll lim qs) := by
  induction qs generalizing m with
  | nil => exact ⟨h, .refl m⟩
  | cons q qs ih =>
    have hnil : (m.run lim q).2.scopes.scopes = [] := by
      have hscopes := (run_scopes lim q m).2
      have hzero : m.scopes.depth = 0 := by rw [ScopeStack.depth, h, List.length_nil]
      rw [hzero, ite_self] at hscopes
      exact List.eq_nil_of_length_eq_zero hscopes
    obtain ⟨hrest, hlogs⟩ := ih hnil
    exact ⟨hrest, ((LogLaw.noScope lim).logs_run q h).trans hlogs⟩

/-- **The life of a session.** After any programs on a new machine no expression is under
evaluation, and the machine has its global scope and no other, or no scope at all if some program
ended in an error of evaluation. In the latter case all names are unbound after any further programs
`qs`, and none of these binds a name or stores an element. -/
theorem runAll_session (lim : Limits) (c : Console) (ps qs : List Program) :
    let m : Machine := { console := c }
    let m' := m.runAll lim ps
    m'.depth = 0 ∧
      m'.scopes.depth = (if (m.endings lim ps).any (·.isEvalError) then 0 else 1) ∧
      ((m.endings lim ps).any (·.isEvalError) = true →
        (∀ name, (m'.runAll lim qs).scopes.lookup? name = none) ∧
          ∃ events, (m'.runAll lim qs).log = events ++ m'.log ∧
            ∀ ev ∈ events, ev.isBinding = false) := by
  intro m m'
  obtain ⟨hdepth, hscopes⟩ := runAll_scopes lim ps m
  refine ⟨hdepth, hscopes, fun herror => ?_⟩
  rw [if_pos herror] at hscopes
  obtain ⟨hnil, hlogs⟩ := runAll_of_nil lim qs (List.eq_nil_of_length_eq_zero hscopes)
  exact ⟨ScopeStack.lookup?_of_nil hnil, hlogs⟩

/-- After the program `y`, which fails, the program `x <- 1` leaves `x` unbound. -/
theorem runAll_session_failed :
    let m : Machine := {}
    let m' := m.runAll {} [[.var ⟨0, 1⟩ "y"]]
    let q : Program := [.assign ⟨0, 6⟩ "x" (.literal ⟨5, 6⟩ (.int 1))]
    (m.endings {} [[.var ⟨0, 1⟩ "y"]]).any (·.isEvalError) = true ∧
      (m'.runAll {} [q]).scopes.lookup? "x" = none := by
  intro m m' q
  have herror : (m.endings {} [[.var ⟨0, 1⟩ "y"]]).any (·.isEvalError) = true := by decide +kernel
  obtain ⟨hunbound, -⟩ := (runAll_session {} {} [[.var ⟨0, 1⟩ "y"]] [q]).2.2 herror
  exact ⟨herror, hunbound "x"⟩

end Machine

end ScopeScript
