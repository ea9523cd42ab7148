import ScopeScript.Proofs.LogLaw

/-!
# The internal error is unreachable

Evaluation reports the internal error where a scope is to be closed and there is none, and where a
value is to be bound to a name that the innermost scope does not declare. Neither happens in a run
that starts with a scope open (`Machine.run_not_internal`): the run does not end with this error,
and no expression is left with it on the way.

That names stay declared while their value is computed is part of what every law says
(`Law.declaring`, `Law.forRounds`); what remains to be seen here is that there is always a scope,
also inside of calls, where the scopes of the caller are set aside.
-/

namespace ScopeScript

/-- Whether an error is the internal one. -/
def EvalError.isInternal : EvalError → Bool
  | .semantic error _ => error.kind = .internal
  | _ => false

/-- Whether an event says that an expression was left with the internal error. -/
def Event.reportsInternal : Event → Bool
  | .left _ (some (.error e)) => e.isInternal
  | _ => false

/-- Where there is a scope, evaluation does not stop with the internal error. -/
theorem Arises.not_internal {lim : Limits} {Admits : Expr → Prop} {m : Machine} {e : EvalError}
    (h : Arises lim Admits m (.error e)) (hscope : m.scopes.scopes ≠ []) :
    e.isInternal = false := by
  rcases h.error_cases with
    ⟨kind, arg, span, hkind, rfl⟩ | ⟨span, hnil, -⟩ | ⟨limit, span, rfl⟩ | rfl | rfl
  · exact decide_eq_false hkind
  · exact absurd hnil hscope
  · rfl
  · rfl
  · rfl

/-- With a scope open, no expression is left with the internal error. -/
def LogLaw.notInternal (lim : Limits) : LogLaw lim where
  Inv scopes := scopes ≠ []
  Allows ev := ev.reportsInternal = false
  inv_kept hkept h := mt hkept.eq_nil_iff.mp h
  inv_enter {m _ id f args} _ _ := by
    obtain ⟨s, events, -, -, -, henter⟩ := Eval.enter_eq m id f args
    rw [henter]
    exact List.cons_ne_nil s _
  spoken {ev} h := by
    cases ev with
    | left => cases h
    | _ => rfl
  bound _ _ _ := rfl
  stored _ _ _ _ _ := rfl
  opened _ _ _ _ := rfl
  returned _ _ := rfl
  printed _ := rfl
  consumed _ := rfl
  left {stop} hstop span := by
    cases stop with
    | none => rfl
    | some stop =>
      obtain ⟨m, hscope, harises⟩ := hstop stop rfl
      cases stop with
      | error e => exact harises.not_internal hscope
      | _ => rfl

/-- **The internal error is unreachable.** A run that starts with a scope open does not end with the
internal error, and no expression that is evaluated on the way is left with it. -/
theorem Machine.run_not_internal (lim : Limits) (p : Program) (m : Machine)
    (h : m.scopes.scopes ≠ []) :
    (∀ e, (m.run lim p).1 = .failed e → e.isInternal = false) ∧
      ∃ events, (m.run lim p).2.log = events ++ m.log ∧
      ∀ ev ∈ events, ev.reportsInternal = false := by
  refine ⟨?_, (LogLaw.notInternal lim).logs_run p h⟩
  obtain ⟨m', -, hcloses⟩ := (LogLaw.notInternal lim).toLaw.run (p := p) (fun _ _ => trivial) h
  intro e he
  rcases hcloses.abandoned_or_kept with ⟨e', c, events, hraises, -, heq⟩ | ⟨c, -, hflush⟩
  · rw [heq] at he
    cases he
    obtain ⟨m₁, hscope, harises⟩ := hraises
    exact harises.not_internal hscope
  · obtain rfl := hflush e he
    rfl

/-- The program `for (x in list(1, 2)) { x <- { x <- 3; next } }` assigns its loop variable within
an assignment to it, which it then leaves. -/
theorem Machine.run_nested_assignment_not_internal :
    let p : Program := [.forIn ⟨0, 47⟩ "x" (.list ⟨10, 20⟩ [.int 1, .int 2]) (.block ⟨22, 47⟩
      [.assign ⟨24, 45⟩ "x" (.block ⟨29, 45⟩
        [.assign ⟨31, 37⟩ "x" (.literal ⟨36, 37⟩ (.int 3)), .nxt ⟨39, 43⟩])])]
    let m : Machine := {}
    m.scopes.scopes ≠ [] ∧ (∀ e, (m.run {} p).1 = .failed e → e.isInternal = false) ∧
      ∃ events, (m.run {} p).2.log = events ++ m.log ∧
        ∀ ev ∈ events, ev.reportsInternal = false := by
  intro p m
  have hscope : m.scopes.scopes ≠ [] := List.cons_ne_nil _ _
  exact ⟨hscope, Machine.run_not_internal {} p m hscope⟩

end ScopeScript
