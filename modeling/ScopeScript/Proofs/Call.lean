import ScopeScript.Proofs.Kept

/-!
# Function definitions and calls

A function definition opens a scope to check its parameters and closes it again, so all that is left
of it is the new function and a used-up scope identity (`Eval.evalFunction_cases`). A call sets
scopes aside, opens one for the parameters, and runs the body there (`Eval.enter_eq`). Whatever the
body keeps, the caller gets its scopes back as they were (`Eval.leaveCall_eq`): the machine after a
call is `Machine.resume`, in which only heap, console, log and the next scope identity come from the
callee.

The events logged on the way all belong to the transcript of a run, apart from the mark that a body
is about to run, and none of them is the begin of an expression; the statements below say so and
leave the events themselves open.
-/

namespace ScopeScript

open Eval

/-- Whether an event has a line in the transcript of a run, other than the begin of an
expression. -/
def Event.isSpoken : Event → Bool
  | .running _ | .adding _ _ | .entering _ | .exiting _ | .calling _ _ | .detaching _ _ => true
  | _ => false

theorem Event.line?_of_isSpoken {ev : Event} (h : ev.isSpoken = true) : ev.line?.isSome := by
  cases ev with
  | running | adding | entering | exiting | calling | detaching => rfl
  | _ => cases h

/-- Every event of a list has a line in the transcript of a run, and none is the begin of an
expression. -/
def Spoken (events : List Event) : Prop :=
  ∀ ev ∈ events, ev.isSpoken = true

theorem Spoken.append {xs ys : List Event} (hx : Spoken xs) (hy : Spoken ys) : Spoken (xs ++ ys) :=
  fun ev hev => (List.mem_append.mp hev).elim (hx ev) (hy ev)

theorem Spoken.singleton {ev : Event} (h : ev.isSpoken = true) : Spoken [ev] := by
  intro ev' hev'
  obtain rfl := List.mem_singleton.mp hev'
  exact h

namespace Machine

/-- The machine with one scope identity used up. -/
def spend (m : Machine) : Machine :=
  { m with scopes := { m.scopes with fresh := m.scopes.fresh + 1 } }

theorem openScope_eq (m : Machine) :
    m.openScope = m.spend.withScopes (⟨m.scopes.fresh, []⟩ :: m.scopes.scopes)
      [.entering (m.scopes.depth + 1)] := rfl

/-- The machine after a scope was opened and closed again. -/
def probed (m : Machine) (events : List Event) : Machine :=
  m.spend.withScopes m.scopes.scopes events

/-- The function that a definition makes. -/
def closure (m : Machine) (params : List String) (body : Expr) : Function :=
  { params, body, numParams := params.length, scopeDepth := m.scopes.depth, home := m.scopes.ids }

/-- The scopes, innermost first, on which the body of a function runs. -/
def visible (m : Machine) (f : Function) : List Scope :=
  (m.scopes.detach f.scopeDepth).2.scopes

/-- The machine of a caller after the callee's scope was closed and the caller's scopes were put
back. -/
def resume (caller callee : Machine) : Machine :=
  callee.withScopes caller.scopes.scopes [.exiting (callee.scopes.depth - 1)]

/-- A name that is taken cannot be declared. -/
theorem declare_of_find? (m : Machine) (e : Entry) {old : Entry}
    (h : m.scopes.find? e.name = some old) : m.declare e = m := by
  unfold ScopeStack.find? at h
  unfold declare ScopeStack.add?
  cases hs : m.scopes.scopes with
  | nil => rfl
  | cons s outer =>
    simp only [hs] at h
    simp only [h]

/-- An entry that is declared where there is a scope either is added or finds its name taken. -/
theorem declare_cons (m : Machine) (e : Entry) {s : Scope} {outer : List Scope}
    (hs : m.scopes.scopes = s :: outer) :
    (s.find? e.name = none ∧
        m.declare e = m.withScopes (s.insert e :: outer) [.adding e.name e.info.kind]) ∨
      (∃ old, s.find? e.name = some old) ∧ m.declare e = m := by
  have htop : m.scopes.find? e.name = s.find? e.name := by simp only [ScopeStack.find?, hs]
  cases hfind : s.find? e.name with
  | some old => exact .inr ⟨⟨old, rfl⟩, m.declare_of_find? e (htop.trans hfind)⟩
  | none =>
    obtain ⟨hnil, -⟩ | ⟨s', outer', hs', -, heq⟩ := m.declare_cases e (htop.trans hfind)
    · rw [hs] at hnil
      cases hnil
    · rw [hs, List.cons.injEq] at hs'
      obtain ⟨rfl, rfl⟩ := hs'
      exact .inl ⟨rfl, heq⟩

theorem closeScope?_cons (m : Machine) {s : Scope} {outer : List Scope}
    (hs : m.scopes.scopes = s :: outer) :
    m.closeScope? = some (m.withScopes outer [.exiting outer.length]) := by
  simp only [closeScope?, ScopeStack.pop, hs]
  rfl

end Machine

namespace Eval

theorem closeScope_cons (e : Expr) (m : Machine) {s : Scope} {outer : List Scope}
    (hs : m.scopes.scopes = s :: outer) :
    closeScope e m = .ok () (m.withScopes outer [.exiting outer.length]) := by
  simp only [closeScope, m.closeScope?_cons hs]

/-! ### Definitions -/

theorem declareParams_cons (e : Expr) (p : String) (ps : List String) (m : Machine) :
    declareParams e (p :: ps) m =
      match m.scopes.find? p with
      | some _ => (do closeScope e; fail e .multiplyDefinedIdent : Eval Unit) m
      | none => declareParams e ps (m.declare ⟨p, .param, none⟩) := by
  show (match m.scopes.find? p with
      | some _ => (do closeScope e; fail e .multiplyDefinedIdent : Eval Unit)
      | none => do modify (Machine.declare · ⟨p, .param, none⟩); declareParams e ps) m = _
  cases m.scopes.find? p <;> rfl

/-- Declaring parameters adds one entry for each to the innermost scope, or closes that scope
because one of them is repeated. -/
theorem declareParams_cases (e : Expr) (ps : List String) (m : Machine) (s : Scope)
    (outer : List Scope) (hs : m.scopes.scopes = s :: outer) :
    ∃ events, Spoken events ∧
      ((∃ entries,
        declareParams e ps m = .ok () (m.withScopes ({ s with entries } :: outer) events) ∧
          entries.length = s.entries.length + ps.length ∧ ps.Nodup ∧ ∀ p ∈ ps, s.find? p = none) ∨
        declareParams e ps m =
          .error (.error (.semantic ⟨.multiplyDefinedIdent, none⟩ e.span))
            (m.withScopes outer events)) := by
  induction ps generalizing m s with
  | nil =>
    refine ⟨[], by simp [Spoken], .inl ⟨s.entries, ?_, rfl, .nil, by simp⟩⟩
    show EStateM.Result.ok () m = _
    rw [m.withScopes_self hs]
  | cons p ps ih =>
    have htop : m.scopes.find? p = s.find? p := by simp only [ScopeStack.find?, hs]
    rw [declareParams_cons, htop]
    rcases m.declare_cons ⟨p, .param, none⟩ hs with ⟨hnew, heq⟩ | ⟨⟨old, hold⟩, -⟩
    · rw [show s.find? p = none from hnew, heq]
      obtain ⟨events, hspoken, hcases⟩ := ih (m.withScopes (s.insert ⟨p, .param, none⟩ :: outer)
        [.adding p .ofInt]) (s.insert ⟨p, .param, none⟩) rfl
      simp only [Machine.withScopes_withScopes] at hcases
      refine ⟨events ++ [.adding p .ofInt], hspoken.append (.singleton rfl), ?_⟩
      rcases hcases with ⟨entries, hok, hlen, hnodup, hfree⟩ | herror
      · have hp : p ∉ ps := by
          intro hmem
          have hself : (s.insert ⟨p, .param, none⟩).find? p = _ := s.find?_insert_self _
          rw [hfree p hmem] at hself
          cases hself
        refine .inl ⟨entries, hok, ?_, List.nodup_cons.mpr ⟨hp, hnodup⟩, ?_⟩
        · rw [hlen, List.length_cons]
          show s.entries.length + 1 + ps.length = _
          omega
        · intro q hq
          rcases List.mem_cons.mp hq with rfl | hq
          · exact hnew
          · have hne : q ≠ p := fun h => hp (h ▸ hq)
            exact (s.find?_insert_of_ne ⟨p, .param, none⟩ hne).symm.trans (hfree q hq)
      · exact .inr herror
    · rw [show s.find? p = some old from hold]
      refine ⟨[.exiting outer.length], .singleton rfl, .inr ?_⟩
      exact bind_of_ok (closeScope_cons e m hs)

/-- A definition yields a new function that remembers the open scopes, or fails because of a
repeated parameter. The scopes are the same before and after. -/
theorem evalFunction_cases (e : Expr) (ps : List String) (body : Expr) (m : Machine) :
    ∃ events, Spoken events ∧
      ((ps.Nodup ∧ evalFunction e ps body m =
          .ok (.function m.heap.functions.size)
            { m.probed events with heap := (m.heap.newFunction (m.closure ps body)).2 }) ∨
        evalFunction e ps body m =
          .error (.error (.semantic ⟨.multiplyDefinedIdent, none⟩ e.span)) (m.probed events)) := by
  obtain ⟨events, hspoken, hcases⟩ := declareParams_cases e ps m.openScope ⟨m.scopes.fresh, []⟩
    m.scopes.scopes rfl
  have hentering : Spoken [.entering (m.scopes.depth + 1)] := .singleton rfl
  simp only [m.openScope_eq, Machine.withScopes_withScopes] at hcases
  rw [evalFunction, get_bind, modify_bind, m.openScope_eq]
  rcases hcases with ⟨entries, hok, hlen, hnodup, -⟩ | herror
  · refine ⟨[.exiting m.scopes.depth] ++ (events ++ [.entering (m.scopes.depth + 1)]),
      .append (.singleton rfl) (hspoken.append hentering), .inl ⟨hnodup, ?_⟩⟩
    have hnum : entries.length = ps.length := by simpa using hlen
    rw [bind_of_ok hok, get_bind,
      bind_of_ok (closeScope_cons e _ (Machine.withScopes_scopes _ _ _)),
      Machine.withScopes_withScopes]
    show EStateM.Result.ok _ _ = _
    simp only [Machine.closure, ← hnum]
    rfl
  · refine ⟨events ++ [.entering (m.scopes.depth + 1)], hspoken.append hentering, .inr ?_⟩
    rw [bind_of_error herror]
    rfl

/-! ### Calls -/

/-- An entry of the scope in which the body of a function begins. -/
def IsArgument (e : Entry) : Prop :=
  ∃ p n, e = ⟨p, .param, some (.int n)⟩

/-- Binding parameters adds nothing but arguments to the innermost scope. -/
theorem bindParams_eq (ps : List String) (ns : List Int64) (m : Machine) (s : Scope)
    (outer : List Scope) (hs : m.scopes.scopes = s :: outer) :
    ∃ entries events, bindParams m ps ns = m.withScopes ({ s with entries } :: outer) events ∧
      (∀ e ∈ entries, e ∈ s.entries ∨ IsArgument e) ∧ Spoken events := by
  have hdone : ∃ entries events, m = m.withScopes ({ s with entries } :: outer) events ∧
      (∀ e ∈ entries, e ∈ s.entries ∨ IsArgument e) ∧ Spoken events :=
    ⟨s.entries, [], (m.withScopes_self hs).symm, fun e he => .inl he, by simp [Spoken]⟩
  induction ps generalizing ns m s with
  | nil => exact hdone
  | cons p ps ih =>
    cases ns with
    | nil => exact hdone
    | cons n ns =>
      have hrest := ih ns (m.declare ⟨p, .param, some (.int n)⟩)
      rw [bindParams]
      rcases m.declare_cons ⟨p, .param, some (.int n)⟩ hs with ⟨-, heq⟩ | ⟨-, heq⟩
      · rw [heq] at hrest ⊢
        obtain ⟨entries, events, heq', hargs, hspoken⟩ := hrest
          (s.insert ⟨p, .param, some (.int n)⟩) rfl ⟨_, [], rfl,
            fun e he => .inl he, by simp [Spoken]⟩
        refine ⟨entries, events ++ [.adding p .ofInt], ?_, ?_, hspoken.append (.singleton rfl)⟩
        · rw [heq', Machine.withScopes_withScopes]
          rfl
        · intro e he
          rcases hargs e he with he | he
          · rcases List.mem_cons.mp he with rfl | he
            · exact .inr ⟨p, n, rfl⟩
            · exact .inl he
          · exact .inr he
      · rw [heq] at hrest ⊢
        exact hrest s hs hdone

/-- Setting scopes aside leaves the visible ones. -/
theorem detach_eq (m : Machine) (f : Function) :
    ∃ events, Spoken events ∧
      m.detach f.scopeDepth =
        ((m.scopes.detach f.scopeDepth).1, m.withScopes (m.visible f) events) := by
  unfold Machine.detach
  by_cases hnone : (m.scopes.detach f.scopeDepth).1.isEmpty
  · refine ⟨[], by simp [Spoken], ?_⟩
    simp only [hnone, if_true]
    rfl
  · refine ⟨[.detaching (m.scopes.detach f.scopeDepth).2.depth
      (m.scopes.detach f.scopeDepth).1.length], .singleton rfl, ?_⟩
    simp only [hnone]
    rfl

/-- The body of a function runs on the visible scopes and a new one that holds nothing but
arguments. -/
theorem enter_eq (m : Machine) (id : FunctionId) (f : Function) (args : List Int64) :
    ∃ (s : Scope) (events : List Event), s.id = m.scopes.fresh ∧ (∀ e ∈ s.entries, IsArgument e) ∧
      Spoken events ∧
      enter m id f args = ((m.scopes.detach f.scopeDepth).1, m.spend.withScopes (s :: m.visible f)
        (.opened id ((m.visible f).map (·.id)) m.scopes.ids :: events)) := by
  obtain ⟨before, hbefore, hdetach⟩ := detach_eq m f
  obtain ⟨entries, events, hbind, hargs, hspoken⟩ := bindParams_eq f.params args
    (m.withScopes (m.visible f) before).openScope ⟨m.scopes.fresh, []⟩ (m.visible f) rfl
  refine ⟨⟨m.scopes.fresh, entries⟩,
    events ++ ([.entering ((m.visible f).length + 1)] ++ before), rfl, ?_,
    hspoken.append (.append (.singleton rfl) hbefore), ?_⟩
  · intro e he
    exact (hargs e he).resolve_left List.not_mem_nil
  · simp only [enter, hdetach, hbind]
    rw [Machine.openScope_eq, Machine.withScopes_withScopes]
    simp only [Machine.withScopes, Machine.spend, Machine.note, ScopeStack.depth, ScopeStack.ids,
      List.cons_append, List.append_assoc, List.nil_append]

/-- Leaving a call puts the caller's scopes back as they were, if the body has kept its own. -/
theorem leaveCall_eq (e : Expr) {m m' : Machine} {id : FunctionId} {f : Function}
    {args : List Int64} (h : (enter m id f args).2.Kept m') (ended : Except Stop Value) :
    leaveCall e (enter m id f args).1 ended m' =
      match ended with
      | .ok v => .ok v (m.resume m')
      | .error .brk => .ok .null (m.resume m')
      | .error .nxt => .ok .null (m.resume m')
      | .error stop => .error stop (m.resume m') := by
  obtain ⟨s, events, -, -, -, henter⟩ := enter_eq m id f args
  rw [henter] at h ⊢
  obtain ⟨s', hs', -⟩ := h.stack.exists_of_cons
  have hback : (m'.withScopes (m.visible f) [.exiting (m.visible f).length]).reattach
      (m.scopes.detach f.scopeDepth).1 = m.resume m' := by
    have hall : (m.scopes.detach f.scopeDepth).1 ++ m.visible f = m.scopes.scopes :=
      List.take_append_drop _ _
    have hdepth : m'.scopes.depth - 1 = (m.visible f).length := by
      rw [ScopeStack.depth, hs']
      rfl
    rw [Machine.resume, hdepth, ← hall]
    rfl
  cases ended with
  | ok v => simp only [leaveCall, m'.closeScope?_cons hs', hback]
  | error stop => cases stop <;> simp only [leaveCall, m'.closeScope?_cons hs', hback]

end Eval

end ScopeScript
