import ScopeScript.Proofs.Law

/-!
# Laws about the log

The log only grows. A `LogLaw` says which events evaluation adds to it, starting from machines with
a given shape of the scope stack; it is a special case of a law (`LogLaw.toLaw`) in which values do
not matter, so that what is left to prove concerns the events alone. Events with a line in the
transcript are always allowed.

What is said of expressions reaches to the end of a run (`LogLaw.logs_run`), because a run ends in
one of two ways: evaluation failed and all scopes were closed, or they are still there and nothing
but the flush can have failed (`Law.Closes.abandoned_or_kept`).
-/

namespace ScopeScript

/-- The log of the second machine is that of the first one and further events on top, each of which
meets the condition. -/
def Machine.Logs (P : Event → Prop) (m m' : Machine) : Prop :=
  ∃ events, m'.log = events ++ m.log ∧ ∀ ev ∈ events, P ev

namespace Machine.Logs

variable {P : Event → Prop} {a b c m m' : Machine}

theorem of_eq (h : m'.log = m.log) : Logs P m m' := ⟨[], h, by simp⟩

theorem refl (m : Machine) : Logs P m m := of_eq rfl

theorem trans (hab : Logs P a b) (hbc : Logs P b c) : Logs P a c := by
  obtain ⟨xs, hxs, hx⟩ := hab
  obtain ⟨ys, hys, hy⟩ := hbc
  refine ⟨ys ++ xs, by rw [hys, hxs, List.append_assoc], ?_⟩
  intro ev hev
  rcases List.mem_append.mp hev with hev | hev
  · exact hy ev hev
  · exact hx ev hev

theorem cons {ev : Event} (h : m'.log = ev :: m.log) (hev : P ev) : Logs P m m' :=
  ⟨[ev], h, by simpa using hev⟩

theorem spoken (hP : ∀ {ev}, ev.line?.isSome → P ev) {events : List Event} (hevents : Spoken events)
    (h : m'.log = events ++ m.log) : Logs P m m' :=
  ⟨events, h, fun ev hev => hP (Event.line?_of_isSpoken (hevents ev hev))⟩

end Machine.Logs

/-- A statement about the events of every evaluation under the given limits. -/
structure LogLaw (lim : Limits) where
  /-- What is known of the open scopes, innermost first. -/
  Inv : List Scope → Prop
  /-- What evaluation may log. -/
  Allows : Event → Prop
  inv_kept : ∀ {scopes scopes'}, StackKept scopes scopes' → Inv scopes → Inv scopes'
  inv_enter : ∀ {m : Machine} {name id f args}, Inv m.scopes.scopes → Calls m name id f args →
    Inv (Eval.enter m id f args).2.scopes.scopes
  spoken : ∀ {ev : Event}, ev.line?.isSome → Allows ev
  bound : ∀ {m : Machine} {name old}, Inv m.scopes.scopes → m.scopes.find? name = some old →
    ∀ v, Allows (.bound name v)
  stored : ∀ {m : Machine} {name old}, Inv m.scopes.scopes → m.scopes.find? name = some old →
    ∀ id k v, Allows (.stored id k v)
  opened : ∀ {m : Machine} {name id f args}, Inv m.scopes.scopes → Calls m name id f args →
    ∀ below caller, Allows (.opened id below caller)
  returned : ∀ id c, Allows (.returned id c)
  printed : ∀ text, Allows (.printed text)
  consumed : ∀ line, Allows (.consumed line)
  left : ∀ {stop : Option Stop},
    (∀ s, stop = some s → ∃ m : Machine, Inv m.scopes.scopes ∧ Arises lim (fun _ => True) m s) →
      ∀ span, Allows (.left span stop)

namespace LogLaw

variable {lim : Limits} (K : LogLaw lim) {m m' : Machine}

theorem logs_declare (e : Entry) (hnew : m.scopes.find? e.name = none) :
    Machine.Logs K.Allows m (m.declare e) := by
  rcases m.declare_cases e hnew with ⟨-, heq⟩ | ⟨s, outer, -, -, heq⟩
  · rw [heq]
    exact .refl m
  · rw [heq]
    exact .cons rfl (K.spoken rfl)

theorem logs_move {Fits : Machine → Value → Prop} (h : K.Inv m.scopes.scopes)
    (hmove : Move Fits m m') : Machine.Logs K.Allows m m' := by
  cases hmove with
  | announce name args => exact .cons rfl (K.spoken rfl)
  | declare name info _ hnew => exact K.logs_declare _ hnew
  | bind name v old stack hold => exact .cons rfl (K.bound h hold v)
  | store name id k v heap htarget =>
    obtain ⟨old, hold, -⟩ := Option.bind_eq_some_iff.mp htarget
    exact .cons rfl (K.stored h hold id k v)
  | print v console => exact .cons rfl (K.printed _)
  | refuse => exact .of_eq rfl
  | read line console => exact .cons rfl (K.consumed line)
  | skip => exact .of_eq rfl
  | probe events hspoken => exact .spoken K.spoken hspoken rfl
  | credit id v => exact .cons rfl (K.returned id _)

theorem logs_enter {name : String} {id : FunctionId} {f : Function} {args : List Int64}
    (h : K.Inv m.scopes.scopes) (hcall : Calls m name id f args) :
    Machine.Logs K.Allows m (Eval.enter m id f args).2 := by
  obtain ⟨s, events, -, -, hspoken, henter⟩ := Eval.enter_eq m id f args
  rw [henter]
  refine ⟨_ :: events, rfl, ?_⟩
  intro ev hev
  rcases List.mem_cons.mp hev with rfl | hev
  · exact K.opened h hcall _ _
  · exact K.spoken (Event.line?_of_isSpoken (hspoken ev hev))

/-- A statement about the log is a law for which values do not matter. -/
def toLaw : Law lim where
  Admits _ := True
  Inv m := K.Inv m.scopes.scopes
  Step := Machine.Logs K.Allows
  Fits _ _ := True
  admits_part _ _ := trivial
  step_refl := .refl
  step_trans := .trans
  fits_step _ _ _ := trivial
  fits_atom _ := trivial
  fits_literal _ := trivial
  fits_input _ := trivial
  fits_lookup _ _ := trivial
  fits_item _ _ _ := trivial
  move h hmove := ⟨K.inv_kept hmove.kept.stack h, K.logs_move h hmove⟩
  newList _ h := ⟨h, .of_eq rfl, trivial⟩
  newFunction _ _ h := ⟨h, .of_eq rfl, trivial⟩
  begin h _ := h
  finish h hkept _ hlogs hstop :=
    ⟨K.inv_kept hkept.stack h,
      .trans (.cons rfl (K.spoken rfl)) (hlogs.trans (.cons rfl (K.left hstop _)))⟩
  fits_finish _ := trivial
  forget h hnew hkept _ hlogs :=
    ⟨K.inv_kept (Machine.Kept.forget hnew hkept).stack h,
      (K.logs_declare _ hnew).trans (hlogs.trans (.of_eq rfl))⟩
  enter h hcall := ⟨K.inv_enter h hcall, trivial⟩
  leave h hcall _ _ hlogs :=
    ⟨h, (K.logs_enter h hcall).trans (hlogs.trans (.cons rfl (K.spoken rfl)))⟩
  fits_leave _ _ _ _ _ _ _ := trivial

end LogLaw

/-- Everything may be logged, on all machines. -/
def LogLaw.free (lim : Limits) : LogLaw lim where
  Inv _ := True
  Allows _ := True
  inv_kept _ _ := trivial
  inv_enter _ _ := trivial
  spoken _ := trivial
  bound _ _ _ := trivial
  stored _ _ _ _ _ := trivial
  opened _ _ _ _ := trivial
  returned _ _ := trivial
  printed _ := trivial
  consumed _ := trivial
  left _ _ := trivial

/-! ### The end of a run -/

/-- Flushing touches nothing but the console, and fails in one way only. -/
theorem flushed_cases (ending : Ending) (m : Machine) :
    ∃ c, flushed ending m = (ending, { m with console := c }) ∨
      flushed ending m = (.failed (.io .flushRefused), { m with console := c }) := by
  unfold flushed Console.flush
  refine ⟨m.console, ?_⟩
  split
  · rename_i hflush
    split at hflush
    · cases hflush
    · cases hflush
      exact .inl rfl
  · rename_i hflush
    split at hflush
    · cases hflush
      exact .inr rfl
    · cases hflush

theorem Machine.logClosing_eq (log : List Event) (n : Nat) :
    ∃ events, Spoken events ∧ logClosing log n = events ++ log := by
  induction n generalizing log with
  | zero => exact ⟨[], by simp [Spoken], rfl⟩
  | succ n ih =>
    obtain ⟨events, hspoken, heq⟩ := ih (.exiting n :: log)
    refine ⟨events ++ [.exiting n], hspoken.append (.singleton rfl), ?_⟩
    rw [logClosing, heq, List.append_assoc]
    rfl

/-- After an error the machine has no scope. -/
theorem abandon_eq (e : EvalError) (m : Machine) :
    ∃ c events, Spoken events ∧
      abandon e m = (.failed e, { m.withScopes [] events with console := c }) := by
  obtain ⟨events, hspoken, hlog⟩ := Machine.logClosing_eq m.log m.scopes.depth
  have hclose : m.closeAll = m.withScopes [] events := by
    rw [Machine.closeAll, hlog]
    rfl
  obtain ⟨c, heq | heq⟩ := flushed_cases .quit m.closeAll
  · exact ⟨c, events, hspoken, by rw [abandon, heq, hclose]⟩
  · exact ⟨c, events, hspoken, by rw [abandon, heq, hclose]⟩

/-- A run ends in one of two ways: evaluation failed and there is no scope any more, or the scopes
are as they were and nothing but the flush can have failed. -/
theorem Law.Closes.abandoned_or_kept {lim : Limits} {L : Law lim} {m : Machine}
    {r : Ending × Machine} (h : L.Closes m r) :
    (∃ e c events, L.Raises (.error e) ∧ Spoken events ∧
        r = (.failed e, { m.withScopes [] events with console := c })) ∨
      ∃ c, r.2 = { m with console := c } ∧ ∀ e, r.1 = .failed e → e = .io .flushRefused := by
  have hflushed : ∀ ending, (∀ e, ending ≠ .failed e) →
      ∃ c, (flushed ending m).2 = { m with console := c } ∧
        ∀ e, (flushed ending m).1 = .failed e → e = .io .flushRefused := by
    intro ending hending
    obtain ⟨c, heq | heq⟩ := flushed_cases ending m
    · rw [heq]
      exact ⟨c, rfl, fun e he => absurd he (hending e)⟩
    · rw [heq]
      refine ⟨c, rfl, fun e he => ?_⟩
      cases he
      rfl
  cases h with
  | completed _ => exact .inr (hflushed _ (by simp))
  | quit => exact .inr (hflushed _ (by simp))
  | failed he =>
    obtain ⟨c, events, hspoken, heq⟩ := abandon_eq _ m
    exact .inl ⟨_, c, events, he, hspoken, heq⟩
  | unfinished _ => exact .inr ⟨m.console, rfl, by simp⟩

namespace LogLaw

variable {lim : Limits} (K : LogLaw lim) {m m' : Machine}

/-- **The events of a run** are among those that the law allows, to the end of the run. -/
theorem logs_run (p : Program) (h : K.Inv m.scopes.scopes) :
    Machine.Logs K.Allows m (m.run lim p).2 := by
  obtain ⟨m', hleads, hcloses⟩ := K.toLaw.run (p := p) (fun _ _ => trivial) h
  refine hleads.step.trans ?_
  rcases hcloses.abandoned_or_kept with ⟨e, c, events, -, hspoken, heq⟩ | ⟨c, heq, -⟩
  · rw [heq]
    exact .spoken K.spoken hspoken rfl
  · rw [heq]
    exact .of_eq rfl

end LogLaw

end ScopeScript
