import ScopeScript.Proofs.LogLaw

/-!
# Expressions under evaluation

The log notes where the evaluation of an expression begins and where it ends, so it tells how many
are under way at any time (`underWay`). The machine has a counter of its own for them, and it is
this counter that the limit is compared with. The two agree throughout every run, and neither ever
passes the limit (`Machine.Counts`), whatever the way in which evaluations end: each of them lowers
the counter again that it has raised.

An overflow of the stack can be told from the log, where it is noted as the end of each expression
that it leaves, and from how the run ends (`Overflowed`). It arises only where the counter stands at
the limit.

* `Law.counting`: the invariant of evaluation.
* `Machine.counts_run`, `Machine.overflowed_run`: what holds of a run, to its end.
-/

namespace ScopeScript

/-! ### Counting -/

/-- What an event changes in the number of expressions under evaluation. -/
def Event.nesting : Event → Int
  | .evaluating _ _ => 1
  | .left _ _ => -1
  | _ => 0

/-- Number of expressions that have begun and not yet ended, according to a log. -/
def underWay : List Event → Int
  | [] => 0
  | ev :: earlier => ev.nesting + underWay earlier

/-- The depth and the limit that an event notes if an expression is left because the stack
overflows. -/
def Event.overflow? : Event → Option (Nat × Nat)
  | .left _ (some (.error (.resource (.stackOverflow depth limit) _))) => some (depth, limit)
  | _ => none

/-- An event that counts for nothing: no expression begins or ends. -/
def Event.IsIdle (ev : Event) : Prop :=
  ev.nesting = 0 ∧ ev.overflow? = none

theorem Event.isIdle_of_isSpoken {ev : Event} (h : ev.isSpoken = true) : ev.IsIdle := by
  cases ev with
  | evaluating | left => cases h
  | _ => exact ⟨rfl, rfl⟩

/-- Events, newest first, that lead from one number of expressions under evaluation to another one:
there are never less of them than at first and never more than the limit, and the stack overflows at
the limit only. -/
structure CountsTo (first limit : Nat) (events : List Event) (depth : Nat) : Prop where
  depth : (depth : Int) = first + underWay events
  within : ∀ earlier, earlier <:+ events → 0 ≤ underWay earlier ∧ first + underWay earlier ≤ limit
  overflow : ∀ ev ∈ events, ∀ reported, ev.overflow? = some reported → reported = (limit, limit)

namespace CountsTo

variable {first limit depth depth' : Nat} {events : List Event}

theorem nil (h : first ≤ limit) : CountsTo first limit [] first := by
  refine ⟨(Int.add_zero _).symm, fun earlier hearlier => ?_, by simp⟩
  rw [List.suffix_nil.mp hearlier]
  exact ⟨Int.le_refl 0, by simpa [underWay] using h⟩

theorem first_le (h : CountsTo first limit events depth) : first ≤ depth := by
  have hwithin := (h.within events (List.suffix_refl _)).1
  have hdepth := h.depth
  omega

theorem le_limit (h : CountsTo first limit events depth) : depth ≤ limit := by
  have hwithin := (h.within events (List.suffix_refl _)).2
  have hdepth := h.depth
  omega

/-- One more event, after which the number is still in its bounds. -/
theorem cons (h : CountsTo first limit events depth) (ev : Event)
    (hdepth : (depth' : Int) = depth + ev.nesting)
    (hfirst : first ≤ depth') (hlimit : depth' ≤ limit)
    (hoverflow : ∀ reported, ev.overflow? = some reported → reported = (limit, limit)) :
    CountsTo first limit (ev :: events) depth' := by
  have hnow : (depth' : Int) = first + underWay (ev :: events) := by
    rw [underWay, hdepth, h.depth]
    omega
  refine ⟨hnow, fun earlier hearlier => ?_, List.forall_mem_cons.mpr ⟨hoverflow, h.overflow⟩⟩
  rcases List.suffix_cons_iff.mp hearlier with rfl | hearlier
  · omega
  · exact h.within earlier hearlier

theorem idle (h : CountsTo first limit events depth) {new : List Event}
    (hnew : ∀ ev ∈ new, ev.IsIdle) :
    CountsTo first limit (new ++ events) depth := by
  induction new with
  | nil => exact h
  | cons ev new ih =>
    obtain ⟨⟨hzero, hnone⟩, hrest⟩ := List.forall_mem_cons.mp hnew
    have hcounts := ih hrest
    refine hcounts.cons ev (by rw [hzero, Int.add_zero]) hcounts.first_le hcounts.le_limit
      fun reported hreported => ?_
    rw [hnone] at hreported
    cases hreported

end CountsTo

/-! ### The invariant of evaluation -/

/-- The counter of a machine agrees with what the log says since an earlier machine. -/
def Machine.Counts (lim : Limits) (start m : Machine) : Prop :=
  ∃ events, m.log = events ++ start.log ∧ CountsTo start.depth lim.maxDepth events m.depth

namespace Machine.Counts

variable {lim : Limits} {start m m' : Machine}

theorem refl (h : start.depth ≤ lim.maxDepth) : Counts lim start start :=
  ⟨[], rfl, .nil h⟩

theorem le_maxDepth (h : Counts lim start m) : m.depth ≤ lim.maxDepth := by
  obtain ⟨events, -, hcounts⟩ := h
  exact hcounts.le_limit

theorem first_le (h : Counts lim start m) : start.depth ≤ m.depth := by
  obtain ⟨events, -, hcounts⟩ := h
  exact hcounts.first_le

theorem cons (h : Counts lim start m) (ev : Event) (hlog : m'.log = ev :: m.log)
    (hdepth : (m'.depth : Int) = m.depth + ev.nesting) (hfirst : start.depth ≤ m'.depth)
    (hlimit : m'.depth ≤ lim.maxDepth)
    (hoverflow : ∀ reported, ev.overflow? = some reported →
      reported = (lim.maxDepth, lim.maxDepth)) :
    Counts lim start m' := by
  obtain ⟨events, hevents, hcounts⟩ := h
  exact ⟨ev :: events, by rw [hlog, hevents, List.cons_append],
    hcounts.cons ev hdepth hfirst hlimit hoverflow⟩

/-- Events that count for nothing leave the counter as it is. -/
theorem idle (h : Counts lim start m) (new : List Event) (hlog : m'.log = new ++ m.log)
    (hdepth : m'.depth = m.depth)
    (hnew : ∀ ev ∈ new, ev.IsIdle) : Counts lim start m' := by
  obtain ⟨events, hevents, hcounts⟩ := h
  refine ⟨new ++ events, by rw [hlog, hevents, List.append_assoc], ?_⟩
  rw [hdepth]
  exact hcounts.idle hnew

theorem of_eq (h : Counts lim start m) (hlog : m'.log = m.log) (hdepth : m'.depth = m.depth) :
    Counts lim start m' :=
  h.idle [] hlog hdepth (by simp)

theorem note (h : Counts lim start m) {ev : Event} (hev : ev.IsIdle) (hlog : m'.log = ev :: m.log)
    (hdepth : m'.depth = m.depth) : Counts lim start m' :=
  h.idle [ev] hlog hdepth (List.forall_mem_singleton.mpr hev)

theorem spoken (h : Counts lim start m) {new : List Event} (hnew : Spoken new)
    (hlog : m'.log = new ++ m.log)
    (hdepth : m'.depth = m.depth) : Counts lim start m' :=
  h.idle new hlog hdepth fun ev hev => Event.isIdle_of_isSpoken (hnew ev hev)

theorem move {Fits : Machine → Value → Prop} (h : Counts lim start m) (hmove : Move Fits m m') :
    Counts lim start m' := by
  cases hmove with
  | announce | bind | store | print | read | credit => exact h.note ⟨rfl, rfl⟩ rfl rfl
  | refuse | skip => exact h.of_eq rfl rfl
  | probe events hspoken => exact h.spoken hspoken rfl rfl
  | declare name info _ hnew =>
    rcases m.declare_cases ⟨name, info, none⟩ hnew with ⟨-, heq⟩ | ⟨s, outer, -, -, heq⟩
    · rw [heq]
      exact h
    · rw [heq]
      exact h.note ⟨rfl, rfl⟩ rfl rfl

theorem enter (h : Counts lim start m) (id : FunctionId) (f : Function) (args : List Int64) :
    Counts lim start (Eval.enter m id f args).2 := by
  obtain ⟨s, events, -, -, hspoken, henter⟩ := Eval.enter_eq m id f args
  rw [henter]
  refine h.idle (_ :: events) rfl rfl (List.forall_mem_cons.mpr ⟨⟨rfl, rfl⟩, fun ev hev => ?_⟩)
  exact Event.isIdle_of_isSpoken (hspoken ev hev)

end Machine.Counts

/-- The stack overflows only where the counter stands at the limit. -/
theorem Arises.overflow_eq {lim : Limits} {Admits : Expr → Prop} {start m : Machine}
    {depth limit : Nat} {span : Span} (hcounts : Machine.Counts lim start m)
    (h : Arises lim Admits m (.error (.resource (.stackOverflow depth limit) span))) :
    depth = lim.maxDepth ∧ limit = lim.maxDepth := by
  generalize hstop : Stop.error (.resource (.stackOverflow depth limit) span) = stop at h
  cases h with
  | overflow span hfull =>
    cases hstop
    exact ⟨Nat.le_antisymm hcounts.le_maxDepth hfull, rfl⟩
  | exhausted e =>
    unfold Limits.exhausted at hstop
    split at hstop <;> cases hstop
  | _ => cases hstop

/-- **The law of counting**: the counter agrees with the log, and never passes the limit. -/
def Law.counting (lim : Limits) (start : Machine) : Law lim where
  Admits _ := True
  Inv := Machine.Counts lim start
  Step _ _ := True
  Fits _ _ := True
  admits_part _ _ := trivial
  step_refl _ := trivial
  step_trans _ _ := trivial
  fits_step _ _ _ := trivial
  fits_atom _ := trivial
  fits_literal _ := trivial
  fits_input _ := trivial
  fits_lookup _ _ := trivial
  fits_item _ _ _ := trivial
  move h hmove := ⟨h.move hmove, trivial⟩
  newList _ h := ⟨h.of_eq rfl rfl, trivial, trivial⟩
  newFunction _ _ h := ⟨h.of_eq rfl rfl, trivial, trivial⟩
  begin {m e} h hroom := by
    refine h.cons (.evaluating e.kindName e.span) rfl rfl (Nat.le_succ_of_le h.first_le) hroom
      fun _ heq => ?_
    cases heq
  finish {m m' e stop} h hkept h' _ hstop := by
    have hdepth : m'.depth = m.depth + 1 := hkept.depth
    have hback : (m'.finish e stop).depth = m.depth := by
      show m'.depth - 1 = m.depth
      rw [hdepth, Nat.add_sub_cancel]
    refine ⟨h'.cons (.left e.span stop) rfl ?_ (hback ▸ h.first_le) (hback ▸ h.le_maxDepth) ?_,
      trivial⟩
    · rw [hback, hdepth, Event.nesting]
      omega
    · -- an expression is left because of an overflow that arose further in
      intro reported hreported
      match stop, hreported with
      | some (.error (.resource (.stackOverflow depth limit) span)), hreported =>
        obtain ⟨at', hat, harises⟩ := hstop _ rfl
        obtain ⟨rfl, rfl⟩ := harises.overflow_eq hat
        cases hreported
        rfl
  fits_finish _ := trivial
  forget _ _ _ h' _ := ⟨h'.of_eq rfl rfl, trivial⟩
  enter h _ := ⟨h.enter _ _ _, trivial⟩
  leave _ _ _ h' _ := ⟨h'.note ⟨rfl, rfl⟩ rfl rfl, trivial⟩
  fits_leave _ _ _ _ _ _ _ := trivial

/-! ### Runs -/

/-- The stack overflowed in a run, at the given depth and under the given limit: the run failed so,
or one of the expressions that were evaluated. -/
inductive Overflowed (m : Machine) (r : Ending × Machine) (depth limit : Nat) : Prop where
  | failed (span : Span) (h : r.1 = .failed (.resource (.stackOverflow depth limit) span)) :
      Overflowed m r depth limit
  | left (events : List Event) (hlog : r.2.log = events ++ m.log) (ev : Event) (hev : ev ∈ events)
      (h : ev.overflow? = some (depth, limit)) : Overflowed m r depth limit

namespace Machine

variable {lim : Limits} {m : Machine}

/-- **A run counts** the expressions under evaluation and does not pass the limit; at its end the
counter is where it was at the begin. -/
theorem counts_run (p : Program) (h : m.depth ≤ lim.maxDepth) :
    Counts lim m (m.run lim p).2 ∧ (m.run lim p).2.depth = m.depth := by
  obtain ⟨m', hleads, hcloses⟩ := (Law.counting lim m).run (p := p) (fun _ _ => trivial) (.refl h)
  have hcounts : Counts lim m m' := hleads.inv
  rcases hcloses.abandoned_or_kept with ⟨e, c, events, -, hspoken, heq⟩ | ⟨c, heq, -⟩
  · rw [heq]
    exact ⟨hcounts.spoken hspoken rfl rfl, hleads.kept.depth⟩
  · rw [heq]
    exact ⟨hcounts.of_eq rfl rfl, hleads.kept.depth⟩

/-- **Where the stack overflows the limit is reached**, and reported. -/
theorem overflowed_run {p : Program} (h : m.depth ≤ lim.maxDepth) {depth limit : Nat}
    (hoverflow : Overflowed m (m.run lim p) depth limit) : depth = lim.maxDepth ∧
    limit = lim.maxDepth := by
  cases hoverflow with
  | failed span hfailed =>
    obtain ⟨m', -, hcloses⟩ := (Law.counting lim m).run (p := p) (fun _ _ => trivial) (.refl h)
    rcases hcloses.abandoned_or_kept with ⟨e, c, events, hraises, -, heq⟩ | ⟨c, -, hkept⟩
    · rw [heq] at hfailed
      cases hfailed
      obtain ⟨at', hat, harises⟩ := hraises
      exact harises.overflow_eq hat
    · cases hkept _ hfailed
  | left events hlog ev hev hreport =>
    obtain ⟨⟨events', hlog', hcounts⟩, -⟩ := counts_run p h
    obtain rfl : events = events' := List.append_cancel_right (hlog.symm.trans hlog')
    exact Prod.mk.inj (hcounts.overflow ev hev _ hreport)

end Machine

end ScopeScript
