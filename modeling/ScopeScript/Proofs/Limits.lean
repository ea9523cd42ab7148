import ScopeScript.Proofs.Coupling

/-!
# Limits

A run that keeps within its limits does not notice them: under larger limits it ends in the same
way, with the same machine. A run that exceeds a limit has written the beginning of what it writes
under larger limits (`Machine.endsIn_of_limits_le`).

A loop without a limit may go on for ever. Evaluation gives it up after a number of rounds, the
patience of the limits, and says so. A run has an ending of its own only if it is the same for every
patience that is large enough; this is `Machine.EndsIn`. One run that is not given up is enough to
know (`Machine.endsIn_of_run`).

Both are about two runs side by side. The runs part only where the first one exceeds a limit
(`Coupling.limits`), or gives up a loop (`Coupling.patience`).
-/

namespace ScopeScript

open Eval

/-! ### Runs that differ in limits only -/

theorem Twin.same_ending (r : Ending) : same.ending r = r := by
  cases r with
  | failed e => cases e <;> rfl
  | _ => rfl

/-- Two runs of a program that differ in their limits only. -/
theorem Coupling.run_of_same {lim lim' : Limits} (C : Coupling lim lim') (h : C.toTwin = .same)
    (p : Program) (m : Machine) :
    m.run lim' p = m.run lim p ∨
      ∃ stop m₁, m.run lim p = concluded m₁ stop ∧ C.Parts stop m₁ (m.run lim' p).2 := by
  have hrun := C.run p m
  rw [h, Twin.map_same_expr, Twin.same_machine, Twin.same_machine, Twin.same_ending] at hrun
  exact hrun

/-- Whether evaluation stops because of a limit, or because a loop without one is given up. -/
def Stop.isLimit : Stop → Bool
  | .error (.resource _ _) | .unfinished => true
  | _ => false

/-- Whether a program ended because a limit was exceeded. -/
def Ending.isResource : Ending → Bool
  | .failed (.resource _ _) => true
  | _ => false

theorem Limits.isLimit_exhausted (lim : Limits) (e : Expr) : (lim.exhausted e).isLimit := by
  unfold exhausted
  cases lim.maxIterations <;> rfl

/-- The second run has larger limits. The runs part where the first one exceeds a limit, and what it
has written by then is the beginning of what the second one writes. -/
def Coupling.limits (lim lim' : Limits) (hdepth : lim.maxDepth ≤ lim'.maxDepth)
    (hrounds : lim.rounds ≤ lim'.rounds) (hloops : AtMost lim.maxIterations lim'.maxIterations) :
    Coupling lim lim' where
  toTwin := .same
  Parts stop m m' := stop.isLimit ∧
    ∃ rest, m'.console.sink.written = m.console.sink.written ++ rest
  fatal := by
    rintro stop m m' ⟨hstop, -⟩
    constructor <;> (rintro rfl; cases hstop)
  unwinds h _ hconsole := hconsole ▸ h
  continues h hcont := by
    obtain ⟨hstop, rest, hrest⟩ := h
    obtain ⟨more, hmore⟩ := hcont.output
    exact ⟨hstop, rest ++ more, by rw [hmore, hrest, String.append_assoc]⟩
  room := .inr ⟨hdepth, fun h => ⟨rfl, h.output⟩⟩
  loops := .inr ⟨⟨hrounds, hloops⟩, fun h => ⟨lim.isLimit_exhausted _, h.output⟩⟩
  prints _ := Twin.agrees_same _ _
  reads := Twin.agrees_same _ _
  flushes := Twin.same_refusesFlush

/-- The second run is more patient. The runs part where the first one gives up a loop. -/
def Coupling.patience (lim : Limits) {k : Nat} (hk : lim.patience ≤ k) :
    Coupling lim { lim with patience := k } where
  toTwin := .same
  Parts stop _ _ := stop = .unfinished
  fatal := by
    rintro stop m m' rfl
    exact ⟨Stop.noConfusion, Stop.noConfusion⟩
  unwinds h _ _ := h
  continues h _ := h
  room := .inl rfl
  loops := by
    cases hmax : lim.maxIterations with
    | some n => exact .inl ⟨rfl, by simp only [Limits.rounds, hmax, Option.getD_some]⟩
    | none =>
      refine .inr ⟨⟨?_, fun n hn => nomatch hn⟩, fun _ => by simp only [Limits.exhausted, hmax]⟩
      simpa only [Limits.rounds, hmax, Option.getD_none] using hk
  prints _ := Twin.agrees_same _ _
  reads := Twin.agrees_same _ _
  flushes := Twin.same_refusesFlush

/-! ### Endings -/

/-- The evaluation of an expression ends in this way: no loop is given up, however patient one
is. -/
def Eval.EndsIn (lim : Limits) (e : Expr) (m : Machine) (r : EStateM.Result Stop Machine Value) :
    Prop :=
  (∀ m', r ≠ .error .unfinished m') ∧ ∃ k, ∀ k' ≥ k, Eval.expr { lim with patience := k' } e m = r

theorem Eval.endsIn_of_expr {lim : Limits} {e : Expr} {m : Machine}
    (h : ∀ m', Eval.expr lim e m ≠ .error .unfinished m') :
    Eval.EndsIn lim e m (Eval.expr lim e m) := by
  refine ⟨h, lim.patience, fun k hk => ?_⟩
  rcases (Coupling.Follows.expr (C := Coupling.patience lim hk) e).agrees m with
    heq | ⟨stop, m₁, hstop, rfl⟩
  · change Eval.expr _ (Twin.same.expr e) (Twin.same.machine m) = Twin.same.result _ at heq
    rwa [Twin.same_expr, Twin.same_machine, Twin.same_result] at heq
  · exact absurd hstop (h m₁)

namespace Machine

variable {m : Machine} {lim lim' : Limits} {p : Program} {r : Ending × Machine}

/-- The run of a program ends in this way: no loop is given up, however patient one is. -/
def EndsIn (m : Machine) (lim : Limits) (p : Program) (r : Ending × Machine) : Prop :=
  r.1 ≠ .unfinished ∧ ∃ k, ∀ k' ≥ k, m.run { lim with patience := k' } p = r

/-- A run that was not given up would not be by anyone more patient. -/
theorem endsIn_of_run (h : (m.run lim p).1 ≠ .unfinished) : m.EndsIn lim p (m.run lim p) := by
  refine ⟨h, lim.patience, fun k hk => ?_⟩
  rcases (Coupling.patience lim hk).run_of_same rfl p m with heq | ⟨stop, m₁, hrun, rfl⟩
  · exact heq
  · rw [hrun] at h
    exact absurd rfl h

/-- A run ends in one way only. -/
theorem EndsIn.unique {r' : Ending × Machine} (h : m.EndsIn lim p r) (h' : m.EndsIn lim p r') :
    r = r' := by
  obtain ⟨-, k, hk⟩ := h
  obtain ⟨-, k', hk'⟩ := h'
  rw [← hk _ (Nat.le_max_left k k'), hk' _ (Nat.le_max_right k k')]

/-- With patience enough, loops under the larger limits make at least as many rounds. -/
theorem rounds_le (hloops : AtMost lim.maxIterations lim'.maxIterations) {k : Nat}
    (hk : lim.maxIterations.getD 0 ≤ k) :
    { lim with patience := k }.rounds ≤ { lim' with patience := k }.rounds := by
  unfold Limits.rounds
  dsimp only
  cases hmax' : lim'.maxIterations with
  | none =>
    cases hmax : lim.maxIterations with
    | none => exact Nat.le_refl k
    | some n =>
      rw [hmax] at hk
      exact hk
  | some n' =>
    obtain ⟨n, hmax, hle⟩ := hloops n' hmax'
    rw [hmax]
    exact hle

/-- Under larger limits a run ends in the same way, unless it exceeds a limit; then it has written
the beginning of what it writes there. -/
theorem run_of_limits_le (lim lim' : Limits) (hdepth : lim.maxDepth ≤ lim'.maxDepth)
    (hrounds : lim.rounds ≤ lim'.rounds) (hloops : AtMost lim.maxIterations lim'.maxIterations)
    (hended : (m.run lim p).1 ≠ .unfinished) :
    m.run lim' p = m.run lim p ∨ (m.run lim p).1.isResource ∧
      ∃ rest, (m.run lim' p).2.console.sink.written =
        (m.run lim p).2.console.sink.written ++ rest := by
  rcases (Coupling.limits lim lim' hdepth hrounds hloops).run_of_same rfl p m with
    heq | ⟨stop, m₁, hrun, hstop, hwritten⟩
  · exact .inl heq
  · right
    rw [hrun] at hended ⊢
    cases stop with
    | unfinished => exact absurd rfl hended
    | error e =>
      cases e with
      | resource limit span =>
        rw [concluded, abandon_eq_closeAll]
        exact ⟨rfl, hwritten⟩
      | semantic | io => cases hstop
    | brk | nxt | quit => cases hstop

/-- **Raising limits.** A run that ends under some limits, and not because one of them was exceeded,
ends in the same way under larger limits, with the same machine. If a limit was exceeded, what the
run has written is the beginning of what it writes under larger limits, if it ends there. -/
theorem endsIn_of_limits_le (hdepth : lim.maxDepth ≤ lim'.maxDepth)
    (hloops : AtMost lim.maxIterations lim'.maxIterations) (h : m.EndsIn lim p r) :
    (r.1.isResource = false → m.EndsIn lim' p r) ∧
      (r.1.isResource = true → ∀ r', m.EndsIn lim' p r' →
        ∃ rest, r'.2.console.sink.written = r.2.console.sink.written ++ rest) := by
  obtain ⟨hended, k, hk⟩ := h
  -- beyond this patience neither run is given up, and the second one allows for more rounds
  have hboth : ∀ k' ≥ max k (lim.maxIterations.getD 0), m.run { lim' with patience := k' } p = r ∨
      r.1.isResource ∧ ∃ rest, (m.run { lim' with patience := k' } p).2.console.sink.written =
        r.2.console.sink.written ++ rest := by
    intro k' hk'
    have hr := hk k' (by omega)
    have hrun := run_of_limits_le { lim with patience := k' } { lim' with patience := k' } hdepth
      (rounds_le hloops (by omega)) hloops (hr.symm ▸ hended)
    rwa [hr] at hrun
  constructor
  · intro hresource
    refine ⟨hended, max k (lim.maxIterations.getD 0), fun k' hk' => ?_⟩
    rcases hboth k' hk' with heq | ⟨hexceeded, -⟩
    · exact heq
    · rw [hresource] at hexceeded
      cases hexceeded
  · rintro - r' ⟨-, k', hk'⟩
    have hr' := hk' (max k' (max k (lim.maxIterations.getD 0))) (Nat.le_max_left _ _)
    rcases hboth _ (Nat.le_max_right k' _) with heq | ⟨-, hwritten⟩
    · rw [hr'] at heq
      exact ⟨"", by rw [heq, String.append_empty]⟩
    · rwa [hr'] at hwritten

/-- The loop `for (x in list(1, 2)) print(x)` ends in the same way with a limit of two rounds and
without a limit; with a limit of one round it fails after the first line. -/
theorem endsIn_for_of_limits :
    let p : Program := [.forIn ⟨0, 32⟩ "x" (.list ⟨10, 20⟩ [.int 1, .int 2])
      (.print ⟨22, 30⟩ (.var ⟨28, 29⟩ "x"))]
    let m : Machine := {}
    let two : Limits := { maxIterations := some 2 }
    let one : Limits := { maxIterations := some 1 }
    m.EndsIn two p (m.run two p) ∧ (m.run two p).1.isResource = false ∧
      m.EndsIn {} p (m.run two p) ∧ m.EndsIn one p (m.run one p) ∧
      (m.run one p).1.isResource = true ∧
      ∃ rest, (m.run two p).2.console.sink.written =
        (m.run one p).2.console.sink.written ++ rest := by
  intro p m two one
  have htwo : m.EndsIn two p (m.run two p) := endsIn_of_run (by decide +kernel)
  have hone : m.EndsIn one p (m.run one p) := endsIn_of_run (by decide +kernel)
  have hcompleted : (m.run two p).1.isResource = false := by decide +kernel
  have hexceeded : (m.run one p).1.isResource = true := by decide +kernel
  have hdepth : 1000 ≤ ({} : Limits).maxDepth := Nat.le_refl _
  have hloops : ∀ n, AtMost n ({} : Limits).maxIterations := fun _ _ hn => nomatch hn
  have hfree : m.EndsIn {} p (m.run two p) :=
    (endsIn_of_limits_le hdepth (hloops _) htwo).1 hcompleted
  exact ⟨htwo, hcompleted, hfree, hone, hexceeded,
    (endsIn_of_limits_le hdepth (hloops _) hone).2 hexceeded _ hfree⟩

end Machine

end ScopeScript
