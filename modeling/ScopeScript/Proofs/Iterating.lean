import ScopeScript.Proofs.Settling

/-!
# Loops over lists

A loop over a list goes through the elements that the list has when the rounds begin. Whatever a
body does with the list and with the loop variable, each round binds the variable anew before it
evaluates the body.

`Eval.Rounds` is the course of such a loop: the machines on which its body is evaluated, one for
each round, and the result. A round whose body has a value or is left by `next` is followed by
another one (`Eval.passes`); any other round is the last one. What is said about loops is proved by
induction on their course:

* `Rounds.begins`: a round begins where the one before has ended, and binds its value to the
  variable.
* `Rounds.complete`: a loop that nothing keeps from going on goes through all values.
* `Rounds.limited_iff`: a loop fails because of its limit if all rounds that it may make pass and
  there is another value.
* `Rounds.consults_iff`: the evaluations in the course of the rounds are those of the body on the
  machines of the course.

`Eval.forIn_iterates_over_snapshot` puts them together.
-/

namespace ScopeScript

open Eval

/-! ### Rounds -/

namespace Eval

/-- How an expression ends. -/
abbrev Outcome := EStateM.Result Stop Machine Value

/-- Whether a loop goes on after a round in which its body has ended this way. -/
def passes : Outcome → Bool
  | .ok _ _ | .error .nxt _ => true
  | .error .brk _ | .error .quit _ | .error (.error _) _ | .error .unfinished _ => false

/-- Whether a loop fails if its body ends this way. -/
def fails : Outcome → Bool
  | .ok _ _ => false
  | .error stop _ => !stop.leavesLoop

/-- The value that an expression has, if it is not left early. -/
def value? : Outcome → Option Value
  | .ok v _ => some v
  | .error _ _ => none

/-- How a loop ends whose last round has ended this way; `result` is the value of the rounds
before. -/
def closing (result : Value) : Outcome → Outcome
  | .error .brk m => .ok result m
  | r => r

variable {body : Eval Value} {result : Value} {next : Value → Eval Value} {m : Machine}

theorem round_of_passes (h : passes (body m) = true) :
    round body result next m = next ((value? (body m)).getD result) (body.after m) := by
  unfold round after
  cases hr : body m with
  | ok v m' => rfl
  | error stop m' =>
    rw [hr] at h
    cases stop with
    | nxt => rfl
    | brk | quit | error | unfinished => cases h

theorem round_of_not_passes (h : passes (body m) = false) :
    round body result next m = closing result (body m) := by
  unfold round
  cases hr : body m with
  | ok v m' =>
    rw [hr] at h
    cases h
  | error stop m' =>
    rw [hr] at h
    cases stop with
    | nxt => cases h
    | brk | quit | error | unfinished => rfl

theorem fails_of_passes {r : Outcome} (h : passes r = true) : fails r = false := by
  cases r with
  | ok v m' => rfl
  | error stop m' =>
    cases stop with
    | nxt => rfl
    | brk | quit | error | unfinished => cases h

/-- A last round that does not fail leaves the loop with the value of the rounds before. -/
theorem closing_of_not_fails {r : Outcome} (hends : passes r = false) (h : fails r = false) :
    ∃ m', closing result r = .ok result m' := by
  cases r with
  | ok v m' => cases hends
  | error stop m' =>
    cases stop with
    | brk => exact ⟨m', rfl⟩
    | nxt => cases hends
    | quit | error | unfinished => cases h

/-- The course of a loop over values, with the number of rounds left and the value of the rounds
before: the machines on which the body is evaluated, and how the loop ends. -/
inductive Rounds (lim : Limits) (recur : Recur) (e : Expr) (x : String) (body : Expr) :
    List Value → Option Nat → Value → Machine → List Machine → Outcome → Prop where
  | done {left : Option Nat} {result : Value} {m : Machine} :
      Rounds lim recur e x body [] left result m [] (.ok result m)
  | exhausted {v : Value} {vs : List Value} {result : Value} {m : Machine} :
      Rounds lim recur e x body (v :: vs) (some 0) result m [] (.error (lim.exhausted e) m)
  | rejected {v : Value} {vs : List Value} {left : Option Nat} {result : Value}
      {m m' : Machine} {stop : Stop}
      (hleft : left ≠ some 0) (hbind : rebind e x v m = .error stop m') :
      Rounds lim recur e x body (v :: vs) left result m [] (.error stop m')
  | last {v : Value} {vs : List Value} {left : Option Nat} {result : Value} {m m₁ : Machine}
      (hleft : left ≠ some 0)
      (hbind : rebind e x v m = .ok () m₁) (hends : passes (recur body m₁) = false) :
      Rounds lim recur e x body (v :: vs) left result m [m₁] (closing result (recur body m₁))
  | passed {v : Value} {vs : List Value} {left : Option Nat} {result : Value} {m m₁ : Machine}
      {starts : List Machine}
      {r : Outcome} (hleft : left ≠ some 0) (hbind : rebind e x v m = .ok () m₁)
      (hpasses : passes (recur body m₁) = true)
      (hrest : Rounds lim recur e x body vs (left.map (· - 1))
        ((value? (recur body m₁)).getD result)
        ((recur body).after m₁) starts r) :
      Rounds lim recur e x body (v :: vs) left result m (m₁ :: starts) r

end Eval

namespace Eval.Rounds

variable {lim : Limits} {recur star : Recur} {e body : Expr} {x : String} {vs : List Value}
  {left : Option Nat}
  {result : Value} {m : Machine} {starts : List Machine} {r : Outcome}

/-- The course of a loop ends as the loop does. -/
theorem eq_forRounds (h : Rounds lim recur e x body vs left result m starts r) :
    forRounds lim recur e x body vs left result m = r := by
  induction h with
  | done => rfl
  | exhausted => rfl
  | rejected hleft hbind => rw [forRounds_cons hleft, bind_of_error hbind]
  | last hleft hbind hends => rw [forRounds_cons hleft, bind_of_ok hbind, round_of_not_passes hends]
  | passed hleft hbind hpasses _ ih =>
    rw [forRounds_cons hleft, bind_of_ok hbind, round_of_passes hpasses, ih]

/-- Every loop has a course. -/
theorem exists_rounds (lim : Limits) (recur : Recur) (e : Expr) (x : String) (body : Expr)
    (vs : List Value) (left : Option Nat) (result : Value) (m : Machine) :
    ∃ starts r, Rounds lim recur e x body vs left result m starts r := by
  induction vs generalizing left result m with
  | nil => exact ⟨_, _, .done⟩
  | cons v vs ih =>
    by_cases hleft : left = some 0
    · subst hleft
      exact ⟨_, _, .exhausted⟩
    cases hbind : rebind e x v m with
    | error stop m' => exact ⟨_, _, .rejected hleft hbind⟩
    | ok u m₁ =>
      cases hpasses : passes (recur body m₁) with
      | false => exact ⟨_, _, .last hleft hbind hpasses⟩
      | true =>
        obtain ⟨starts, r, hrest⟩ := ih (left.map (· - 1)) ((value? (recur body m₁)).getD result)
          ((recur body).after m₁)
        exact ⟨_, _, .passed hleft hbind hpasses hrest⟩

/-- The course depends on how the body ends on the machines of the course, and on nothing else. -/
theorem congr (h : Rounds lim recur e x body vs left result m starts r)
    (hsame : ∀ s ∈ starts, star body s = recur body s) :
    Rounds lim star e x body vs left result m starts r := by
  induction h with
  | done => exact .done
  | exhausted => exact .exhausted
  | rejected hleft hbind => exact .rejected hleft hbind
  | last hleft hbind hends =>
    have hbody := hsame _ List.mem_cons_self
    rw [← hbody] at hends ⊢
    exact .last hleft hbind hends
  | passed hleft hbind hpasses _ ih =>
    obtain ⟨hbody, hrest⟩ := List.forall_mem_cons.mp hsame
    have hih := ih hrest
    rw [← hbody] at hpasses hih
    rw [show (recur body).after _ = (star body).after _ by unfold after; rw [hbody]] at hih
    exact .passed hleft hbind hpasses hih

/-! ### What each round begins with -/

/-- **On the way into a round** its value is bound to the loop variable, on the machine that the
round before has left.
-/
theorem begins (h : Rounds lim recur e x body vs left result m starts r) {i : Nat} {s : Machine}
    (hs : starts[i]? = some s) : ∃ v before, vs[i]? = some v ∧
      (m :: starts.map (recur body).after)[i]? = some before ∧ rebind e x v before = .ok () s := by
  induction h generalizing i with
  | done | exhausted | rejected => cases hs
  | last _ hbind _ =>
    cases i with
    | zero =>
      cases hs
      exact ⟨_, _, rfl, rfl, hbind⟩
    | succ i => cases hs
  | passed _ hbind _ _ ih =>
    cases i with
    | zero =>
      cases hs
      exact ⟨_, _, rfl, rfl, hbind⟩
    | succ i => exact ih hs

/-- There are no more rounds than the limit allows. -/
theorem length_le (h : Rounds lim recur e x body vs left result m starts r) {n : Nat}
    (hleft : left = some n) :
    starts.length ≤ n := by
  induction h generalizing n with
  | done | exhausted | rejected => exact Nat.zero_le n
  | last hleft' =>
    have hn : n ≠ 0 := fun h => hleft' (h ▸ hleft)
    exact Nat.one_le_iff_ne_zero.mpr hn
  | passed hleft' _ _ _ ih =>
    have hn : n ≠ 0 := fun h => hleft' (h ▸ hleft)
    have hrest := ih (n := n - 1) (by rw [hleft]; rfl)
    rw [List.length_cons]
    omega

/-- All rounds but the last one are followed by another. -/
theorem dropLast_passes (h : Rounds lim recur e x body vs left result m starts r) :
    ∀ s ∈ starts.dropLast, passes (recur body s) = true := by
  induction h with
  | done | exhausted | rejected | last => intro s hs; cases hs
  | @passed _ _ _ _ _ m₁ starts _ _ _ hpasses _ ih =>
    cases starts with
    | nil => intro s hs; cases hs
    | cons s₁ starts => exact List.forall_mem_cons.mpr ⟨hpasses, ih⟩

/-! ### Rounds in the order of time -/

/-- Binding a loop variable changes the scopes, and logs that it does. -/
theorem exists_of_rebind {v : Value} {m' : Machine} (h : rebind e x v m = .ok () m') :
    ∃ stack, m' = { m with scopes := stack }.note (.bound x v) := by
  unfold rebind at h
  dsimp only at h
  split at h
  · cases h
  · split at h
    · cases h
      exact ⟨_, rfl⟩
    · cases h

/-- The log has got longer from one round to the next. -/
theorem ordered (h : Rounds lim recur e x body vs left result m starts r)
    (honward : Onward (recur body)) :
    (m :: starts).Pairwise fun s t => s.log.length < t.log.length := by
  have hlonger : ∀ {v m m₁}, rebind e x v m = .ok () m₁ → m.log.length < m₁.log.length := by
    intro v m m₁ hbind
    obtain ⟨stack, rfl⟩ := exists_of_rebind hbind
    exact Nat.lt_succ_self _
  induction h with
  | done | exhausted | rejected => exact List.pairwise_singleton _ _
  | last _ hbind _ => exact List.pairwise_pair.mpr (hlonger hbind)
  | @passed _ _ _ _ _ m₁ starts _ _ hbind _ _ ih =>
    obtain ⟨hafter, hrest⟩ := List.pairwise_cons.mp ih
    have hbody : m₁.log.length ≤ ((recur body).after m₁).log.length :=
      (honward m₁).continues.log.length_le
    have hfirst : ∀ t ∈ starts, m₁.log.length < t.log.length :=
      fun t ht => Nat.lt_of_le_of_lt hbody (hafter t ht)
    refine List.pairwise_cons.mpr ⟨?_, List.pairwise_cons.mpr ⟨hfirst, hrest⟩⟩
    exact List.forall_mem_cons.mpr ⟨hlonger hbind,
      fun t ht => Nat.lt_trans (hlonger hbind) (hfirst t ht)⟩

/-! ### How a loop ends -/

/-- A value can be bound to a name that is declared, but for a parameter, which has to stay an
integer. -/
theorem rebind_of_accepts {v : Value} {old : Entry} (hold : m.scopes.find? x = some old)
    (haccepts : old.info.isParam = true → v.typeClass.acceptsInt = true) :
    ∃ m', rebind e x v m = .ok () m' ∧ m.Kept m' := by
  obtain ⟨stack, hchange⟩ : ∃ stack, m.scopes.change
      ⟨x, { m.heap.typeInfo v with isParam := old.info.isParam }, some v⟩ = .ok stack :=
        ScopeStack.change_of_find? hold
  have hparam : ¬ (old.info.isParam && !v.typeClass.acceptsInt) = true := by
    cases hp : old.info.isParam with
    | false => simp
    | true => simp [haccepts hp]
  refine ⟨{ m with scopes := stack }.note (.bound x v), ?_, ?_⟩
  · unfold rebind
    simp only [hold, Option.any_some, if_neg hparam, hchange]
  · have hentry : old.Kept ⟨x, { m.heap.typeInfo v with isParam := old.info.isParam }, some v⟩ :=
      ⟨fun _ => rfl, rfl⟩
    have hbound : m.Kept { m with scopes := stack } := .bind hold hentry hchange
    exact hbound.trans (.of_eq rfl rfl)

/-- A value that cannot be bound is a violation of a rule of the language. -/
theorem semantic_of_rebind {v : Value} {m' : Machine} {stop : Stop}
    (h : rebind e x v m = .error stop m') :
    ∃ error, stop = .error (.semantic error e.span) := by
  unfold rebind at h
  dsimp only at h
  split at h
  · cases h
    exact ⟨_, rfl⟩
  · split at h
    · cases h
    · cases h
      exact ⟨_, rfl⟩

/-- The value of the first round is that of the loop if no later round has one. -/
theorem getLast?_filterMap_cons (f : Machine → Option Value) (s : Machine) (starts : List Machine)
    (result : Value) :
    ((s :: starts).filterMap f).getLast?.getD result = (starts.filterMap f).getLast?.getD
      ((f s).getD result) := by
  cases hs : f s with
  | none => rw [List.filterMap_cons_none hs, Option.getD_none]
  | some v =>
    rw [List.filterMap_cons_some hs, List.getLast?_cons, Option.getD_some, Option.getD_some]

/-- **A loop that nothing keeps from going on** makes one round for each value, and its value is
that of the last round that had one. -/
theorem complete (h : Rounds lim recur e x body vs left result m starts r)
    (hkept : ∀ s ∈ starts, s.Kept ((recur body).after s))
    (hall : ∀ s ∈ starts, passes (recur body s) = true)
    {old : Entry} (hold : m.scopes.find? x = some old)
    (haccepts : old.info.isParam = true → ∀ v ∈ vs, v.typeClass.acceptsInt = true)
    (hlimit : ∀ n, left = some n → vs.length ≤ n) :
    starts.length = vs.length ∧
      ∃ m', r =
        .ok ((starts.filterMap fun s => value? (recur body s)).getLast?.getD result) m' := by
  induction h generalizing old with
  | done => exact ⟨rfl, _, rfl⟩
  | exhausted => exact absurd (hlimit 0 rfl) (by simp)
  | rejected _ hbind =>
    obtain ⟨m', hok, -⟩ :=
      rebind_of_accepts (e := e) hold fun hp => haccepts hp _ List.mem_cons_self
    rw [hbind] at hok
    cases hok
  | last _ _ hends =>
    rw [hall _ List.mem_cons_self] at hends
    cases hends
  | @passed v vs left result m m₁ starts r hleft hbind hpasses _ ih =>
    obtain ⟨hkept₁, hkept⟩ := List.forall_mem_cons.mp hkept
    obtain ⟨m', hok, hkept'⟩ :=
      rebind_of_accepts (e := e) hold fun hp => haccepts hp _ List.mem_cons_self
    obtain rfl : m₁ = m' := by
      rw [hbind] at hok
      cases hok
      rfl
    obtain ⟨old', hold', hsame⟩ := (hkept'.trans hkept₁).find? hold
    have hlimit' : ∀ n, left.map (· - 1) = some n → vs.length ≤ n := by
      intro n hn
      obtain ⟨k, rfl, rfl⟩ := Option.map_eq_some_iff.mp hn
      exact Nat.le_sub_of_add_le (hlimit k rfl)
    obtain ⟨hlength, m'', hr⟩ := ih hkept (List.forall_mem_cons.mp hall).2 hold'
      (fun hp v hv => haccepts (hsame.isParam ▸ hp) v (List.mem_cons_of_mem _ hv)) hlimit'
    refine ⟨congrArg (· + 1) hlength, m'', ?_⟩
    rw [hr, getLast?_filterMap_cons]

/-- **A loop fails because of its limit** exactly if all rounds that it may make pass, and there is
another value. -/
theorem limited_iff (h : Rounds lim recur e x body vs left result m starts r) {n max : Nat}
    (hleft : left = some n) (hmax : lim.maxIterations = some max) :
    ((∀ s ∈ starts, fails (recur body s) = false) ∧
        ∃ m', r = .error (.error (.resource (.iterationLimit max) e.span)) m') ↔
      n < vs.length ∧ starts.length = n ∧ ∀ s ∈ starts, passes (recur body s) = true := by
  induction h generalizing n with
  | done =>
    constructor
    · rintro ⟨-, m', hr⟩
      cases hr
    · rintro ⟨hlt, -⟩
      exact absurd hlt (Nat.not_lt_zero n)
  | exhausted =>
    cases hleft
    rw [Limits.exhausted, hmax]
    exact ⟨fun _ => ⟨Nat.succ_pos _, rfl, nofun⟩, fun _ => ⟨nofun, _, rfl⟩⟩
  | @rejected v vs left result m m' stop hleft' hbind =>
    constructor
    · rintro ⟨-, m', hr⟩
      obtain ⟨error, hstop⟩ := semantic_of_rebind hbind
      rw [hstop] at hr
      cases hr
    · rintro ⟨-, hn, -⟩
      cases hn
      exact absurd hleft hleft'
  | last _ _ hends =>
    constructor
    · rintro ⟨hfails, m', hr⟩
      obtain ⟨m'', hok⟩ := closing_of_not_fails hends (hfails _ List.mem_cons_self)
      rw [hok] at hr
      cases hr
    · rintro ⟨-, -, hall⟩
      rw [hall _ List.mem_cons_self] at hends
      cases hends
  | @passed v vs left result m m₁ starts r hleft' _ hpasses _ ih =>
    obtain ⟨k, rfl⟩ : ∃ k, n = k + 1 := Nat.exists_eq_succ_of_ne_zero fun hn => hleft' (hn ▸ hleft)
    have hrest := ih (n := k) (by rw [hleft]; rfl)
    rw [List.forall_mem_cons, List.forall_mem_cons, List.length_cons, List.length_cons,
      Nat.succ_lt_succ_iff,
      Nat.succ_inj, and_iff_right hpasses, and_iff_right (fails_of_passes hpasses)]
    exact hrest

/-! ### What a loop evaluates -/

/-- The machines of the course have one depth. -/
theorem depth (h : Rounds lim recur e x body vs left result m starts r) {d : Nat}
    (hbody : ∀ s, s.depth = d → ((recur body).after s).depth = d) (hm : m.depth = d) :
    ∀ s ∈ starts, s.depth = d := by
  have hbound : ∀ {v m m₁}, rebind e x v m = .ok () m₁ → m₁.depth = m.depth := by
    intro v m m₁ hbind
    obtain ⟨stack, rfl⟩ := exists_of_rebind hbind
    rfl
  induction h with
  | done | exhausted | rejected => exact nofun
  | last _ hbind _ => exact List.forall_mem_singleton.mpr ((hbound hbind).trans hm)
  | passed _ hbind _ _ ih =>
    have hfirst := (hbound hbind).trans hm
    exact List.forall_mem_cons.mpr ⟨hfirst, ih (hbody _ hfirst)⟩

/-- An interruption of the body in any round interrupts the loop. -/
theorem interrupted (h : Rounds lim recur e x body vs left result m starts r) {s : Machine}
    (hstar : Recur.Interrupts star recur body s) (hs : s ∈ starts) :
    ∃ m', forRounds lim star e x body vs left result m = .error .interrupt m' := by
  have hhere : ∀ {vs left result m v}, left ≠ some 0 → rebind e x v m = .ok () s →
      forRounds lim star e x body (v :: vs) left result m = .error .interrupt s := by
    intro vs left result m v hleft hbind
    rw [forRounds_cons hleft, bind_of_ok hbind, round, hstar.here]
    rfl
  induction h with
  | done | exhausted | rejected => cases hs
  | last hleft hbind _ =>
    obtain rfl := List.mem_singleton.mp hs
    exact ⟨s, hhere hleft hbind⟩
  | @passed _ _ _ _ _ m₁ _ _ hleft hbind hpasses _ ih =>
    by_cases hfirst : s = m₁
    · subst hfirst
      exact ⟨s, hhere hleft hbind⟩
    · have hsame : star body m₁ = recur body m₁ :=
        hstar.elsewhere body m₁ fun heq => hfirst heq.2.symm
      obtain ⟨m', hrest⟩ := ih ((List.mem_cons.mp hs).resolve_left hfirst)
      refine ⟨m', ?_⟩
      rw [forRounds_cons hleft, bind_of_ok hbind, round_of_passes (by rw [hsame, hpasses]), hsame]
      unfold after at hrest ⊢
      rw [hsame, hrest]

/-- **The evaluations in the course of the rounds** are those of the body on the machines of the
course. -/
theorem consults_iff (h : Rounds lim recur e x body vs left result m starts r)
    (hnone : ∀ m', r ≠ .error .interrupt m') {e₁ : Expr} {m₁ : Machine} :
    Consults (forRounds lim · e x body vs left result) recur m e₁ m₁ ↔ e₁ = body ∧ m₁ ∈ starts := by
  constructor
  · rintro ⟨star, hstar, m', hinterrupt⟩
    refine Classical.byContradiction fun hnot => ?_
    have hsame : ∀ s ∈ starts, star body s = recur body s := fun s hs =>
      hstar.elsewhere body s fun heq => hnot ⟨heq.1.symm, heq.2 ▸ hs⟩
    exact hnone m' ((h.congr hsame).eq_forRounds.symm.trans hinterrupt)
  · rintro ⟨rfl, hmem⟩
    obtain ⟨star, hstar⟩ := recur.exists_interrupts e₁ m₁
    exact ⟨star, hstar, h.interrupted hstar hmem⟩

/-- A loop evaluates its list, and its body on the machines of the course of its rounds. -/
theorem evalFor_consults_iff {items : Expr} {id : ListId} {m₀ m₁ : Machine}
    (hdeclare : declareLoopVar e x m = .ok () m₀) (hitems : recur items m₀ = .ok (.list id) m₁)
    (h : Rounds lim recur e x body (m₁.heap.items id) lim.maxIterations .null m₁ starts r)
    (hnone : ∀ m', r ≠ .error .interrupt m') {e₁ : Expr} {m₂ : Machine} :
    Consults (evalFor lim · e x items body) recur m e₁ m₂ ↔
      (e₁ = items ∧ m₂ = m₀) ∨ (e₁ = body ∧ m₂ ∈ starts) := by
  constructor
  · rintro ⟨star, hstar, m', hinterrupt⟩
    by_cases hfirst : items = e₁ ∧ m₀ = m₂
    · exact .inl ⟨hfirst.1.symm, hfirst.2.symm⟩
    · have hitems' : star items m₀ = .ok (.list id) m₁ :=
        (hstar.elsewhere items m₀ hfirst).trans hitems
      change evalFor lim star e x items body m = _ at hinterrupt
      rw [evalFor_eq, bind_of_ok hdeclare, bind_of_ok hitems'] at hinterrupt
      exact .inr ((h.consults_iff hnone).mp ⟨star, hstar, m', hinterrupt⟩)
  · intro hcases
    have hrest : Consults (fun recur => recur items >>= forElements lim recur e x body)
        recur m₀ e₁ m₂ := by
      rcases hcases with ⟨rfl, rfl⟩ | hbody
      · exact .first fun star => ⟨_, rfl⟩
      · refine .bind_right (y := fun recur => recur items)
          (fun hstar => hstar.relays items) hitems ?_
        obtain ⟨star, hstar, m', hinterrupt⟩ := (h.consults_iff hnone).mpr hbody
        exact ⟨star, hstar, m', hinterrupt⟩
    exact hrest.bind_right (y := fun _ => declareLoopVar e x) (fun _ => .refl _) hdeclare

end Eval.Rounds

namespace Eval

variable {lim : Limits} {e items body : Expr} {span : Span} {x : String}
  {m m₀ m₁ : Machine} {id : ListId}

/-! ### Loops as expressions -/

/-- A name that can be a loop variable is declared, unless it is already; a new name is no
parameter. -/
theorem declareLoopVar_cases (h : declareLoopVar e x m = .ok () m₀) :
    (∃ old, m.scopes.find? x = some old ∧ m₀ = m) ∨
      m.scopes.find? x = none ∧ m₀ = m.declare ⟨x, .plain .ofScalar, none⟩ := by
  unfold declareLoopVar at h
  cases hfind : m.scopes.find? x with
  | none =>
    rw [hfind] at h
    cases h
    exact .inr ⟨rfl, rfl⟩
  | some old =>
    simp only [hfind] at h
    split at h
    · cases h
    · cases h
      exact .inl ⟨old, rfl, rfl⟩

/-- Where a scope is open, a loop variable is declared when the list is evaluated, and is a
parameter if it was one. -/
theorem exists_loopVar (h : declareLoopVar e x m = .ok () m₀) (hopen : m.scopes.depth ≠ 0) :
    ∃ old, m₀.scopes.find? x = some old ∧
      (old.info.isParam = true → (m.scopes.find? x).any (·.info.isParam) = true) := by
  rcases declareLoopVar_cases h with ⟨old, hold, rfl⟩ | ⟨hnew, rfl⟩
  · exact ⟨old, hold, fun hparam => by rw [hold]; exact hparam⟩
  · rcases m.declare_cases ⟨x, .plain .ofScalar, none⟩ hnew with ⟨hnil, -⟩ | ⟨s, outer, -, -, heq⟩
    · rw [ScopeStack.depth, hnil] at hopen
      exact absurd rfl hopen
    · rw [heq]
      exact ⟨⟨x, .plain .ofScalar, none⟩, s.find?_insert_self _, fun hparam => by cases hparam⟩

theorem depth_declareLoopVar (h : declareLoopVar e x m = .ok () m₀) : m₀.depth = m.depth := by
  rcases declareLoopVar_cases h with ⟨old, -, rfl⟩ | ⟨hnew, rfl⟩
  · rfl
  · exact (Machine.Kept.declare (e := ⟨x, .plain .ofScalar, none⟩) hnew).depth

/-- The course of a loop whose list has been evaluated. It ends as the loop does, but for the count
of expressions, and its machines are those on which the loop evaluates its body. -/
theorem exists_rounds_of_forIn (aside : List Scope) (he : e = .forIn span x items body)
    (hdeclare : declareLoopVar e x (m.begin e) = .ok () m₀)
    (hitems : expr lim items m₀ = .ok (.list id) m₁) :
    ∃ starts r,
    Rounds lim (expr lim) e x body (m₁.heap.items id) lim.maxIterations .null m₁ starts r ∧
      expr lim e m = counted e (fun _ => r) m ∧
      ∀ t, Moment.Part lim ⟨lim.maxDepth - m.depth, aside, e, m⟩ t ↔
        t = ⟨lim.maxDepth - m₀.depth, aside, items, m₀⟩ ∨
          ∃ s ∈ starts, t = ⟨lim.maxDepth - m₀.depth, aside, body, s⟩ := by
  have hdepth : m₀.depth = m.depth + 1 := depth_declareLoopVar hdeclare
  obtain ⟨room, hroom⟩ := exists_room_of_ok hitems
  have hm : lim.maxDepth - m.depth = lim.maxDepth - m₀.depth + 1 := by omega
  rw [hm]
  generalize hinner : lim.maxDepth - m₀.depth = inner at hm
  have hitems' : within lim inner items m₀ = .ok (.list id) m₁ :=
    (within_eq_expr items hinner.symm).trans hitems
  obtain ⟨starts, r, h⟩ :=
    Rounds.exists_rounds lim (within lim inner) e x body (m₁.heap.items id) lim.maxIterations
    .null m₁
  -- the body begins at the depth of the list, so it has the room that the limits leave
  have hkept := kept_after_expr lim items m₀
  rw [after_of_ok hitems] at hkept
  have hbody : ∀ s, s.depth = m₀.depth → ((within lim inner body).after s).depth = m₀.depth := by
    intro s hs
    have hsame : (within lim inner body).after s = (expr lim body).after s := by
      unfold after
      rw [within_eq_expr body (by rw [hs, hinner])]
    rw [hsame, (kept_after_expr lim body s).depth, hs]
  have hstarts := h.depth hbody hkept.depth
  have hnode : node lim (within lim inner) e (m.begin e) = r := by
    rw [he] at hdeclare h ⊢
    rw [node, evalFor_eq, bind_of_ok hdeclare, bind_of_ok hitems']
    exact h.eq_forRounds
  refine ⟨starts, r, h.congr fun s hs =>
    (within_eq_expr body (by rw [hstarts s hs, hinner])).symm, ?_, ?_⟩
  · rw [expr, hm, within]
    simp only [counted, hnode]
  · have hobeys : Moment.Obeys (fun _ => (LogLaw.free lim).toLaw) ⟨inner + 1, aside, e, m⟩ :=
      ⟨hm.symm, trivial, trivial⟩
    obtain ⟨hat, hnext⟩ := hobeys.begin
    have hnone : ∀ m', r ≠ .error .interrupt m' :=
      hnode ▸ (Law.node (e := e) (Law.recurs_within _ hnext) hat trivial).ne_interrupt
    intro t
    subst he
    constructor
    · intro hpart
      cases hpart with
      | operand _ hconsults =>
        rcases (h.evalFor_consults_iff hdeclare hitems' hnone).mp hconsults with
          ⟨rfl, rfl⟩ | ⟨rfl, hmem⟩
        · exact .inl rfl
        · exact .inr ⟨_, hmem, rfl⟩
    · rintro (rfl | ⟨s, hmem, rfl⟩)
      · exact .operand rfl ((h.evalFor_consults_iff hdeclare hitems' hnone).mpr (.inl ⟨rfl, rfl⟩))
      · exact .operand rfl ((h.evalFor_consults_iff hdeclare hitems' hnone).mpr (.inr ⟨rfl, hmem⟩))

/-- **A loop iterates over a snapshot** of its list: over the elements that the list has when its
evaluation is done. Let `starts` be the machines on which the loop evaluates its body, in the order
of time.

* The evaluations in the course of the loop are that of the list and those of the body on these
  machines.
* Each evaluation of the body begins with the loop variable bound to the element in the place of its
  round, in the scope in which the loop is, and else on what the round before has left. All but the
  last one have a value or are left by `next`.
* If all of them are, the elements can be bound to the variable, and there is no lower limit, there
  are as many rounds as elements, and the value of the loop is that of the last round which has one,
  or null.
* There are no more rounds than the limit allows. The loop itself fails because of the limit exactly
  if there are more elements than that, and the body has a value or is left by `next` in as many
  rounds as are allowed. -/
theorem forIn_iterates_over_snapshot (aside : List Scope) (he : e = .forIn span x items body)
    (hdeclare : declareLoopVar e x (m.begin e) = .ok () m₀)
    (hitems : expr lim items m₀ = .ok (.list id) m₁) :
    ∃ starts : List Machine,
      (m₀ :: starts).Pairwise (fun s t => s.log.length < t.log.length) ∧
      (∀ t, Moment.Part lim ⟨lim.maxDepth - m.depth, aside, e, m⟩ t ↔
        t = ⟨lim.maxDepth - m₀.depth, aside, items, m₀⟩ ∨
          ∃ s ∈ starts, t = ⟨lim.maxDepth - m₀.depth, aside, body, s⟩) ∧
      (∀ (i : Nat) (s : Machine), starts[i]? = some s → ∃ v before,
        (m₁.heap.items id)[i]? = some v ∧
        (m₁ :: starts.map (expr lim body).after)[i]? = some before ∧
        rebind e x v before = .ok () s ∧
          s.ownValue? x = some v) ∧
      (∀ s ∈ starts.dropLast, passes (expr lim body s) = true) ∧
      (m.scopes.depth ≠ 0 → (∀ s ∈ starts, passes (expr lim body s) = true) →
        ((m.scopes.find? x).any (·.info.isParam) = true → ∀ v ∈ m₁.heap.items id,
          v.typeClass.acceptsInt = true) →
        (∀ n, lim.maxIterations = some n → (m₁.heap.items id).length ≤ n) →
        starts.length = (m₁.heap.items id).length ∧ ∃ m', expr lim e m =
          .ok ((starts.filterMap fun s => value? (expr lim body s)).getLast?.getD .null) m') ∧
      ∀ n, lim.maxIterations = some n → starts.length ≤ n ∧
        ((∀ s ∈ starts, fails (expr lim body s) = false) ∧
            (∃ m', expr lim e m = .error (.error (.resource (.iterationLimit n) span)) m') ↔
          n < (m₁.heap.items id).length ∧ starts.length = n ∧
          ∀ s ∈ starts, passes (expr lim body s) = true) := by
  obtain ⟨starts, r, h, hexpr, hparts⟩ := exists_rounds_of_forIn aside he hdeclare hitems
  refine ⟨starts, ?_, hparts, ?_, h.dropLast_passes, ?_, ?_⟩
  · obtain ⟨hfirst, hordered⟩ := List.pairwise_cons.mp (h.ordered (.expr lim body))
    have hlog : m₀.log.length ≤ m₁.log.length :=
      ((Onward.expr lim items).of_ok hitems).continues.log.length_le
    exact List.pairwise_cons.mpr ⟨fun s hs => Nat.lt_of_le_of_lt hlog (hfirst s hs), hordered⟩
  · intro i s hs
    obtain ⟨v, before, hv, hbefore, hbind⟩ := h.begins hs
    exact ⟨v, before, hv, hbefore, hbind, (Settled.find?_of_rebind hbind).1⟩
  · intro hopen hall haccepts hlimit
    obtain ⟨old₀, hold₀, hparam₀⟩ := exists_loopVar hdeclare hopen
    have hkept := kept_after_expr lim items m₀
    rw [after_of_ok hitems] at hkept
    obtain ⟨old, hold, hsame⟩ := hkept.find? hold₀
    obtain ⟨hlength, m', rfl⟩ := h.complete (fun s _ => kept_after_expr lim body s) hall hold
      (fun hparam => haccepts (hparam₀ (hsame.isParam ▸ hparam))) hlimit
    exact ⟨hlength, _, hexpr⟩
  · intro n hn
    refine ⟨h.length_le hn, ?_⟩
    rw [← h.limited_iff hn hn, hexpr]
    have hspan : e.span = span := by rw [he]; rfl
    rw [hspan]
    cases r with
    | ok v m' => simp [counted]
    | error stop m' => simp [counted]

/-- The block `{ l[[2]] <- 9; x }`. -/
def overwritingBody : Expr :=
  .block ⟨13, 32⟩ [.assignAt ⟨15, 26⟩ "l" (.literal ⟨19, 20⟩ (.int 2)) (.literal ⟨25, 26⟩ (.int 9)),
    .var ⟨28, 29⟩ "x"]

/-- The loop `for (x in l) { l[[2]] <- 9; x }`. -/
def overwritingLoop : Expr := .forIn ⟨0, 32⟩ "x" (.var ⟨10, 11⟩ "l") overwritingBody

/-- A machine on which `l` is a list of one and two. -/
def overwritingMachine : Machine where
  scopes := ⟨[⟨0, [⟨"l", .plain .ofList, some (.list 0)⟩]⟩], 1⟩
  heap := { lists := #[[.int 1, .int 2]] }

/-- The second element has been overwritten when the second round begins, but the variable gets the
old one. -/
theorem forIn_iterates_over_snapshot_overwriting :
    ∃ s t : Machine, s.ownValue? "x" = some (.int 1) ∧ t.ownValue? "x" = some (.int 2) ∧
      t.heap.items 0 = [.int 1, .int 9] ∧ ∃ m', expr {} overwritingLoop overwritingMachine =
        .ok (.int 2) m' := by
  obtain ⟨m₀, hdeclare⟩ : ∃ m₀,
      declareLoopVar overwritingLoop "x" (overwritingMachine.begin overwritingLoop) = .ok () m₀ :=
    ⟨_, rfl⟩
  obtain ⟨m₁, hitems, hlist⟩ : ∃ m₁, expr {} (.var ⟨10, 11⟩ "l") m₀ = .ok (.list 0) m₁ ∧
      m₁.heap.items 0 = [.int 1, .int 2] := by
    cases hdeclare
    exact ⟨_, rfl, rfl⟩
  obtain ⟨starts, -, -, hbegins, -, hcomplete, -⟩ :=
    forIn_iterates_over_snapshot [] rfl hdeclare hitems
  rw [hlist] at hbegins hcomplete
  cases hdeclare
  cases hitems
  have hopen : overwritingMachine.scopes.depth ≠ 0 := by decide
  have hparam : (overwritingMachine.scopes.find? "x").any (·.info.isParam) = true →
      ∀ v ∈ [Value.int 1, .int 2], v.typeClass.acceptsInt = true := fun h => by cases h
  rcases starts with _ | ⟨s, _ | ⟨t, _ | ⟨u, rest⟩⟩⟩
  · obtain ⟨hlength, -⟩ := hcomplete hopen nofun hparam nofun
    cases hlength
  · obtain ⟨v, before, hv, hbefore, hbind, -⟩ := hbegins 0 s rfl
    cases hv
    cases hbefore
    cases hbind
    obtain ⟨hlength, -⟩ :=
      hcomplete hopen (List.forall_mem_singleton.mpr (by decide +kernel)) hparam nofun
    cases hlength
  · obtain ⟨v, before, hv, hbefore, hbind, hfirst⟩ := hbegins 0 s rfl
    obtain ⟨w, between, hw, hbetween, hbind', hsecond⟩ := hbegins 1 t rfl
    cases hv
    cases hbefore
    cases hbind
    cases hw
    cases hbetween
    obtain rfl := after_of_ok hbind'
    obtain ⟨-, m', hvalue⟩ := hcomplete hopen
      (List.forall_mem_cons.mpr ⟨by decide +kernel,
        List.forall_mem_singleton.mpr (by decide +kernel)⟩) hparam nofun
    exact ⟨_, _, hfirst, hsecond, by decide +kernel, m', hvalue⟩
  · obtain ⟨v, before, hv, -⟩ := hbegins 2 u rfl
    cases hv

end Eval

end ScopeScript
