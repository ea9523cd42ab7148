import ScopeScript.Proofs.Discipline
import ScopeScript.Proofs.Nesting

/-!
# How much room a program needs

An expression without calls is evaluated together with the expressions inside of it and no others,
bodies of functions aside. So it needs no more room than it is high, however many rounds its loops
make and however evaluation is left: with that much room it cannot tell one limit from another
(`Eval.within_eq_of_height`), and nor can a program of such expressions (`Machine.run_of_height`).
An overflow of the stack could, since it reports the limit.

* `Expr.hasCall`, and `Expr.height` of the parts of an expression.
* `Eval.node_congr`: a construct depends on how its parts are evaluated, and on nothing else outside
  of it.
* `Machine.run_nesting`: what the limit on nested expressions does in a run.
-/

namespace ScopeScript

/-! ### Calls and heights -/

namespace Expr

mutual

/-- Whether an expression has a call in it, bodies of functions aside. -/
def hasCall : Expr → Bool
  | call _ _ _ => true
  | literal _ _ | var _ _ | brk _ | nxt _ | function _ _ _ | list _ _ | read _ | quit _ => false
  | element _ _ a | not _ a | assign _ _ a | print _ a | cat _ a => a.hasCall
  | arith _ _ a b | logical _ _ a b | compare _ _ a b | ifThen _ a b | whileDo _ a b | forIn _ _ a b
  | assignAt _ _ a b => a.hasCall || b.hasCall
  | ifElse _ a b c => a.hasCall || b.hasCall || c.hasCall
  | block _ es => anyCall es

/-- Whether an expression of a list has a call in it. -/
def anyCall : List Expr → Bool
  | [] => false
  | e :: es => e.hasCall || anyCall es

end

theorem anyCall_eq_false_iff (es : List Expr) : anyCall es = false ↔
    ∀ e ∈ es, e.hasCall = false := by
  induction es with
  | nil => simp [anyCall]
  | cons e es ih => simp [anyCall, ih]

theorem hasCall_part {e part : Expr} (h : e.hasCall = false) (hpart : part ∈ e.parts) :
    part.hasCall = false := by
  cases e with
  | call => cases h
  | literal | var | brk | nxt | function | list | read | quit => cases hpart
  | block => exact (anyCall_eq_false_iff _).mp h part hpart
  | element | not | assign | print | cat =>
    obtain rfl := List.mem_singleton.mp hpart
    exact h
  | arith | logical | compare | ifThen | whileDo | forIn | assignAt =>
    obtain ⟨ha, hb⟩ := Bool.or_eq_false_iff.mp h
    simp only [parts, List.mem_cons, List.not_mem_nil, or_false] at hpart
    rcases hpart with rfl | rfl
    · exact ha
    · exact hb
  | ifElse =>
    obtain ⟨hab, hc⟩ := Bool.or_eq_false_iff.mp h
    obtain ⟨ha, hb⟩ := Bool.or_eq_false_iff.mp hab
    simp only [parts, List.mem_cons, List.not_mem_nil, or_false] at hpart
    rcases hpart with rfl | rfl | rfl
    · exact ha
    · exact hb
    · exact hc

theorem height_pos (e : Expr) : 0 < e.height := by
  cases e <;> simp [height]

theorem height_le_heightAll {e : Expr} {es : List Expr} (he : e ∈ es) :
    e.height ≤ heightAll es := by
  induction es with
  | nil => cases he
  | cons e' es ih =>
    rw [heightAll]
    rcases List.mem_cons.mp he with rfl | he
    · exact Nat.le_max_left _ _
    · exact Nat.le_trans (ih he) (Nat.le_max_right _ _)

theorem height_part {e part : Expr} (hpart : part ∈ e.parts) : part.height < e.height := by
  cases e with
  | literal | var | brk | nxt | function | list | read | quit => cases hpart
  | block | call => exact Nat.lt_succ_of_le (height_le_heightAll hpart)
  | _ =>
    simp only [parts, List.mem_cons, List.not_mem_nil, or_false] at hpart
    simp only [height]
    rcases hpart with rfl | rfl | rfl <;> omega

end Expr

/-! ### Constructs depend on their parts -/

namespace Eval

section

variable {lim : Limits} {recur recur' : Recur} {e : Expr}

theorem whileRounds_congr (n : Nat) {cond body : Expr} (hcond : recur cond = recur' cond)
    (hbody : recur body = recur' body) (left : Nat) (result : Value) :
    whileRounds lim recur e cond body left result =
      whileRounds { lim with maxDepth := n } recur' e cond body left result := by
  induction left generalizing result with
  | zero => simp only [whileRounds, evalCondition, hcond, Limits.exhausted]
  | succ left ih => simp only [whileRounds, evalCondition, hcond, hbody, funext ih]

theorem forRounds_congr (lim : Limits) (n : Nat) (e : Expr) (name : String) {body : Expr}
    (hbody : recur body = recur' body) (vs : List Value) (left : Option Nat) (result : Value) :
    forRounds lim recur e name body vs left result =
      forRounds { lim with maxDepth := n } recur' e name body vs left result := by
  induction vs generalizing left result with
  | nil => rfl
  | cons v vs ih =>
    match left with
    | some 0 => rfl
    | none | some (left + 1) => simp only [forRounds, hbody, funext (ih _)]

theorem evalSequence_congr {es : List Expr} (hes : ∀ part ∈ es, recur part = recur' part)
    (last : Value) :
    evalSequence recur es last = evalSequence recur' es last := by
  induction es generalizing last with
  | nil => rfl
  | cons e es ih =>
    obtain ⟨he, hes⟩ := List.forall_mem_cons.mp hes
    simp only [evalSequence, he, funext (ih hes)]

/-- **A construct depends on how its parts are evaluated**, unless it is a call, and not on the
limit on nested expressions. -/
theorem node_congr (n : Nat) (hfree : e.hasCall = false)
    (hparts : ∀ part ∈ e.parts, recur part = recur' part) :
    node lim recur e = node { lim with maxDepth := n } recur' e := by
  cases e with
  | call => cases hfree
  | literal | var | brk | nxt | function | list | read | quit => rfl
  | block => exact evalSequence_congr hparts .null
  | whileDo _ cond body =>
    exact whileRounds_congr n (hparts cond (by simp [Expr.parts]))
      (hparts body (by simp [Expr.parts])) _ _
  | forIn span name items body =>
    have hitems := hparts items (by simp [Expr.parts])
    have hrounds :=
      forRounds_congr lim n (.forIn span name items body) name (hparts body (by simp [Expr.parts]))
    simp only [node, evalFor, hitems, hrounds]
  | _ =>
    simp only [Expr.parts, List.forall_mem_cons] at hparts
    simp only [node, evalElement, evalCondition, evalBranch, evalAssign, evalAssignAt,
      evalPrint, hparts]

end

/-! ### Enough room -/

variable {lim : Limits}

/-- **An expression without calls needs no more room than it is high**: with that much, it does not
matter how much there is, nor what the limit is. -/
theorem within_eq_of_height (n : Nat) {room room' : Nat} {e : Expr} (hfree : e.hasCall = false)
    (hroom : e.height ≤ room) (hroom' : e.height ≤ room') :
    within lim room e = within { lim with maxDepth := n } room' e := by
  induction room generalizing room' e with
  | zero => exact absurd hroom (Nat.not_le_of_lt e.height_pos)
  | succ room ih =>
    obtain ⟨room', rfl⟩ :=
      Nat.exists_eq_add_one_of_ne_zero (Nat.ne_zero_of_lt (Nat.lt_of_lt_of_le e.height_pos hroom'))
    rw [within, within, node_congr n hfree fun part hpart => ?_]
    have hless := Expr.height_part hpart
    exact ih (Expr.hasCall_part hfree hpart) (by omega) (by omega)

theorem expr_of_height {n : Nat} {e : Expr} {m : Machine} (hfree : e.hasCall = false)
    (hheight : m.depth + e.height ≤ lim.maxDepth) (hheight' : m.depth + e.height ≤ n) :
    expr lim e m = expr { lim with maxDepth := n } e m := by
  rw [expr, expr, within_eq_of_height n hfree (by omega) (by show e.height ≤ n - m.depth; omega)]

end Eval

/-- All expressions of a program have the same room: those that come before leave the counter as
they have found it. -/
theorem runFrom_of_height {lim : Limits} {n : Nat} {p : Program} {last : Value} {m : Machine}
    (hfree : ∀ e ∈ p, e.hasCall = false) (hheight : ∀ e ∈ p, m.depth + e.height ≤ lim.maxDepth)
    (hheight' : ∀ e ∈ p, m.depth + e.height ≤ n) :
    runFrom lim p last m = runFrom { lim with maxDepth := n } p last m := by
  induction p generalizing last m with
  | nil => rfl
  | cons e es ih =>
    obtain ⟨hfreeE, hfree⟩ := List.forall_mem_cons.mp hfree
    obtain ⟨hheightE, hheight⟩ := List.forall_mem_cons.mp hheight
    obtain ⟨hheightE', hheight'⟩ := List.forall_mem_cons.mp hheight'
    have hdepth := (Eval.kept_after_expr lim e m).depth
    rw [runFrom, runFrom, ← Eval.expr_of_height hfreeE hheightE hheightE']
    unfold Eval.after at hdepth
    cases hr : Eval.expr lim e m with
    | ok v m' =>
      rw [hr] at hdepth
      exact ih hfree (hdepth ▸ hheight) (hdepth ▸ hheight')
    | error stop m' =>
      rw [hr] at hdepth
      cases stop with
      | brk | nxt => exact ih hfree (hdepth ▸ hheight) (hdepth ▸ hheight')
      | _ => rfl

namespace Machine

variable {lim : Limits} {m : Machine} {p : Program}

theorem run_of_height {n : Nat} (hfree : ∀ e ∈ p, e.hasCall = false)
    (hheight : ∀ e ∈ p, m.depth + e.height ≤ lim.maxDepth) (hle : lim.maxDepth ≤ n) :
    m.run lim p = m.run { lim with maxDepth := n } p :=
  runFrom_of_height hfree hheight fun e he => Nat.le_trans (hheight e he) hle

/-- With enough room the stack does not overflow: under another limit the run is the same, and would
report that one. -/
theorem not_overflowed_of_height (hdepth : m.depth ≤ lim.maxDepth)
    (hfree : ∀ e ∈ p, e.hasCall = false)
    (hheight : ∀ e ∈ p, m.depth + e.height ≤ lim.maxDepth) {depth limit : Nat} :
    ¬ Overflowed m (m.run lim p) depth limit := by
  intro hoverflow
  obtain ⟨hhere, -⟩ := overflowed_run hdepth hoverflow
  rw [run_of_height hfree hheight (Nat.le_succ lim.maxDepth)] at hoverflow
  obtain ⟨hthere, -⟩ := overflowed_run (Nat.le_succ_of_le hdepth) hoverflow
  exact Nat.succ_ne_self lim.maxDepth (hthere.symm.trans hhere)

/-- **What the limit on nested expressions does in a run.**

* At no time are there more expressions under evaluation than the limit says, and at the end there
  are as many as before the run, however it ends.
* Where the stack overflows, it is as deep as the limit says.
* It does not overflow in a program without calls none of whose expressions is higher than the room
  for it. -/
theorem run_nesting (lim : Limits) (m : Machine) (p : Program) (hdepth : m.depth ≤ lim.maxDepth) :
    (∃ events, (m.run lim p).2.log = events ++ m.log ∧ underWay events = 0 ∧
      ∀ earlier, earlier <:+ events → 0 ≤ underWay earlier ∧
      m.depth + underWay earlier ≤ lim.maxDepth) ∧
      (m.run lim p).2.depth = m.depth ∧
      (∀ depth limit, Overflowed m (m.run lim p) depth limit → depth = lim.maxDepth ∧
        limit = lim.maxDepth) ∧
      ((∀ e ∈ p, e.hasCall = false ∧ m.depth + e.height ≤ lim.maxDepth) →
        ∀ depth limit, ¬ Overflowed m (m.run lim p) depth limit) := by
  obtain ⟨⟨events, hlog, hcounts⟩, hend⟩ := counts_run p hdepth
  refine ⟨⟨events, hlog, ?_, hcounts.within⟩, hend, fun _ _ => overflowed_run hdepth,
    fun hp _ _ => ?_⟩
  · have hcount := hcounts.depth
    rw [hend] at hcount
    omega
  · exact not_overflowed_of_height hdepth (fun e he => (hp e he).1) fun e he => (hp e he).2

/-- The program `i <- 0; while (i < 5) { i <- i + 1; if (i == 2) next; if (i == 4) break }`, five
nodes high. -/
def countingLoop : Program :=
  [.assign ⟨0, 6⟩ "i" (.literal ⟨5, 6⟩ (.int 0)),
    .whileDo ⟨8, 75⟩ (.compare ⟨15, 20⟩ .lt (.var ⟨15, 16⟩ "i") (.literal ⟨19, 20⟩ (.int 5)))
      (.block ⟨22, 75⟩
        [.assign ⟨24, 34⟩ "i"
          (.arith ⟨29, 34⟩ .add (.var ⟨29, 30⟩ "i") (.literal ⟨33, 34⟩ (.int 1))),
          .ifThen ⟨36, 52⟩ (.compare ⟨40, 46⟩ .eq (.var ⟨40, 41⟩ "i") (.literal ⟨45, 46⟩ (.int 2)))
            (.nxt ⟨48, 52⟩),
          .ifThen ⟨54, 71⟩ (.compare ⟨58, 64⟩ .eq (.var ⟨58, 59⟩ "i") (.literal ⟨63, 64⟩ (.int 4)))
            (.brk ⟨66, 71⟩)])]

/-- The loop does not overflow the stack where five expressions may be nested, although `next` and
`break` leave its rounds; where only four may be, it does. -/
theorem run_nesting_countingLoop :
    let m : Machine := {}
    (∀ depth limit, ¬ Overflowed m (m.run { maxDepth := 5 } countingLoop) depth limit) ∧
      ∃ span, (m.run { maxDepth := 4 } countingLoop).1 =
        .failed (.resource (.stackOverflow 4 4) span) := by
  intro m
  obtain ⟨-, -, -, hfits⟩ := run_nesting { maxDepth := 5 } m countingLoop (Nat.zero_le 5)
  exact ⟨hfits (by decide), ⟨29, 30⟩, by decide +kernel⟩

end Machine

end ScopeScript
