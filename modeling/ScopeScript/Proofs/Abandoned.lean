import ScopeScript.Ast.Parse
import ScopeScript.Proofs.Discipline
import ScopeScript.Proofs.Onward

/-!
# Assignments that are left for a loop

An assignment declares its target, unless it is declared already, evaluates its operands and then
binds a value. If an operand is left by `break` or `next`, the target is removed again if it was
declared for this assignment. Whether it was is settled before the operands are evaluated. So the
removal is the one of an empty entry, unless an operand has given the same name a value in the
meantime: then this value is lost.

* `Eval.node_assignment`: between the declaration of its target and its end, an assignment evaluates
  its operands, from left to right. What it does with their values is not left for a loop
  (`Eval.Stays`).
* `Eval.assignment_left`: what an assignment that is left for a loop makes of the machine its
  operands leave, and that all values are kept exactly if the target was declared before or has got
  no value.
-/

namespace ScopeScript

open Eval

/-! ### Values in the innermost scope -/

/-- The value that a name has in the innermost scope. -/
def Machine.ownValue? (m : Machine) (name : String) : Option Value :=
  (m.scopes.find? name).bind (·.value)

namespace ScopeStack

variable {s : ScopeStack} {name other : String}

theorem find?_remove_self (s : ScopeStack) (name : String) : (s.remove name).find? name = none := by
  unfold remove find?
  cases hs : s.scopes with
  | nil => simp only [hs]
  | cons scope outer => exact scope.find?_erase_self name

theorem find?_remove_of_ne (s : ScopeStack) (h : other ≠ name) :
    (s.remove name).find? other = s.find? other := by
  unfold remove find?
  cases hs : s.scopes with
  | nil => simp only [hs]
  | cons scope outer => exact scope.find?_erase_of_ne h

end ScopeStack

/-- Removing a name keeps the values of the innermost scope exactly if the name has none. -/
theorem Machine.ownValue?_forget_iff (m : Machine) (name : String) :
    (∀ other v, m.ownValue? other = some v → (m.forget name).ownValue? other = some v) ↔
    m.ownValue? name = none := by
  constructor
  · intro hkept
    cases hvalue : m.ownValue? name with
    | none => rfl
    | some v =>
      have hgone := hkept name v hvalue
      rw [ownValue?, forget, ScopeStack.find?_remove_self] at hgone
      cases hgone
  · intro hnone other v hv
    have hne : other ≠ name := by
      rintro rfl
      rw [hnone] at hv
      cases hv
    rw [ownValue?, forget, ScopeStack.find?_remove_of_ne _ hne]
    exact hv

/-! ### Actions that are not left for a loop -/

/-- The action is not left for a loop. -/
def Eval.Stays {α : Type} (x : Eval α) : Prop :=
  ∀ m stop m', x m = .error stop m' → stop.leavesLoop = false

namespace Eval.Stays

variable {α β : Type}

theorem pure (a : α) : Stays (Pure.pure a : Eval α) := by
  intro m stop m' h
  cases h

theorem failWith (e : Expr) (error : SemanticError) : Stays (failWith e error : Eval α) := by
  intro m stop m' h
  cases h
  rfl

theorem bind {x : Eval α} {f : α → Eval β} (hx : Stays x) (hf : ∀ a, Stays (f a)) :
    Stays (x >>= f) := by
  intro m stop m' h
  cases hr : x m with
  | ok a m₁ =>
    rw [bind_of_ok hr] at h
    exact hf a m₁ stop m' h
  | error stop' m₁ =>
    rw [bind_of_error hr] at h
    cases h
    exact hx m stop m' hr

theorem get_bind {f : Machine → Eval α} (hf : ∀ m, Stays (f m)) : Stays (get >>= f) :=
  fun m => hf m m

theorem rebind (e : Expr) (name : String) (v : Value) : Stays (rebind e name v) := by
  intro m stop m' h
  unfold Eval.rebind at h
  dsimp only at h
  by_cases hparam : ((m.scopes.find? name).any (·.info.isParam) && !v.typeClass.acceptsInt) = true
  · rw [if_pos hparam] at h
    cases h
    rfl
  · rw [if_neg hparam] at h
    cases hchange : m.scopes.change ⟨name,
        { m.heap.typeInfo v with isParam := (m.scopes.find? name).any (·.info.isParam) },
        some v⟩ with
    | ok stack =>
      rw [hchange] at h
      cases h
    | error fault =>
      rw [hchange] at h
      cases h
      rfl

theorem printValue (v : Value) : Stays (printValue v) := by
  intro m stop m' h
  cases hprint : Console.printLine (String.ofList (m.heap.text v)) m.console with
  | ok u c =>
    rw [printValue_of_ok hprint] at h
    cases h
  | error fault c =>
    rw [printValue_of_error hprint] at h
    cases h
    rfl

theorem store (e : Expr) (id : ListId) (index v : Value) : Stays (store e id index v) := by
  intro m
  cases hset : index.toInt?.bind (m.heap.setItem? id · v) with
  | none =>
    obtain ⟨kind, heq⟩ := store_of_none e hset
    rw [heq]
    exact failWith e _ m
  | some heap =>
    obtain ⟨k, hk, hset⟩ := Option.bind_eq_some_iff.mp hset
    rw [store_of_some e hk hset]
    exact bind (printValue _) (fun _ => pure _) _

/-- Where an action goes on with one that is not left for a loop, it has been left itself. -/
theorem left_of_bind {x : Eval α} {f : α → Eval β} (hf : ∀ a, Stays (f a))
    {m m' : Machine} {stop : Stop}
    (hstop : stop.leavesLoop = true) (h : (x >>= f) m = .error stop m') : x m = .error stop m' := by
  cases hr : x m with
  | ok a m₁ =>
    rw [bind_of_ok hr] at h
    rw [hf a m₁ stop m' h] at hstop
    cases hstop
  | error stop' m₁ =>
    rw [bind_of_error hr] at h
    cases h
    rfl

end Eval.Stays

/-! ### Assignments -/

/-- The target of an assignment, and the expressions that are evaluated for it, in this order. -/
def Expr.assignment? : Expr → Option (String × List Expr)
  | .assign _ name value => some (name, [value])
  | .assignAt _ name index value => some (name, [index, value])
  | _ => none

namespace Eval

variable {lim : Limits} {e : Expr} {name : String} {operands : List Expr}
  {m m' : Machine} {stop : Stop}

/-- What an assignment does with the values of its operands. -/
def finishAssignment (e : Expr) (values : List Value) : Eval Value :=
  match e, values with
  | .assign _ name _, [v] => do
    rebind e name v
    return v
  | .assignAt _ name _ _, [i, v] => do
    match ((← get).scopes.find? name).bind (·.value), v with
    | some (.list _), .list _ => failAt e 1 .cannotBeList
    | some (.list id), v => store e id i v
    | _, _ => failAt e 1 .mustBeList
  | _, _ => return .null

theorem Stays.finishAssignment (e : Expr) (values : List Value) :
    Stays (finishAssignment e values) := by
  unfold Eval.finishAssignment
  split
  · exact (Stays.rebind _ _ _).bind fun _ => .pure _
  · refine .get_bind fun m => ?_
    split
    · exact .failWith _ _
    · exact .store _ _ _ _
    · exact .failWith _ _
  · exact .pure _

/-- **An assignment** declares its target, evaluates its operands, and does something with their
values. -/
theorem node_assignment (h : e.assignment? = some (name, operands)) (lim : Limits) (recur : Recur) :
    node lim recur e = declaring name (operands.mapM recur >>= finishAssignment e) := by
  cases e with
  | assign span _ value =>
    cases h
    simp only [node, evalAssign, List.mapM_cons, List.mapM_nil, bind_assoc, pure_bind]
    rfl
  | assignAt span _ index value =>
    cases h
    simp only [node, evalAssignAt, List.mapM_cons, List.mapM_nil, bind_assoc, pure_bind]
    rfl
  | _ => cases h

/-- The operands are evaluated at one depth, so the room for each is the same. -/
theorem mapM_within {room : Nat} (es : List Expr) (hroom : room = lim.maxDepth - m.depth) :
    es.mapM (within lim room) m = es.mapM (expr lim) m := by
  induction es generalizing m with
  | nil => rfl
  | cons e es ih =>
    have hwithin := within_eq_expr e hroom
    rw [List.mapM_cons, List.mapM_cons]
    cases hr : expr lim e m with
    | error stop m₁ => rw [bind_of_error hr, bind_of_error (hwithin.trans hr)]
    | ok v m₁ =>
      have hdepth := (kept_after_expr lim e m).depth
      rw [after_of_ok hr] at hdepth
      rw [bind_of_ok hr, bind_of_ok (hwithin.trans hr)]
      have hrest := ih (m := m₁) (by rw [hdepth, hroom])
      show EStateM.bind _ _ m₁ = EStateM.bind _ _ m₁
      simp only [EStateM.bind, hrest]

/-- A target that was declared for its assignment is removed if the assignment is left for a
loop. -/
theorem left_of_declaring {action : Eval Value} (hstop : stop.leavesLoop = true)
    (h : declaring name action m = .error stop m') :
    ∃ m₁, action (m.declare (.placeholder name)) = .error stop m₁ ∧
      m' = if (m.scopes.find? name).isSome then m₁ else m₁.forget name := by
  unfold declaring at h
  cases hfind : m.scopes.find? name with
  | some old =>
    rw [hfind] at h
    rw [m.declare_of_find? (.placeholder name) hfind]
    exact ⟨m', h, rfl⟩
  | none =>
    simp only [hfind] at h
    cases hr : action (m.declare (.placeholder name)) with
    | ok v m₁ =>
      rw [hr] at h
      cases h
    | error stop' m₁ =>
      rw [hr] at h
      cases stop' with
      | brk | nxt =>
        cases h
        exact ⟨m₁, rfl, rfl⟩
      | quit | error | unfinished =>
        cases h
        cases hstop

/-- **An assignment that is left for a loop** leaves the machine that its operands have left, but
for its target, which is removed if it was not declared before. So the names of the innermost scope
keep the values that they have got by then exactly if the target was declared before, or has got no
value. -/
theorem assignment_left (h : e.assignment? = some (name, operands)) (hstop : stop.leavesLoop = true)
    (hleft : expr lim e m = .error stop m') :
    ∃ m₁, operands.mapM (expr lim) ((m.begin e).declare (.placeholder name)) = .error stop m₁ ∧
      m' = (if (m.scopes.find? name).isSome then m₁ else m₁.forget name).finish e (some stop) ∧
      ((∀ other v, m₁.ownValue? other = some v → m'.ownValue? other = some v) ↔
        (m.scopes.find? name).isSome ∨ m₁.ownValue? name = none) := by
  obtain ⟨room, hroom⟩ : ∃ room, lim.maxDepth - m.depth = room + 1 := by
    cases hroom : lim.maxDepth - m.depth with
    | zero =>
      rw [expr, hroom] at hleft
      cases hleft
      cases hstop
    | succ room => exact ⟨room, rfl⟩
  obtain ⟨m₂, hdeclaring, rfl⟩ : ∃ m₂,
      declaring name (operands.mapM (within lim room) >>= finishAssignment e) (m.begin e) =
        .error stop m₂ ∧
        m' = m₂.finish e (some stop) := by
    rw [expr, hroom, within, counted, node_assignment h] at hleft
    cases hr : declaring name (operands.mapM (within lim room) >>= finishAssignment e)
      (m.begin e) with
    | ok v m₂ =>
      rw [hr] at hleft
      cases hleft
    | error stop' m₂ =>
      rw [hr] at hleft
      cases hleft
      exact ⟨m₂, rfl, rfl⟩
  obtain ⟨m₁, hbind, hm₂⟩ := left_of_declaring hstop hdeclaring
  have hdepth : room = lim.maxDepth - ((m.begin e).declare (.placeholder name)).depth := by
    unfold Machine.declare
    cases (m.begin e).scopes.add? (.placeholder name) <;>
      · show room = lim.maxDepth - (m.depth + 1)
        omega
  have hoperands := Stays.left_of_bind (.finishAssignment e) hstop hbind
  rw [mapM_within operands hdepth] at hoperands
  refine ⟨m₁, hoperands, congrArg (·.finish e (some stop)) hm₂, ?_⟩
  show (∀ other v, m₁.ownValue? other = some v → m₂.ownValue? other = some v) ↔ _
  have hfind : (m.begin e).scopes.find? name = m.scopes.find? name := rfl
  rw [hm₂, hfind]
  cases (m.scopes.find? name).isSome with
  | true => exact ⟨fun _ => .inl rfl, fun _ _ _ hv => hv⟩
  | false =>
    rw [← m₁.ownValue?_forget_iff name]
    simp

/-- The block `{ x <- 1; break }`. -/
def assignsThenLeaves : Expr :=
  .block ⟨20, 37⟩ [.assign ⟨22, 28⟩ "x" (.literal ⟨27, 28⟩ (.int 1)), .brk ⟨30, 35⟩]

/-- The assignment `x <- { x <- 1; break }` is left on a machine that has lost a value of its
operand. -/
theorem assignment_left_nested :
    ∃ m₁ m' : Machine, expr {} (.assign ⟨15, 37⟩ "x" assignsThenLeaves) {} = .error .brk m' ∧
      m₁.ownValue? "x" = some (.int 1) ∧
      m' = (m₁.forget "x").finish (.assign ⟨15, 37⟩ "x" assignsThenLeaves) (some .brk) ∧
      ¬ ∀ other v, m₁.ownValue? other = some v → m'.ownValue? other = some v := by
  obtain ⟨m', hleft⟩ : ∃ m', expr {} (.assign ⟨15, 37⟩ "x" assignsThenLeaves) {} = .error .brk m' :=
    ⟨_, rfl⟩
  have htarget : (Expr.assign ⟨15, 37⟩ "x" assignsThenLeaves).assignment? =
      some ("x", [assignsThenLeaves]) := rfl
  obtain ⟨m₁, hoperands, hm', hkept⟩ := assignment_left htarget rfl hleft
  have hvalue : m₁.ownValue? "x" = some (.int 1) := by
    cases hoperands
    rfl
  refine ⟨m₁, m', hleft, hvalue, hm', fun hall => ?_⟩
  rcases hkept.mp hall with hdeclared | hnone
  · cases hdeclared
  · rw [hvalue] at hnone
    cases hnone

/-- In a loop around that assignment, `x` is one and then nothing; behind the loop it is
undefined. -/
theorem value_discarded :
    ∃ p, Program.parse "while (TRUE) { x <- { x <- 1; break } }\nx".toList = .ok p ∧
      (Machine.run {} {} p).1 = .failed (.semantic ⟨.undefinedIdent, none⟩ ⟨40, 41⟩) ∧
      ∃ m₁ m' : Machine, expr {} assignsThenLeaves
          ((({} : Machine).begin (.assign ⟨15, 37⟩ "x" assignsThenLeaves)).declare
            (.placeholder "x")) =
            .error .brk m₁ ∧
        m₁.ownValue? "x" = some (.int 1) ∧
        expr {} (.assign ⟨15, 37⟩ "x" assignsThenLeaves) {} = .error .brk m' ∧
        m'.scopes.find? "x" = none := by
  refine ⟨[.whileDo ⟨0, 39⟩ (.literal ⟨7, 11⟩ (.bool true))
    (.block ⟨13, 39⟩ [.assign ⟨15, 37⟩ "x" assignsThenLeaves]), .var ⟨40, 41⟩ "x"], rfl, ?_, _, _,
      rfl, rfl, rfl, rfl⟩
  decide +kernel

end Eval

end ScopeScript
