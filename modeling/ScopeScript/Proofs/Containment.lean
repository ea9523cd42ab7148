import ScopeScript.Proofs.Abandoned
import ScopeScript.Proofs.Moments

/-!
# Where `break` and `next` lead

A `break` or a `next` leaves the expressions around it one after the other, up to the loop whose
body it stands in. It is free in an expression if it gets out of it that way: if it stands neither
in the body of a loop of the expression nor in the body of a function that the expression defines
(`Expr.hasFree`). The condition of a loop, the list of a loop and the arguments of a call are
evaluated outside of the body.

* `Eval.Avoids`: an action is not left by a given one of the two. A loop takes both of them in,
  whatever its body does, and so does a call, whatever the body of the function does: here nothing
  is assumed of sub-expressions.
* `Eval.Avoids.of_built`: all other constructs are left by what leaves one of their parts, so a
  construct in which there is no free `break` is not left by one, if the same is true of its parts
  (`Eval.Avoids.node`).
* `Eval.expr_contains_jumps`: what leaves an expression is free in it, and what leaves the body of a
  function ends the call, whose value is null.
-/

namespace ScopeScript

open Eval

/-! ### Free occurrences -/

namespace Expr

mutual

/-- Whether a `break`, or a `next` if the stop is that of `next`, is free in an expression. -/
def hasFree (stop : Stop) : Expr → Bool
  | brk _ => stop == .brk
  | nxt _ => stop == .nxt
  | literal _ _ | var _ _ | function _ _ _ | list _ _ | read _ | quit _ => false
  | element _ _ a | not _ a | assign _ _ a | print _ a | cat _ a => a.hasFree stop
  | whileDo _ cond _ => cond.hasFree stop
  | forIn _ _ items _ => items.hasFree stop
  | arith _ _ a b | logical _ _ a b | compare _ _ a b | ifThen _ a b | assignAt _ _ a b =>
    a.hasFree stop || b.hasFree stop
  | ifElse _ a b c => a.hasFree stop || b.hasFree stop || c.hasFree stop
  | block _ es | call _ _ es => anyFree stop es

/-- Whether one is free in an expression of a list. -/
def anyFree (stop : Stop) : List Expr → Bool
  | [] => false
  | e :: es => e.hasFree stop || anyFree stop es

end

theorem anyFree_eq_false_iff (stop : Stop) (es : List Expr) :
    anyFree stop es = false ↔ ∀ e ∈ es, e.hasFree stop = false := by
  induction es with
  | nil => simp [anyFree]
  | cons e es ih => simp [anyFree, ih]

end Expr

/-- A stop is free in an expression that makes use of it, and in one with an operand in which it is
free. -/
theorem Expr.hasFree_eq_false_iff {stop : Stop} {e : Expr} :
    e.hasFree stop = false ↔ (∀ a ∈ e.operands, a.hasFree stop = false) ∧ e.jump? ≠ some stop := by
  cases e with
  | block | call => simp [hasFree, operands, parts, jump?, anyFree_eq_false_iff]
  | brk | nxt => simp [hasFree, operands, parts, jump?, ne_comm]
  | _ => simp [hasFree, operands, parts, jump?, and_assoc]

/-! ### What is never left for a loop -/

namespace Eval.Stays

variable {α : Type}

theorem note (ev : Event) : Stays (note ev) := by
  intro m stop m' h
  cases h

theorem noteReturn (id : FunctionId) (v : Value) : Stays (noteReturn id v) := by
  intro m stop m' h
  cases h

theorem rejectFunction (e : Expr) (arg : Nat) (v : Value) : Stays (rejectFunction e arg v) := by
  cases v with
  | function => exact .failWith e _
  | _ => exact .pure _

theorem overflow (lim : Limits) (e : Expr) : Stays (overflow lim e) := by
  intro m stop m' h
  cases h
  rfl

theorem evalFunction (e : Expr) (params : List String) (body : Expr) :
    Stays (evalFunction e params body) := by
  intro m stop m' h
  obtain ⟨events, -, ⟨-, heq⟩ | heq⟩ := evalFunction_cases e params body m
  · rw [heq] at h
    cases h
  · rw [heq] at h
    cases h
    rfl

theorem evalList (items : List Literal) : Stays (evalList items) := by
  intro m stop m' h
  cases h

theorem onConsole (action : Console.Action α) : Stays (onConsole action) := by
  intro m stop m' h
  cases hr : action m.console with
  | ok a c =>
    rw [onConsole_of_ok hr] at h
    cases h
  | error fault c =>
    rw [onConsole_of_error hr] at h
    cases h
    rfl

theorem evalRead : Stays evalRead :=
  (onConsole _).bind fun line => (note (.consumed line)).bind fun _ => .pure _

theorem declareLoopVar (e : Expr) (name : String) : Stays (declareLoopVar e name) := by
  intro m stop m' h
  unfold Eval.declareLoopVar at h
  cases hfind : m.scopes.find? name with
  | none =>
    rw [hfind] at h
    cases h
  | some entry =>
    simp only [hfind] at h
    split at h
    · cases h
      rfl
    · cases h

/-- A call that is left gives no reason for a loop around it to end: here the body of the function
has been left for good. -/
theorem leaveCall (e : Expr) (hidden : List Scope) (ended : Except Stop Value) :
    Stays (leaveCall e hidden ended) := by
  intro m stop m' h
  unfold Eval.leaveCall at h
  cases hclose : m.closeScope? with
  | none =>
    rw [hclose] at h
    cases h
    rfl
  | some m₁ =>
    rw [hclose] at h
    cases ended with
    | ok v => cases h
    | error stop' =>
      cases stop' with
      | brk | nxt => cases h
      | quit | error | unfinished =>
        cases h
        rfl

theorem invoke (recur : Recur) (e : Expr) (id : FunctionId) (f : Function) (args : List Int64) :
    Stays (invoke recur e id f args) := by
  intro m stop m' h
  unfold Eval.invoke at h
  dsimp only at h
  cases hr : recur f.body (enter m id f args).2 with
  | ok v m₁ =>
    rw [hr] at h
    exact leaveCall e _ _ m₁ stop m' h
  | error stop₁ m₁ =>
    rw [hr] at h
    exact leaveCall e _ _ m₁ stop m' h

theorem apply (recur : Recur) (e : Expr) (name : String) (id : FunctionId) (f : Function)
    (args : List Int64) :
    Stays (apply recur e name id f args) := by
  unfold Eval.apply
  split
  · exact .failWith e _
  · split
    · exact .failWith e _
    · refine (note _).bind fun _ => (invoke recur e id f args).bind fun v => ?_
      exact (rejectFunction e 2 v).bind fun w => (noteReturn id w).bind fun _ => .pure w

end Eval.Stays

/-- **A call is left for a loop by its arguments only**, whatever the body of the function does. -/
theorem Eval.Stays.callWith (recur : Recur) (e : Expr) (name : String) (ns : List Int64) :
    Stays (callWith recur e name ns) := by
  refine .get_bind fun m => ?_
  split
  · exact .failWith e _
  · split
    · exact .apply recur e name _ _ ns
    · exact .failWith e _
  · exact .failWith e _

/-! ### Constructs that are not left by a given stop -/

/-- Counting an expression does not change how it is left. -/
theorem Eval.left_of_counted {e : Expr} {action : Eval Value} {stop : Stop} {m m' : Machine}
    (h : counted e action m = .error stop m') :
    ∃ m₁, action (m.begin e) = .error stop m₁ ∧ m' = m₁.finish e (some stop) := by
  unfold counted at h
  cases hr : action (m.begin e) with
  | ok v m₁ =>
    rw [hr] at h
    cases h
  | error stop' m₁ =>
    rw [hr] at h
    cases h
    exact ⟨m₁, rfl, rfl⟩

/-- The action is not left by the given stop. -/
def Eval.Avoids {α : Type} (stop : Stop) (x : Eval α) : Prop :=
  ∀ m m', x m ≠ .error stop m'

namespace Eval.Avoids

variable {α β : Type} {stop : Stop} {recur : Recur}

theorem of_stays {x : Eval α} (hstop : stop.leavesLoop = true) (h : Stays x) : Avoids stop x := by
  intro m m' heq
  rw [h m stop m' heq] at hstop
  cases hstop

theorem bind {x : Eval α} {f : α → Eval β} (hx : Avoids stop x) (hf : ∀ a, Avoids stop (f a)) :
    Avoids stop (x >>= f) := by
  intro m m' h
  cases hr : x m with
  | ok a m₁ =>
    rw [bind_of_ok hr] at h
    exact hf a m₁ m' h
  | error stop' m₁ =>
    rw [bind_of_error hr] at h
    cases h
    exact hx m m' hr

theorem get_bind {f : Machine → Eval α} (hf : ∀ m, Avoids stop (f m)) : Avoids stop (get >>= f) :=
  fun m => hf m m

/-- A stop for a loop that leaves an assignment has left one of its operands. -/
theorem declaring (hstop : stop.leavesLoop = true) (name : String) {action : Eval Value}
    (h : Avoids stop action) :
    Avoids stop (declaring name action) := by
  intro m m' heq
  obtain ⟨m₁, haction, -⟩ := left_of_declaring hstop heq
  exact h _ m₁ haction

/-- **A round takes in what leaves the body**, so only what comes after it matters. -/
theorem round (hstop : stop.leavesLoop = true) (body : Eval Value) (result : Value)
    {next : Value → Eval Value}
    (hnext : ∀ v, Avoids stop (next v)) : Avoids stop (round body result next) := by
  intro m m' h
  unfold Eval.round at h
  cases hr : body m with
  | ok v m₁ =>
    rw [hr] at h
    exact hnext v m₁ m' h
  | error stop' m₁ =>
    rw [hr] at h
    cases stop' with
    | brk => cases h
    | nxt => exact hnext result m₁ m' h
    | quit | error | unfinished =>
      cases h
      cases hstop

/-- **What an action is put together of leaves it by a stop for a loop** only if it evaluates an
expression that is left by the stop, bodies of loops aside, or makes use of the stop itself. -/
theorem of_built {u : Means} {x : Recur → Eval α} (hbuilt : Built u x)
    (hstop : stop.leavesLoop = true)
    (hoperands : ∀ a, u.operand a → Avoids stop (recur a)) (hjump : ¬ u.jump stop) :
    Avoids stop (x recur) := by
  induction hbuilt with
  | pure a => exact .of_stays hstop (.pure a)
  | stop h =>
    intro m m' heq
    cases heq
    exact hjump (h hstop)
  | ask h => exact hoperands _ h
  | bind _ _ ihy ihf => exact ihy.bind ihf
  | get_bind _ ih => exact .get_bind ih
  | declaring _ name _ ih => exact .declaring hstop name ih
  | round _ result _ ih => exact .round hstop _ result ih
  | rebind e name v => exact .of_stays hstop (.rebind e name v)
  | declareLoopVar _ e name => exact .of_stays hstop (.declareLoopVar e name)
  | printValue _ v => exact .of_stays hstop (.printValue v)
  | store _ e id index v => exact .of_stays hstop (.store e id index v)
  | evalFunction e params body => exact .of_stays hstop (.evalFunction e params body)
  | evalList items => exact .of_stays hstop (.evalList items)
  | evalRead => exact .of_stays hstop .evalRead
  | apply _ e name id f args => exact .of_stays hstop (.apply recur e name id f args)

/-- **One level of evaluation** is not left by what is not free in it, if its parts are not left by
what is not free in them. What the bodies of loops and functions do does not matter. -/
theorem node (hstop : stop.leavesLoop = true)
    (hrec : ∀ e, e.hasFree stop = false → Avoids stop (recur e))
    (lim : Limits) {e : Expr} (hfree : e.hasFree stop = false) :
    Avoids stop (node lim recur e) := by
  obtain ⟨hoperands, hjump⟩ := Expr.hasFree_eq_false_iff.mp hfree
  exact of_built (.node lim e) hstop (fun a ha => hrec a (hoperands a ha)) hjump

theorem counted {e : Expr} {action : Eval Value} (h : Avoids stop action) :
    Avoids stop (counted e action) := by
  intro m m' heq
  obtain ⟨m₁, haction, -⟩ := left_of_counted heq
  exact h _ m₁ haction

/-- An expression is not left by what is not free in it, whatever room it is given: the induction is
on the room, in which bodies of functions are expressions like any other. -/
theorem within (hstop : stop.leavesLoop = true) (lim : Limits) (room : Nat) {e : Expr}
    (hfree : e.hasFree stop = false) : Avoids stop (within lim room e) := by
  induction room generalizing e with
  | zero => exact .of_stays hstop (.overflow lim e)
  | succ room ih => exact counted (node hstop (fun _ => ih) lim hfree)

end Eval.Avoids

namespace Eval

variable {lim : Limits} {room : Nat} {e : Expr} {name : String} {args : List Expr}
  {m m₁ m₂ m' : Machine}
  {ns : List Int64} {id : FunctionId} {f : Function} {stop : Stop}

/-! ### Calls -/

/-- Where there is no room for an expression, it is not left for a loop. -/
theorem exists_room_of_left (hstop : stop.leavesLoop = true) (h : expr lim e m = .error stop m') :
    ∃ room, lim.maxDepth - m.depth = room + 1 := by
  cases hroom : lim.maxDepth - m.depth with
  | zero =>
    rw [expr, hroom] at h
    exact absurd h (Avoids.of_stays hstop (.overflow lim e) m m')
  | succ room => exact ⟨room, rfl⟩

/-- A call that is left for a loop has been left in the course of its arguments. -/
theorem evalArgs_left_of_call {span : Span} (hstop : stop.leavesLoop = true)
    (h : expr lim (.call span name args) m = .error stop m') :
    ∃ m₁, evalArgs (expr lim) (.call span name args) args (m.begin (.call span name args)) =
      .error stop m₁ := by
  obtain ⟨room, hroom⟩ := exists_room_of_left hstop h
  rw [expr, hroom] at h
  obtain ⟨m₁, hcall, -⟩ := left_of_counted h
  have hargs :=
    Stays.left_of_bind (.callWith _ _ name)
      hstop ((congrFun (evalCall_eq _ _ name args) _).symm.trans hcall)
  have hbegin : room = lim.maxDepth - (m.begin (.call span name args)).depth := by
    show room = lim.maxDepth - (m.depth + 1)
    omega
  exact ⟨m₁, (evalArgs_within _ args _ hbegin).symm.trans hargs⟩

/-- The body of a function begins at the depth at which the arguments of the call began. -/
theorem depth_enter (hroom : room = lim.maxDepth - m.depth)
    (hargs : evalArgs (within lim room) e args m = .ok ns m₁) (ev : Event) :
    (enter (m₁.note ev) id f ns).2.depth = m.depth := by
  obtain ⟨s, events, -, -, -, henter⟩ := enter_eq (m₁.note ev) id f ns
  have hdepth : m₁.depth = m.depth := depth_evalArgs hroom hargs
  rw [henter]
  exact hdepth

/-- **The body of a function that is left for a loop** ends the call like a body with the value
null: the scopes of the caller are back, and the function is known to have returned null. -/
theorem evalCall_of_left (hroom : room = lim.maxDepth - m.depth)
    (hargs : evalArgs (within lim room) e args m = .ok ns m₁) (hcall : Calls m₁ name id f ns)
    (hstop : stop.leavesLoop = true)
    (hbody : expr lim f.body (enter (m₁.note (.calling name ns.length)) id f ns).2 =
      .error stop m₂) :
    ∃ m₃, evalCall (within lim room) e name args m = .ok .null m₃ ∧
    m₃.scopes.scopes = m₁.scopes.scopes ∧
      m₃.heap = m₂.heap.noteResult id Value.null.typeClass ∧ m₃.console = m₂.console := by
  let caller := m₁.note (.calling name ns.length)
  have hdepth : (enter caller id f ns).2.depth = m.depth := depth_enter hroom hargs _
  have hwithin : within lim room f.body (enter caller id f ns).2 = .error stop m₂ :=
    (within_eq_expr f.body (by rw [hdepth, hroom])).trans hbody
  have hkept := kept_after_expr lim f.body (enter caller id f ns).2
  rw [after_of_error hbody] at hkept
  have hinvoke : invoke (within lim room) e id f ns caller = .ok .null (caller.resume m₂) := by
    unfold invoke
    dsimp only
    rw [hwithin]
    dsimp only
    rw [leaveCall_eq e hkept]
    cases stop with
    | brk | nxt => rfl
    | quit | error | unfinished => cases hstop
  rw [evalCall_of_calls hargs hcall, bind_of_ok hinvoke]
  exact ⟨_, rfl, rfl, rfl, rfl⟩

/-- The same of a call as an expression. There is room for the call, since there was some for the
body. -/
theorem call_of_left {span : Span}
    (hargs : evalArgs (expr lim) (.call span name args) args (m.begin (.call span name args)) =
      .ok ns m₁)
    (hcall : Calls m₁ name id f ns) (hstop : stop.leavesLoop = true)
    (hbody : expr lim f.body (enter (m₁.note (.calling name ns.length)) id f ns).2 =
      .error stop m₂) :
    ∃ m₃, expr lim (.call span name args) m = .ok .null m₃ ∧ m₃.scopes.scopes = m₁.scopes.scopes ∧
      m₃.heap = m₂.heap.noteResult id Value.null.typeClass ∧ m₃.console = m₂.console := by
  have hbegin : lim.maxDepth - (m.depth + 1) = lim.maxDepth -
      (m.begin (.call span name args)).depth := rfl
  rw [← evalArgs_within _ args _ hbegin] at hargs
  obtain ⟨room, hroom⟩ := exists_room_of_left hstop hbody
  rw [depth_enter hbegin hargs] at hroom
  have hsucc : lim.maxDepth - m.depth = lim.maxDepth - (m.depth + 1) + 1 := by
    have hroom' : lim.maxDepth - (m.depth + 1) = room + 1 := hroom
    omega
  obtain ⟨m₃, heq, hscopes, hheap, hconsole⟩ := evalCall_of_left hbegin hargs hcall hstop hbody
  refine ⟨m₃.finish (.call span name args) none, ?_, hscopes, hheap, hconsole⟩
  rw [expr, hsucc, within, counted, node, heq]

/-- **`break` and `next` are contained.** An expression is left by a `break` only if a `break` is
free in it, and by a `next` only if a `next` is. A call that is left by one of them has been left by
it in the course of its arguments; where the body of the function is left by one, the call has the
value null, on the scopes of the caller. -/
theorem expr_contains_jumps (lim : Limits) (e : Expr) (m : Machine) :
    (∀ stop m', stop.leavesLoop = true → expr lim e m = .error stop m' → e.hasFree stop = true) ∧
      ∀ span name args, e = .call span name args →
        (∀ stop m', stop.leavesLoop = true → expr lim e m = .error stop m' →
          ∃ m₁, evalArgs (expr lim) e args (m.begin e) = .error stop m₁) ∧
        ∀ ns m₁ id f stop m₂, evalArgs (expr lim) e args (m.begin e) = .ok ns m₁ →
        Calls m₁ name id f ns →
          stop.leavesLoop = true →
          expr lim f.body (enter (m₁.note (.calling name ns.length)) id f ns).2 = .error stop m₂ →
          ∃ m₃, expr lim e m = .ok .null m₃ ∧ m₃.scopes.scopes = m₁.scopes.scopes ∧
            m₃.heap = m₂.heap.noteResult id Value.null.typeClass ∧ m₃.console = m₂.console := by
  constructor
  · intro stop m' hstop h
    cases hfree : e.hasFree stop with
    | true => rfl
    | false => exact absurd h (Avoids.within hstop lim _ hfree m m')
  · rintro span name args rfl
    refine ⟨fun stop m' hstop h => evalArgs_left_of_call hstop h, ?_⟩
    intro ns m₁ id f stop m₂ hargs hcall hstop hbody
    exact call_of_left hargs hcall hstop hbody

/-- A machine on which `f` is the function whose body is `{ break }`. -/
def leavingMachine : Machine where
  scopes := ⟨[⟨0, [⟨"f", .plain .ofFunction, some (.function 0)⟩]⟩], 1⟩
  heap := { functions := #[⟨[], .block ⟨16, 25⟩ [.brk ⟨18, 23⟩], 0, 1, [0], none⟩] }

/-- The call `f(break)` is left by its argument, and the call `f()` is null. -/
theorem expr_contains_jumps_of_call :
    (∃ m', expr {} (.call ⟨0, 8⟩ "f" [.brk ⟨2, 7⟩]) leavingMachine = .error .brk m') ∧
      Expr.hasFree .brk (.call ⟨0, 8⟩ "f" [.brk ⟨2, 7⟩]) = true ∧
      (∃ m₁, evalArgs (expr {}) (.call ⟨0, 8⟩ "f" [.brk ⟨2, 7⟩]) [.brk ⟨2, 7⟩]
        (leavingMachine.begin (.call ⟨0, 8⟩ "f" [.brk ⟨2, 7⟩])) = .error .brk m₁) ∧
      ∃ m₃, expr {} (.call ⟨0, 3⟩ "f" []) leavingMachine = .ok .null m₃ ∧
        m₃.scopes.scopes = leavingMachine.scopes.scopes := by
  obtain ⟨m', hleft⟩ : ∃ m', expr {} (.call ⟨0, 8⟩ "f" [.brk ⟨2, 7⟩]) leavingMachine =
      .error .brk m' := ⟨_, rfl⟩
  obtain ⟨hfree, hcall⟩ := expr_contains_jumps {} (.call ⟨0, 8⟩ "f" [.brk ⟨2, 7⟩]) leavingMachine
  obtain ⟨m₃, hnull, hscopes, -⟩ :=
    ((expr_contains_jumps {} (.call ⟨0, 3⟩ "f" []) leavingMachine).2 _ _ _ rfl).2
      [] _ 0 _ .brk _ rfl
      ⟨rfl, rfl, rfl⟩ rfl rfl
  exact ⟨⟨m', hleft⟩, hfree .brk m' rfl hleft, (hcall _ _ _ rfl).1 .brk m' rfl hleft, m₃,
    hnull, hscopes⟩

end Eval

end ScopeScript
