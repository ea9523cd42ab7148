import ScopeScript.Proofs.LogLaw

/-!
# Scope discipline

However the evaluation of an expression ends, it gives the scopes back as it found them, except that
names may have been bound or added in the innermost one (`Eval.expr_keeps_scopes`). A call does not
even do that: what it leaves of the caller's scopes is what its arguments left of them.

The first part is what every law says of every evaluation, and so of the law that says nothing else
(`LogLaw.free`). For calls the body of the function has to be followed: it runs on scopes of its
own, and leaving it puts back the scopes of the caller whatever became of the others.
-/

namespace ScopeScript

namespace Eval

variable {α β : Type} {lim : Limits} {m m' : Machine}

/-- The machine that an action leaves, however it ends. -/
def after (x : Eval α) (m : Machine) : Machine :=
  match x m with
  | .ok _ m' => m'
  | .error _ m' => m'

theorem after_of_ok {x : Eval α} {a : α} (h : x m = .ok a m') : x.after m = m' := by
  simp only [after, h]

theorem after_of_error {x : Eval α} {stop : Stop} (h : x m = .error stop m') : x.after m = m' := by
  simp only [after, h]

/-- What is done after an action and changes no scopes does not matter for what the action left. -/
theorem after_bind_scopes (x : Eval α) (f : α → Eval β)
    (hf : ∀ a m', x m = .ok a m' → ((f a).after m').scopes.scopes = m'.scopes.scopes) :
    ((x >>= f).after m).scopes.scopes = (x.after m).scopes.scopes := by
  cases hx : x m with
  | ok a m' =>
    rw [after_of_ok hx, ← hf a m' hx]
    simp only [after, bind_of_ok hx]
  | error stop m' =>
    rw [after_of_error hx, after_of_error (bind_of_error hx)]

theorem after_counted_scopes (e : Expr) (action : Eval Value) (m : Machine) :
    ((counted e action).after m).scopes = (action.after (m.begin e)).scopes := by
  simp only [after, counted]
  cases action (m.begin e) <;> rfl

/-- Evaluation takes nothing away from the scopes. -/
theorem kept_after_expr (lim : Limits) (e : Expr) (m : Machine) :
    m.Kept ((expr lim e).after m) := by
  have hended := (LogLaw.free lim).toLaw.expr (m := m) (e := e) trivial trivial
  cases hr : expr lim e m with
  | ok v m' =>
    rw [hr] at hended
    rw [after_of_ok hr]
    exact hended.1.kept
  | error stop m' =>
    rw [hr] at hended
    rw [after_of_error hr]
    exact hended.1.kept

/-- With the room that the limits leave at the depth of a machine, evaluation is `Eval.expr`. -/
theorem within_eq_expr {room : Nat} (e : Expr) (hroom : room = lim.maxDepth - m.depth) :
    within lim room e m = expr lim e m := by
  rw [hroom]
  rfl

/-- Where a value comes out, there was room for the expression. -/
theorem exists_room_of_ok {e : Expr} {v : Value} (h : expr lim e m = .ok v m') :
    ∃ room, lim.maxDepth - m.depth = room + 1 := by
  cases hroom : lim.maxDepth - m.depth with
  | zero =>
    rw [expr, hroom] at h
    cases h
  | succ room => exact ⟨room, rfl⟩

/-- Arguments of a call are evaluated at one depth, so the room for each is the same. -/
theorem evalArgs_within {room : Nat} (e : Expr) (args : List Expr) (m : Machine)
    (hroom : room = lim.maxDepth - m.depth) :
    evalArgs (within lim room) e args m = evalArgs (expr lim) e args m := by
  induction args generalizing m with
  | nil => rfl
  | cons a as ih =>
    have hkept := kept_after_expr lim a m
    have hwithin := within_eq_expr a hroom
    unfold evalArgs
    cases hr : expr lim a m with
    | error stop m₁ => rw [bind_of_error hr, bind_of_error (hwithin.trans hr)]
    | ok v m₁ =>
      rw [after_of_ok hr] at hkept
      rw [bind_of_ok hr, bind_of_ok (hwithin.trans hr)]
      cases v.toInt? with
      | none => rfl
      | some n =>
        have hrest := ih m₁ (by rw [hkept.depth, hroom])
        show EStateM.bind _ _ m₁ = EStateM.bind _ _ m₁
        simp only [EStateM.bind, hrest]

/-! ### Calls -/

section

variable {room : Nat} {e : Expr}

theorem after_invoke_scopes (id : FunctionId) (f : Function) (args : List Int64) (m : Machine)
    (hroom : room = lim.maxDepth - m.depth) :
    ((invoke (within lim room) e id f args).after m).scopes.scopes = m.scopes.scopes := by
  have hdepth : (enter m id f args).2.depth = m.depth := by
    obtain ⟨s, events, -, -, -, henter⟩ := enter_eq m id f args
    rw [henter]
    rfl
  have hbody : within lim room f.body (enter m id f args).2 =
      expr lim f.body (enter m id f args).2 :=
    within_eq_expr f.body (by rw [hdepth, hroom])
  have hkept := kept_after_expr lim f.body (enter m id f args).2
  unfold after invoke
  dsimp only
  rw [hbody]
  cases hr : expr lim f.body (enter m id f args).2 with
  | ok v m' =>
    rw [after_of_ok hr] at hkept
    dsimp only
    rw [leaveCall_eq e hkept]
    rfl
  | error stop m' =>
    rw [after_of_error hr] at hkept
    dsimp only
    rw [leaveCall_eq e hkept]
    cases stop <;> rfl

theorem after_apply_scopes (name : String) (id : FunctionId) (f : Function) (args : List Int64)
    (m : Machine) (hroom : room = lim.maxDepth - m.depth) :
    ((apply (within lim room) e name id f args).after m).scopes.scopes = m.scopes.scopes := by
  unfold apply
  split
  · rfl
  · split
    · rfl
    · have hinvoke :=
        after_invoke_scopes (e := e) id f args (m.note (.calling name args.length)) hroom
      show ((invoke (within lim room) e id f args >>= fun v => rejectFunction e 2 v >>= fun w =>
        noteReturn id w >>= fun _ => pure w).after
          (m.note (.calling name args.length))).scopes.scopes = _
      rw [after_bind_scopes, hinvoke]
      · rfl
      · intro v m' _
        cases v <;> rfl

/-- The arguments of a call are evaluated at the depth of the call. -/
theorem depth_evalArgs {args : List Expr} {ns : List Int64}
    (hroom : room = lim.maxDepth - m.depth) (h : evalArgs (within lim room) e args m = .ok ns m') :
    m'.depth = m.depth := by
  have hrec : (LogLaw.free lim).toLaw.Recurs (within lim room) m.depth := by
    intro e' m₁ _ hat
    exact Law.within room trivial (by rw [hat.depth, hroom]) trivial
  have hended := Law.evalArgs (e := e) hrec (fun a (_ : a ∈ args) => trivial) ⟨trivial, rfl⟩
  rw [h] at hended
  exact hended.1.kept.depth

/-- A call leaves the scopes as its arguments left them. -/
theorem after_evalCall_scopes (name : String) (args : List Expr) (m : Machine)
    (hroom : room = lim.maxDepth - m.depth) :
    ((evalCall (within lim room) e name args).after m).scopes.scopes =
      ((evalArgs (within lim room) e args).after m).scopes.scopes := by
  unfold evalCall
  refine after_bind_scopes _ _ fun ns m₁ hargs => ?_
  have hdepth : m₁.depth = m.depth := depth_evalArgs hroom hargs
  simp only [after]
  rw [get_bind]
  cases m₁.scopes.lookup? name with
  | none => rfl
  | some target =>
    cases target with
    | function id =>
      cases hfunction : m₁.heap.function? id with
      | none =>
        simp only [hfunction]
        rfl
      | some f =>
        simp only [hfunction]
        exact after_apply_scopes name id f ns m₁ (by rw [hdepth, hroom])
    | _ => rfl

/-- The scopes that a call leaves are those that its arguments leave, which is also right where
there is no room for the call or for its arguments. -/
theorem after_call_scopes (span : Span) (name : String) (args : List Expr) (m : Machine) :
    ((expr lim (.call span name args)).after m).scopes.scopes =
      ((evalArgs (expr lim) (.call span name args) args).after
        (m.begin (.call span name args))).scopes.scopes := by
  cases hroom : lim.maxDepth - m.depth with
  | zero =>
    have hleft : (expr lim (.call span name args)).after m = m := by
      simp only [after, expr, hroom]
      rfl
    rw [hleft]
    cases args with
    | nil => rfl
    | cons a as =>
      have hover : expr lim a (m.begin (.call span name (a :: as))) =
          overflow lim a (m.begin (.call span name (a :: as))) := by
        have hzero : lim.maxDepth - (m.begin (.call span name (a :: as))).depth = 0 := by
          show lim.maxDepth - (m.depth + 1) = 0
          omega
        rw [← within_eq_expr a hzero.symm]
        rfl
      unfold evalArgs
      rw [after_of_error (bind_of_error hover)]
      rfl
  | succ room =>
    have hbegin : room = lim.maxDepth - (m.begin (.call span name args)).depth := by
      show room = lim.maxDepth - (m.depth + 1)
      omega
    have hcall := after_evalCall_scopes (e := .call span name args) name args _ hbegin
    have hexpr : expr lim (.call span name args) m = counted (.call span name args)
        (evalCall (within lim room) (.call span name args) name args) m := by
      rw [expr, hroom]
      rfl
    calc ((expr lim (.call span name args)).after m).scopes.scopes
      _ = ((counted (.call span name args)
            (evalCall (within lim room) (.call span name args) name args)).after
              m).scopes.scopes := by
        rw [after, hexpr]
        rfl
      _ = ((evalArgs (within lim room) (.call span name args) args).after
            (m.begin (.call span name args))).scopes.scopes := by
        rw [after_counted_scopes, hcall]
      _ = _ := by
        rw [after, evalArgs_within _ _ _ hbegin]
        rfl

end

end Eval

/-- **Scope discipline.** However the evaluation of an expression ends, there are as many scopes as
before; all but the innermost one are the same; a name of the innermost one is still there, with a
value if it had one, and is a parameter if it was one; and the number of expressions under
evaluation is the old one. A call leaves all scopes as the evaluation of its arguments has left
them. -/
theorem Eval.expr_keeps_scopes (lim : Limits) (e : Expr) (m : Machine) :
    let m' := (Eval.expr lim e).after m
    m'.scopes.depth = m.scopes.depth ∧
      m'.scopes.scopes.tail = m.scopes.scopes.tail ∧
      (∀ name entry, m.scopes.find? name = some entry →
        ∃ entry', m'.scopes.find? name = some entry' ∧
        (entry.value.isSome → entry'.value.isSome) ∧ entry'.info.isParam = entry.info.isParam) ∧
      m'.depth = m.depth ∧
      (∀ span name args, e = .call span name args → m'.scopes.scopes =
        ((Eval.evalArgs (Eval.expr lim) e args).after (m.begin e)).scopes.scopes) := by
  have hkept := Eval.kept_after_expr lim e m
  refine ⟨hkept.stack.length_eq, hkept.stack.tail_eq, ?_, hkept.depth, ?_⟩
  · intro name entry hentry
    obtain ⟨entry', hentry', hk⟩ := hkept.find? hentry
    exact ⟨entry', hentry', hk.value, hk.isParam⟩
  · rintro span name args rfl
    exact Eval.after_call_scopes span name args m

/-- The call `f(x <- 2)` fails where there is no `f`; the parameter `x` is still there and still
one. -/
theorem Eval.failed_call_keeps_param :
    let m : Machine := { scopes := ⟨[⟨1, [⟨"x", .param, some (.int 1)⟩]⟩, ⟨0, []⟩], 2⟩ }
    let e : Expr := .call ⟨0, 9⟩ "f" [.assign ⟨2, 8⟩ "x" (.literal ⟨7, 8⟩ (.int 2))]
    m.scopes.find? "x" = some ⟨"x", .param, some (.int 1)⟩ ∧
      ∃ entry, ((Eval.expr {} e).after m).scopes.find? "x" = some entry ∧ entry.value.isSome ∧
        entry.info.isParam = true := by
  intro m e
  have hfind : m.scopes.find? "x" = some ⟨"x", .param, some (.int 1)⟩ := by decide +kernel
  obtain ⟨entry, hentry, hvalue, hparam⟩ := (Eval.expr_keeps_scopes {} e m).2.2.1 "x" _ hfind
  exact ⟨hfind, entry, hentry, hvalue rfl, hparam⟩

end ScopeScript
