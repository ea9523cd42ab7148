import ScopeScript.Proofs.Moments

/-!
# Failing fast

Quitting and errors are fatal: once the evaluation of an expression has ended with one of them,
however deep inside of others, the run of the program is over. All that is left to do is to count
the expressions around it as done and to close the scopes of the calls around it
(`Machine.Unwinds`); nothing is evaluated, read, written or stored, and the run ends for the very
same reason (`Machine.run_fails_fast`).

Which evaluations are made in the course of another one is not spelled out construct by construct. A
construct is told how to evaluate sub-expressions; it evaluates `e₁` on `m₁` if a different answer
to this one question, and to no other, would make it end differently (`Eval.Asks`). A construct that
swallowed an error would still ask, so nothing about errors is taken for granted here.

The proof compares two ways of evaluating sub-expressions that differ in this one answer, the second
of which is fatal there. Whatever a construct does with the first one, with the second one it does
the same or relays the fatal stop (`Eval.Relays`), since that is so of everything that it is put
together of (`Eval.Relays.of_built`).
-/

namespace ScopeScript

open Eval

/-! ### Unwinding -/

/-- Whether a stop ends the program. -/
def Stop.isFatal : Stop → Bool
  | .quit | .error _ => true
  | .brk | .nxt | .unfinished => false

/-- What happens on the way out: an expression is left for the given reason, or a scope is
closed. -/
def Event.IsUnwinding (stop : Stop) (ev : Event) : Prop :=
  (∃ span, ev = .left span (some stop)) ∨ ∃ depth, ev = .exiting depth

/-- From the first machine to the second one, expressions and calls were left for the given reason.
Lists, functions and the console are untouched, and nothing else has happened. -/
structure Machine.Unwinds (stop : Stop) (m m' : Machine) : Prop where
  heap : m'.heap = m.heap
  console : m'.console = m.console
  log : m.Logs (Event.IsUnwinding stop) m'

namespace Machine.Unwinds

variable {stop : Stop} {a b c : Machine}

theorem refl (stop : Stop) (m : Machine) : m.Unwinds stop m := ⟨rfl, rfl, .refl m⟩

theorem trans (hab : a.Unwinds stop b) (hbc : b.Unwinds stop c) : a.Unwinds stop c :=
  ⟨hbc.heap.trans hab.heap, hbc.console.trans hab.console, hab.log.trans hbc.log⟩

theorem finish (m : Machine) (e : Expr) : m.Unwinds stop (m.finish e (some stop)) :=
  ⟨rfl, rfl, .cons rfl (.inl ⟨e.span, rfl⟩)⟩

end Machine.Unwinds

/-- A fatal stop goes through a call. -/
theorem Eval.leaveCall_of_isFatal (e : Expr) (hidden : List Scope) {stop : Stop} {m : Machine}
    (hopen : m.scopes.depth ≠ 0) (hfatal : stop.isFatal) :
    ∃ m', leaveCall e hidden (.error stop) m = .error stop m' ∧ m.Unwinds stop m' := by
  obtain ⟨s, outer, hs⟩ := List.exists_cons_of_length_pos (Nat.pos_of_ne_zero hopen)
  unfold leaveCall
  rw [m.closeScope?_cons hs]
  cases stop with
  | quit | error => exact ⟨_, rfl, rfl, rfl, .cons rfl (.inr ⟨_, rfl⟩)⟩
  | brk | nxt | unfinished => cases hfatal

/-! ### Actions that relay a fatal stop -/

/-- The second action does what the first one does, or it has relayed a stop with which an
evaluation has ended on the machine `m₁`. -/
def Eval.Relays (stop : Stop) (m₁ : Machine) {α : Type} (x x' : Eval α) : Prop :=
  ∀ m, x' m = x m ∨ ∃ m', x' m = .error stop m' ∧ m₁.Unwinds stop m'

namespace Eval.Relays

variable {α β : Type} {stop : Stop} {m₁ : Machine} {x x' : Eval α} {recur recur' : Recur}

theorem refl (x : Eval α) : Relays stop m₁ x x := fun _ => .inl rfl

theorem bind {f f' : α → Eval β} (hx : Relays stop m₁ x x')
    (hf : ∀ a, Relays stop m₁ (f a) (f' a)) :
    Relays stop m₁ (x >>= f) (x' >>= f') := by
  intro m
  rcases hx m with heq | ⟨m', hstop, hunwinds⟩
  · cases h : x m with
    | ok a m' =>
      rw [bind_of_ok h, bind_of_ok (heq.trans h)]
      exact hf a m'
    | error stop' m' => exact .inl (by rw [bind_of_error h, bind_of_error (heq.trans h)])
  · exact .inr ⟨m', bind_of_error hstop, hunwinds⟩

theorem get_bind {f f' : Machine → Eval α} (hf : ∀ m, Relays stop m₁ (f m) (f' m)) :
    Relays stop m₁ (get >>= f) (get >>= f') :=
  fun m => hf m m

/-- A name that was declared for an action is removed for a loop only. -/
theorem declaring (hfatal : stop.isFatal) (name : String) {action action' : Eval Value}
    (h : Relays stop m₁ action action') :
    Relays stop m₁ (declaring name action) (declaring name action') := by
  intro m
  unfold Eval.declaring
  cases m.scopes.find? name with
  | some old => exact h m
  | none =>
    dsimp only
    rcases h (m.declare (.placeholder name)) with heq | ⟨m', hstop, hunwinds⟩
    · exact .inl (by rw [heq])
    · refine .inr ⟨m', ?_, hunwinds⟩
      rw [hstop]
      cases stop with
      | quit | error => rfl
      | brk | nxt | unfinished => cases hfatal

/-- A round ends early for a loop only. -/
theorem round (hfatal : stop.isFatal) {body body' : Eval Value} (hbody : Relays stop m₁ body body')
    (result : Value) {next next' : Value → Eval Value}
    (hnext : ∀ v, Relays stop m₁ (next v) (next' v)) :
    Relays stop m₁ (round body result next) (round body' result next') := by
  intro m
  unfold Eval.round
  rcases hbody m with heq | ⟨m', hstop, hunwinds⟩
  · rw [heq]
    cases body m with
    | ok v m' => exact hnext v m'
    | error stop' m' =>
      cases stop' with
      | nxt => exact hnext result m'
      | brk | quit | error | unfinished => exact .inl rfl
  · refine .inr ⟨m', ?_, hunwinds⟩
    rw [hstop]
    cases stop with
    | quit | error => rfl
    | brk | nxt | unfinished => cases hfatal

/-- The scope of a call is still there to be closed when its body has stopped. -/
theorem invoke (hfatal : stop.isFatal) (hrec : ∀ e, Relays stop m₁ (recur e) (recur' e))
    (honward : ∀ e, Onward (recur' e)) (e : Expr) (id : FunctionId) (f : Function)
    (args : List Int64) :
    Relays stop m₁ (invoke recur e id f args) (invoke recur' e id f args) := by
  intro m
  unfold Eval.invoke
  dsimp only
  rcases hrec f.body (enter m id f args).2 with heq | ⟨m', hstop, hunwinds⟩
  · exact .inl (by rw [heq])
  · have hopen : m'.scopes.depth ≠ 0 := by
      rw [((honward f.body).of_error hstop).depth]
      exact (continues_enter m id f args).2.1
    obtain ⟨m'', hleave, hleft⟩ := leaveCall_of_isFatal e (enter m id f args).1 hopen hfatal
    rw [hstop]
    exact .inr ⟨m'', hleave, hunwinds.trans hleft⟩

theorem apply (hfatal : stop.isFatal) (hrec : ∀ e, Relays stop m₁ (recur e) (recur' e))
    (honward : ∀ e, Onward (recur' e)) (e : Expr) (name : String) (id : FunctionId) (f : Function)
    (args : List Int64) :
    Relays stop m₁ (apply recur e name id f args) (apply recur' e name id f args) := by
  unfold Eval.apply
  split
  · exact .refl _
  · split
    · exact .refl _
    · exact (refl _).bind fun _ => (invoke hfatal hrec honward e id f args).bind fun _ => .refl _

/-- **No construct holds a fatal stop back**, since nothing does that it is put together of. -/
theorem of_built {u : Means} {y : Recur → Eval α} (hbuilt : Built u y) (hfatal : stop.isFatal)
    (hrec : ∀ e, Relays stop m₁ (recur e) (recur' e)) (honward : u.calls → ∀ e, Onward (recur' e)) :
    Relays stop m₁ (y recur) (y recur') := by
  induction hbuilt with
  | ask => exact hrec _
  | bind _ _ ihy ihf => exact ihy.bind ihf
  | get_bind _ ih => exact .get_bind ih
  | declaring _ name _ ih => exact .declaring hfatal name ih
  | round _ result _ ih => exact .round hfatal (hrec _) result ih
  | apply hcalls e name id f args => exact .apply hfatal hrec (honward hcalls) e name id f args
  | _ => exact .refl _

end Eval.Relays

/-! ### Evaluations inside of others -/

/-- In the course of an action on the machine `m`, which evaluates sub-expressions by `recur`, the
expression `e₁` is evaluated on the machine `m₁`: with another outcome of this one evaluation the
action would end differently. -/
def Eval.Asks {α : Type} (x : Recur → Eval α) (recur : Recur) (m : Machine) (e₁ : Expr)
    (m₁ : Machine) :
    Prop :=
  ∃ star : Recur, (∀ e m, ¬ (e = e₁ ∧ m = m₁) → star e m = recur e m) ∧ x star m ≠ x recur m

/-- An interruption is relayed by the evaluation that is interrupted. -/
theorem Recur.Interrupts.relays {star recur : Recur} {e₁ : Expr} {m₁ : Machine}
    (h : Interrupts star recur e₁ m₁) (e : Expr) : Relays .interrupt m₁ (recur e) (star e) := by
  intro m
  by_cases hhere : e = e₁ ∧ m = m₁
  · obtain ⟨rfl, rfl⟩ := hhere
    exact .inr ⟨m, h.here, .refl _ m⟩
  · exact .inl (h.elsewhere e m hhere)

/-- An evaluation is asked for if an interruption of it reaches the end of the expression: no
expression interrupts itself. -/
theorem Eval.Consults.asks {lim : Limits} {room : Nat} {e e₁ : Expr} {m m₁ : Machine}
    (h : Consults (node lim · e) (within lim room) (m.begin e) e₁ m₁)
    (hroom : room + 1 = lim.maxDepth - m.depth) :
    Asks (node lim · e) (within lim room) (m.begin e) e₁ m₁ := by
  obtain ⟨star, hstar, m', hinterrupt⟩ := h
  refine ⟨star, hstar.elsewhere, fun heq => ?_⟩
  have hobeys : Moment.Obeys (fun _ => (LogLaw.free lim).toLaw) ⟨room + 1, [], e, m⟩ :=
    ⟨hroom, trivial, trivial⟩
  obtain ⟨hat, hnext⟩ := hobeys.begin
  have hended := Law.node (e := e) (Law.recurs_within _ hnext) hat trivial
  exact hended.ne_interrupt m' (heq.symm.trans hinterrupt)

/-- The body of a function is asked for by a call: an interruption of it reaches the end of the
call, unless one of the arguments has come across it already. -/
theorem Eval.Consults.body {lim : Limits} {room : Nat} {span : Span} {name : String}
    {args : List Expr} {m m₁ : Machine} {ns : List Int64} {id : FunctionId} {f : Function}
    (hargs : evalArgs (within lim room) (.call span name args) args m = .ok ns m₁)
    (hcall : Calls m₁ name id f ns) :
    Consults (node lim · (.call span name args)) (within lim room) m f.body
      (enter (m₁.note (.calling name ns.length)) id f ns).2 := by
  let inner := (enter (m₁.note (.calling name ns.length)) id f ns).2
  obtain ⟨star, hstar⟩ := Recur.exists_interrupts (within lim room) f.body inner
  refine ⟨star, hstar, ?_⟩
  have hbuilt : Built .plain (evalArgs · (.call span name args) args) :=
    .evalArgs _ fun _ _ => trivial
  rcases Relays.of_built hbuilt rfl hstar.relays nofun m with heq | ⟨m', hstop, -⟩
  · obtain ⟨m', hleave, -⟩ : ∃ m', leaveCall (.call span name args)
        (enter (m₁.note (.calling name ns.length)) id f ns).1 (.error .interrupt) inner =
          .error .interrupt m' ∧ inner.Unwinds .interrupt m' :=
      leaveCall_of_isFatal _ _ (continues_enter _ id f ns).2.1 rfl
    have hinvoke : invoke star (.call span name args) id f ns (m₁.note (.calling name ns.length)) =
        .error .interrupt m' := by
      unfold invoke
      dsimp only
      rw [hstar.here]
      exact hleave
    exact ⟨m', (evalCall_of_calls (heq.trans hargs) hcall).trans (bind_of_error hinvoke)⟩
  · exact ⟨m', bind_of_error hstop⟩

/-- **What comes up in the course of an evaluation is asked for.** -/
theorem Moment.Part.asks {lim : Limits} {t t' : Moment} (h : t.Part lim t') (ht : t.IsRoomy lim) :
    t.room = t'.room + 1 ∧
      Asks (node lim · t.expr) (within lim t'.room) (t.machine.begin t.expr)
        t'.expr t'.machine := by
  cases h with
  | operand _ h => exact ⟨rfl, h.asks ht⟩
  | argument h =>
    obtain ⟨star, hstar, m', hinterrupt⟩ := h
    exact ⟨rfl, Consults.asks ⟨star, hstar, m', bind_of_error hinterrupt⟩ ht⟩
  | body hargs hcall => exact ⟨rfl, (Consults.body hargs hcall).asks ht⟩

/-- **The fatal stop of a sub-expression** is that of the expression. -/
theorem Eval.Asks.within_eq {lim : Limits} {room : Nat} {e e₁ : Expr}
    {m m₁ m₂ : Machine} {stop : Stop}
    (h : Asks (node lim · e) (within lim room) (m.begin e) e₁ m₁) (hfatal : stop.isFatal)
    (hstop : within lim room e₁ m₁ = .error stop m₂) :
    ∃ m₃, within lim (room + 1) e m = .error stop m₃ ∧ m₂.Unwinds stop m₃ := by
  obtain ⟨star, helse, hne⟩ := h
  have hrec : ∀ e', Relays stop m₂ (star e') (within lim room e') := by
    intro e' m'
    by_cases hhere : e' = e₁ ∧ m' = m₁
    · obtain ⟨rfl, rfl⟩ := hhere
      exact .inr ⟨m₂, hstop, .refl stop m₂⟩
    · exact .inl (helse e' m' hhere).symm
  rcases Relays.of_built (.node lim e) hfatal hrec (fun _ => .within lim room) (m.begin e) with
    heq | ⟨m', hnode, hunwinds⟩
  · exact absurd heq.symm hne
  · refine ⟨m'.finish e (some stop), ?_, hunwinds.trans (.finish m' e)⟩
    rw [within, counted, hnode]

/-- In the course of evaluating an expression on a machine, with room for a number of nested
expressions, another expression is evaluated: itself, or one inside of an evaluation that is asked
for. -/
inductive Eval.Nests (lim : Limits) : Nat → Expr → Machine → Nat → Expr → Machine → Prop where
  | here {room : Nat} {e : Expr} {m : Machine} : Nests lim room e m room e m
  | inside {room room' : Nat} {e e₁ e' : Expr} {m m₁ m' : Machine}
      (hasks : Asks (node lim · e) (within lim room) (m.begin e) e₁ m₁)
      (h : Nests lim room e₁ m₁ room' e' m') : Nests lim (room + 1) e m room' e' m'

theorem Eval.Nests.within_eq {lim : Limits} {room room' : Nat} {e e' : Expr} {m m' m₁ : Machine}
    {stop : Stop} (h : Nests lim room e m room' e' m') (hfatal : stop.isFatal)
    (hstop : within lim room' e' m' = .error stop m₁) :
    ∃ m₂, within lim room e m = .error stop m₂ ∧ m₁.Unwinds stop m₂ := by
  induction h with
  | here => exact ⟨m₁, hstop, .refl stop m₁⟩
  | inside hasks _ ih =>
    obtain ⟨m₂, hinner, hunwinds⟩ := ih hstop
    obtain ⟨m₃, houter, hleft⟩ := hasks.within_eq hfatal hinner
    exact ⟨m₃, houter, hunwinds.trans hleft⟩

/-- In the run of a program on a machine, an expression is evaluated on another machine, with room
for a number of nested ones. -/
inductive Program.Evaluates (lim : Limits) (p : Program) (m : Machine) (room : Nat) (e₁ : Expr)
    (m₁ : Machine) : Prop where
  | intro {e : Expr} {m₀ : Machine} (hstart : Program.Starts lim p m e m₀)
      (h : Nests lim (lim.maxDepth - m₀.depth) e m₀ room e₁ m₁) : Evaluates lim p m room e₁ m₁

/-! ### Runs -/

/-- How a program ends that was stopped, as far as its flush lets it. -/
def Stop.ending (console : Console) : Stop → Ending
  | .error e => .failed e
  | _ => if console.sink.refusesFlush then .failed (.io .flushRefused) else .quit

theorem concluded_of_isFatal {stop : Stop} (hfatal : stop.isFatal) (m : Machine) :
    (concluded m stop).1 = stop.ending m.console ∧ m.Unwinds stop (concluded m stop).2 := by
  cases stop with
  | quit =>
    rw [concluded, flushed_eq]
    exact ⟨rfl, .refl _ m⟩
  | error e =>
    rw [concluded, abandon_eq_closeAll]
    refine ⟨rfl, rfl, rfl, ?_⟩
    have hlog : ∀ log n, ∃ events, Machine.logClosing log n = events ++ log ∧
        ∀ ev ∈ events, Event.IsUnwinding (.error e) ev := by
      intro log n
      induction n generalizing log with
      | zero => exact ⟨[], rfl, by simp⟩
      | succ n ih =>
        obtain ⟨events, heq, hevents⟩ := ih (.exiting n :: log)
        refine ⟨events ++ [.exiting n], by rw [Machine.logClosing, heq, List.append_cons], ?_⟩
        intro ev hev
        rcases List.mem_append.mp hev with hev | hev
        · exact hevents ev hev
        · exact .inr ⟨n, List.mem_singleton.mp hev⟩
    exact hlog m.log m.scopes.depth
  | brk | nxt | unfinished => cases hfatal

/-- The fatal stop of one of its expressions ends a program. -/
theorem Program.Starts.runFrom_eq {lim : Limits} {p : Program} {m m₁ m₂ : Machine}
    {e : Expr} {stop : Stop}
    (h : Starts lim p m e m₁) (hfatal : stop.isFatal) (hstop : expr lim e m₁ = .error stop m₂)
    (last : Value) : runFrom lim p last m = concluded m₂ stop := by
  induction h generalizing last with
  | head =>
    rw [runFrom, hstop]
    cases stop with
    | quit | error => rfl
    | brk | nxt | unfinished => cases hfatal
  | next hnext _ ih =>
    obtain ⟨v, hrun⟩ := hnext.runFrom last
    rw [hrun]
    exact ih hstop v

/-- **Failing fast.** If in the course of a run the evaluation of any expression ends with an error,
the run ends with that very error; if it quits, the run quits, unless the flush at the end is
refused. From the machine on which that evaluation has ended to the end of the run no expression
begins, nothing is read or written, and no list and no function changes: expressions are left and
scopes are closed, and that is all. -/
theorem Machine.run_fails_fast {lim : Limits} {p : Program} {m m₁ m₂ : Machine}
    {room : Nat} {e : Expr}
    {stop : Stop} (h : p.Evaluates lim m room e m₁) (hstop : within lim room e m₁ = .error stop m₂)
    (hfatal : stop.isFatal) :
    (m.run lim p).1 = stop.ending m₂.console ∧ m₂.Unwinds stop (m.run lim p).2 := by
  obtain ⟨hstart, hnests⟩ := h
  obtain ⟨m₃, htop, hunwinds⟩ := hnests.within_eq hfatal hstop
  have hrun : m.run lim p = concluded m₃ stop := hstart.runFrom_eq hfatal htop .null
  obtain ⟨hending, hleft⟩ := concluded_of_isFatal hfatal m₃
  rw [hrun]
  exact ⟨hunwinds.console ▸ hending, hunwinds.trans hleft⟩

/-- The quotient in the program `f <- function() { b <- 1 / 0 }; while (f()) print(2)`. -/
def zeroQuotient : Expr :=
  .arith ⟨23, 28⟩ .div (.literal ⟨23, 24⟩ (.int 1)) (.literal ⟨27, 28⟩ (.int 0))

/-- The body of the function in that program. -/
def zeroBody : Expr := .block ⟨16, 30⟩ [.assign ⟨18, 29⟩ "b" zeroQuotient]

/-- The loop in that program. -/
def zeroLoop : Expr :=
  .whileDo ⟨32, 52⟩ (.call ⟨39, 42⟩ "f" []) (.print ⟨44, 52⟩ (.literal ⟨50, 51⟩ (.int 2)))

/-- The whole program. -/
def zeroProgram : Program := [.assign ⟨0, 30⟩ "f" (.function ⟨5, 30⟩ [] zeroBody), zeroLoop]

/-- The quotient fails inside of an assignment, a block, a call and a loop, and its error is that of
the program. -/
theorem Machine.run_fails_fast_nested :
    ∃ m₁ m₂, zeroProgram.Evaluates {} {} 996 zeroQuotient m₁ ∧
      within {} 996 zeroQuotient m₁ =
        .error (.error (.semantic ⟨.attemptedDivByZero, none⟩ ⟨23, 28⟩)) m₂ ∧
      (({} : Machine).run {} zeroProgram).1 =
        .failed (.semantic ⟨.attemptedDivByZero, none⟩ ⟨23, 28⟩) ∧
      m₂.Unwinds (.error (.semantic ⟨.attemptedDivByZero, none⟩ ⟨23, 28⟩))
        (({} : Machine).run {} zeroProgram).2 := by
  let f : Function :=
    { params := [], body := zeroBody, numParams := 0, scopeDepth := 1, home := [0] }
  let globals : Scope := ⟨0, [⟨"f", .function 0 none, some (.function 0)⟩]⟩
  let call : Expr := .call ⟨39, 42⟩ "f" []
  let assign : Expr := .assign ⟨18, 29⟩ "b" zeroQuotient
  obtain ⟨log, hstart⟩ : ∃ log, Program.Starts {} zeroProgram {} zeroLoop
      ⟨⟨[globals], 2⟩, ⟨#[], #[f]⟩, {}, 0, log⟩ :=
    ⟨_, .next (.inl ⟨_, rfl⟩) .head⟩
  -- the loop begins with the call, which runs the block, in which the assignment begins with the
  -- quotient
  let m₀ : Machine := ⟨⟨[globals], 2⟩, ⟨#[], #[f]⟩, {}, 0, log⟩
  have hcall : Consults (node {} · zeroLoop) (within {} 999) (m₀.begin zeroLoop)
      call (m₀.begin zeroLoop) := by
    obtain ⟨star, hstar⟩ := Recur.exists_interrupts (within {} 999) call (m₀.begin zeroLoop)
    refine ⟨star, hstar, m₀.begin zeroLoop, ?_⟩
    dsimp only [zeroLoop, node]
    unfold whileRounds
    exact bind_of_error (bind_of_error hstar.here)
  have hbody : Consults (node {} · call) (within {} 998)
      ((m₀.begin zeroLoop).begin call) zeroBody _ :=
    .body rfl (⟨rfl, rfl, rfl⟩ : Calls _ _ 0 f [])
  have hassign : ∀ m, Consults (node {} · zeroBody) (within {} 997) m assign m :=
    fun m => .first fun star => ⟨_, rfl⟩
  have hquotient : ∀ m : Machine, m.scopes.find? "b" = none →
      Consults (node {} · assign)
        (within {} 996) m zeroQuotient (m.declare (.placeholder "b")) := by
    intro m hnew
    obtain ⟨star, hstar⟩ := Recur.exists_interrupts (within {} 996) zeroQuotient
      (m.declare (.placeholder "b"))
    refine ⟨star, hstar, m.declare (.placeholder "b"), ?_⟩
    dsimp only [assign, node, evalAssign, declaring]
    rw [hnew]
    dsimp only
    rw [bind_of_error hstar.here]
    rfl
  have hevaluates : zeroProgram.Evaluates {} {} 996 zeroQuotient _ :=
    .intro hstart (.inside (hcall.asks rfl) (.inside (hbody.asks rfl)
      (.inside ((hassign _).asks rfl) (.inside ((hquotient _ rfl).asks rfl) .here))))
  exact ⟨_, _, hevaluates, rfl, run_fails_fast hevaluates rfl rfl⟩

end ScopeScript
