import ScopeScript.Proofs.Onward
import ScopeScript.Proofs.Twin

/-!
# Two runs side by side

A `Coupling` puts two runs side by side that may differ in their limits, in source ranges and in the
console. They agree step by step, up to the difference that a twin makes, until the first run stops
for a reason that does not concern the second one. From there on the second run is on its own; all
that is known of it is that it goes onward. `Coupling.Parts` says what is to be remembered from that
moment: it relates the reason, the machine on which the first run has stopped and the machine that
the second run has reached.

Nothing in a coupling mentions how expressions are put together. That the runs stay together or part
in the way described follows once and for all (`Coupling.Follows.expr`), and so for programs
(`Coupling.run`). The induction is on the room for nested expressions; a loop is an induction on
the rounds that are left to the first run.
-/

namespace ScopeScript

open Eval

/-- The first limit is at most the second one, where no limit counts as the largest. -/
def AtMost (a b : Option Nat) : Prop :=
  ∀ n, b = some n → ∃ k, a = some k ∧ k ≤ n

/-- Where a round is left to the first loop, one is left to the second, and both go on with one
less. -/
theorem AtMost.pred {a b : Option Nat} (h : AtMost a b) (ha : a ≠ some 0) :
    b ≠ some 0 ∧ AtMost (a.map (· - 1)) (b.map (· - 1)) := by
  constructor
  · rintro rfl
    obtain ⟨k, rfl, hk⟩ := h 0 rfl
    exact ha (congrArg some (Nat.le_zero.mp hk))
  · intro n hn
    obtain ⟨m, rfl, rfl⟩ := Option.map_eq_some_iff.mp hn
    obtain ⟨k, rfl, hk⟩ := h m rfl
    exact ⟨k - 1, rfl, by omega⟩

/-- The second action does on the twin of the machine what the first one does on the machine, or the
first one has stopped and the two have parted. -/
def Twin.Agrees (t : Twin) (Parts : Stop → Machine → Machine → Prop) {α : Type} (x x' : Eval α)
    (m : Machine) : Prop :=
  x' (t.machine m) = t.result (x m) ∨
    ∃ stop m₁, x m = .error stop m₁ ∧ Parts stop m₁ (x'.after (t.machine m))

theorem Twin.agrees_same (Parts : Stop → Machine → Machine → Prop) {α : Type} (x : Eval α)
    (m : Machine) : Twin.same.Agrees Parts x x m := by
  left
  rw [same_machine, same_result]

theorem Twin.same_refusesFlush (c : Console) :
    (Twin.same.console c).sink.refusesFlush = c.sink.refusesFlush := rfl

/-- Two runs that go together until the first one stops for a reason of its own. -/
structure Coupling (lim lim' : Limits) extends Twin where
  /-- The first run has stopped for this reason on the first machine, the second run has got to the
  second one. -/
  Parts : Stop → Machine → Machine → Prop
  fatal : ∀ {stop m m'}, Parts stop m m' → stop ≠ .brk ∧ stop ≠ .nxt
  /-- A stop that is passed on leaves heap and console as they are. -/
  unwinds : ∀ {stop m m₁ m'}, Parts stop m m' → m₁.heap = m.heap → m₁.console = m.console →
    Parts stop m₁ m'
  continues : ∀ {stop m m' m₁'}, Parts stop m m' → m'.Continues m₁' → Parts stop m m₁'
  /-- There is the same room for nested expressions, or the first run is the one to have less. -/
  room : lim'.maxDepth = lim.maxDepth ∨
    lim.maxDepth ≤ lim'.maxDepth ∧ ∀ {span m m'}, (toTwin.machine m).Continues m' →
      Parts (.error (.resource (.stackOverflow m.depth lim.maxDepth) span)) m m'
  /-- Loops may make as many rounds, or the first run is the one to make less. -/
  loops : lim'.maxIterations = lim.maxIterations ∧ lim'.rounds = lim.rounds ∨
    (lim.rounds ≤ lim'.rounds ∧ AtMost lim.maxIterations lim'.maxIterations) ∧
      ∀ {e m m'}, (toTwin.machine m).Continues m' → Parts (lim.exhausted e) m m'
  prints : ∀ text m, toTwin.Agrees Parts (onConsole (Console.printLine text))
    (onConsole (Console.printLine text)) m
  reads : ∀ m, toTwin.Agrees Parts (onConsole Console.readLine) (onConsole Console.readLine) m
  flushes : ∀ c, (console c).sink.refusesFlush = c.sink.refusesFlush

namespace Coupling

variable {lim lim' : Limits} (C : Coupling lim lim') {α β : Type}

/-- The actions agree or part on every machine, and the second one goes onward by itself. -/
structure Follows (x x' : Eval α) : Prop where
  onward : Onward x'
  agrees : ∀ m, C.Agrees C.Parts x x' m

/-- What is assumed of the evaluation of sub-expressions in both runs. -/
structure Recurs (recur recur' : Recur) : Prop where
  first : ∀ e, Onward (recur e)
  second : ∀ e, Onward (recur' e)
  follows : ∀ e, C.Follows (recur e) (recur' (C.expr e))

/-- A loop that wants another round after its last one stops the first run for a reason of its
own. -/
def Exhausts : Prop :=
  ∀ {e m m'}, (C.machine m).Continues m' → C.Parts (lim.exhausted e) m m'

/-- Where there is no room for an expression, the first run stops for a reason of its own. -/
def Overflows : Prop :=
  ∀ {span m m'}, (C.machine m).Continues m' →
    C.Parts (.error (.resource (.stackOverflow m.depth lim.maxDepth) span)) m m'

namespace Follows

variable {C} {x x' : Eval α} {f f' : α → Eval β}

/-! ### Actions -/

theorem of_commutes (h : C.Commutes x x') (honward : Onward x') : C.Follows x x' :=
  ⟨honward, fun m => .inl (h m)⟩

theorem pure (a : α) : C.Follows (Pure.pure a) (Pure.pure a) :=
  .of_commutes (.pure a) (.pure a)

theorem failWith (e : Expr) (error : SemanticError) :
    C.Follows (failWith e error : Eval α) (failWith (C.expr e) error) :=
  .of_commutes (.failWith e error) (.failWith _ error)

theorem check (e : Expr) (c : Checked α) : C.Follows (check e c) (check (C.expr e) c) :=
  .of_commutes (.check e c) (.check _ c)

theorem rejectFunction (e : Expr) (arg : Nat) (v : Value) :
    C.Follows (rejectFunction e arg v) (rejectFunction (C.expr e) arg v) :=
  .of_commutes (.rejectFunction e arg v) (.rejectFunction _ arg v)

/-- What follows an action is run on both sides, or on the second one only. -/
theorem bind (hx : C.Follows x x') (hf : ∀ a, C.Follows (f a) (f' a)) :
    C.Follows (x >>= f) (x' >>= f') where
  onward := hx.onward.bind fun a => (hf a).onward
  agrees m := by
    rcases hx.agrees m with heq | ⟨stop, m₁, hstop, hparts⟩
    · cases h : x m with
      | ok a m₁ =>
        rw [h, Twin.result] at heq
        have hnext := (hf a).agrees m₁
        unfold Twin.Agrees after at hnext ⊢
        rwa [bind_of_ok h, bind_of_ok heq]
      | error stop m₁ =>
        rw [h, Twin.result] at heq
        exact .inl (by rw [bind_of_error h, bind_of_error heq, Twin.result])
    · have honward := Onward.after_bind x' (fun a => (hf a).onward) (C.machine m)
      exact .inr ⟨stop, m₁, bind_of_error hstop, C.continues hparts honward.continues⟩

/-- An action may look at what is the same on both sides. -/
theorem get_bind {f f' : Machine → Eval α} (hview : ∀ m, f' (C.machine m) = f' m)
    (hf : ∀ m, C.Follows (f m) (f' m)) : C.Follows (get >>= f) (get >>= f') where
  onward := .get_bind fun m => (hf m).onward
  agrees m := by
    have hagrees := (hf m).agrees m
    rw [← hview m] at hagrees
    exact hagrees

/-- The first run stops, whatever the second one does from here on. -/
theorem cut {stop : Stop} (honward : Onward x')
    (h : ∀ {m m'}, (C.machine m).Continues m' → C.Parts stop m m') : C.Follows (throw stop) x' where
  onward := honward
  agrees m := .inr ⟨stop, m, rfl, h (honward (C.machine m)).continues⟩

/-- Under the same limit both runs end with a loop that wants another round. -/
theorem exhausted (h : lim'.maxIterations = lim.maxIterations) (e : Expr) :
    C.Follows (throw (lim.exhausted e) : Eval α) (throw (lim'.exhausted (C.expr e))) := by
  have hstop : lim'.exhausted (C.expr e) = C.stop (lim.exhausted e) := by
    unfold Limits.exhausted
    rw [h, Twin.expr, Expr.span_mapSpans]
    cases lim.maxIterations <;> rfl
  rw [hstop]
  exact .of_commutes (.throw _) (.throw _)

theorem note {ev ev' : Event} (h : ev' = C.event ev) : C.Follows (note ev) (note ev') :=
  .of_commutes (.note h) (.note ev')

theorem printValue (v : Value) : C.Follows (printValue v) (printValue v) := by
  refine .get_bind (fun m => ?_) fun m => ?_
  · rw [Twin.machine_heap, Twin.text_heap]
  · exact bind ⟨.printLine _, C.prints _⟩ fun _ => .note rfl

/-! ### Names, conditionals and binding -/

variable {recur recur' : Recur}

theorem evalVar (e : Expr) (name : String) :
    C.Follows (evalVar e name) (evalVar (C.expr e) name) := by
  refine .get_bind (fun _ => rfl) fun m => ?_
  cases m.scopes.lookup? name with
  | none => exact .failWith e _
  | some v => exact .pure v

theorem evalElement (hrec : C.Recurs recur recur') (e : Expr) (name : String) (index : Expr) :
    C.Follows (evalElement recur e name index)
      (evalElement recur' (C.expr e) name (C.expr index)) := by
  refine (hrec.follows index).bind fun i => .get_bind (fun _ => rfl) fun m => ?_
  cases m.scopes.lookup? name with
  | none => exact .failWith e _
  | some target =>
    cases target with
    | list id =>
      cases i.toInt? with
      | none => exact .failWith e _
      | some k =>
        dsimp only
        cases m.heap.item? id k with
        | none => exact .failWith e _
        | some v => exact .pure v
    | _ => exact .failWith e _

theorem evalCondition (hrec : C.Recurs recur recur') (e cond : Expr) :
    C.Follows (evalCondition recur e cond) (evalCondition recur' (C.expr e) (C.expr cond)) := by
  refine (hrec.follows cond).bind fun v => ?_
  cases v.truth? with
  | none => exact .failWith e _
  | some b => exact .pure b

theorem evalBranch (hrec : C.Recurs recur recur') (e : Expr) (arg : Nat) (branch : Expr) :
    C.Follows (evalBranch recur e arg branch)
      (evalBranch recur' (C.expr e) arg (C.expr branch)) :=
  (hrec.follows branch).bind fun v => .rejectFunction e arg v

theorem rebind (e : Expr) (name : String) (v : Value) :
    C.Follows (rebind e name v) (rebind (C.expr e) name v) :=
  .of_commutes (.rebind e name v) (.rebind _ name v)

/-- A name that was declared for an action is removed again on both sides; if the runs have parted,
the first one was not left for a loop and removes nothing. -/
theorem declaring (name : String) {action action' : Eval Value} (h : C.Follows action action') :
    C.Follows (declaring name action) (declaring name action') where
  onward := .declaring name h.onward
  agrees m := by
    have hagrees := h.agrees (m.declare (.placeholder name))
    unfold Twin.Agrees after Eval.declaring
    rw [Twin.machine_scopes]
    cases m.scopes.find? name with
    | some old => exact h.agrees m
    | none =>
      dsimp only
      simp only [Twin.declare_machine]
      rcases hagrees with heq | ⟨stop, m₁, hstop, hparts⟩
      · left
        rw [heq]
        cases action (m.declare (.placeholder name)) with
        | ok v m₁ => rfl
        | error stop m₁ => cases stop <;> rfl
      · right
        refine ⟨stop, m₁, ?_, C.continues hparts ?_⟩
        · rw [hstop]
          obtain ⟨hbrk, hnxt⟩ := C.fatal hparts
          cases stop with
          | brk => exact absurd rfl hbrk
          | nxt => exact absurd rfl hnxt
          | quit | error | unfinished => rfl
        · unfold after
          cases action' (C.machine (m.declare (.placeholder name))) with
          | ok v m' => exact .refl m'
          | error stop m' =>
            cases stop with
            | brk | nxt => exact (m'.onward_forget name).continues
            | quit | error | unfinished => exact .refl m'

theorem evalAssign (hrec : C.Recurs recur recur') (e : Expr) (name : String) (value : Expr) :
    C.Follows (evalAssign recur e name value)
      (evalAssign recur' (C.expr e) name (C.expr value)) :=
  .declaring name ((hrec.follows value).bind fun v => (rebind e name v).bind fun _ => .pure v)

theorem store (e : Expr) (id : ListId) (index v : Value) :
    C.Follows (store e id index v) (store (C.expr e) id index v) where
  onward := .store _ id index v
  agrees m := by
    unfold Twin.Agrees after
    cases hk : index.toInt? with
    | none =>
      left
      unfold Eval.store
      rw [hk]
      exact Twin.Commutes.failWith e _ m
    | some k =>
      cases hset : m.heap.setItem? id k v with
      | none =>
        left
        unfold Eval.store
        rw [hk]
        dsimp only
        rw [Eval.get_bind, Eval.get_bind, Twin.machine_heap, Twin.setItem?_heap, hset]
        exact Twin.Commutes.failWith e _ m
      | some heap =>
        have hset' : (C.machine m).heap.setItem? id k v = some (C.heap heap) := by
          rw [Twin.machine_heap, Twin.setItem?_heap, hset, Option.map_some]
        have hprint : C.Follows (do Eval.printValue (.list id); return .list id : Eval Value)
            (do Eval.printValue (.list id); return .list id) :=
          (printValue (.list id)).bind fun _ => .pure _
        have hmachine : { C.machine m with heap := C.heap heap }.note (.stored id k v) =
            C.machine ({ m with heap }.note (.stored id k v)) := rfl
        rw [store_of_some e hk hset, store_of_some (C.expr e) hk hset', hmachine]
        exact hprint.agrees _

theorem evalAssignAt (hrec : C.Recurs recur recur') (e : Expr) (name : String)
    (index value : Expr) :
    C.Follows (evalAssignAt recur e name index value)
      (evalAssignAt recur' (C.expr e) name (C.expr index) (C.expr value)) := by
  refine .declaring name ((hrec.follows index).bind fun i => (hrec.follows value).bind fun v => ?_)
  refine .get_bind (fun _ => rfl) fun m => ?_
  split
  · exact .failWith e _
  · exact .store e _ i _
  · exact .failWith e _

/-! ### Sequences and loops -/

theorem evalSequence (hrec : C.Recurs recur recur') (es : List Expr) (last : Value) :
    C.Follows (evalSequence recur es last) (evalSequence recur' (es.map C.expr) last) := by
  induction es generalizing last with
  | nil => exact .pure last
  | cons e es ih => exact (hrec.follows e).bind ih

theorem round {body body' : Eval Value} (hbody : C.Follows body body') (result : Value)
    {next next' : Value → Eval Value} (hnext : ∀ v, C.Follows (next v) (next' v)) :
    C.Follows (round body result next) (round body' result next') where
  onward := .round hbody.onward result fun v => (hnext v).onward
  agrees m := by
    unfold Twin.Agrees after Eval.round
    rcases hbody.agrees m with heq | ⟨stop, m₁, hstop, hparts⟩
    · rw [heq]
      cases body m with
      | ok v m₁ => exact (hnext v).agrees m₁
      | error stop m₁ =>
        cases stop with
        | nxt => exact (hnext result).agrees m₁
        | brk | quit | error | unfinished => exact .inl rfl
    · right
      refine ⟨stop, m₁, ?_, C.continues hparts ?_⟩
      · rw [hstop]
        obtain ⟨hbrk, hnxt⟩ := C.fatal hparts
        cases stop with
        | brk => exact absurd rfl hbrk
        | nxt => exact absurd rfl hnxt
        | quit | error | unfinished => rfl
      · unfold after
        cases body' (C.machine m) with
        | ok v m' => exact ((hnext v).onward m').continues
        | error stop m' =>
          cases stop with
          | nxt => exact ((hnext result).onward m').continues
          | brk | quit | error | unfinished => exact .refl m'

theorem whileRounds (hrec : C.Recurs recur recur') (e cond body : Expr) {left left' : Nat}
    (hleft : lim'.maxIterations = lim.maxIterations ∧ left' = left ∨ left ≤ left' ∧ C.Exhausts)
    (result : Value) :
    C.Follows (whileRounds lim recur e cond body left result)
      (whileRounds lim' recur' (C.expr e) (C.expr cond) (C.expr body) left' result) := by
  induction left generalizing left' result with
  | zero =>
    unfold Eval.whileRounds
    refine (evalCondition hrec e cond).bind fun b => ?_
    cases b with
    | false => exact .pure result
    | true =>
      rcases hleft with ⟨hsame, rfl⟩ | ⟨-, hexhausts⟩
      · exact .exhausted hsame e
      · refine .cut ?_ hexhausts
        cases left' with
        | zero => exact .throw _
        | succ left' =>
          have hbuilt : ∀ v,
              Built .full (Eval.whileRounds lim' · (C.expr e) (C.expr cond)
                (C.expr body) left' v) :=
            .whileRounds lim' _ trivial trivial left'
          exact .round (hrec.second _) result fun v => .of_built (hbuilt v) hrec.second
  | succ left ih =>
    obtain ⟨next, rfl, hnext⟩ : ∃ next, left' = next + 1 ∧
        (lim'.maxIterations = lim.maxIterations ∧ next = left ∨ left ≤ next ∧ C.Exhausts) := by
      rcases hleft with ⟨hsame, rfl⟩ | ⟨hle, hexhausts⟩
      · exact ⟨left, rfl, .inl ⟨hsame, rfl⟩⟩
      · exact ⟨left' - 1, by omega, .inr ⟨by omega, hexhausts⟩⟩
    unfold Eval.whileRounds
    refine (evalCondition hrec e cond).bind fun b => ?_
    cases b with
    | false => exact .pure result
    | true => exact .round (hrec.follows body) result (ih hnext)

theorem forRounds (hrec : C.Recurs recur recur') (e : Expr) (name : String) (body : Expr)
    (vs : List Value) {left left' : Option Nat}
    (hleft : lim'.maxIterations = lim.maxIterations ∧ left' = left ∨ AtMost left left' ∧ C.Exhausts)
    (result : Value) :
    C.Follows (forRounds lim recur e name body vs left result)
      (forRounds lim' recur' (C.expr e) name (C.expr body) vs left' result) := by
  induction vs generalizing left left' result with
  | nil => exact .pure result
  | cons v vs ih =>
    by_cases hlast : left = some 0
    · subst hlast
      rcases hleft with ⟨hsame, rfl⟩ | ⟨-, hexhausts⟩
      · exact .exhausted hsame e
      · have hbuilt :
            Built .full (Eval.forRounds lim' · (C.expr e) name (C.expr body)
              (v :: vs) left' result) :=
          .forRounds lim' _ name trivial _ _ _
        exact .cut (.of_built hbuilt hrec.second) hexhausts
    · obtain ⟨hlast', hnext⟩ : left' ≠ some 0 ∧ (lim'.maxIterations = lim.maxIterations ∧
          left'.map (· - 1) = left.map (· - 1) ∨
          AtMost (left.map (· - 1)) (left'.map (· - 1)) ∧ C.Exhausts) := by
        rcases hleft with ⟨hsame, rfl⟩ | ⟨hle, hexhausts⟩
        · exact ⟨hlast, .inl ⟨hsame, rfl⟩⟩
        · exact ⟨(hle.pred hlast).1, .inr ⟨(hle.pred hlast).2, hexhausts⟩⟩
      rw [forRounds_cons hlast, forRounds_cons hlast']
      exact (rebind e name v).bind fun _ => .round (hrec.follows body) result (ih hnext)

theorem declareLoopVar (e : Expr) (name : String) :
    C.Follows (declareLoopVar e name) (declareLoopVar (C.expr e) name) :=
  .of_commutes (.declareLoopVar e name) (.declareLoopVar _ name)

theorem evalFor (hrec : C.Recurs recur recur') (e : Expr) (name : String) (items body : Expr) :
    C.Follows (evalFor lim recur e name items body)
      (evalFor lim' recur' (C.expr e) name (C.expr items) (C.expr body)) := by
  refine (declareLoopVar e name).bind fun _ => (hrec.follows items).bind fun v => ?_
  cases v with
  | list id =>
    refine .get_bind (fun _ => rfl) fun m => .forRounds hrec e name body _ ?_ .null
    exact C.loops.imp (fun h => ⟨h.1, h.1⟩) fun h => ⟨h.1.2, h.2⟩
  | _ => exact .failWith e _

/-! ### Functions -/

theorem evalArgs (hrec : C.Recurs recur recur') (e : Expr) (args : List Expr) :
    C.Follows (evalArgs recur e args) (evalArgs recur' (C.expr e) (args.map C.expr)) := by
  induction args with
  | nil => exact .pure []
  | cons a as ih =>
    refine (hrec.follows a).bind fun v => ?_
    cases v.toInt? with
    | none => exact .failWith e _
    | some n => exact ih.bind fun ns => .pure (n :: ns)

/-- A body that has parted is left by the stop that parted it: the scopes on which it began are
still there to be closed. -/
theorem invoke (hrec : C.Recurs recur recur') (e : Expr) (id : FunctionId) (f : Function)
    (args : List Int64) :
    C.Follows (invoke recur e id f args) (invoke recur' (C.expr e) id (C.function f) args) where
  onward := .invoke hrec.second _ id _ args
  agrees m := by
    rcases (hrec.follows f.body).agrees (enter m id f args).2 with heq | ⟨stop, m₁, hstop, hparts⟩
    · left
      unfold Eval.invoke
      rw [C.enter_machine]
      dsimp only
      have hbody : recur' (C.function f).body (C.machine (enter m id f args).2) =
          C.result (recur f.body (enter m id f args).2) := heq
      rw [hbody]
      cases recur f.body (enter m id f args).2 with
      | ok v m₁ => exact Twin.Commutes.leaveCall e _ (.ok v) m₁
      | error stop m₁ => exact Twin.Commutes.leaveCall e _ (.error stop) m₁
    · right
      obtain ⟨hbrk, hnxt⟩ := C.fatal hparts
      have hopen : m₁.scopes.depth ≠ 0 := by
        rw [((hrec.first f.body).of_error hstop).depth]
        exact (continues_enter m id f args).2.1
      obtain ⟨hheap, hconsole, -⟩ := after_leaveCall e (enter m id f args).1 (.error stop) hopen
      have hleft := Onward.after_invoke hrec.second (C.expr e) id (C.function f) args (C.machine m)
      rw [C.enter_machine] at hleft
      refine ⟨stop, _, ?_, C.continues (C.unwinds hparts hheap hconsole) hleft.1⟩
      unfold Eval.invoke
      dsimp only
      rw [hstop]
      exact leaveCall_of_stop e _ hopen hbrk hnxt

theorem apply (hrec : C.Recurs recur recur') (e : Expr) (name : String) (id : FunctionId)
    (f : Function) (args : List Int64) :
    C.Follows (apply recur e name id f args)
      (apply recur' (C.expr e) name id (C.function f) args) := by
  unfold Eval.apply
  show C.Follows _
    (if f.numParams < args.length then _ else if args.length < f.numParams then _ else _)
  split
  · exact .failWith e _
  · split
    · exact .failWith e _
    · refine (note rfl).bind fun _ => (invoke hrec e id f args).bind fun v => ?_
      refine (rejectFunction e 2 v).bind fun w => ?_
      exact (of_commutes (.noteReturn id w) (.noteReturn id w)).bind fun _ => .pure w

theorem evalCall (hrec : C.Recurs recur recur') (e : Expr) (name : String) (args : List Expr) :
    C.Follows (evalCall recur e name args)
      (evalCall recur' (C.expr e) name (args.map C.expr)) := by
  refine (evalArgs hrec e args).bind fun ns => ⟨.callWith hrec.second _ name ns, fun m => ?_⟩
  unfold Twin.Agrees after
  rw [Eval.get_bind, Eval.get_bind, Twin.machine_scopes]
  cases m.scopes.lookup? name with
  | none => exact (failWith e _).agrees m
  | some target =>
    cases target with
    | function id =>
      dsimp only
      rw [Twin.machine_heap, Twin.function?_heap]
      cases m.heap.function? id with
      | none => exact (failWith e _).agrees m
      | some f => exact (apply hrec e name id f ns).agrees m
    | _ => exact (failWith e _).agrees m

/-! ### Input and output -/

theorem evalPrint (hrec : C.Recurs recur recur') (e operand : Expr) :
    C.Follows (evalPrint recur e operand) (evalPrint recur' (C.expr e) (C.expr operand)) := by
  refine (hrec.follows operand).bind fun v => ?_
  cases v with
  | function | null => exact .failWith e _
  | _ => exact (printValue _).bind fun _ => .pure _

theorem evalRead : C.Follows evalRead evalRead :=
  bind ⟨.readLine, C.reads⟩ fun _ => (note rfl).bind fun _ => .pure _

/-! ### Expressions -/

/-- **One level of evaluation** in both runs. -/
theorem node (hrec : C.Recurs recur recur') (e : Expr) :
    C.Follows (node lim recur e) (node lim' recur' (C.expr e)) := by
  cases e with
  | literal => exact .pure _
  | var _ name => exact .evalVar _ name
  | element _ name index => exact .evalElement hrec _ name index
  | arith s op a b =>
    exact (hrec.follows a).bind fun _ => (hrec.follows b).bind fun _ => .check (.arith s op a b) _
  | logical s op a b =>
    exact (hrec.follows a).bind fun _ => (hrec.follows b).bind fun _ => .check (.logical s op a b) _
  | compare s op a b =>
    exact (hrec.follows a).bind fun _ => (hrec.follows b).bind fun _ => .check (.compare s op a b) _
  | not s a => exact (hrec.follows a).bind fun _ => .check (.not s a) _
  | ifThen s cond yes =>
    refine (evalCondition hrec (.ifThen s cond yes) cond).bind fun b => ?_
    cases b with
    | true => exact .evalBranch hrec (.ifThen s cond yes) 2 yes
    | false => exact .pure _
  | ifElse s cond yes no =>
    refine (evalCondition hrec (.ifElse s cond yes no) cond).bind fun b => ?_
    cases b with
    | true => exact .evalBranch hrec (.ifElse s cond yes no) 2 yes
    | false => exact .evalBranch hrec (.ifElse s cond yes no) 3 no
  | whileDo s cond body =>
    refine .whileRounds hrec (.whileDo s cond body) cond body ?_ .null
    exact C.loops.imp id fun h => ⟨h.1.1, h.2⟩
  | forIn s name items body => exact .evalFor hrec (.forIn s name items body) name items body
  | brk => exact .of_commutes (.throw .brk) (.throw _)
  | nxt => exact .of_commutes (.throw .nxt) (.throw _)
  | block _ es =>
    show C.Follows _ (Eval.evalSequence recur' (Expr.mapSpansAll C.span es) .null)
    rw [Expr.mapSpansAll_eq_map]
    exact .evalSequence hrec es .null
  | assign s name value => exact .evalAssign hrec (.assign s name value) name value
  | assignAt s name index value =>
    exact .evalAssignAt hrec (.assignAt s name index value) name index value
  | function s params body =>
    exact .of_commutes (.evalFunction (.function s params body) params body) (.evalFunction _ _ _)
  | call s name args =>
    show C.Follows _ (Eval.evalCall recur' (C.expr (.call s name args)) name
      (Expr.mapSpansAll C.span args))
    rw [Expr.mapSpansAll_eq_map]
    exact .evalCall hrec (.call s name args) name args
  | list _ items => exact .of_commutes (.evalList items) (.evalList items)
  | print s operand => exact .evalPrint hrec (.print s operand) operand
  | cat s operand => exact (evalPrint hrec (.cat s operand) operand).bind fun _ => .pure _
  | read => exact .evalRead
  | quit => exact .of_commutes (.throw .quit) (.throw _)

theorem counted (e : Expr) {action action' : Eval Value} (h : C.Follows action action') :
    C.Follows (counted e action) (counted (C.expr e) action') where
  onward := .counted _ h.onward
  agrees m := by
    unfold Twin.Agrees after Eval.counted
    rw [C.begin_machine]
    rcases h.agrees (m.begin e) with heq | ⟨stop, m₁, hstop, hparts⟩
    · left
      rw [heq]
      cases action (m.begin e) with
      | ok v m₁ => exact congrArg _ (C.finish_machine m₁ e none)
      | error stop m₁ => exact congrArg _ (C.finish_machine m₁ e (some stop))
    · right
      refine ⟨stop, m₁.finish e (some stop), by rw [hstop], ?_⟩
      refine C.continues (C.unwinds hparts rfl rfl) ?_
      unfold after
      cases action' (C.machine (m.begin e)) with
      | ok v m' => exact .of_eq rfl rfl (List.suffix_cons _ _)
      | error stop m' => exact .of_eq rfl rfl (List.suffix_cons _ _)

theorem within {room room' : Nat}
    (hroom : lim'.maxDepth = lim.maxDepth ∧ room' = room ∨ room ≤ room' ∧ C.Overflows) (e : Expr) :
    C.Follows (within lim room e) (within lim' room' (C.expr e)) := by
  induction room generalizing room' e with
  | zero =>
    refine ⟨.within lim' room' _, fun m => ?_⟩
    rcases hroom with ⟨hsame, rfl⟩ | ⟨-, hoverflows⟩
    · left
      show EStateM.Result.error (Stop.error (.resource (.stackOverflow m.depth lim'.maxDepth)
        (C.expr e).span)) (C.machine m) = _
      rw [hsame, Twin.expr, Expr.span_mapSpans]
      rfl
    · exact .inr ⟨_, m, rfl, hoverflows (Onward.within lim' room' _ (C.machine m)).continues⟩
  | succ room ih =>
    obtain ⟨next, rfl, hnext⟩ : ∃ next, room' = next + 1 ∧
        (lim'.maxDepth = lim.maxDepth ∧ next = room ∨ room ≤ next ∧ C.Overflows) := by
      rcases hroom with ⟨hsame, rfl⟩ | ⟨hle, hoverflows⟩
      · exact ⟨room, rfl, .inl ⟨hsame, rfl⟩⟩
      · exact ⟨room' - 1, by omega, .inr ⟨by omega, hoverflows⟩⟩
    exact .counted e (.node ⟨.within lim room, .within lim' next, ih hnext⟩ e)

/-- **Evaluation in both runs** agrees, or the runs part. -/
theorem expr (e : Expr) : C.Follows (expr lim e) (expr lim' (C.expr e)) where
  onward := .expr lim' _
  agrees m := by
    refine (within ?_ e).agrees m
    rcases C.room with hsame | ⟨hle, hoverflows⟩
    · exact .inl ⟨hsame, by rw [hsame, Twin.machine_depth]⟩
    · exact .inr ⟨Nat.sub_le_sub_right hle _, hoverflows⟩

end Follows

end Coupling

/-! ### The end of a run -/

/-- How a program ends with a stop that was not for a loop. -/
def concluded (m : Machine) : Stop → Ending × Machine
  | .error e => abandon e m
  | .unfinished => (.unfinished, m)
  | .quit | .brk | .nxt => flushed .quit m

/-- A flush is refused or not, and changes nothing. -/
theorem flushed_eq (ending : Ending) (m : Machine) :
    flushed ending m =
      (if m.console.sink.refusesFlush then .failed (.io .flushRefused) else ending, m) := by
  unfold flushed Console.flush
  by_cases h : m.console.sink.refusesFlush <;> simp only [h] <;> rfl

theorem abandon_eq_closeAll (e : EvalError) (m : Machine) :
    abandon e m = (.failed e, m.closeAll) := by
  rw [abandon, flushed_eq]

theorem continues_concluded (m : Machine) (stop : Stop) :
    m.Continues (concluded m stop).2 := by
  cases stop with
  | error e =>
    rw [concluded, abandon_eq_closeAll]
    obtain ⟨events, -, hlog⟩ := Machine.logClosing_eq m.log m.scopes.depth
    exact .of_eq rfl rfl ⟨events, hlog.symm⟩
  | unfinished => exact .refl m
  | quit | brk | nxt =>
    rw [concluded, flushed_eq]
    exact .refl m

/-- A run goes onward to its end. -/
theorem continues_runFrom (lim : Limits) (p : Program) (last : Value) (m : Machine) :
    m.Continues (runFrom lim p last m).2 := by
  induction p generalizing last m with
  | nil =>
    rw [runFrom, flushed_eq]
    exact .refl m
  | cons e es ih =>
    have hexpr := (Onward.expr lim e m).continues
    unfold after at hexpr
    unfold runFrom
    cases h : expr lim e m with
    | ok v m' =>
      rw [h] at hexpr
      exact hexpr.trans (ih v m')
    | error stop m' =>
      rw [h] at hexpr
      cases stop with
      | brk | nxt => exact hexpr.trans (ih .null m')
      | quit => exact hexpr.trans (continues_concluded m' .quit)
      | error e => exact hexpr.trans (continues_concluded m' (.error e))
      | unfinished => exact hexpr

namespace Twin

variable (t : Twin)

/-- The twin of an ending. -/
def ending : Ending → Ending
  | .failed e => .failed (t.error e)
  | r => r

theorem closeAll_machine (m : Machine) : (t.machine m).closeAll = t.machine m.closeAll := by
  have hlog : ∀ log n, Machine.logClosing (log.map t.event ++ t.past) n =
      (Machine.logClosing log n).map t.event ++ t.past := by
    intro log n
    induction n generalizing log with
    | zero => rfl
    | succ n ih => exact ih (.exiting n :: log)
  unfold Machine.closeAll
  rw [machine_scopes]
  show Machine.mk _ _ _ _ (Machine.logClosing (m.log.map t.event ++ t.past) _) = _
  rw [hlog]
  rfl

theorem abandon_machine (e : EvalError) (m : Machine) :
    abandon (t.error e) (t.machine m) = (t.ending (abandon e m).1, t.machine (abandon e m).2) := by
  rw [abandon_eq_closeAll, abandon_eq_closeAll, closeAll_machine]
  rfl

end Twin

namespace Coupling

variable {lim lim' : Limits} (C : Coupling lim lim')

theorem flushed_machine (ending : Ending) (m : Machine) :
    flushed (C.ending ending) (C.machine m) =
      (C.ending (flushed ending m).1, C.machine (flushed ending m).2) := by
  rw [flushed_eq, flushed_eq]
  show (if (C.console m.console).sink.refusesFlush then _ else _, _) = _
  rw [C.flushes]
  by_cases h : m.console.sink.refusesFlush <;> simp only [h] <;> rfl

theorem runFrom (p : Program) (last : Value) (m : Machine) :
    ScopeScript.runFrom lim' (p.map C.expr) last (C.machine m) =
        (C.ending (ScopeScript.runFrom lim p last m).1,
          C.machine (ScopeScript.runFrom lim p last m).2) ∨
      ∃ stop m₁, ScopeScript.runFrom lim p last m = concluded m₁ stop ∧
        C.Parts stop m₁ (ScopeScript.runFrom lim' (p.map C.expr) last (C.machine m)).2 := by
  induction p generalizing last m with
  | nil => exact .inl (C.flushed_machine (.completed last) m)
  | cons e es ih =>
    rw [List.map_cons]
    unfold ScopeScript.runFrom
    rcases (Follows.expr e).agrees m with heq | ⟨stop, m₁, hstop, hparts⟩
    · rw [heq]
      cases expr lim e m with
      | ok v m₁ => exact ih v m₁
      | error stop m₁ =>
        cases stop with
        | brk | nxt => exact ih .null m₁
        | quit => exact .inl (C.flushed_machine .quit m₁)
        | error e => exact .inl (C.abandon_machine e m₁)
        | unfinished => exact .inl rfl
    · right
      obtain ⟨hbrk, hnxt⟩ := C.fatal hparts
      refine ⟨stop, m₁, ?_, C.continues hparts ?_⟩
      · rw [hstop]
        cases stop with
        | brk => exact absurd rfl hbrk
        | nxt => exact absurd rfl hnxt
        | quit | error | unfinished => rfl
      · unfold after
        cases expr lim' (C.expr e) (C.machine m) with
        | ok v m' => exact continues_runFrom lim' _ v m'
        | error stop m' =>
          cases stop with
          | brk | nxt => exact continues_runFrom lim' _ .null m'
          | quit => exact continues_concluded m' .quit
          | error e => exact continues_concluded m' (.error e)
          | unfinished => exact .refl m'

/-- **Two runs of a program** end alike, or the first one has ended where they parted. -/
theorem run (p : Program) (m : Machine) :
    (C.machine m).run lim' (p.map C.expr) = (C.ending (m.run lim p).1, C.machine (m.run lim p).2) ∨
      ∃ stop m₁, m.run lim p = concluded m₁ stop ∧
        C.Parts stop m₁ ((C.machine m).run lim' (p.map C.expr)).2 :=
  C.runFrom p .null m

end Coupling

end ScopeScript
