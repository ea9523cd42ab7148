import ScopeScript.Proofs.Coupling

/-!
# The moments of a session

A session evaluates many expressions on the way, inside of each other and one after the other. A
`Moment` is one of these evaluations: the expression, the machine on which it begins, the room that
is left to it, and the scopes that the calls around it have set aside. `Session.Visits` lists all
moments of a session of programs: those of the expressions of a program, and those that come up in
the course of others (`Moment.Part`). A moment has two ends, the machine on which it begins and the
one that it leaves (`Moment.after`).

Which expressions a construct evaluates on which machines is not spelled out construct by construct.
A construct is told how to evaluate sub-expressions; it evaluates `e₁` on `m₁` if an interruption of
this one evaluation, and of no other, would interrupt the construct (`Eval.Consults`). No evaluation
comes up with such an interruption by itself, and none holds one back.

* `Law.consults`: what a law says of the begin of an evaluation holds of all that come up in its
  course.
* `Moment.Part.continues`: an evaluation goes onward from the end of all that come up in its course.
* `Session.Reaches.continues`: so the session goes onward from every machine on the way.
-/

namespace ScopeScript

open Eval

/-! ### Evaluations in the course of others -/

/-- A stop that no evaluation comes up with. -/
def Stop.interrupt : Stop := .error (.io (.other "interrupted"))

theorem Arises.ne_interrupt {lim : Limits} {Admits : Expr → Prop} {m : Machine} :
    ¬ Arises lim Admits m .interrupt := by
  intro h
  rcases h.error_cases with
    ⟨kind, arg, span, -, h⟩ | ⟨span, -, h⟩ | ⟨limit, span, h⟩ | h | h <;> cases h

theorem Law.Ended.ne_interrupt {lim : Limits} {L : Law lim} {α : Type} {m : Machine}
    {post : Machine → α → Prop} {r : EStateM.Result Stop Machine α} (h : L.Ended m post r)
    (m' : Machine) : r ≠ .error .interrupt m' := by
  rintro rfl
  obtain ⟨-, m₁, -, harises⟩ := h
  exact harises.ne_interrupt

/-- The way of evaluating sub-expressions differs from the given one in that the evaluation of one
expression on one machine is interrupted. -/
structure Recur.Interrupts (star recur : Recur) (e₁ : Expr) (m₁ : Machine) : Prop where
  here : star e₁ m₁ = .error .interrupt m₁
  elsewhere : ∀ e m, ¬ (e = e₁ ∧ m = m₁) → star e m = recur e m

/-- In the course of an action on the machine `m`, which evaluates sub-expressions by `recur`, the
expression `e₁` is evaluated on the machine `m₁`. -/
def Eval.Consults {α : Type} (x : Recur → Eval α) (recur : Recur) (m : Machine) (e₁ : Expr)
    (m₁ : Machine) : Prop :=
  ∃ star, Recur.Interrupts star recur e₁ m₁ ∧ ∃ m', x star m = .error .interrupt m'

theorem Recur.exists_interrupts (recur : Recur) (e₁ : Expr) (m₁ : Machine) :
    ∃ star, Recur.Interrupts star recur e₁ m₁ := by
  classical
  exact ⟨fun e m => if e = e₁ ∧ m = m₁ then .error .interrupt m₁ else recur e m,
    if_pos ⟨rfl, rfl⟩, fun e m h => if_neg h⟩

/-- An action evaluates the expression that it begins with. -/
theorem Eval.Consults.first {α : Type} {x : Recur → Eval α} {recur : Recur}
    {m : Machine} {e₁ : Expr}
    (hx : ∀ star : Recur, ∃ f : Value → Eval α, x star m = (star e₁ >>= f) m) :
    Consults x recur m e₁ m := by
  obtain ⟨star, hstar⟩ := recur.exists_interrupts e₁ m
  obtain ⟨f, hf⟩ := hx star
  exact ⟨star, hstar, m, hf.trans (bind_of_error hstar.here)⟩

/-- A law that holds of an action, whatever way of evaluating sub-expressions obeys it, holds of the
sub-expressions that are evaluated. -/
theorem Law.consults {lim : Limits} {L : Law lim} {α : Type} {x : Recur → Eval α} {recur : Recur}
    {d : Nat} {m m₁ : Machine} {e₁ : Expr} {post : Machine → α → Prop}
    (hx : ∀ {recur}, L.Recurs recur d → L.Ended m post (x recur m)) (hrec : L.Recurs recur d)
    (h : Consults x recur m e₁ m₁) : L.Admits e₁ ∧ L.At d m₁ := by
  obtain ⟨star, hstar, m', hinterrupt⟩ := h
  refine Classical.byContradiction fun hnot => ?_
  -- an interruption where the law says nothing obeys the law
  have hlaw : L.Recurs star d := by
    intro e m₂ hadmits hat
    have helse : ¬ (e = e₁ ∧ m₂ = m₁) := by
      rintro ⟨rfl, rfl⟩
      exact hnot ⟨hadmits, hat⟩
    rw [hstar.elsewhere e m₂ helse]
    exact hrec hadmits hat
  exact (hx hlaw).ne_interrupt m' hinterrupt

/-- A run in which one evaluation is interrupted, beside the run in which it is not. The runs part
there, and the second one goes on from what that evaluation leaves. -/
def Coupling.interrupted (lim : Limits) (left : Machine) : Coupling lim lim where
  toTwin := .same
  Parts stop _ m' := stop = .interrupt ∧ left.Continues m'
  fatal := by
    rintro stop m m' ⟨rfl, -⟩
    exact ⟨Stop.noConfusion, Stop.noConfusion⟩
  unwinds h _ _ := h
  continues h hcont := ⟨h.1, h.2.trans hcont⟩
  room := .inl rfl
  loops := .inl ⟨rfl, rfl⟩
  prints _ := Twin.agrees_same _ _
  reads := Twin.agrees_same _ _
  flushes := Twin.same_refusesFlush

theorem Coupling.recurs_interrupted (lim : Limits) {star recur : Recur} {e₁ : Expr} {m₁ : Machine}
    (hstar : Recur.Interrupts star recur e₁ m₁) (hrecur : ∀ e, Onward (recur e)) :
    (Coupling.interrupted lim ((recur e₁).after m₁)).Recurs star recur where
  first e m := by
    unfold after
    by_cases hhere : e = e₁ ∧ m = m₁
    · obtain ⟨rfl, rfl⟩ := hhere
      rw [hstar.here]
      exact .refl m
    · rw [hstar.elsewhere e m hhere]
      exact hrecur e m
  second := hrecur
  follows e := by
    refine ⟨hrecur _, fun m => ?_⟩
    show Twin.same.Agrees _ (star e) (recur (Twin.same.expr e)) m
    rw [Twin.same_expr]
    by_cases hhere : e = e₁ ∧ m = m₁
    · obtain ⟨rfl, rfl⟩ := hhere
      rw [Twin.Agrees, Twin.same_machine]
      exact .inr ⟨.interrupt, m, hstar.here, rfl, .refl _⟩
    · left
      rw [Twin.same_machine, Twin.same_result, hstar.elsewhere e m hhere]

/-- An action goes onward from what each evaluation in its course leaves. -/
theorem Eval.Consults.continues {α : Type} {x : Recur → Eval α} {recur : Recur} {m m₁ : Machine}
    {e₁ : Expr} (h : Consults x recur m e₁ m₁) (lim : Limits) (hrecur : ∀ e, Onward (recur e))
    (hx : ∀ {C : Coupling lim lim} {star}, C.toTwin = .same → C.Recurs star recur →
      C.Follows (x star) (x recur))
    (hnone : ∀ m', x recur m ≠ .error .interrupt m') :
    ((recur e₁).after m₁).Continues ((x recur).after m) := by
  obtain ⟨star, hstar, m', hinterrupt⟩ := h
  have hagrees := (hx rfl (Coupling.recurs_interrupted lim hstar hrecur)).agrees m
  change Twin.same.Agrees _ _ _ m at hagrees
  rw [Twin.Agrees, Twin.same_machine, Twin.same_result, hinterrupt] at hagrees
  rcases hagrees with heq | ⟨stop, m₂, -, -, hcont⟩
  · exact absurd heq (hnone m')
  · exact hcont

/-- A call runs the body of its function, and then checks and notes what it returns. -/
theorem Eval.evalCall_of_calls {recur : Recur} {e : Expr} {name : String} {args : List Expr}
    {m m₁ : Machine} {ns : List Int64} {id : FunctionId} {f : Function}
    (hargs : evalArgs recur e args m = .ok ns m₁) (hcall : Calls m₁ name id f ns) :
    evalCall recur e name args m = (do
      let v ← invoke recur e id f ns
      let w ← rejectFunction e 2 v
      noteReturn id w
      return w : Eval Value) (m₁.note (.calling name ns.length)) := by
  have hmany : ¬ f.numParams < ns.length := Nat.not_lt.mpr (Nat.le_of_eq hcall.arity)
  have hfew : ¬ ns.length < f.numParams := Nat.not_lt.mpr (Nat.le_of_eq hcall.arity.symm)
  rw [evalCall, bind_of_ok hargs, get_bind, hcall.lookup]
  dsimp only
  rw [hcall.function]
  dsimp only
  rw [apply, if_neg hmany, if_neg hfew]
  rfl

/-! ### Moments -/

/-- An evaluation under way. -/
structure Moment where
  /-- The room for nested expressions. -/
  room : Nat
  /-- The scopes that are set aside by the calls around it. -/
  aside : List Scope
  expr : Expr
  machine : Machine

/-- The machine that an evaluation leaves. -/
def Moment.after (lim : Limits) (t : Moment) : Machine :=
  (within lim t.room t.expr).after t.machine

/-- The second evaluation comes up in the course of the first one, and not inside of another. A call
evaluates its arguments, and then the body of the function with the scopes of the caller set
aside. -/
inductive Moment.Part (lim : Limits) : Moment → Moment → Prop where
  | operand {room : Nat} {aside : List Scope} {e e₁ : Expr} {m m₁ : Machine}
      (hcall : e.isCall = false) (h : Consults (node lim · e) (within lim room) (m.begin e) e₁ m₁) :
      Part lim ⟨room + 1, aside, e, m⟩ ⟨room, aside, e₁, m₁⟩
  | argument {room : Nat} {aside : List Scope} {span : Span} {name : String} {args : List Expr}
      {e₁ : Expr} {m m₁ : Machine}
      (h : Consults (evalArgs · (.call span name args) args) (within lim room)
        (m.begin (.call span name args)) e₁ m₁) :
      Part lim ⟨room + 1, aside, .call span name args, m⟩ ⟨room, aside, e₁, m₁⟩
  | body {room : Nat} {aside : List Scope} {span : Span} {name : String} {args : List Expr}
      {m m₁ : Machine} {ns : List Int64} {id : FunctionId} {f : Function}
      (hargs : evalArgs (within lim room) (.call span name args) args
        (m.begin (.call span name args)) = .ok ns m₁)
      (hcall : Calls m₁ name id f ns) :
      Part lim ⟨room + 1, aside, .call span name args, m⟩
        ⟨room, (enter (m₁.note (.calling name ns.length)) id f ns).1 ++ aside, f.body,
          (enter (m₁.note (.calling name ns.length)) id f ns).2⟩

/-- With the room that the limits leave, sub-expressions obey every law. -/
theorem Law.recurs_within {lim : Limits} (L : Law lim) {room d : Nat}
    (hroom : room = lim.maxDepth - d) :
    L.Recurs (Eval.within lim room) d :=
  fun hadmits hat => Law.within room hat.inv (by rw [hat.depth, hroom]) hadmits

namespace Moment

variable {lim : Limits} {t t' : Moment}

/-- The room of a moment is what the limits leave at the depth of its machine. -/
def IsRoomy (lim : Limits) (t : Moment) : Prop :=
  t.room = lim.maxDepth - t.machine.depth

/-- A law that is told which scopes are set aside holds of a moment. -/
structure Obeys (L : List Scope → Law lim) (t : Moment) : Prop where
  room : t.IsRoomy lim
  inv : (L t.aside).Inv t.machine
  admits : (L t.aside).Admits t.expr

/-- What a law says of the begin of an evaluation holds at its end. -/
theorem Obeys.inv_after {L : List Scope → Law lim} (h : t.Obeys L) :
    (L t.aside).Inv (t.after lim) := by
  have hended := Law.within t.room h.inv h.room h.admits
  unfold after Eval.after
  cases hr : within lim t.room t.expr t.machine with
  | ok v m' =>
    rw [hr] at hended
    exact hended.1.inv
  | error stop m' =>
    rw [hr] at hended
    exact hended.1.inv

/-- Sub-expressions begin one level deeper. -/
theorem Obeys.begin {L : List Scope → Law lim} {room : Nat} {aside : List Scope} {e : Expr}
    {m : Machine} (h : Obeys L ⟨room + 1, aside, e, m⟩) :
    (L aside).At (m.depth + 1) (m.begin e) ∧ room = lim.maxDepth - (m.depth + 1) := by
  have hroom : room + 1 = lim.maxDepth - m.depth := h.room
  exact ⟨⟨(L aside).begin h.inv (by omega), rfl⟩, by omega⟩

/-- The arguments of a call leave a lawful machine. -/
theorem Obeys.args {L : List Scope → Law lim} {room : Nat} {aside : List Scope} {span : Span}
    {name : String} {args : List Expr} {m m₁ : Machine} {ns : List Int64}
    (h : Obeys L ⟨room + 1, aside, .call span name args, m⟩)
    (hargs : evalArgs (within lim room) (.call span name args) args
      (m.begin (.call span name args)) = .ok ns m₁) : (L aside).At (m.depth + 1) m₁ := by
  obtain ⟨hat, hroom⟩ := h.begin
  have hadmits : ∀ a ∈ args, (L aside).Admits a := fun _ ha => (L aside).admits_part h.admits ha
  have hended :=
    Law.evalArgs (e := .call span name args) ((L aside).recurs_within hroom) hadmits hat
  rw [hargs] at hended
  exact hat.leads hended.1

/-- **What comes up in the course of a lawful evaluation is lawful**, if the law of the scopes set
aside for a call holds where the body of the function begins. -/
theorem Part.obeys {L : List Scope → Law lim}
    (hbody : ∀ {aside m name id f args}, (L aside).Inv m → Calls m name id f args →
      (L ((enter m id f args).1 ++ aside)).Inv (enter m id f args).2 ∧
        (L ((enter m id f args).1 ++ aside)).Admits f.body)
    (h : t.Part lim t') (ht : t.Obeys L) : t'.Obeys L := by
  cases h with
  | @operand room aside e e₁ m m₁ _ hconsults =>
    obtain ⟨hat, hroom⟩ := ht.begin
    obtain ⟨hadmits, hat₁⟩ := Law.consults (fun hrec => Law.node hrec hat ht.admits)
      ((L aside).recurs_within hroom) hconsults
    exact ⟨by rw [IsRoomy, hat₁.depth, hroom], hat₁.inv, hadmits⟩
  | @argument room aside span name args e₁ m m₁ hconsults =>
    obtain ⟨hat, hroom⟩ := ht.begin
    have hargs : ∀ a ∈ args, (L aside).Admits a := fun _ ha => (L aside).admits_part ht.admits ha
    obtain ⟨hadmits, hat₁⟩ := Law.consults (fun hrec => Law.evalArgs hrec hargs hat)
      ((L aside).recurs_within hroom) hconsults
    exact ⟨by rw [IsRoomy, hat₁.depth, hroom], hat₁.inv, hadmits⟩
  | @body room aside span name args m m₁ ns id f hargs hcall =>
    have hat := ht.args hargs
    have hnote := Law.Leads.move hat.inv (.announce name ns.length)
    obtain ⟨hinv, hadmits⟩ := hbody hnote.inv ⟨hcall.lookup, hcall.function, hcall.arity⟩
    refine ⟨?_, hinv, hadmits⟩
    obtain ⟨s, events, -, -, -, henter⟩ := enter_eq (m₁.note (.calling name ns.length)) id f ns
    rw [IsRoomy, henter, ht.begin.2, ← hat.depth]
    rfl

/-- **An evaluation goes onward from the end of what comes up in its course.** -/
theorem Part.continues (h : t.Part lim t') (ht : t.IsRoomy lim) :
    (t'.after lim).Continues (t.after lim) := by
  have hobeys : t.Obeys fun _ => (LogLaw.free lim).toLaw := ⟨ht, trivial, trivial⟩
  have hcounted : ∀ {room e m}, ((node lim (within lim room) e).after (m.begin e)).Continues
      ((within lim (room + 1) e).after m) := by
    intro room e m
    unfold Eval.after
    rw [within, counted]
    cases node lim (within lim room) e (m.begin e) <;> exact .of_eq rfl rfl (List.suffix_cons _ _)
  cases h with
  | @operand room aside e e₁ m m₁ _ hconsults =>
    obtain ⟨hat, hroom⟩ := hobeys.begin
    have hended := Law.node (e := e) (Law.recurs_within _ hroom) hat trivial
    refine .trans (hconsults.continues lim (.within lim room) ?_ hended.ne_interrupt) hcounted
    intro C star hsame hrec
    have hfollows := Coupling.Follows.node hrec e
    rwa [hsame, Twin.same_expr] at hfollows
  | @argument room aside span name args e₁ m m₁ hconsults =>
    obtain ⟨hat, hroom⟩ := hobeys.begin
    have hended := Law.evalArgs (e := .call span name args) (Law.recurs_within _ hroom)
      (fun a (_ : a ∈ args) => trivial) hat
    refine .trans (hconsults.continues lim (.within lim room) ?_ hended.ne_interrupt)
      (.trans ?_ hcounted)
    · intro C star hsame hrec
      have hfollows := Coupling.Follows.evalArgs hrec (.call span name args) args
      rwa [hsame, Twin.map_same_expr, Twin.same_expr] at hfollows
    · exact (Onward.after_bind _ (fun ns => .callWith (.within lim room) _ name ns) _).continues
  | @body room aside span name args m m₁ ns id f hargs hcall =>
    have hleft := Onward.after_invoke (.within lim room) (.call span name args) id f ns
      (m₁.note (.calling name ns.length))
    have hrest := Onward.after_bind (invoke (within lim room) (.call span name args) id f ns)
      (fun v => (Onward.rejectFunction (.call span name args) 2 v).bind fun w =>
        (Onward.noteReturn id w).bind fun _ => .pure w) (m₁.note (.calling name ns.length))
    refine .trans (hleft.1.trans (.trans hrest.continues ?_)) hcounted
    unfold Eval.after
    rw [node, evalCall_of_calls hargs hcall]
    exact .refl _

end Moment

/-! ### Sessions -/

/-- A program goes on with its next expression after one that has a value or was left for a loop. -/
def GoesOn (r : EStateM.Result Stop Machine Value) (m' : Machine) : Prop :=
  (∃ v, r = .ok v m') ∨ r = .error .brk m' ∨ r = .error .nxt m'

/-- In the run of a program on a machine, one of its expressions begins on another machine. -/
inductive Program.Starts (lim : Limits) : Program → Machine → Expr → Machine → Prop where
  | head {e : Expr} {es : Program} {m : Machine} : Starts lim (e :: es) m e m
  | next {e e' : Expr} {es : Program} {m m' m₁ : Machine} (hnext : GoesOn (expr lim e m) m')
      (h : Starts lim es m' e' m₁) : Starts lim (e :: es) m e' m₁

theorem GoesOn.runFrom {lim : Limits} {e : Expr} {es : Program} {m m' : Machine}
    (h : GoesOn (expr lim e m) m') (last : Value) :
    ∃ v, ScopeScript.runFrom lim (e :: es) last m = ScopeScript.runFrom lim es v m' := by
  rcases h with ⟨v, h⟩ | h | h
  · exact ⟨v, by rw [ScopeScript.runFrom, h]⟩
  · exact ⟨.null, by rw [ScopeScript.runFrom, h]⟩
  · exact ⟨.null, by rw [ScopeScript.runFrom, h]⟩

/-- A program goes onward to its end from the end of each of its expressions. -/
theorem Program.Starts.continues {lim : Limits} {p : Program} {m m₁ : Machine} {e : Expr}
    (h : Starts lim p m e m₁) (last : Value) :
    ((expr lim e).after m₁).Continues (runFrom lim p last m).2 := by
  induction h generalizing last with
  | @head e es m =>
    unfold runFrom Eval.after
    cases expr lim e m with
    | ok v m' => exact continues_runFrom lim es v m'
    | error stop m' =>
      cases stop with
      | brk | nxt => exact continues_runFrom lim es .null m'
      | quit => exact continues_concluded m' .quit
      | error e => exact continues_concluded m' (.error e)
      | unfinished => exact .refl m'
  | next hnext _ ih =>
    obtain ⟨v, hrun⟩ := hnext.runFrom last
    rw [hrun]
    exact ih v

/-- What a law says of the begin of a program holds of the begin of each of its expressions. -/
theorem Program.Starts.law {lim : Limits} {L : Law lim} {p : Program} {m m₁ : Machine} {e : Expr}
    (h : Starts lim p m e m₁) (hp : ∀ e ∈ p, L.Admits e) (hm : L.Inv m) :
    L.Admits e ∧ L.Inv m₁ := by
  induction h with
  | head => exact ⟨hp _ List.mem_cons_self, hm⟩
  | next hnext _ ih =>
    obtain ⟨he, hes⟩ := List.forall_mem_cons.mp hp
    have hended := L.expr hm he
    refine ih hes ?_
    rcases hnext with ⟨v, h⟩ | h | h
    · rw [h] at hended
      exact hended.1.inv
    · rw [h] at hended
      exact hended.1.inv
    · rw [h] at hended
      exact hended.1.inv

/-- Programs that run one after the other on a new machine. -/
structure Session where
  limits : Limits
  console : Console
  programs : List Program

namespace Session

variable {s : Session} {t : Moment}

/-- The machine on which the first program runs. -/
def start (s : Session) : Machine := { console := s.console }

/-- The machine that the last program leaves. -/
def final (s : Session) : Machine := s.start.runAll s.limits s.programs

/-- The machine before, between or after the programs of the session. -/
def Pauses (s : Session) (m : Machine) : Prop :=
  ∃ before after, s.programs = before ++ after ∧ m = s.start.runAll s.limits before

/-- The evaluations of a session: those of the expressions of its programs, and those that come up
in the course of others. -/
inductive Visits (s : Session) : Moment → Prop where
  | top {before after : List Program} {p : Program} {e : Expr} {m : Machine}
      (hprograms : s.programs = before ++ p :: after)
      (hstart : Program.Starts s.limits p (s.start.runAll s.limits before) e m) :
      Visits s ⟨s.limits.maxDepth - m.depth, [], e, m⟩
  | part {t t' : Moment} (ht : Visits s t) (h : t.Part s.limits t') : Visits s t'

/-! ### What goes through a session -/

theorem runAll_append (m : Machine) (lim : Limits) (ps qs : List Program) :
    m.runAll lim (ps ++ qs) = (m.runAll lim ps).runAll lim qs := by
  induction ps generalizing m with
  | nil => rfl
  | cons p ps ih => exact ih (m.run lim p).2

theorem continues_runAll (m : Machine) (lim : Limits) (ps : List Program) :
    m.Continues (m.runAll lim ps) := by
  induction ps generalizing m with
  | nil => exact .refl m
  | cons p ps ih => exact (continues_runFrom lim p .null m).trans (ih _)

theorem Pauses.continues {m : Machine} (h : s.Pauses m) : m.Continues s.final := by
  obtain ⟨before, after, hprograms, rfl⟩ := h
  rw [final, hprograms, runAll_append]
  exact continues_runAll _ _ _

/-- What a law says of a new machine holds between the programs, if closing all scopes and flushing
respect it. -/
theorem Pauses.law {L : Law s.limits} {m : Machine} (h : s.Pauses m)
    (hp : ∀ p ∈ s.programs, ∀ e ∈ p, L.Admits e) (hstart : L.Inv s.start)
    (hclose : ∀ {m} events c, L.Inv m → L.Inv { m.withScopes [] events with console := c })
    (hflush : ∀ {m : Machine} (c), L.Inv m → L.Inv { m with console := c }) : L.Inv m := by
  obtain ⟨before, after, hprograms, rfl⟩ := h
  have hbefore : ∀ p ∈ before, ∀ e ∈ p, L.Admits e := by
    intro p hmem
    exact hp p (hprograms ▸ List.mem_append_left _ hmem)
  clear hprograms
  generalize s.start = m at hstart
  induction before generalizing m with
  | nil => exact hstart
  | cons p ps ih =>
    obtain ⟨hp', hps⟩ := List.forall_mem_cons.mp hbefore
    obtain ⟨m', hleads, hcloses⟩ := L.run hp' hstart
    refine ih hps (m.run s.limits p).2 ?_
    rcases hcloses.abandoned_or_kept with ⟨e, c, events, -, -, heq⟩ | ⟨c, heq, -⟩
    · rw [heq]
      exact hclose events c hleads.inv
    · rw [heq]
      exact hflush c hleads.inv

/-- What a law says of a new machine holds of every moment, if it holds between the programs and
where the body of a function begins. -/
theorem Visits.obeys {L : List Scope → Law s.limits} (h : s.Visits t)
    (hp : ∀ p ∈ s.programs, ∀ e ∈ p, (L []).Admits e) (hpause : ∀ m, s.Pauses m → (L []).Inv m)
    (hbody : ∀ {aside m name id f args}, (L aside).Inv m → Calls m name id f args →
      (L ((enter m id f args).1 ++ aside)).Inv (enter m id f args).2 ∧
        (L ((enter m id f args).1 ++ aside)).Admits f.body) : t.Obeys L := by
  induction h with
  | @top before after p e m hprograms hstart =>
    have hmem : p ∈ s.programs := hprograms ▸ List.mem_append_right _ List.mem_cons_self
    obtain ⟨hadmits, hinv⟩ := hstart.law (hp p hmem) (hpause _ ⟨before, p :: after, hprograms, rfl⟩)
    exact ⟨rfl, hinv, hadmits⟩
  | part _ hpart ih => exact hpart.obeys hbody ih

/-- The room of every moment is what the limits leave. -/
theorem Visits.isRoomy (h : s.Visits t) : t.IsRoomy s.limits := by
  have hobeys : t.Obeys fun _ => (LogLaw.free s.limits).toLaw :=
    h.obeys (fun _ _ _ _ => trivial) (fun _ _ => trivial) (fun _ _ => ⟨trivial, trivial⟩)
  exact hobeys.room

/-- **A session goes onward from the end of every moment.** -/
theorem Visits.continues (h : s.Visits t) : (t.after s.limits).Continues s.final := by
  induction h with
  | @top before after p e m hprograms hstart =>
    have hrun := hstart.continues .null
    rw [final, hprograms, runAll_append]
    exact .trans hrun (continues_runAll _ _ after)
  | part ht hpart ih => exact (hpart.continues ht.isRoomy).trans ih

/-- The machines of a session, with the scopes that are set aside: those before, between and after
the programs, and those where the evaluation of an expression begins or ends. -/
inductive Reaches (s : Session) : List Scope → Machine → Prop where
  | pause {m : Machine} (h : s.Pauses m) : Reaches s [] m
  | begins {t : Moment} (h : s.Visits t) : Reaches s t.aside t.machine
  | ends {t : Moment} (h : s.Visits t) : Reaches s t.aside (t.after s.limits)

/-- What the session has written and logged, and the lists that it has made, are there at its
end. -/
theorem Reaches.continues {aside : List Scope} {m : Machine} (h : s.Reaches aside m) :
    m.Continues s.final := by
  cases h with
  | pause h => exact h.continues
  | @begins t h =>
    exact (Onward.within s.limits t.room t.expr t.machine).continues.trans h.continues
  | ends h => exact h.continues

end Session

end ScopeScript
