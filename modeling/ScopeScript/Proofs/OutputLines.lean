import ScopeScript.Proofs.Courses
import ScopeScript.Proofs.Framing

/-!
# One line for each output operation

The output of a session is the lines of its output operations, in the order in which these were
carried out, and nothing else. Three things come together.

* What is written is what the log says was printed, line by line, as long as no line is refused
  (`Law.written`).
* The lines in the log and the output operations of the session are the same: an operation ends with
  the mark of its line and its own mark on top of the log (`Moment.Outputs.log`), the log is never
  cut (`Session.Visits.continues`), and each line in the log was put there by an operation
  (`Session.accounts`).
* No string holds a line feed, so no text does (`Session.CarriesOut.lineFeed_notMem`): the lines can
  be told apart in the output.

Main statement: `Session.prints_line_by_line`. Each evaluation ends with a mark of its own, so the
log at its end says which evaluation it is.
-/

namespace ScopeScript

open Eval

/-! ### What is written -/

/-- What an event has written. -/
def Event.output : Event → List Char
  | .printed text => text ++ ['\n']
  | _ => []

/-- What was printed according to the log, oldest line first. -/
def Machine.output (m : Machine) : List Char :=
  m.log.reverse.flatMap Event.output

namespace Machine

variable {m m' : Machine}

theorem output_of_silent (h : m.Silent m') : m'.output = m.output := by
  obtain ⟨events, hlog, hevents⟩ := h
  have hnone : events.reverse.flatMap Event.output = [] := by
    refine List.flatMap_eq_nil_iff.mpr fun ev hev => ?_
    have hsilent := hevents ev (List.mem_reverse.mp hev)
    cases ev with
    | printed => cases hsilent
    | _ => rfl
  rw [output, output, hlog, List.reverse_append, List.flatMap_append, hnone, List.append_nil]

theorem output_printed (m : Machine) (c : Console) (text : List Char) :
    (m.printed c text).output = m.output ++ (text ++ ['\n']) := by
  show (Event.printed text :: m.log).reverse.flatMap Event.output = _
  rw [List.reverse_cons, List.flatMap_append, List.flatMap_singleton]
  rfl

/-- The sink takes every line, and holds what the log says on top of what it held at first. -/
structure Writes (first : List Char) (m : Machine) : Prop where
  limit : m.console.sink.limit = none
  written : m.console.sink.written.toList = first ++ m.output

theorem Writes.silent {first : List Char} (h : m.Writes first) (hsilent : m.Silent m')
    (hsink : m'.console.sink = m.console.sink) : m'.Writes first :=
  ⟨hsink ▸ h.limit, by rw [hsink, h.written, output_of_silent hsilent]⟩

theorem Writes.move {Fits : Machine → Value → Prop} {first : List Char} (h : m.Writes first)
    (hmove : Move Fits m m') : m'.Writes first := by
  cases hmove with
  | announce | bind | store | credit => exact h.silent (.cons rfl rfl) rfl
  | declare name info =>
    refine h.silent (Silent.declare m _) ?_
    unfold declare
    cases m.scopes.add? ⟨name, info, none⟩ <;> rfl
  | print v console _ hprint =>
    rw [Console.printLine_of_unlimited _ _ h.limit] at hprint
    cases hprint
    refine ⟨h.limit, ?_⟩
    have houtput := output_printed m
      { m.console with sink := (m.console.sink.append (String.ofList (m.heap.text v))).append "\n" }
      (m.heap.text v)
    refine Eq.trans ?_ (congrArg (first ++ ·) houtput.symm)
    simp only [note, Sink.append, String.toList_append, h.written, String.toList_ofList,
      List.append_assoc]
    rfl
  | refuse v fault console _ hprint =>
    rw [Console.printLine_of_unlimited _ _ h.limit] at hprint
    cases hprint
  | read line console hread =>
    exact h.silent (.cons rfl rfl) (Console.readLine_sink (.inl ⟨line, hread⟩))
  | skip fault console hread =>
    exact h.silent (.of_eq rfl) (Console.readLine_sink (.inr ⟨fault, hread⟩))
  | probe events hspoken =>
    exact h.silent (.spoken Event.not_isPrinted_of_line? hspoken rfl) rfl

end Machine

/-- **The law of what is written**: nothing but lines that the log knows of. -/
def Law.written (lim : Limits) (first : List Char) : Law lim where
  Admits _ := True
  Inv m := m.Writes first
  Step _ _ := True
  Fits _ _ := True
  admits_part _ _ := trivial
  step_refl _ := trivial
  step_trans _ _ := trivial
  fits_step _ _ _ := trivial
  fits_atom _ := trivial
  fits_literal _ := trivial
  fits_input _ := trivial
  fits_lookup _ _ := trivial
  fits_item _ _ _ := trivial
  move h hmove := ⟨h.move hmove, trivial⟩
  newList _ h := ⟨h.silent (.of_eq rfl) rfl, trivial, trivial⟩
  newFunction _ _ h := ⟨h.silent (.of_eq rfl) rfl, trivial, trivial⟩
  begin h _ := h.silent (.cons rfl rfl) rfl
  finish _ _ h _ _ := ⟨h.silent (.cons rfl rfl) rfl, trivial⟩
  fits_finish _ := trivial
  forget _ _ _ h _ := ⟨h.silent (.of_eq rfl) rfl, trivial⟩
  enter {m _ id f args} h _ := by
    refine ⟨h.silent (Silent.enter m id f args) ?_, trivial⟩
    obtain ⟨s, events, -, -, -, henter⟩ := enter_eq m id f args
    rw [henter]
    rfl
  leave _ _ _ h' _ := ⟨h'.silent (.cons rfl rfl) rfl, trivial⟩
  fits_leave _ _ _ _ _ _ _ := trivial

/-- The end of a run prints nothing. -/
theorem Law.Closes.silent {lim : Limits} {L : Law lim} {m : Machine} {r : Ending × Machine}
    (h : L.Closes m r) :
    m.Silent r.2 ∧ r.2.console = m.console := by
  cases h with
  | completed _ =>
    rw [flushed_eq]
    exact ⟨.refl m, rfl⟩
  | quit =>
    rw [flushed_eq]
    exact ⟨.refl m, rfl⟩
  | failed _ =>
    rw [abandon_eq_closeAll]
    obtain ⟨events, hspoken, hlog⟩ := Machine.logClosing_eq m.log m.scopes.depth
    exact ⟨.spoken Event.not_isPrinted_of_line? hspoken hlog, rfl⟩
  | unfinished _ => exact ⟨.refl m, rfl⟩

/-! ### Output operations -/

theorem Eval.exists_of_evalPrint_eq_ok {recur : Recur} {e operand : Expr}
    {m m' : Machine} {v : Value}
    (h : evalPrint recur e operand m = .ok v m') : ∃ m₁, recur operand m = .ok v m₁ := by
  unfold evalPrint at h
  cases hr : recur operand m with
  | error stop m₁ =>
    rw [bind_of_error hr] at h
    cases h
  | ok w m₁ =>
    rw [bind_of_ok hr] at h
    split at h
    · cases h
    · cases h
    · cases hprint : printValue w m₁ with
      | ok u m₂ =>
        rw [bind_of_ok hprint] at h
        cases h
        exact ⟨m₁, rfl⟩
      | error stop m₂ =>
        rw [bind_of_error hprint] at h
        cases h

/-- An expression that has a value had it before it was counted as done. -/
theorem Eval.exists_of_counted_eq_ok {e : Expr} {action : Eval Value} {m m' : Machine} {v : Value}
    (h : counted e action m = .ok v m') :
    ∃ m₁, action (m.begin e) = .ok v m₁ ∧ m' = m₁.finish e none := by
  unfold counted at h
  cases hr : action (m.begin e) with
  | ok w m₁ =>
    rw [hr] at h
    cases h
    exact ⟨m₁, rfl, rfl⟩
  | error stop m₁ =>
    rw [hr] at h
    cases h

/-- The account of nothing. -/
def Passage.blank : Passage := ⟨fun _ _ => True, fun _ => trivial, fun _ _ => trivial⟩

/-- An action that prints and has a value has put a line on top of the log. -/
theorem Eval.Prints.log {recur : Recur} {x : Recur → Eval Value} (h : Prints .blank recur x)
    {m m' : Machine} {v : Value} (hok : x recur m = .ok v m') :
    ∃ earlier, m'.log = .printed (m'.heap.text v) :: earlier := by
  have hends := h m fun _ _ _ => trivial
  rw [hok] at hends
  cases hends with
  | @printed v m₁ c _ => exact ⟨m₁.log, rfl⟩

/-- **An operation ends with the mark of its line and its own mark** on top of the log. -/
theorem Moment.Outputs.log {lim : Limits} {t : Moment} {v : Value} {m' : Machine}
    (h : t.Outputs lim v m') :
    ∃ earlier, m'.log = .left t.expr.span none :: .printed (m'.heap.text v) :: earlier := by
  cases h with
  | print h =>
    obtain ⟨m₁, hnode, rfl⟩ := exists_of_counted_eq_ok h
    obtain ⟨earlier, hlog⟩ := (Prints.evalPrint _ _).log hnode
    exact ⟨earlier, congrArg _ hlog⟩
  | @cat room _ span operand _ _ _ _ _ hoperand h =>
    obtain ⟨m₁, hnode, rfl⟩ := exists_of_counted_eq_ok h
    cases hprint : evalPrint (within lim room) (.cat span operand) operand _ with
    | error stop m₂ =>
      rw [node, bind_of_error hprint] at hnode
      cases hnode
    | ok w m₂ =>
      rw [node, bind_of_ok hprint] at hnode
      cases hnode
      obtain ⟨m₃, hoperand'⟩ := exists_of_evalPrint_eq_ok hprint
      rw [hoperand] at hoperand'
      cases hoperand'
      obtain ⟨earlier, hlog⟩ := (Prints.evalPrint _ _).log hprint
      exact ⟨earlier, congrArg _ hlog⟩
  | assignAt h =>
    obtain ⟨m₁, hnode, rfl⟩ := exists_of_counted_eq_ok h
    obtain ⟨earlier, hlog⟩ := (Prints.evalAssignAt _ _ _ _).log hnode
    exact ⟨earlier, congrArg _ hlog⟩

/-! ### Accounts -/

/-- Every line that was printed from the first machine to the second one is accounted for: the
condition holds of its text and of the log before it. -/
def Machine.Accounts (P : List Char → List Event → Prop) (m m' : Machine) : Prop :=
  ∃ events, m'.log = events ++ m.log ∧
    ∀ later text earlier, events = later ++ .printed text :: earlier → P text (earlier ++ m.log)

/-- Accounts are kept by a relation. -/
def Passage.accounts (P : List Char → List Event → Prop) : Passage where
  Rel := Machine.Accounts P
  silent {m m'} h := by
    obtain ⟨events, hlog, hevents⟩ := h
    refine ⟨events, hlog, ?_⟩
    rintro later text earlier rfl
    have hsilent := hevents (.printed text) (List.mem_append_right _ List.mem_cons_self)
    cases hsilent
  trans {a b c} hab hbc := by
    obtain ⟨events, hlog, hevents⟩ := hab
    obtain ⟨events', hlog', hevents'⟩ := hbc
    refine ⟨events' ++ events, by rw [hlog', hlog, List.append_assoc], ?_⟩
    intro later text earlier hsplit
    rcases List.append_eq_append_iff.mp hsplit with ⟨more, rfl, hmore⟩ | ⟨more, rfl, hmore⟩
    · exact hevents more text earlier hmore
    · cases more with
      | nil =>
        have hfirst : events = [] ++ .printed text :: earlier := hmore.symm
        exact hevents [] text earlier hfirst
      | cons ev more =>
        obtain ⟨rfl, rfl⟩ := List.cons.inj hmore
        have hholds := hevents' later text more rfl
        rwa [hlog, ← List.append_assoc] at hholds

/-- A line that is accounted for keeps the account, up to the end of its operation. -/
theorem Machine.accounts_printed {P : List Char → List Event → Prop} {m : Machine} (c : Console)
    {text : List Char} (e : Expr) (h : P text m.log) :
    m.Accounts P ((m.printed c text).finish e none) := by
  refine ⟨[.left e.span none, .printed text], rfl, ?_⟩
  intro later text' earlier hsplit
  match later with
  | [] => cases hsplit
  | [_] =>
    cases hsplit
    exact h
  | _ :: _ :: [] => cases hsplit
  | _ :: _ :: _ :: _ => cases hsplit

/-! ### Calls -/

/-- A call of something that is no function with this number of parameters fails once its arguments
are evaluated. -/
theorem Eval.exists_evalCall_error {recur : Recur} {e : Expr} {name : String} {args : List Expr}
    {m m₁ : Machine} {ns : List Int64} (hr : evalArgs recur e args m = .ok ns m₁)
    (hcalls : ¬∃ id f, Calls m₁ name id f ns) :
    ∃ stop, evalCall recur e name args m = .error stop m₁ := by
  rw [evalCall, bind_of_ok hr, get_bind]
  cases hlookup : m₁.scopes.lookup? name with
  | none => exact ⟨_, rfl⟩
  | some target =>
    cases target with
    | function id =>
      dsimp only
      cases hf : m₁.heap.function? id with
      | none => exact ⟨_, rfl⟩
      | some f =>
        dsimp only
        unfold apply
        by_cases hmany : f.numParams < ns.length
        · rw [if_pos hmany]
          exact ⟨_, rfl⟩
        · rw [if_neg hmany]
          by_cases hfew : ns.length < f.numParams
          · rw [if_pos hfew]
            exact ⟨_, rfl⟩
          · exact absurd ⟨id, f, hlookup, hf, by omega⟩ hcalls
    | _ => exact ⟨_, rfl⟩

/-- Between the body of a function and the end of its call nothing is printed. -/
theorem Passage.rel_invoke {R : Passage} {recur : Recur} {e : Expr} {id : FunctionId} {f : Function}
    {ns : List Int64}
    {m : Machine} (hbody : R.Rel (enter m id f ns).2 ((recur f.body).after (enter m id f ns).2)) :
    R.Rel m ((invoke recur e id f ns).after m) := by
  refine R.trans (R.silent (Silent.enter m id f ns)) (R.trans hbody ?_)
  unfold after invoke
  dsimp only
  cases recur f.body (enter m id f ns).2 with
  | ok v m₂ => exact R.silent (Silent.leaveCall e _ (.ok v) m₂)
  | error stop m₂ => exact R.silent (Silent.leaveCall e _ (.error stop) m₂)

/-! ### Sessions -/

/-- An output operation: the evaluation of it, the value that it prints, and the machine at its
end. -/
structure Operation where
  moment : Moment
  value : Value
  after : Machine

/-- The line that is printed. -/
def Operation.line (op : Operation) : List Char := op.after.heap.text op.value

namespace Session

variable {s : Session} {t : Moment}

/-- The operation is carried out in the course of the session. -/
structure CarriesOut (s : Session) (op : Operation) : Prop where
  visits : s.Visits op.moment
  outputs : op.moment.Outputs s.limits op.value op.after

/-- The line with this text was printed on top of this log by an operation of the session. -/
def Prints (s : Session) (text : List Char) (earlier : List Event) : Prop :=
  ∃ op, s.CarriesOut op ∧ op.after.log = .left op.moment.expr.span none ::
    .printed text :: earlier ∧
    text = op.line

/-- What a call prints is printed by its arguments and by the body of the function. -/
theorem accounts_call {R : Passage} {room : Nat} {aside : List Scope} {span : Span} {name : String}
    {args : List Expr} {m : Machine} (lim : Limits)
    (hparts : ∀ t', Moment.Part lim ⟨room + 1, aside, .call span name args, m⟩ t' →
      R.Rel t'.machine (t'.after lim)) :
    R.Rel (m.begin (.call span name args))
      ((node lim (within lim room) (.call span name args)).after
        (m.begin (.call span name args))) := by
  let e : Expr := .call span name args
  have hbuilt : Built .plain (evalArgs · e args) := .evalArgs e fun _ _ => trivial
  have hscript : Script R (within lim room) (evalArgs · e args) :=
    .of_built hbuilt not_false not_false
  have hargs := hscript.covers (m.begin e) fun e₁ m₁ h => hparts _ (.argument h)
  show R.Rel (m.begin e) ((evalCall (within lim room) e name args).after (m.begin e))
  cases hr : evalArgs (within lim room) e args (m.begin e) with
  | error stop m₁ =>
    rw [after_of_error hr] at hargs
    rw [after_of_error (show evalCall (within lim room) e name args (m.begin e) = _ from
      bind_of_error hr)]
    exact hargs
  | ok ns m₁ =>
    rw [after_of_ok hr] at hargs
    refine R.trans hargs ?_
    by_cases hcalls : ∃ id f, Calls m₁ name id f ns
    · obtain ⟨id, f, hcall⟩ := hcalls
      have hnote : R.Rel m₁ (m₁.note (.calling name ns.length)) := R.silent (.cons rfl rfl)
      have hinvoke := Passage.rel_invoke (e := e) (hparts _ (.body hr hcall))
      refine R.trans hnote (R.trans hinvoke ?_)
      have hrest : ∀ v, Silent (do
          let w ← rejectFunction e 2 v
          noteReturn id w
          return w : Eval Value) := fun v =>
        (Silent.rejectFunction e 2 v).bind fun w => (Silent.noteReturn id w).bind fun _ => .pure w
      have heq : (evalCall (within lim room) e name args).after (m.begin e) = ((do
          let v ← invoke (within lim room) e id f ns
          let w ← rejectFunction e 2 v
          noteReturn id w
          return w : Eval Value).after (m₁.note (.calling name ns.length))) := by
        simp only [after, evalCall_of_calls hr hcall]
      rw [heq]
      cases hi : invoke (within lim room) e id f ns (m₁.note (.calling name ns.length)) with
      | ok v m₂ =>
        have hm₂ := R.silent (hrest v m₂)
        simp only [after, bind_of_ok hi, hi]
        exact hm₂
      | error stop m₂ =>
        simp only [after, bind_of_error hi, hi]
        exact R.refl m₂
    · obtain ⟨stop, hfails⟩ := exists_evalCall_error hr hcalls
      rw [after_of_error hfails]
      exact R.refl m₁

/-- What an output operation prints itself is accounted for by the operation, if its evaluation is
that of an action that prints its value in the end. -/
theorem accounts_output {room : Nat} {aside : List Scope} {e : Expr} {m : Machine}
    {r : EStateM.Result Stop Machine Value} (h : s.Visits ⟨room + 1, aside, e, m⟩)
    (hends : EndsPrinting (.accounts s.Prints) (m.begin e) r)
    (hfails : ∀ stop m', r = .error stop m' →
      node s.limits (within s.limits room) e (m.begin e) = .error stop m')
    (hprints : ∀ v m₁, r = .ok v m₁ →
      ∃ w, node s.limits (within s.limits room) e (m.begin e) = .ok w m₁ ∧
      ∀ m', within s.limits (room + 1) e m = .ok w m' →
        Moment.Outputs s.limits ⟨room + 1, aside, e, m⟩ v m') :
    m.Accounts s.Prints ((within s.limits (room + 1) e).after m) := by
  let R := Passage.accounts s.Prints
  have hbegin : R.Rel m (m.begin e) := R.silent (.cons rfl rfl)
  show R.Rel m _
  cases hends with
  | @failed stop m' hm' =>
    have hwithin : within s.limits (room + 1) e m = .error stop (m'.finish e (some stop)) := by
      rw [within, counted, hfails stop m' rfl]
    rw [after_of_error hwithin]
    exact R.trans hbegin (R.trans hm' (R.silent (.cons rfl rfl)))
  | @printed v m₁ c hm₁ =>
    obtain ⟨w, hnode, houtputs⟩ := hprints v _ rfl
    have hwithin : within s.limits (room + 1) e m =
        .ok w ((m₁.printed c (m₁.heap.text v)).finish e none) := by
      rw [within, counted, hnode]
    rw [after_of_ok hwithin]
    refine R.trans hbegin (R.trans hm₁ (Machine.accounts_printed c e ?_))
    exact ⟨⟨_, v, _⟩, ⟨h, houtputs _ hwithin⟩, rfl, rfl⟩

/-- **Each line of an evaluation is accounted for**: an operation in its course has printed it. -/
theorem Visits.accounts (h : s.Visits t) : t.machine.Accounts s.Prints (t.after s.limits) := by
  obtain ⟨room, aside, e, m⟩ := t
  let R := Passage.accounts s.Prints
  show R.Rel m ((within s.limits room e).after m)
  induction room generalizing aside e m with
  | zero => exact R.refl m
  | succ room ih =>
    have hparts : ∀ t', Moment.Part s.limits ⟨room + 1, aside, e, m⟩ t' →
        R.Rel t'.machine (t'.after s.limits) := by
      intro t' hpart
      have hvisits := Visits.part h hpart
      cases hpart with
      | operand => exact ih _ _ _ hvisits
      | argument => exact ih _ _ _ hvisits
      | body => exact ih _ _ _ hvisits
    -- counting the expression in and out prints nothing
    have hcounted : R.Rel (m.begin e) ((node s.limits (within s.limits room) e).after (m.begin e)) →
        R.Rel m ((within s.limits (room + 1) e).after m) := by
      intro hnode
      refine R.trans (R.silent (.cons rfl rfl)) (R.trans hnode ?_)
      unfold after
      rw [within, counted]
      cases node s.limits (within s.limits room) e (m.begin e) <;> exact R.silent (.cons rfl rfl)
    cases hcall : e.isCall with
    | true =>
      cases e with
      | call span name args => exact hcounted (accounts_call s.limits hparts)
      | _ => cases hcall
    | false =>
      have hasked : ∀ e₁ m₁, Consults (node s.limits · e) (within s.limits room) (m.begin e) e₁ m₁ →
          R.Rel m₁ ((within s.limits room e₁).after m₁) :=
            fun e₁ m₁ hc => hparts _ (.operand hcall hc)
      cases houtput : e.isOutput with
      | false => exact hcounted ((Script.node s.limits hcall houtput).covers _ hasked)
      | true =>
        cases e with
        | print span operand =>
          refine accounts_output h (Prints.evalPrint _ operand _ hasked) (fun _ _ hr => hr) ?_
          exact fun v m₁ hr => ⟨v, hr, fun m' hwithin => .print hwithin⟩
        | cat span operand =>
          have hends := Prints.evalPrint (.cat span operand) operand (m.begin (.cat span operand))
            fun e₁ m₁ hc => hasked e₁ m₁ (hc.bind_left fun _ _ => pure Value.null)
          refine accounts_output h hends (fun _ _ hr => bind_of_error hr) fun v m₁ hr => ?_
          obtain ⟨m₂, hoperand⟩ := exists_of_evalPrint_eq_ok hr
          exact ⟨.null, bind_of_ok hr, fun m' hwithin => .cat hoperand hwithin⟩
        | assignAt span name index value =>
          refine accounts_output h (Prints.evalAssignAt _ name index value _ hasked)
            (fun _ _ hr => hr) ?_
          exact fun v m₁ hr => ⟨v, hr, fun m' hwithin => .assignAt hwithin⟩
        | _ => cases houtput

/-- A program keeps any account that is kept by its expressions. -/
theorem accounts_runFrom (R : Passage) (lim : Limits) {p : Program} {m : Machine} (last : Value)
    (h : ∀ e m₁, Program.Starts lim p m e m₁ → R.Rel m₁ ((expr lim e).after m₁)) :
    R.Rel m (runFrom lim p last m).2 := by
  have hconcluded : ∀ m' stop, R.Rel m' (concluded m' stop).2 := by
    intro m' stop
    cases stop with
    | error e =>
      rw [concluded, abandon_eq_closeAll]
      obtain ⟨events, hspoken, hlog⟩ := Machine.logClosing_eq m'.log m'.scopes.depth
      exact R.silent (.spoken Event.not_isPrinted_of_line? hspoken hlog)
    | unfinished => exact R.refl m'
    | quit | brk | nxt =>
      rw [concluded, flushed_eq]
      exact R.refl m'
  induction p generalizing last m with
  | nil =>
    rw [runFrom, flushed_eq]
    exact R.refl m
  | cons e es ih =>
    have hexpr := h e m .head
    have hnext : ∀ {m' v}, GoesOn (expr lim e m) m' → R.Rel m m' →
        R.Rel m (runFrom lim es v m').2 :=
      fun hgoes hm' => R.trans hm' (ih _ fun e' m₁ hstarts => h e' m₁ (.next hgoes hstarts))
    unfold runFrom
    cases hr : expr lim e m with
    | ok v m' =>
      rw [after_of_ok hr] at hexpr
      exact hnext (.inl ⟨v, hr⟩) hexpr
    | error stop m' =>
      rw [after_of_error hr] at hexpr
      cases stop with
      | brk => exact hnext (.inr (.inl hr)) hexpr
      | nxt => exact hnext (.inr (.inr hr)) hexpr
      | quit => exact R.trans hexpr (hconcluded m' .quit)
      | error e => exact R.trans hexpr (hconcluded m' (.error e))
      | unfinished => exact hexpr

/-- **Each line in the log of a session was printed by one of its operations.** -/
theorem accounts (s : Session) : s.start.Accounts s.Prints s.final := by
  let R := Passage.accounts s.Prints
  have hrest : ∀ after before, s.programs = before ++ after →
      R.Rel (s.start.runAll s.limits before) s.final := by
    intro after
    induction after with
    | nil =>
      intro before hprograms
      rw [final, hprograms, List.append_nil]
      exact R.refl _
    | cons p after ih =>
      intro before hprograms
      have hrun : s.start.runAll s.limits (before ++ [p]) =
          ((s.start.runAll s.limits before).run s.limits p).2 := by
        rw [runAll_append]
        rfl
      refine R.trans ?_ (ih (before ++ [p]) (by rw [hprograms, List.append_assoc]; rfl))
      rw [hrun]
      exact accounts_runFrom R s.limits .null fun e m₁ hstarts =>
        (Visits.top hprograms hstarts).accounts
  exact hrest s.programs [] rfl

/-! ### The lines of a session -/

theorem CarriesOut.log_suffix {op : Operation} (h : s.CarriesOut op) :
    op.after.log <:+ s.final.log := by
  obtain ⟨t, v, m'⟩ := op
  have hafter : t.after s.limits = m' := by
    obtain ⟨-, houtputs⟩ := h
    cases houtputs with
    | print h => exact after_of_ok h
    | cat _ h => exact after_of_ok h
    | assignAt h => exact after_of_ok h
  have hlog := h.visits.continues.log
  rwa [hafter] at hlog

/-- The operations that have printed a part of the log, in the order of their ends. -/
structure Prints.Ledger (s : Session) (log : List Event) (ops : List Operation) : Prop where
  carriesOut : ∀ op ∈ ops, s.CarriesOut op
  complete : ∀ op, s.CarriesOut op → op.after.log.tail <:+ log →
  ∃ op' ∈ ops, op'.after.log = op.after.log
  ordered : ops.Pairwise fun a b => a.after.log.length < b.after.log.length
  bounded : ∀ op ∈ ops, op.after.log.length ≤ log.length + 1
  output : log.reverse.flatMap Event.output = linesText (ops.map Operation.line)

theorem Prints.Ledger.output_cons {log : List Event} {ops : List Operation} (h : Ledger s log ops)
    (ev : Event) :
    (ev :: log).reverse.flatMap Event.output = linesText (ops.map Operation.line) ++ ev.output := by
  rw [List.reverse_cons, List.flatMap_append, h.output, List.flatMap_singleton]

/-- An event that prints nothing adds nothing. -/
theorem Prints.Ledger.skip {log : List Event} {ops : List Operation} {ev : Event}
    (h : Ledger s log ops)
    (hev : ev.isPrinted ≠ true) : Ledger s (ev :: log) ops where
  carriesOut := h.carriesOut
  complete op' hop' htail := by
    refine h.complete op' hop' ?_
    rcases List.suffix_cons_iff.mp htail with heq | hsuffix
    · obtain ⟨earlier, hend'⟩ := hop'.outputs.log
      rw [hend', List.tail_cons] at heq
      exact absurd (show ev.isPrinted = true by rw [← (List.cons.inj heq).1]; rfl) hev
    · exact hsuffix
  ordered := h.ordered
  bounded a ha := by
    have hbound := h.bounded a ha
    rw [List.length_cons]
    omega
  output := by
    have hnone : ev.output = [] := by
      cases ev with
      | printed => exact absurd rfl hev
      | _ => rfl
    rw [h.output_cons, hnone, List.append_nil]

/-- The operation that has printed the last line comes last. -/
theorem Prints.Ledger.add {log : List Event} {ops : List Operation} {op : Operation}
    (h : Ledger s log ops) (hop : s.CarriesOut op)
    (hend : op.after.log = .left op.moment.expr.span none :: .printed op.line :: log) :
    Ledger s (.printed op.line :: log) (ops ++ [op]) where
  carriesOut op' hop' := by
    rcases List.mem_append.mp hop' with hop' | hop'
    · exact h.carriesOut op' hop'
    · exact List.mem_singleton.mp hop' ▸ hop
  complete op' hop' htail := by
    obtain ⟨earlier, hend'⟩ := hop'.outputs.log
    rcases List.suffix_cons_iff.mp htail with heq | hsuffix
    · -- both logs are the end of the final one, and equally long
      refine ⟨op, List.mem_append_right _ List.mem_cons_self, ?_⟩
      rw [hend', List.tail_cons] at heq
      have hlen : op.after.log.length = op'.after.log.length := by
        rw [hend, hend', heq]
        rfl
      exact (List.suffix_of_suffix_length_le hop.log_suffix hop'.log_suffix hlen.le).eq_of_length
        hlen
    · obtain ⟨op'', hmem, hsame⟩ := h.complete op' hop' hsuffix
      exact ⟨op'', List.mem_append_left _ hmem, hsame⟩
  ordered := by
    refine List.pairwise_append.mpr ⟨h.ordered, List.pairwise_singleton _ _, ?_⟩
    intro a ha b hb
    obtain rfl := List.mem_singleton.mp hb
    have hbound := h.bounded a ha
    rw [hend, List.length_cons, List.length_cons]
    omega
  bounded a ha := by
    rcases List.mem_append.mp ha with ha | ha
    · have hbound := h.bounded a ha
      rw [List.length_cons]
      omega
    · rw [List.mem_singleton.mp ha, hend]
      exact Nat.le_refl _
  output := by
    rw [h.output_cons, List.map_append, linesText_append, List.map_singleton, linesText_cons]
    rfl

/-- A printed line in the log of the session was printed by an operation that was carried out. -/
theorem prints_of_suffix (s : Session) {text : List Char} {log : List Event}
    (hlog : .printed text :: log <:+ s.final.log) : s.Prints text log := by
  obtain ⟨later, hfinal⟩ := hlog
  obtain ⟨events, hall, hevents⟩ := s.accounts
  have hstart : s.start.log = [] := rfl
  rw [hstart, List.append_nil] at hall
  have hholds := hevents later text log (hall ▸ hfinal.symm)
  rwa [hstart, List.append_nil] at hholds

theorem exists_ledger (s : Session) {log : List Event} (hlog : log <:+ s.final.log) :
    ∃ ops, Prints.Ledger s log ops := by
  induction log with
  | nil =>
    refine ⟨[], by simp, fun op hop htail => ?_, .nil, by simp, rfl⟩
    obtain ⟨earlier, hend⟩ := hop.outputs.log
    rw [hend, List.tail_cons] at htail
    exact absurd (List.suffix_nil.mp htail) (List.cons_ne_nil _ _)
  | cons ev log ih =>
    obtain ⟨ops, hops⟩ := ih ((List.suffix_cons ev log).trans hlog)
    by_cases hev : ev.isPrinted = true
    · obtain ⟨text, rfl⟩ : ∃ text, ev = .printed text := by
        cases ev with
        | printed text => exact ⟨text, rfl⟩
        | _ => cases hev
      obtain ⟨op, hop, hend, rfl⟩ := s.prints_of_suffix hlog
      exact ⟨ops ++ [op], hops.add hop hend⟩
    · exact ⟨ops, hops.skip hev⟩

/-- The line of an operation holds no line feed. -/
theorem CarriesOut.lineFeed_notMem {op : Operation} (h : s.CarriesOut op) (hread : s.IsRead) :
    '\n' ∉ op.line := by
  obtain ⟨t, v, m'⟩ := op
  obtain ⟨hvisits, houtputs⟩ := h
  have hitems : ∀ id, ∀ w ∈ (t.after s.limits).heap.items id, w.IsFramed :=
    ((Reaches.ends hvisits).isFramed hread).1.items
  have hvalue : ∀ {m₁}, within s.limits t.room t.expr t.machine = .ok v m₁ → v.IsFramed :=
    fun h => (Holds.value hvisits h).isFramed hread
  cases houtputs with
  | print h =>
    rw [Moment.after, after_of_ok h] at hitems
    exact Heap.lineFeed_notMem_text hitems (hvalue h)
  | @cat room aside span operand m m₁ _ _ _ hoperand h =>
    rw [Moment.after, after_of_ok h] at hitems
    have hconsults : Consults (node s.limits · (.cat span operand)) (within s.limits room)
        (m.begin (.cat span operand)) operand (m.begin (.cat span operand)) :=
      .bind_left (.first fun star => ⟨_, rfl⟩) fun _ _ => pure Value.null
    have hpart : s.Visits ⟨room, aside, operand, m.begin (.cat span operand)⟩ :=
      .part hvisits (.operand rfl hconsults)
    exact Heap.lineFeed_notMem_text hitems ((Holds.value hpart hoperand).isFramed hread)
  | assignAt h =>
    rw [Moment.after, after_of_ok h] at hitems
    exact Heap.lineFeed_notMem_text hitems (hvalue h)

theorem Pauses.writes {m : Machine} (h : s.Pauses m) (hlimit : s.console.sink.limit = none) :
    m.Writes s.console.sink.written.toList := by
  obtain ⟨before, after, -, rfl⟩ := h
  have hstart : s.start.Writes s.console.sink.written.toList := ⟨hlimit, (List.append_nil _).symm⟩
  generalize s.start = m at hstart
  induction before generalizing m with
  | nil => exact hstart
  | cons p ps ih =>
    obtain ⟨m', hleads, hcloses⟩ :=
      (Law.written s.limits _).run (p := p) (fun _ _ => trivial) hstart
    obtain ⟨hsilent, hconsole⟩ := hcloses.silent
    exact ih _ (hleads.inv.silent hsilent (by rw [hconsole]))

/-- **One line for each output operation.** In a session of programs that were read, no string at
hand holds a line feed or ends in a carriage return. If the sink takes every line, all output
operations that were carried out can be put in the order of their ends, and the output consists of
their lines in this order: it has as many lines as there were operations, and the line of an
operation is the text of its value. -/
theorem prints_line_by_line (s : Session) (hread : s.IsRead) :
    (∀ m text, s.Holds m (.str text) → FitsOnLine text.toList) ∧
      (s.console.sink.limit = none →
        ∃ ops : List Operation, (∀ op ∈ ops, s.CarriesOut op) ∧
          (∀ op, s.CarriesOut op → ∃ op' ∈ ops, op'.after.log = op.after.log) ∧
          (ops.Pairwise fun a b => a.after.log.length < b.after.log.length) ∧
          (∀ op ∈ ops, '\n' ∉ op.line) ∧
          s.final.console.sink.written.toList =
            s.console.sink.written.toList ++ linesText (ops.map Operation.line) ∧
          s.final.console.sink.lines = s.console.sink.lines + ops.length) := by
  refine ⟨fun m text h => h.isFramed hread, fun hlimit => ?_⟩
  obtain ⟨ops, hops⟩ := s.exists_ledger List.suffix_rfl
  have hlines : ∀ op ∈ ops, '\n' ∉ op.line :=
    fun op hop => (hops.carriesOut op hop).lineFeed_notMem hread
  have hwritten : s.final.console.sink.written.toList =
      s.console.sink.written.toList ++ linesText (ops.map Operation.line) := by
    have hwrites := Pauses.writes ⟨s.programs, [], (List.append_nil _).symm, rfl⟩ hlimit
    rw [← hops.output]
    exact hwrites.written
  have hcount : (linesText (ops.map Operation.line)).count '\n' = ops.length := by
    rw [count_linesText (List.forall_mem_map.mpr hlines), List.length_map]
  refine ⟨ops, hops.carriesOut, fun op hop => ?_, hops.ordered, hlines, hwritten, ?_⟩
  · exact hops.complete op hop ((List.tail_suffix _).trans hop.log_suffix)
  · rw [Sink.lines, Sink.lines, hwritten, List.count_append, hcount]

/-- The line `a b` with a carriage return at its end is read by the program
`x <- read(); l <- list("p", 2); l[[2]] <- x`, and shown by `print(x); cat(l[[1]])`. -/
def echo : Session where
  limits := {}
  console := { input := [97, 32, 98, 13, 10] }
  programs :=
    [[.assign ⟨0, 11⟩ "x" (.read ⟨5, 11⟩),
        .assign ⟨13, 30⟩ "l" (.list ⟨18, 30⟩ [.str "p", .int 2]),
        .assignAt ⟨32, 43⟩ "l" (.literal ⟨35, 36⟩ (.int 2)) (.var ⟨42, 43⟩ "x")],
      [.print ⟨0, 8⟩ (.var ⟨6, 7⟩ "x"),
        .cat ⟨10, 21⟩ (.element ⟨14, 20⟩ "l" (.literal ⟨17, 18⟩ (.int 1)))]]

theorem isRead_echo : echo.IsRead := by
  intro p hp
  rcases List.mem_cons.mp hp with rfl | hp
  · exact ⟨"x <- read(); l <- list(\"p\", 2); l[[2]] <- x".toList, rfl⟩
  · obtain rfl := List.mem_singleton.mp hp
    exact ⟨"print(x); cat(l[[1]])".toList, rfl⟩

/-- The string has lost its line end, and three operations have printed three lines. -/
theorem prints_line_by_line_echo :
    echo.IsRead ∧ echo.console.sink.limit = none ∧ echo.Holds echo.final (.str "a b") ∧
      FitsOnLine "a b".toList ∧
      ∃ ops : List Operation, ops.length = 3 ∧ (∀ op ∈ ops, echo.CarriesOut op) ∧
        linesText (ops.map Operation.line) = "( p a b )\na b\np\n".toList := by
  obtain ⟨hframed, hlines⟩ := prints_line_by_line echo isRead_echo
  obtain ⟨ops, hops, -, -, -, hwritten, hcount⟩ := hlines rfl
  have hend : echo.Reaches [] echo.final := .pause ⟨_, [], (List.append_nil _).symm, rfl⟩
  have hscope :
      ⟨0, [⟨"l", .plain .ofList, some (.list 0)⟩, ⟨"x", .plain .ofStr, some (.str "a b")⟩]⟩ ∈
    echo.final.scopes.scopes ++ [] := by decide +kernel
  have hholds : echo.Holds echo.final (.str "a b") :=
    .name hend hscope (List.mem_cons_of_mem _ List.mem_cons_self) rfl
  rw [show echo.final.console.sink.lines = 3 by decide +kernel,
    show echo.console.sink.lines = 0 by decide +kernel, Nat.zero_add] at hcount
  rw [show echo.final.console.sink.written.toList = "( p a b )\na b\np\n".toList by decide +kernel]
    at hwritten
  exact ⟨isRead_echo, rfl, hholds, hframed _ _ hholds, ops, hcount.symm, hops, hwritten.symm⟩

end Session

end ScopeScript
