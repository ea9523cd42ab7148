import ScopeScript.Proofs.FailFast

/-!
# What an evaluation prints

Lines are printed by three constructs only: `print`, `cat` and the assignment to an element of a
list. Each of them prints one line, as the last thing it does before it has its value, and none if
it fails (`Eval.Prints`). Every other construct leaves printing to the evaluations in its course
(`Eval.Script`). So each line in the log of an evaluation was printed at the end of one such
operation among the evaluations that have come up in its course (`Session.Visits.accounts`).

An account is kept by a relation between an earlier machine and a later one that holds across every
change by which nothing is printed (`Passage`). If it holds across all evaluations that a construct
asks for, it holds across the construct, up to a line that the construct prints itself.
-/

namespace ScopeScript

open Eval

/-- Whether an event is a printed line. -/
def Event.isPrinted : Event → Bool
  | .printed _ => true
  | _ => false

/-- Nothing is printed from the first machine to the second one. -/
abbrev Machine.Silent (m m' : Machine) : Prop :=
  m.Logs (fun ev => ev.isPrinted = false) m'

theorem Event.not_isPrinted_of_line? {ev : Event} (h : ev.line?.isSome) : ev.isPrinted = false := by
  cases ev with
  | printed => cases h
  | _ => rfl

/-- A relation between machines that holds across all changes by which nothing is printed. -/
structure Passage where
  Rel : Machine → Machine → Prop
  silent : ∀ {m m'}, m.Silent m' → Rel m m'
  trans : ∀ {a b c}, Rel a b → Rel b c → Rel a c

theorem Passage.refl (R : Passage) (m : Machine) : R.Rel m m := R.silent (.refl m)

/-! ### Silent actions -/

/-- The action prints nothing. -/
def Eval.Silent {α : Type} (x : Eval α) : Prop :=
  ∀ m : Machine, m.Silent (x.after m)

namespace Eval.Silent

variable {α β : Type}

theorem pure (a : α) : Silent (Pure.pure a : Eval α) := fun m => .refl m

theorem throw (stop : Stop) : Silent (fun m => .error stop m : Eval α) := fun m => .refl m

theorem failWith (e : Expr) (error : SemanticError) : Silent (failWith e error : Eval α) := .throw _

theorem note {ev : Event} (h : ev.isPrinted = false) : Silent (note ev) := fun _ => .cons rfl h

theorem bind {x : Eval α} {f : α → Eval β} (hx : Silent x) (hf : ∀ a, Silent (f a)) :
    Silent (x >>= f) := by
  intro m
  have hm := hx m
  cases h : x m with
  | ok a m' =>
    rw [after_of_ok h] at hm
    have hafter : (x >>= f).after m = (f a).after m' := by simp only [after, bind_of_ok h]
    rw [hafter]
    exact hm.trans (hf a m')
  | error stop m' =>
    rw [after_of_error h] at hm
    rw [after_of_error (bind_of_error h)]
    exact hm

theorem rejectFunction (e : Expr) (arg : Nat) (v : Value) : Silent (rejectFunction e arg v) := by
  cases v with
  | function => exact .failWith e _
  | _ => exact .pure _

theorem rebind (e : Expr) (name : String) (v : Value) : Silent (rebind e name v) := by
  intro m
  unfold after Eval.rebind
  dsimp only
  by_cases hparam : ((m.scopes.find? name).any (·.info.isParam) && !v.typeClass.acceptsInt) = true
  · rw [if_pos hparam]
    exact .refl m
  · rw [if_neg hparam]
    cases m.scopes.change _ with
    | ok stack => exact .cons rfl rfl
    | error fault => exact .refl m

theorem declare (m : Machine) (e : Entry) : m.Silent (m.declare e) := by
  unfold Machine.declare
  cases m.scopes.add? e with
  | none => exact .refl m
  | some stack => exact .cons rfl rfl

theorem declareLoopVar (e : Expr) (name : String) : Silent (declareLoopVar e name) := by
  intro m
  unfold after Eval.declareLoopVar
  cases m.scopes.find? name with
  | none => exact declare m _
  | some entry =>
    dsimp only
    by_cases hkind : entry.info.kind = .ofFunction ∨ entry.info.kind = .nothing ∨
      entry.info.kind = .ofList
    · rw [if_pos hkind]
      exact .refl m
    · rw [if_neg hkind]
      exact .refl m

theorem evalFunction (e : Expr) (params : List String) (body : Expr) :
    Silent (evalFunction e params body) := by
  intro m
  obtain ⟨events, hspoken, ⟨-, heq⟩ | heq⟩ := evalFunction_cases e params body m
  · rw [after_of_ok heq]
    exact .spoken Event.not_isPrinted_of_line? hspoken rfl
  · rw [after_of_error heq]
    exact .spoken Event.not_isPrinted_of_line? hspoken rfl

theorem evalList (items : List Literal) : Silent (evalList items) := fun _ => .of_eq rfl

theorem evalRead : Silent evalRead := by
  refine .bind (fun m => ?_) fun line => (note rfl).bind fun _ => .pure _
  unfold after onConsole
  cases Console.readLine m.console with
  | ok line c => exact .of_eq rfl
  | error fault c => exact .of_eq rfl

theorem enter (m : Machine) (id : FunctionId) (f : Function) (args : List Int64) :
    m.Silent (Eval.enter m id f args).2 := by
  obtain ⟨s, events, -, -, hspoken, henter⟩ := enter_eq m id f args
  rw [henter]
  refine ⟨_ :: events, rfl, ?_⟩
  intro ev hev
  rcases List.mem_cons.mp hev with rfl | hev
  · rfl
  · exact Event.not_isPrinted_of_line? (Event.line?_of_isSpoken (hspoken ev hev))

theorem leaveCall (e : Expr) (hidden : List Scope) (ended : Except Stop Value) :
    Silent (leaveCall e hidden ended) := by
  intro m
  cases hs : m.scopes.scopes with
  | nil =>
    have hnone : m.closeScope? = none := by simp only [Machine.closeScope?, ScopeStack.pop, hs]
    unfold after Eval.leaveCall
    simp only [hnone]
    exact .of_eq rfl
  | cons scope outer =>
    have hleft : (Eval.leaveCall e hidden ended).after m =
        (m.withScopes outer [.exiting outer.length]).reattach hidden := by
      unfold after
      cases ended with
      | ok v => simp only [Eval.leaveCall, m.closeScope?_cons hs]
      | error stop => cases stop <;> simp only [Eval.leaveCall, m.closeScope?_cons hs]
    rw [hleft]
    exact .cons rfl rfl

theorem noteReturn (id : FunctionId) (v : Value) : Silent (noteReturn id v) :=
  fun _ => .cons rfl rfl

end Eval.Silent

/-! ### Constructs that do not print -/

/-- The action keeps any account that is kept by the evaluations that it asks for, and an
interruption of one of these interrupts it or makes no difference. -/
structure Eval.Script (R : Passage) (recur : Recur) {α : Type} (x : Recur → Eval α) : Prop where
  relays : ∀ {star e₁ m₁}, Recur.Interrupts star recur e₁ m₁ →
  Relays .interrupt m₁ (x recur) (x star)
  covers : ∀ m, (∀ e₁ m₁, Consults x recur m e₁ m₁ → R.Rel m₁ ((recur e₁).after m₁)) →
    R.Rel m ((x recur).after m)

section Consulting

variable {α β : Type} {recur : Recur} {m m' m₁ : Machine} {e₁ : Expr}

theorem Eval.Consults.bind_left {y : Recur → Eval α} (h : Consults y recur m e₁ m₁)
    (f : Recur → α → Eval β) : Consults (fun recur => y recur >>= f recur) recur m e₁ m₁ := by
  obtain ⟨star, hstar, m', hinterrupt⟩ := h
  exact ⟨star, hstar, m', bind_of_error hinterrupt⟩

/-- What comes second is consulted, unless the interruption has come up before. -/
theorem Eval.Consults.bind_right {y : Recur → Eval α} {f : Recur → α → Eval β} {a : α}
    (hrelays : ∀ {star}, Recur.Interrupts star recur e₁ m₁ →
      Relays .interrupt m₁ (y recur) (y star))
    (hy : y recur m = .ok a m') (h : Consults (f · a) recur m' e₁ m₁) :
    Consults (fun recur => y recur >>= f recur) recur m e₁ m₁ := by
  obtain ⟨star, hstar, m₂, hinterrupt⟩ := h
  rcases hrelays hstar m with heq | ⟨m₃, hstop, -⟩
  · exact ⟨star, hstar, m₂, (bind_of_ok (heq.trans hy)).trans hinterrupt⟩
  · exact ⟨star, hstar, m₃, bind_of_error hstop⟩

/-- A name is removed again for a loop only. -/
theorem Eval.Consults.declaring {action : Recur → Eval Value} {name : String}
    (hnew : m.scopes.find? name = none)
    (h : Consults action recur (m.declare (.placeholder name)) e₁ m₁) :
    Consults (fun recur => declaring name (action recur)) recur m e₁ m₁ := by
  obtain ⟨star, hstar, m', hinterrupt⟩ := h
  refine ⟨star, hstar, m', ?_⟩
  simp only [Eval.declaring, hnew, hinterrupt]
  rfl

/-- Where the name is taken, nothing is declared. -/
theorem Eval.declaring_of_find? {name : String} {old : Entry}
    (hold : m.scopes.find? name = some old)
    (action : Eval Value) : Eval.declaring name action m = action m := by
  simp only [Eval.declaring, hold]

theorem Eval.Consults.declaring_of_find? {action : Recur → Eval Value} {name : String} {old : Entry}
    (hold : m.scopes.find? name = some old) (h : Consults action recur m e₁ m₁) :
    Consults (fun recur => Eval.declaring name (action recur)) recur m e₁ m₁ := by
  obtain ⟨star, hstar, m', hinterrupt⟩ := h
  exact ⟨star, hstar, m', (Eval.declaring_of_find? hold _).trans hinterrupt⟩

theorem Eval.Consults.round_body {body : Recur → Eval Value} (h : Consults body recur m e₁ m₁)
    (result : Value) (next : Recur → Value → Eval Value) :
    Consults (fun recur => Eval.round (body recur) result (next recur)) recur m e₁ m₁ := by
  obtain ⟨star, hstar, m', hinterrupt⟩ := h
  refine ⟨star, hstar, m', ?_⟩
  simp only [Eval.round, hinterrupt]
  rfl

/-- The next round is consulted, unless the interruption has come up in this one. -/
theorem Eval.Consults.round_next {body : Recur → Eval Value} {result v : Value}
    {next : Recur → Value → Eval Value}
    (hrelays : ∀ {star}, Recur.Interrupts star recur e₁ m₁ →
      Relays .interrupt m₁ (body recur) (body star))
    (hround : ∀ star : Recur, body star m = body recur m →
      Eval.round (body star) result (next star) m = next star v m')
    (h : Consults (next · v) recur m' e₁ m₁) :
    Consults (fun recur => Eval.round (body recur) result (next recur)) recur m e₁ m₁ := by
  obtain ⟨star, hstar, m₂, hinterrupt⟩ := h
  rcases hrelays hstar m with heq | ⟨m₃, hstop, -⟩
  · exact ⟨star, hstar, m₂, (hround star heq).trans hinterrupt⟩
  · refine ⟨star, hstar, m₃, ?_⟩
    simp only [Eval.round, hstop]
    rfl

end Consulting

namespace Eval.Script

variable {α β : Type} {R : Passage} {recur : Recur}

theorem silent {x : Eval α} (h : Silent x) : Script R recur fun _ => x where
  relays _ := .refl x
  covers m _ := R.silent (h m)

/-- A sub-expression is asked for. -/
theorem ask (e : Expr) : Script R recur fun recur => recur e where
  relays hstar := hstar.relays e
  covers m hasked := hasked e m (.first fun star => ⟨Pure.pure, by rw [bind_pure]⟩)

theorem bind {y : Recur → Eval α} {f : Recur → α → Eval β} (hy : Script R recur y)
    (hf : ∀ a, Script R recur (f · a)) : Script R recur fun recur => y recur >>= f recur where
  relays hstar := (hy.relays hstar).bind fun a => (hf a).relays hstar
  covers m hasked := by
    have hfirst := hy.covers m fun e₁ m₁ h => hasked e₁ m₁ (h.bind_left f)
    cases hr : y recur m with
    | ok a m' =>
      have hafter : (y recur >>= f recur).after m = (f recur a).after m' := by
        simp only [after, bind_of_ok hr]
      rw [after_of_ok hr] at hfirst
      rw [hafter]
      exact R.trans hfirst ((hf a).covers m' fun e₁ m₁ h =>
        hasked e₁ m₁ (h.bind_right hy.relays hr))
    | error stop m' =>
      rw [after_of_error hr] at hfirst
      rw [after_of_error (bind_of_error hr)]
      exact hfirst

theorem get_bind {f : Recur → Machine → Eval α} (hf : ∀ m, Script R recur (f · m)) :
    Script R recur fun recur => get >>= f recur where
  relays hstar := .get_bind fun m => (hf m).relays hstar
  covers m hasked := (hf m).covers m hasked

theorem declaring (name : String) {action : Recur → Eval Value} (h : Script R recur action) :
    Script R recur fun recur => declaring name (action recur) where
  relays hstar := .declaring rfl name (h.relays hstar)
  covers m hasked := by
    cases hnew : m.scopes.find? name with
    | some old =>
      have hafter : (Eval.declaring name (action recur)).after m = (action recur).after m := by
        simp only [after, Eval.declaring_of_find? hnew]
      rw [hafter]
      exact h.covers m fun e₁ m₁ hconsults => hasked e₁ m₁ (hconsults.declaring_of_find? hnew)
    | none =>
      have hinner := h.covers (m.declare (.placeholder name)) fun e₁ m₁ hconsults =>
        hasked e₁ m₁ (hconsults.declaring hnew)
      refine R.trans (R.silent (Silent.declare m _)) (R.trans hinner (R.silent ?_))
      unfold after Eval.declaring
      simp only [hnew]
      cases action recur (m.declare (.placeholder name)) with
      | ok v m' => exact .refl m'
      | error stop m' =>
        cases stop with
        | brk | nxt => exact .of_eq rfl
        | quit | error | unfinished => exact .refl m'

theorem round {body : Recur → Eval Value} (hbody : Script R recur body) (result : Value)
    {next : Recur → Value → Eval Value} (hnext : ∀ v, Script R recur (next · v)) :
    Script R recur fun recur => round (body recur) result (next recur) where
  relays hstar := .round rfl (hbody.relays hstar) result fun v => (hnext v).relays hstar
  covers m hasked := by
    have hfirst := hbody.covers m fun e₁ m₁ h => hasked e₁ m₁ (h.round_body result next)
    have hrest : ∀ v m', R.Rel m m' →
        (∀ star : Recur, body star m = body recur m →
          Eval.round (body star) result (next star) m = next star v m') →
        R.Rel m ((Eval.round (body recur) result (next recur)).after m) := by
      intro v m' hm' hround
      have hafter : (Eval.round (body recur) result (next recur)).after m =
          (next recur v).after m' := by
        simp only [after, hround recur rfl]
      rw [hafter]
      exact R.trans hm' ((hnext v).covers m' fun e₁ m₁ h =>
        hasked e₁ m₁ (h.round_next hbody.relays hround))
    cases hr : body recur m with
    | ok v m' =>
      rw [after_of_ok hr] at hfirst
      refine hrest v m' hfirst fun star heq => ?_
      simp only [Eval.round, heq, hr]
    | error stop m' =>
      rw [after_of_error hr] at hfirst
      cases stop with
      | nxt =>
        refine hrest result m' hfirst fun star heq => ?_
        simp only [Eval.round, heq, hr]
      | brk | quit | error | unfinished =>
        unfold after Eval.round
        simp only [hr]
        exact hfirst

/-- **What neither prints nor calls leaves printing to others.** Calls are left aside, since the
bodies of functions run elsewhere. -/
theorem of_built {u : Means} {x : Recur → Eval α} (hbuilt : Built u x) (hprints : ¬ u.prints)
    (hcalls : ¬ u.calls) :
    Script R recur x := by
  induction hbuilt with
  | pure a => exact silent (.pure a)
  | @stop _ stop => exact silent (.throw stop)
  | ask => exact ask _
  | bind _ _ ihy ihf => exact ihy.bind ihf
  | get_bind _ ih => exact get_bind ih
  | declaring _ name _ ih => exact declaring name ih
  | round _ result _ ih => exact (ask _).round result ih
  | rebind e name v => exact silent (.rebind e name v)
  | declareLoopVar _ e name => exact silent (.declareLoopVar e name)
  | evalFunction e params body => exact silent (.evalFunction e params body)
  | evalList items => exact silent (.evalList items)
  | evalRead => exact silent .evalRead
  | printValue h => exact absurd h hprints
  | store h => exact absurd h hprints
  | apply h => exact absurd h hcalls

/-- **Only three constructs print**, calls aside. -/
theorem node (lim : Limits) {e : Expr} (hcall : e.isCall = false) (houtput : e.isOutput = false) :
    Script R recur (node lim · e) :=
  of_built (.node lim e) (ne_true_of_eq_false houtput) (ne_true_of_eq_false hcall)

end Eval.Script

/-! ### Constructs that print -/

namespace Machine

/-- A line is written on the console and noted. -/
def printed (m : Machine) (console : Console) (text : List Char) : Machine :=
  { m with console }.note (.printed text)

end Machine

/-- How an action ends that started on `m`: it has failed, or it has printed its value as the last
thing it did. Up to there the account is kept. -/
inductive Eval.EndsPrinting (R : Passage) (m : Machine) :
    EStateM.Result Stop Machine Value → Prop where
  | failed {stop : Stop} {m' : Machine} (h : R.Rel m m') : EndsPrinting R m (.error stop m')
  | printed {v : Value} {m₁ : Machine} {c : Console} (h : R.Rel m m₁) :
      EndsPrinting R m (.ok v (m₁.printed c (m₁.heap.text v)))

theorem Eval.EndsPrinting.trans {R : Passage} {m m' : Machine}
    {r : EStateM.Result Stop Machine Value}
    (hm : R.Rel m m') (h : EndsPrinting R m' r) : EndsPrinting R m r := by
  cases h with
  | failed h => exact .failed (R.trans hm h)
  | printed h => exact .printed (R.trans hm h)

/-- The action prints its value as the last thing it does, unless it fails. Up to there it keeps any
account that is kept by the evaluations that it asks for. -/
def Eval.Prints (R : Passage) (recur : Recur) (x : Recur → Eval Value) : Prop :=
  ∀ m, (∀ e₁ m₁, Consults x recur m e₁ m₁ → R.Rel m₁ ((recur e₁).after m₁)) →
    EndsPrinting R m (x recur m)

namespace Eval.Prints

variable {α : Type} {R : Passage} {recur : Recur}

theorem failWith (e : Expr) (error : SemanticError) : Prints R recur fun _ => failWith e error :=
  fun m _ => .failed (R.refl m)

theorem endsPrinting_printValue (v : Value) (m : Machine) :
    EndsPrinting R m ((do printValue v; return v : Eval Value) m) := by
  cases hprint : Console.printLine (String.ofList (m.heap.text v)) m.console with
  | ok u c =>
    rw [bind_of_ok (printValue_of_ok hprint)]
    exact .printed (R.refl m)
  | error fault c =>
    rw [bind_of_error (printValue_of_error hprint)]
    exact .failed (R.silent (.of_eq rfl))

/-- What is done before is left to a script. -/
theorem bind {y : Recur → Eval α} {f : Recur → α → Eval Value} (hy : Script R recur y)
    (hf : ∀ a, Prints R recur (f · a)) : Prints R recur fun recur => y recur >>= f recur := by
  intro m hasked
  have hfirst := hy.covers m fun e₁ m₁ h => hasked e₁ m₁ (h.bind_left f)
  show EndsPrinting R m ((y recur >>= f recur) m)
  cases hr : y recur m with
  | error stop m' =>
    rw [after_of_error hr] at hfirst
    rw [bind_of_error hr]
    exact .failed hfirst
  | ok a m' =>
    rw [after_of_ok hr] at hfirst
    rw [bind_of_ok hr]
    exact .trans hfirst (hf a m' fun e₁ m₁ h => hasked e₁ m₁ (h.bind_right hy.relays hr))

theorem get_bind {f : Recur → Machine → Eval Value} (hf : ∀ m, Prints R recur (f · m)) :
    Prints R recur fun recur => get >>= f recur :=
  fun m hasked => hf m m hasked

theorem declaring (name : String) {action : Recur → Eval Value} (h : Prints R recur action) :
    Prints R recur fun recur => declaring name (action recur) := by
  intro m hasked
  show EndsPrinting R m (Eval.declaring name (action recur) m)
  cases hnew : m.scopes.find? name with
  | some old =>
    rw [Eval.declaring_of_find? hnew]
    exact h m fun e₁ m₁ hconsults => hasked e₁ m₁ (hconsults.declaring_of_find? hnew)
  | none =>
    have hends := EndsPrinting.trans (R.silent (Silent.declare m (.placeholder name)))
      (h (m.declare (.placeholder name)) fun e₁ m₁ hconsults =>
        hasked e₁ m₁ (hconsults.declaring hnew))
    simp only [Eval.declaring, hnew]
    generalize action recur (m.declare (.placeholder name)) = r at hends
    cases hends with
    | printed h => exact .printed h
    | @failed stop m' h =>
      cases stop with
      | brk | nxt => exact .failed (R.trans h (R.silent (.of_eq rfl)))
      | quit | error | unfinished => exact .failed h

theorem store (e : Expr) (id : ListId) (index v : Value) :
    Prints R recur fun _ => store e id index v := by
  intro m _
  show EndsPrinting R m (Eval.store e id index v m)
  cases hset : index.toInt?.bind (m.heap.setItem? id · v) with
  | none =>
    obtain ⟨kind, heq⟩ := store_of_none e hset
    rw [heq]
    exact .failed (R.refl m)
  | some heap =>
    obtain ⟨k, hk, hset⟩ := Option.bind_eq_some_iff.mp hset
    rw [store_of_some e hk hset]
    exact .trans (R.silent (.cons rfl rfl)) (endsPrinting_printValue (.list id) _)

theorem evalPrint (e operand : Expr) : Prints R recur (evalPrint · e operand) := by
  refine bind (.ask operand) fun v => ?_
  cases v with
  | function | null => exact failWith e _
  | _ => exact fun m _ => endsPrinting_printValue _ m

theorem evalAssignAt (e : Expr) (name : String) (index value : Expr) :
    Prints R recur (evalAssignAt · e name index value) := by
  refine declaring name (bind (.ask index) fun i => bind (.ask value) fun v => get_bind fun m => ?_)
  split
  · exact failWith e _
  · exact store e _ i _
  · exact failWith e _

end Eval.Prints

/-- The operation is carried out: its evaluation has a value. With it comes the value that is
printed, and the machine on which the evaluation has ended. -/
inductive Moment.Outputs (lim : Limits) : Moment → Value → Machine → Prop where
  | print {room : Nat} {aside : List Scope} {span : Span} {operand : Expr}
      {m m' : Machine} {v : Value}
      (h : within lim (room + 1) (.print span operand) m = .ok v m') :
      Outputs lim ⟨room + 1, aside, .print span operand, m⟩ v m'
  | cat {room : Nat} {aside : List Scope} {span : Span} {operand : Expr}
      {m m₁ m' : Machine} {v w : Value}
      (hoperand : within lim room operand (m.begin (.cat span operand)) = .ok v m₁)
      (h : within lim (room + 1) (.cat span operand) m = .ok w m') :
      Outputs lim ⟨room + 1, aside, .cat span operand, m⟩ v m'
  | assignAt {room : Nat} {aside : List Scope} {span : Span} {name : String} {index value : Expr}
      {m m' : Machine} {v : Value}
      (h : within lim (room + 1) (.assignAt span name index value) m = .ok v m') :
      Outputs lim ⟨room + 1, aside, .assignAt span name index value, m⟩ v m'

end ScopeScript
