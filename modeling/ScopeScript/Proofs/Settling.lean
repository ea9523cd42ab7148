import ScopeScript.Proofs.Abandoned
import ScopeScript.Proofs.Courses

/-!
# Values that are still to come

An assignment and a loop over a list declare a name before they have a value for it. Meanwhile the
innermost scope has an entry without a value (`Machine.Awaits`), which hides the name further out.
An action settles a name if, where evaluation goes on or is left for a loop, the name awaits no
value unless it did so before (`Eval.KeepsSettled`).

* `Eval.Settled`: the actions that evaluate nothing settle every name, but for the declaration of a
  loop variable.
* `Eval.Settling`: a construct settles a name if all evaluations do that come up in its course. An
  assignment binds or removes what it has declared. All other constructs leave declaring to these
  two (`Eval.Settling.of_built`).
* `Eval.Settling.evalFor`: a loop settles its variable too, since the first round binds it, unless
  the loop is left before, in the course of the evaluation of its list.
-/

namespace ScopeScript

open Eval

/-! ### Entries without a value -/

/-- The name is declared in the innermost scope, and its value is still to come. -/
def Machine.Awaits (m : Machine) (name : String) : Prop :=
  ∃ e, m.scopes.find? name = some e ∧ e.value = none

/-- The entry that is changed is the new one, and the others stay. -/
theorem ScopeStack.find?_of_change {s s' : ScopeStack} {e : Entry} (h : s.change e = .ok s') :
    s'.find? e.name = some e ∧ ∀ other, other ≠ e.name → s'.find? other = s.find? other := by
  unfold change at h
  cases hs : s.scopes with
  | nil =>
    simp only [hs] at h
    cases h
  | cons scope rest =>
    simp only [hs] at h
    cases hfind : scope.find? e.name with
    | none =>
      simp only [hfind] at h
      cases h
    | some old =>
      simp only [hfind] at h
      cases h
      constructor
      · simp only [find?, scope.find?_replace, hfind, Option.map_some, if_true]
      · intro other hne
        simp only [find?, hs, scope.find?_replace, if_neg hne, Option.map_id']

namespace Machine

variable {m m' : Machine} {name other : String}

theorem not_awaits_of_find? (h : m.scopes.find? name = none) : ¬ m.Awaits name := by
  rintro ⟨e, he, -⟩
  rw [h] at he
  cases he

theorem not_awaits_of_ownValue? {v : Value} (h : m.ownValue? name = some v) : ¬ m.Awaits name := by
  rintro ⟨e, he, hvalue⟩
  rw [ownValue?, he, Option.bind_some, hvalue] at h
  cases h

theorem awaits_congr (h : m'.scopes.find? name = m.scopes.find? name) : m'.Awaits name ↔
    m.Awaits name := by
  rw [Awaits, Awaits, h]

theorem awaits_of_scopes_eq (h : m'.scopes.scopes = m.scopes.scopes) : m'.Awaits name ↔
    m.Awaits name :=
  awaits_congr (by rw [ScopeStack.find?, ScopeStack.find?, h])

/-- Declaring a name does not matter for the others. -/
theorem find?_declare_of_ne (m : Machine) (e : Entry) (h : other ≠ e.name) :
    (m.declare e).scopes.find? other = m.scopes.find? other := by
  cases hfind : m.scopes.find? e.name with
  | some old => rw [m.declare_of_find? e hfind]
  | none =>
    rcases m.declare_cases e hfind with ⟨-, heq⟩ | ⟨s, outer, hs, -, heq⟩
    · rw [heq]
    · rw [heq, ScopeStack.find?, ScopeStack.find?, withScopes_scopes, hs]
      exact s.find?_insert_of_ne e h

end Machine

/-! ### Actions -/

/-- How an action has ended that began on `m`: where evaluation goes on or is left for a loop, no
value of the name is still to come, unless one was before. -/
def Eval.KeepsSettled {α : Type} (name : String) (m : Machine) :
    EStateM.Result Stop Machine α → Prop
  | .ok _ m' => m'.Awaits name → m.Awaits name
  | .error stop m' => stop.leavesLoop = true → m'.Awaits name → m.Awaits name

/-- The action settles the name wherever it begins. -/
def Eval.Settled {α : Type} (name : String) (x : Eval α) : Prop :=
  ∀ m, KeepsSettled name m (x m)

namespace Eval.Settled

variable {α β : Type} {name : String}

theorem pure (a : α) : Settled name (Pure.pure a : Eval α) := fun _ => id

theorem throw (stop : Stop) : Settled name (fun m => .error stop m : Eval α) := fun _ _ => id

theorem failWith (e : Expr) (error : SemanticError) :
    Settled name (failWith e error : Eval α) := .throw _

theorem note (ev : Event) : Settled name (note ev) := fun _ => id

theorem trans {m m' : Machine} {r : EStateM.Result Stop Machine α}
    (hm : m'.Awaits name → m.Awaits name)
    (hr : KeepsSettled name m' r) : KeepsSettled name m r := by
  cases r with
  | ok a m'' => exact fun h => hm (hr h)
  | error stop m'' => exact fun hstop h => hm (hr hstop h)

theorem bind_at {x : Eval α} {f : α → Eval β} {m : Machine} (hx : KeepsSettled name m (x m))
    (hf : ∀ a m', x m = .ok a m' → KeepsSettled name m' (f a m')) :
    KeepsSettled name m ((x >>= f) m) := by
  cases hr : x m with
  | ok a m' =>
    rw [hr] at hx
    rw [bind_of_ok hr]
    exact trans hx (hf a m' hr)
  | error stop m' =>
    rw [hr] at hx
    rw [bind_of_error hr]
    exact hx

theorem bind {x : Eval α} {f : α → Eval β} (hx : Settled name x) (hf : ∀ a, Settled name (f a)) :
    Settled name (x >>= f) :=
  fun m => bind_at (hx m) fun a m' _ => hf a m'

theorem get_bind {f : Machine → Eval α} (hf : ∀ m, Settled name (f m)) : Settled name (get >>= f) :=
  fun m => hf m m

theorem onConsole (action : Console.Action α) : Settled name (onConsole action) := by
  intro m
  unfold Eval.onConsole
  cases action m.console with
  | ok a c => exact id
  | error fault c => exact fun _ => id

theorem printValue (v : Value) : Settled name (printValue v) :=
  get_bind fun _ => (onConsole _).bind fun _ => .note _

theorem evalRead : Settled name evalRead :=
  (onConsole _).bind fun _ => (note _).bind fun _ => .pure _

theorem evalList (items : List Literal) : Settled name (evalList items) := fun _ => id

theorem evalFunction (e : Expr) (params : List String) (body : Expr) :
    Settled name (evalFunction e params body) := by
  intro m
  obtain ⟨events, -, ⟨-, heq⟩ | heq⟩ := evalFunction_cases e params body m
  · rw [heq]
    exact (Machine.awaits_of_scopes_eq rfl).mp
  · rw [heq]
    exact fun _ => (Machine.awaits_of_scopes_eq rfl).mp

theorem store (e : Expr) (id : ListId) (index v : Value) : Settled name (store e id index v) := by
  intro m
  cases hset : index.toInt?.bind (m.heap.setItem? id · v) with
  | none =>
    obtain ⟨kind, heq⟩ := store_of_none e hset
    rw [heq]
    exact failWith e _ m
  | some heap =>
    obtain ⟨k, hk, hset⟩ := Option.bind_eq_some_iff.mp hset
    rw [store_of_some e hk hset]
    have hprint :
        Settled name (do Eval.printValue (Value.list id); return Value.list id : Eval Value) :=
      (printValue (.list id)).bind fun _ => pure (Value.list id)
    have hsame : ({ m with heap }.note (.stored id k v)).Awaits name ↔ m.Awaits name :=
      Machine.awaits_of_scopes_eq rfl
    exact trans hsame.mp (hprint _)

/-- A value that is bound to a name is there, and nothing changes for the others. -/
theorem find?_of_rebind {e : Expr} {x : String} {v : Value} {m m' : Machine}
    (h : Eval.rebind e x v m = .ok () m') :
    m'.ownValue? x = some v ∧ ∀ other, other ≠ x →
    m'.scopes.find? other = m.scopes.find? other := by
  unfold Eval.rebind at h
  dsimp only at h
  split at h
  · cases h
  · split at h
    · rename_i stack hchange
      cases h
      obtain ⟨hself, hothers⟩ := ScopeStack.find?_of_change hchange
      exact ⟨by rw [Machine.ownValue?]; exact congrArg (·.bind (·.value)) hself, hothers⟩
    · cases h

theorem rebind (e : Expr) (x : String) (v : Value) : Settled name (rebind e x v) := by
  intro m
  cases hr : Eval.rebind e x v m with
  | error stop m' =>
    intro hstop
    rw [Stays.rebind e x v m stop m' hr] at hstop
    cases hstop
  | ok u m' =>
    obtain ⟨hvalue, hothers⟩ := find?_of_rebind hr
    by_cases hname : name = x
    · subst hname
      exact fun h => absurd h (Machine.not_awaits_of_ownValue? hvalue)
    · exact (Machine.awaits_congr (hothers name hname)).mp

theorem finishAssignment (e : Expr) (values : List Value) :
    Settled name (finishAssignment e values) := by
  unfold Eval.finishAssignment
  split
  · exact (rebind _ _ _).bind fun _ => .pure _
  · refine .get_bind fun m => ?_
    split
    · exact .failWith _ _
    · exact .store _ _ _ _
    · exact .failWith _ _
  · exact .pure _

end Eval.Settled

/-! ### Constructs -/

/-- The evaluation of an expression settles the name, and if its value is a list, the list has an
element. -/
structure Eval.Behaves (name : String) (recur : Recur) (e : Expr) (m : Machine) : Prop where
  settles : KeepsSettled name m (recur e m)
  items : ∀ id m', recur e m = .ok (.list id) m' → m'.heap.items id ≠ []

/-- The construct settles the name if every evaluation in its course behaves, and an interruption of
one of these interrupts it or makes no difference. -/
structure Eval.Settling (name : String) (recur : Recur) {α : Type} (x : Recur → Eval α) : Prop where
  relays : ∀ {star e₁ m₁}, Recur.Interrupts star recur e₁ m₁ →
  Relays .interrupt m₁ (x recur) (x star)
  settles : ∀ m, (∀ e₁ m₁, Consults x recur m e₁ m₁ → Behaves name recur e₁ m₁) →
  KeepsSettled name m (x recur m)

namespace Eval.Settling

variable {α β : Type} {name : String} {recur : Recur}

theorem of_settled {x : Eval α} (h : Settled name x) : Settling name recur fun _ => x where
  relays _ := .refl x
  settles m _ := h m

/-- A sub-expression is asked for. -/
theorem ask (e : Expr) : Settling name recur fun recur => recur e where
  relays hstar := hstar.relays e
  settles m hasked := (hasked e m (.first fun star => ⟨Pure.pure, by rw [bind_pure]⟩)).settles

theorem bind {y : Recur → Eval α} {f : Recur → α → Eval β} (hy : Settling name recur y)
    (hf : ∀ a, Settling name recur (f · a)) :
    Settling name recur fun recur => y recur >>= f recur where
  relays hstar := (hy.relays hstar).bind fun a => (hf a).relays hstar
  settles m hasked := by
    refine Settled.bind_at (hy.settles m fun e₁ m₁ h => hasked e₁ m₁ (h.bind_left f))
      fun a m' hr => ?_
    exact (hf a).settles m' fun e₁ m₁ h => hasked e₁ m₁ (h.bind_right hy.relays hr)

theorem get_bind {f : Recur → Machine → Eval α} (hf : ∀ m, Settling name recur (f · m)) :
    Settling name recur fun recur => get >>= f recur where
  relays hstar := .get_bind fun m => (hf m).relays hstar
  settles m hasked := (hf m).settles m hasked

/-- A name that is declared for an action is settled if the action binds it where it has a value. -/
theorem declaring {x : String} {action : Recur → Eval Value} (h : Settling name recur action)
    (hbinds : ∀ m v m', action recur m = .ok v m' → ¬ m'.Awaits x) :
    Settling name recur fun recur => declaring x (action recur) where
  relays hstar := .declaring rfl x (h.relays hstar)
  settles m hasked := by
    cases hnew : m.scopes.find? x with
    | some old =>
      show KeepsSettled name m (Eval.declaring x (action recur) m)
      rw [Eval.declaring_of_find? hnew]
      exact h.settles m fun e₁ m₁ hconsults => hasked e₁ m₁ (hconsults.declaring_of_find? hnew)
    | none =>
      have hinner := h.settles (m.declare (.placeholder x)) fun e₁ m₁ hconsults =>
        hasked e₁ m₁ (hconsults.declaring hnew)
      have hother : name ≠ x → (m.declare (.placeholder x)).Awaits name → m.Awaits name :=
        fun hne => (Machine.awaits_congr (m.find?_declare_of_ne (.placeholder x) hne)).mp
      show KeepsSettled name m (Eval.declaring x (action recur) m)
      simp only [Eval.declaring, hnew]
      cases hr : action recur (m.declare (.placeholder x)) with
      | ok v m' =>
        rw [hr] at hinner
        intro hawaits
        refine hother ?_ (hinner hawaits)
        rintro rfl
        exact hbinds _ v m' hr hawaits
      | error stop m' =>
        rw [hr] at hinner
        have hforget : (m'.forget x).Awaits name → name ≠ x ∧ m'.Awaits name := by
          intro hawaits
          have hne : name ≠ x := by
            rintro rfl
            exact Machine.not_awaits_of_find? (m'.scopes.find?_remove_self name) hawaits
          exact ⟨hne, (Machine.awaits_congr (m'.scopes.find?_remove_of_ne hne)).mp hawaits⟩
        cases stop with
        | brk | nxt =>
          intro _ hawaits
          obtain ⟨hne, hawaits'⟩ := hforget hawaits
          exact hother hne (hinner rfl hawaits')
        | quit | error | unfinished =>
          intro hleaves
          cases hleaves

theorem round {body : Recur → Eval Value} (hbody : Settling name recur body) (result : Value)
    {next : Recur → Value → Eval Value} (hnext : ∀ v, Settling name recur (next · v)) :
    Settling name recur fun recur => round (body recur) result (next recur) where
  relays hstar := .round rfl (hbody.relays hstar) result fun v => (hnext v).relays hstar
  settles m hasked := by
    have hfirst := hbody.settles m fun e₁ m₁ h => hasked e₁ m₁ (h.round_body result next)
    have hrest : ∀ v m', (∀ star : Recur, body star m = body recur m →
        Eval.round (body star) result (next star) m = next star v m') →
        KeepsSettled name m' (Eval.round (body recur) result (next recur) m) := by
      intro v m' hround
      rw [hround recur rfl]
      exact (hnext v).settles m' fun e₁ m₁ h => hasked e₁ m₁ (h.round_next hbody.relays hround)
    show KeepsSettled name m (Eval.round (body recur) result (next recur) m)
    cases hr : body recur m with
    | ok v m' =>
      rw [hr] at hfirst
      refine Settled.trans hfirst (hrest v m' fun star heq => ?_)
      simp only [Eval.round, heq, hr]
    | error stop m' =>
      rw [hr] at hfirst
      cases stop with
      | nxt =>
        refine Settled.trans (hfirst rfl) (hrest result m' fun star heq => ?_)
        simp only [Eval.round, heq, hr]
      | brk =>
        simp only [Eval.round, hr]
        exact hfirst rfl
      | quit | error | unfinished =>
        simp only [Eval.round, hr]
        intro hleaves
        cases hleaves

/-- **What neither declares a name nor calls settles every name**, if the evaluations in its course
do. Calls are left aside, since the bodies of functions run elsewhere. -/
theorem of_built {u : Means} {x : Recur → Eval α} (hbuilt : Built u x) (hdeclares : ¬ u.declares)
    (hcalls : ¬ u.calls) : Settling name recur x := by
  induction hbuilt with
  | pure a => exact of_settled (.pure a)
  | @stop _ stop => exact of_settled (.throw stop)
  | ask => exact ask _
  | bind _ _ ihy ihf => exact ihy.bind ihf
  | get_bind _ ih => exact get_bind ih
  | round _ result _ ih => exact (ask _).round result ih
  | rebind e x v => exact of_settled (.rebind e x v)
  | printValue _ v => exact of_settled (.printValue v)
  | store _ e id index v => exact of_settled (.store e id index v)
  | evalFunction e params body => exact of_settled (.evalFunction e params body)
  | evalList items => exact of_settled (.evalList items)
  | evalRead => exact of_settled .evalRead
  | declaring h => exact absurd h hdeclares
  | declareLoopVar h => exact absurd h hdeclares
  | apply h => exact absurd h hcalls

/-! ### Assignments -/

theorem mapM (es : List Expr) : Settling name recur fun recur => es.mapM recur := by
  induction es with
  | nil => exact of_settled (.pure [])
  | cons e es ih =>
    simp only [List.mapM_cons]
    exact (ask e).bind fun v => ih.bind fun vs => of_settled (.pure (v :: vs))

theorem scopes_of_printValue {v : Value} {u : Unit} {m m' : Machine}
    (h : printValue v m = .ok u m') :
    m'.scopes = m.scopes := by
  cases hprint : Console.printLine (String.ofList (m.heap.text v)) m.console with
  | ok u c =>
    rw [printValue_of_ok hprint] at h
    cases h
    rfl
  | error fault c =>
    rw [printValue_of_error hprint] at h
    cases h

/-- Storing a value leaves the scopes alone. -/
theorem scopes_of_store {e : Expr} {id : ListId} {index v w : Value} {m m' : Machine}
    (h : store e id index v m = .ok w m') : m'.scopes = m.scopes := by
  cases hset : index.toInt?.bind (m.heap.setItem? id · v) with
  | none =>
    obtain ⟨kind, heq⟩ := store_of_none e hset
    rw [heq] at h
    cases h
  | some heap =>
    obtain ⟨k, hk, hset⟩ := Option.bind_eq_some_iff.mp hset
    rw [store_of_some e hk hset] at h
    cases hprint : printValue (.list id) ({ m with heap }.note (.stored id k v)) with
    | ok u m₁ =>
      have hsame := scopes_of_printValue hprint
      rw [bind_of_ok hprint] at h
      cases h
      exact hsame
    | error stop m₁ =>
      rw [bind_of_error hprint] at h
      cases h

/-- An assignment has a value only if its target has one. -/
theorem ownValue?_of_finishAssignment {e : Expr} {x : String} {operands : List Expr}
    {values : List Value} {m m' : Machine} {v : Value} (he : e.assignment? = some (x, operands))
    (hlength : values.length = operands.length) (h : Eval.finishAssignment e values m = .ok v m') :
    ∃ w, m'.ownValue? x = some w := by
  cases e with
  | assign span _ operand =>
    cases he
    obtain ⟨w, rfl⟩ := List.length_eq_one_iff.mp hlength
    cases hr : rebind (.assign span x operand) x w m with
    | ok u m₁ =>
      rw [Eval.finishAssignment, bind_of_ok hr] at h
      cases h
      exact ⟨_, (Settled.find?_of_rebind hr).1⟩
    | error stop m₁ =>
      rw [Eval.finishAssignment, bind_of_error hr] at h
      cases h
  | assignAt span _ index operand =>
    cases he
    match values, hlength with
    | [i, w], _ =>
      have hown : (m.scopes.find? x).bind (·.value) = m.ownValue? x := rfl
      rw [Eval.finishAssignment, Eval.get_bind, hown] at h
      cases hlist : m.ownValue? x with
      | none =>
        rw [hlist] at h
        cases h
      | some target =>
        rw [hlist] at h
        cases target with
        | list id =>
          cases w with
          | list => cases h
          | _ => exact ⟨.list id, by rw [Machine.ownValue?, scopes_of_store h]; exact hlist⟩
        | _ => cases h
  | _ => cases he

theorem length_of_mapM {es : List Expr} {vs : List Value} {m m' : Machine}
    (h : es.mapM recur m = .ok vs m') :
    vs.length = es.length := by
  induction es generalizing vs m with
  | nil =>
    cases h
    rfl
  | cons e es ih =>
    rw [List.mapM_cons] at h
    cases hr : recur e m with
    | error stop m₁ =>
      rw [bind_of_error hr] at h
      cases h
    | ok v m₁ =>
      rw [bind_of_ok hr] at h
      cases hrest : es.mapM recur m₁ with
      | error stop m₂ =>
        rw [bind_of_error hrest] at h
        cases h
      | ok ws m₂ =>
        rw [bind_of_ok hrest] at h
        cases h
        rw [List.length_cons, List.length_cons, ih hrest]

/-- **An assignment** binds its target, or removes it if it has declared it. -/
theorem assignment {e : Expr} {x : String} {operands : List Expr}
    (he : e.assignment? = some (x, operands))
    (lim : Limits) : Settling name recur (node lim · e) := by
  simp only [node_assignment he]
  refine declaring ((mapM operands).bind fun vs => of_settled (.finishAssignment e vs))
    fun m v m' h => ?_
  cases hr : operands.mapM recur m with
  | error stop m₁ =>
    rw [bind_of_error hr] at h
    cases h
  | ok vs m₁ =>
    rw [bind_of_ok hr] at h
    obtain ⟨w, hw⟩ := ownValue?_of_finishAssignment he (length_of_mapM hr) h
    exact Machine.not_awaits_of_ownValue? hw

end Eval.Settling

/-! ### Loops over lists -/

/-- The rounds of a loop over the elements of a value, which has to be a list. -/
def Eval.forElements (lim : Limits) (recur : Recur) (e : Expr) (x : String) (body : Expr)
    (v : Value) : Eval Value :=
  match v with
  | .list id => do
    let values := (← get).heap.items id
    forRounds lim recur e x body values lim.maxIterations .null
  | _ => failAt e 2 .mustBeList

theorem Eval.evalFor_eq (lim : Limits) (recur : Recur) (e : Expr) (x : String) (items body : Expr) :
    evalFor lim recur e x items body = (do
      declareLoopVar e x
      let v ← recur items
      forElements lim recur e x body v) := rfl

namespace Eval.Settling

variable {name : String} {recur : Recur} {lim : Limits} {e body : Expr} {x : String} {m : Machine}

theorem built_forElements (lim : Limits) (e : Expr) (x : String) (body : Expr) (v : Value) :
    Built .plain (forElements lim · e x body v) := by
  cases v with
  | list id => exact .get_bind fun m => .forRounds lim e x trivial _ _ _
  | _ => exact .failWith e _

/-- The first round binds the loop variable. -/
theorem forElements_binds {id : ListId} (hitems : m.heap.items id ≠ [])
    (hasked : ∀ e₁ m₁, Consults (Eval.forElements lim · e x body (.list id)) recur m e₁ m₁ →
      Behaves x recur e₁ m₁)
    (m₀ : Machine) : KeepsSettled x m₀ (Eval.forElements lim recur e x body (.list id) m) := by
  obtain ⟨v, vs, hvs⟩ := List.exists_cons_of_ne_nil hitems
  have hrounds : ∀ recur, Eval.forElements lim recur e x body (.list id) m =
      Eval.forRounds lim recur e x body (v :: vs) lim.maxIterations .null m := by
    intro recur
    rw [← hvs]
    rfl
  rw [hrounds]
  by_cases hlast : lim.maxIterations = some 0
  · rw [hlast]
    intro hstop
    rw [Limits.exhausted, hlast] at hstop
    cases hstop
  rw [forRounds_cons hlast]
  cases hr : rebind e x v m with
  | error stop m₁ =>
    rw [bind_of_error hr]
    intro hstop
    rw [Stays.rebind e x v m stop m₁ hr] at hstop
    cases hstop
  | ok u m₁ =>
    rw [bind_of_ok hr]
    have hbound : ¬ m₁.Awaits x := Machine.not_awaits_of_ownValue? (Settled.find?_of_rebind hr).1
    have hbuilt : Built .plain fun recur =>
        Eval.round (recur body)
          .null (Eval.forRounds lim recur e x body vs (lim.maxIterations.map (· - 1))) :=
      .round trivial .null (.forRounds lim e x trivial vs _)
    refine Settled.trans (fun h => absurd h hbound)
      ((of_built hbuilt not_false not_false).settles m₁ fun e₁ m₂ h => hasked e₁ m₂ ?_)
    obtain ⟨star, hstar, m₃, hinterrupt⟩ := h
    have hsame : Eval.forElements lim star e x body (.list id) m = .error .interrupt m₃ := by
      rw [hrounds, forRounds_cons hlast, bind_of_ok hr]
      exact hinterrupt
    exact ⟨star, hstar, m₃, hsame⟩

/-- **A loop over a list** settles a name, unless the loop is left by the evaluation of the list
when the name has been declared as its variable, and still awaits a value. -/
theorem evalFor {items : Expr}
    (hasked : ∀ e₁ m₁, Consults (Eval.evalFor lim · e x items body) recur m e₁ m₁ →
      Behaves name recur e₁ m₁)
    (hleft : x = name → m.scopes.find? name = none → ∀ stop m', stop.leavesLoop = true →
      recur items (m.declare ⟨x, .plain .ofScalar, none⟩) = .error stop m' → ¬ m'.Awaits name) :
    KeepsSettled name m (Eval.evalFor lim recur e x items body m) := by
  rw [evalFor_eq]
  -- what is evaluated once the variable is declared
  have hrest : Settling name recur fun recur =>
      recur items >>= Eval.forElements lim recur e x body :=
    (ask items).bind fun v => of_built (built_forElements lim e x body v) not_false not_false
  have hasked' : ∀ {m'}, Eval.declareLoopVar e x m = .ok () m' → ∀ e₁ m₁,
      Consults (fun recur => recur items >>= Eval.forElements lim recur e x body) recur m' e₁ m₁ →
        Behaves name recur e₁ m₁ := by
    intro m' hdeclare e₁ m₁ h
    exact hasked e₁ m₁ (h.bind_right (y := fun _ => Eval.declareLoopVar e x)
      (fun _ => .refl _) hdeclare)
  cases hnew : m.scopes.find? x with
  | some old =>
    by_cases hkind : old.info.kind = .ofFunction ∨ old.info.kind = .nothing ∨
      old.info.kind = .ofList
    · have hdeclare : Eval.declareLoopVar e x m = failAt e 1 .cannotBeFunctOrNullOrList m := by
        simp only [Eval.declareLoopVar, hnew, if_pos hkind]
      rw [bind_of_error hdeclare]
      exact nofun
    · have hdeclare : Eval.declareLoopVar e x m = .ok () m := by
        simp only [Eval.declareLoopVar, hnew, if_neg hkind]
      rw [bind_of_ok hdeclare]
      exact hrest.settles m (hasked' hdeclare)
  | none =>
    have hdeclare : Eval.declareLoopVar e x m = .ok () (m.declare ⟨x, .plain .ofScalar, none⟩) := by
      simp only [Eval.declareLoopVar, hnew]
    rw [bind_of_ok hdeclare]
    by_cases hname : x = name
    · subst hname
      cases hr : recur items (m.declare ⟨x, .plain .ofScalar, none⟩) with
      | error stop m' =>
        rw [bind_of_error hr]
        exact fun hstop h => absurd h (hleft rfl hnew stop m' hstop hr)
      | ok v m' =>
        rw [bind_of_ok hr]
        cases v with
        | list id =>
          have hfirst :
              Consults (fun recur => recur items >>= Eval.forElements lim recur e x body) recur
              (m.declare ⟨x, .plain .ofScalar, none⟩)
                items (m.declare ⟨x, .plain .ofScalar, none⟩) :=
            .first fun star => ⟨_, rfl⟩
          refine forElements_binds ((hasked' hdeclare _ _ hfirst).items id m' hr)
            (fun e₁ m₁ h => ?_) m
          exact hasked' hdeclare e₁ m₁
            (h.bind_right (y := fun recur => recur items) (fun hstar => hstar.relays items) hr)
        | _ => exact nofun
    · have hother := m.find?_declare_of_ne ⟨x, .plain .ofScalar, none⟩ (Ne.symm hname)
      exact Settled.trans (Machine.awaits_congr hother).mp (hrest.settles _ (hasked' hdeclare))

/-- **The other constructs** leave declaring to these two; calls are left aside, since their bodies
run elsewhere. -/
theorem node (lim : Limits) {e : Expr} (hcall : e.isCall = false)
    (hfor : ∀ span x items body, e ≠ .forIn span x items body) :
    Settling name recur (node lim · e) := by
  cases hdeclares : e.declares with
  | false =>
    exact of_built (.node lim e) (ne_true_of_eq_false hdeclares) (ne_true_of_eq_false hcall)
  | true =>
    cases e with
    | assign | assignAt => exact assignment rfl lim
    | forIn span x items body => exact absurd rfl (hfor span x items body)
    | _ => cases hdeclares

end Eval.Settling

end ScopeScript
