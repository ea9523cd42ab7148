import ScopeScript.Eval.Run
import ScopeScript.Proofs.Move
import ScopeScript.Proofs.Operators
import ScopeScript.Proofs.Parts

/-!
# Laws of evaluation

A `Law` is a statement about every evaluation of every expression that it admits: an invariant of
machines, a relation between the machines before and after, and a condition on the values at hand.
What has to be proved of it concerns single moves, the begin and end of an expression, the removal
of a declared name, and entering and leaving a call; nothing in it mentions how expressions are put
together. That evaluation obeys the law follows once and for all:

* `Law.expr`: evaluation of an expression, however it ends;
* `Law.run`: the run of a program, up to the flush at its end.

Both say in addition that the machine is kept (`Machine.Kept`), which is where scope discipline
comes from, and that evaluation stops early only for a reason that `Arises` on some machine of the
invariant.

The proof follows the constructs of the language. `Law.Ended` is what a law says of the way in which
an action ended, and `Law.Recurs` assumes it of the sub-expressions of a construct. The induction is
on the room for nested expressions; a loop is an induction on the rounds that are left.
-/

namespace ScopeScript

/-- A call on the machine of its caller: the name is bound to the function, and the number of
arguments is right. -/
structure Calls (m : Machine) (name : String) (id : FunctionId) (f : Function) (args : List Int64) :
    Prop where
  lookup : m.scopes.lookup? name = some (.function id)
  function : m.heap.function? id = some f
  arity : args.length = f.numParams

/-- A statement about every evaluation under the given limits. -/
structure Law (lim : Limits) where
  /-- The expressions that the law is about. -/
  Admits : Expr → Prop
  /-- What holds of every machine on which an expression begins or has ended. -/
  Inv : Machine → Prop
  /-- What holds between the machines before and after. -/
  Step : Machine → Machine → Prop
  /-- What holds of every value at hand. -/
  Fits : Machine → Value → Prop
  admits_part : ∀ {e part}, Admits e → part ∈ e.parts → Admits part
  step_refl : ∀ m, Step m m
  step_trans : ∀ {a b c}, Step a b → Step b c → Step a c
  -- values
  fits_step : ∀ {m m' v}, m.Kept m' → Step m m' → Fits m v → Fits m' v
  fits_atom : ∀ {m v}, v.isAtom → Fits m v
  fits_literal : ∀ {m span l}, Admits (.literal span l) → Fits m (.ofLiteral l)
  fits_input : ∀ {m c c' line}, Console.readLine c = .ok line c' → Fits m (.ofInput (line.getD ""))
  fits_lookup : ∀ {m name v}, Inv m → m.scopes.lookup? name = some v → Fits m v
  fits_item : ∀ {m id v}, Inv m → Fits m (.list id) → v ∈ m.heap.items id → Fits m v
  -- single steps
  move : ∀ {m m'}, Inv m → Move Fits m m' → Inv m' ∧ Step m m'
  newList : ∀ {m span items}, Admits (.list span items) → Inv m →
    Inv (m.allocList (items.map .ofLiteral)) ∧ Step m (m.allocList (items.map .ofLiteral)) ∧
      Fits (m.allocList (items.map .ofLiteral)) (.list m.heap.lists.size)
  newFunction : ∀ {m span ps body}, Admits (.function span ps body) → ps.Nodup → Inv m →
    Inv (m.allocFunction (m.closure ps body)) ∧ Step m (m.allocFunction (m.closure ps body)) ∧
      Fits (m.allocFunction (m.closure ps body)) (.function m.heap.functions.size)
  -- expressions
  begin : ∀ {m e}, Inv m → m.depth < lim.maxDepth → Inv (m.begin e)
  finish : ∀ {m m' e stop}, Inv m → (m.begin e).Kept m' → Inv m' → Step (m.begin e) m' →
    (∀ s, stop = some s → ∃ at', Inv at' ∧ Arises lim Admits at' s) →
    Inv (m'.finish e stop) ∧ Step m (m'.finish e stop)
  fits_finish : ∀ {m e v}, Fits m v → Fits (m.finish e none) v
  -- an assignment that is left for a loop
  forget : ∀ {m m' name}, Inv m → m.scopes.find? name = none →
    (m.declare (.placeholder name)).Kept m' → Inv m' → Step (m.declare (.placeholder name)) m' →
    Inv (m'.forget name) ∧ Step m (m'.forget name)
  -- calls
  enter : ∀ {m name id f args}, Inv m → Calls m name id f args →
    Inv (Eval.enter m id f args).2 ∧ Admits f.body
  leave : ∀ {m m' name id f args}, Inv m → Calls m name id f args →
    (Eval.enter m id f args).2.Kept m' → Inv m' → Step (Eval.enter m id f args).2 m' →
    Inv (m.resume m') ∧ Step m (m.resume m')
  fits_leave : ∀ {m m' name id f args v}, Inv m → Calls m name id f args →
    (Eval.enter m id f args).2.Kept m' → Inv m' → Step (Eval.enter m id f args).2 m' →
    (∀ g, v ≠ .function g) → Fits m' v → Fits (m.resume m') v

namespace Law

variable {lim : Limits} (L : Law lim) {α β : Type} {m m' m'' : Machine}

/-! ### How an action ends under a law -/

/-- Evaluation may lead from one machine to the other. -/
structure Leads (m m' : Machine) : Prop where
  kept : m.Kept m'
  inv : L.Inv m'
  step : L.Step m m'

/-- Evaluation may stop early for this reason. -/
def Raises (stop : Stop) : Prop :=
  ∃ m, L.Inv m ∧ Arises lim L.Admits m stop

/-- What the law says of an action that started on a machine; `post` is the condition on its
result. -/
def Ended (m : Machine) (post : Machine → α → Prop) : EStateM.Result Stop Machine α → Prop
  | .ok a m' => L.Leads m m' ∧ post m' a
  | .error stop m' => L.Leads m m' ∧ L.Raises stop

variable {L}

namespace Leads

theorem refl (h : L.Inv m) : L.Leads m m := ⟨.refl m, h, L.step_refl m⟩

theorem trans (h : L.Leads m m') (h' : L.Leads m' m'') : L.Leads m m'' :=
  ⟨h.kept.trans h'.kept, h'.inv, L.step_trans h.step h'.step⟩

theorem move (h : L.Inv m) (hmove : Move L.Fits m m') : L.Leads m m' :=
  ⟨hmove.kept, (L.move h hmove).1, (L.move h hmove).2⟩

theorem fits (h : L.Leads m m') {v : Value} (hv : L.Fits m v) : L.Fits m' v :=
  L.fits_step h.kept h.step hv

end Leads

namespace Ended

variable {post : Machine → α → Prop} {post' : Machine → β → Prop}

theorem ok (h : L.Inv m) {a : α} (hpost : post m a) : L.Ended m post (.ok a m) :=
  ⟨.refl h, hpost⟩

theorem error (h : L.Inv m) {stop : Stop} (hstop : Arises lim L.Admits m stop) :
    L.Ended m post (.error stop m) :=
  ⟨.refl h, m, h, hstop⟩

theorem trans (h : L.Leads m m') {r : EStateM.Result Stop Machine α} (hr : L.Ended m' post r) :
    L.Ended m post r := by
  cases r with
  | ok a m'' => exact ⟨h.trans hr.1, hr.2⟩
  | error stop m'' => exact ⟨h.trans hr.1, hr.2⟩

theorem imp {r : EStateM.Result Stop Machine α} {post₂ : Machine → α → Prop}
    (hr : L.Ended m post r) (himp : ∀ m' a, post m' a → post₂ m' a) : L.Ended m post₂ r := by
  cases r with
  | ok a m' => exact ⟨hr.1, himp m' a hr.2⟩
  | error stop m' => exact hr

theorem bind {x : Eval α} {f : α → Eval β} (hx : L.Ended m post (x m))
    (hf : ∀ a m', L.Leads m m' → post m' a → L.Ended m' post' (f a m')) :
    L.Ended m post' ((x >>= f) m) := by
  cases hxm : x m with
  | ok a m' =>
    rw [hxm] at hx
    rw [Eval.bind_of_ok hxm]
    exact trans hx.1 (hf a m' hx.1 hx.2)
  | error stop m' =>
    rw [hxm] at hx
    rw [Eval.bind_of_error hxm]
    exact hx

theorem failWith (h : L.Inv m) (e : Expr) {error : SemanticError}
    (herror : error.kind ≠ .internal) :
    L.Ended m post (Eval.failWith e error m) :=
  Ended.error h (.violation error.kind error.arg e.span herror)

theorem fail (h : L.Inv m) (e : Expr) (kind : SemanticKind) (hkind : kind ≠ .internal) :
    L.Ended m post (Eval.fail e kind m) :=
  failWith h e hkind

theorem failAt (h : L.Inv m) (e : Expr) (arg : Nat) (kind : SemanticKind)
    (hkind : kind ≠ .internal) :
    L.Ended m post (Eval.failAt e arg kind m) :=
  failWith h e hkind

theorem check (h : L.Inv m) (e : Expr) {c : Checked Value} (hc : Checked.Yields (·.isAtom) c) :
    L.Ended m L.Fits (Eval.check e c m) := by
  cases c with
  | ok v => exact .ok h (L.fits_atom hc)
  | error error => exact failWith h e hc

theorem rejectFunction (h : L.Inv m) (e : Expr) {arg : Nat} {v : Value}
    (hv : (∀ f, v ≠ .function f) → L.Fits m v) :
    L.Ended m (fun m v => L.Fits m v ∧ ∀ f, v ≠ .function f) (Eval.rejectFunction e arg v m) := by
  unfold Eval.rejectFunction
  split
  · exact failAt h e arg .cannotBeFunct (by decide)
  · rename_i hne
    exact .ok h ⟨hv hne, hne⟩

theorem printValue (h : L.Inv m) {v : Value} (hv : L.Fits m v) :
    L.Ended m (fun _ _ => True) (Eval.printValue v m) := by
  cases hprint : Console.printLine (String.ofList (m.heap.text v)) m.console with
  | ok u c =>
    rw [Eval.printValue_of_ok hprint]
    exact ⟨.move h (.print v c hv hprint), trivial⟩
  | error fault c =>
    obtain rfl := Console.printLine_error hprint
    rw [Eval.printValue_of_error hprint]
    exact ⟨.move h (.refuse v _ c hv hprint), m, h, .refused⟩

end Ended

/-! ### Sub-expressions -/

variable (L)

/-- A machine at the given depth of which the invariant holds. -/
structure At (d : Nat) (m : Machine) : Prop where
  inv : L.Inv m
  depth : m.depth = d

/-- The law holds of the evaluation of sub-expressions at the given depth. -/
def Recurs (recur : Recur) (d : Nat) : Prop :=
  ∀ {e m}, L.Admits e → L.At d m → L.Ended m L.Fits (recur e m)

variable {L} {recur : Recur} {d : Nat} {e : Expr}

theorem At.leads (h : L.At d m) (hm : L.Leads m m') : L.At d m' :=
  ⟨hm.inv, hm.kept.depth.trans h.depth⟩

/-! ### Names, elements and conditionals -/

theorem evalVar (h : L.Inv m) (name : String) : L.Ended m L.Fits (Eval.evalVar e name m) := by
  rw [Eval.evalVar, Eval.get_bind]
  cases hv : m.scopes.lookup? name with
  | none => exact .fail h e .undefinedIdent (by decide)
  | some v => exact .ok h (L.fits_lookup h hv)

theorem evalElement (hrec : L.Recurs recur d) (h : L.At d m) (name : String) {index : Expr}
    (hindex : L.Admits index) : L.Ended m L.Fits (Eval.evalElement recur e name index m) := by
  refine (hrec hindex h).bind fun i m' hm _ => ?_
  rw [Eval.get_bind]
  cases hlist : m'.scopes.lookup? name with
  | none => exact .fail hm.inv e .undefinedIdent (by decide)
  | some target =>
    cases target with
    | list id =>
      cases hk : i.toInt? with
      | none => exact .fail hm.inv e .mustBeInteger (by decide)
      | some k =>
        cases hv : m'.heap.item? id k with
        | none =>
          simp only [hv]
          exact .fail hm.inv e .subOutOfBounds (by decide)
        | some v =>
          simp only [hv]
          have hself := L.fits_lookup hm.inv hlist
          exact .ok hm.inv (L.fits_item hm.inv hself (Heap.mem_items_of_item? hv))
    | _ => exact .failAt hm.inv e 1 .mustBeList (by decide)

theorem evalCondition (hrec : L.Recurs recur d) (h : L.At d m) {cond : Expr}
    (hcond : L.Admits cond) : L.Ended m (fun _ _ => True) (Eval.evalCondition recur e cond m) := by
  refine (hrec hcond h).bind fun v m' hm _ => ?_
  cases v.truth? with
  | none => exact .failAt hm.inv e 1 .cannotBeFunctNullListOrStr (by decide)
  | some b => exact .ok hm.inv trivial

theorem evalBranch (hrec : L.Recurs recur d) (h : L.At d m) {arg : Nat} {branch : Expr}
    (hbranch : L.Admits branch) : L.Ended m L.Fits (Eval.evalBranch recur e arg branch m) := by
  refine (hrec hbranch h).bind fun v m' hm hv => ?_
  exact (Ended.rejectFunction hm.inv e fun _ => hv).imp fun _ _ hw => hw.1

/-! ### Binding -/

theorem rebind (h : L.Inv m) {name : String} {v : Value} (hname : m.Declares name)
    (hv : L.Fits m v) : L.Ended m (fun _ _ => True) (Eval.rebind e name v m) := by
  unfold Eval.rebind
  rcases hname with hnil | ⟨old, hold⟩
  · have hfind : m.scopes.find? name = none := by simp only [ScopeStack.find?, hnil]
    simp only [hfind, ScopeStack.change, hnil]
    exact .error h (.internal e.span hnil)
  · simp only [hold, Option.any_some]
    split
    · exact .failAt h e 1 .mustBeInteger (by decide)
    · rename_i hparam
      obtain ⟨stack, hchange⟩ : ∃ stack, m.scopes.change
          ⟨name, { m.heap.typeInfo v with isParam := old.info.isParam }, some v⟩ = .ok stack :=
        ScopeStack.change_of_find? hold
      simp only [hchange]
      have hint : old.info.isParam → v.typeClass.acceptsInt := by
        intro hp
        simpa [hp] using hparam
      exact ⟨.move h (.bind name v old stack hold hint hv hchange), trivial⟩

/-- A declared name is there while its value is computed. If the computation is left for a loop, the
name is removed, and as far as the machine before is concerned nothing was taken away. -/
theorem declaring (h : L.At d m) {name : String} {action : Eval Value}
    (haction : ∀ {m}, L.At d m → m.Declares name → L.Ended m L.Fits (action m)) :
    L.Ended m L.Fits (Eval.declaring name action m) := by
  unfold Eval.declaring
  cases hfind : m.scopes.find? name with
  | some old => exact haction h (.inr ⟨old, hfind⟩)
  | none =>
    have hdeclare : L.Leads m (m.declare (.placeholder name)) :=
      .move h.inv (.declare name .placeholder (.inl rfl) hfind)
    have hended := haction (h.leads hdeclare) (m.declares_declare (.placeholder name) hfind)
    have hforget : ∀ {m'}, L.Leads (m.declare (.placeholder name)) m' →
        L.Leads m (m'.forget name) := by
      intro m' hm'
      have hlaw := L.forget h.inv hfind hm'.kept hm'.inv hm'.step
      exact ⟨.forget hfind hm'.kept, hlaw.1, hlaw.2⟩
    cases hr : action (m.declare (.placeholder name)) with
    | ok v m' =>
      rw [hr] at hended
      exact .trans hdeclare hended
    | error stop m' =>
      rw [hr] at hended
      cases stop with
      | brk => exact ⟨hforget hended.1, hended.2⟩
      | nxt => exact ⟨hforget hended.1, hended.2⟩
      | quit | error | unfinished => exact .trans hdeclare hended

theorem evalAssign (hrec : L.Recurs recur d) (h : L.At d m) (name : String) {value : Expr}
    (hvalue : L.Admits value) : L.Ended m L.Fits (Eval.evalAssign recur e name value m) := by
  refine declaring h fun h hname => ?_
  refine (hrec hvalue h).bind fun v m₁ h₁ hv => ?_
  refine (rebind h₁.inv (h₁.kept.declares hname) hv).bind fun _ m₂ h₂ _ => ?_
  exact .ok h₂.inv (h₂.fits hv)

theorem store (h : L.Inv m) {name : String} {id : ListId} {index v : Value}
    (htarget : (m.scopes.find? name).bind (·.value) = some (.list id)) (hv : L.Fits m v)
    (hlist : ∀ other, v ≠ .list other) : L.Ended m L.Fits (Eval.store e id index v m) := by
  unfold Eval.store
  cases index.toInt? with
  | none => exact .fail h e .mustBeInteger (by decide)
  | some k =>
    dsimp only
    rw [Eval.get_bind]
    cases hset : m.heap.setItem? id k v with
    | none => exact .fail h e .subOutOfBounds (by decide)
    | some heap =>
      have hlead : L.Leads m ({ m with heap }.note (.stored id k v)) :=
        .move h (.store name id k v heap htarget hv hlist hset)
      have hself : L.Fits m (.list id) := by
        obtain ⟨entry, hentry, hvalue⟩ := Option.bind_eq_some_iff.mp htarget
        exact L.fits_lookup h ((ScopeStack.lookup?_of_find? hentry).trans hvalue)
      refine .trans hlead ?_
      refine (Ended.printValue hlead.inv (hlead.fits hself)).bind fun _ m' hm' _ => ?_
      exact .ok hm'.inv (hm'.fits (hlead.fits hself))

theorem evalAssignAt (hrec : L.Recurs recur d) (h : L.At d m) (name : String) {index value : Expr}
    (hindex : L.Admits index) (hvalue : L.Admits value) :
    L.Ended m L.Fits (Eval.evalAssignAt recur e name index value m) := by
  refine declaring h fun h _ => ?_
  refine (hrec hindex h).bind fun i m₁ h₁ _ => ?_
  refine (hrec hvalue (h.leads h₁)).bind fun v m₂ h₂ hv => ?_
  rw [Eval.get_bind]
  cases htarget : (m₂.scopes.find? name).bind (·.value) with
  | none => exact .failAt h₂.inv e 1 .mustBeList (by decide)
  | some target =>
    cases target with
    | list id =>
      cases v with
      | list other => exact .failAt h₂.inv e 1 .cannotBeList (by decide)
      | _ => exact store h₂.inv htarget hv (by intro other hother; cases hother)
    | _ => exact .failAt h₂.inv e 1 .mustBeList (by decide)

/-! ### Sequences and loops -/

theorem evalSequence (hrec : L.Recurs recur d) {es : List Expr} (hes : ∀ e ∈ es, L.Admits e)
    {m : Machine} (h : L.At d m) {last : Value} (hlast : L.Fits m last) :
    L.Ended m L.Fits (Eval.evalSequence recur es last m) := by
  induction es generalizing m last with
  | nil => exact .ok h.inv hlast
  | cons e es ih =>
    obtain ⟨he, hes⟩ := List.forall_mem_cons.mp hes
    exact (hrec he h).bind fun v m' hm hv => ih hes (h.leads hm) hv

/-- A round keeps the law if what comes next does. -/
theorem round (hrec : L.Recurs recur d) (h : L.At d m) {body : Expr} (hbody : L.Admits body)
    {result : Value} (hresult : L.Fits m result) {next : Value → Eval Value}
    (hnext : ∀ {v m'}, L.Leads m m' → L.Fits m' v → L.Ended m' L.Fits (next v m')) :
    L.Ended m L.Fits (Eval.round (recur body) result next m) := by
  have hended := hrec hbody h
  unfold Eval.round
  cases hr : recur body m with
  | ok v m' =>
    rw [hr] at hended
    exact .trans hended.1 (hnext hended.1 hended.2)
  | error stop m' =>
    rw [hr] at hended
    cases stop with
    | brk => exact ⟨hended.1, hended.1.fits hresult⟩
    | nxt => exact .trans hended.1 (hnext hended.1 (hended.1.fits hresult))
    | quit | error | unfinished => exact hended

theorem whileRounds (hrec : L.Recurs recur d) (hloop : L.Admits e ∧ e.isWhile) {cond body : Expr}
    (hcond : L.Admits cond) (hbody : L.Admits body) (left : Nat) {m : Machine} (h : L.At d m)
    {result : Value} (hresult : L.Fits m result) :
    L.Ended m L.Fits (Eval.whileRounds lim recur e cond body left result m) := by
  induction left generalizing m result with
  | zero =>
    unfold Eval.whileRounds
    refine (evalCondition hrec h hcond).bind fun b m₁ h₁ _ => ?_
    cases b with
    | false => exact .ok h₁.inv (h₁.fits hresult)
    | true => exact .error h₁.inv (.exhausted e fun _ => hloop)
  | succ left ih =>
    unfold Eval.whileRounds
    refine (evalCondition hrec h hcond).bind fun b m₁ h₁ _ => ?_
    cases b with
    | false => exact .ok h₁.inv (h₁.fits hresult)
    | true =>
      exact round hrec (h.leads h₁) hbody (h₁.fits hresult) fun h₂ hv =>
        ih ((h.leads h₁).leads h₂) hv

/-- The loop variable is declared before each round: it was before the first one, and no round takes
it away. -/
theorem forRounds (hrec : L.Recurs recur d) {name : String} {body : Expr} (hbody : L.Admits body)
    {vs : List Value} {left : Option Nat} (hleft : lim.maxIterations = none → left = none)
    {m : Machine} (h : L.At d m) (hname : m.Declares name)
    (hvs : ∀ v ∈ vs, L.Fits m v) {result : Value} (hresult : L.Fits m result) :
    L.Ended m L.Fits (Eval.forRounds lim recur e name body vs left result m) := by
  induction vs generalizing left m result with
  | nil => exact .ok h.inv hresult
  | cons v vs ih =>
    obtain ⟨hv, hvs⟩ := List.forall_mem_cons.mp hvs
    have hnext : lim.maxIterations = none → left.map (· - 1) = none := by
      intro hnone
      rw [hleft hnone, Option.map_none]
    have hround : L.Ended m L.Fits ((do
        Eval.rebind e name v
        Eval.round (recur body) result
          (Eval.forRounds lim recur e name body vs (left.map (· - 1))) : Eval Value) m) := by
      refine (rebind h.inv hname hv).bind fun _ m₁ h₁ _ => ?_
      refine round hrec (h.leads h₁) hbody (h₁.fits hresult) fun h₂ hw => ?_
      have h₁₂ := h₁.trans h₂
      exact ih hnext (h.leads h₁₂) (h₁₂.kept.declares hname) (fun w hw => h₁₂.fits (hvs w hw)) hw
    cases left with
    | none => exact hround
    | some left =>
      cases left with
      | zero => exact .error h.inv (.exhausted e fun hnone => nomatch hleft hnone)
      | succ left => exact hround

theorem declareLoopVar (h : L.Inv m) (name : String) :
    L.Ended m (fun m' _ => m'.Declares name) (Eval.declareLoopVar e name m) := by
  unfold Eval.declareLoopVar
  cases hfind : m.scopes.find? name with
  | none =>
    exact ⟨.move h (.declare name (.plain .ofScalar) (.inr rfl) hfind),
      m.declares_declare ⟨name, .plain .ofScalar, none⟩ hfind⟩
  | some old =>
    dsimp only
    split
    · exact .failAt h e 1 .cannotBeFunctOrNullOrList (by decide)
    · exact .ok h (.inr ⟨old, hfind⟩)

theorem evalFor (hrec : L.Recurs recur d) (h : L.At d m) (name : String) {items body : Expr}
    (hitems : L.Admits items) (hbody : L.Admits body) :
    L.Ended m L.Fits (Eval.evalFor lim recur e name items body m) := by
  refine (declareLoopVar h.inv name).bind fun _ m₁ h₁ hname => ?_
  refine (hrec hitems (h.leads h₁)).bind fun v m₂ h₂ hself => ?_
  cases v with
  | list id =>
    exact forRounds hrec hbody (fun hnone => hnone) ((h.leads h₁).leads h₂) (h₂.kept.declares hname)
      (fun v hv => L.fits_item h₂.inv hself hv) (L.fits_atom rfl)
  | _ => exact .failAt h₂.inv e 2 .mustBeList (by decide)

/-! ### Functions -/

theorem evalFunction (h : L.Inv m) {span : Span} {ps : List String} {body : Expr}
    (hadmits : L.Admits (.function span ps body)) :
    L.Ended m L.Fits (Eval.evalFunction e ps body m) := by
  obtain ⟨events, hspoken, ⟨hnodup, heq⟩ | heq⟩ := Eval.evalFunction_cases e ps body m
  · have hprobe : L.Leads m (m.probed events) := .move h (.probe events hspoken)
    obtain ⟨hinv, hstep, hfits⟩ := L.newFunction hadmits hnodup hprobe.inv
    rw [heq]
    exact ⟨hprobe.trans ⟨.of_eq rfl rfl, hinv, hstep⟩, hfits⟩
  · rw [heq]
    exact ⟨.move h (.probe events hspoken), m, h, .violation _ _ _ (by decide)⟩

theorem evalArgs (hrec : L.Recurs recur d) {args : List Expr} (hargs : ∀ a ∈ args, L.Admits a)
    {m : Machine} (h : L.At d m) :
    L.Ended m (fun _ _ => True) (Eval.evalArgs recur e args m) := by
  induction args generalizing m with
  | nil => exact .ok h.inv trivial
  | cons a as ih =>
    obtain ⟨ha, has⟩ := List.forall_mem_cons.mp hargs
    refine (hrec ha h).bind fun v m₁ h₁ _ => ?_
    cases v.toInt? with
    | none => exact .fail h₁.inv e .nonIntFunctParam (by decide)
    | some n => exact (ih has (h.leads h₁)).bind fun ns m₂ h₂ _ => .ok h₂.inv trivial

/-- The body of a function runs on a machine of its own, and the caller goes on with its scopes as
they were. -/
theorem invoke (hrec : L.Recurs recur d) (h : L.At d m) {name : String} {id : FunctionId}
    {f : Function} {args : List Int64} (hcall : Calls m name id f args) :
    L.Ended m (fun m' v => (∀ g, v ≠ .function g) → L.Fits m' v)
      (Eval.invoke recur e id f args m) := by
  obtain ⟨hinner, hbody⟩ := L.enter h.inv hcall
  obtain ⟨s, events, -, -, -, henter⟩ := Eval.enter_eq m id f args
  have hdepth : (Eval.enter m id f args).2.depth = d := by
    rw [henter]
    exact h.depth
  have hended := hrec hbody ⟨hinner, hdepth⟩
  have hleads : ∀ {m'}, L.Leads (Eval.enter m id f args).2 m' → L.Leads m (m.resume m') := by
    intro m' hm'
    have hlaw := L.leave h.inv hcall hm'.kept hm'.inv hm'.step
    refine ⟨.of_eq rfl ?_, hlaw.1, hlaw.2⟩
    exact (hm'.kept.depth.trans hdepth).trans h.depth.symm
  unfold Eval.invoke
  dsimp only
  cases hr : recur f.body (Eval.enter m id f args).2 with
  | ok v m' =>
    rw [hr] at hended
    obtain ⟨hm', hv⟩ := hended
    dsimp only
    rw [Eval.leaveCall_eq e hm'.kept]
    exact ⟨hleads hm', fun hne => L.fits_leave h.inv hcall hm'.kept hm'.inv hm'.step hne hv⟩
  | error stop m' =>
    rw [hr] at hended
    obtain ⟨hm', hstop⟩ := hended
    dsimp only
    rw [Eval.leaveCall_eq e hm'.kept]
    cases stop with
    | brk | nxt => exact ⟨hleads hm', fun _ => L.fits_atom rfl⟩
    | quit | error | unfinished => exact ⟨hleads hm', hstop⟩

theorem apply (hrec : L.Recurs recur d) (h : L.At d m) {name : String} {id : FunctionId}
    {f : Function} {args : List Int64} (hlookup : m.scopes.lookup? name = some (.function id))
    (hfunction : m.heap.function? id = some f) :
    L.Ended m L.Fits (Eval.apply recur e name id f args m) := by
  unfold Eval.apply
  split
  · exact .fail h.inv e .tooManyParams (by decide)
  · split
    · exact .fail h.inv e .tooFewParams (by decide)
    · rename_i hmany hfew
      have hcall : Calls (m.note (.calling name args.length)) name id f args :=
        ⟨hlookup, hfunction, by omega⟩
      have h₀ : L.Leads m (m.note (.calling name args.length)) :=
        .move h.inv (.announce name args.length)
      refine .trans h₀ ?_
      refine (invoke hrec (h.leads h₀) hcall).bind fun v m₁ h₁ hv => ?_
      refine (Ended.rejectFunction h₁.inv e hv).bind fun w m₂ h₂ hw => ?_
      have h₃ : L.Leads m₂ ({ m₂ with heap := m₂.heap.noteResult id w.typeClass }.note
          (.returned id w.typeClass)) := .move h₂.inv (.credit id w hw.2)
      exact ⟨h₃, h₃.fits hw.1⟩

theorem evalCall (hrec : L.Recurs recur d) (h : L.At d m) (name : String) {args : List Expr}
    (hargs : ∀ a ∈ args, L.Admits a) :
    L.Ended m L.Fits (Eval.evalCall recur e name args m) := by
  refine (evalArgs hrec hargs h).bind fun ns m₁ h₁ _ => ?_
  rw [Eval.get_bind]
  cases hlookup : m₁.scopes.lookup? name with
  | none => exact .fail h₁.inv e .undefinedIdent (by decide)
  | some target =>
    cases target with
    | function id =>
      cases hfunction : m₁.heap.function? id with
      | none =>
        simp only [hfunction]
        exact .failAt h₁.inv e 1 .mustBeFunct (by decide)
      | some f =>
        simp only [hfunction]
        exact apply hrec (h.leads h₁) hlookup hfunction
    | _ => exact .failAt h₁.inv e 1 .mustBeFunct (by decide)

/-! ### Lists, input and output -/

theorem evalList (h : L.Inv m) {span : Span} {items : List Literal}
    (hadmits : L.Admits (.list span items)) : L.Ended m L.Fits (Eval.evalList items m) := by
  obtain ⟨hinv, hstep, hfits⟩ := L.newList hadmits h
  exact ⟨⟨.of_eq rfl rfl, hinv, hstep⟩, hfits⟩

theorem evalPrint (hrec : L.Recurs recur d) (h : L.At d m) {operand : Expr}
    (hoperand : L.Admits operand) : L.Ended m L.Fits (Eval.evalPrint recur e operand m) := by
  refine (hrec hoperand h).bind fun v m₁ h₁ hv => ?_
  cases v with
  | function f => exact .failAt h₁.inv e 1 .cannotBeFunctOrNull (by decide)
  | null => exact .failAt h₁.inv e 1 .cannotBeFunctOrNull (by decide)
  | _ => exact (Ended.printValue h₁.inv hv).bind fun _ m₂ h₂ _ => .ok h₂.inv (h₂.fits hv)

theorem evalRead (h : L.Inv m) : L.Ended m L.Fits (Eval.evalRead m) := by
  cases hread : Console.readLine m.console with
  | ok line c =>
    rw [Eval.evalRead, Eval.bind_of_ok (Eval.onConsole_of_ok hread)]
    exact ⟨.move h (.read line c hread), L.fits_input hread⟩
  | error fault c =>
    obtain rfl := Console.readLine_error hread
    rw [Eval.evalRead, Eval.bind_of_error (Eval.onConsole_of_error hread)]
    exact ⟨.move h (.skip _ c hread), m, h, .garbled⟩

/-! ### Expressions -/

/-- **One level of evaluation.** The law holds of an expression if it holds of its parts. -/
theorem node (hrec : L.Recurs recur d) (h : L.At d m) (hadmits : L.Admits e) :
    L.Ended m L.Fits (Eval.node lim recur e m) := by
  have hpart : ∀ {part}, part ∈ e.parts → L.Admits part := L.admits_part hadmits
  cases e with
  | literal => exact .ok h.inv (L.fits_literal hadmits)
  | var _ name => exact evalVar h.inv name
  | element _ name index => exact evalElement hrec h name (hpart (by simp [Expr.parts]))
  | arith _ op left right =>
    refine (hrec (hpart (by simp [Expr.parts])) h).bind fun a m₁ h₁ _ => ?_
    refine (hrec (hpart (by simp [Expr.parts])) (h.leads h₁)).bind fun b m₂ h₂ _ => ?_
    exact .check h₂.inv _ (op.apply_yields a b)
  | logical _ op left right =>
    refine (hrec (hpart (by simp [Expr.parts])) h).bind fun a m₁ h₁ _ => ?_
    refine (hrec (hpart (by simp [Expr.parts])) (h.leads h₁)).bind fun b m₂ h₂ _ => ?_
    exact .check h₂.inv _ (op.apply_yields a b)
  | compare _ op left right =>
    refine (hrec (hpart (by simp [Expr.parts])) h).bind fun a m₁ h₁ _ => ?_
    refine (hrec (hpart (by simp [Expr.parts])) (h.leads h₁)).bind fun b m₂ h₂ _ => ?_
    exact .check h₂.inv _ (op.apply_yields a b)
  | not =>
    refine (hrec (hpart (by simp [Expr.parts])) h).bind fun a m₁ h₁ _ => ?_
    exact .check h₁.inv _ (negateValue_yields a)
  | ifThen =>
    refine (evalCondition hrec h (hpart (by simp [Expr.parts]))).bind fun b m₁ h₁ _ => ?_
    cases b with
    | true => exact evalBranch hrec (h.leads h₁) (hpart (by simp [Expr.parts]))
    | false => exact .ok h₁.inv (L.fits_atom rfl)
  | ifElse =>
    refine (evalCondition hrec h (hpart (by simp [Expr.parts]))).bind fun b m₁ h₁ _ => ?_
    cases b with
    | true => exact evalBranch hrec (h.leads h₁) (hpart (by simp [Expr.parts]))
    | false => exact evalBranch hrec (h.leads h₁) (hpart (by simp [Expr.parts]))
  | whileDo =>
    exact whileRounds hrec ⟨hadmits, rfl⟩ (hpart (by simp [Expr.parts]))
      (hpart (by simp [Expr.parts]))
      lim.rounds h (L.fits_atom rfl)
  | forIn _ name =>
    exact evalFor hrec h name (hpart (by simp [Expr.parts])) (hpart (by simp [Expr.parts]))
  | brk => exact .error h.inv .brk
  | nxt => exact .error h.inv .nxt
  | block => exact evalSequence hrec (fun _ he => hpart he) h (L.fits_atom rfl)
  | assign _ name => exact evalAssign hrec h name (hpart (by simp [Expr.parts]))
  | assignAt _ name =>
    exact evalAssignAt hrec h name (hpart (by simp [Expr.parts])) (hpart (by simp [Expr.parts]))
  | function => exact evalFunction h.inv hadmits
  | call _ name => exact evalCall hrec h name fun _ ha => hpart ha
  | list => exact evalList h.inv hadmits
  | print => exact evalPrint hrec h (hpart (by simp [Expr.parts]))
  | cat =>
    refine (evalPrint hrec h (hpart (by simp [Expr.parts]))).bind fun _ m₁ h₁ _ => ?_
    exact .ok h₁.inv (L.fits_atom rfl)
  | read => exact evalRead h.inv
  | quit => exact .error h.inv .quit

theorem counted (h : L.Inv m) {action : Eval Value}
    (haction : L.Ended (m.begin e) L.Fits (action (m.begin e))) :
    L.Ended m L.Fits (Eval.counted e action m) := by
  have hleads : ∀ {m' stop}, L.Leads (m.begin e) m' → (∀ s, stop = some s → L.Raises s) →
      L.Leads m (m'.finish e stop) := by
    intro m' stop hm' hstop
    have hlaw := L.finish h hm'.kept hm'.inv hm'.step hstop
    refine ⟨⟨hm'.kept.stack, ?_⟩, hlaw.1, hlaw.2⟩
    show m'.depth - 1 = m.depth
    rw [hm'.kept.depth]
    rfl
  unfold Eval.counted
  cases hr : action (m.begin e) with
  | ok v m' =>
    rw [hr] at haction
    exact ⟨hleads haction.1 (by simp), L.fits_finish haction.2⟩
  | error stop m' =>
    rw [hr] at haction
    refine ⟨hleads haction.1 ?_, haction.2⟩
    rintro s ⟨⟩
    exact haction.2

/-- **Every evaluation obeys every law**, whatever room it is given by the limits. -/
theorem within (room : Nat) {m : Machine} (h : L.Inv m) (hroom : room = lim.maxDepth - m.depth)
    (hadmits : L.Admits e) : L.Ended m L.Fits (Eval.within lim room e m) := by
  induction room generalizing e m with
  | zero => exact .error h (.overflow e.span (by omega))
  | succ room ih =>
    have hlt : m.depth < lim.maxDepth := by omega
    refine counted h (node (d := m.depth + 1) ?_ ⟨L.begin h hlt, rfl⟩ hadmits)
    intro e' m' hadmits' h'
    exact ih h'.inv (by rw [h'.depth]; omega) hadmits'

variable (L)

theorem expr (h : L.Inv m) (hadmits : L.Admits e) : L.Ended m L.Fits (Eval.expr lim e m) :=
  within _ h rfl hadmits

/-! ### Programs -/

/-- How a program ends on the machine after its last expression. -/
inductive Closes (m : Machine) : Ending × Machine → Prop where
  | completed {v : Value} (hv : L.Fits m v) : Closes m (flushed (.completed v) m)
  | quit : Closes m (flushed .quit m)
  | failed {e : EvalError} (he : L.Raises (.error e)) : Closes m (abandon e m)
  | unfinished (h : L.Raises .unfinished) : Closes m (.unfinished, m)

variable {L}

theorem runFrom {p : Program} (hp : ∀ e ∈ p, L.Admits e) {m : Machine} (h : L.Inv m) {last : Value}
    (hlast : L.Fits m last) : ∃ m', L.Leads m m' ∧ L.Closes m' (runFrom lim p last m) := by
  induction p generalizing m last with
  | nil => exact ⟨m, .refl h, .completed hlast⟩
  | cons e es ih =>
    obtain ⟨he, hes⟩ := List.forall_mem_cons.mp hp
    have hended := L.expr h he
    have hnext : ∀ {m' v}, L.Leads m m' → L.Fits m' v →
        ∃ m'', L.Leads m m'' ∧ L.Closes m'' (ScopeScript.runFrom lim es v m') := by
      intro m' v hm' hv
      obtain ⟨m'', hm'', hcloses⟩ := ih hes hm'.inv hv
      exact ⟨m'', hm'.trans hm'', hcloses⟩
    unfold ScopeScript.runFrom
    cases hr : Eval.expr lim e m with
    | ok v m' =>
      rw [hr] at hended
      exact hnext hended.1 hended.2
    | error stop m' =>
      rw [hr] at hended
      cases stop with
      | brk | nxt => exact hnext hended.1 (L.fits_atom rfl)
      | quit => exact ⟨m', hended.1, .quit⟩
      | error error => exact ⟨m', hended.1, .failed hended.2⟩
      | unfinished => exact ⟨m', hended.1, .unfinished hended.2⟩

variable (L)

/-- **Every run of a program obeys every law** up to the flush at its end. -/
theorem run {p : Program} (hp : ∀ e ∈ p, L.Admits e) (h : L.Inv m) :
    ∃ m', L.Leads m m' ∧ L.Closes m' (m.run lim p) :=
  runFrom hp h (L.fits_atom rfl)

end Law

end ScopeScript
