import ScopeScript.Proofs.Entries
import ScopeScript.Proofs.Home
import ScopeScript.Proofs.Moments
import ScopeScript.Proofs.Reading

/-!
# Sound machines

A machine keeps what it knows in two places at once: type information stands beside each value, the
number of parameters beside the parameters, and lists and functions are named by their place in the
heap. `Machine.IsSound` says that all this fits together. It is told which scopes the calls under
way have set aside, since these come back later.

* `Entry.IsSound`, `Scope.IsSound`: the type information of a name is that of its value, and each
  entry is found under its name.
* `Function.IsSound`: a function has its parameters once each, and a block for a body.
* `Heap.IsSound`: lists have elements, none of which is a list, and the functions are sound.
* `Eval.enter_scopes`: the body of a sound function begins with its parameters bound to the
  arguments, and with nothing else in its scope.
* `Law.sound`: evaluation of what was read from a text keeps all this.
-/

namespace ScopeScript

/-! ### Functions and the heap -/

theorem Value.typeClass_ne_function (v : Value) (hv : ∀ id, v ≠ .function id) :
    v.typeClass ≠ .ofFunction := by
  intro h
  have hmember := congrArg TypeClass.function h
  cases v with
  | function id => exact hv id rfl
  | _ => cases hmember

theorem Value.typeClass_ne_undefined (v : Value) : v.typeClass ≠ .ofUndefined := by
  intro h
  have hmember := congrArg TypeClass.undefined h
  cases v <;> cases hmember

/-- What is known of every function. -/
structure Function.IsSound (f : Function) : Prop where
  params : f.params.Nodup
  numParams : f.numParams = f.params.length
  isBlock : f.body.isBlock
  shaped : f.body.Everywhere Expr.IsShaped
  lastResult : ∀ c, f.lastResult = some c → c ≠ .ofFunction ∧ c ≠ .ofUndefined

namespace Heap

/-- The value is plain, or names a list or a function of the heap. -/
def Knows (h : Heap) : Value → Prop
  | .list id => id < h.lists.size
  | .function id => ∃ f, h.function? id = some f
  | _ => True

/-- The number of parameters of a value that is a function. -/
def arity? (h : Heap) : Value → Option Nat
  | .function id => (h.function? id).map (·.params.length)
  | _ => none

/-- Lists have elements, none of which is a list, and functions are sound. -/
structure IsSound (h : Heap) : Prop where
  list : ∀ id < h.lists.size, h.items id ≠ []
  item : ∀ id, ∀ v ∈ h.items id, h.Knows v ∧ ∀ other, v ≠ .list other
  function : ∀ id f, h.function? id = some f → f.IsSound

/-- The second heap has the lists and functions of the first one. -/
structure Retains (h h' : Heap) : Prop where
  lists : h.lists.size ≤ h'.lists.size
  functions : ∀ id f, h.function? id = some f →
    ∃ f', h'.function? id = some f' ∧ f'.params = f.params

variable {h h' : Heap} {v : Value}

theorem knows_of_isPlain (hv : v.isPlain) : h.Knows v := by
  cases v with
  | list | function => cases hv
  | _ => trivial

namespace Retains

theorem refl (h : Heap) : h.Retains h := ⟨Nat.le_refl _, fun _ f hf => ⟨f, hf, rfl⟩⟩

theorem trans {a b c : Heap} (hab : a.Retains b) (hbc : b.Retains c) : a.Retains c where
  lists := Nat.le_trans hab.lists hbc.lists
  functions id f hf := by
    obtain ⟨f₁, hf₁, h₁⟩ := hab.functions id f hf
    obtain ⟨f₂, hf₂, h₂⟩ := hbc.functions id f₁ hf₁
    exact ⟨f₂, hf₂, h₂.trans h₁⟩

theorem knows (hretains : h.Retains h') (hv : h.Knows v) : h'.Knows v := by
  cases v with
  | list id => exact Nat.lt_of_lt_of_le hv hretains.lists
  | function id =>
    obtain ⟨f, hf⟩ := hv
    obtain ⟨f', hf', -⟩ := hretains.functions id f hf
    exact ⟨f', hf'⟩
  | _ => trivial

theorem arity? (hretains : h.Retains h') (hv : h.Knows v) : h'.arity? v = h.arity? v := by
  cases v with
  | function id =>
    obtain ⟨f, hf⟩ := hv
    obtain ⟨f', hf', hparams⟩ := hretains.functions id f hf
    simp only [Heap.arity?, hf, hf', Option.map_some, hparams]
  | _ => rfl

end Retains

/-! ### Changes of the heap -/

theorem retains_setItem? {id : ListId} {k : Int64} (hset : h.setItem? id k v = some h') :
    h.Retains h' where
  lists := Nat.le_of_eq (size_lists_setItem? hset).symm
  functions other f hf := ⟨f, by rw [function?, functions_setItem? hset]; exact hf, rfl⟩

theorem retains_newList (h : Heap) (items : List Value) : h.Retains (h.newList items).2 where
  lists := by
    show h.lists.size ≤ (h.lists.push items).size
    rw [Array.size_push]
    exact Nat.le_succ _
  functions _ f hf := ⟨f, hf, rfl⟩

theorem retains_newFunction (h : Heap) (f : Function) : h.Retains (h.newFunction f).2 where
  lists := Nat.le_refl _
  functions id g hg := by
    have hne : id ≠ h.functions.size := by
      rintro rfl
      simp [function?] at hg
    exact ⟨g, by rw [function?_newFunction, if_neg hne, hg], rfl⟩

theorem retains_noteResult (h : Heap) (id : FunctionId) (c : TypeClass) :
    h.Retains (h.noteResult id c) where
  lists := Nat.le_refl _
  functions other f hf := by
    rw [function?_noteResult, hf]
    refine ⟨_, rfl, ?_⟩
    split <;> rfl

namespace IsSound

theorem initial : ({} : Heap).IsSound where
  list id hid := absurd hid (Nat.not_lt_zero _)
  item id v hv := by simp [items] at hv
  function id f hf := by simp [function?] at hf

/-- An element is replaced by a value that is no list. -/
theorem setItem? (hs : h.IsSound) {id : ListId} {k : Int64} (hset : h.setItem? id k v = some h')
    (hv : h.Knows v) (hlist : ∀ other, v ≠ .list other) : h'.IsSound where
  list other hother := by
    rw [size_lists_setItem? hset] at hother
    have hlen := length_items_setItem? h h' id other k v hset
    intro hnil
    rw [hnil] at hlen
    exact hs.list other hother (List.eq_nil_of_length_eq_zero hlen.symm)
  item other w hw := by
    have hretains := retains_setItem? hset
    rcases mem_items_setItem? hset hw with hw | rfl
    · exact ⟨hretains.knows (hs.item other w hw).1, (hs.item other w hw).2⟩
    · exact ⟨hretains.knows hv, hlist⟩
  function other f hf := by
    rw [function?, functions_setItem? hset] at hf
    exact hs.function other f hf

/-- A list is made of constants. -/
theorem newList (hs : h.IsSound) {items : List Literal} (hne : items ≠ []) :
    (h.newList (items.map .ofLiteral)).2.IsSound where
  list id hid := by
    by_cases heq : id = (h.newList (items.map .ofLiteral)).1
    · subst heq
      rw [items_newList]
      simpa using hne
    · rw [items_newList_of_ne h _ heq]
      have hlt : id < h.lists.size + 1 := by simpa [Heap.newList] using hid
      exact hs.list id (Nat.lt_of_le_of_ne (Nat.le_of_lt_succ hlt) heq)
  item id v hv := by
    by_cases heq : id = (h.newList (items.map .ofLiteral)).1
    · subst heq
      rw [items_newList] at hv
      obtain ⟨l, -, rfl⟩ := List.mem_map.mp hv
      refine ⟨knows_of_isPlain (Value.isPlain_ofLiteral l), fun other => ?_⟩
      cases l <;> exact Value.noConfusion
    · rw [items_newList_of_ne h _ heq] at hv
      exact ⟨(retains_newList h _).knows (hs.item id v hv).1, (hs.item id v hv).2⟩
  function id f hf := hs.function id f hf

theorem newFunction (hs : h.IsSound) {f : Function} (hf : f.IsSound) :
    (h.newFunction f).2.IsSound where
  list := hs.list
  item id v hv := ⟨(retains_newFunction h f).knows (hs.item id v hv).1, (hs.item id v hv).2⟩
  function id g hg := by
    rw [function?_newFunction] at hg
    split at hg
    · cases hg
      exact hf
    · exact hs.function id g hg

theorem noteResult (hs : h.IsSound) (id : FunctionId) {c : TypeClass} (hfunction : c ≠ .ofFunction)
    (hundefined : c ≠ .ofUndefined) : (h.noteResult id c).IsSound where
  list := hs.list
  item other v hv :=
    ⟨(retains_noteResult h id c).knows (hs.item other v hv).1, (hs.item other v hv).2⟩
  function other f hf := by
    rw [function?_noteResult] at hf
    obtain ⟨f₀, hf₀, rfl⟩ := Option.map_eq_some_iff.mp hf
    have hf₀' := hs.function other f₀ hf₀
    split
    · refine ⟨hf₀'.params, hf₀'.numParams, hf₀'.isBlock, hf₀'.shaped, ?_⟩
      rintro c' ⟨⟩
      exact ⟨hfunction, hundefined⟩
    · exact hf₀'

end IsSound

end Heap

/-! ### Entries and scopes -/

/-- The type information of a name is that of its value. A name without a value waits for one, and
is no parameter; a parameter is an integer or a truth value. -/
structure Entry.IsSound (h : Heap) (e : Entry) : Prop where
  pending : e.value = none →
    (e.info.kind = .ofUndefined ∨ e.info.kind = .ofScalar) ∧ e.info.isParam = false
  bound : ∀ v, e.value = some v →
    h.Knows v ∧ e.info.kind = v.typeClass ∧ e.info.numParams = h.arity? v
  param : e.info.isParam = true → (∃ n, e.value = some (.int n)) ∨ ∃ b, e.value = some (.bool b)

namespace Entry.IsSound

variable {h h' : Heap}

theorem mono {e : Entry} (hretains : h.Retains h') (he : e.IsSound h) : e.IsSound h' where
  pending := he.pending
  bound v hv := by
    obtain ⟨hknows, hkind, harity⟩ := he.bound v hv
    exact ⟨hretains.knows hknows, hkind, harity.trans (hretains.arity? hknows).symm⟩
  param := he.param

theorem of_isPending {name : String} {info : TypeInfo} (hinfo : info.IsPending) :
    Entry.IsSound h ⟨name, info, none⟩ where
  pending _ := by
    rcases hinfo with rfl | rfl
    · exact ⟨.inl rfl, rfl⟩
    · exact ⟨.inr rfl, rfl⟩
  bound v hv := by cases hv
  param hparam := by rcases hinfo with rfl | rfl <;> cases hparam

theorem of_isArgument {e : Entry} (he : Eval.IsArgument e) : e.IsSound h := by
  obtain ⟨p, n, rfl⟩ := he
  refine ⟨?_, ?_, fun _ => .inl ⟨n, rfl⟩⟩
  · rintro ⟨⟩
  · rintro v ⟨⟩
    exact ⟨trivial, rfl, rfl⟩

/-- An entry for a value at hand is sound, if a parameter stays an integer. -/
theorem of_typeInfo (hs : h.IsSound) {name : String} {v : Value} {isParam : Bool} (hv : h.Knows v)
    (hparam : isParam → v.typeClass.acceptsInt) :
    Entry.IsSound h ⟨name, { h.typeInfo v with isParam }, some v⟩ where
  pending hnone := by cases hnone
  bound w hw := by
    cases hw
    cases v with
    | function id =>
      obtain ⟨f, hf⟩ := hv
      refine ⟨⟨f, hf⟩, ?_, ?_⟩
      · simp only [Heap.typeInfo, hf]
        rfl
      · simp only [Heap.typeInfo, Heap.arity?, hf, Option.map_some,
          ← (hs.function id f hf).numParams]
        rfl
    | _ => exact ⟨hv, rfl, rfl⟩
  param hp := by
    have haccepts := hparam hp
    cases v with
    | int n => exact .inl ⟨n, rfl⟩
    | bool b => exact .inr ⟨b, rfl⟩
    | _ => cases haccepts

end Entry.IsSound

/-- Each entry is sound and is found under its name, and the identity of the scope is used up. -/
structure Scope.IsSound (h : Heap) (fresh : ScopeId) (s : Scope) : Prop where
  id : s.id < fresh
  key : ∀ e ∈ s.entries, s.find? e.name = some e
  entry : ∀ e ∈ s.entries, e.IsSound h

/-- Where no name occurs twice, each entry is found under its name. -/
theorem Scope.find?_of_nodup {s : Scope} {e : Entry} (hnodup : (s.entries.map (·.name)).Nodup)
    (he : e ∈ s.entries) : s.find? e.name = some e := by
  unfold find?
  generalize s.entries = entries at hnodup he
  induction entries with
  | nil => cases he
  | cons first entries ih =>
    rw [List.map_cons, List.nodup_cons] at hnodup
    rcases List.mem_cons.mp he with rfl | he
    · simp
    · have hne : first.name ≠ e.name := by
        intro hname
        exact hnodup.1 (hname ▸ List.mem_map_of_mem he)
      rw [List.find?_cons, beq_eq_false_iff_ne.mpr hne]
      exact ih hnodup.2 he

namespace Scope.IsSound

variable {h h' : Heap} {fresh fresh' : ScopeId} {s : Scope} {e : Entry}

theorem mono (hretains : h.Retains h') (hfresh : fresh ≤ fresh') (hs : s.IsSound h fresh) :
    s.IsSound h' fresh' :=
  ⟨Nat.lt_of_lt_of_le hs.id hfresh, hs.key, fun e he => (hs.entry e he).mono hretains⟩

theorem insert (hs : s.IsSound h fresh) (he : e.IsSound h) (hnew : s.find? e.name = none) :
    (s.insert e).IsSound h fresh where
  id := hs.id
  key old hold := by
    rcases List.mem_cons.mp hold with rfl | hold
    · exact s.find?_insert_self old
    · have hne : old.name ≠ e.name := by
        intro hname
        have hkey := hs.key old hold
        rw [hname, hnew] at hkey
        cases hkey
      rw [s.find?_insert_of_ne e hne]
      exact hs.key old hold
  entry := List.forall_mem_cons.mpr ⟨he, hs.entry⟩

theorem replace (hs : s.IsSound h fresh) (he : e.IsSound h) : (s.replace e).IsSound h fresh where
  id := hs.id
  key new hnew := by
    obtain ⟨old, hold, rfl⟩ := List.mem_map.mp hnew
    rw [s.find?_replace]
    by_cases hname : old.name = e.name
    · have hkey := hs.key old hold
      rw [hname] at hkey
      simp only [hname, beq_self_eq_true, if_true, hkey, Option.map_some]
    · simp only [beq_eq_false_iff_ne.mpr hname, Bool.false_eq_true, if_false, hs.key old hold,
        Option.map_some, hname]
  entry new hnew := by
    obtain ⟨old, hold, rfl⟩ := List.mem_map.mp hnew
    split
    · exact he
    · exact hs.entry old hold

theorem erase (hs : s.IsSound h fresh) (name : String) : (s.erase name).IsSound h fresh where
  id := hs.id
  key e he := by
    obtain ⟨hmem, hne⟩ := List.mem_filter.mp he
    rw [s.find?_erase_of_ne (by simpa using hne)]
    exact hs.key e hmem
  entry e he := hs.entry e (List.mem_filter.mp he).1

end Scope.IsSound

/-! ### The scope of a call -/

namespace Eval

/-- The entries for the parameters of a call. -/
def arguments (params : List String) (args : List Int64) : List Entry :=
  params.zipWith (fun p n => ⟨p, .param, some (.int n)⟩) args

theorem arguments_cons (p : String) (ps : List String) (n : Int64) (ns : List Int64) :
    arguments (p :: ps) (n :: ns) = ⟨p, .param, some (.int n)⟩ :: arguments ps ns := rfl

theorem mem_arguments_iff {params : List String} {args : List Int64} {e : Entry} :
    e ∈ arguments params args ↔
      ∃ (i : Nat) (p : String) (n : Int64),
        params[i]? = some p ∧ args[i]? = some n ∧ e = ⟨p, .param, some (.int n)⟩ := by
  simp only [arguments, List.mem_iff_getElem?, List.getElem?_zipWith]
  constructor
  · rintro ⟨i, hi⟩
    cases hp : params[i]? with
    | none => simp [hp] at hi
    | some p =>
      cases hn : args[i]? with
      | none => simp [hp, hn] at hi
      | some n =>
        simp only [hp, hn, Option.some.injEq] at hi
        exact ⟨i, p, n, hp, hn, hi.symm⟩
  · rintro ⟨i, p, n, hp, hn, rfl⟩
    exact ⟨i, by simp only [hp, hn]⟩

theorem names_arguments {params : List String} {args : List Int64}
    (hlen : args.length = params.length) :
    (arguments params args).map (·.name) = params := by
  induction params generalizing args with
  | nil => rfl
  | cons p ps ih =>
    cases args with
    | nil => cases hlen
    | cons n ns =>
      rw [arguments_cons, List.map_cons, ih (Nat.succ.inj hlen)]

/-- Different parameters are all bound, the last one in front. -/
theorem bindParams_of_nodup (ps : List String) (ns : List Int64) (m : Machine) (s : Scope)
    (outer : List Scope) (hs : m.scopes.scopes = s :: outer) (hnodup : ps.Nodup)
    (hfree : ∀ p ∈ ps, s.find? p = none) :
    ∃ events, bindParams m ps ns =
      m.withScopes ({ s with entries := (arguments ps ns).reverse ++ s.entries } :: outer)
        events := by
  induction ps generalizing ns m s with
  | nil => exact ⟨[], (m.withScopes_self hs).symm⟩
  | cons p ps ih =>
    cases ns with
    | nil => exact ⟨[], (m.withScopes_self hs).symm⟩
    | cons n ns =>
      obtain ⟨hp, hps⟩ := List.nodup_cons.mp hnodup
      rcases m.declare_cons ⟨p, .param, some (.int n)⟩ hs with ⟨-, heq⟩ | ⟨⟨old, hold⟩, -⟩
      · have hrest : ∀ q ∈ ps, (s.insert ⟨p, .param, some (.int n)⟩).find? q = none := by
          intro q hq
          have hne : q ≠ p := fun h => hp (h ▸ hq)
          exact (s.find?_insert_of_ne _ hne).trans (hfree q (List.mem_cons_of_mem _ hq))
        obtain ⟨events, hbind⟩ := ih ns _ (s.insert ⟨p, .param, some (.int n)⟩)
          (m.withScopes_scopes _ [.adding p .ofInt]) hps hrest
        refine ⟨events ++ [.adding p .ofInt], ?_⟩
        rw [bindParams, heq]
        refine hbind.trans ?_
        rw [Machine.withScopes_withScopes, arguments_cons, List.reverse_cons, List.append_assoc]
        rfl
      · have hnew := hfree p List.mem_cons_self
        rw [show s.find? p = some old from hold] at hnew
        cases hnew

/-- **The body of a function begins with its parameters bound to the arguments**, in a scope of its
own on top of the visible ones. -/
theorem enter_scopes (m : Machine) (id : FunctionId) {f : Function} (args : List Int64)
    (hnodup : f.params.Nodup) :
    (enter m id f args).2.scopes =
      ⟨⟨m.scopes.fresh, (arguments f.params args).reverse⟩ :: m.visible f, m.scopes.fresh + 1⟩ := by
  obtain ⟨before, -, hdetach⟩ := detach_eq m f
  obtain ⟨events, hbind⟩ := bindParams_of_nodup f.params args
    (m.withScopes (m.visible f) before).openScope ⟨m.scopes.fresh, []⟩ (m.visible f) rfl hnodup
    (fun _ _ => rfl)
  simp only [enter, hdetach, hbind, List.append_nil]
  rfl

end Eval

/-! ### Machines -/

namespace Machine

/-- What a machine keeps fits together, in the open scopes and in those that are set aside. -/
structure IsSound (aside : List Scope) (m : Machine) : Prop where
  heap : m.heap.IsSound
  scope : ∀ s ∈ m.scopes.scopes ++ aside, s.IsSound m.heap m.scopes.fresh

/-- The second machine has the lists and functions of the first one, and has used up its scopes. -/
structure Retains (m m' : Machine) : Prop where
  heap : m.heap.Retains m'.heap
  fresh : m.scopes.fresh ≤ m'.scopes.fresh

theorem Retains.refl (m : Machine) : m.Retains m := ⟨.refl _, Nat.le_refl _⟩

theorem Retains.trans {a b c : Machine} (hab : a.Retains b) (hbc : b.Retains c) : a.Retains c :=
  ⟨hab.heap.trans hbc.heap, Nat.le_trans hab.fresh hbc.fresh⟩

theorem Retains.declare (m : Machine) (e : Entry) : m.Retains (m.declare e) := by
  unfold Machine.declare
  cases hadd : m.scopes.add? e with
  | none => exact .refl m
  | some stack =>
    refine ⟨.refl _, ?_⟩
    unfold ScopeStack.add? at hadd
    split at hadd
    · cases hadd
    · split at hadd
      · cases hadd
      · cases hadd
        exact Nat.le_refl _

theorem Retains.forget (m : Machine) (name : String) : m.Retains (m.forget name) := by
  refine ⟨.refl _, Nat.le_of_eq ?_⟩
  unfold Machine.forget ScopeStack.remove
  cases m.scopes.scopes <;> rfl

theorem Retains.enter (m : Machine) (id : FunctionId) (f : Function) (args : List Int64) :
    m.Retains (Eval.enter m id f args).2 := by
  obtain ⟨s, events, -, -, -, henter⟩ := Eval.enter_eq m id f args
  rw [henter]
  exact ⟨.refl _, Nat.le_succ _⟩

namespace IsSound

variable {aside : List Scope} {m m' : Machine}

theorem allEntries (h : m.IsSound aside) : AllEntries (Entry.IsSound m.heap) m.scopes.scopes :=
  fun s hs => (h.scope s (List.mem_append_left _ hs)).entry

/-- A machine with the same scopes is as sound as its heap. -/
theorem mono (h : m.IsSound aside) (hretains : m.Retains m') (hheap : m'.heap.IsSound)
    (hscopes : m'.scopes.scopes = m.scopes.scopes) : m'.IsSound aside where
  heap := hheap
  scope s hs := by
    rw [hscopes] at hs
    exact (h.scope s hs).mono hretains.heap hretains.fresh

/-- The innermost scope may be replaced by a sound one. -/
theorem innermost (h : m.IsSound aside) {s s' : Scope} {outer : List Scope}
    (hs : m.scopes.scopes = s :: outer) (hs' : s.IsSound m.heap m.scopes.fresh →
      s'.IsSound m.heap m.scopes.fresh) (events : List Event) :
    (m.withScopes (s' :: outer) events).IsSound aside := by
  have hall := h.scope
  rw [hs, List.cons_append, List.forall_mem_cons] at hall
  refine ⟨h.heap, ?_⟩
  show ∀ s ∈ (s' :: outer) ++ aside, _
  rw [List.cons_append, List.forall_mem_cons]
  exact ⟨hs' hall.1, hall.2⟩

theorem declare (h : m.IsSound aside) {e : Entry} (hnew : m.scopes.find? e.name = none)
    (he : e.IsSound m.heap) : (m.declare e).IsSound aside := by
  rcases m.declare_cases e hnew with ⟨-, heq⟩ | ⟨s, outer, hs, hfind, heq⟩
  · rw [heq]
    exact h
  · rw [heq]
    exact h.innermost hs (fun hsound => hsound.insert he hfind) _

theorem change (h : m.IsSound aside) {e : Entry} {stack : ScopeStack} (he : e.IsSound m.heap)
    (hchange : m.scopes.change e = .ok stack) :
    Machine.IsSound aside { m with scopes := stack } := by
  obtain ⟨s, outer, hs, rfl⟩ := ScopeStack.exists_of_change_eq_ok hchange
  exact h.innermost hs (fun hsound => hsound.replace he) []

theorem forget (h : m.IsSound aside) (name : String) : (m.forget name).IsSound aside := by
  unfold Machine.forget ScopeStack.remove
  cases hs : m.scopes.scopes with
  | nil => exact h
  | cons s outer => exact h.innermost hs (fun hsound => hsound.erase name) []

/-- Every move leads from a sound machine to a sound one. -/
theorem move (h : m.IsSound aside) (hmove : Move (fun m v => m.heap.Knows v) m m') :
    m'.IsSound aside ∧ m.Retains m' := by
  cases hmove with
  | declare name info hinfo hnew => exact ⟨h.declare hnew (.of_isPending hinfo), .declare m _⟩
  | bind name v old stack hold hparam hv hchange =>
    have hsound := h.change (.of_typeInfo h.heap hv hparam) hchange
    obtain ⟨s, outer, -, rfl⟩ := ScopeStack.exists_of_change_eq_ok hchange
    exact ⟨⟨hsound.heap, hsound.scope⟩, .refl _, Nat.le_refl _⟩
  | store name id k v heap htarget hv hlist hset =>
    have hretains : m.Retains ({ m with heap }.note (.stored id k v)) :=
      ⟨Heap.retains_setItem? hset, Nat.le_refl _⟩
    exact ⟨h.mono hretains (h.heap.setItem? hset hv hlist) rfl, hretains⟩
  | credit id v hv =>
    have hretains : m.Retains ({ m with heap := m.heap.noteResult id v.typeClass }.note
        (.returned id v.typeClass)) := ⟨m.heap.retains_noteResult id _, Nat.le_refl _⟩
    have hheap := h.heap.noteResult id (v.typeClass_ne_function hv) v.typeClass_ne_undefined
    exact ⟨h.mono hretains hheap rfl, hretains⟩
  | probe events =>
    have hretains : m.Retains (m.probed events) := ⟨.refl _, Nat.le_succ _⟩
    exact ⟨h.mono hretains h.heap rfl, hretains⟩
  | announce | print | refuse | read | skip => exact ⟨⟨h.heap, h.scope⟩, .refl _, Nat.le_refl _⟩

theorem initial (c : Console) : Machine.IsSound [] { console := c } where
  heap := .initial
  scope s hs := by
    obtain rfl : s = ⟨0, []⟩ := List.mem_singleton.mp hs
    exact ⟨Nat.zero_lt_one, fun _ he => absurd he List.not_mem_nil,
      fun _ he => absurd he List.not_mem_nil⟩

/-! ### Calls -/

theorem function (h : m.IsSound aside) {name : String} {id : FunctionId} {f : Function}
    {args : List Int64} (hcall : Calls m name id f args) : f.IsSound :=
  h.heap.function id f hcall.function

/-- The scope in which the body of a sound function begins is sound. -/
theorem scope_enter (h : m.IsSound aside) {name : String} {id : FunctionId} {f : Function}
    {args : List Int64} (hcall : Calls m name id f args) :
    Scope.IsSound m.heap (m.scopes.fresh + 1)
      ⟨m.scopes.fresh, (Eval.arguments f.params args).reverse⟩ where
  id := Nat.lt_succ_self _
  key e he := by
    have hlen : args.length = f.params.length := hcall.arity.trans (h.function hcall).numParams
    refine Scope.find?_of_nodup ?_ he
    rw [List.map_reverse, Eval.names_arguments hlen]
    exact List.pairwise_reverse.mpr ((h.function hcall).params.imp Ne.symm)
  entry e he := by
    obtain ⟨i, p, n, -, -, rfl⟩ := Eval.mem_arguments_iff.mp (List.mem_reverse.mp he)
    exact .of_isArgument ⟨p, n, rfl⟩

/-- **The body of a function begins on a sound machine**, whichever of the caller's scopes count as
set aside besides those that it does not see. -/
theorem enter (h : m.IsSound aside) {name : String} {id : FunctionId} {f : Function}
    {args : List Int64} (hcall : Calls m name id f args) (hidden : List Scope)
    (hhidden : hidden ⊆ m.scopes.scopes) :
    (Eval.enter m id f args).2.IsSound (hidden ++ aside) := by
  have hscopes := Eval.enter_scopes m id args (h.function hcall).params
  have hheap := Eval.heap_enter m id f args
  refine ⟨hheap ▸ h.heap, fun s hs => ?_⟩
  rw [hscopes, hheap]
  rw [hscopes] at hs
  have hold : ∀ s ∈ m.scopes.scopes ++ aside, s.IsSound m.heap (m.scopes.fresh + 1) :=
    fun s hs => (h.scope s hs).mono (.refl _) (Nat.le_succ _)
  rcases List.mem_append.mp hs with hs | hs
  · rcases List.mem_cons.mp hs with rfl | hs
    · exact h.scope_enter hcall
    · exact hold s (List.mem_append_left _ ((List.drop_suffix _ _).subset hs))
  · rcases List.mem_append.mp hs with hs | hs
    · exact hold s (List.mem_append_left _ (hhidden hs))
    · exact hold s (List.mem_append_right _ hs)

end IsSound

end Machine

/-- **The law of sound machines**, given the scopes that are set aside. -/
def Law.sound (lim : Limits) (aside : List Scope) : Law lim where
  Admits e := e.Everywhere Expr.IsShaped
  Inv m := m.IsSound aside
  Step := Machine.Retains
  Fits m v := m.heap.Knows v
  admits_part {e _} h hpart := h.inside (e.parts_subset_inside hpart)
  step_refl := .refl
  step_trans := .trans
  fits_step _ hstep hv := hstep.heap.knows hv
  fits_atom hv := Heap.knows_of_isPlain (Value.isPlain_of_isAtom hv)
  fits_literal {_ _ l} _ := Heap.knows_of_isPlain (Value.isPlain_ofLiteral l)
  fits_input _ := Heap.knows_of_isPlain (Value.isPlain_ofInput _)
  fits_lookup h hlookup := by
    obtain ⟨e, he, hvalue⟩ := h.allEntries.lookup? hlookup
    exact (he.bound _ hvalue).1
  fits_item h _ hv := (h.heap.item _ _ hv).1
  move h hmove := h.move hmove
  newList {m span items} hadmits h := by
    have hretains : m.Retains (m.allocList (items.map .ofLiteral)) :=
      ⟨m.heap.retains_newList _, Nat.le_refl _⟩
    refine ⟨h.mono hretains (h.heap.newList hadmits.here) rfl, hretains, ?_⟩
    show m.heap.lists.size < (m.heap.lists.push _).size
    rw [Array.size_push]
    exact Nat.lt_succ_self _
  newFunction {m span ps body} hadmits hnodup h := by
    have hretains : m.Retains (m.allocFunction (m.closure ps body)) :=
      ⟨m.heap.retains_newFunction _, Nat.le_refl _⟩
    have hclosure : (m.closure ps body).IsSound :=
      ⟨hnodup, rfl, hadmits.here, hadmits.inside List.mem_cons_self, fun c hc => by cases hc⟩
    refine ⟨h.mono hretains (h.heap.newFunction hclosure) rfl, hretains, m.closure ps body, ?_⟩
    show (m.heap.newFunction _).2.function? _ = _
    rw [Heap.function?_newFunction, if_pos rfl]
  begin h _ := ⟨h.heap, h.scope⟩
  finish _ _ h hstep _ := ⟨⟨h.heap, h.scope⟩, hstep.heap, hstep.fresh⟩
  fits_finish hv := hv
  forget {m m' name} _ _ _ h hstep := by
    have hretains := (Machine.Retains.declare m (.placeholder name)).trans hstep
    exact ⟨h.forget name, hretains.trans (.forget m' name)⟩
  enter h hcall := ⟨h.enter hcall [] (List.nil_subset _), (h.function hcall).shaped⟩
  leave {m m' _ id f args} h _ _ h' hstep := by
    have hretains := (Machine.Retains.enter m id f args).trans hstep
    have hresume : m.Retains (m.resume m') := ⟨hretains.heap, hretains.fresh⟩
    exact ⟨h.mono hresume h'.heap rfl, hresume⟩
  fits_leave _ _ _ _ _ _ hv := hv

end ScopeScript
