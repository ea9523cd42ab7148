import ScopeScript.Proofs.Home
import ScopeScript.Proofs.LogLaw

/-!
# Lexical scoping of calls

A function remembers how many scopes were open where it was defined. When it is called, its body
sees that many of the caller's scopes, counted from the outermost one. These are the scopes of its
definition exactly if the caller has them still open (`Machine.run_call_lexical_iff`), and so calls
are lexical as long as every function is called from within its home.

`Machine.Lexical` is the invariant that says so, and `Law.lexical` states that evaluation keeps it.
A name reaches a function only where the function lives: it was bound there, or in a scope further
out. The one way around this is a list, which can be shared between scopes that are never open
together. A function that was defined inside of a call and stored in a list may be called after that
call, or beside it, and then sees whatever scopes its caller has at that height
(`strayCall_not_lexical`).
-/

namespace ScopeScript

namespace Machine

/-- Functions are found in places where their homes are open: in lists only those of the global
scope, by name only those that live in the scopes from the binding outwards. -/
structure Settled (m : Machine) : Prop where
  items : ∀ id, ∀ v ∈ m.heap.items id, m.heap.Lives [0] v
  names : Nested m.heap m.scopes.scopes

/-- The value lives in the open scopes, unless some function has escaped. -/
def AtHome (m : Machine) (v : Value) : Prop :=
  Escaped m.heap m.log ∨ m.heap.Lives m.scopes.ids v

/-- The invariant behind lexical scoping. Identities of scopes decrease from the innermost scope
outwards, so that no scope is open twice, and the next one is larger than all of them. -/
structure Lexical (m : Machine) : Prop where
  function : ∀ id f, m.heap.function? id = some f → f.scopeDepth = f.home.length ∧ [0] <:+ f.home
  global : [0] <:+ m.scopes.ids
  order : (m.scopes.fresh :: m.scopes.ids).Pairwise (· > ·)
  values : Escaped m.heap m.log ∨ m.Settled
  calls : Recorded m.heap m.log

/-- What grows while a machine runs. -/
structure Grows (m m' : Machine) : Prop where
  heap : m.heap.Extends m'.heap
  fresh : m.scopes.fresh ≤ m'.scopes.fresh
  log : m.log <:+ m'.log

namespace Grows

variable {a b c m m' : Machine}

theorem refl (m : Machine) : m.Grows m := ⟨.refl _, Nat.le_refl _, List.suffix_rfl⟩

theorem trans (hab : a.Grows b) (hbc : b.Grows c) : a.Grows c :=
  ⟨hab.heap.trans hbc.heap, Nat.le_trans hab.fresh hbc.fresh, hab.log.trans hbc.log⟩

theorem escaped (h : m.Grows m') (he : Escaped m.heap m.log) : Escaped m'.heap m'.log :=
  he.mono h.heap h.log

end Grows

theorem AtHome.of_not_function {m : Machine} {v : Value} (hv : ∀ id, v ≠ .function id) :
    m.AtHome v :=
  .inr (.of_not_function hv)

theorem Settled.mono {m m' : Machine} (h : m.Settled) (hext : m.heap.Extends m'.heap)
    (hitems : ∀ id, m'.heap.items id = m.heap.items id)
    (hscopes : m'.scopes.scopes = m.scopes.scopes) : m'.Settled where
  items id v hv := by
    rw [hitems] at hv
    exact (h.items id v hv).mono hext List.suffix_rfl
  names := by
    rw [hscopes]
    exact h.names.mono hext

namespace Lexical

variable {m m' : Machine}

theorem initial (c : Console) : Lexical { console := c } where
  function id f hf := by simp [Heap.function?] at hf
  global := List.suffix_rfl
  order := by
    show [1, 0].Pairwise (· > ·)
    decide
  values := .inr ⟨fun id v hv => by simp [Heap.items] at hv, by simp [ScopeStack.initial, Nested]⟩
  calls := trivial

/-- A machine that has grown keeps the invariant if its functions and values are in order and no
call has begun. -/
theorem grow (h : m.Lexical) (hg : m.Grows m') (hids : m'.scopes.ids = m.scopes.ids)
    (hfunction : ∀ id f, m'.heap.function? id = some f →
      f.scopeDepth = f.home.length ∧ [0] <:+ f.home)
    (hvalues : m.Settled → Escaped m'.heap m'.log ∨ m'.Settled) (events : List Event)
    (hlog : m'.log = events ++ m.log) (hquiet : ∀ ev ∈ events, ev.isQuiet = true) : m'.Lexical where
  function := hfunction
  global := hids ▸ h.global
  order := by
    rw [hids, List.pairwise_cons]
    obtain ⟨hfresh, hpairs⟩ := List.pairwise_cons.mp h.order
    exact ⟨fun id hid => Nat.lt_of_lt_of_le (hfresh id hid) hg.fresh, hpairs⟩
  values := h.values.elim (fun he => .inl (hg.escaped he)) hvalues
  calls := by
    rw [hlog]
    exact (h.calls.mono hg.heap).append hquiet

/-! ### Steps that touch no function -/

/-- Console, depth and log are free to change as long as no call begins. -/
theorem of_eq (h : m.Lexical) (hscopes : m'.scopes = m.scopes) (hheap : m'.heap = m.heap)
    (events : List Event) (hlog : m'.log = events ++ m.log)
    (hquiet : ∀ ev ∈ events, ev.isQuiet = true) : m'.Lexical ∧ m.Grows m' := by
  have hext : m.heap.Extends m'.heap := by
    rw [hheap]
    exact .refl _
  have hg : m.Grows m' :=
    ⟨hext, Nat.le_of_eq (by rw [hscopes]), hlog ▸ List.suffix_append _ _⟩
  refine ⟨h.grow hg (by rw [hscopes]) ?_ ?_ events hlog hquiet, hg⟩
  · rw [hheap]
    exact h.function
  · intro hset
    exact .inr (hset.mono hext (fun _ => by rw [hheap]) (by rw [hscopes]))

theorem begin (h : m.Lexical) (e : Expr) : (m.begin e).Lexical ∧ m.Grows (m.begin e) :=
  h.of_eq rfl rfl [.evaluating e.kindName e.span] rfl (Event.isQuiet_singleton rfl)

theorem finish (h : m.Lexical) (e : Expr) (stop : Option Stop) :
    (m.finish e stop).Lexical ∧ m.Grows (m.finish e stop) :=
  h.of_eq rfl rfl [.left e.span stop] rfl (Event.isQuiet_singleton rfl)

theorem probe (h : m.Lexical) {events : List Event} (hspoken : Spoken events) :
    (m.probed events).Lexical ∧ m.Grows (m.probed events) := by
  have hg : m.Grows (m.probed events) := ⟨.refl _, Nat.le_succ _, List.suffix_append _ _⟩
  have hvalues : m.Settled → Escaped m.heap (events ++ m.log) ∨ (m.probed events).Settled :=
    fun hset => .inr (hset.mono hg.heap (fun _ => rfl) rfl)
  exact ⟨h.grow hg rfl h.function hvalues events rfl hspoken.isQuiet, hg⟩

/-- The innermost scope may change as long as what it binds anew is at home. -/
theorem innermost (h : m.Lexical) {s : Scope} {outer : List Scope}
    (hs : m.scopes.scopes = s :: outer) (s' : Scope) (hid : s'.id = s.id)
    (hentries : ∀ e ∈ s'.entries, e ∈ s.entries ∨ ∀ v, e.value = some v → m.AtHome v)
    (events : List Event) (hquiet : ∀ ev ∈ events, ev.isQuiet = true) :
    (m.withScopes (s' :: outer) events).Lexical ∧ m.Grows (m.withScopes (s' :: outer) events) := by
  have hg : m.Grows (m.withScopes (s' :: outer) events) :=
    ⟨.refl _, Nat.le_refl _, List.suffix_append _ _⟩
  have hids : m.scopes.ids = (s :: outer).map (·.id) := by rw [ScopeStack.ids, hs]
  refine ⟨h.grow hg ?_ h.function ?_ events rfl hquiet, hg⟩
  · show (s' :: outer).map (·.id) = m.scopes.ids
    rw [hids, List.map_cons, List.map_cons, hid]
  · intro hset
    by_cases he : Escaped m.heap m.log
    · exact .inl (hg.escaped he)
    · have hnames := hset.names
      rw [hs] at hnames
      refine .inr ⟨hset.items, hnames.innermost hid fun e hmem => ?_⟩
      refine (hentries e hmem).imp_right fun hnew v hv => ?_
      rw [← hids]
      exact (hnew v hv).resolve_left he

theorem declare (h : m.Lexical) {name : String} {info : TypeInfo}
    (hnew : m.scopes.find? name = none) :
    (m.declare ⟨name, info, none⟩).Lexical ∧ m.Grows (m.declare ⟨name, info, none⟩) := by
  rcases m.declare_cases ⟨name, info, none⟩ hnew with ⟨-, heq⟩ | ⟨s, outer, hs, -, heq⟩
  · rw [heq]
    exact ⟨h, .refl m⟩
  · rw [heq]
    refine h.innermost hs (s.insert ⟨name, info, none⟩) rfl (fun e he => ?_)
      [.adding name info.kind] (Event.isQuiet_singleton rfl)
    rcases List.mem_cons.mp he with rfl | he
    · exact .inr fun v hv => by cases hv
    · exact .inl he

theorem forget (h : m.Lexical) (name : String) :
    (m.forget name).Lexical ∧ m.Grows (m.forget name) := by
  unfold Machine.forget ScopeStack.remove
  cases hs : m.scopes.scopes with
  | nil => exact h.of_eq rfl rfl [] rfl (by simp)
  | cons s outer =>
    have hsub : ∀ e ∈ (s.erase name).entries, e ∈ s.entries := fun e he => (List.mem_filter.mp he).1
    exact h.innermost hs (s.erase name) rfl (fun e he => .inl (hsub e he)) [] (by simp)

theorem bind (h : m.Lexical) {e : Entry} {stack : ScopeStack} {v : Value}
    (hvalue : e.value = some v) (hv : m.AtHome v) (hchange : m.scopes.change e = .ok stack) :
    ({ m with scopes := stack }.note (.bound e.name v)).Lexical ∧
      m.Grows ({ m with scopes := stack }.note (.bound e.name v)) := by
  obtain ⟨s, outer, hs, rfl⟩ := ScopeStack.exists_of_change_eq_ok hchange
  refine h.innermost hs (s.replace e) rfl (fun e' he' => ?_) [.bound e.name v]
    (Event.isQuiet_singleton rfl)
  obtain ⟨old, hold, heq⟩ := List.mem_map.mp he'
  split at heq
  · subst heq
    refine .inr fun w hw => ?_
    rw [hvalue, Option.some.injEq] at hw
    exact hw ▸ hv
  · exact .inl (heq ▸ hold)

/-! ### Lists and functions -/

/-- A function that lives in the open scopes, but not in the global scope alone, is one that was
defined inside of a call. -/
theorem exists_inner (h : m.Lexical) {v : Value} (hv : m.heap.Lives m.scopes.ids v)
    (hglobal : ¬ m.heap.Lives [0] v) :
    ∃ id, v = .function id ∧ ∃ home, m.heap.home? id = some home ∧ 1 < home.length := by
  cases v with
  | function id =>
    obtain ⟨home, hhome, -⟩ := hv id rfl
    obtain ⟨f, hf, rfl⟩ := Option.map_eq_some_iff.mp hhome
    refine ⟨id, rfl, f.home, hhome, Nat.lt_of_not_le fun hlen => ?_⟩
    have hend := (h.function id f hf).2
    have heq : [0] = f.home := hend.eq_of_length_le hlen
    refine hglobal fun id' hid' => ?_
    cases hid'
    exact ⟨f.home, hhome, heq ▸ List.suffix_rfl⟩
  | _ => exact absurd (Heap.Lives.of_not_function (by simp)) hglobal

theorem store (h : m.Lexical) {id : ListId} {k : Int64} {v : Value} {heap : Heap}
    (hset : m.heap.setItem? id k v = some heap) (hv : m.AtHome v) :
    ({ m with heap }.note (.stored id k v)).Lexical ∧
      m.Grows ({ m with heap }.note (.stored id k v)) := by
  have hfunctions := Heap.functions_setItem? hset
  have hext : m.heap.Extends heap := .of_eq hfunctions
  have hg : m.Grows ({ m with heap }.note (.stored id k v)) :=
    ⟨hext, Nat.le_refl _, List.suffix_cons _ _⟩
  refine ⟨h.grow hg rfl ?_ ?_ [.stored id k v] rfl (Event.isQuiet_singleton rfl), hg⟩
  · intro g f hf
    refine h.function g f ?_
    rw [← hf, Heap.function?, Heap.function?]
    exact congrArg (·[g]?) hfunctions.symm
  · intro hsettled
    rcases hv with hv | hv
    · exact .inl (hg.escaped hv)
    · by_cases hglobal : m.heap.Lives [0] v
      · refine .inr ⟨fun other w hw => ?_, hsettled.names.mono hext⟩
        rcases Heap.mem_items_setItem? hset hw with hold | rfl
        · exact (hsettled.items other w hold).mono hext List.suffix_rfl
        · exact hglobal.mono hext List.suffix_rfl
      · -- a function that is not at home in the global scope alone escapes here
        obtain ⟨g, rfl, home, hhome, hlong⟩ := h.exists_inner hv hglobal
        exact .inl ⟨id, k, g, home, List.mem_cons_self, hext _ _ hhome, hlong⟩

theorem credit (h : m.Lexical) (id : FunctionId) (c : TypeClass) :
    ({ m with heap := m.heap.noteResult id c }.note (.returned id c)).Lexical ∧
      m.Grows ({ m with heap := m.heap.noteResult id c }.note (.returned id c)) := by
  have hext := m.heap.extends_noteResult id c
  have hg : m.Grows ({ m with heap := m.heap.noteResult id c }.note (.returned id c)) :=
    ⟨hext, Nat.le_refl _, List.suffix_cons _ _⟩
  refine ⟨h.grow hg rfl ?_ ?_ [.returned id c] rfl (Event.isQuiet_singleton rfl), hg⟩
  · intro other f hf
    have hmap := (m.heap.function?_noteResult id other c).symm.trans hf
    obtain ⟨old, hold, heq⟩ := Option.map_eq_some_iff.mp hmap
    have hf' := h.function other old hold
    split at heq
    · subst heq
      exact hf'
    · exact heq ▸ hf'
  · exact fun hset => .inr (hset.mono hext (fun _ => rfl) rfl)

theorem newList (h : m.Lexical) (items : List Literal) :
    (m.allocList (items.map .ofLiteral)).Lexical ∧
      m.Grows (m.allocList (items.map .ofLiteral)) := by
  have hg : m.Grows (m.allocList (items.map .ofLiteral)) :=
    ⟨.of_eq rfl, Nat.le_refl _, List.suffix_rfl⟩
  refine ⟨h.grow hg rfl h.function ?_ [] rfl (by simp), hg⟩
  intro hset
  refine .inr ⟨fun id v hv => ?_, hset.names.mono hg.heap⟩
  by_cases hid : id = (m.heap.newList (items.map .ofLiteral)).1
  · subst hid
    have hv' : v ∈ items.map Value.ofLiteral := by
      rw [← m.heap.items_newList (items.map .ofLiteral)]
      exact hv
    obtain ⟨l, -, rfl⟩ := List.mem_map.mp hv'
    exact .of_not_function (Value.ofLiteral_ne_function l)
  · have hv' : v ∈ (m.heap.newList (items.map .ofLiteral)).2.items id := hv
    rw [Heap.items_newList_of_ne _ _ hid] at hv'
    exact (hset.items id v hv').mono hg.heap List.suffix_rfl

theorem newFunction (h : m.Lexical) (ps : List String) (body : Expr) :
    (m.allocFunction (m.closure ps body)).Lexical ∧
      m.Grows (m.allocFunction (m.closure ps body)) := by
  have hext := m.heap.extends_newFunction (m.closure ps body)
  have hg : m.Grows (m.allocFunction (m.closure ps body)) :=
    ⟨hext, Nat.le_refl _, List.suffix_rfl⟩
  refine ⟨h.grow hg rfl ?_ ?_ [] rfl (by simp), hg⟩
  · intro id f hf
    have hf' := (m.heap.function?_newFunction (m.closure ps body) id).symm.trans hf
    split at hf'
    · cases hf'
      exact ⟨(List.length_map _).symm, h.global⟩
    · exact h.function id f hf'
  · exact fun hset => .inr (hset.mono hext (fun _ => rfl) rfl)

/-- The new function lives where it was defined. -/
theorem lives_closure (m : Machine) (ps : List String) (body : Expr) :
    (m.allocFunction (m.closure ps body)).heap.Lives m.scopes.ids
      (.function m.heap.functions.size) := by
  intro id hid
  cases hid
  refine ⟨m.scopes.ids, Heap.home?_of_function? (f := m.closure ps body) ?_, List.suffix_rfl⟩
  exact (m.heap.function?_newFunction _ _).trans (if_pos rfl)

/-! ### Calls -/

/-- The scopes that a body sees, as far as the caller's scopes are concerned. -/
theorem ids_visible (h : m.Lexical) {id : FunctionId} {f : Function}
    (hf : m.heap.function? id = some f) :
    (m.visible f).map (·.id) = m.scopes.ids.drop (m.scopes.ids.length - f.home.length) := by
  have hdepth : m.scopes.above f.scopeDepth = m.scopes.ids.length - f.home.length := by
    rw [ScopeStack.above, ScopeStack.depth, (h.function id f hf).1, ScopeStack.ids, List.length_map]
  rw [← hdepth, ScopeStack.ids, ← List.map_drop]
  rfl

theorem atHome_lookup? (h : m.Lexical) {name : String} {v : Value}
    (hv : m.scopes.lookup? name = some v) : m.AtHome v :=
  h.values.imp_right fun hset => hset.names.lives_lookup? hv

/-- The home of a function that is called by name is open, unless some function has escaped. -/
theorem home_suffix (h : m.Lexical) {name : String} {id : FunctionId} {f : Function}
    {args : List Int64} (hcall : Calls m name id f args) :
    Escaped m.heap m.log ∨ f.home <:+ m.scopes.ids := by
  refine (h.atHome_lookup? hcall.lookup).imp_right fun hlives => ?_
  obtain ⟨home, hhome, hend⟩ := hlives id rfl
  rw [Heap.home?_of_function? hcall.function, Option.some.injEq] at hhome
  exact hhome ▸ hend

theorem enter (h : m.Lexical) {name : String} {id : FunctionId} {f : Function} {args : List Int64}
    (hcall : Calls m name id f args) :
    (Eval.enter m id f args).2.Lexical ∧ m.Grows (Eval.enter m id f args).2 := by
  obtain ⟨s, events, hid, hargs, hspoken, henter⟩ := Eval.enter_eq m id f args
  have hvisible := h.ids_visible hcall.function
  obtain ⟨-, hglobal⟩ := h.function id f hcall.function
  have hlog : m.log <:+ events ++ m.log := List.suffix_append _ _
  have hg : m.Grows (Eval.enter m id f args).2 := by
    rw [henter]
    exact ⟨.refl _, Nat.le_succ _, hlog.trans (List.suffix_cons _ _)⟩
  refine ⟨?_, hg⟩
  rw [henter] at hg ⊢
  refine ⟨h.function, ?_, ?_, ?_, ?_, h.calls.append hspoken.isQuiet⟩
  · -- a home has the global scope, so it is among the visible ones
    show [0] <:+ s.id :: (m.visible f).map (·.id)
    refine List.IsSuffix.trans ?_ (List.suffix_cons _ _)
    rw [hvisible]
    refine suffix_drop_of_singleton h.global ?_
    have hhome : 1 ≤ f.home.length := hglobal.length_le
    have hids : 1 ≤ m.scopes.ids.length := h.global.length_le
    omega
  · show ((m.scopes.fresh + 1) :: s.id :: (m.visible f).map (·.id)).Pairwise (· > ·)
    rw [hid, hvisible]
    have hbelow := h.order.sublist
      ((List.drop_sublist (m.scopes.ids.length - f.home.length) m.scopes.ids).cons_cons _)
    refine List.pairwise_cons.mpr ⟨fun i hi => ?_, hbelow⟩
    rcases List.mem_cons.mp hi with rfl | hi
    · exact Nat.lt_succ_self _
    · exact Nat.lt_succ_of_lt ((List.pairwise_cons.mp hbelow).1 i hi)
  · rcases h.values with he | hset
    · exact .inl (hg.escaped he)
    · refine .inr ⟨hset.items, ?_, hset.names.drop _⟩
      intro e he v hv
      obtain ⟨p, n, rfl⟩ := hargs e he
      cases hv
      exact .of_not_function (by simp)
  · rintro id' below caller ⟨⟩
    refine ⟨f.home, Heap.home?_of_function? hcall.function, hvisible, ?_, ?_⟩
    · exact h.order.of_cons.imp Nat.ne_of_gt
    · exact (h.home_suffix hcall).imp_left (·.mono (.refl _) hlog)

theorem leave (h : m.Lexical) {name : String} {id : FunctionId} {f : Function} {args : List Int64}
    (hcall : Calls m name id f args) (h' : m'.Lexical) (hg : (Eval.enter m id f args).2.Grows m') :
    (m.resume m').Lexical ∧ m.Grows (m.resume m') := by
  have hcaller : m.Grows m' := (h.enter hcall).2.trans hg
  have hresume : m'.Grows (m.resume m') := ⟨.refl _, Nat.le_refl _, List.suffix_cons _ _⟩
  refine ⟨⟨h'.function, h.global, ?_, ?_, ?_⟩, hcaller.trans hresume⟩
  · obtain ⟨hfresh, hpairs⟩ := List.pairwise_cons.mp h.order
    exact List.pairwise_cons.mpr ⟨fun i hi =>
      Nat.lt_of_lt_of_le (hfresh i hi) hcaller.fresh, hpairs⟩
  · rcases h.values with he | hset
    · exact .inl (hresume.escaped (hcaller.escaped he))
    · rcases h'.values with he' | hset'
      · exact .inl (hresume.escaped he')
      · exact .inr ⟨hset'.items, hset.names.mono hcaller.heap⟩
  · exact h'.calls.append (Event.isQuiet_singleton rfl)

theorem move (h : m.Lexical) (hmove : Move AtHome m m') : m'.Lexical ∧ m.Grows m' := by
  cases hmove with
  | announce name args =>
    exact h.of_eq rfl rfl [.calling name args] rfl (Event.isQuiet_singleton rfl)
  | declare name info _ hnew => exact h.declare hnew
  | bind name v old stack hold _ hv hchange => exact h.bind rfl hv hchange
  | store name id k v heap htarget hv _ hset => exact h.store hset hv
  | print v console => exact h.of_eq rfl rfl [.printed _] rfl (Event.isQuiet_singleton rfl)
  | refuse => exact h.of_eq rfl rfl [] rfl (by simp)
  | read line console => exact h.of_eq rfl rfl [.consumed _] rfl (Event.isQuiet_singleton rfl)
  | skip => exact h.of_eq rfl rfl [] rfl (by simp)
  | probe events hspoken => exact h.probe hspoken
  | credit id v => exact h.credit id _

end Lexical

end Machine

/-- **The law of lexical scoping.** -/
def Law.lexical (lim : Limits) : Law lim where
  Admits _ := True
  Inv := Machine.Lexical
  Step := Machine.Grows
  Fits := Machine.AtHome
  admits_part _ _ := trivial
  step_refl := .refl
  step_trans := .trans
  fits_step hkept hg hv := by
    rw [Machine.AtHome, hkept.ids_eq]
    exact hv.imp hg.escaped (·.mono hg.heap List.suffix_rfl)
  fits_atom {m v} hv := .of_not_function (by rintro id rfl; cases hv)
  fits_literal {m span l} _ := .of_not_function (Value.ofLiteral_ne_function l)
  fits_input {m c c' line} _ := .of_not_function (Value.ofInput_ne_function _)
  fits_lookup h hv := h.atHome_lookup? hv
  fits_item h _ hv := h.values.imp_right fun hset => (hset.items _ _ hv).mono (.refl _) h.global
  move h hmove := h.move hmove
  newList {m span items} _ h :=
    ⟨(h.newList items).1, (h.newList items).2, .of_not_function (by simp)⟩
  newFunction {m span ps body} _ _ h :=
    ⟨(h.newFunction ps body).1, (h.newFunction ps body).2,
      .inr (Machine.Lexical.lives_closure m ps body)⟩
  begin {m e} h _ := (h.begin e).1
  finish {m m' e stop} h _ h' hg _ :=
    ⟨(h'.finish e stop).1, (h.begin e).2.trans (hg.trans (h'.finish e stop).2)⟩
  fits_finish hv := hv.imp_left (·.mono (.refl _) (List.suffix_cons _ _))
  forget {m m' name} h hnew _ h' hg :=
    ⟨(h'.forget name).1, (h.declare hnew).2.trans (hg.trans (h'.forget name).2)⟩
  enter h hcall := ⟨(h.enter hcall).1, trivial⟩
  leave h hcall _ h' hg := h.leave hcall h' hg
  fits_leave _ _ _ _ _ hv _ := .of_not_function hv

/-! ### Runs of programs -/

/-- The calls of a run are recorded in its log. -/
theorem Machine.recorded_run (lim : Limits) (c : Console) (p : Program) :
    let m := (Machine.run { console := c } lim p).2
    Recorded m.heap m.log := by
  obtain ⟨m', hleads, hcloses⟩ := (Law.lexical lim).run (p := p) (fun _ _ => trivial)
    (Machine.Lexical.initial c)
  rcases hcloses.abandoned_or_kept with ⟨e, c', events, -, hspoken, heq⟩ | ⟨c', heq, -⟩
  · rw [heq]
    exact hleads.inv.calls.append hspoken.isQuiet
  · rw [heq]
    exact hleads.inv.calls

/-- **When calls are lexical.** In the run of a program on a new machine, a body runs on the scopes
in which its function was defined exactly if these are the outer end of its caller's scopes. So it
does unless, earlier in the run, a function that was defined inside of a call has been stored in a
list. -/
theorem Machine.run_call_lexical_iff (lim : Limits) (c : Console) (p : Program) :
    let m := (Machine.run { console := c } lim p).2
    ∀ i id below caller, m.log[i]? = some (.opened id below caller) →
      ∃ f, m.heap.function? id = some f ∧ caller.Nodup ∧ (below = f.home ↔ f.home <:+ caller) ∧
        (¬ Escaped m.heap (m.log.drop (i + 1)) → below = f.home) := by
  intro m i id below caller hcall
  obtain ⟨home, hhome, hbelow, hdistinct, hlexical⟩ := (recorded_run lim c p).openedBy hcall
  obtain ⟨f, hf, rfl⟩ := Option.map_eq_some_iff.mp hhome
  have hiff : below = f.home ↔ f.home <:+ caller := by
    rw [List.suffix_iff_eq_drop, hbelow]
    exact eq_comm
  exact ⟨f, hf, hdistinct, hiff, fun hkept => hiff.mpr (hlexical.resolve_left hkept)⟩

/-- A program in which a function escapes. The call `f(1)` stores a function that yields the
parameter `a` of this very call in a list that it shares with the global scope, and `h(2)` takes it
out and calls it. Where it was defined, `a` is one: `l <- list(0)`,
`h <- function(a) { g <- l[[1]]; g(0) }`,
`f <- function(a) { m <- l; m[[1]] <- function(b) { a }; h(2) }`, `f(1)`. -/
def strayCall : Program :=
  [.assign ⟨0, 12⟩ "l" (.list ⟨5, 12⟩ [.int 0]),
    .assign ⟨13, 51⟩ "h" (.function ⟨18, 51⟩ ["a"] (.block ⟨30, 51⟩
      [.assign ⟨32, 43⟩ "g" (.element ⟨37, 43⟩ "l" (.literal ⟨40, 41⟩ (.int 1))),
        .call ⟨45, 49⟩ "g" [.literal ⟨47, 48⟩ (.int 0)]])),
    .assign ⟨52, 114⟩ "f" (.function ⟨57, 114⟩ ["a"] (.block ⟨69, 114⟩
      [.assign ⟨71, 77⟩ "m" (.var ⟨76, 77⟩ "l"),
        .assignAt ⟨79, 106⟩ "m" (.literal ⟨82, 83⟩ (.int 1))
          (.function ⟨89, 106⟩ ["b"] (.block ⟨101, 106⟩ [.var ⟨103, 104⟩ "a"])),
        .call ⟨108, 112⟩ "h" [.literal ⟨110, 111⟩ (.int 2)]])),
    .call ⟨115, 119⟩ "f" [.literal ⟨117, 118⟩ (.int 1)]]

/-- The escaped function sees the scope of its caller in place of the one in which it was defined,
and yields two. -/
theorem strayCall_not_lexical :
    (Machine.run {} {} strayCall).1 = .completed (.int 2) ∧
      ∃ id below caller home,
        Event.opened id below caller ∈ (Machine.run {} {} strayCall).2.log ∧
          (Machine.run {} {} strayCall).2.heap.home? id = some home ∧ below ≠ home := by
  have hcall : (Machine.run {} {} strayCall).2.log[15]? = some (.opened 2 [5, 0] [5, 0]) := by
    decide +kernel
  have hhome : (Machine.run {} {} strayCall).2.heap.home? 2 = some [3, 0] := by decide +kernel
  exact ⟨by decide +kernel, 2, [5, 0], [5, 0], [3, 0], List.mem_of_getElem? hcall, hhome, by decide⟩

/-- The call `f(1)` of the same program comes before anything is stored, and is lexical. -/
theorem strayCall_lexical_before :
    let m := (Machine.run {} {} strayCall).2
    m.log[57]? = some (.opened 1 [0] [0]) ∧ ¬ Escaped m.heap (m.log.drop 58) ∧
      ∃ f, m.heap.function? 1 = some f ∧ [0] = f.home := by
  have hcall : (Machine.run {} {} strayCall).2.log[57]? = some (.opened 1 [0] [0]) := by
    decide +kernel
  have hstored : ((Machine.run {} {} strayCall).2.log.drop 58).all
      (fun | .stored _ _ _ => false | _ => true) = true := by
    decide +kernel
  have hkept : ¬ Escaped (Machine.run {} {} strayCall).2.heap
      ((Machine.run {} {} strayCall).2.log.drop 58) := by
    rintro ⟨list, index, id, home, hmem, -⟩
    cases List.all_eq_true.mp hstored _ hmem
  obtain ⟨f, hf, -, -, hlexical⟩ :=
    Machine.run_call_lexical_iff {} {} strayCall 57 1 [0] [0] hcall
  exact ⟨hcall, hkept, f, hf, hlexical hkept⟩

end ScopeScript
