import ScopeScript.Proofs.Move

/-!
# Where functions are at home

The home of a function is the list of scopes that were open where it was defined, innermost first.
The home never changes, while the heap grows around it (`Heap.Extends`). A function value lives in a
list of scopes if its home is the outer end of that list (`Heap.Lives`): then the scopes that a call
lets its body see, which it finds by their number, are those of the home.

* `Nested`: every scope binds only functions that live in the scopes from there outwards. New
  entries and whole stacks of visible scopes are nested if the old ones were; a name that is looked
  up gives a value that lives in the open scopes (`Nested.lives_lookup?`).
* `Escaped`: a function that was defined inside of a call has been stored in a list. This is the way
  out of nesting, since a list is shared by scopes that have nothing to do with each other.
* `Recorded`: what the log says about the calls so far. Each body has seen as many of its caller's
  scopes as its home has, counted from the outside, and these were the home unless some function had
  escaped before.
-/

namespace ScopeScript

/-! ### Homes -/

namespace Heap

/-- The home of a function of the heap. -/
def home? (h : Heap) (id : FunctionId) : Option (List ScopeId) :=
  (h.function? id).map (·.home)

theorem home?_of_function? {h : Heap} {id : FunctionId} {f : Function}
    (hf : h.function? id = some f) :
    h.home? id = some f.home := by
  rw [home?, hf, Option.map_some]

/-- The second heap has the functions of the first one. -/
def Extends (h h' : Heap) : Prop :=
  ∀ id home, h.home? id = some home → h'.home? id = some home

theorem Extends.refl (h : Heap) : h.Extends h := fun _ _ hhome => hhome

theorem Extends.trans {a b c : Heap} (hab : a.Extends b) (hbc : b.Extends c) : a.Extends c :=
  fun id home hhome => hbc id home (hab id home hhome)

theorem Extends.of_eq {h h' : Heap} (heq : h'.functions = h.functions) : h.Extends h' := by
  intro id home hhome
  rw [home?, function?, heq]
  exact hhome

theorem function?_newFunction (h : Heap) (f : Function) (id : FunctionId) :
    (h.newFunction f).2.function? id =
      if id = h.functions.size then some f else h.function? id := by
  simp only [newFunction, function?, Array.getElem?_push]

theorem extends_newFunction (h : Heap) (f : Function) : h.Extends (h.newFunction f).2 := by
  intro id home hhome
  obtain ⟨old, hold, -⟩ := Option.map_eq_some_iff.mp hhome
  have hne : id ≠ h.functions.size := by
    rintro rfl
    simp [function?] at hold
  rw [home?, function?_newFunction, if_neg hne]
  exact hhome

theorem function?_noteResult (h : Heap) (id other : FunctionId) (c : TypeClass) :
    (h.noteResult id c).function? other = (h.function? other).map fun f =>
      if id = other then { f with lastResult := some c } else f := by
  simp only [noteResult, function?, Array.getElem?_modify]
  split
  · rfl
  · exact Option.map_id'.symm

theorem extends_noteResult (h : Heap) (id : FunctionId) (c : TypeClass) :
    h.Extends (h.noteResult id c) := by
  intro other home hhome
  obtain ⟨f, hf, rfl⟩ := Option.map_eq_some_iff.mp hhome
  rw [home?, function?_noteResult, hf]
  simp only [Option.map_some]
  split <;> rfl

theorem functions_setItem? {h h' : Heap} {id : ListId} {k : Int64} {v : Value}
    (hset : h.setItem? id k v = some h') : h'.functions = h.functions := by
  unfold setItem? at hset
  split at hset
  · split at hset
    · cases hset
      rfl
    · cases hset
  · cases hset

/-- The value is no function, or one whose home is the outer end of the given scopes. -/
def Lives (h : Heap) (scopes : List ScopeId) (v : Value) : Prop :=
  ∀ id, v = .function id → ∃ home, h.home? id = some home ∧ home <:+ scopes

namespace Lives

variable {h h' : Heap} {scopes scopes' : List ScopeId} {v : Value}

theorem of_not_function (hv : ∀ id, v ≠ .function id) : h.Lives scopes v :=
  fun id hid => absurd hid (hv id)

theorem mono (hext : h.Extends h') (hsuffix : scopes <:+ scopes') (hv : h.Lives scopes v) :
    h'.Lives scopes' v := by
  intro id hid
  obtain ⟨home, hhome, hend⟩ := hv id hid
  exact ⟨home, hext _ _ hhome, hend.trans hsuffix⟩

end Lives

end Heap

/-- The last element of a list stays when elements are dropped, unless all are. -/
theorem suffix_drop_of_singleton {α : Type} {a : α} {l : List α} {n : Nat} (h : [a] <:+ l)
    (hn : n < l.length) : [a] <:+ l.drop n := by
  obtain ⟨front, rfl⟩ := h
  have hle : n ≤ front.length := by
    rw [List.length_append] at hn
    exact Nat.le_of_lt_succ hn
  rw [List.drop_append_of_le_length hle]
  exact List.suffix_append _ _

/-! ### Scopes that bind functions -/

/-- Every scope binds only functions that live in the scopes from there outwards. -/
def Nested (h : Heap) : List Scope → Prop
  | [] => True
  | s :: outer =>
    (∀ e ∈ s.entries, ∀ v, e.value = some v → h.Lives ((s :: outer).map (·.id)) v) ∧ Nested h outer

namespace Nested

variable {h h' : Heap} {scopes : List Scope}

theorem mono (hext : h.Extends h') (hn : Nested h scopes) : Nested h' scopes := by
  induction scopes with
  | nil => trivial
  | cons s outer ih =>
    refine ⟨fun e he v hv => ?_, ih hn.2⟩
    exact (hn.1 e he v hv).mono hext List.suffix_rfl

theorem drop (hn : Nested h scopes) (n : Nat) : Nested h (scopes.drop n) := by
  induction scopes generalizing n with
  | nil => rwa [List.drop_nil]
  | cons s outer ih =>
    cases n with
    | zero => exact hn
    | succ n => exact ih hn.2 n

/-- The innermost scope may change as long as what it binds anew lives in the open scopes. -/
theorem innermost {s s' : Scope} {outer : List Scope} (hn : Nested h (s :: outer))
    (hid : s'.id = s.id)
    (hentries : ∀ e ∈ s'.entries, e ∈ s.entries ∨
      ∀ v, e.value = some v → h.Lives ((s :: outer).map (·.id)) v) : Nested h (s' :: outer) := by
  refine ⟨fun e he v hv => ?_, hn.2⟩
  rw [List.map_cons, hid]
  rcases hentries e he with hold | hnew
  · exact hn.1 e hold v hv
  · exact hnew v hv

theorem lives_lookup? {stack : ScopeStack} (hn : Nested h stack.scopes) {name : String} {v : Value}
    (hv : stack.lookup? name = some v) : h.Lives stack.ids v := by
  obtain ⟨e, he, hvalue⟩ := Option.bind_eq_some_iff.mp hv
  unfold ScopeStack.findAny? at he
  unfold ScopeStack.ids
  generalize stack.scopes = scopes at hn he
  induction scopes with
  | nil => cases he
  | cons s outer ih =>
    rw [List.findSome?_cons] at he
    cases hfind : s.find? name with
    | some e' =>
      rw [hfind] at he
      cases he
      exact hn.1 e (List.mem_of_find?_eq_some hfind) v hvalue
    | none =>
      rw [hfind] at he
      exact (ih hn.2 he).mono (.refl h) (List.suffix_cons _ _)

end Nested

/-! ### Functions that escape -/

/-- According to the log, a function that was defined inside of a call has been stored in a list. -/
def Escaped (h : Heap) (log : List Event) : Prop :=
  ∃ list index id home, Event.stored list index (.function id) ∈ log ∧ h.home? id = some home ∧
    1 < home.length

theorem Escaped.mono {h h' : Heap} {log log' : List Event} (hext : h.Extends h')
    (hlog : log <:+ log')
    (he : Escaped h log) : Escaped h' log' := by
  obtain ⟨list, index, id, home, hstored, hhome, hlen⟩ := he
  exact ⟨list, index, id, home, hlog.mem hstored, hext _ _ hhome, hlen⟩

/-! ### Calls in the log -/

/-- What is known of a body that is about to run on the scopes `below`, called where the scopes
`caller` were open and the log was `earlier`. -/
structure OpenedBy (h : Heap) (home below caller : List ScopeId) (earlier : List Event) : Prop where
  below : below = caller.drop (caller.length - home.length)
  distinct : caller.Nodup
  lexical : Escaped h earlier ∨ home <:+ caller

theorem OpenedBy.mono {h h' : Heap} {home below caller : List ScopeId} {earlier : List Event}
    (hext : h.Extends h') (ho : OpenedBy h home below caller earlier) :
    OpenedBy h' home below caller earlier :=
  ⟨ho.below, ho.distinct, ho.lexical.imp_left (·.mono hext List.suffix_rfl)⟩

/-- All calls in a log are as they should be. -/
def Recorded (h : Heap) : List Event → Prop
  | [] => True
  | ev :: earlier =>
    (∀ id below caller, ev = .opened id below caller →
      ∃ home, h.home? id = some home ∧ OpenedBy h home below caller earlier) ∧ Recorded h earlier

/-- Whether an event is other than the begin of a call. -/
def Event.isQuiet : Event → Bool
  | .opened _ _ _ => false
  | _ => true

theorem Event.isQuiet_singleton {ev : Event} (h : ev.isQuiet = true) :
    ∀ ev' ∈ [ev], ev'.isQuiet = true := by
  intro ev' hev'
  obtain rfl := List.mem_singleton.mp hev'
  exact h

theorem Spoken.isQuiet {events : List Event} (h : Spoken events) :
    ∀ ev ∈ events, ev.isQuiet = true := by
  intro ev hev
  have hline := h ev hev
  cases ev with
  | opened => cases hline
  | _ => rfl

namespace Recorded

variable {h h' : Heap} {log : List Event}

theorem mono (hext : h.Extends h') (hr : Recorded h log) : Recorded h' log := by
  induction log with
  | nil => trivial
  | cons ev earlier ih =>
    refine ⟨fun id below caller hev => ?_, ih hr.2⟩
    obtain ⟨home, hhome, ho⟩ := hr.1 id below caller hev
    exact ⟨home, hext _ _ hhome, ho.mono hext⟩

theorem append (hr : Recorded h log) {events : List Event}
    (hquiet : ∀ ev ∈ events, ev.isQuiet = true) : Recorded h (events ++ log) := by
  induction events with
  | nil => exact hr
  | cons ev events ih =>
    obtain ⟨hev, hevents⟩ := List.forall_mem_cons.mp hquiet
    refine ⟨?_, ih hevents⟩
    rintro id below caller rfl
    cases hev

/-- What is recorded of a call at any place of the log. -/
theorem openedBy (hr : Recorded h log) {i : Nat} {id : FunctionId} {below caller : List ScopeId}
    (hcall : log[i]? = some (.opened id below caller)) :
    ∃ home, h.home? id = some home ∧ OpenedBy h home below caller (log.drop (i + 1)) := by
  induction log generalizing i with
  | nil => cases hcall
  | cons ev log ih =>
    cases i with
    | zero =>
      rw [List.getElem?_cons_zero, Option.some.injEq] at hcall
      exact hr.1 id below caller hcall
    | succ i => exact ih hr.2 hcall

end Recorded

end ScopeScript
