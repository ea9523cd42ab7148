import ScopeScript.Proofs.Law

/-!
# What is known of every entry

Many facts about a machine concern each entry of each of its scopes by itself: `AllEntries P` says
that all of them meet the condition `P`. Entries come into being in three ways only. They are
declared without a value, bound to a value by an assignment or a loop, or bound to an argument of a
call; so there is one thing to check for each (`AllEntries.move`, `AllEntries.enter`). A name that
is looked up gives the value of some entry (`AllEntries.lookup?`).
-/

namespace ScopeScript

/-! ### Values outside of the heap -/

namespace Value

/-- Whether a value is neither a list nor a function. -/
def isPlain : Value → Bool
  | list _ | function _ => false
  | null | int _ | float _ | bool _ | str _ => true

theorem isPlain_of_isAtom {v : Value} (h : v.isAtom) : v.isPlain := by
  cases v with
  | str | list | function => cases h
  | _ => rfl

theorem isPlain_ofLiteral (l : Literal) : (ofLiteral l).isPlain := by
  cases l <;> rfl

theorem isPlain_ofInput (line : String) : (ofInput line).isPlain := by
  unfold ofInput
  dsimp only
  split
  · split
    · rfl
    · split <;> rfl
  · rfl

end Value

/-! ### Steps that leave the heap alone -/

theorem Machine.heap_declare (m : Machine) (e : Entry) : (m.declare e).heap = m.heap := by
  unfold declare
  cases m.scopes.add? e <;> rfl

theorem Eval.heap_enter (m : Machine) (id : FunctionId) (f : Function) (args : List Int64) :
    (enter m id f args).2.heap = m.heap := by
  obtain ⟨s, events, -, -, -, henter⟩ := enter_eq m id f args
  rw [henter]
  rfl

/-! ### Entries -/

/-- Every entry of the scopes meets the condition. -/
def AllEntries (P : Entry → Prop) (scopes : List Scope) : Prop :=
  ∀ s ∈ scopes, ∀ e ∈ s.entries, P e

namespace AllEntries

variable {P Q : Entry → Prop} {scopes : List Scope} {m m' : Machine}

theorem mono (himp : ∀ e, P e → Q e) (h : AllEntries P scopes) : AllEntries Q scopes :=
  fun s hs e he => himp e (h s hs e he)

theorem cons_iff {s : Scope} : AllEntries P (s :: scopes) ↔ (∀ e ∈ s.entries, P e) ∧
    AllEntries P scopes :=
  List.forall_mem_cons

theorem of_suffix {outer : List Scope} (hsuffix : outer <:+ scopes) (h : AllEntries P scopes) :
    AllEntries P outer :=
  fun s hs => h s (hsuffix.subset hs)

/-- A name that has a value is an entry of some scope. -/
theorem lookup? (h : AllEntries P m.scopes.scopes) {name : String} {v : Value}
    (hlookup : m.scopes.lookup? name = some v) : ∃ e, P e ∧ e.value = some v := by
  obtain ⟨e, hfind, hvalue⟩ := Option.bind_eq_some_iff.mp hlookup
  obtain ⟨s, hs, he⟩ := List.exists_of_findSome?_eq_some hfind
  exact ⟨e, h s hs e (List.mem_of_find?_eq_some he), hvalue⟩

theorem declare (h : AllEntries P m.scopes.scopes) {e : Entry} (hnew : m.scopes.find? e.name = none)
    (he : P e) : AllEntries P (m.declare e).scopes.scopes := by
  rcases m.declare_cases e hnew with ⟨-, heq⟩ | ⟨s, outer, hs, -, heq⟩
  · rw [heq]
    exact h
  · rw [hs, cons_iff] at h
    rw [heq]
    exact cons_iff.mpr ⟨List.forall_mem_cons.mpr ⟨he, h.1⟩, h.2⟩

theorem change (h : AllEntries P m.scopes.scopes) {e : Entry} {stack : ScopeStack} (he : P e)
    (hchange : m.scopes.change e = .ok stack) : AllEntries P stack.scopes := by
  obtain ⟨s, outer, hs, rfl⟩ := ScopeStack.exists_of_change_eq_ok hchange
  rw [hs, cons_iff] at h
  refine cons_iff.mpr ⟨fun e' he' => ?_, h.2⟩
  obtain ⟨old, hold, rfl⟩ := List.mem_map.mp he'
  split
  · exact he
  · exact h.1 old hold

theorem forget (h : AllEntries P m.scopes.scopes) (name : String) :
    AllEntries P (m.forget name).scopes.scopes := by
  unfold Machine.forget ScopeStack.remove
  cases hs : m.scopes.scopes with
  | nil =>
    rw [hs] at h
    simpa only [hs] using h
  | cons s outer =>
    rw [hs, cons_iff] at h
    exact cons_iff.mpr ⟨fun e he => h.1 e (List.mem_filter.mp he).1, h.2⟩

/-- **Moves** add entries that wait for a value, and entries for values at hand. -/
theorem move {Fits : Machine → Value → Prop} (h : AllEntries P m.scopes.scopes)
    (hmove : Move Fits m m') (hpending : ∀ name info, info.IsPending → P ⟨name, info, none⟩)
    (hbound : ∀ name v old, m.scopes.find? name = some old → Fits m v →
      (old.info.isParam → v.typeClass.acceptsInt) →
      P ⟨name, { m.heap.typeInfo v with isParam := old.info.isParam }, some v⟩) :
    AllEntries P m'.scopes.scopes := by
  cases hmove with
  | declare name info hinfo hnew => exact h.declare hnew (hpending name info hinfo)
  | bind name v old stack hold hparam hv hchange =>
    exact h.change (hbound name v old hold hv hparam) hchange
  | announce | store | print | refuse | read | skip | probe | credit => exact h

theorem visible (h : AllEntries P m.scopes.scopes) (f : Function) : AllEntries P (m.visible f) :=
  h.of_suffix (List.drop_suffix _ _)

/-- **Calls** add arguments. -/
theorem enter (h : AllEntries P m.scopes.scopes) (id : FunctionId) (f : Function)
    (args : List Int64) (harg : ∀ e, Eval.IsArgument e → P e) :
    AllEntries P (Eval.enter m id f args).2.scopes.scopes := by
  obtain ⟨s, events, -, hargs, -, henter⟩ := Eval.enter_eq m id f args
  rw [henter]
  exact cons_iff.mpr ⟨fun e he => harg e (hargs e he), h.visible f⟩

end AllEntries

end ScopeScript
