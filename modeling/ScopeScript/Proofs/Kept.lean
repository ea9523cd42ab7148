import ScopeScript.Eval.Basic

/-!
# What evaluation keeps

Evaluating an expression may bind names of the innermost scope and declare new ones there. It does
not open or close a scope for good, it does not touch the scopes further out, and it takes nothing
away from the innermost one: a name that is there stays, keeps a value once it has one, and stays a
parameter if it is one. `Machine.Kept m m'` says this of the machine `m` before and the machine `m'`
after, together with the number of expressions under evaluation.

* `Entry.Kept`, `Scope.Kept`, `StackKept` are the three layers of the relation; each is reflexive
  and transitive, so it holds of a sequence of actions if it holds of each.
* Declaring and changing a name keep the innermost scope (`Machine.Kept.declare`,
  `Machine.Kept.bind`). Removing a name does not; but removing a name that was declared after the
  machine `m` does, as far as `m` is concerned (`Machine.Kept.forget`).
* `Machine.Declares m name` says that a value can be bound to `name`: it is declared in the
  innermost scope, unless there is no scope at all. This survives whatever keeps the machine.
-/

namespace ScopeScript

/-! ### Entries and scopes -/

/-- What may happen to an entry: it can be bound anew, but does not lose its value, and a parameter
stays one. -/
structure Entry.Kept (e e' : Entry) : Prop where
  value : e.value.isSome → e'.value.isSome
  isParam : e'.info.isParam = e.info.isParam

namespace Entry.Kept

theorem refl (e : Entry) : e.Kept e := ⟨id, rfl⟩

theorem trans {a b c : Entry} (hab : a.Kept b) (hbc : b.Kept c) : a.Kept c :=
  ⟨fun h => hbc.value (hab.value h), hbc.isParam.trans hab.isParam⟩

end Entry.Kept

/-- What may happen to the innermost scope: names can be added, and the entries that are there are
kept. -/
structure Scope.Kept (s s' : Scope) : Prop where
  id : s'.id = s.id
  entry : ∀ {name e}, s.find? name = some e → ∃ e', s'.find? name = some e' ∧ e.Kept e'

namespace Scope.Kept

theorem refl (s : Scope) : s.Kept s := ⟨rfl, fun h => ⟨_, h, Entry.Kept.refl _⟩⟩

theorem trans {a b c : Scope} (hab : a.Kept b) (hbc : b.Kept c) : a.Kept c where
  id := hbc.id.trans hab.id
  entry h := by
    obtain ⟨e₁, h₁, hk₁⟩ := hab.entry h
    obtain ⟨e₂, h₂, hk₂⟩ := hbc.entry h₁
    exact ⟨e₂, h₂, hk₁.trans hk₂⟩

theorem insert {s : Scope} {e : Entry} (hnew : s.find? e.name = none) : s.Kept (s.insert e) where
  id := rfl
  entry := by
    intro name old h
    have hne : name ≠ e.name := by
      rintro rfl
      rw [hnew] at h
      cases h
    exact ⟨old, (s.find?_insert_of_ne e hne).trans h, .refl old⟩

theorem replace {s : Scope} {e : Entry} (hkept : ∀ old, s.find? e.name = some old → old.Kept e) :
    s.Kept (s.replace e) where
  id := rfl
  entry := by
    intro name old h
    rw [s.find?_replace, h, Option.map_some]
    by_cases hname : name = e.name
    · subst hname
      exact ⟨e, by rw [if_pos rfl], hkept old h⟩
    · exact ⟨old, by rw [if_neg hname], .refl old⟩

/-- A name that an earlier state of the scope did not have can be removed again. -/
theorem erase {s s₁ s₂ : Scope} {name : String} (hnew : s.find? name = none) (h₁ : s.Kept s₁)
    (h₂ : s₁.Kept s₂) : s.Kept (s₂.erase name) where
  id := (h₁.trans h₂).id
  entry := by
    intro other e h
    obtain ⟨e', h', hk⟩ := (h₁.trans h₂).entry h
    have hne : other ≠ name := by
      rintro rfl
      rw [hnew] at h
      cases h
    exact ⟨e', (s₂.find?_erase_of_ne hne).trans h', hk⟩

end Scope.Kept

/-! ### Stacks -/

/-- What may happen to the open scopes, innermost first: only the innermost one changes. -/
inductive StackKept : List Scope → List Scope → Prop where
  | empty : StackKept [] []
  | innermost {s s' : Scope} {outer : List Scope} (h : s.Kept s') :
    StackKept (s :: outer) (s' :: outer)

namespace StackKept

variable {a b c : List Scope}

theorem refl : ∀ a : List Scope, StackKept a a
  | [] => .empty
  | s :: _ => .innermost (.refl s)

theorem trans (hab : StackKept a b) (hbc : StackKept b c) : StackKept a c := by
  cases hab with
  | empty => exact hbc
  | innermost h₁ =>
    cases hbc with
    | innermost h₂ => exact .innermost (h₁.trans h₂)

theorem length_eq (h : StackKept a b) : b.length = a.length := by
  cases h <;> rfl

theorem tail_eq (h : StackKept a b) : b.tail = a.tail := by
  cases h <;> rfl

theorem ids_eq (h : StackKept a b) : b.map (·.id) = a.map (·.id) := by
  cases h with
  | empty => rfl
  | innermost h => rw [List.map_cons, List.map_cons, h.id]

theorem eq_nil_iff (h : StackKept a b) : b = [] ↔ a = [] := by
  cases h <;> simp

/-- Above scopes that are kept stands the scope that was opened on them, and nothing else. -/
theorem exists_of_cons {s : Scope} {outer : List Scope} (h : StackKept (s :: outer) b) :
    ∃ s', b = s' :: outer ∧ s.Kept s' := by
  cases h with
  | innermost h => exact ⟨_, rfl, h⟩

end StackKept

/-! ### Machines -/

namespace Machine

/-- The machine with the given scopes open and with events added to its log. -/
def withScopes (m : Machine) (scopes : List Scope) (events : List Event) : Machine :=
  { m with
    scopes := { m.scopes with scopes }
    log := events ++ m.log }

@[simp] theorem withScopes_scopes (m : Machine) (scopes : List Scope) (events : List Event) :
    (m.withScopes scopes events).scopes.scopes = scopes := rfl

@[simp] theorem withScopes_withScopes (m : Machine) (a b : List Scope) (xs ys : List Event) :
    (m.withScopes a xs).withScopes b ys = m.withScopes b (ys ++ xs) := by
  simp only [withScopes, List.append_assoc]

theorem withScopes_self (m : Machine) {scopes : List Scope} (h : m.scopes.scopes = scopes) :
    m.withScopes scopes [] = m := by
  subst h
  rfl

/-- What evaluation does to a machine as far as scopes and depth are concerned. -/
structure Kept (m m' : Machine) : Prop where
  stack : StackKept m.scopes.scopes m'.scopes.scopes
  depth : m'.depth = m.depth

/-- A value can be bound to the name, or there is no scope in which anything could be bound. -/
def Declares (m : Machine) (name : String) : Prop :=
  m.scopes.scopes = [] ∨ ∃ e, m.scopes.find? name = some e

namespace Kept

variable {a b c m m' : Machine}

theorem refl (m : Machine) : m.Kept m := ⟨.refl _, rfl⟩

theorem trans (hab : a.Kept b) (hbc : b.Kept c) : a.Kept c :=
  ⟨hab.stack.trans hbc.stack, hbc.depth.trans hab.depth⟩

/-- Heap, console and log are free to change. -/
theorem of_eq (hs : m'.scopes.scopes = m.scopes.scopes) (hd : m'.depth = m.depth) : m.Kept m' :=
  ⟨hs ▸ StackKept.refl _, hd⟩

theorem ids_eq (h : m.Kept m') : m'.scopes.ids = m.scopes.ids := h.stack.ids_eq

/-- An entry of the innermost scope is still there. -/
theorem find? (h : m.Kept m') {name : String} {e : Entry} (he : m.scopes.find? name = some e) :
    ∃ e', m'.scopes.find? name = some e' ∧ e.Kept e' := by
  have hstack := h.stack
  unfold ScopeStack.find? at he ⊢
  cases hs : m.scopes.scopes with
  | nil =>
    rw [hs] at he
    cases he
  | cons s outer =>
    rw [hs] at hstack he
    obtain ⟨s', hs', hk⟩ := hstack.exists_of_cons
    rw [hs']
    exact hk.entry he

theorem declares (h : m.Kept m') {name : String} (hd : m.Declares name) : m'.Declares name := by
  rcases hd with hnil | ⟨e, he⟩
  · exact .inl (h.stack.eq_nil_iff.mpr hnil)
  · obtain ⟨e', he', -⟩ := h.find? he
    exact .inr ⟨e', he'⟩

end Kept

/-! ### Declaring, binding and removing names -/

/-- Declaring a name does nothing without a scope, and else adds the entry to the innermost one. -/
theorem declare_cases (m : Machine) (e : Entry) (hnew : m.scopes.find? e.name = none) :
    (m.scopes.scopes = [] ∧ m.declare e = m) ∨
      ∃ s outer, m.scopes.scopes = s :: outer ∧ s.find? e.name = none ∧
        m.declare e = m.withScopes (s.insert e :: outer) [.adding e.name e.info.kind] := by
  unfold ScopeStack.find? at hnew
  unfold declare ScopeStack.add?
  cases hs : m.scopes.scopes with
  | nil => exact .inl ⟨rfl, rfl⟩
  | cons s outer =>
    simp only [hs] at hnew
    refine .inr ⟨s, outer, rfl, hnew, ?_⟩
    simp only [hnew]
    rfl

theorem declares_declare (m : Machine) (e : Entry) (hnew : m.scopes.find? e.name = none) :
    (m.declare e).Declares e.name := by
  rcases m.declare_cases e hnew with ⟨hnil, heq⟩ | ⟨s, outer, -, -, heq⟩
  · rw [heq]
    exact .inl hnil
  · rw [heq]
    exact .inr ⟨e, s.find?_insert_self e⟩

namespace Kept

variable {m m' : Machine}

theorem declare {e : Entry} (hnew : m.scopes.find? e.name = none) : m.Kept (m.declare e) := by
  rcases m.declare_cases e hnew with ⟨-, heq⟩ | ⟨s, outer, hs, hfind, heq⟩
  · rw [heq]
    exact .refl m
  · rw [heq]
    exact ⟨hs ▸ .innermost (.insert hfind), rfl⟩

/-- Changing an entry keeps the machine if it keeps the entry. -/
theorem bind {e old : Entry} {stack : ScopeStack} (hold : m.scopes.find? e.name = some old)
    (hkept : old.Kept e) (hchange : m.scopes.change e = .ok stack) :
    m.Kept { m with scopes := stack } := by
  obtain ⟨s, outer, hs, rfl⟩ := ScopeStack.exists_of_change_eq_ok hchange
  simp only [ScopeStack.find?, hs] at hold
  refine ⟨hs ▸ .innermost (.replace ?_), rfl⟩
  intro old' hold'
  rw [hold, Option.some.injEq] at hold'
  exact hold' ▸ hkept

/-- What was declared after `m` can be removed again without `m` noticing. -/
theorem forget {name : String} {info : TypeInfo} {value : Option Value}
    (hnew : m.scopes.find? name = none) (h : (m.declare ⟨name, info, value⟩).Kept m') :
    m.Kept (m'.forget name) := by
  refine ⟨?_, h.depth.trans (declare hnew).depth⟩
  have hstack := h.stack
  unfold Machine.forget ScopeStack.remove
  rcases m.declare_cases ⟨name, info, value⟩ hnew with ⟨hnil, heq⟩ | ⟨s, outer, hs, hfind, heq⟩
  · rw [heq, hnil] at hstack
    rw [hnil, hstack.eq_nil_iff.mpr rfl]
    exact hstack
  · rw [heq] at hstack
    obtain ⟨s', hs', hk⟩ := hstack.exists_of_cons
    rw [hs, hs']
    exact .innermost (.erase hfind (.insert hfind) hk)

end Kept

end Machine

end ScopeScript
