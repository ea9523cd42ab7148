import ScopeScript.Value.Basic

/-!
# Scopes

A scope binds names to values; a name occurs in it at most once. The open scopes
form a stack, innermost first. Names are declared, changed and removed in the
innermost scope only, and are looked up either there or from the innermost scope
outwards.

While a function runs, the scopes opened after its definition are set aside:
`ScopeStack.detach` keeps the outermost scopes and hands back the others, and
`ScopeStack.reattach` puts these back (`reattach_detach`).

Every scope has an identity that no other scope of the same stack ever gets, so
that two activations of one function can be told apart.
-/

namespace ScopeScript

/-- A name, what is known about it, and its value unless that is still to come. -/
structure Entry where
  name : String
  info : TypeInfo
  value : Option Value
deriving DecidableEq, Inhabited

/-- An entry for a name whose value is still to come. -/
def Entry.placeholder (name : String) : Entry :=
  ⟨name, .placeholder, none⟩

/-! ### One scope -/

/-- A set of bindings. -/
structure Scope where
  id : ScopeId
  entries : List Entry := []
deriving DecidableEq, Inhabited

namespace Scope

/-- The entry of a name. -/
def find? (s : Scope) (name : String) : Option Entry :=
  s.entries.find? (·.name == name)

/-- Adds an entry for a new name. -/
def insert (s : Scope) (e : Entry) : Scope :=
  { s with entries := e :: s.entries }

/-- Puts an entry in the place of the one with the same name. -/
def replace (s : Scope) (e : Entry) : Scope :=
  { s with entries := s.entries.map fun old => if old.name == e.name then e else old }

/-- Removes a name. -/
def erase (s : Scope) (name : String) : Scope :=
  { s with entries := s.entries.filter (·.name != name) }

theorem find?_insert_self (s : Scope) (e : Entry) : (s.insert e).find? e.name = some e := by
  simp [insert, find?]

theorem find?_insert_of_ne (s : Scope) (e : Entry) {name : String} (h : name ≠ e.name) :
    (s.insert e).find? name = s.find? name := by
  simp [insert, find?, h.symm]

theorem find?_erase_self (s : Scope) (name : String) : (s.erase name).find? name = none := by
  simp [erase, find?]

theorem find?_erase_of_ne (s : Scope) {name other : String} (h : other ≠ name) :
    (s.erase name).find? other = s.find? other := by
  simp only [erase, find?, List.find?_filter]
  congr 1
  funext e
  by_cases he : e.name = other
  · simp [he, h]
  · simp [he]

/-- Replacing changes the entry of one name, if the name has one, and of no other name. -/
theorem find?_replace (s : Scope) (e : Entry) (name : String) :
    (s.replace e).find? name = (s.find? name).map fun old => if name = e.name then e else old := by
  simp only [replace, find?]
  induction s.entries with
  | nil => rfl
  | cons old es ih =>
    rw [List.map_cons, List.find?_cons, List.find?_cons, ih]
    by_cases hhere : old.name = name
    · subst hhere
      by_cases hold : old.name = e.name <;> simp [hold]
    · have hbeq : (old.name == name) = false := by simpa using hhere
      by_cases hold : old.name = e.name
      · rw [hold] at hbeq
        simp only [hold, beq_self_eq_true, if_true, hbeq]
      · simp only [beq_eq_false_iff_ne.mpr hold, Bool.false_eq_true, if_false, hbeq]

end Scope

/-! ### The stack -/

/-- The open scopes, innermost first, and the identity of the next one. -/
structure ScopeStack where
  scopes : List Scope
  fresh : ScopeId
deriving DecidableEq, Inhabited

/-- Why a scope cannot be closed. -/
inductive CloseError where
  | emptyStack
deriving DecidableEq

/-- The message for a scope that cannot be closed. -/
def CloseError.message : CloseError → String
  | emptyStack => "Cannot pop from empty scope stack"

/-- Why a name cannot be changed. -/
inductive BindError where
  | noScope
  | notDeclared (name : String)
deriving DecidableEq

/-- The message for a name that cannot be changed. -/
def BindError.message : BindError → String
  | noScope => "No scope to bind in"
  | notDeclared name => "Name '" ++ name ++ "' not declared in current scope"

namespace ScopeStack

/-- A stack with the global scope only. -/
def initial : ScopeStack := ⟨[⟨0, []⟩], 1⟩

/-- Number of open scopes. -/
def depth (s : ScopeStack) : Nat := s.scopes.length

/-- Identities of the open scopes, innermost first. -/
def ids (s : ScopeStack) : List ScopeId := s.scopes.map (·.id)

/-- Opens a scope. -/
def push (s : ScopeStack) : ScopeStack :=
  ⟨⟨s.fresh, []⟩ :: s.scopes, s.fresh + 1⟩

/-- Closes the innermost scope. -/
def pop (s : ScopeStack) : Except CloseError ScopeStack :=
  match s.scopes with
  | [] => .error .emptyStack
  | _ :: rest => .ok { s with scopes := rest }

/-- The entry of a name in the innermost scope. -/
def find? (s : ScopeStack) (name : String) : Option Entry :=
  match s.scopes with
  | [] => none
  | scope :: _ => scope.find? name

/-- The entry of a name in the innermost scope that has one. -/
def findAny? (s : ScopeStack) (name : String) : Option Entry :=
  s.scopes.findSome? (·.find? name)

/-- The value of a name, as seen from the innermost scope. -/
def lookup? (s : ScopeStack) (name : String) : Option Value :=
  (s.findAny? name).bind (·.value)

/-- Declares a name in the innermost scope, unless there is no scope or the name is taken. -/
def add? (s : ScopeStack) (e : Entry) : Option ScopeStack :=
  match s.scopes with
  | [] => none
  | scope :: rest =>
    match scope.find? e.name with
    | some _ => none
    | none => some { s with scopes := scope.insert e :: rest }

/-- Changes the entry of a name declared in the innermost scope. -/
def change (s : ScopeStack) (e : Entry) : Except BindError ScopeStack :=
  match s.scopes with
  | [] => .error .noScope
  | scope :: rest =>
    match scope.find? e.name with
    | some _ => .ok { s with scopes := scope.replace e :: rest }
    | none => .error (.notDeclared e.name)

/-- Removes a name from the innermost scope. -/
def remove (s : ScopeStack) (name : String) : ScopeStack :=
  match s.scopes with
  | [] => s
  | scope :: rest => { s with scopes := scope.erase name :: rest }

/-- Number of names in the innermost scope. -/
def numEntries (s : ScopeStack) : Nat :=
  match s.scopes with
  | [] => 0
  | scope :: _ => scope.entries.length

/-- Number of scopes above the outermost `depth` ones. -/
def above (s : ScopeStack) (depth : Nat) : Nat := s.depth - depth

/-- Keeps the outermost `depth` scopes and hands back the others, innermost first. -/
def detach (s : ScopeStack) (depth : Nat) : List Scope × ScopeStack :=
  (s.scopes.take (s.above depth), { s with scopes := s.scopes.drop (s.above depth) })

/-- Puts scopes back on top. -/
def reattach (s : ScopeStack) (hidden : List Scope) : ScopeStack :=
  { s with scopes := hidden ++ s.scopes }

/-- Closes every scope. -/
def clear (s : ScopeStack) : ScopeStack :=
  { s with scopes := [] }

/-- The innermost scope is the first one to be searched. -/
theorem lookup?_of_find? {s : ScopeStack} {name : String} {e : Entry} (h : s.find? name = some e) :
    s.lookup? name = e.value := by
  unfold find? at h
  unfold lookup? findAny?
  cases hs : s.scopes with
  | nil =>
    rw [hs] at h
    cases h
  | cons scope rest =>
    simp only [hs] at h
    simp only [List.findSome?_cons, h, Option.bind_some]

/-- A name that is declared in the innermost scope can be changed there. -/
theorem change_of_find? {s : ScopeStack} {e old : Entry} (h : s.find? e.name = some old) :
    ∃ s', s.change e = .ok s' := by
  unfold find? at h
  unfold change
  cases hs : s.scopes with
  | nil =>
    rw [hs] at h
    cases h
  | cons scope rest =>
    simp only [hs] at h
    simp only [h]
    exact ⟨_, rfl⟩

/-- Changing an entry replaces it in the innermost scope. -/
theorem exists_of_change_eq_ok {s s' : ScopeStack} {e : Entry} (h : s.change e = .ok s') :
    ∃ scope rest, s.scopes = scope :: rest ∧ s' = { s with scopes := scope.replace e :: rest } := by
  unfold change at h
  cases hs : s.scopes with
  | nil =>
    simp only [hs] at h
    cases h
  | cons scope rest =>
    simp only [hs] at h
    split at h
    · cases h
      exact ⟨scope, rest, rfl, rfl⟩
    · cases h

theorem reattach_detach (s : ScopeStack) (depth : Nat) :
    (s.detach depth).2.reattach (s.detach depth).1 = s := by
  simp [detach, reattach]

theorem depth_detach (s : ScopeStack) (depth : Nat) :
    (s.detach depth).2.depth = min depth s.depth := by
  simp only [detach, ScopeStack.depth, above, List.length_drop]
  omega

end ScopeStack

end ScopeScript
