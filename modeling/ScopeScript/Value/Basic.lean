import ScopeScript.Ast.Basic
import ScopeScript.Value.Class

/-!
# Values and the heap

Numbers, truth values, strings and null are plain values. Lists and functions
live in a heap and are named by their place in it: two values that name the same
place share one list or function, and a change made through one is seen through
the other.

Lists are indexed from one. `Heap.setItem?` replaces one element of one list
(`Heap.items_setItem?`), so it keeps the length of every list; an index outside of
the list leaves no heap (`Heap.setItem?_eq_none_iff`).
-/

namespace ScopeScript

/-- Name of a list in the heap. -/
abbrev ListId := Nat

/-- Name of a function in the heap. -/
abbrev FunctionId := Nat

/-- Name of a scope; no two scopes of a run have the same one. -/
abbrev ScopeId := Nat

/-- A value. -/
inductive Value where
  | null
  | int (n : Int64)
  | float (x : Float)
  | bool (b : Bool)
  | str (s : String)
  | list (id : ListId)
  | function (id : FunctionId)
deriving DecidableEq, Inhabited

/-- A function. -/
structure Function where
  params : List String
  body : Expr
  numParams : Nat
  /-- Number of scopes that were open where the function was defined. -/
  scopeDepth : Nat
  /-- The scopes that were open where the function was defined, innermost first. -/
  home : List ScopeId
  /-- Class of the value that the last completed call returned. -/
  lastResult : Option TypeClass := none
deriving Inhabited

/-- All lists and functions made so far, in the order of their making. -/
structure Heap where
  lists : Array (List Value) := #[]
  functions : Array Function := #[]
deriving Inhabited

/-! ### Views of a value -/

namespace Value

/-- The class of a value. -/
def typeClass : Value → TypeClass
  | null => .nothing
  | int _ => .ofInt
  | float _ => .ofFloat
  | bool _ => .ofBool
  | str _ => .ofStr
  | list _ => .ofList
  | function _ => .ofFunction

/-- A truth value as an integer. -/
def boolInt (b : Bool) : Int64 := if b then 1 else 0

/-- The integer that an integer or a truth value stands for. -/
def toInt? : Value → Option Int64
  | int n => some n
  | bool b => some (boolInt b)
  | _ => none

/-- Nearest floating-point number to an integer. -/
def widen (n : Int64) : Float := Float.ofInt n.toInt

/-- The floating-point number that a number or a truth value stands for. -/
def toFloat? : Value → Option Float
  | float x => some x
  | int n => some (widen n)
  | bool b => some (widen (boolInt b))
  | _ => none

/-- Whether a floating-point number is zero, of either sign. -/
def isZeroFloat (x : Float) : Bool := x == Float.ofScientific 0 false 0

/-- Whether a number or a truth value counts as true. -/
def truth? : Value → Option Bool
  | bool b => some b
  | int n => some (n != 0)
  | float x => some (!isZeroFloat x)
  | _ => none

/-- Whether a value is a number or truth value that counts as false. -/
def isZero (v : Value) : Bool := v.truth? == some false

/-- The value of a constant. -/
def ofLiteral : Literal → Value
  | .int n => int n
  | .float x => float x
  | .str s => str s
  | .bool b => bool b

theorem ofLiteral_ne_function (l : Literal) (id : FunctionId) : ofLiteral l ≠ function id := by
  cases l <;> exact Value.noConfusion

end Value

/-! ### Lists and functions -/

namespace Heap

/-- Makes a list. -/
def newList (h : Heap) (items : List Value) : ListId × Heap :=
  (h.lists.size, { h with lists := h.lists.push items })

/-- Makes a function. -/
def newFunction (h : Heap) (f : Function) : FunctionId × Heap :=
  (h.functions.size, { h with functions := h.functions.push f })

/-- The elements of a list. -/
def items (h : Heap) (id : ListId) : List Value :=
  h.lists[id]?.getD []

/-- The slot, counted from zero, of an index counted from one. -/
def slot? (index : Int64) : Option Nat :=
  if 0 < index.toInt then some (index.toInt.toNat - 1) else none

/-- The element of a list at an index. -/
def item? (h : Heap) (id : ListId) (index : Int64) : Option Value :=
  (slot? index).bind fun i => (h.items id)[i]?

theorem mem_items_of_item? {h : Heap} {id : ListId} {index : Int64} {v : Value}
    (hitem : h.item? id index = some v) : v ∈ h.items id := by
  obtain ⟨i, -, hi⟩ := Option.bind_eq_some_iff.mp hitem
  exact List.mem_of_getElem? hi

/-- Replaces the element of a list at an index, if there is one. -/
def setItem? (h : Heap) (id : ListId) (index : Int64) (v : Value) : Option Heap :=
  match slot? index with
  | some i =>
    if i < (h.items id).length then
      some { h with lists := h.lists.modify id (·.set i v) }
    else none
  | none => none

theorem setItem?_eq_none_iff (h : Heap) (id : ListId) (index : Int64) (v : Value) :
    h.setItem? id index v = none ↔ h.item? id index = none := by
  simp only [setItem?, item?]
  cases slot? index with
  | none => simp
  | some i => by_cases hi : i < (h.items id).length <;> simp [hi]

/-- A function of the heap. -/
def function? (h : Heap) (id : FunctionId) : Option Function :=
  h.functions[id]?

/-- Notes the class of what a function returned. -/
def noteResult (h : Heap) (id : FunctionId) (c : TypeClass) : Heap :=
  { h with functions := h.functions.modify id fun f => { f with lastResult := some c } }

/-- Type information on a value. -/
def typeInfo (h : Heap) : Value → TypeInfo
  | .function id =>
    match h.function? id with
    | some f => .function f.numParams f.lastResult
    | none => .plain .ofFunction
  | v => .plain v.typeClass

@[simp] theorem items_newList (h : Heap) (vs : List Value) :
    (h.newList vs).2.items (h.newList vs).1 = vs := by
  simp [newList, items]

theorem items_newList_of_ne (h : Heap) (vs : List Value) {other : ListId}
    (hne : other ≠ (h.newList vs).1) : (h.newList vs).2.items other = h.items other := by
  have hsize : other ≠ h.lists.size := hne
  simp [newList, items, Array.getElem?_push, hsize]

/-- Storing an element changes one slot of one list, and nothing else. -/
theorem items_setItem? {h h' : Heap} {id : ListId} {index : Int64} {v : Value}
    (hset : h.setItem? id index v = some h') (other : ListId) :
    ∃ i, slot? index = some i ∧ i < (h.items id).length ∧
      h'.items other = if id = other then (h.items other).set i v else h.items other := by
  simp only [setItem?] at hset
  cases hi : slot? index with
  | none => simp [hi] at hset
  | some i =>
    simp only [hi] at hset
    by_cases hlt : i < (h.items id).length
    · rw [if_pos hlt] at hset
      obtain rfl := Option.some.inj hset
      refine ⟨i, rfl, hlt, ?_⟩
      simp only [items, Array.getElem?_modify]
      split
      · cases h.lists[other]? <;> simp
      · rfl
    · rw [if_neg hlt] at hset
      cases hset

theorem mem_items_setItem? {h h' : Heap} {id other : ListId} {index : Int64} {v w : Value}
    (hset : h.setItem? id index v = some h') (hw : w ∈ h'.items other) :
    w ∈ h.items other ∨ w = v := by
  obtain ⟨i, -, -, hitems⟩ := items_setItem? hset other
  rw [hitems] at hw
  split at hw
  · exact List.mem_or_eq_of_mem_set hw
  · exact .inl hw

theorem length_items_setItem? (h h' : Heap) (id other : ListId) (index : Int64) (v : Value)
    (hset : h.setItem? id index v = some h') :
    (h'.items other).length = (h.items other).length := by
  obtain ⟨i, -, -, hitems⟩ := items_setItem? hset other
  rw [hitems]
  split
  · exact List.length_set
  · rfl

end Heap

end ScopeScript
