import ScopeScript.Proofs.Lists
import ScopeScript.Proofs.Abandoned
import ScopeScript.Proofs.Courses
import ScopeScript.Proofs.Truncation

/-!
# Storing into lists

An assignment to an element looks its target up when index and value have been evaluated: the list
that the name is bound to by then, in the innermost scope, is the one it changes. Names hold lists
by their place in the heap, so what one name stores is what all names of the list read.

* `Heap.Replaces`: one element of one list is replaced, and no other element of any list.
* `Eval.Violates`: what an assignment to an element can find fault with, in the order in which it
  looks.
* `Eval.expr_assignAt_cases`: the assignment finds fault and changes nothing, or it replaces the
  element, prints the list and has the list for its value, unless the line is refused.
* `Eval.readsAt`: an element expression reads what the heap has in that place, by whatever name and
  from whatever scope.
* `Session.expr_list`: a list expression makes a list that no value at hand is or holds.
-/

namespace ScopeScript

open Eval

/-! ### Elements -/

namespace Heap

variable {h h' : Heap} {id : ListId} {k j : Int64} {v : Value}

/-- The list has an element at this index, counted from one. -/
def HasIndex (h : Heap) (id : ListId) (k : Int64) : Prop :=
  1 ≤ k.toInt ∧ k.toInt ≤ (h.items id).length

/-- The heaps have the same lists, but for the element of one list at one index. -/
structure Replaces (h h' : Heap) (id : ListId) (k : Int64) (v : Value) : Prop where
  index : h.HasIndex id k
  items : h'.items id = (h.items id).set (k.toInt.toNat - 1) v
  others : ∀ other, other ≠ id → h'.items other = h.items other

theorem item?_of_hasIndex (hk : h.HasIndex id k) :
    h.item? id k = (h.items id)[k.toInt.toNat - 1]? := by
  have hslot : slot? k = some (k.toInt.toNat - 1) := if_pos hk.1
  rw [item?, hslot]
  rfl

theorem item?_eq_none_iff : h.item? id k = none ↔ ¬ h.HasIndex id k := by
  constructor
  · intro hnone hk
    rw [item?_of_hasIndex hk, List.getElem?_eq_none_iff] at hnone
    have hlower := hk.1
    have hupper := hk.2
    omega
  · intro hk
    rw [item?]
    cases hslot : slot? k with
    | none => rfl
    | some i =>
      unfold slot? at hslot
      split at hslot
      · cases hslot
        refine List.getElem?_eq_none_iff.mpr (Nat.le_of_not_lt fun hlt => hk ⟨?_, ?_⟩) <;> omega
      · cases hslot

/-- An element is there at an index of the list. -/
theorem exists_item (hk : h.HasIndex id k) : ∃ u, (h.items id)[k.toInt.toNat - 1]? = some u := by
  cases hu : (h.items id)[k.toInt.toNat - 1]? with
  | none => exact absurd hk (item?_eq_none_iff.mp ((item?_of_hasIndex hk).trans hu))
  | some u => exact ⟨u, rfl⟩

theorem item?_congr (hlists : h'.lists = h.lists) : h'.item? id k = h.item? id k := by
  rw [item?, item?, Heap.items, Heap.items, hlists]

theorem replaces_of_setItem? (hset : h.setItem? id k v = some h') : h.Replaces h' id k v := by
  obtain ⟨i, hi, -, hitems⟩ := items_setItem? hset id
  have hk : h.HasIndex id k := by
    refine Classical.byContradiction fun hk => ?_
    rw [(setItem?_eq_none_iff h id k v).mpr (item?_eq_none_iff.mpr hk)] at hset
    cases hset
  obtain rfl : k.toInt.toNat - 1 = i := Option.some.inj ((if_pos hk.1).symm.trans hi)
  refine ⟨hk, hitems.trans (if_pos rfl), fun other hne => ?_⟩
  obtain ⟨_, -, -, hother⟩ := items_setItem? hset other
  exact hother.trans (if_neg hne.symm)

namespace Replaces

theorem length_eq (hr : h.Replaces h' id k v) : (h'.items id).length = (h.items id).length := by
  rw [hr.items, List.length_set]

theorem hasIndex_iff (hr : h.Replaces h' id k v) : h'.HasIndex id j ↔ h.HasIndex id j := by
  rw [HasIndex, HasIndex, hr.length_eq]

theorem item?_self (hr : h.Replaces h' id k v) : h'.item? id k = some v := by
  have hlower := hr.index.1
  have hupper := hr.index.2
  rw [item?_of_hasIndex (hr.hasIndex_iff.mpr hr.index), hr.items, List.getElem?_set_self (by omega)]

theorem item?_of_ne (hr : h.Replaces h' id k v) (hne : j ≠ k) (hj : h.HasIndex id j) :
    h'.item? id j = (h.items id)[j.toInt.toNat - 1]? := by
  have hk := hr.index.1
  have hj' := hj.1
  have hplace : k.toInt.toNat - 1 ≠ j.toInt.toNat - 1 :=
    fun heq => hne (Int64.toInt_inj.mp (by omega))
  rw [item?_of_hasIndex (hr.hasIndex_iff.mpr hj), hr.items, List.getElem?_set_ne hplace]

end Replaces

end Heap

/-! ### Reading -/

namespace Eval

variable {lim : Limits} {e index value : Expr} {span : Span} {name : String}
  {m m₁ m₂ : Machine} {i v : Value}

/-- With the lists of the heap, an element expression whose index is `j` has the given value, or
fails because there is no such element, whatever name the list has in whatever scopes, and however
the index is computed. -/
def ReadsAt (lim : Limits) (h : Heap) (id : ListId) (j : Int64) (element : Option Value) : Prop :=
  ∀ span name index w (m m' : Machine),
  expr lim index (m.begin (.element span name index)) = .ok w m' →
    w.toInt? = some j → m'.scopes.lookup? name = some (.list id) → m'.heap.lists = h.lists →
    ∃ m'', expr lim (.element span name index) m = match element with
      | some u => .ok u m''
      | none => .error (.error (.semantic ⟨.subOutOfBounds, none⟩ span)) m''

/-- **An element expression reads** what the heap has in that place. -/
theorem readsAt (lim : Limits) (h : Heap) (id : ListId) (j : Int64) :
    ReadsAt lim h id j (h.item? id j) := by
  intro span name index w m m' hindex hw hlookup hlists
  obtain ⟨room, hroom⟩ := exists_room_of_ok hindex
  have hm : lim.maxDepth - m.depth = lim.maxDepth - (m.depth + 1) + 1 := by
    have hroom' : lim.maxDepth - (m.depth + 1) = room + 1 := hroom
    omega
  have hwithin :
      within lim (lim.maxDepth - (m.depth + 1)) index (m.begin (.element span name index)) =
        .ok w m' :=
    hindex
  rw [expr, hm, within, counted, node, evalElement, bind_of_ok hwithin, get_bind, hlookup]
  dsimp only
  rw [hw]
  dsimp only
  rw [Heap.item?_congr hlists]
  cases h.item? id j <;> exact ⟨_, rfl⟩

/-! ### Assigning to an element -/

/-- What an assignment to an element of the list `name` finds fault with, given the index `i` and
the value `v`: the name has no list in the innermost scope; the value is a list; the index is no
integer; there is no such element. -/
inductive Violates (m : Machine) (name : String) (i v : Value) : SemanticError → Prop where
  | noList (h : ∀ id, m.ownValue? name ≠ some (.list id)) :
      Violates m name i v ⟨.mustBeList, some 1⟩
  | listValue {id other : ListId} (h : m.ownValue? name = some (.list id)) (hv : v = .list other) :
      Violates m name i v ⟨.cannotBeList, some 1⟩
  | noInteger {id : ListId} (h : m.ownValue? name = some (.list id)) (hv : ∀ other, v ≠ .list other)
      (hi : i.toInt? = none) : Violates m name i v ⟨.mustBeInteger, none⟩
  | outOfBounds {id : ListId} {k : Int64} (h : m.ownValue? name = some (.list id))
      (hv : ∀ other, v ≠ .list other) (hi : i.toInt? = some k) (hk : ¬ m.heap.HasIndex id k) :
        Violates m name i v ⟨.subOutOfBounds, none⟩

/-- Storing into a list fails if the index is none of the list, and else replaces the element and
prints the list. -/
theorem store_cases (e : Expr) {id : ListId} (hid : m.ownValue? name = some (.list id))
    (hv : ∀ other, v ≠ .list other) :
    (∃ error, Violates m name i v error ∧
      store e id i v m = .error (.error (.semantic error e.span)) m) ∨
      ∃ k heap, i.toInt? = some k ∧ m.heap.Replaces heap id k v ∧
        store e id i v m = (do printValue (.list id); return .list id : Eval Value)
          ({ m with heap }.note (.stored id k v)) := by
  cases hi : i.toInt? with
  | none =>
    refine .inl ⟨_, .noInteger hid hv hi, ?_⟩
    rw [store, hi]
    rfl
  | some k =>
    cases hset : m.heap.setItem? id k v with
    | none =>
      have hk := Heap.item?_eq_none_iff.mp ((m.heap.setItem?_eq_none_iff id k v).mp hset)
      refine .inl ⟨_, .outOfBounds hid hv hi hk, ?_⟩
      rw [store, hi]
      dsimp only
      rw [get_bind, hset]
      rfl
    | some heap =>
      exact .inr ⟨k, heap, rfl, Heap.replaces_of_setItem? hset, store_of_some e hi hset⟩

/-- A value that is no list is stored into the list of the name. -/
theorem finishAssignment_of_list {id : ListId} (hid : m.ownValue? name = some (.list id))
    (hv : ∀ other, v ≠ .list other) : finishAssignment (.assignAt span name index value) [i, v] m =
      store (.assignAt span name index value) id i v m := by
  have hown : (m.scopes.find? name).bind (·.value) = some (.list id) := hid
  rw [finishAssignment, get_bind, hown]
  cases v with
  | list other => exact absurd rfl (hv other)
  | _ => rfl

theorem finishAssignment_of_noList (h : ∀ id, m.ownValue? name ≠ some (.list id)) :
    finishAssignment (.assignAt span name index value) [i, v] m =
      .error (.error (.semantic ⟨.mustBeList, some 1⟩ span)) m := by
  rw [finishAssignment, get_bind]
  cases hown : (m.scopes.find? name).bind (·.value) with
  | none => rfl
  | some own =>
    cases own with
    | list id => exact absurd hown (h id)
    | _ => rfl

/-- What is done with index and value: the assignment finds fault, or it stores. -/
theorem finishAssignment_cases (span : Span) (name : String) (index value : Expr) (m : Machine)
    (i v : Value) :
    (∃ error, Violates m name i v error ∧
      finishAssignment (.assignAt span name index value) [i, v] m =
        .error (.error (.semantic error span)) m) ∨
      ∃ id k heap, m.ownValue? name = some (.list id) ∧ (∀ other, v ≠ .list other) ∧
      i.toInt? = some k ∧
        m.heap.Replaces heap id k v ∧ finishAssignment (.assignAt span name index value) [i, v] m =
          (do printValue (.list id); return .list id : Eval Value)
            ({ m with heap }.note (.stored id k v)) := by
  by_cases hown : ∃ id, m.ownValue? name = some (.list id)
  · obtain ⟨id, hid⟩ := hown
    by_cases hlist : ∃ other, v = .list other
    · obtain ⟨other, rfl⟩ := hlist
      have hown : (m.scopes.find? name).bind (·.value) = some (.list id) := hid
      refine .inl ⟨_, .listValue hid rfl, ?_⟩
      rw [finishAssignment, get_bind, hown]
      rfl
    · have hv : ∀ other, v ≠ .list other := fun other heq => hlist ⟨other, heq⟩
      rw [finishAssignment_of_list hid hv]
      rcases store_cases (.assignAt span name index value) hid hv with
        hfault | ⟨k, heap, hi, hreplaces, hstore⟩
      · exact .inl hfault
      · exact .inr ⟨id, k, heap, hid, hv, hi, hreplaces, hstore⟩
  · have hnone : ∀ id, m.ownValue? name ≠ some (.list id) := fun id hid => hown ⟨id, hid⟩
    exact .inl ⟨_, .noList hnone, finishAssignment_of_noList hnone⟩

/-- The target of an assignment stays declared where the operands have values. -/
theorem declaring_of_stays {α : Type} {operands : Eval α} {finish : α → Eval Value} {a : α}
    (hfinish : Stays (finish a)) (hoperands : operands (m.declare (.placeholder name)) = .ok a m₁) :
    declaring name (operands >>= finish) m = finish a m₁ := by
  have haction : (operands >>= finish) (m.declare (.placeholder name)) = finish a m₁ :=
    bind_of_ok hoperands
  unfold declaring
  cases hfind : m.scopes.find? name with
  | some old =>
    rw [m.declare_of_find? (.placeholder name) hfind] at haction
    exact haction
  | none =>
    dsimp only
    rw [haction]
    cases hr : finish a m₁ with
    | ok v m' => rfl
    | error stop m' =>
      have hstays := hfinish m₁ stop m' hr
      cases stop with
      | brk | nxt => cases hstays
      | quit | error | unfinished => rfl

/-- What an assignment to an element does is what it does with index and value, once it has
these. -/
theorem expr_assignAt (he : e = .assignAt span name index value)
    (hindex : expr lim index ((m.begin e).declare (.placeholder name)) = .ok i m₁)
    (hvalue : expr lim value m₁ = .ok v m₂) :
    expr lim e m = counted e (fun _ => finishAssignment e [i, v] m₂) m := by
  have hdepth : ((m.begin e).declare (.placeholder name)).depth = m.depth + 1 := by
    unfold Machine.declare
    cases (m.begin e).scopes.add? (.placeholder name) <;> rfl
  obtain ⟨inner, hinner⟩ := exists_room_of_ok hindex
  obtain ⟨room, hroom, hm⟩ : ∃ room, room = lim.maxDepth -
      ((m.begin e).declare (.placeholder name)).depth ∧
      lim.maxDepth - m.depth = room + 1 := ⟨_, rfl, by omega⟩
  have hoperands : [index, value].mapM (within lim room) ((m.begin e).declare (.placeholder name)) =
      .ok [i, v] m₂ := by
    rw [mapM_within _ hroom, List.mapM_cons, bind_of_ok hindex, List.mapM_cons, bind_assoc,
      bind_of_ok hvalue]
    rfl
  have hnode : node lim (within lim room) e (m.begin e) = finishAssignment e [i, v] m₂ := by
    have htarget : e.assignment? = some (name, [index, value]) := by rw [he]; rfl
    rw [node_assignment htarget]
    exact declaring_of_stays (.finishAssignment e [i, v]) hoperands
  rw [expr, hm, within]
  simp only [counted, hnode]

/-- A value is printed on a line of its own, unless the sink refuses the line. -/
theorem printValue_cases (v : Value) (m : Machine) :
    (∃ m', printValue v m = .error (.error (.io .writeRefused)) m') ∨
      printValue v m = .ok () ({ m with
        console := { m.console with
          sink := (m.console.sink.append (String.ofList (m.heap.text v))).append "\n" } }.note
        (.printed (m.heap.text v))) := by
  have hline := Console.printLine_eq (String.ofList (m.heap.text v)) m.console
  by_cases hfull : m.console.sink.isFull
  · rw [if_pos hfull] at hline
    exact .inl ⟨_, printValue_of_error hline⟩
  · rw [if_neg hfull] at hline
    by_cases hthen : (m.console.sink.append (String.ofList (m.heap.text v))).isFull
    · rw [if_pos hthen] at hline
      exact .inl ⟨_, printValue_of_error hline⟩
    · rw [if_neg hthen] at hline
      exact .inr (printValue_of_ok hline)

/-- **An assignment to an element**, once index and value are there, finds fault and changes
nothing, or replaces the element and prints the list, unless the line is refused. -/
theorem expr_assignAt_cases (he : e = .assignAt span name index value)
    (hindex : expr lim index ((m.begin e).declare (.placeholder name)) = .ok i m₁)
    (hvalue : expr lim value m₁ = .ok v m₂) :
    (∃ error, Violates m₂ name i v error ∧ expr lim e m =
        .error (.error (.semantic error span))
          (m₂.finish e (some (.error (.semantic error span))))) ∨
      ∃ id k, m₂.ownValue? name = some (.list id) ∧ (∀ other, v ≠ .list other) ∧ i.toInt? = some k ∧
        ((∃ m₃, expr lim e m = .ok (.list id) m₃ ∧ m₂.heap.Replaces m₃.heap id k v ∧
          m₃.scopes = m₂.scopes ∧
            m₃.console = { m₂.console with
              sink :=
  (m₂.console.sink.append (String.ofList (m₃.heap.text (.list id)))).append "\n" }) ∨
          ∃ m₃, expr lim e m = .error (.error (.io .writeRefused)) m₃) := by
  rw [expr_assignAt he hindex hvalue]
  subst he
  rcases finishAssignment_cases span name index value m₂ i v with
    ⟨error, herror, heq⟩ | ⟨id, k, heap, hid, hv, hi, hreplaces, heq⟩
  · refine .inl ⟨error, herror, ?_⟩
    simp only [counted, heq]
  · refine .inr ⟨id, k, hid, hv, hi, ?_⟩
    rw [heq]
    rcases printValue_cases (.list id) ({ m₂ with heap }.note (.stored id k v)) with
      ⟨m', hrefused⟩ | hprint
    · rw [bind_of_error hrefused]
      exact .inr ⟨_, rfl⟩
    · rw [bind_of_ok hprint]
      exact .inl ⟨_, rfl, hreplaces, rfl, rfl⟩

end Eval

/-! ### Lists and their names in a session -/

namespace Session

variable {s : Session} {m : Machine}

/-- **A list expression makes a list** that is none of the lists there are: no value at hand is it
or holds it. -/
theorem expr_list (hread : s.IsRead) {span : Span} {items : List Literal} {w : Value}
    {m' : Machine} (hw : expr s.limits (.list span items) m = .ok w m') :
    ∃ id, w = .list id ∧ m'.heap.items id = items.map .ofLiteral ∧
      (∀ other < m.heap.lists.size, other ≠ id ∧ m'.heap.items other = m.heap.items other) ∧
      ∀ v, s.Holds m v → v ≠ .list id := by
  obtain ⟨room, hroom⟩ := exists_room_of_ok hw
  rw [expr, hroom] at hw
  cases hw
  refine ⟨_, rfl, m.heap.items_newList _, fun other hother => ?_, fun v hv => ?_⟩
  · have hne : other ≠ m.heap.lists.size := Nat.ne_of_lt hother
    exact ⟨hne, m.heap.items_newList_of_ne _ hne⟩
  · rintro rfl
    exact Nat.lt_irrefl _ (hv.knows hread).2

/-- **Assignments to elements, and names that share a list.** On any machine, let an assignment to
an element have evaluated its index to `i` and then its value to `v`, which has left the machine
`m₂`.

* If the assignment has a value, this is the list that the name is bound to in the innermost scope
  of `m₂`. Its element at the index is replaced, no other element of any list is, and no name is
  bound to another value. By whatever name and from whatever scope, the list reads the new element
  there, the old ones elsewhere, and none beside these. What is printed is the list.
* If it violates a rule, no list has changed, and nothing is printed. The rule is that the name has
  a list, the value is none, and the index is one of the list.
* It ends in one of these two ways, unless the line is refused.

Every evaluation of a list expression makes a list which is none of those there are. In a session of
programs that were read, no value at hand is this list. -/
theorem assignAt_shared (s : Session) (hread : s.IsRead) (m : Machine) :
    (∀ span name index value i m₁ v m₂,
      expr s.limits index ((m.begin (.assignAt span name index value)).declare
        (.placeholder name)) = .ok i m₁ →
      expr s.limits value m₁ = .ok v m₂ →
      (∀ w m₃, expr s.limits (.assignAt span name index value) m = .ok w m₃ →
        ∃ id k, m₂.ownValue? name = some (.list id) ∧ w = .list id ∧ (∀ other, v ≠ .list other) ∧
        i.toInt? = some k ∧
          m₂.heap.Replaces m₃.heap id k v ∧ m₃.scopes = m₂.scopes ∧
          ReadsAt s.limits m₃.heap id k (some v) ∧
          (∀ j, j ≠ k → m₂.heap.HasIndex id j →
            ∃ u, (m₂.heap.items id)[j.toInt.toNat - 1]? = some u ∧
            ReadsAt s.limits m₃.heap id j (some u)) ∧
          (∀ j, ¬ m₂.heap.HasIndex id j → ReadsAt s.limits m₃.heap id j none) ∧
          m₃.console = { m₂.console with
            sink :=
  (m₂.console.sink.append (String.ofList (m₃.heap.text (.list id)))).append "\n" }) ∧
      (∀ error m₃, expr s.limits (.assignAt span name index value) m =
        .error (.error (.semantic error span)) m₃ →
        Violates m₂ name i v error ∧ m₃.heap = m₂.heap ∧ m₃.console = m₂.console ∧ m₂.Silent m₃) ∧
      ((∃ w m₃, expr s.limits (.assignAt span name index value) m = .ok w m₃) ∨
        (∃ error m₃, expr s.limits (.assignAt span name index value) m =
          .error (.error (.semantic error span)) m₃) ∨
        ∃ m₃, expr s.limits (.assignAt span name index value) m =
          .error (.error (.io .writeRefused)) m₃)) ∧
    ∀ span items w m', expr s.limits (.list span items) m = .ok w m' →
      ∃ id, w = .list id ∧ m'.heap.items id = items.map .ofLiteral ∧
        (∀ other < m.heap.lists.size, other ≠ id ∧ m'.heap.items other = m.heap.items other) ∧
        ∀ v, s.Holds m v → v ≠ .list id := by
  refine ⟨?_, fun span items w m' hw => expr_list hread hw⟩
  intro span name index value i m₁ v m₂ hindex hvalue
  rcases expr_assignAt_cases rfl hindex hvalue with
    ⟨error, herror, heq⟩ | ⟨id, k, hid, hv, hi, ⟨m₃, heq, hreplaces, hscopes, hconsole⟩ | ⟨m₃, heq⟩⟩
  · refine ⟨fun w m₃ hok => ?_, fun error' m₃ hfault => ?_, .inr (.inl ⟨_, _, heq⟩)⟩
    · rw [heq] at hok
      cases hok
    · rw [heq] at hfault
      cases hfault
      exact ⟨herror, rfl, rfl, .cons rfl rfl⟩
  · refine ⟨fun w m₄ hok => ?_, fun error' m₄ hfault => ?_, .inl ⟨_, _, heq⟩⟩
    · rw [heq] at hok
      cases hok
      refine ⟨id, k, hid, rfl, hv, hi, hreplaces, hscopes, ?_, fun j hne hj => ?_,
        fun j hj => ?_, hconsole⟩
      · have helement := readsAt s.limits m₃.heap id k
        rwa [hreplaces.item?_self] at helement
      · obtain ⟨u, hu⟩ := Heap.exists_item hj
        have helement := readsAt s.limits m₃.heap id j
        rw [hreplaces.item?_of_ne hne hj, hu] at helement
        exact ⟨u, hu, helement⟩
      · have helement := readsAt s.limits m₃.heap id j
        rwa [Heap.item?_eq_none_iff.mpr (mt hreplaces.hasIndex_iff.mp hj)] at helement
    · rw [heq] at hfault
      cases hfault
  · refine ⟨fun w m₄ hok => ?_, fun error' m₄ hfault => ?_, .inr (.inr ⟨_, heq⟩)⟩
    · rw [heq] at hok
      cases hok
    · rw [heq] at hfault
      cases hfault

/-- The program `x <- list(1, 2); y <- x`. -/
def sharing : Session where
  limits := {}
  console := {}
  programs :=
    [[.assign ⟨0, 15⟩ "x" (.list ⟨5, 15⟩ [.int 1, .int 2]),
      .assign ⟨17, 23⟩ "y" (.var ⟨22, 23⟩ "x")]]

theorem isRead_sharing : sharing.IsRead := by
  intro p hp
  obtain rfl := List.mem_singleton.mp hp
  exact ⟨"x <- list(1, 2); y <- x".toList, rfl⟩

/-- What is stored through `y` is read through `x`, and the list is printed with it. A list
expression makes another list than that of `x`. -/
theorem assignAt_shared_sharing :
    (∃ w m₃, expr {} (.assignAt ⟨0, 12⟩ "y" (.literal ⟨4, 5⟩ (.int 1))
          (.literal ⟨11, 12⟩ (.int 9))) sharing.final = .ok w m₃ ∧
      m₃.console.sink.written = "( 9 2 )\n" ∧
      ∃ m', expr {} (.element ⟨0, 6⟩ "x" (.literal ⟨4, 5⟩ (.int 1))) m₃ = .ok (.int 9) m') ∧
      ∃ id m', expr {} (.list ⟨0, 7⟩ [.int 3]) sharing.final = .ok (.list id) m' ∧
        Value.list 0 ≠ .list id := by
  obtain ⟨hassign, hlist⟩ := assignAt_shared sharing isRead_sharing sharing.final
  constructor
  · obtain ⟨w, m₃, hok⟩ : ∃ w m₃, expr {} (.assignAt ⟨0, 12⟩ "y" (.literal ⟨4, 5⟩ (.int 1))
        (.literal ⟨11, 12⟩ (.int 9))) sharing.final = .ok w m₃ := ⟨_, _, rfl⟩
    obtain ⟨hsuccess, -⟩ := hassign ⟨0, 12⟩ "y" (.literal ⟨4, 5⟩ (.int 1))
      (.literal ⟨11, 12⟩ (.int 9)) _ _ _ _ rfl rfl
    obtain ⟨id, k, hid, -, -, hk, -, -, hreads, -, -, hconsole⟩ := hsuccess w m₃ hok
    cases hid
    cases hk
    cases hok
    refine ⟨_, _, rfl, ?_,
      hreads ⟨0, 6⟩ "x" (.literal ⟨4, 5⟩ (.int 1)) (.int 1) _ _ rfl rfl rfl rfl⟩
    rw [hconsole]
    decide +kernel
  · obtain ⟨w, m', hok⟩ : ∃ w m', expr {} (.list ⟨0, 7⟩ [.int 3]) sharing.final = .ok w m' :=
      ⟨_, _, rfl⟩
    obtain ⟨id, rfl, -, -, hnew⟩ := hlist _ _ w m' hok
    have hscope : ⟨0, [⟨"y", .plain .ofList, some (.list 0)⟩,
        ⟨"x", .plain .ofList, some (.list 0)⟩]⟩ ∈ sharing.final.scopes.scopes ++ [] :=
      List.mem_cons_self
    have hend : sharing.Reaches [] sharing.final := .pause ⟨_, [], (List.append_nil _).symm, rfl⟩
    exact ⟨id, m', hok, hnew _ (.name hend hscope List.mem_cons_self rfl)⟩

end Session

end ScopeScript
