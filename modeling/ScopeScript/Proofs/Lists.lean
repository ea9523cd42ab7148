import ScopeScript.Proofs.Tables

/-!
# The lists of a session

A list is shared by all names that are bound to it, and any value that is no list can be stored in
its elements. So a list keeps the length that it was made with, and no list is inside of another:
the heap has neither nesting nor cycles.

`Heap.Writes` is the text of a value by recursion through the elements of lists, without a bound on
how far the recursion goes: only a value for which it comes to an end has a text. In a heap without
nesting every value has one, the one that `Heap.text` gives (`Heap.IsSound.writes_text`).

Main statement: `Session.lists_flat_and_fixed`.
-/

namespace ScopeScript

open Eval

/-! ### Text without a bound -/

namespace Heap

/-- The text of a value is that of its elements, if it is a list, and these have texts in turn. -/
inductive Writes (h : Heap) : Value → List Char → Prop where
  | plain {v : Value} (hv : ∀ id, v ≠ .list id) : Writes h v (plainText v)
  | list {id : ListId} (texts : Value → List Char)
      (hitems : ∀ v ∈ h.items id, Writes h v (texts v)) :
      Writes h (.list id) (listText ((h.items id).map texts))

theorem textWithin_of_not_list (h : Heap) (fuel : Nat) {v : Value} (hv : ∀ id, v ≠ .list id) :
    h.textWithin fuel v = plainText v := by
  cases fuel with
  | zero => rfl
  | succ fuel =>
    cases v with
    | list id => exact absurd rfl (hv id)
    | _ => rfl

/-- Where no list is inside of another, every value has a text. -/
theorem IsSound.writes_text {h : Heap} (hs : h.IsSound) {v : Value} (hv : h.Knows v) :
    h.Writes v (h.text v) := by
  cases v with
  | list id =>
    obtain ⟨fuel, hfuel⟩ : ∃ fuel, h.lists.size = fuel + 1 :=
      ⟨h.lists.size - 1, (Nat.succ_pred_eq_of_pos (Nat.zero_lt_of_lt hv)).symm⟩
    rw [text, hfuel, textWithin]
    refine .list _ fun v hitem => ?_
    have hflat := (hs.item id v hitem).2
    rw [h.textWithin_of_not_list fuel hflat]
    exact .plain hflat
  | _ =>
    rw [text, textWithin_of_not_list _ _ fun _ => Value.noConfusion]
    exact .plain fun _ => Value.noConfusion

end Heap

/-- A program completes with a value at hand, and only the console is left to change. -/
theorem Law.Closes.of_completed {lim : Limits} {L : Law lim} {m m' : Machine} {v : Value}
    {r : Ending × Machine} (hr : r = (.completed v, m')) (h : L.Closes m r) :
    L.Fits m v ∧ ∃ c, m' = { m with console := c } := by
  cases h with
  | @completed w hw =>
    obtain ⟨c, heq | heq⟩ := flushed_cases (.completed w) m
    · rw [heq] at hr
      cases hr
      exact ⟨hw, c, rfl⟩
    · rw [heq] at hr
      cases hr
  | quit =>
    obtain ⟨c, heq | heq⟩ := flushed_cases .quit m
    · rw [heq] at hr
      cases hr
    · rw [heq] at hr
      cases hr
  | failed => cases hr
  | unfinished => cases hr

namespace Session

variable {s : Session}

/-! ### Values of a session -/

/-- The values that a session has at hand on a machine: those of names, those of elements, the value
of an expression that was just evaluated, and the value that a program has completed with. -/
inductive Holds (s : Session) : Machine → Value → Prop where
  | name {aside : List Scope} {m : Machine} {scope : Scope} {e : Entry} {v : Value}
      (h : s.Reaches aside m) (hscope : scope ∈ m.scopes.scopes ++ aside) (he : e ∈ scope.entries)
      (hv : e.value = some v) : Holds s m v
  | item {aside : List Scope} {m : Machine} {id : ListId} {v : Value} (h : s.Reaches aside m)
      (hv : v ∈ m.heap.items id) : Holds s m v
  | value {t : Moment} {m : Machine} {v : Value} (h : s.Visits t)
      (hv : within s.limits t.room t.expr t.machine = .ok v m) : Holds s m v
  | result {before after : List Program} {p : Program} {m : Machine} {v : Value}
      (h : s.programs = before ++ p :: after)
      (hv : (s.start.runAll s.limits before).run s.limits p = (.completed v, m)) : Holds s m v

/-- A session has only values at hand that its machine knows. -/
theorem Holds.knows {m : Machine} {v : Value} (h : s.Holds m v) (hread : s.IsRead) :
    m.heap.IsSound ∧ m.heap.Knows v := by
  cases h with
  | name h hscope he hv =>
    have hsound := h.isSound hread
    exact ⟨hsound.heap, (((hsound.scope _ hscope).entry _ he).bound v hv).1⟩
  | item h hv =>
    have hsound := h.isSound hread
    exact ⟨hsound.heap, (hsound.heap.item _ v hv).1⟩
  | @value t _ _ h hv =>
    have hobeys := h.obeys_sound hread
    have hended := Law.within t.room hobeys.inv hobeys.room hobeys.admits
    rw [hv] at hended
    exact ⟨hended.1.inv.heap, hended.2⟩
  | @result before after p _ _ h hv =>
    have hpause : (s.start.runAll s.limits before).IsSound [] :=
      Pauses.isSound ⟨before, p :: after, h, rfl⟩ hread
    have hmem : p ∈ s.programs := h ▸ List.mem_append_right _ List.mem_cons_self
    obtain ⟨m', hleads, hcloses⟩ := (Law.sound s.limits []).run (hread.isShaped p hmem) hpause
    obtain ⟨hfits, c, rfl⟩ := Law.Closes.of_completed hv hcloses
    exact ⟨hleads.inv.heap, hfits⟩

/-- A list expression makes a new list of its constants. -/
theorem within_list (lim : Limits) (room : Nat) (span : Span) (items : List Literal) (m : Machine) :
    ∃ m', within lim (room + 1) (.list span items) m = .ok (.list m.heap.lists.size) m' ∧
      m.heap.lists.size < m'.heap.lists.size ∧
      m'.heap.items m.heap.lists.size = items.map .ofLiteral := by
  refine ⟨_, rfl, ?_, m.heap.items_newList (items.map .ofLiteral)⟩
  show m.heap.lists.size < (m.heap.lists.push _).size
  rw [Array.size_push]
  exact Nat.lt_succ_self _

/-- **The lists of a session of programs that were read are flat, and keep their lengths.** On every
machine of the session, each list has an element, none of its elements is a list, and the list is
still there in the end. On any two machines that have it, it has the same length, which for a list
that an expression makes is the number of constants in the expression. The text of every value at
hand is found by a recursion that comes to an end. -/
theorem lists_flat_and_fixed (s : Session) (hread : s.IsRead) :
    (∀ aside m, s.Reaches aside m → ∀ id < m.heap.lists.size,
        m.heap.items id ≠ [] ∧ (∀ v ∈ m.heap.items id, ∀ other, v ≠ .list other) ∧
          id < s.final.heap.lists.size) ∧
      (∀ aside m aside' m', s.Reaches aside m → s.Reaches aside' m' → ∀ id < m.heap.lists.size,
        id < m'.heap.lists.size → (m'.heap.items id).length = (m.heap.items id).length) ∧
      (∀ room aside span items m, s.Visits ⟨room + 1, aside, .list span items, m⟩ →
        ∃ m', within s.limits (room + 1) (.list span items) m = .ok (.list m.heap.lists.size) m' ∧
          m'.heap.items m.heap.lists.size = items.map .ofLiteral ∧
          (s.final.heap.items m.heap.lists.size).length = items.length) ∧
      ∀ m v, s.Holds m v → m.heap.Writes v (m.heap.text v) := by
  refine ⟨?_, ?_, ?_, ?_⟩
  · intro aside m hm id hid
    have hsound := (hm.isSound hread).heap
    exact ⟨hsound.list id hid, fun v hv => (hsound.item id v hv).2, (hm.continues.lists id hid).1⟩
  · intro aside m aside' m' hm hm' id hid hid'
    exact (hm'.continues.lists id hid').2.symm.trans (hm.continues.lists id hid).2
  · intro room aside span items m hvisits
    obtain ⟨m', hwithin, hid, hitems⟩ := within_list s.limits room span items m
    have hends : s.Reaches aside m' := by
      have hafter := Reaches.ends hvisits
      rwa [Moment.after, after_of_ok hwithin] at hafter
    refine ⟨m', hwithin, hitems, ?_⟩
    rw [(hends.continues.lists _ hid).2, hitems, List.length_map]
  · intro m v hv
    obtain ⟨hsound, hknows⟩ := hv.knows hread
    exact hsound.writes_text hknows

/-- The program `x <- list(1, 2)`, and after it `y <- x; y[[2]] <- function() { 3 }`, which stores a
function in the list through its other name. -/
def aliasing : Session where
  limits := {}
  console := {}
  programs :=
    [[.assign ⟨0, 15⟩ "x" (.list ⟨5, 15⟩ [.int 1, .int 2])],
      [.assign ⟨0, 6⟩ "y" (.var ⟨5, 6⟩ "x"),
        .assignAt ⟨8, 34⟩ "y" (.literal ⟨11, 12⟩ (.int 2))
          (.function ⟨18, 34⟩ [] (.block ⟨29, 34⟩ [.literal ⟨31, 32⟩ (.int 3)]))]]

theorem isRead_aliasing : aliasing.IsRead := by
  intro p hp
  rcases List.mem_cons.mp hp with rfl | hp
  · exact ⟨"x <- list(1, 2)".toList, rfl⟩
  · obtain rfl := List.mem_singleton.mp hp
    exact ⟨"y <- x; y[[2]] <- function() { 3 }".toList, rfl⟩

/-- The list is as long between the two programs as it is in the end, and has a text. -/
theorem lists_flat_and_fixed_aliasing :
    ∃ m, aliasing.IsRead ∧ aliasing.Reaches [] m ∧ m.heap.items 0 = [.int 1, .int 2] ∧
      aliasing.final.heap.items 0 = [.int 1, .function 0] ∧
      (aliasing.final.heap.items 0).length = (m.heap.items 0).length ∧
      aliasing.final.heap.Writes (.list 0) "( 1  )".toList := by
  obtain ⟨-, hfixed, -, htext⟩ := lists_flat_and_fixed aliasing isRead_aliasing
  have hmid :
      aliasing.Reaches [] (aliasing.start.runAll aliasing.limits (aliasing.programs.take 1)) :=
    .pause ⟨_, aliasing.programs.drop 1, (List.take_append_drop _ _).symm, rfl⟩
  have hend : aliasing.Reaches [] aliasing.final := .pause ⟨_, [], (List.append_nil _).symm, rfl⟩
  have hscope :
      ⟨0, [⟨"y", .plain .ofList, some (.list 0)⟩, ⟨"x", .plain .ofList, some (.list 0)⟩]⟩ ∈
    aliasing.final.scopes.scopes ++ [] := by decide +kernel
  have hholds : aliasing.Holds aliasing.final (.list 0) := .name hend hscope List.mem_cons_self rfl
  have hwrites := htext _ _ hholds
  rw [show aliasing.final.heap.text (.list 0) = "( 1  )".toList by decide +kernel] at hwrites
  exact ⟨_, isRead_aliasing, hmid, by decide +kernel, by decide +kernel,
    hfixed _ _ _ _ hmid hend 0 (by decide +kernel) (by decide +kernel), hwrites⟩

end Session

end ScopeScript
