import Mathlib
import ScopeScript.Value.Text

/-!
# Equality of values

Values are compared element by element where they are lists, but for a short cut: a list equals
itself, whatever is in it. In a heap without cycles this comes to an end, within as many steps
inwards as there are lists (`Heap.IsAcyclic.fits`), so `Heap.equal` is the comparison that calls
itself on elements, without any bound (`Heap.IsAcyclic.equal_eq_compareWith`).

Beside it stand three notions that do not mention the short cut:

* `Heap.Matches`: two values agree element by element, down to values that are no lists.
* `Heap.Shares`: a list is found at the same place inside of two values.
* `Heap.HasNaN`: a value is "not a number" or has it somewhere inside.

Equality is symmetric and transitive, since two steps of it, by short cut or by elements, make one
(`Heap.equalWithin_trans`). The short cut matters only where "not a number" is inside of a list that
is found at the same place on both sides (`Heap.IsAcyclic.matches_iff`). Main statement:
`Heap.equal_isPartialEquivalence`.
-/

namespace ScopeScript

/-! ### Floating-point numbers -/

/-- Only "not a number" differs from itself. -/
theorem float_beq_self_iff (x : Float) : (x == x) = true ↔ x.isNaN = false := by
  rw [Float.beq_self_iff, Float.isNaN_eq_decide_eq_nan, decide_eq_false_iff_not]

theorem float_beq_symm {x y : Float} (h : (x == y) = true) : (y == x) = true := by
  rw [Float.beq_iff_ne_nan_and_eq] at h ⊢
  obtain ⟨hx, hy, hxy | hxy | hxy⟩ := h
  · exact ⟨hy, hx, .inl hxy.symm⟩
  · exact ⟨hy, hx, .inr (.inr hxy.symm)⟩
  · exact ⟨hy, hx, .inr (.inl hxy.symm)⟩

theorem float_beq_trans {x y z : Float} (hxy : (x == y) = true) (hyz : (y == z) = true) :
    (x == z) = true := by
  rw [Float.beq_iff_ne_nan_and_eq] at hxy hyz ⊢
  obtain ⟨hx, -, hxy⟩ := hxy
  obtain ⟨-, hz, hyz⟩ := hyz
  refine ⟨hx, hz, ?_⟩
  grind

namespace Heap

/-! ### Heaps without cycles -/

/-- A list is an element of another one. -/
def Contains (h : Heap) (outer inner : ListId) : Prop :=
  .list inner ∈ h.items outer

/-- No list is inside of itself, at any depth, and the elements of lists are in the heap. -/
structure IsAcyclic (h : Heap) : Prop where
  no_cycle : ∀ id, ¬ Relation.TransGen h.Contains id id
  inner_lt : ∀ outer inner, h.Contains outer inner → inner < h.lists.size

/-- A list of the heap, or no list. -/
def Names (h : Heap) (v : Value) : Prop :=
  ∀ id, v = .list id → id < h.lists.size

/-- Less than the given number of lists are inside of each other in a value. -/
def Fits (h : Heap) : Nat → Value → Prop
  | 0, v => ∀ id, v ≠ .list id
  | n + 1, v => ∀ id, v = .list id → ∀ w ∈ h.items id, h.Fits n w

variable {h : Heap}

theorem fits_of_not_list {v : Value} (hv : ∀ id, v ≠ .list id) (n : Nat) : h.Fits n v := by
  cases n with
  | zero => exact hv
  | succ n => exact fun id heq => absurd heq (hv id)

/-- In a list in which more lists are inside of each other there is a chain of them. -/
theorem IsAcyclic.exists_chain (hacyclic : h.IsAcyclic) {n : Nat} {id : ListId}
    (hdeep : ¬ h.Fits n (.list id)) :
    ∃ path : List ListId, path.length = n ∧ (id :: path).IsChain h.Contains ∧
    ∀ other ∈ path, other < h.lists.size := by
  induction n generalizing id with
  | zero => exact ⟨[], rfl, .singleton id, by simp⟩
  | succ n ih =>
    obtain ⟨w, hw, hinner⟩ : ∃ w ∈ h.items id, ¬ h.Fits n w := by
      by_contra hnone
      push Not at hnone
      exact hdeep fun _ heq w hw => hnone w (Value.list.inj heq ▸ hw)
    obtain ⟨inner, rfl⟩ : ∃ inner, w = .list inner := by
      by_contra hlist
      exact hinner (fits_of_not_list (not_exists.mp hlist) n)
    obtain ⟨path, hlen, hchain, hpath⟩ := ih hinner
    refine ⟨inner :: path, by rw [List.length_cons, hlen], .cons_cons hw hchain, ?_⟩
    exact List.forall_mem_cons.mpr ⟨hacyclic.inner_lt id inner hw, hpath⟩

/-- **A chain of lists inside of each other visits no list twice**, so it is no longer than the heap
has lists. -/
theorem IsAcyclic.fits (hacyclic : h.IsAcyclic) {v : Value} (hv : h.Names v) :
    h.Fits h.lists.size v := by
  by_contra hdeep
  obtain ⟨id, rfl⟩ : ∃ id, v = .list id := by
    by_contra hlist
    exact hdeep (fits_of_not_list (not_exists.mp hlist) _)
  obtain ⟨path, hlen, hchain, hpath⟩ := hacyclic.exists_chain hdeep
  have hreach : (id :: path).Pairwise (Relation.TransGen h.Contains) :=
    (hchain.imp fun _ _ => Relation.TransGen.single).pairwise
  have hnodup : (id :: path).Nodup := by
    refine hreach.imp ?_
    rintro a _ hcycle rfl
    exact hacyclic.no_cycle a hcycle
  have hrange : (id :: path) ⊆ List.range h.lists.size := by
    refine List.cons_subset.mpr ⟨List.mem_range.mpr (hv id rfl), ?_⟩
    exact fun other hother => List.mem_range.mpr (hpath other hother)
  have hcount := hnodup.length_le_of_subset hrange
  rw [List.length_cons, List.length_range, hlen] at hcount
  omega

/-! ### Values that are no lists -/

/-- Values that are no lists are equal if they are the same, except that floating-point numbers are
compared as numbers. -/
theorem plainEqual_iff (v w : Value) : plainEqual v w = true ↔
    (∃ x y, v = .float x ∧ w = .float y ∧ (x == y) = true) ∨
      (v = w ∧ (∀ x, v ≠ .float x) ∧ ∀ id, v ≠ .list id) := by
  cases v <;> cases w <;> simp [plainEqual]

theorem plainEqual_symm {v w : Value} (heq : plainEqual v w = true) : plainEqual w v = true := by
  rw [plainEqual_iff] at heq ⊢
  rcases heq with ⟨x, y, rfl, rfl, hxy⟩ | ⟨rfl, hplain⟩
  · exact .inl ⟨y, x, rfl, rfl, float_beq_symm hxy⟩
  · exact .inr ⟨rfl, hplain⟩

theorem plainEqual_trans {u v w : Value} (huv : plainEqual u v = true)
    (hvw : plainEqual v w = true) :
    plainEqual u w = true := by
  rw [plainEqual_iff] at huv
  rcases huv with ⟨x, y, rfl, rfl, hxy⟩ | ⟨rfl, -⟩
  · rw [plainEqual_iff] at hvw ⊢
    rcases hvw with ⟨y', z, hy, rfl, hyz⟩ | ⟨-, hfloat, -⟩
    · cases hy
      exact .inl ⟨x, z, rfl, rfl, float_beq_trans hxy hyz⟩
    · exact absurd rfl (hfloat y)
  · exact hvw

theorem not_list_of_plainEqual {v w : Value} (heq : plainEqual v w = true) (id : ListId) :
    v ≠ .list id := by
  rintro rfl
  cases w <;> cases heq

/-! ### Elements -/

section

variable {eq eq' : Value → Value → Bool}

theorem allEqual_congr {as : List Value} (heq : ∀ x ∈ as, ∀ y, eq x y = eq' x y) (bs : List Value) :
    allEqual eq as bs = allEqual eq' as bs := by
  induction as generalizing bs with
  | nil => cases bs <;> rfl
  | cons a as ih =>
    obtain ⟨ha, has⟩ := List.forall_mem_cons.mp heq
    cases bs with
    | nil => rfl
    | cons b bs => rw [allEqual, allEqual, ha b, ih has bs]

/-- Lists of values are equal if they have as many elements, which are equal in pairs. -/
theorem allEqual_iff (as bs : List Value) : allEqual eq as bs = true ↔
    as.length = bs.length ∧ ∀ (i : Nat) x y, as[i]? = some x → bs[i]? = some y → eq x y = true := by
  induction as generalizing bs with
  | nil => cases bs <;> simp [allEqual]
  | cons a as ih =>
    cases bs with
    | nil => simp [allEqual]
    | cons b bs =>
      rw [allEqual, Bool.and_eq_true, ih, List.length_cons, List.length_cons, Nat.succ_inj]
      constructor
      · rintro ⟨hab, hlen, hrest⟩
        refine ⟨hlen, fun i x y hx hy => ?_⟩
        cases i with
        | zero =>
          cases hx
          cases hy
          exact hab
        | succ i => exact hrest i x y hx hy
      · rintro ⟨hlen, hall⟩
        exact ⟨hall 0 a b rfl rfl, hlen, fun i => hall (i + 1)⟩

theorem allEqual_symm (hsymm : ∀ x y, eq x y = true → eq y x = true) {as bs : List Value}
    (heq : allEqual eq as bs = true) : allEqual eq bs as = true := by
  rw [allEqual_iff] at heq ⊢
  exact ⟨heq.1.symm, fun i x y hx hy => hsymm y x (heq.2 i y x hy hx)⟩

theorem allEqual_trans (htrans : ∀ x y z, eq x y = true → eq y z = true → eq x z = true)
    {as bs cs : List Value} (hab : allEqual eq as bs = true) (hbc : allEqual eq bs cs = true) :
    allEqual eq as cs = true := by
  rw [allEqual_iff] at hab hbc ⊢
  refine ⟨hab.1.trans hbc.1, fun i x z hx hz => ?_⟩
  obtain ⟨y, hy⟩ : ∃ y, bs[i]? = some y := by
    have hi := (List.getElem?_eq_some_iff.mp hx).1
    rw [hab.1] at hi
    exact ⟨bs[i], List.getElem?_eq_getElem hi⟩
  exact htrans x y z (hab.2 i x y hx hy) (hbc.2 i y z hy hz)

end

/-! ### One step of the comparison -/

/-- The comparison of two values, given that of elements: lists are equal if they are the same list
or equal element by element. -/
def compareWith (h : Heap) (eq : Value → Value → Bool) : Value → Value → Bool
  | .list a, .list b => a == b || allEqual eq (h.items a) (h.items b)
  | v, w => plainEqual v w

theorem compareWith_iff (h : Heap) (eq : Value → Value → Bool) (v w : Value) :
    h.compareWith eq v w = true ↔
    plainEqual v w = true ∨
      ∃ a b, v = .list a ∧ w = .list b ∧ (a = b ∨ allEqual eq (h.items a) (h.items b) = true) := by
  cases v <;> cases w <;> simp [compareWith, plainEqual]

theorem equalWithin_zero_iff (h : Heap) (v w : Value) : h.equalWithin 0 v w = true ↔
    plainEqual v w = true ∨ ∃ a, v = .list a ∧ w = .list a := by
  cases v <;> cases w <;> simp [equalWithin, plainEqual]
  exact eq_comm

theorem equalWithin_succ (h : Heap) (n : Nat) (v w : Value) :
    h.equalWithin (n + 1) v w = h.compareWith (h.equalWithin n) v w := by
  cases v <;> cases w <;> rfl

theorem equalWithin_of_not_list {v : Value} (hv : ∀ id, v ≠ .list id) (n : Nat) (w : Value) :
    h.equalWithin n v w = plainEqual v w := by
  cases v with
  | list id => exact absurd rfl (hv id)
  | _ => cases n <;> rfl

/-- More steps inwards than there are lists inside of each other make no difference. -/
theorem equalWithin_of_fits {n k : Nat} {v : Value} (hv : h.Fits n v) (hle : n ≤ k) (w : Value) :
    h.equalWithin k v w = h.equalWithin n v w := by
  induction n generalizing k v w with
  | zero => rw [equalWithin_of_not_list hv, equalWithin_of_not_list hv]
  | succ n ih =>
    obtain ⟨k, rfl⟩ := Nat.exists_eq_add_one_of_ne_zero (Nat.ne_zero_of_lt hle)
    rw [equalWithin_succ, equalWithin_succ]
    cases v with
    | list a =>
      cases w with
      | list b =>
        have hitems :=
          allEqual_congr (fun x hx y => ih (hv a rfl x hx) (Nat.le_of_succ_le_succ hle) y)
            (h.items b)
        rw [compareWith, compareWith, hitems]
      | _ => rfl
    | _ => rfl

/-- **Equality is the comparison that calls itself**, without a bound, where no list is inside of
itself. -/
theorem IsAcyclic.equal_eq_compareWith (hacyclic : h.IsAcyclic) {v : Value}
    (hv : h.Names v) (w : Value) :
    h.equal v w = h.compareWith h.equal v w := by
  have hfits := equalWithin_of_fits (hacyclic.fits hv) (Nat.le_succ h.lists.size) w
  calc h.equal v w
    _ = h.equalWithin (h.lists.size + 1) v w := hfits.symm
    _ = h.compareWith h.equal v w := h.equalWithin_succ _ v w

/-! ### Symmetry and transitivity -/

theorem equalWithin_symm (n : Nat) {v w : Value} (heq : h.equalWithin n v w = true) :
    h.equalWithin n w v = true := by
  induction n generalizing v w with
  | zero =>
    rw [equalWithin_zero_iff] at heq ⊢
    rcases heq with heq | ⟨a, rfl, rfl⟩
    · exact .inl (plainEqual_symm heq)
    · exact .inr ⟨a, rfl, rfl⟩
  | succ n ih =>
    rw [equalWithin_succ, compareWith_iff] at heq ⊢
    rcases heq with heq | ⟨a, b, rfl, rfl, rfl | hitems⟩
    · exact .inl (plainEqual_symm heq)
    · exact .inr ⟨a, a, rfl, rfl, .inl rfl⟩
    · exact .inr ⟨b, a, rfl, rfl, .inr (allEqual_symm (fun _ _ => ih) hitems)⟩

/-- **Two steps of equality make one**, whether they are made by short cut or element by element. -/
theorem equalWithin_trans (n : Nat) {u v w : Value} (huv : h.equalWithin n u v = true)
    (hvw : h.equalWithin n v w = true) : h.equalWithin n u w = true := by
  induction n generalizing u v w with
  | zero =>
    rw [equalWithin_zero_iff] at huv
    rcases huv with huv | ⟨a, rfl, rfl⟩
    · rw [equalWithin_zero_iff] at hvw ⊢
      rcases hvw with hvw | ⟨b, rfl, rfl⟩
      · exact .inl (plainEqual_trans huv hvw)
      · exact absurd rfl (not_list_of_plainEqual (plainEqual_symm huv) b)
    · exact hvw
  | succ n ih =>
    rw [equalWithin_succ, compareWith_iff] at huv hvw ⊢
    rcases huv with huv | ⟨a, b, rfl, rfl, hab⟩
    · rcases hvw with hvw | ⟨b, c, rfl, rfl, -⟩
      · exact .inl (plainEqual_trans huv hvw)
      · exact absurd rfl (not_list_of_plainEqual (plainEqual_symm huv) b)
    · rcases hvw with hvw | ⟨b', c, hb, rfl, hbc⟩
      · exact absurd rfl (not_list_of_plainEqual hvw b)
      · cases hb
        refine .inr ⟨a, c, rfl, rfl, ?_⟩
        -- a step by short cut leaves the other step as it is
        rcases hab with rfl | hab
        · exact hbc
        · rcases hbc with rfl | hbc
          · exact .inr hab
          · have hstep : ∀ x y z, h.equalWithin n x y = true → h.equalWithin n y z = true →
                h.equalWithin n x z = true := fun _ _ _ => ih
            exact .inr (allEqual_trans hstep hab hbc)

/-! ### Comparing without the short cut -/

/-- Two values agree element by element, down to values that are no lists. -/
inductive Matches (h : Heap) : Value → Value → Prop where
  | plain {v w : Value} (heq : plainEqual v w = true) : Matches h v w
  | list {a b : ListId} (hlen : (h.items a).length = (h.items b).length)
      (hitems : ∀ (i : Nat) x y, (h.items a)[i]? = some x → (h.items b)[i]? = some y →
        Matches h x y) :
      Matches h (.list a) (.list b)

/-- A list is found at the same place inside of two values. -/
inductive Shares (h : Heap) : Value → Value → ListId → Prop where
  | here {id : ListId} : Shares h (.list id) (.list id) id
  | inside {a b id : ListId} {i : Nat} {x y : Value} (hx : (h.items a)[i]? = some x)
      (hy : (h.items b)[i]? = some y) (hshares : Shares h x y id) : Shares h (.list a) (.list b) id

/-- "Not a number" is found somewhere inside of a value. -/
inductive HasNaN (h : Heap) : Value → Prop where
  | here {x : Float} (hx : x.isNaN = true) : HasNaN h (.float x)
  | inside {id : ListId} {v : Value} (hv : v ∈ h.items id) (hnan : HasNaN h v) : HasNaN h (.list id)

theorem plainEqual_self_iff {v : Value} (hv : ∀ id, v ≠ .list id) : plainEqual v v = true ↔
    ¬ h.HasNaN v := by
  rw [plainEqual_iff]
  constructor
  · rintro (⟨x, y, rfl, hy, hxy⟩ | ⟨-, hfloat, -⟩) hnan
    · cases hy
      cases hnan with
      | here hx =>
        have hnumber := (float_beq_self_iff x).mp hxy
        rw [hx] at hnumber
        cases hnumber
    · cases hnan with
      | here => exact hfloat _ rfl
      | inside => exact hv _ rfl
  · intro hnan
    by_cases hfloat : ∃ x, v = .float x
    · obtain ⟨x, rfl⟩ := hfloat
      refine .inl ⟨x, x, rfl, rfl, (float_beq_self_iff x).mpr ?_⟩
      exact Bool.eq_false_iff.mpr fun hx => hnan (.here hx)
    · exact .inr ⟨rfl, not_exists.mp hfloat, hv⟩

/-- A value without "not a number" in it agrees with itself. -/
theorem matches_self {n : Nat} {v : Value} (hfits : h.Fits n v) (hnan : ¬ h.HasNaN v) :
    h.Matches v v := by
  induction n generalizing v with
  | zero => exact .plain ((plainEqual_self_iff hfits).mpr hnan)
  | succ n ih =>
    by_cases hlist : ∃ id, v = .list id
    · obtain ⟨id, rfl⟩ := hlist
      refine .list rfl fun i x y hx hy => ?_
      obtain rfl : x = y := Option.some.inj (hx.symm.trans hy)
      have hmem := List.mem_of_getElem? hx
      exact ih (hfits id rfl x hmem) fun hinner => hnan (.inside hmem hinner)
    · exact .plain ((plainEqual_self_iff (not_exists.mp hlist)).mpr hnan)

theorem not_hasNaN_of_matches {v : Value} (hv : h.Matches v v) : ¬ h.HasNaN v := by
  intro hnan
  induction hnan with
  | @here x hx =>
    cases hv with
    | plain heq =>
      have hself : ¬ h.HasNaN (.float x) := (plainEqual_self_iff fun _ => Value.noConfusion).mp heq
      exact hself (.here hx)
  | @inside id v hmem _ ih =>
    obtain ⟨i, hi⟩ := List.getElem?_of_mem hmem
    cases hv with
    | plain heq => cases heq
    | list _ hitems => exact ih (hitems i v v hi hi)

/-- Where two values agree element by element, "not a number" is in no list that they share. -/
theorem not_hasNaN_of_shares {v w : Value} {id : ListId} (hvw : h.Matches v w)
    (hshares : h.Shares v w id) :
    ¬ h.HasNaN (.list id) := by
  induction hshares with
  | here => exact not_hasNaN_of_matches hvw
  | inside hx hy _ ih =>
    cases hvw with
    | plain heq => cases heq
    | list _ hitems => exact ih (hitems _ _ _ hx hy)

/-- Equal values agree element by element, but for "not a number" in a list that they share. -/
theorem matches_of_equalWithin {n : Nat} {v w : Value} (hfits : h.Fits n v)
    (heq : h.equalWithin n v w = true)
    (hnan : ∀ id, h.Shares v w id → ¬ h.HasNaN (.list id)) : h.Matches v w := by
  induction n generalizing v w with
  | zero =>
    rw [equalWithin_of_not_list hfits] at heq
    exact .plain heq
  | succ n ih =>
    rw [equalWithin_succ, compareWith_iff] at heq
    rcases heq with heq | ⟨a, b, rfl, rfl, rfl | hitems⟩
    · exact .plain heq
    · exact matches_self hfits (hnan a .here)
    · obtain ⟨hlen, hitems⟩ := (allEqual_iff _ _).mp hitems
      refine .list hlen fun i x y hx hy => ?_
      exact ih (hfits a rfl x (List.mem_of_getElem? hx)) (hitems i x y hx hy) fun id hshares =>
        hnan id (.inside hx hy hshares)

/-- The elements of a list are lists of the heap, or no lists. -/
theorem IsAcyclic.names_item (hacyclic : h.IsAcyclic) {id : ListId} {v : Value}
    (hv : v ∈ h.items id) : h.Names v := by
  rintro inner rfl
  exact hacyclic.inner_lt id inner hv

/-- What agrees element by element is equal. -/
theorem IsAcyclic.equal_of_matches (hacyclic : h.IsAcyclic) {v w : Value} (hv : h.Names v)
    (hvw : h.Matches v w) :
    h.equal v w = true := by
  induction hvw with
  | plain heq =>
    rw [hacyclic.equal_eq_compareWith hv, compareWith_iff]
    exact .inl heq
  | @list a b hlen _ ih =>
    rw [hacyclic.equal_eq_compareWith hv, compareWith_iff]
    refine .inr ⟨a, b, rfl, rfl, .inr ((allEqual_iff _ _).mpr ⟨hlen, fun i x y hx hy => ?_⟩)⟩
    exact ih i x y hx hy (hacyclic.names_item (List.mem_of_getElem? hx))

/-- **What the short cut is worth.** Equality is agreement element by element, except where "not a
number" is in a list that is found at the same place on both sides. -/
theorem IsAcyclic.matches_iff (hacyclic : h.IsAcyclic) {v : Value} (hv : h.Names v) (w : Value) :
    h.Matches v w ↔ h.equal v w = true ∧ ∀ id, h.Shares v w id → ¬ h.HasNaN (.list id) := by
  constructor
  · exact fun hvw => ⟨hacyclic.equal_of_matches hv hvw, fun _ => not_hasNaN_of_shares hvw⟩
  · exact fun ⟨heq, hnan⟩ => matches_of_equalWithin (hacyclic.fits hv) heq hnan

/-! ### Reflexivity -/

theorem equal_list (h : Heap) (id : ListId) : h.equal (.list id) (.list id) = true := by
  rw [equal]
  cases h.lists.size with
  | zero => exact (h.equalWithin_zero_iff _ _).mpr (.inr ⟨id, rfl, rfl⟩)
  | succ n =>
    rw [equalWithin_succ, compareWith_iff]
    exact .inr ⟨id, id, rfl, rfl, .inl rfl⟩

theorem equal_self_iff (h : Heap) (v : Value) : h.equal v v = true ↔ (∃ id, v = .list id) ∨
    ¬ h.HasNaN v := by
  by_cases hlist : ∃ id, v = .list id
  · obtain ⟨id, rfl⟩ := hlist
    exact iff_of_true (h.equal_list id) (.inl ⟨id, rfl⟩)
  · rw [equal, equalWithin_of_not_list (not_exists.mp hlist),
      plainEqual_self_iff (not_exists.mp hlist), or_iff_right hlist]

end Heap

/-- **Equality of values is a partial equivalence.** In a heap without cycles, in which lists may be
inside of each other and shared:

* it is the comparison that goes by the identity of lists, or else compares their elements with
  itself;
* it is symmetric and transitive;
* a list, under whatever names, equals itself, and any other value does unless it is "not a number";
* two values agree element by element, without any short cut, exactly if they are equal and no list
  that is found at the same place inside of both has "not a number" in it. -/
theorem Heap.equal_isPartialEquivalence {h : Heap} (hacyclic : h.IsAcyclic) :
    (∀ v w, h.Names v → h.equal v w = h.compareWith h.equal v w) ∧
      (∀ v w, h.equal v w = true → h.equal w v = true) ∧
      (∀ u v w, h.equal u v = true → h.equal v w = true → h.equal u w = true) ∧
      (∀ v, h.equal v v = true ↔ (∃ id, v = .list id) ∨ ¬ h.HasNaN v) ∧
      ∀ v w, h.Names v →
        (h.Matches v w ↔ h.equal v w = true ∧ ∀ id, h.Shares v w id → ¬ h.HasNaN (.list id)) := by
  refine ⟨?_, ?_, ?_, h.equal_self_iff, ?_⟩
  · exact fun v w hv => hacyclic.equal_eq_compareWith hv w
  · exact fun v w hvw => equalWithin_symm _ hvw
  · exact fun u v w huv hvw => equalWithin_trans _ huv hvw
  · exact fun v w hv => hacyclic.matches_iff hv w

/-- Two lists of one integer and a list that they share, in which there is "not a number". -/
def sharedNaN : Heap where
  lists := #[[.float (0.0 / 0.0)], [.int 1, .list 0], [.int 1, .list 0]]

/-- The two lists are equal, although not element by element: the list that they share does not
agree with itself. -/
theorem Heap.equal_isPartialEquivalence_sharedNaN :
    sharedNaN.IsAcyclic ∧ sharedNaN.Names (.list 1) ∧ sharedNaN.equal (.list 1) (.list 2) = true ∧
      sharedNaN.equal (.list 2) (.list 1) = true ∧ ¬ sharedNaN.Matches (.list 1) (.list 2) := by
  have hless : ∀ outer inner, sharedNaN.Contains outer inner → inner = 0 ∧ 0 < outer := by
    intro outer inner hcontains
    match outer with
    | 0 => simp [Contains, items, sharedNaN] at hcontains
    | 1 => simpa [Contains, items, sharedNaN] using hcontains
    | 2 => simpa [Contains, items, sharedNaN] using hcontains
    | n + 3 => simp [Contains, items, sharedNaN] at hcontains
  have hacyclic : sharedNaN.IsAcyclic := by
    refine ⟨fun id hcycle => ?_, fun outer inner hcontains => ?_⟩
    · obtain ⟨inner, hfirst, -⟩ := Relation.TransGen.head'_iff.mp hcycle
      obtain ⟨outer, -, hlast⟩ := Relation.TransGen.tail'_iff.mp hcycle
      have hpos := (hless id inner hfirst).2
      rw [(hless outer id hlast).1] at hpos
      exact absurd hpos (Nat.lt_irrefl 0)
    · rw [(hless outer inner hcontains).1]
      decide
  have hnames : sharedNaN.Names (.list 1) := by
    rintro id heq
    cases heq
    decide
  obtain ⟨-, hsymm, -, -, hmatches⟩ := Heap.equal_isPartialEquivalence hacyclic
  have heq : sharedNaN.equal (.list 1) (.list 2) = true := by decide +kernel
  refine ⟨hacyclic, hnames, heq, hsymm _ _ heq, fun hagree => ?_⟩
  obtain ⟨-, hfree⟩ := (hmatches (.list 1) (.list 2) hnames).mp hagree
  have hnan : sharedNaN.HasNaN (.list 0) :=
    .inside (List.mem_singleton_self _) (.here (by decide +kernel))
  have hshares : sharedNaN.Shares (.list 1) (.list 2) 0 := .inside (i := 1) rfl rfl .here
  exact hfree 0 hshares hnan

end ScopeScript
