import ScopeScript.Proofs.Entries
import ScopeScript.Proofs.Home
import ScopeScript.Proofs.Limits

/-!
# Bounded programs end

Evaluation is by recursion on the room for nested expressions, so that recursive functions come to
an end by themselves: what is left are loops. A loop with a limit ends, and so does a loop over a
list. Hence every program ends under a limit on the rounds of its loops, and without one every
program that has no loop on a condition, neither in its own text nor in the functions that the
machine stores (`Machine.endsIn_of_bounded`).

`Law.whileFree` states that evaluation does not bring such a loop in: functions are made from the
text of the program, and the values at hand hold no others.
-/

namespace ScopeScript

namespace Expr

mutual

/-- Whether an expression has no loop on a condition, bodies of functions included. -/
def isWhileFree : Expr → Bool
  | whileDo _ _ _ => false
  | literal _ _ | var _ _ | brk _ | nxt _ | list _ _ | read _ | quit _ => true
  | element _ _ a | not _ a | assign _ _ a | function _ _ a | print _ a | cat _ a => a.isWhileFree
  | arith _ _ a b | logical _ _ a b | compare _ _ a b | ifThen _ a b | forIn _ _ a b
  | assignAt _ _ a b => a.isWhileFree && b.isWhileFree
  | ifElse _ a b c => a.isWhileFree && b.isWhileFree && c.isWhileFree
  | block _ es | call _ _ es => allWhileFree es

/-- Whether no expression of a list has a loop on a condition. -/
def allWhileFree : List Expr → Bool
  | [] => true
  | e :: es => e.isWhileFree && allWhileFree es

end

theorem allWhileFree_iff (es : List Expr) :
    allWhileFree es = true ↔ ∀ e ∈ es, e.isWhileFree = true := by
  induction es with
  | nil => simp [allWhileFree]
  | cons e es ih => simp [allWhileFree, ih]

theorem isWhileFree_part {e part : Expr} (h : e.isWhileFree = true) (hpart : part ∈ e.parts) :
    part.isWhileFree = true := by
  cases e with
  | block | call =>
    rw [isWhileFree, allWhileFree_iff] at h
    exact h part hpart
  | whileDo => cases h
  | literal | var | brk | nxt | function | list | read | quit => cases hpart
  | element | not | assign | print | cat =>
    obtain rfl := List.mem_singleton.mp hpart
    exact h
  | arith | logical | compare | ifThen | forIn | assignAt =>
    obtain ⟨ha, hb⟩ := Bool.and_eq_true_iff.mp h
    simp only [parts, List.mem_cons, List.not_mem_nil, or_false] at hpart
    rcases hpart with rfl | rfl
    · exact ha
    · exact hb
  | ifElse =>
    obtain ⟨hab, hc⟩ := Bool.and_eq_true_iff.mp h
    obtain ⟨ha, hb⟩ := Bool.and_eq_true_iff.mp hab
    simp only [parts, List.mem_cons, List.not_mem_nil, or_false] at hpart
    rcases hpart with rfl | rfl | rfl
    · exact ha
    · exact hb
    · exact hc

end Expr

/-! ### Functions that a value holds -/

namespace Heap

/-- The value `w` is the given one, or inside of it: the element of a list, or inside of one. -/
inductive Inside (h : Heap) (w : Value) : Value → Prop where
  | self : Inside h w w
  | item {id : ListId} {v : Value} (hv : v ∈ h.items id) (hw : Inside h w v) : Inside h w (.list id)

/-- No function that a value is or holds has a loop on a condition. -/
def IsWhileFree (h : Heap) (v : Value) : Prop :=
  ∀ id f, h.Inside (.function id) v → h.function? id = some f → f.body.isWhileFree = true

variable {h h' : Heap} {v w : Value}

theorem IsWhileFree.of_isPlain (hv : v.isPlain) : h.IsWhileFree v := by
  intro id f hin hf
  cases hin <;> cases hv

/-- A list or function that is still to be made holds nothing. -/
theorem IsWhileFree.list_size (h : Heap) : h.IsWhileFree (.list h.lists.size) := by
  intro id f hin hf
  cases hin with
  | item hv => simp [items] at hv

theorem IsWhileFree.function_size (h : Heap) : h.IsWhileFree (.function h.functions.size) := by
  intro id f hin hf
  cases hin with
  | self => simp [function?] at hf

theorem IsWhileFree.item {id : ListId} (hlist : h.IsWhileFree (.list id)) (hv : v ∈ h.items id) :
    h.IsWhileFree v :=
  fun fid f hin hf => hlist fid f (.item hv hin) hf

/-- What is inside of a value in a changed heap was there before, or is inside of a new element. -/
theorem Inside.of_items {Fresh : Value → Prop}
    (hitems : ∀ id, ∀ v ∈ h'.items id, v ∈ h.items id ∨ Fresh v) (hin : h'.Inside w v) :
    h.Inside w v ∨ ∃ u, Fresh u ∧ h.Inside w u := by
  induction hin with
  | self => exact .inl .self
  | item hv _ ih =>
    rcases ih with hold | hnew
    · rcases hitems _ _ hv with hv | hv
      · exact .inl (.item hv hold)
      · exact .inr ⟨_, hv, hold⟩
    · exact .inr hnew

/-- The second heap has no loop on a condition where the first one has none. -/
def Spares (h h' : Heap) : Prop :=
  ∀ v, h.IsWhileFree v → h'.IsWhileFree v

namespace Spares

theorem refl (h : Heap) : h.Spares h := fun _ hv => hv

theorem trans {a b c : Heap} (hab : a.Spares b) (hbc : b.Spares c) : a.Spares c :=
  fun v hv => hbc v (hab v hv)

/-- A heap is as free as before if its new elements and functions are. -/
theorem grow {Fresh : Value → Prop} (hitems : ∀ id, ∀ v ∈ h'.items id, v ∈ h.items id ∨ Fresh v)
    (hfresh : ∀ v, Fresh v → h.IsWhileFree v)
    (hfunction : ∀ id f, h'.function? id = some f →
      (∃ f₀, h.function? id = some f₀ ∧ f.body = f₀.body) ∨ f.body.isWhileFree = true) :
    h.Spares h' := by
  intro v hv id f hin hf
  rcases hfunction id f hf with ⟨f₀, hf₀, hbody⟩ | hfree
  · rw [hbody]
    rcases hin.of_items hitems with hin | ⟨u, hu, hin⟩
    · exact hv id f₀ hin hf₀
    · exact hfresh u hu id f₀ hin hf₀
  · exact hfree

theorem setItem? {id : ListId} {k : Int64} (hset : h.setItem? id k v = some h')
    (hv : h.IsWhileFree v) : h.Spares h' := by
  refine grow (fun other u hu => mem_items_setItem? hset hu) (fun u hu => hu ▸ hv)
    fun fid f hf => ?_
  rw [function?, functions_setItem? hset] at hf
  exact .inl ⟨f, hf, rfl⟩

theorem newList (h : Heap) (items : List Literal) :
    h.Spares (h.newList (items.map .ofLiteral)).2 := by
  refine grow (fun id u hu => ?_) (fun u (hu : ∃ l, u = .ofLiteral l) => ?_)
    fun fid f hf => .inl ⟨f, hf, rfl⟩
  · by_cases hid : id = (h.newList (items.map .ofLiteral)).1
    · subst hid
      rw [items_newList] at hu
      obtain ⟨l, -, rfl⟩ := List.mem_map.mp hu
      exact .inr ⟨l, rfl⟩
    · rw [items_newList_of_ne h _ hid] at hu
      exact .inl hu
  · obtain ⟨l, rfl⟩ := hu
    exact .of_isPlain (Value.isPlain_ofLiteral l)

theorem newFunction (h : Heap) {f : Function} (hbody : f.body.isWhileFree = true) :
    h.Spares (h.newFunction f).2 := by
  refine grow (fun id u hu => .inl hu) (fun u (hu : False) => hu.elim) fun fid g hg => ?_
  rw [function?_newFunction] at hg
  split at hg
  · cases hg
    exact .inr hbody
  · exact .inl ⟨g, hg, rfl⟩

theorem noteResult (h : Heap) (id : FunctionId) (c : TypeClass) : h.Spares (h.noteResult id c) := by
  refine grow (fun id u hu => .inl hu) (fun u (hu : False) => hu.elim) fun fid g hg => ?_
  rw [function?_noteResult] at hg
  obtain ⟨g₀, hg₀, rfl⟩ := Option.map_eq_some_iff.mp hg
  refine .inl ⟨g₀, hg₀, ?_⟩
  split <;> rfl

end Spares

end Heap

/-! ### Machines without such loops -/

namespace Machine

/-- No function that the scopes of the machine store, be it in a list, has a loop on a condition. -/
def IsWhileFree (m : Machine) : Prop :=
  AllEntries (fun e => ∀ v, e.value = some v → m.heap.IsWhileFree v) m.scopes.scopes

variable {m m' : Machine}

theorem IsWhileFree.mono {scopes : List Scope}
    (h : AllEntries (fun e => ∀ v, e.value = some v → m.heap.IsWhileFree v) scopes)
    (hspares : m.heap.Spares m'.heap) (hscopes : m'.scopes.scopes = scopes) : m'.IsWhileFree := by
  rw [IsWhileFree, hscopes]
  exact h.mono fun e he v hv => hspares v (he v hv)

theorem spares_move (hmove : Move (fun m v => m.heap.IsWhileFree v) m m') :
    m.heap.Spares m'.heap := by
  cases hmove with
  | declare name info =>
    rw [m.heap_declare]
    exact .refl _
  | store name id k v heap _ hv _ hset => exact .setItem? hset hv
  | credit id v => exact .noteResult _ id _
  | announce | bind | print | refuse | read | skip | probe => exact .refl _

theorem IsWhileFree.move (h : m.IsWhileFree) (hmove : Move (fun m v => m.heap.IsWhileFree v) m m') :
    m'.IsWhileFree := by
  refine .mono (AllEntries.move h hmove ?_ ?_) (spares_move hmove) rfl
  · intro name info _ v hv
    cases hv
  · intro name v old _ hfree _ u hu
    cases hu
    exact hfree

end Machine

/-- **The law of programs without loops on a condition.** -/
def Law.whileFree (lim : Limits) : Law lim where
  Admits e := e.isWhileFree = true
  Inv := Machine.IsWhileFree
  Step m m' := m.heap.Spares m'.heap
  Fits m v := m.heap.IsWhileFree v
  admits_part := Expr.isWhileFree_part
  step_refl m := .refl m.heap
  step_trans := .trans
  fits_step _ hstep hv := hstep _ hv
  fits_atom hv := .of_isPlain (Value.isPlain_of_isAtom hv)
  fits_literal _ := .of_isPlain (Value.isPlain_ofLiteral _)
  fits_input _ := .of_isPlain (Value.isPlain_ofInput _)
  fits_lookup h hv := by
    obtain ⟨e, he, hvalue⟩ := AllEntries.lookup? h hv
    exact he _ hvalue
  fits_item _ hlist hv := hlist.item hv
  move h hmove := ⟨h.move hmove, Machine.spares_move hmove⟩
  newList {m span items} _ h :=
    have hspares := Heap.Spares.newList m.heap items
    ⟨.mono h hspares rfl, hspares, hspares _ (.list_size m.heap)⟩
  newFunction {m span ps body} hbody _ h :=
    have hspares := Heap.Spares.newFunction m.heap (f := m.closure ps body) hbody
    ⟨.mono h hspares rfl, hspares, hspares _ (.function_size m.heap)⟩
  begin h _ := h
  finish _ _ h' hstep _ := ⟨h', hstep⟩
  fits_finish hv := hv
  forget {m m' name} _ _ _ h' hstep := by
    rw [m.heap_declare] at hstep
    exact ⟨AllEntries.forget h' name, hstep⟩
  enter {m name id f args} h hcall := by
    obtain ⟨e, he, hvalue⟩ := AllEntries.lookup? h hcall.lookup
    refine ⟨?_, he _ hvalue id f .self hcall.function⟩
    rw [Machine.IsWhileFree, Eval.heap_enter]
    refine AllEntries.enter h id f args ?_
    rintro _ ⟨p, n, rfl⟩ v hv
    cases hv
    exact .of_isPlain rfl
  leave {m m' name id f args} h hcall _ _ hstep := by
    rw [Eval.heap_enter] at hstep
    exact ⟨.mono h hstep rfl, hstep⟩
  fits_leave _ _ _ _ _ _ hv := hv

/-! ### Endings -/

/-- Without a limit on rounds evaluation gives up only where there is a loop on a condition. -/
theorem Arises.maxIterations_of_unfinished {lim : Limits} {Admits : Expr → Prop} {m : Machine}
    (h : Arises lim Admits m .unfinished) :
    lim.maxIterations = none ∧ ∃ e, Admits e ∧ e.isWhile = true := by
  generalize hstop : Stop.unfinished = stop at h
  cases h with
  | exhausted e hloop =>
    unfold Limits.exhausted at hstop
    split at hstop
    · cases hstop
    · rename_i hnone
      exact ⟨hnone, e, hloop hnone⟩
  | _ => cases hstop

/-- The loops of a program are bounded: there is a limit on their rounds, or there is no loop on a
condition, neither in the program nor in what the machine stores. -/
def Bounded (lim : Limits) (p : Program) (m : Machine) : Prop :=
  lim.maxIterations.isSome = true ∨ (∀ e ∈ p, e.isWhileFree = true) ∧ m.IsWhileFree

/-- A bounded program obeys a law under which nothing is given up. -/
theorem Bounded.exists_law {lim : Limits} {p : Program} {m : Machine} (h : Bounded lim p m) :
    ∃ L : Law lim, L.Inv m ∧ (∀ e ∈ p, L.Admits e) ∧ ¬ L.Raises .unfinished := by
  rcases h with hsome | ⟨hp, hm⟩
  · refine ⟨(LogLaw.free lim).toLaw, trivial, fun _ _ => trivial, ?_⟩
    rintro ⟨m₁, -, harises⟩
    rw [harises.maxIterations_of_unfinished.1] at hsome
    cases hsome
  · refine ⟨.whileFree lim, hm, hp, ?_⟩
    rintro ⟨m₁, -, harises⟩
    obtain ⟨-, e, hfree, hwhile⟩ := harises.maxIterations_of_unfinished
    cases e with
    | whileDo => cases hfree
    | _ => cases hwhile

/-- **Bounded programs end**: the run of the program does, in one way only, and so does the
evaluation of each of its expressions. -/
theorem Machine.endsIn_of_bounded {lim : Limits} {p : Program} {m : Machine} (h : Bounded lim p m) :
    (∃ r, m.EndsIn lim p r ∧ ∀ r', m.EndsIn lim p r' → r' = r) ∧
      ∀ e ∈ p, ∃ r, Eval.EndsIn lim e m r := by
  obtain ⟨L, hm, hp, hraises⟩ := h.exists_law
  constructor
  · have hended : (m.run lim p).1 ≠ .unfinished := by
      obtain ⟨m', -, hcloses⟩ := L.run hp hm
      intro hunfinished
      generalize m.run lim p = r at hcloses hunfinished
      cases hcloses with
      | unfinished hraised => exact hraises hraised
      | completed | quit =>
        rw [flushed_eq] at hunfinished
        dsimp only at hunfinished
        split at hunfinished <;> cases hunfinished
      | failed => cases hunfinished
    exact ⟨_, endsIn_of_run hended, fun r' hr' => hr'.unique (endsIn_of_run hended)⟩
  · intro e he
    refine ⟨_, Eval.endsIn_of_expr fun m' hunfinished => ?_⟩
    have hexpr := L.expr hm (hp e he)
    rw [hunfinished] at hexpr
    exact hraises hexpr.2

/-- The program `f <- function(n) { f(n) }; f(0)`, which calls itself without end, ends, and so does
`while (TRUE) 1` with a limit of three rounds. -/
theorem Machine.endsIn_recursion_and_loop :
    let recursion : Program :=
      [.assign ⟨0, 26⟩ "f" (.function ⟨5, 26⟩ ["n"] (.block ⟨17, 26⟩
        [.call ⟨19, 23⟩ "f" [.var ⟨21, 22⟩ "n"]])),
        .call ⟨28, 32⟩ "f" [.literal ⟨30, 31⟩ (.int 0)]]
    let loop : Program :=
      [.whileDo ⟨0, 14⟩ (.literal ⟨7, 11⟩ (.bool true)) (.literal ⟨13, 14⟩ (.int 1))]
    let m : Machine := {}
    let three : Limits := { maxIterations := some 3 }
    (Bounded {} recursion m ∧ ∃ r, m.EndsIn {} recursion r) ∧
      Bounded three loop m ∧ ∃ r, m.EndsIn three loop r := by
  intro recursion loop m three
  have hfree : Bounded {} recursion m := by
    refine .inr ⟨by decide, ?_⟩
    intro s hs e he
    obtain rfl := List.mem_singleton.mp hs
    cases he
  have hlimit : Bounded three loop m := .inl rfl
  obtain ⟨⟨r, hr, -⟩, -⟩ := Machine.endsIn_of_bounded hfree
  obtain ⟨⟨r', hr', -⟩, -⟩ := Machine.endsIn_of_bounded hlimit
  exact ⟨⟨hfree, r, hr⟩, hlimit, r', hr'⟩

end ScopeScript
