import Mathlib.Data.List.Forall2
import ScopeScript.Proofs.Lexemes

/-!
# The children of a node

What trees a pattern can leave is a matter of the pattern alone: nothing for texts and look-aheads,
one tree for most rules (`Rule.leaves`), and lists of them for sequences and repetitions.
`Pattern.Leaves` spells this out, and `Derives.leaves` says that derivations keep to it. For a node
the pattern is the body of its rule (`Tree.IsMatch.leaves`), so the children of every kind of node
can be read off the grammar; the last part does this for the nodes that expressions are made from.
-/

namespace ScopeScript

/-! ### What a pattern leaves -/

/-- A match of a rule leaves one tree of one of these rules; no tree at all, if there are none. -/
def Rule.leaves : Rule → List Rule
  | expr =>
    [ifExpr, whileExpr, forExpr, functionDef, assignment, quitExpr, printExpr, catExpr,
      readExpr, listExpr, compound, breakExpr, nextExpr, arith]
  | prefixOp => [not]
  | infixOp => [add, sub, or, mul, div, and, modulo, pow]
  | relOp => [le, lt, ge, gt, eq, ne]
  | factor => [float, int, string, boolean, call, singleElement, ident, grouped]
  | constant => [float, int, string, boolean]
  | r => if r.isSilent then [] else [r]

/-- The tree can be what is left by a match of the rule. -/
def Tree.IsLeft (t : Tree) (r : Rule) : Prop := t.rule ∈ r.leaves

/-- The trees that a pattern can leave outside of atomic rules. -/
def Pattern.Leaves : Pattern → List Tree → Prop
  | text _, ts | one _, ts | start, ts | stop, ts | ahead _, ts | notAhead _, ts => [] = ts
  | rule r, ts => if r.leaves = [] then [] = ts else ∃ t : Tree, t.IsLeft r ∧ [t] = ts
  | seq p q, ts => ∃ ps, p.Leaves ps ∧ ∃ qs, q.Leaves qs ∧ ps ++ qs = ts
  | alt p q, ts => p.Leaves ts ∨ q.Leaves ts
  | opt p, ts => [] = ts ∨ p.Leaves ts
  | star p, ts => ∃ tss : List (List Tree), (∀ us ∈ tss, p.Leaves us) ∧ tss.flatten = ts

theorem Pattern.leaves_rule_iff {r : Rule} (hr : r.leaves ≠ []) (ts : List Tree) :
    (Pattern.rule r).Leaves ts ↔ ∃ t : Tree, t.IsLeft r ∧ [t] = ts := by
  rw [Leaves, if_neg hr]

theorem Rule.leaves_of_isSilent (r : Rule) : r.isSilent = false → r.leaves = [r] := by
  cases r <;> decide

theorem Rule.leaves_of_isAtomic (r : Rule) : r.isSilent = true → r.isAtomic = true →
    r.leaves = [] := by
  cases r <;> decide

/-- What a choice between rules leaves. -/
theorem Pattern.leaves_firstOf {rs : List Rule} (hrs : ∀ r ∈ rs, r.isSilent = false) (hne : rs ≠ [])
    {ts : List Tree} (h : (Pattern.firstOf (rs.map .rule)).Leaves ts) :
    ∃ t : Tree, t.rule ∈ rs ∧ [t] = ts := by
  have hone : ∀ r ∈ rs, (Pattern.rule r).Leaves ts → ∃ t : Tree, t.rule = r ∧ [t] = ts := by
    intro r hr h
    have hleaves := r.leaves_of_isSilent (hrs r hr)
    rw [leaves_rule_iff (by rw [hleaves]; exact List.cons_ne_nil _ _)] at h
    simpa only [Tree.IsLeft, hleaves, List.mem_singleton] using h
  obtain ⟨r, hr, h⟩ : ∃ r ∈ rs, (Pattern.rule r).Leaves ts := by
    clear hone hrs
    induction rs with
    | nil => exact absurd rfl hne
    | cons r rs ih =>
      cases rs with
      | nil => exact ⟨r, List.mem_cons_self, h⟩
      | cons s rs =>
        rcases h with h | h
        · exact ⟨r, List.mem_cons_self, h⟩
        · obtain ⟨q, hq, h⟩ := ih (List.cons_ne_nil _ _) h
          exact ⟨q, List.mem_cons_of_mem _ hq, h⟩
  obtain ⟨t, rfl, ht⟩ := hone r hr h
  exact ⟨t, hr, ht⟩

/-- Silent rules hand on what their bodies leave. -/
theorem Rule.leaves_of_body {r : Rule} {ts : List Tree} (hsilent : r.isSilent = true)
    (hatomic : r.isAtomic = false) (h : r.body.Leaves ts) : (Pattern.rule r).Leaves ts := by
  have hchoice : r.body = .firstOf (r.leaves.map .rule) → (∀ s ∈ r.leaves, s.isSilent = false) →
      r.leaves ≠ [] → (Pattern.rule r).Leaves ts := by
    intro hbody hrs hne
    rw [hbody] at h
    exact (Pattern.leaves_rule_iff hne ts).mpr (Pattern.leaves_firstOf hrs hne h)
  cases r
  case expr | infixOp | relOp | factor | constant | prefixOp =>
    exact hchoice rfl (by decide) (by decide)
  case wordChar => exact h.elim id id
  case ifKw | elseKw | whileKw | functionKw | forKw | inKw | nextKw | breakKw | quitKw
    | printKw | catKw
      | readKw | listKw =>
    obtain ⟨ps, rfl, qs, rfl, rfl⟩ := h
    rfl
  -- the other rules leave a node, or are atomic
  all_goals exact absurd (And.intro hsilent hatomic) (by decide)

/-- **Derivations leave what patterns allow.** -/
theorem Derives.leaves {atomic : Bool} {p : Pattern} {here next : Cursor} {ts : List Tree}
    (h : Derives atomic p here ts next) (hatomic : atomic = false) : p.Leaves ts := by
  induction h with
  | text | one | start | stop | ahead | notAhead => rfl
  | @bare atomic r _ _ ts hr h ih =>
    subst hatomic
    rw [Bool.false_or] at h hr ih
    cases hr' : r.isAtomic with
    | false => exact Rule.leaves_of_body hr hr' (ih hr')
    | true =>
      rw [hr'] at h
      rw [Pattern.Leaves, if_pos (r.leaves_of_isAtomic hr hr')]
      exact (h.of_atomic rfl).symm
  | @node r _ _ ts hr h ih =>
    have hleaves := r.leaves_of_isSilent hr
    rw [Pattern.leaves_rule_iff (by rw [hleaves]; exact List.cons_ne_nil _ _)]
    exact ⟨_, by rw [Tree.IsLeft, hleaves]; exact List.mem_singleton_self _, rfl⟩
  | seq _ _ ihp ihq => exact ⟨_, ihp hatomic, _, ihq hatomic, rfl⟩
  | first _ ih => exact .inl (ih hatomic)
  | second _ ih => exact .inr (ih hatomic)
  | absent => exact .inl rfl
  | present _ ih => exact .inr (ih hatomic)
  | never => exact ⟨[], by simp, rfl⟩
  | once _ ih => exact ⟨[_], by simpa using ih hatomic, by simp⟩
  | @again _ _ _ _ _ ts us _ _ ihts ihus =>
    obtain ⟨tss, htss, rfl⟩ := ihts hatomic
    refine ⟨tss ++ [us], ?_, by simp⟩
    intro vs hvs
    rcases List.mem_append.mp hvs with hvs | hvs
    · exact htss vs hvs
    · obtain rfl := List.mem_singleton.mp hvs
      exact ihus hatomic

/-- Repeating what leaves one tree leaves a list of them. -/
theorem Tree.exists_flatten_eq_iff {P : Tree → Prop} {ts : List Tree} :
    (∃ tss : List (List Tree), (∀ us ∈ tss, ∃ t, P t ∧ [t] = us) ∧ tss.flatten = ts) ↔
    ∀ t ∈ ts, P t := by
  constructor
  · rintro ⟨tss, htss, rfl⟩ t ht
    obtain ⟨us, hus, ht⟩ := List.mem_flatten.mp ht
    obtain ⟨u, hu, rfl⟩ := htss us hus
    obtain rfl := List.mem_singleton.mp ht
    exact hu
  · intro h
    refine ⟨ts.map fun t => [t], ?_, by rw [← List.flatMap_def, List.flatMap_singleton']⟩
    intro us hus
    obtain ⟨t, ht, rfl⟩ := List.mem_map.mp hus
    exact ⟨t, h t ht, rfl⟩

/-! ### Sequences and repetitions -/

/-- The rules of which a pattern leaves a tree each, if this does not depend on the text. -/
def Pattern.parts? : Pattern → Option (List Rule)
  | text _ | one _ | start | stop | ahead _ | notAhead _ => some []
  | rule r => some (if r.leaves = [] then [] else [r])
  | seq p q => do return (← p.parts?) ++ (← q.parts?)
  | alt _ _ | opt _ | star _ => none

theorem Pattern.Leaves.forall₂ {p : Pattern} {rs : List Rule} {ts : List Tree} (h : p.Leaves ts)
    (hparts : p.parts? = some rs) : List.Forall₂ Tree.IsLeft ts rs := by
  induction p generalizing rs ts with
  | text | one | start | stop | ahead | notAhead =>
    cases h
    cases hparts
    exact .nil
  | rule r =>
    unfold Leaves at h
    cases hparts
    split at h
    · rename_i hr
      cases h
      rw [if_pos hr]
      exact .nil
    · rename_i hr
      obtain ⟨t, ht, rfl⟩ := h
      rw [if_neg hr]
      exact .cons ht .nil
  | seq p q ihp ihq =>
    obtain ⟨ps, hps, qs, hqs, rfl⟩ := h
    obtain ⟨as, has, hparts⟩ := Option.bind_eq_some_iff.mp hparts
    obtain ⟨bs, hbs, hparts⟩ := Option.bind_eq_some_iff.mp hparts
    cases hparts
    exact List.rel_append (ihp hps has) (ihq hqs hbs)
  | alt | opt | star => cases hparts

/-- The rules in a pattern that leave a tree. -/
def Pattern.rules : Pattern → List Rule
  | text _ | one _ | start | stop | ahead _ | notAhead _ => []
  | rule r => if r.leaves = [] then [] else [r]
  | seq p q | alt p q => p.rules ++ q.rules
  | opt p | star p => p.rules

theorem Pattern.Leaves.exists_mem_rules {p : Pattern} {ts : List Tree} (h : p.Leaves ts) :
    ∀ t ∈ ts, ∃ r ∈ p.rules, t.IsLeft r := by
  induction p generalizing ts with
  | text | one | start | stop | ahead | notAhead =>
    cases h
    exact fun _ ht => absurd ht List.not_mem_nil
  | rule r =>
    unfold Leaves at h
    split at h
    · cases h
      exact fun _ ht => absurd ht List.not_mem_nil
    · rename_i hr
      obtain ⟨t, ht, rfl⟩ := h
      rw [rules, if_neg hr]
      exact List.forall_mem_singleton.mpr ⟨r, List.mem_singleton_self r, ht⟩
  | seq p q ihp ihq =>
    obtain ⟨ps, hps, qs, hqs, rfl⟩ := h
    intro t ht
    rcases List.mem_append.mp ht with ht | ht
    · obtain ⟨r, hr, ht⟩ := ihp hps t ht
      exact ⟨r, List.mem_append_left _ hr, ht⟩
    · obtain ⟨r, hr, ht⟩ := ihq hqs t ht
      exact ⟨r, List.mem_append_right _ hr, ht⟩
  | alt p q ihp ihq =>
    intro t ht
    rcases h with h | h
    · obtain ⟨r, hr, ht⟩ := ihp h t ht
      exact ⟨r, List.mem_append_left _ hr, ht⟩
    · obtain ⟨r, hr, ht⟩ := ihq h t ht
      exact ⟨r, List.mem_append_right _ hr, ht⟩
  | opt p ih =>
    rcases h with rfl | h
    · exact fun _ ht => absurd ht List.not_mem_nil
    · exact ih h
  | star p ih =>
    obtain ⟨tss, htss, rfl⟩ := h
    intro t ht
    obtain ⟨us, hus, ht⟩ := List.mem_flatten.mp ht
    exact ih (htss us hus) t ht

/-! ### Nodes -/

namespace Tree.IsMatch

variable {t : Tree} {r : Rule} {rs : List Rule}

theorem leaves (h : t.IsMatch) (hrule : t.rule = r) (hatomic : r.isAtomic = false) :
    r.body.Leaves t.children := by
  obtain ⟨here, next, hderives, -⟩ := h
  rw [hrule] at hderives
  exact hderives.leaves hatomic

theorem children_of_isAtomic (h : t.IsMatch) (hatomic : t.rule.isAtomic = true) :
    t.children = [] := by
  obtain ⟨here, next, hderives, -⟩ := h
  exact hderives.of_atomic hatomic

/-- The children of a node with a fixed number of them. -/
theorem forall₂_children (h : t.IsMatch) (hrule : t.rule = r) (hatomic : r.isAtomic = false)
    (hparts : r.body.parts? = some rs) : List.Forall₂ Tree.IsLeft t.children rs :=
  (h.leaves hrule hatomic).forall₂ hparts

/-- The children of a node that has any number of them, all of one kind. -/
theorem forall_mem_children {part : Rule} (h : t.IsMatch) (hrule : t.rule = r)
    (hatomic : r.isAtomic = false)
    (hrules : ∀ s ∈ r.body.rules, s = part) : ∀ u ∈ t.children, u.IsLeft part := by
  intro u hu
  obtain ⟨s, hs, hleft⟩ := (h.leaves hrule hatomic).exists_mem_rules u hu
  rwa [hrules s hs] at hleft

section Grammar

-- the nodes of each kind: their children are what the body of their rule leaves, written out
attribute [local simp] Rule.body Pattern.inOrder Pattern.char Pattern.Leaves
  Rule.leaves Rule.isSilent

theorem children_program (h : t.IsMatch) (hrule : t.rule = .program) :
    ∃ es : List Tree, (∀ e ∈ es, e.IsLeft .expr) ∧
      ∃ stop : Tree, stop.IsLeft .endOfInput ∧ es ++ [stop] = t.children := by
  simpa [exists_flatten_eq_iff] using h.leaves hrule rfl

theorem children_ifExpr (h : t.IsMatch) (hrule : t.rule = .ifExpr) :
    ∃ cond : Tree, cond.IsLeft .expr ∧ ∃ rest, (∃ yes : Tree, yes.IsLeft .expr ∧
      ([yes] = rest ∨ ∃ no : Tree, no.IsLeft .expr ∧ [yes, no] = rest)) ∧
      cond :: rest = t.children := by
  simpa using h.leaves hrule rfl

theorem children_assignment (h : t.IsMatch) (hrule : t.rule = .assignment) :
    ∃ name : Tree, name.IsLeft .ident ∧ ∃ rest,
    ((∃ value : Tree, value.IsLeft .expr ∧ [value] = rest) ∨
      ∃ index : Tree, index.IsLeft .index ∧ ∃ value : Tree, value.IsLeft .expr ∧
      [index, value] = rest) ∧
      name :: rest = t.children := by
  simpa using h.leaves hrule rfl

theorem children_arith (h : t.IsMatch) (hrule : t.rule = .arith) :
    ∃ left : Tree, left.IsLeft .simple ∧ ([left] = t.children ∨
      ∃ op right : Tree, (op.IsLeft .relOp ∧ right.IsLeft .simple) ∧
      [left, op, right] = t.children) := by
  simpa using h.leaves hrule rfl

/-- A run of operands: an operand, and operators with an operand each. -/
theorem children_simple (h : t.IsMatch) (hrule : t.rule = .simple) :
    ∃ nots : List Tree, (∀ u ∈ nots, u.IsLeft .prefixOp) ∧ ∃ first : Tree, first.IsLeft .factor ∧
      ∃ runs : List (List Tree), (∀ us ∈ runs, ∃ op : Tree, op.IsLeft .infixOp ∧
        ∃ nots : List Tree, (∀ u ∈ nots, u.IsLeft .prefixOp) ∧
          ∃ operand : Tree, operand.IsLeft .factor ∧ op :: (nots ++ [operand]) = us) ∧
      nots ++ first :: runs.flatten = t.children := by
  simpa [exists_flatten_eq_iff] using h.leaves hrule rfl

end Grammar

end Tree.IsMatch

end ScopeScript
