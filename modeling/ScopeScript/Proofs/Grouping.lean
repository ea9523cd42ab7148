import ScopeScript.Proofs.Geometry
import ScopeScript.Proofs.Meaning

/-!
# How operands are grouped

A run of operands is a sum of terms. The factors of a term are joined by tight operators (`*`, `/`,
`%%`, `^`, `&`), and the terms by loose ones (`+`, `-`, `|`); a factor is an operand with the signs
before it. So the terms are the maximal runs of tight operators (`Sequence.AreTerms`), and
`Sequence.grouping` says what is read without powers and without climbing: signs apply to their
operand, then each term is joined from the left, and then the terms are.

* `Grouping` is a tree over signs and operands. The range of each node is laid down by the signs and
  operands at its two ends (`Grouping.range`), not by the nodes below it.
* `Sequence.flatten_terms`, `Sequence.areTerms_terms`: every sequence of factors has terms.
* `joinAll_flatten`: climbing reads one term after the other.
* `Expr.ofTree_grouping`: a match of a run of operands is read as its terms are grouped, if its
  operands can be read.
-/

namespace ScopeScript

/-! ### Sequences and terms -/

/-- Whether the operator is written `*`, `/`, `%%`, `^` or `&`, and not `+`, `-` or `|`. -/
def Operator.isTight : Operator → Bool
  | arith .mul | arith .div | arith .mod | arith .pow | logical .and => true
  | arith .add | arith .sub | logical .or => false

/-- Something, and operators with something behind each. -/
structure Sequence (α : Type) where
  first : α
  rest : List (Operator × α)

namespace Sequence

variable {α β : Type}

/-- Changes what stands between the operators. -/
def map (f : α → β) (s : Sequence α) : Sequence β :=
  ⟨f s.first, s.rest.map (Prod.map id f)⟩

/-- Joins everything, from left to right. -/
def fold (join : Operator → α → α → α) (s : Sequence α) : α :=
  s.rest.foldl (fun left x => join x.1 left x.2) s.first

/-- An operator and the sequence behind it, written out. -/
def spread (x : Operator × Sequence α) : List (Operator × α) :=
  (x.1, x.2.first) :: x.2.rest

/-- A sequence of sequences, written out. -/
def flatten (s : Sequence (Sequence α)) : Sequence α :=
  ⟨s.first.first, s.first.rest ++ s.rest.flatMap spread⟩

/-- All operators are tight. -/
def IsTerm (s : Sequence α) : Prop := ∀ x ∈ s.rest, x.1.isTight = true

/-- Operators are tight inside of the sequences, and loose between them. -/
structure AreTerms (s : Sequence (Sequence α)) : Prop where
  first : s.first.IsTerm
  rest : ∀ x ∈ s.rest, x.1.isTight = false ∧ x.2.IsTerm

/-- The terms of what begins with `first`. -/
def termsFrom (first : α) : List (Operator × α) → Sequence (Sequence α)
  | [] => ⟨⟨first, []⟩, []⟩
  | (op, next) :: rest =>
    let later := termsFrom next rest
    if op.isTight then ⟨⟨first, spread (op, later.first)⟩, later.rest⟩
    else ⟨⟨first, []⟩, (op, later.first) :: later.rest⟩

/-- The maximal runs of tight operators, with the loose operators between them. -/
def terms (s : Sequence α) : Sequence (Sequence α) := termsFrom s.first s.rest

theorem flatten_termsFrom (first : α) (rest : List (Operator × α)) :
    (termsFrom first rest).flatten = ⟨first, rest⟩ := by
  induction rest generalizing first with
  | nil => rfl
  | cons x rest ih =>
    obtain ⟨op, next⟩ := x
    obtain ⟨hfirst, hrest⟩ := Sequence.mk.inj (ih next)
    unfold termsFrom
    split
    · simp only [flatten, spread, List.cons_append, hfirst, hrest]
    · simp only [flatten, spread, List.flatMap_cons, List.nil_append, List.cons_append,
        hfirst, hrest]

/-- The terms are cut out of the sequence. -/
theorem flatten_terms (s : Sequence α) : s.terms.flatten = s := flatten_termsFrom s.first s.rest

theorem areTerms_termsFrom (first : α) (rest : List (Operator × α)) :
    (termsFrom first rest).AreTerms := by
  induction rest generalizing first with
  | nil => exact ⟨nofun, nofun⟩
  | cons x rest ih =>
    obtain ⟨op, next⟩ := x
    obtain ⟨hfirst, hrest⟩ := ih next
    unfold termsFrom
    split
    · rename_i hop
      exact ⟨List.forall_mem_cons.mpr ⟨hop, hfirst⟩, hrest⟩
    · rename_i hop
      exact ⟨nofun, List.forall_mem_cons.mpr ⟨⟨by simpa using hop, hfirst⟩, hrest⟩⟩

/-- The cuts are at the loose operators. -/
theorem areTerms_terms (s : Sequence α) : s.terms.AreTerms := areTerms_termsFrom s.first s.rest

example : terms ⟨1, [(.arith .add, 2), (.arith .mul, 3), (.logical .or, 4)]⟩ =
    ⟨⟨1, []⟩, [(.arith .add, ⟨2, [(.arith .mul, 3)]⟩), (.logical .or, ⟨4, []⟩)]⟩ := rfl

/-! ### Other things between the operators -/

theorem map_map {γ : Type} (g : β → γ) (f : α → β) (s : Sequence α) :
    (s.map f).map g = s.map (g ∘ f) := by
  simp only [map, List.map_map, Function.comp_apply, Prod.map_comp_map, Function.id_comp]

theorem flatten_map (f : α → β) (s : Sequence (Sequence α)) :
    (s.map (map f)).flatten = s.flatten.map f := by
  simp only [flatten, map, spread, List.map_append, List.map_flatMap, List.flatMap_map,
    List.map_cons, Prod.map]

theorem IsTerm.map (f : α → β) {s : Sequence α} (h : s.IsTerm) : (s.map f).IsTerm :=
  List.forall_mem_map.mpr h

theorem AreTerms.map (f : α → β) {s : Sequence (Sequence α)} (h : s.AreTerms) :
    (s.map (Sequence.map f)).AreTerms where
  first := h.first.map f
  rest := List.forall_mem_map.mpr fun x hx => ⟨(h.rest x hx).1, (h.rest x hx).2.map f⟩

/-- Joining and changing the result is the same as changing everything and joining then. -/
theorem map_fold {f : α → β} {join : Operator → α → α → α} {join' : Operator → β → β → β}
    (hf : ∀ op a b, f (join op a b) = join' op (f a) (f b)) (s : Sequence α) :
    f (s.fold join) = (s.map f).fold join' := by
  obtain ⟨first, rest⟩ := s
  rw [fold, fold, map, List.foldl_map]
  exact (List.foldl_hom f fun a x => (hf x.1 a x.2).symm).symm

end Sequence

/-! ### Climbing -/

theorem Operator.power_eq (op : Operator) : op.power = if op.isTight then 2 else 1 := by
  rcases op with (_ | _ | _ | _ | _ | _) | (_ | _) <;> rfl

theorem Operator.power_eq_two {op : Operator} (h : op.isTight = true) : op.power = 2 := by
  rw [power_eq, if_pos h]

theorem Operator.power_eq_one {op : Operator} (h : op.isTight = false) : op.power = 1 := by
  rw [power_eq, h, if_neg Bool.false_ne_true]

theorem Operator.power_le_two (op : Operator) : op.power ≤ 2 := by
  rw [power_eq]
  split <;> decide

section Climbing

variable {fuel least : Nat} {left : Expr} {ops tight rest : List (Operator × Expr)}

/-- An operator that binds less tightly than wanted is left alone. -/
theorem climb_stops (h : ∀ x ∈ ops.head?, x.1.power < least) :
    climb fuel least left ops = (left, ops) := by
  cases fuel with
  | zero => rfl
  | succ fuel =>
    cases ops with
    | nil => rfl
    | cons x ops => rw [climb, if_pos (h x rfl)]

/-- Tight operators are read one by one: none of them goes to the right operand of another. -/
theorem climb_tight (hleast : least ≤ 2) (htight : ∀ x ∈ tight, x.1.isTight = true) :
    climb (tight.length + fuel) least left (tight ++ rest) =
      climb fuel least (Sequence.fold Operator.join ⟨left, tight⟩) rest := by
  induction tight generalizing left with
  | nil => rw [List.length_nil, Nat.zero_add, List.nil_append, Sequence.fold, List.foldl_nil]
  | cons x tight ih =>
    obtain ⟨hop, htight⟩ := List.forall_mem_cons.mp htight
    have hpower := Operator.power_eq_two hop
    -- the operand is read for operators that bind more tightly, and there are none
    have hoperand : climb (tight.length + fuel) 3 x.2 (tight ++ rest) = (x.2, tight ++ rest) :=
      climb_stops fun y _ => Nat.lt_succ_of_le y.1.power_le_two
    have hfuel : (x :: tight).length + fuel = (tight.length + fuel) + 1 := by
      rw [List.length_cons]
      omega
    rw [hfuel, List.cons_append, climb, hpower, if_neg (by omega), hoperand]
    exact ih htight

/-- A loose operator is read with the term behind it. -/
theorem climb_loose {op : Operator} {term : Sequence Expr} (hleast : least ≤ 1)
    (hop : op.isTight = false) (hterm : term.IsTerm) (hrest : ∀ x ∈ rest.head?, x.1.isTight = false)
    (hfuel : term.rest.length ≤ fuel) :
    climb (fuel + 1) least left (Sequence.spread (op, term) ++ rest) =
      climb fuel least (op.join left (term.fold Operator.join)) rest := by
  have hpower := Operator.power_eq_one hop
  -- the operand is read for tight operators, so its term is, up to the next loose one
  obtain ⟨spare, rfl⟩ : ∃ spare, fuel = term.rest.length + spare :=
    ⟨fuel - term.rest.length, by omega⟩
  have hright : climb (term.rest.length + spare) 2 term.first (term.rest ++ rest) =
      (term.fold Operator.join, rest) := by
    rw [climb_tight (Nat.le_refl 2) hterm]
    refine climb_stops fun x hx => ?_
    rw [Operator.power_eq_one (hrest x hx)]
    exact Nat.one_lt_two
  rw [Sequence.spread, List.cons_append, climb, hpower, if_neg (by omega), hright]

/-- Loose operators are read one by one, each with the term behind it. -/
theorem climb_spread {later : List (Operator × Sequence Expr)} (hleast : least ≤ 1)
    (hlater : ∀ x ∈ later, x.1.isTight = false ∧ x.2.IsTerm)
    (hfuel : (later.flatMap Sequence.spread).length ≤ fuel) :
    climb fuel least left (later.flatMap Sequence.spread) =
      (Sequence.fold Operator.join
        ⟨left, later.map (Prod.map id (Sequence.fold Operator.join))⟩, []) := by
  induction later generalizing fuel left with
  | nil => exact climb_stops nofun
  | cons x later ih =>
    obtain ⟨op, term⟩ := x
    obtain ⟨⟨hop, hterm⟩, hlater⟩ := List.forall_mem_cons.mp hlater
    rw [List.flatMap_cons, List.length_append, Sequence.spread, List.length_cons] at hfuel
    obtain ⟨fuel, rfl⟩ : ∃ k, fuel = k + 1 := ⟨fuel - 1, by omega⟩
    have hnext : ∀ x ∈ (later.flatMap Sequence.spread).head?, x.1.isTight = false := by
      cases later with
      | nil => exact nofun
      | cons y later =>
        rintro x ⟨⟩
        exact (hlater y List.mem_cons_self).1
    rw [List.flatMap_cons, climb_loose hleast hop hterm hnext (by omega), ih hlater (by omega)]
    rfl

/-- **Climbing joins each term, and then the terms.** -/
theorem joinAll_flatten {s : Sequence (Sequence Expr)} (h : s.AreTerms) :
    joinAll s.flatten.first s.flatten.rest =
      (s.map (Sequence.fold Operator.join)).fold Operator.join := by
  obtain ⟨⟨first, tight⟩, later⟩ := s
  obtain ⟨htight, hlater⟩ := h
  have hfuel : (tight ++ later.flatMap Sequence.spread).length + 1 =
      tight.length + ((later.flatMap Sequence.spread).length + 1) := by
    rw [List.length_append, Nat.add_assoc]
  rw [joinAll, Sequence.flatten, hfuel, climb_tight (Nat.zero_le 2) htight,
    climb_spread (Nat.zero_le 1) hlater (Nat.le_succ _)]
  rfl

end Climbing

/-! ### Trees over signs and operands -/

/-- A tree of operators over operands. -/
inductive Grouping where
  | leaf (operand : Expr)
  | not (bang : Span) (operand : Grouping)
  | binary (op : Operator) (left right : Grouping)

namespace Grouping

/-- The range of the leftmost sign or operand. -/
def leftmost : Grouping → Span
  | leaf e => e.span
  | not bang _ => bang
  | binary _ left _ => left.leftmost

/-- The range of the rightmost operand. -/
def rightmost : Grouping → Span
  | leaf e => e.span
  | not _ operand => operand.rightmost
  | binary _ _ right => right.rightmost

/-- The range from the start of the leftmost sign or operand to the end of the rightmost operand. -/
def range (g : Grouping) : Span := ⟨g.leftmost.start, g.rightmost.stop⟩

/-- The signs, operators and operands, from left to right. -/
def items : Grouping → List Item
  | leaf e => [.operand e]
  | not bang operand => .bang bang :: operand.items
  | binary op left right => left.items ++ .operator op :: right.items

/-- The tree as an expression. -/
def expr : Grouping → Expr
  | leaf e => e
  | not bang operand => .not (not bang operand).range operand.expr
  | binary (.arith op) left right =>
    .arith (binary (.arith op) left right).range op left.expr right.expr
  | binary (.logical op) left right =>
    .logical (binary (.logical op) left right).range op left.expr right.expr

theorem span_expr (g : Grouping) : g.expr.span = g.range := by
  rcases g with e | ⟨bang, operand⟩ | ⟨op | op, left, right⟩ <;> rfl

/-- Negating an operand makes the node of its sign. -/
theorem expr_not (bang : Span) (operand : Grouping) :
    (not bang operand).expr = negate bang operand.expr := by
  rw [negate, span_expr]
  rfl

/-- Joining two operands makes the node of their operator. -/
theorem expr_binary (op : Operator) (left right : Grouping) :
    (binary op left right).expr = op.join left.expr right.expr := by
  cases op <;> (rw [Operator.join.eq_def, span_expr, span_expr]; rfl)

end Grouping

/-! ### Factors -/

/-- An operand and the ranges of the signs before it. -/
structure Factor where
  bangs : List Span
  operand : Expr

namespace Factor

/-- The signs and the operand. -/
def items (f : Factor) : List Item := f.bangs.map .bang ++ [.operand f.operand]

/-- The signs apply to the operand, the nearest one first. -/
def grouping (f : Factor) : Grouping := f.bangs.foldr .not (.leaf f.operand)

theorem items_grouping (f : Factor) : f.grouping.items = f.items := by
  obtain ⟨bangs, operand⟩ := f
  induction bangs with
  | nil => rfl
  | cons bang bangs ih => exact congrArg (Item.bang bang :: ·) ih

/-- A factor is split off as it is grouped. -/
theorem takeOperand_items (f : Factor) (rest : List Item) :
    Item.takeOperand (f.items ++ rest) = some (f.grouping.expr, rest) := by
  obtain ⟨bangs, operand⟩ := f
  induction bangs with
  | nil => rfl
  | cons bang bangs ih =>
    change Item.takeOperand (.bang bang :: (Factor.items ⟨bangs, operand⟩ ++ rest)) = _
    rw [Item.takeOperand, ih]
    exact congrArg (fun e => some (e, rest)) (Grouping.expr_not bang _).symm

end Factor

/-! ### Sequences of factors -/

namespace Sequence

/-- How terms are grouped: signs with their operand, then the factors of each term, then the
terms. -/
def grouping (terms : Sequence (Sequence Factor)) : Grouping :=
  (terms.map fun term => (term.map Factor.grouping).fold .binary).fold .binary

section Write

variable {α β : Type}

/-- The operators, and what stands between them, from left to right. -/
def write (items : α → List Item) (s : Sequence α) : List Item :=
  items s.first ++ s.rest.flatMap fun x => .operator x.1 :: items x.2

theorem write_map (items : β → List Item) (f : α → β) (s : Sequence α) :
    (s.map f).write items = s.write (items ∘ f) := by
  simp only [write, map, List.flatMap_map, Function.comp_apply, Prod.map_fst, Prod.map_snd, id_eq]

theorem write_flatten (items : α → List Item) (s : Sequence (Sequence α)) :
    s.flatten.write items = s.write (write items) := by
  simp only [write, flatten, spread, List.flatMap_append, List.flatMap_assoc, List.flatMap_cons,
    List.append_assoc, List.cons_append]

/-- Joining from the left keeps everything in its place. -/
theorem items_fold (s : Sequence Grouping) : (s.fold .binary).items = s.write Grouping.items := by
  obtain ⟨first, rest⟩ := s
  induction rest generalizing first with
  | nil => exact (List.append_nil _).symm
  | cons x rest ih =>
    have hrest := ih (.binary x.1 first x.2)
    simp only [write, Grouping.items, List.append_assoc] at hrest
    exact hrest

end Write

/-- The signs, operators and operands of factors. -/
def items (s : Sequence Factor) : List Item := s.write Factor.items

/-- **Grouping keeps signs, operators and operands in their order.** -/
theorem items_grouping (terms : Sequence (Sequence Factor)) :
    terms.grouping.items = terms.flatten.items := by
  have hfactor : Grouping.items ∘ Factor.grouping = Factor.items := funext Factor.items_grouping
  have hterm :
      (Grouping.items ∘ fun term : Sequence Factor => (term.map Factor.grouping).fold .binary) =
        items :=
    funext fun term => by rw [Function.comp_apply, items_fold, write_map, hfactor, items]
  rw [grouping, items_fold, write_map, hterm]
  exact (write_flatten Factor.items terms).symm

/-- The expression of a grouping is what the expressions of the factors are joined to. -/
theorem expr_grouping {terms : Sequence (Sequence Factor)} (h : terms.AreTerms) :
    terms.grouping.expr = joinAll terms.flatten.first.grouping.expr
      (terms.flatten.rest.map (Prod.map id (Grouping.expr ∘ Factor.grouping))) := by
  have hterm :
      (Grouping.expr ∘ fun term : Sequence Factor => (term.map Factor.grouping).fold .binary) =
      fold Operator.join ∘ map (Grouping.expr ∘ Factor.grouping) :=
    funext fun term => by
      rw [Function.comp_apply, map_fold Grouping.expr_binary, map_map, Function.comp_apply]
  calc terms.grouping.expr
    _ = (terms.map (fold Operator.join ∘ map (Grouping.expr ∘ Factor.grouping))).fold
      Operator.join := by
      rw [grouping, map_fold Grouping.expr_binary, map_map, hterm]
    _ = ((terms.map (map (Grouping.expr ∘ Factor.grouping))).map (fold Operator.join)).fold
      Operator.join := by
      rw [map_map]
    _ = joinAll _ _ := (joinAll_flatten (h.map (Grouping.expr ∘ Factor.grouping))).symm
    _ = _ := by
      rw [flatten_map]
      rfl

theorem takeOperators_write {ops : List (Operator × Factor)} {fuel : Nat}
    (hfuel : (ops.flatMap fun x => .operator x.1 :: x.2.items).length ≤ fuel) :
    Item.takeOperators fuel (ops.flatMap fun x => .operator x.1 :: x.2.items) =
      some (ops.map (Prod.map id (Grouping.expr ∘ Factor.grouping))) := by
  induction ops generalizing fuel with
  | nil =>
    unfold Item.takeOperators
    rfl
  | cons x ops ih =>
    rw [List.flatMap_cons, List.cons_append, List.length_cons, List.length_append] at hfuel
    obtain ⟨fuel, rfl⟩ : ∃ k, fuel = k + 1 := ⟨fuel - 1, by omega⟩
    have hrest := ih (by omega : (ops.flatMap fun x => .operator x.1 :: x.2.items).length ≤ fuel)
    rw [List.flatMap_cons, List.cons_append, Item.takeOperators, x.2.takeOperand_items]
    simp only [hrest, Option.map_some]
    rfl

/-- **Factors in a row are read as their terms are grouped.** -/
theorem tree?_items {terms : Sequence (Sequence Factor)} (h : terms.AreTerms) :
    Item.tree? terms.flatten.items = some terms.grouping.expr := by
  have hoperand := terms.flatten.first.takeOperand_items
    (terms.flatten.rest.flatMap fun x => .operator x.1 :: x.2.items)
  have hfuel : (terms.flatten.rest.flatMap fun x => .operator x.1 :: x.2.items).length ≤
      terms.flatten.items.length := by
    rw [items, write, List.length_append]
    exact Nat.le_add_left _ _
  change Item.takeOperand terms.flatten.items = _ at hoperand
  rw [Item.tree?, hoperand, expr_grouping h]
  simp only [takeOperators_write hfuel, Option.map_some]

end Sequence

/-! ### The trees of a run -/

/-- The rule whose matches are read as items of this kind. -/
def Item.kind : Item → Rule
  | bang _ => .prefixOp
  | operator _ => .infixOp
  | operand _ => .factor

/-- The rules that the parts of a run are matches of. -/
def Rule.partsOfRun : List Rule := [prefixOp, infixOp, factor]

/-- The tree is read as the item: a sign has the range of its tree, and so has an operand, unless it
is what stands in parentheses. -/
def Tree.IsReadAs (t : Tree) (item : Item) : Prop :=
  t.IsLeft item.kind ∧
    match item with
    | .bang span => span = t.span
    | .operator op => op.rule = t.rule
    | .operand e => Expr.ofTree t = .ok e ∧
      if t.rule = .grouped then ∃ inner, t.children = [inner] ∧
        Expr.ofTree inner = .ok e else e.span = t.span

/-- The error is that of the first operand that cannot be read. -/
def Tree.FailWith (ts : List Tree) (error : SyntaxError) : Prop :=
  ∃ before operand after, ts = before ++ operand :: after ∧
    (∀ u ∈ before, u.IsLeft .factor → ∃ e, Expr.ofTree u = .ok e) ∧
    operand.IsLeft .factor ∧ Expr.ofTree operand = .error error

section Trees

variable {t : Tree} {ts : List Tree} {item : Item} {items : List Item}

/-- Signs, operators and operands are matches of different rules. -/
theorem Tree.IsReadAs.kind_eq {r : Rule} (h : t.IsReadAs item) (hleft : t.IsLeft r)
    (hr : r ∈ Rule.partsOfRun) : item.kind = r := by
  have hkinds : ∀ r ∈ Rule.partsOfRun, ∀ s ∈ Rule.partsOfRun,
      ∀ q ∈ r.leaves, q ∈ s.leaves → r = s := by decide
  have hkind : item.kind ∈ Rule.partsOfRun := by cases item <;> simp [Item.kind, Rule.partsOfRun]
  exact hkinds _ hkind _ hr _ h.1 hleft

theorem Tree.isReadAs_operand {e : Expr} (h : t.IsMatch) (hleft : t.IsLeft .factor)
    (hread : Expr.ofTree t = .ok e) :
    t.IsReadAs (.operand e) := by
  refine ⟨hleft, hread, ?_⟩
  obtain ⟨rule, span, lexeme, children⟩ := t
  split
  · rename_i hgrouped
    obtain rfl : rule = .grouped := hgrouped
    have hchildren : List.Forall₂ Tree.IsLeft children [.expr] := h.forall₂_children rfl rfl rfl
    obtain _ | ⟨-, ⟨⟩⟩ := hchildren
    exact ⟨_, rfl, by rwa [Expr.ofTree] at hread⟩
  · rename_i hgrouped
    refine (Expr.span_of_ofTree ?_ hread).1
    simp only [Tree.IsLeft, Tree.rule, Rule.leaves, List.mem_cons, List.not_mem_nil,
      or_false] at hleft
    rcases hleft with rfl | rfl | rfl | rfl | rfl | rfl | rfl | rfl <;>
      first | rfl | exact absurd rfl hgrouped

theorem Operator.exists_rule_eq {r : Rule} (h : r ∈ Rule.infixOp.leaves) :
    ∃ op : Operator, op.rule = r := by
  have hrules : ∀ r ∈ Rule.infixOp.leaves,
      ∃ op ∈ [Operator.arith .add, .arith .sub, .arith .mul, .arith .div,
      .arith .mod, .arith .pow, .logical .and, .logical .or], op.rule = r := by decide
  obtain ⟨op, -, hop⟩ := hrules r h
  exact ⟨op, hop⟩

/-- A part of a run is read as an item, unless it is an operand that cannot be read. -/
theorem Item.ofTrees_cons_cases (h : t.IsMatch) (hpart : ∃ r ∈ Rule.partsOfRun, t.IsLeft r) :
    (∃ error, t.IsLeft .factor ∧ Expr.ofTree t = .error error ∧
      ∀ ts, ofTrees (t :: ts) = .error error) ∨
      ∃ item, t.IsReadAs item ∧ (t.IsLeft .factor → ∃ e, Expr.ofTree t = .ok e) ∧
        ∀ ts, ofTrees (t :: ts) = do return item :: (← ofTrees ts) := by
  obtain ⟨r, hr, hleft⟩ := hpart
  have hoperand : ∀ {item}, t.IsReadAs item → item.kind ≠ .factor → t.IsLeft .factor →
      ∃ e, Expr.ofTree t = .ok e :=
    fun hread hkind hfactor => absurd (hread.kind_eq hfactor (by decide)) hkind
  simp only [Rule.partsOfRun, List.mem_cons, List.not_mem_nil, or_false] at hr
  rcases hr with rfl | rfl | rfl
  · have hread : t.IsReadAs (.bang t.span) := ⟨hleft, rfl⟩
    exact .inr ⟨_, hread, hoperand hread nofun, ofTrees_bang hleft⟩
  · obtain ⟨op, hop⟩ := Operator.exists_rule_eq hleft
    have hread : t.IsReadAs (.operator op) := ⟨hleft, hop⟩
    refine .inr ⟨_, hread, hoperand hread nofun, fun ts => ?_⟩
    obtain ⟨rule, span, lexeme, children⟩ := t
    cases hop
    exact ofTrees_operator op span lexeme children ts
  · cases hread : Expr.ofTree t with
    | error error =>
      refine .inl ⟨error, hleft, rfl, fun ts => ?_⟩
      rw [ofTrees_operand hleft, hread]
      rfl
    | ok e =>
      refine .inr ⟨.operand e, Tree.isReadAs_operand h hleft hread, fun _ => ⟨e, rfl⟩, fun ts => ?_⟩
      rw [ofTrees_operand hleft, hread]
      rfl

/-- The parts of a run are read from left to right. -/
theorem Item.ofTrees_cases (h : ∀ t ∈ ts, t.IsMatch)
    (hparts : ∀ t ∈ ts, ∃ r ∈ Rule.partsOfRun, t.IsLeft r) :
    (∃ error, Tree.FailWith ts error ∧ ofTrees ts = .error error) ∨
      ∃ items, List.Forall₂ Tree.IsReadAs ts items ∧ ofTrees ts = .ok items := by
  induction ts with
  | nil => exact .inr ⟨[], .nil, rfl⟩
  | cons t ts ih =>
    obtain ⟨ht, hts⟩ := List.forall_mem_cons.mp h
    obtain ⟨hpart, hparts⟩ := List.forall_mem_cons.mp hparts
    rcases ofTrees_cons_cases ht hpart with
      ⟨error, hleft, hread, hfail⟩ | ⟨item, hitem, hread, hcons⟩
    · exact .inl ⟨error, ⟨[], t, ts, rfl, nofun, hleft, hread⟩, hfail ts⟩
    rcases ih hts hparts with
      ⟨error, ⟨before, operand, after, rfl, hbefore, hoperand⟩, hfail⟩ | ⟨items, hitems, hok⟩
    · refine .inl ⟨error,
        ⟨t :: before, operand, after, rfl, ?_, hoperand⟩, by rw [hcons, hfail]; rfl⟩
      exact List.forall_mem_cons.mpr ⟨hread, hbefore⟩
    · exact .inr ⟨item :: items, .cons hitem hitems, by rw [hcons, hok]; rfl⟩

/-! ### The factors of a run -/

/-- Signs and an operand are read as a factor. -/
theorem Factor.exists_items_append {nots rest : List Tree} {operand : Tree}
    (hnots : ∀ u ∈ nots, u.IsLeft .prefixOp) (hoperand : operand.IsLeft .factor)
    (h : List.Forall₂ Tree.IsReadAs (nots ++ operand :: rest) items) :
    ∃ (f : Factor) (tail : List Item), items = f.items ++ tail ∧
    List.Forall₂ Tree.IsReadAs rest tail := by
  induction nots generalizing items with
  | nil =>
    obtain _ | ⟨hread, hrest⟩ := h
    rename_i item tail
    have hkind := hread.kind_eq hoperand (by decide)
    cases item with
    | operand e => exact ⟨⟨[], e⟩, tail, rfl, hrest⟩
    | bang | operator => cases hkind
  | cons bang nots ih =>
    obtain ⟨hbang, hnots⟩ := List.forall_mem_cons.mp hnots
    obtain _ | ⟨hread, hrest⟩ := h
    rename_i item others
    have hkind := hread.kind_eq hbang (by decide)
    cases item with
    | bang span =>
      obtain ⟨f, tail, rfl, htail⟩ := ih hnots hrest
      exact ⟨⟨span :: f.bangs, f.operand⟩, tail, rfl, htail⟩
    | operator | operand => cases hkind

/-- Operators with signs and an operand each are read as operators and factors. -/
theorem Sequence.exists_rest {runs : List (List Tree)}
    (hruns : ∀ us ∈ runs, ∃ op : Tree, op.IsLeft .infixOp ∧
      ∃ nots : List Tree, (∀ u ∈ nots, u.IsLeft .prefixOp) ∧
        ∃ operand : Tree, operand.IsLeft .factor ∧ op :: (nots ++ [operand]) = us)
    (h : List.Forall₂ Tree.IsReadAs runs.flatten items) :
    ∃ ops : List (Operator × Factor), items = ops.flatMap fun x => .operator x.1 :: x.2.items := by
  induction runs generalizing items with
  | nil =>
    cases h
    exact ⟨[], rfl⟩
  | cons us runs ih =>
    obtain ⟨⟨op, hop, nots, hnots, operand, hoperand, rfl⟩, hlater⟩ := List.forall_mem_cons.mp hruns
    rw [List.flatten_cons, List.cons_append, List.append_assoc] at h
    obtain _ | ⟨hread, hrest⟩ := h
    rename_i item others
    have hkind := hread.kind_eq hop (by decide)
    cases item with
    | operator o =>
      obtain ⟨f, tail, rfl, htail⟩ := Factor.exists_items_append hnots hoperand hrest
      obtain ⟨ops, rfl⟩ := ih hlater htail
      exact ⟨(o, f) :: ops, by rw [List.flatMap_cons, List.cons_append]⟩
    | bang | operand => cases hkind

/-- **The items of a run are factors in a row**, and these have terms. -/
theorem Tree.IsMatch.exists_terms (h : t.IsMatch) (hrule : t.rule = .simple)
    (hitems : List.Forall₂ Tree.IsReadAs t.children items) :
    ∃ terms : Sequence (Sequence Factor), terms.AreTerms ∧ items = terms.flatten.items := by
  obtain ⟨nots, hnots, first, hfirst, runs, hruns, hchildren⟩ := h.children_simple hrule
  rw [← hchildren] at hitems
  obtain ⟨f, tail, rfl, htail⟩ := Factor.exists_items_append hnots hfirst hitems
  obtain ⟨ops, rfl⟩ := Sequence.exists_rest hruns htail
  let s : Sequence Factor := ⟨f, ops⟩
  exact ⟨s.terms, s.areTerms_terms, by rw [s.flatten_terms]; rfl⟩

theorem Tree.IsMatch.parts_simple (h : t.IsMatch) (hrule : t.rule = .simple) :
    ∀ u ∈ t.children, ∃ r ∈ Rule.partsOfRun, u.IsLeft r := by
  intro u hu
  obtain ⟨r, hr, hleft⟩ := (h.leaves hrule rfl).exists_mem_rules u hu
  have hrules : ∀ r ∈ Rule.simple.body.rules, r ∈ Rule.partsOfRun := by decide
  exact ⟨r, hrules r hr, hleft⟩

/-- A run is read item by item. -/
theorem Expr.ofTree_eq_bind (hrule : t.rule = .simple) :
    Expr.ofTree t = Item.ofTrees t.children >>= fun items =>
      match Item.tree? items with
      | some e => .ok e
      | none => .error ⟨.unhandled .simple, t.span⟩ := by
  obtain ⟨rule, span, lexeme, children⟩ := t
  cases hrule
  rw [Expr.ofTree]
  rfl

end Trees

namespace Expr

/-- **A run of operands is read as its terms are grouped**, or fails with the error of the first
operand that cannot be read. The signs, operators and operands of the grouping are those of the run,
in the order of the text. -/
theorem ofTree_grouping {t : Tree} (h : t.IsMatch) (hrule : t.rule = .simple) :
    Span.Chain t.span.start (t.children.map Tree.span) t.span.stop ∧
      ((∃ error, Tree.FailWith t.children error ∧ Expr.ofTree t = .error error) ∨
        ∃ terms : Sequence (Sequence Factor), terms.AreTerms ∧
          List.Forall₂ Tree.IsReadAs t.children terms.flatten.items ∧
          terms.grouping.items = terms.flatten.items ∧
          Expr.ofTree t = .ok terms.grouping.expr) := by
  refine ⟨h.chain_children, ?_⟩
  rw [Expr.ofTree_eq_bind hrule]
  rcases Item.ofTrees_cases (fun u hu => h.child hu) (h.parts_simple hrule) with
    ⟨error, hfail, hitems⟩ | ⟨items, hread, hitems⟩
  · exact .inl ⟨error, hfail, by rw [hitems]; rfl⟩
  · obtain ⟨terms, hterms, rfl⟩ := h.exists_terms hrule hread
    refine .inr ⟨terms, hterms, hread, terms.items_grouping, ?_⟩
    simp only [hitems, bind, Except.bind, Sequence.tree?_items hterms]

/-- The expression that is read from `1 - !2 ^ (3) + 4`. -/
def signedSum : Expr :=
  .arith ⟨0, 16⟩ .add
    (.arith ⟨0, 11⟩ .sub (.literal ⟨0, 1⟩ (.int 1))
      (.arith ⟨4, 11⟩ .pow (.not ⟨4, 6⟩ (.literal ⟨5, 6⟩ (.int 2))) (.literal ⟨10, 11⟩ (.int 3))))
    (.literal ⟨15, 16⟩ (.int 4))

/-- The sign applies to `2` alone, the power comes first, and then `-` and `+` do, from the left.
The operand in parentheses has the range without them, and the nodes that end with it stop there,
too. -/
theorem ofTree_grouping_signedSum :
    ∃ t, Rule.simple.trees "1 - !2 ^ (3) + 4".toList = .ok [t] ∧ t.IsMatch ∧ t.rule = .simple ∧
      ∃ terms : Sequence (Sequence Factor), terms.AreTerms ∧
        List.Forall₂ Tree.IsReadAs t.children terms.flatten.items ∧
        terms.grouping.items = terms.flatten.items ∧ terms.grouping.expr = signedSum := by
  obtain ⟨next, t, hmatch, hrule, hread⟩ : ∃ next t,
      Rule.simple.matchStart "1 - !2 ^ (3) + 4".toList = .ok (next, [t]) ∧ t.rule = .simple ∧
        Expr.ofTree t = .ok signedSum := ⟨_, _, rfl, rfl, rfl⟩
  have ht : t.IsMatch := (Rule.derives_of_matchStart hmatch).isMatch t List.mem_cons_self
  refine ⟨t, by rw [Rule.trees, hmatch], ht, hrule, ?_⟩
  obtain ⟨-, ⟨error, -, herror⟩ | ⟨terms, hterms, hitems, horder, hok⟩⟩ := ofTree_grouping ht hrule
  · rw [hread] at herror
    cases herror
  · rw [hread] at hok
    exact ⟨terms, hterms, hitems, horder, (Except.ok.inj hok).symm⟩

end Expr

end ScopeScript
