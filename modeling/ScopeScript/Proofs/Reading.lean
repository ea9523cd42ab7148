import ScopeScript.Ast.Parse
import ScopeScript.Ast.WellFormed
import ScopeScript.Proofs.Derivation
import ScopeScript.Proofs.Parts

/-!
# What is read from a text

That a property holds everywhere in an expression (`Expr.Everywhere`) has to be checked, for the
expressions of a program that was read from a text, only where a match tree becomes an expression
(`HoldsOfRead`), since every tree in question is a match of the grammar:

* `Tree.Makes`: the ways in which a tree denotes an expression. Whatever is read is read in one of
  them (`Tree.makes_of_ofTree`), so what is shown of expressions that are read is shown for each of
  the ways.
* `Program.everywhere_of_parse`: a property of expressions that are read, one by one, holds
  everywhere in a program that is read. What the trees are known to be is a parameter.
* `Program.isShaped_of_parse`: in such a program the body of every function is a block, and every
  list has an element.
-/

namespace ScopeScript

/-! ### Trees and the expressions they denote -/

/-- The second tree is a child of the first one, or a child of a child. -/
inductive Tree.HasInside (t : Tree) : Tree → Prop where
  | child {u : Tree} (hu : u ∈ t.children) : HasInside t u
  | deep {rule : Rule} {span : Span} {lexeme : List Char} {us : List Tree} {u : Tree}
      (hnode : .node rule span lexeme us ∈ t.children) (hu : u ∈ us) : HasInside t u

/-- An induction on trees that reaches the children of the children. -/
theorem Tree.induction {motive : Tree → Prop}
    (h : ∀ t, (∀ u, t.HasInside u → motive u) → motive t) (t : Tree) : motive t := by
  have hboth : motive t ∧ ∀ u ∈ t.children, motive u := by
    refine @Tree.rec (fun t => motive t ∧ ∀ u ∈ t.children, motive u)
      (fun ts => ∀ u ∈ ts, motive u ∧ ∀ v ∈ u.children, motive v) ?_ ?_ ?_ t
    · intro rule span lexeme children ih
      refine ⟨h _ ?_, fun u hu => (ih u hu).1⟩
      rintro u (hu | ⟨hnode, hu⟩)
      · exact (ih u hu).1
      · exact (ih _ hnode).2 u hu
    · exact fun _ hu => absurd hu List.not_mem_nil
    · intro head tail hhead htail u hu
      rcases List.mem_cons.mp hu with rfl | hu
      · exact hhead
      · exact htail u hu
  exact hboth.1

theorem Tree.IsMatch.inside {t u : Tree} (ht : t.IsMatch) (hu : t.HasInside u) : u.IsMatch := by
  cases hu with
  | child hu => exact ht.child hu
  | deep hnode hu => exact (ht.child hnode).child hu

/-! ### What a tree denotes -/

theorem exists_of_bind_eq_ok {ε α β : Type} {x : Except ε α} {f : α → Except ε β} {b : β}
    (h : x >>= f = .ok b) : ∃ a, x = .ok a ∧ f a = .ok b := by
  cases x with
  | error => cases h
  | ok a => exact ⟨a, rfl, h⟩

theorem bind_eq_ok_iff {ε α β : Type} {x : Except ε α} {f : α → Except ε β} {b : β} :
    x >>= f = .ok b ↔ ∃ a, x = .ok a ∧ f a = .ok b := by
  refine ⟨exists_of_bind_eq_ok, ?_⟩
  rintro ⟨a, rfl, h⟩
  exact h

/-- The tree denotes the expression: a constructor for each way to read one. -/
inductive Tree.Makes : Tree → Expr → Prop where
  | alone {span : Span} {lexeme : List Char} {a : Tree} {e : Expr} (h : Expr.ofTree a = .ok e) :
      Makes (.node .arith span lexeme [a]) e
  | grouped {span : Span} {lexeme : List Char} {a : Tree} {e : Expr} (h : Expr.ofTree a = .ok e) :
      Makes (.node .grouped span lexeme [a]) e
  | run {span : Span} {lexeme : List Char} {parts : List Tree} {items : List Item} {e : Expr}
      (hitems : Item.ofTrees parts = .ok items) (hrun : Item.tree? items = some e) :
      Makes (.node .simple span lexeme parts) e
  | compare {span : Span} {lexeme : List Char} {a op b : Tree} {left right : Expr}
      {relation : Relation}
      (hleft : Expr.ofTree a = .ok left) (hrelation : Relation.ofTree op = .ok relation)
      (hright : Expr.ofTree b = .ok right) :
      Makes (.node .arith span lexeme [a, op, b]) (.compare span relation left right)
  | literal {rule : Rule} {span : Span} {lexeme : List Char} {children : List Tree} {v : Literal}
      (hrule : rule ∈ [.float, .int, .string, .boolean])
      (hv : Literal.ofTree (.node rule span lexeme []) = .ok v) :
      Makes (.node rule span lexeme children) (.literal span v)
  | var {span : Span} {lexeme : List Char} {children : List Tree} :
      Makes (.node .ident span lexeme children) (.var span (String.ofList lexeme))
  | element {span : Span} {lexeme : List Char} {name index : Tree} {e : Expr}
      (hindex : Expr.ofTree index = .ok e) :
      Makes (.node .singleElement span lexeme [name, index]) (.element span name.name e)
  | call {span argsSpan : Span} {lexeme argsLexeme : List Char} {name : Tree} {args : List Tree}
      {es : List Expr} (hargs : Expr.ofTrees args = .ok es) :
      Makes (.node .call span lexeme [name, .node .args argsSpan argsLexeme args])
        (.call span name.name es)
  | ifThen {span : Span} {lexeme : List Char} {c a : Tree} {cond yes : Expr}
      (hcond : Expr.ofTree c = .ok cond) (hyes : Expr.ofTree a = .ok yes) :
      Makes (.node .ifExpr span lexeme [c, a]) (.ifThen span cond yes)
  | ifElse {span : Span} {lexeme : List Char} {c a b : Tree} {cond yes no : Expr}
      (hcond : Expr.ofTree c = .ok cond) (hyes : Expr.ofTree a = .ok yes)
        (hno : Expr.ofTree b = .ok no) :
      Makes (.node .ifExpr span lexeme [c, a, b]) (.ifElse span cond yes no)
  | whileDo {span : Span} {lexeme : List Char} {c a : Tree} {cond body : Expr}
      (hcond : Expr.ofTree c = .ok cond) (hbody : Expr.ofTree a = .ok body) :
      Makes (.node .whileExpr span lexeme [c, a]) (.whileDo span cond body)
  | forIn {span : Span} {lexeme : List Char} {name a b : Tree} {items body : Expr}
      (hitems : Expr.ofTree a = .ok items) (hbody : Expr.ofTree b = .ok body) :
      Makes (.node .forExpr span lexeme [name, a, b]) (.forIn span name.name items body)
  | brk {span : Span} {lexeme : List Char} {children : List Tree} :
      Makes (.node .breakExpr span lexeme children) (.brk span)
  | nxt {span : Span} {lexeme : List Char} {children : List Tree} :
      Makes (.node .nextExpr span lexeme children) (.nxt span)
  | block {span : Span} {lexeme : List Char} {children : List Tree} {es : List Expr}
      (hes : Expr.ofTrees children = .ok es) :
      Makes (.node .compound span lexeme children) (.block span es)
  | assign {span : Span} {lexeme : List Char} {name a : Tree} {value : Expr}
      (hvalue : Expr.ofTree a = .ok value) :
      Makes (.node .assignment span lexeme [name, a]) (.assign span name.name value)
  | assignAt {span indexSpan : Span} {lexeme indexLexeme : List Char} {name a b : Tree}
      {index value : Expr}
      (hindex : Expr.ofTree a = .ok index) (hvalue : Expr.ofTree b = .ok value) :
      Makes (.node .assignment span lexeme [name, .node .index indexSpan indexLexeme [a], b])
        (.assignAt span name.name index value)
  | function {span paramsSpan : Span} {lexeme paramsLexeme : List Char}
      {params : List Tree} {a : Tree} {body : Expr} (hbody : Expr.ofTree a = .ok body) :
      Makes (.node .functionDef span lexeme [.node .params paramsSpan paramsLexeme params, a])
        (.function span (params.map Tree.name) body)
  | list {span : Span} {lexeme : List Char} {children : List Tree} {vs : List Literal}
      (hvs : children.mapM Literal.ofTree = .ok vs) :
      Makes (.node .listExpr span lexeme children) (.list span vs)
  | print {span : Span} {lexeme : List Char} {a : Tree} {e : Expr} (h : Expr.ofTree a = .ok e) :
      Makes (.node .printExpr span lexeme [a]) (.print span e)
  | cat {span : Span} {lexeme : List Char} {a : Tree} {e : Expr} (h : Expr.ofTree a = .ok e) :
      Makes (.node .catExpr span lexeme [a]) (.cat span e)
  | read {span : Span} {lexeme : List Char} {children : List Tree} :
      Makes (.node .readExpr span lexeme children) (.read span)
  | quit {span : Span} {lexeme : List Char} {children : List Tree} :
      Makes (.node .quitExpr span lexeme children) (.quit span)

/-- An expression is read in one of these ways only. -/
theorem Tree.makes_of_ofTree {t : Tree} {e : Expr} (h : Expr.ofTree t = .ok e) : t.Makes e := by
  obtain ⟨rule, span, lexeme, children⟩ := t
  unfold Expr.ofTree at h
  split at h
  case h_1 => exact .alone h
  case h_4 => exact .grouped h
  case h_3 =>
    obtain ⟨items, hitems, h⟩ := exists_of_bind_eq_ok h
    split at h
    · rename_i hrun
      cases h
      exact .run hitems hrun
    · cases h
  case h_27 => cases h
  all_goals
    simp only [bind_eq_ok_iff, pure, Except.pure, Except.ok.injEq] at h
    grind [Tree.Makes]

theorem Tree.Makes.ofTree {t : Tree} {e : Expr} (h : t.Makes e) : Expr.ofTree t = .ok e := by
  cases h with
  | alone h | grouped h => rwa [Expr.ofTree]
  | run hitems hrun =>
    rw [Expr.ofTree, hitems]
    simp only [bind, Except.bind, hrun]
    rfl
  | literal hrule hv =>
    simp only [List.mem_cons, List.not_mem_nil, or_false] at hrule
    rcases hrule with rfl | rfl | rfl | rfl <;> (rw [Expr.ofTree, hv]; rfl)
  | compare hleft hrelation hright =>
    rw [Expr.ofTree, hleft, hrelation, hright]
    rfl
  | var | brk | nxt | read | quit =>
    rw [Expr.ofTree]
    rfl
  | element h | call h | block h | assign h | function h | list h | print h | cat h =>
    rw [Expr.ofTree, h]
    rfl
  | ifThen h h' | whileDo h h' | forIn h h' | assignAt h h' =>
    rw [Expr.ofTree, h, h']
    rfl
  | ifElse hcond hyes hno =>
    rw [Expr.ofTree, hcond, hyes, hno]
    rfl

theorem Expr.exists_of_mem_ofTrees {ts : List Tree} {es : List Expr} {e : Expr}
    (h : Expr.ofTrees ts = .ok es) (he : e ∈ es) : ∃ t ∈ ts, Expr.ofTree t = .ok e := by
  induction ts generalizing es with
  | nil =>
    cases h
    cases he
  | cons t ts ih =>
    obtain ⟨e', ht, h⟩ := exists_of_bind_eq_ok h
    obtain ⟨es', hts, h⟩ := exists_of_bind_eq_ok h
    cases h
    rcases List.mem_cons.mp he with rfl | he
    · exact ⟨t, List.mem_cons_self, ht⟩
    · obtain ⟨u, hu, hread⟩ := ih hts he
      exact ⟨u, List.mem_cons_of_mem _ hu, hread⟩

theorem Item.exists_of_mem_ofTrees {ts : List Tree} {items : List Item} {e : Expr}
    (h : Item.ofTrees ts = .ok items) (he : .operand e ∈ items) :
    ∃ t ∈ ts, Expr.ofTree t = .ok e := by
  induction ts generalizing items with
  | nil =>
    cases h
    cases he
  | cons t ts ih =>
    obtain ⟨rule, span, lexeme, children⟩ := t
    -- the other items are those of the other trees
    have hrest : ∀ {item}, (Item.ofTrees ts >>= fun items => pure (item :: items)) = .ok items →
        .operand e = item ∨ ∃ t ∈ ts, Expr.ofTree t = .ok e := by
      intro item h
      obtain ⟨items', hts, h⟩ := exists_of_bind_eq_ok h
      cases h
      exact (List.mem_cons.mp he).imp id (ih hts)
    have hlater : (∃ t ∈ ts, Expr.ofTree t = .ok e) →
        ∃ t ∈ Tree.node rule span lexeme children :: ts, Expr.ofTree t = .ok e := by
      rintro ⟨u, hu, hread⟩
      exact ⟨u, List.mem_cons_of_mem _ hu, hread⟩
    unfold Item.ofTrees at h
    split at h
    · rcases hrest h with h | h
      · cases h
      · exact hlater h
    · rcases hrest h with h | h
      · cases h
      · exact hlater h
    · obtain ⟨e', hread, h⟩ := exists_of_bind_eq_ok h
      rcases hrest h with h | h
      · cases h
        exact ⟨_, List.mem_cons_self, hread⟩
      · exact hlater h

/-- Whether a tree denotes the same expression as a tree inside of it, or a run of operands. -/
def Tree.isBare : Tree → Bool
  | .node .arith _ _ [_] | .node .grouped _ _ [_] | .node .simple _ _ _ => true
  | _ => false

theorem Tree.isBare_of_constant {rule : Rule} {span : Span} {lexeme : List Char}
    {children : List Tree} (hrule : rule ∈ [.float, .int, .string, .boolean]) :
    (Tree.node rule span lexeme children).isBare = false := by
  simp only [List.mem_cons, List.not_mem_nil, or_false] at hrule
  rcases hrule with rfl | rfl | rfl | rfl <;> rfl

theorem Expr.exists_of_mem_inside {t : Tree} {e a : Expr} (hbare : t.isBare = false)
    (h : Expr.ofTree t = .ok e) (ha : a ∈ e.inside) : ∃ u, t.HasInside u ∧
    Expr.ofTree u = .ok a := by
  cases Tree.makes_of_ofTree h with
  | alone | grouped | run => cases hbare
  | call hargs =>
    obtain ⟨u, hu, hread⟩ := Expr.exists_of_mem_ofTrees hargs ha
    exact ⟨u, .deep (List.mem_cons_of_mem _ List.mem_cons_self) hu, hread⟩
  | block hes =>
    obtain ⟨u, hu, hread⟩ := Expr.exists_of_mem_ofTrees hes ha
    exact ⟨u, .child hu, hread⟩
  | _ => grind [Expr.inside, Expr.parts, Tree.children, Tree.HasInside.child, Tree.HasInside.deep]

theorem Expr.exists_of_isBare {t : Tree} {e : Expr} (hbare : t.isBare = true)
    (h : Expr.ofTree t = .ok e) :
    (∃ u, t.HasInside u ∧ Expr.ofTree u = .ok e) ∨
      ∃ items, Item.tree? items = some e ∧
        ∀ a, .operand a ∈ items → ∃ u, t.HasInside u ∧ Expr.ofTree u = .ok a := by
  cases Tree.makes_of_ofTree h with
  | alone h | grouped h => exact .inl ⟨_, .child List.mem_cons_self, h⟩
  | run hitems hrun =>
    refine .inr ⟨_, hrun, fun a ha => ?_⟩
    obtain ⟨u, hu, hread⟩ := Item.exists_of_mem_ofTrees hitems ha
    exact ⟨u, .child hu, hread⟩
  | literal hrule =>
    rw [Tree.isBare_of_constant hrule] at hbare
    cases hbare
  | _ => cases hbare

/-! ### Runs of operands -/

section Operators

variable {Q : Expr → Prop}

/-- What holds of the operands of a run holds of its tree, if operators and negations respect it. -/
structure RespectsOperators (Q : Expr → Prop) : Prop where
  join : ∀ {op left right}, Q left → Q right → Q (Operator.join op left right)
  negate : ∀ {span operand}, Q operand → Q (negate span operand)

namespace RespectsOperators

variable (hQ : RespectsOperators Q)

include hQ

theorem climb (fuel least : Nat) {left : Expr} {ops : List (Operator × Expr)} (hleft : Q left)
    (hops : ∀ x ∈ ops, Q x.2) :
    Q (climb fuel least left ops).1 ∧ ∀ x ∈ (climb fuel least left ops).2, Q x.2 := by
  induction fuel generalizing least left ops with
  | zero => exact ⟨hleft, hops⟩
  | succ fuel ih =>
    cases ops with
    | nil => exact ⟨hleft, hops⟩
    | cons x ops =>
      obtain ⟨op, operand⟩ := x
      obtain ⟨hoperand, hrest⟩ := List.forall_mem_cons.mp hops
      unfold ScopeScript.climb
      split
      · exact ⟨hleft, hops⟩
      · have hright := ih (op.power + 1) hoperand hrest
        exact ih least (hQ.join hleft hright.1) hright.2

theorem takeOperand {items rest : List Item} {e : Expr}
    (h : Item.takeOperand items = some (e, rest))
    (hitems : ∀ a, .operand a ∈ items → Q a) : Q e ∧ ∀ a, .operand a ∈ rest → Q a := by
  induction items generalizing e rest with
  | nil => cases h
  | cons item items ih =>
    have htail : ∀ a, .operand a ∈ items → Q a := fun a ha => hitems a (List.mem_cons_of_mem _ ha)
    cases item with
    | bang span =>
      obtain ⟨⟨e', rest'⟩, htake, heq⟩ := Option.map_eq_some_iff.mp h
      cases heq
      exact ⟨hQ.negate (ih htake htail).1, (ih htake htail).2⟩
    | operator op => cases h
    | operand a =>
      cases h
      exact ⟨hitems e List.mem_cons_self, htail⟩

theorem takeOperators {fuel : Nat} {items : List Item} {ops : List (Operator × Expr)}
    (h : Item.takeOperators fuel items = some ops) (hitems : ∀ a, .operand a ∈ items → Q a) :
    ∀ x ∈ ops, Q x.2 := by
  induction fuel generalizing items ops with
  | zero =>
    cases items with
    | nil =>
      cases h
      exact fun _ hx => absurd hx List.not_mem_nil
    | cons item items => cases item <;> cases h
  | succ fuel ih =>
    cases items with
    | nil =>
      cases h
      exact fun _ hx => absurd hx List.not_mem_nil
    | cons item items =>
      have htail : ∀ a, .operand a ∈ items → Q a := fun a ha => hitems a (List.mem_cons_of_mem _ ha)
      cases item with
      | bang | operand => cases h
      | operator op =>
        unfold Item.takeOperators at h
        split at h
        · rename_i e rest htake
          obtain ⟨ops', hrest, rfl⟩ := Option.map_eq_some_iff.mp h
          have hboth := hQ.takeOperand htake htail
          exact List.forall_mem_cons.mpr ⟨hboth.1, ih hrest hboth.2⟩
        · cases h

theorem tree? {items : List Item} {e : Expr} (h : Item.tree? items = some e)
    (hitems : ∀ a, .operand a ∈ items → Q a) : Q e := by
  unfold Item.tree? at h
  split at h
  · rename_i first rest htake
    obtain ⟨ops, hops, rfl⟩ := Option.map_eq_some_iff.mp h
    have hboth := hQ.takeOperand htake hitems
    exact (hQ.climb _ 0 hboth.1 (hQ.takeOperators hops hboth.2)).1
  · cases h

end RespectsOperators

end Operators

/-! ### Programs -/

/-- A property of expressions holds wherever one is made: out of a tree with the property `M`, which
its children share, or out of operands. -/
structure HoldsOfRead (M : Tree → Prop) (P : Expr → Prop) : Prop where
  child : ∀ {t u}, M t → u ∈ t.children → M u
  node : ∀ {t e}, M t → t.isBare = false → Expr.ofTree t = .ok e → P e
  join : ∀ op left right, P (Operator.join op left right)
  negate : ∀ span operand, P (negate span operand)

section Read

variable {M : Tree → Prop} {P : Expr → Prop}

theorem HoldsOfRead.respectsOperators (hP : HoldsOfRead M P) :
    RespectsOperators (Expr.Everywhere P) where
  join {op left right} hleft hright := by
    refine ⟨hP.join op left right, fun a ha => ?_⟩
    have hmem : a = left ∨ a = right := by
      cases op <;> simpa [Operator.join, Expr.inside, Expr.parts] using ha
    rcases hmem with rfl | rfl
    · exact hleft
    · exact hright
  negate {span operand} h := by
    refine ⟨hP.negate span operand, fun a ha => ?_⟩
    obtain rfl : a = operand := by simpa [ScopeScript.negate, Expr.inside, Expr.parts] using ha
    exact h

theorem HoldsOfRead.inside (hP : HoldsOfRead M P) {t u : Tree} (ht : M t)
    (hu : t.HasInside u) : M u := by
  cases hu with
  | child hu => exact hP.child ht hu
  | deep hnode hu => exact hP.child (hP.child ht hnode) hu

/-- **What holds wherever an expression is made holds everywhere in an expression that is read.** -/
theorem HoldsOfRead.everywhere (hP : HoldsOfRead M P) (t : Tree) :
    ∀ e, M t → Expr.ofTree t = .ok e → e.Everywhere P := by
  induction t using Tree.induction with
  | h t ih =>
    intro e ht h
    have hinside : ∀ {u a}, t.HasInside u → Expr.ofTree u = .ok a → a.Everywhere P :=
      fun hu hread => ih _ hu _ (hP.inside ht hu) hread
    cases hbare : t.isBare with
    | false =>
      refine ⟨hP.node ht hbare h, fun a ha => ?_⟩
      obtain ⟨u, hu, hread⟩ := Expr.exists_of_mem_inside hbare h ha
      exact hinside hu hread
    | true =>
      rcases Expr.exists_of_isBare hbare h with ⟨u, hu, hread⟩ | ⟨items, hrun, hitems⟩
      · exact hinside hu hread
      · refine hP.respectsOperators.tree? hrun fun a ha => ?_
        obtain ⟨u, hu, hread⟩ := hitems a ha
        exact hinside hu hread

end Read

/-- The trees of a program are matches. -/
theorem Program.isMatch_of_trees {source : List Char} {ts : List Tree}
    (h : Program.trees source = .ok ts) :
    ∀ t ∈ ts, t.IsMatch := by
  intro t ht
  obtain ⟨roots, hroots, h⟩ := exists_of_bind_eq_ok h
  cases h
  obtain ⟨root, hroot, ht⟩ := List.mem_flatMap.mp ht
  have hderives : ∃ next, Derives false (.rule .program) (.atStart source) roots next := by
    unfold Rule.trees at hroots
    split at hroots
    · rename_i next ts hmatch
      cases hroots
      exact ⟨next, Rule.derives_of_matchStart hmatch⟩
    · cases hroots
  obtain ⟨next, hderives⟩ := hderives
  exact (hderives.isMatch root hroot).child (List.mem_filter.mp ht).1

/-- What holds wherever an expression is made holds everywhere in a program that is read, if its
trees have the property in question. -/
theorem Program.everywhere_of_parse {M : Tree → Prop} {P : Expr → Prop} (hP : HoldsOfRead M P)
    {source : List Char}
    (htrees : ∀ ts, Program.trees source = .ok ts → ∀ t ∈ ts, M t) {p : Program}
    (h : Program.parse source = .ok p) : ∀ e ∈ p, e.Everywhere P := by
  intro e he
  obtain ⟨ts, hts, h⟩ := exists_of_bind_eq_ok h
  obtain ⟨t, ht, hread⟩ := Expr.exists_of_mem_ofTrees h he
  exact hP.everywhere t e (htrees ts hts t ht) hread

/-! ### Blocks and lists -/

/-- The body of a function is a block, and a list has an element. -/
def Expr.IsShaped : Expr → Prop
  | .function _ _ body => body.isBlock
  | .list _ items => items ≠ []
  | _ => True

theorem Expr.isBlock_of_compound {t : Tree} {e : Expr} (hrule : t.rule = .compound)
    (h : Expr.ofTree t = .ok e) : e.isBlock := by
  cases Tree.makes_of_ofTree h with
  | block => rfl
  | literal hconstant =>
    cases hrule
    exact absurd hconstant (by decide)
  | _ => cases hrule

theorem Expr.isShaped_of_ofTree {t : Tree} {e : Expr} (ht : t.IsMatch) (hbare : t.isBare = false)
    (h : Expr.ofTree t = .ok e) : e.IsShaped := by
  cases Tree.makes_of_ofTree h with
  | alone | grouped | run => cases hbare
  | function hbody =>
    obtain ⟨_, _, hchildren, -, hrule⟩ := ht.functionDef rfl
    cases hchildren
    exact Expr.isBlock_of_compound hrule hbody
  | @list _ _ children vs hvs =>
    have hne : children ≠ [] := ht.listExpr rfl
    rintro rfl
    cases children with
    | nil => exact hne rfl
    | cons t ts =>
      rw [List.mapM_cons] at hvs
      obtain ⟨v, -, hvs⟩ := exists_of_bind_eq_ok hvs
      obtain ⟨vs, -, hvs⟩ := exists_of_bind_eq_ok hvs
      cases hvs
  | _ => trivial

theorem Expr.holdsOfRead_isShaped : HoldsOfRead Tree.IsMatch Expr.IsShaped where
  child := Tree.IsMatch.child
  node := Expr.isShaped_of_ofTree
  join op _ _ := by cases op <;> trivial
  negate _ _ := trivial

/-- **In a program that is read from a text, every function body is a block and every list has an
element.** -/
theorem Program.isShaped_of_parse {source : List Char} {p : Program}
    (h : Program.parse source = .ok p) : ∀ e ∈ p, e.Everywhere Expr.IsShaped :=
  Program.everywhere_of_parse Expr.holdsOfRead_isShaped (fun _ => Program.isMatch_of_trees) h

end ScopeScript
