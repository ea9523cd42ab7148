import ScopeScript.Proofs.Meaning

/-!
# Trees that differ in their ranges

`t.SameAs u` says that two match trees have the same rules and texts all over, and differ at most in
their ranges. Such trees denote the same expression up to ranges (`Tree.SameAs.denotes`). Ranges
take part in reading at one place only, where operands are joined: the range of the new node goes
from the left operand to the right one. `climb` and its companions are therefore shown to commute
with erasing the ranges.
-/

namespace ScopeScript

/-! ### Trees without ranges -/

mutual

/-- The tree without ranges. -/
def Tree.eraseSpans : Tree → Tree
  | .node rule _ lexeme ts => .node rule .blank lexeme (eraseSpansAll ts)

/-- The trees without ranges. -/
def Tree.eraseSpansAll : List Tree → List Tree
  | [] => []
  | t :: ts => t.eraseSpans :: eraseSpansAll ts

end

namespace Tree

/-- The second tree is the first one, up to ranges. -/
def SameAs (t u : Tree) : Prop := u.eraseSpans = t.eraseSpans

theorem SameAs.forall₂ {ts us : List Tree} (h : eraseSpansAll us = eraseSpansAll ts) :
    List.Forall₂ SameAs ts us := by
  induction ts generalizing us with
  | nil =>
    cases us with
    | nil => exact .nil
    | cons u us => cases h
  | cons t ts ih =>
    cases us with
    | nil => cases h
    | cons u us =>
      obtain ⟨hu, hus⟩ := List.cons.inj h
      exact .cons hu (ih hus)

theorem SameAs.exists_node {r : Rule} {span : Span} {lexeme : List Char} {ts : List Tree} {u : Tree}
    (h : (Tree.node r span lexeme ts).SameAs u) :
    ∃ span' us, u = .node r span' lexeme us ∧ List.Forall₂ SameAs ts us := by
  obtain ⟨r', span', lexeme', us⟩ := u
  simp only [SameAs, eraseSpans, Tree.node.injEq] at h
  obtain ⟨rfl, -, rfl, hus⟩ := h
  exact ⟨span', us, rfl, SameAs.forall₂ hus⟩

theorem sameAs_node (r : Rule) (span span' : Span) (lexeme : List Char) {ts us : List Tree}
    (h : List.Forall₂ SameAs ts us) :
    (Tree.node r span lexeme ts).SameAs (.node r span' lexeme us) := by
  have hall : eraseSpansAll us = eraseSpansAll ts := by
    induction h with
    | nil => rfl
    | cons hu _ ih => exact congrArg₂ List.cons hu ih
  rw [SameAs, eraseSpans, eraseSpans, hall]

/-- Properties given by other trees. -/
theorem allHave_map_iff {ts us : List Tree} : AllHave (ts.map SameAs) us ↔
    List.Forall₂ SameAs ts us :=
  List.forall₂_map_left_iff

end Tree

/-! ### Runs of operands -/

/-- The part of a run without ranges. -/
def Item.eraseSpans : Item → Item
  | bang _ => bang .blank
  | operator op => operator op
  | operand e => operand e.eraseSpans

theorem Operator.join_eraseSpans (op : Operator) (left right : Expr) :
    (op.join left right).eraseSpans = op.join left.eraseSpans right.eraseSpans := by
  have hleft : left.eraseSpans.span = .blank := Expr.span_mapSpans _ left
  have hright : right.eraseSpans.span = .blank := Expr.span_mapSpans _ right
  cases op <;> simp only [join, hleft, hright] <;> rfl

theorem negate_eraseSpans (bang : Span) (operand : Expr) :
    (negate bang operand).eraseSpans = negate .blank operand.eraseSpans := by
  have hspan : operand.eraseSpans.span = .blank := Expr.span_mapSpans _ operand
  simp only [negate, hspan]
  rfl

/-- The operators and operands without ranges. -/
abbrev Operator.erasePairs (ops : List (Operator × Expr)) : List (Operator × Expr) :=
  ops.map (Prod.map id Expr.eraseSpans)

theorem climb_eraseSpans (fuel least : Nat) (left : Expr) (ops : List (Operator × Expr)) :
    climb fuel least left.eraseSpans (Operator.erasePairs ops) =
      Prod.map Expr.eraseSpans Operator.erasePairs (climb fuel least left ops) := by
  induction fuel generalizing least left ops with
  | zero => rfl
  | succ fuel ih =>
    cases ops with
    | nil => rfl
    | cons first ops =>
      obtain ⟨op, operand⟩ := first
      simp only [climb, List.map_cons, Prod.map_apply, id_eq]
      split
      · rfl
      · rw [ih]
        simp only [Prod.map_fst, Prod.map_snd, ← Operator.join_eraseSpans, ih]

theorem Item.takeOperand_eraseSpans (items : List Item) :
    takeOperand (items.map eraseSpans) =
      (takeOperand items).map (Prod.map Expr.eraseSpans (List.map eraseSpans)) := by
  induction items with
  | nil => rfl
  | cons item items ih =>
    cases item with
    | bang span =>
      simp only [List.map_cons, eraseSpans, takeOperand, ih, Option.map_map]
      congr 1
      funext found
      simp only [Function.comp_apply, Prod.map_apply, negate_eraseSpans]
      rfl
    | operator op => rfl
    | operand e => rfl

theorem Item.takeOperators_eraseSpans (fuel : Nat) (items : List Item) :
    takeOperators fuel (items.map eraseSpans) =
      (takeOperators fuel items).map Operator.erasePairs := by
  induction fuel generalizing items with
  | zero =>
    cases items with
    | nil => rfl
    | cons item items => cases item <;> rfl
  | succ fuel ih =>
    cases items with
    | nil => rfl
    | cons item items =>
      cases item with
      | bang | operand => rfl
      | operator op =>
        simp only [List.map_cons, eraseSpans, takeOperators, takeOperand_eraseSpans]
        cases takeOperand items with
        | none => rfl
        | some found =>
          simp only [Option.map_some, Prod.map_fst, Prod.map_snd, ih, Option.map_map]
          rfl

theorem Item.tree?_eraseSpans (items : List Item) :
    tree? (items.map eraseSpans) = (tree? items).map Expr.eraseSpans := by
  simp only [tree?, takeOperand_eraseSpans, List.length_map]
  cases takeOperand items with
  | none => rfl
  | some found =>
    simp only [Option.map_some, Prod.map_fst, Prod.map_snd, takeOperators_eraseSpans,
      Option.map_map]
    congr 1
    funext ops
    simp only [Function.comp_apply, joinAll, List.length_map, climb_eraseSpans, Prod.map_fst]

/-! ### What trees denote -/

theorem Literal.ofTree_of_sameAs {r : Rule} {span span' : Span} {lexeme : List Char}
    {ts us : List Tree} {v : Literal} (h : Literal.ofTree (.node r span lexeme ts) = .ok v) :
    Literal.ofTree (.node r span' lexeme us) = .ok v := by
  unfold Literal.ofTree at h ⊢
  simp only [Tree.rule, Tree.lexeme] at h ⊢
  split at h
  case h_5 => cases h
  all_goals grind [unhandled]

theorem Literal.mapM_of_sameAs {ts us : List Tree} (hsame : List.Forall₂ Tree.SameAs ts us)
    {vs : List Literal}
    (h : ts.mapM Literal.ofTree = .ok vs) : us.mapM Literal.ofTree = .ok vs := by
  induction hsame generalizing vs with
  | nil => exact h
  | @cons t u ts us hu _ ih =>
    rw [List.mapM_cons] at h ⊢
    obtain ⟨v, hv, h⟩ := exists_of_bind_eq_ok h
    obtain ⟨vs', hvs, h⟩ := exists_of_bind_eq_ok h
    cases h
    obtain ⟨rule, span, lexeme, children⟩ := t
    obtain ⟨span', us', rfl, -⟩ := hu.exists_node
    rw [Literal.ofTree_of_sameAs hv, ih hvs]
    rfl

theorem Relation.ofTree_of_sameAs {r : Rule} {span span' : Span} {lexeme lexeme' : List Char}
    {ts us : List Tree} {op : Relation} (h : Relation.ofTree (.node r span lexeme ts) = .ok op) :
    Relation.ofTree (.node r span' lexeme' us) = .ok op := by
  unfold Relation.ofTree at h ⊢
  simp only [Tree.rule] at h ⊢
  split at h
  case h_7 => cases h
  all_goals exact h

theorem Tree.SameAs.name {t u : Tree} (h : t.SameAs u) : u.name = t.name := by
  obtain ⟨rule, span, lexeme, children⟩ := t
  obtain ⟨span', us, rfl, -⟩ := h.exists_node
  rfl

theorem Tree.SameAs.map_name {ts us : List Tree} (h : List.Forall₂ Tree.SameAs ts us) :
    us.map Tree.name = ts.map Tree.name := by
  induction h with
  | nil => rfl
  | cons hu _ ih => exact congrArg₂ List.cons hu.name ih

namespace Tree

/-- What is read from trees is read from trees that differ in their ranges. -/
def ReadsAlike (ts : List Tree) : Prop :=
  ∀ t ∈ ts, ∀ u e, t.SameAs u → Expr.ofTree t = .ok e → u.Denotes e

theorem ReadsAlike.ofTrees {ts us : List Tree} (h : ReadsAlike ts)
    (hsame : List.Forall₂ SameAs ts us)
    {es : List Expr} (hread : Expr.ofTrees ts = .ok es) : AllHave (es.map Denotes) us := by
  induction hsame generalizing es with
  | nil =>
    cases hread
    exact .nil
  | cons hu _ ih =>
    obtain ⟨ht, hts⟩ := List.forall_mem_cons.mp h
    obtain ⟨e, he, hread⟩ := exists_of_bind_eq_ok hread
    obtain ⟨es', hes, hread⟩ := exists_of_bind_eq_ok hread
    cases hread
    exact .cons (ht _ _ hu he) (ih hts hes)

theorem ReadsAlike.items {ts us : List Tree} (h : ReadsAlike ts) (hsame : List.Forall₂ SameAs ts us)
    {items : List Item} (hread : Item.ofTrees ts = .ok items) :
    ∃ items', Item.ofTrees us = .ok items' ∧
    items'.map Item.eraseSpans = items.map Item.eraseSpans := by
  induction hsame generalizing items with
  | nil =>
    cases hread
    exact ⟨[], rfl, rfl⟩
  | @cons t u ts us hu _ ih =>
    obtain ⟨ht, hts⟩ := List.forall_mem_cons.mp h
    obtain ⟨rule, span, lexeme, children⟩ := t
    have hu' := hu
    obtain ⟨span', us', rfl, -⟩ := hu.exists_node
    -- the first item may differ in its ranges, and so may the others
    have hcons : ∀ item item', item'.eraseSpans = item.eraseSpans →
        (Item.ofTrees ts >>= fun items => pure (item :: items)) = .ok items →
        ∃ items', (Item.ofTrees us >>= fun items => pure (item' :: items)) = .ok items' ∧
          items'.map Item.eraseSpans = items.map Item.eraseSpans := by
      intro item item' hitem hread
      obtain ⟨rest, hrest, hread⟩ := exists_of_bind_eq_ok hread
      cases hread
      obtain ⟨rest', hrest', heq⟩ := ih hts hrest
      exact ⟨item' :: rest', by rw [hrest']; rfl, congrArg₂ List.cons hitem heq⟩
    unfold Item.ofTrees at hread ⊢
    split at hread
    · exact hcons (.bang span) (.bang span') rfl hread
    · rename_i op _ _
      exact hcons (.operator op) (.operator op) rfl hread
    · obtain ⟨e, he, hread⟩ := exists_of_bind_eq_ok hread
      obtain ⟨e', he', heq⟩ := ht _ _ hu' he
      have hitem : (Item.operand e').eraseSpans = (Item.operand e).eraseSpans :=
        congrArg Item.operand heq
      obtain ⟨items', hitems', hall⟩ := hcons _ _ hitem hread
      exact ⟨items', by simp only [he']; exact hitems', hall⟩

section Nodes

variable {span span' : Span} {lexeme : List Char} {us : List Tree}

theorem ReadsAlike.denotes_run {ts : List Tree} {items : List Item} {e : Expr} (h : ReadsAlike ts)
    (hsame : List.Forall₂ SameAs ts us) (hitems : Item.ofTrees ts = .ok items)
    (hrun : Item.tree? items = some e) :
    (Tree.node .simple span' lexeme us).Denotes e := by
  obtain ⟨items', hitems', heq⟩ := h.items hsame hitems
  have htree := Item.tree?_eraseSpans items'
  rw [heq, Item.tree?_eraseSpans, hrun] at htree
  obtain ⟨e', he', heq'⟩ := Option.map_eq_some_iff.mp htree.symm
  exact ⟨e', (Makes.run hitems' he').ofTree, heq'⟩

theorem ReadsAlike.denotes_compare {a op b : Tree} {left right : Expr} {relation : Relation}
    (h : ReadsAlike [a, op, b]) (hsame : List.Forall₂ SameAs [a, op, b] us)
    (hleft : Expr.ofTree a = .ok left)
    (hrelation : Relation.ofTree op = .ok relation) (hright : Expr.ofTree b = .ok right) :
    (Tree.node .arith span' lexeme us).Denotes (.compare span relation left right) := by
  obtain _ | ⟨ha, _ | ⟨hop, _ | ⟨hb, ⟨⟩⟩⟩⟩ := hsame
  obtain ⟨left', hleft', heqLeft⟩ := h a (by simp) _ _ ha hleft
  obtain ⟨right', hright', heqRight⟩ := h b (by simp) _ _ hb hright
  obtain ⟨rule, opSpan, opLexeme, opChildren⟩ := op
  obtain ⟨opSpan', us', rfl, -⟩ := hop.exists_node
  refine ⟨.compare span' relation left' right', ?_,
    congrArg₂ (Expr.compare .blank relation) heqLeft heqRight⟩
  exact (Makes.compare hleft' (Relation.ofTree_of_sameAs hrelation) hright').ofTree

theorem ReadsAlike.denotes_element {name index : Tree} {a : Expr} (h : ReadsAlike [name, index])
    (hsame : List.Forall₂ SameAs [name, index] us) (hindex : Expr.ofTree index = .ok a) :
    (Tree.node .singleElement span' lexeme us).Denotes (.element span name.name a) := by
  obtain _ | ⟨hname, _ | ⟨hi, ⟨⟩⟩⟩ := hsame
  obtain ⟨a', ha', heq⟩ := h index (by simp) _ _ hi hindex
  refine ⟨.element span' name.name a', ?_, congrArg (Expr.element .blank _) heq⟩
  exact hname.name ▸ (Makes.element ha').ofTree

theorem ReadsAlike.denotes_call {name : Tree} {argsSpan : Span} {argsLexeme : List Char}
    {args : List Tree} {es : List Expr} (h : ReadsAlike args)
    (hsame : List.Forall₂ SameAs [name, .node .args argsSpan argsLexeme args] us)
    (hargs : Expr.ofTrees args = .ok es) :
    (Tree.node .call span' lexeme us).Denotes (.call span name.name es) := by
  obtain _ | ⟨hname, _ | ⟨hnode, ⟨⟩⟩⟩ := hsame
  obtain ⟨argsSpan', us', rfl, hus⟩ := hnode.exists_node
  obtain ⟨es', hes', heq⟩ := (h.ofTrees hus hargs).ofTrees
  refine ⟨.call span' name.name es', ?_, ?_⟩
  · exact hname.name ▸ (Makes.call hes').ofTree
  · simp only [Expr.eraseSpans, Expr.mapSpans, Expr.mapSpansAll_eq_map]
    exact congrArg (Expr.call .blank _) heq

theorem ReadsAlike.denotes_forIn {name items body : Tree} {a b : Expr}
    (h : ReadsAlike [name, items, body])
    (hsame : List.Forall₂ SameAs [name, items, body] us) (ha : Expr.ofTree items = .ok a)
    (hb : Expr.ofTree body = .ok b) :
    (Tree.node .forExpr span' lexeme us).Denotes (.forIn span name.name a b) := by
  obtain _ | ⟨hname, _ | ⟨hitems, _ | ⟨hbody, ⟨⟩⟩⟩⟩ := hsame
  obtain ⟨a', ha', heqItems⟩ := h items (by simp) _ _ hitems ha
  obtain ⟨b', hb', heqBody⟩ := h body (by simp) _ _ hbody hb
  refine ⟨.forIn span' name.name a' b', ?_, congrArg₂ (Expr.forIn .blank _) heqItems heqBody⟩
  exact hname.name ▸ (Makes.forIn ha' hb').ofTree

theorem ReadsAlike.denotes_assign {name value : Tree} {a : Expr} (h : ReadsAlike [name, value])
    (hsame : List.Forall₂ SameAs [name, value] us) (ha : Expr.ofTree value = .ok a) :
    (Tree.node .assignment span' lexeme us).Denotes (.assign span name.name a) := by
  obtain _ | ⟨hname, _ | ⟨hvalue, ⟨⟩⟩⟩ := hsame
  obtain ⟨a', ha', heq⟩ := h value (by simp) _ _ hvalue ha
  refine ⟨.assign span' name.name a', ?_, congrArg (Expr.assign .blank _) heq⟩
  exact hname.name ▸ (Makes.assign ha').ofTree

theorem ReadsAlike.denotes_assignAt {name index value : Tree} {indexSpan : Span}
    {indexLexeme : List Char} {a b : Expr} (h : ReadsAlike [index, value])
    (hsame : List.Forall₂ SameAs [name, .node .index indexSpan indexLexeme [index], value] us)
    (ha : Expr.ofTree index = .ok a) (hb : Expr.ofTree value = .ok b) :
    (Tree.node .assignment span' lexeme us).Denotes (.assignAt span name.name a b) := by
  obtain _ | ⟨hname, _ | ⟨hnode, _ | ⟨hvalue, ⟨⟩⟩⟩⟩ := hsame
  obtain ⟨indexSpan', us', rfl, _ | ⟨hindex, ⟨⟩⟩⟩ := hnode.exists_node
  obtain ⟨a', ha', heqIndex⟩ := h index (by simp) _ _ hindex ha
  obtain ⟨b', hb', heqValue⟩ := h value (by simp) _ _ hvalue hb
  refine ⟨.assignAt span' name.name a' b', ?_, congrArg₂ (Expr.assignAt .blank _) heqIndex heqValue⟩
  exact hname.name ▸ (Makes.assignAt ha' hb').ofTree

theorem ReadsAlike.denotes_function {paramsSpan : Span} {paramsLexeme : List Char}
    {params : List Tree} {body : Tree} {a : Expr} (h : ReadsAlike [body])
    (hsame : List.Forall₂ SameAs [.node .params paramsSpan paramsLexeme params, body] us)
    (ha : Expr.ofTree body = .ok a) :
    (Tree.node .functionDef span' lexeme us).Denotes (.function span (params.map Tree.name) a) := by
  obtain _ | ⟨hnode, _ | ⟨hbody, ⟨⟩⟩⟩ := hsame
  obtain ⟨paramsSpan', us', rfl, hparams⟩ := hnode.exists_node
  obtain ⟨a', ha', heq⟩ := h body (by simp) _ _ hbody ha
  refine ⟨.function span' (params.map Tree.name) a', ?_, congrArg (Expr.function .blank _) heq⟩
  exact SameAs.map_name hparams ▸ (Makes.function ha').ofTree

end Nodes

/-- **Ranges take no part in what a tree denotes**, but for the ranges of the expression. -/
theorem SameAs.denotes (t : Tree) : ∀ u e, t.SameAs u → Expr.ofTree t = .ok e → u.Denotes e := by
  induction t using Tree.induction with
  | h t ih =>
    intro u e hsame h
    have hchildren : ReadsAlike t.children := fun a ha => ih a (.child ha)
    obtain ⟨rule, span, lexeme, children⟩ := t
    obtain ⟨span', us, rfl, hus⟩ := hsame.exists_node
    cases makes_of_ofTree h with
    | @alone _ _ a _ he =>
      obtain _ | ⟨ha, ⟨⟩⟩ := hus
      exact IsNode.denotes_arith ⟨_, _, _, rfl,
        .cons (hchildren a (by simp [Tree.children]) _ _ ha he) .nil⟩
    | @grouped _ _ a _ he =>
      obtain _ | ⟨ha, ⟨⟩⟩ := hus
      exact (IsNode.denotes_grouped
        ⟨_, _, _, rfl, .cons (hchildren a (by simp [Tree.children]) _ _ ha he) .nil⟩).1
    | run hitems hrun => exact hchildren.denotes_run hus hitems hrun
    | compare hleft hrelation hright =>
      exact ReadsAlike.denotes_compare hchildren hus hleft hrelation hright
    | literal hrule hv =>
      exact ⟨.literal span' _, (Makes.literal hrule (Literal.ofTree_of_sameAs hv)).ofTree, rfl⟩
    | var => exact ⟨.var span' _, Makes.var.ofTree, rfl⟩
    | element hindex => exact ReadsAlike.denotes_element hchildren hus hindex
    | @call _ _ _ _ _ args _ hargs =>
      have halike : ReadsAlike args :=
        fun a ha => ih a (.deep (List.mem_cons_of_mem _ List.mem_cons_self) ha)
      exact halike.denotes_call hus hargs
    | @ifThen _ _ c a _ _ h₁ h₂ =>
      obtain _ | ⟨hc, _ | ⟨ha, ⟨⟩⟩⟩ := hus
      exact IsNode.denotes_ifThen ⟨_, _, _, rfl,
        .cons (hchildren c (by simp [Tree.children]) _ _ hc h₁)
        (.cons (hchildren a (by simp [Tree.children]) _ _ ha h₂) .nil)⟩ span
    | @ifElse _ _ c a b _ _ _ h₁ h₂ h₃ =>
      obtain _ | ⟨hc, _ | ⟨ha, _ | ⟨hb, ⟨⟩⟩⟩⟩ := hus
      exact IsNode.denotes_ifElse ⟨_, _, _, rfl,
        .cons (hchildren c (by simp [Tree.children]) _ _ hc h₁)
        (.cons (hchildren a (by simp [Tree.children]) _ _ ha h₂)
          (.cons (hchildren b (by simp [Tree.children]) _ _ hb h₃) .nil))⟩ span
    | @whileDo _ _ c a _ _ h₁ h₂ =>
      obtain _ | ⟨hc, _ | ⟨ha, ⟨⟩⟩⟩ := hus
      exact IsNode.denotes_whileDo ⟨_, _, _, rfl,
        .cons (hchildren c (by simp [Tree.children]) _ _ hc h₁)
        (.cons (hchildren a (by simp [Tree.children]) _ _ ha h₂) .nil)⟩ span
    | forIn hitems hbody => exact ReadsAlike.denotes_forIn hchildren hus hitems hbody
    | brk => exact ⟨.brk span', Makes.brk.ofTree, rfl⟩
    | nxt => exact ⟨.nxt span', Makes.nxt.ofTree, rfl⟩
    | block hes => exact IsNode.denotes_block ⟨_, _, _, rfl, hchildren.ofTrees hus hes⟩ span
    | assign hvalue => exact ReadsAlike.denotes_assign hchildren hus hvalue
    | @assignAt _ _ _ _ _ index value _ _ hindex hvalue =>
      refine ReadsAlike.denotes_assignAt
        (List.forall_mem_cons.mpr ⟨ih index ?_, List.forall_mem_singleton.mpr ?_⟩)
        hus hindex hvalue
      · exact .deep (List.mem_cons_of_mem _ List.mem_cons_self) List.mem_cons_self
      · exact hchildren value (by simp [Tree.children])
    | @function _ _ _ _ _ body _ hbody =>
      exact ReadsAlike.denotes_function
        (List.forall_mem_singleton.mpr (hchildren body (by simp [Tree.children]))) hus hbody
    | list hvs => exact ⟨.list span' _, (Makes.list (Literal.mapM_of_sameAs hus hvs)).ofTree, rfl⟩
    | @print _ _ a _ he =>
      obtain _ | ⟨ha, ⟨⟩⟩ := hus
      exact IsNode.denotes_print ⟨_, _, _, rfl,
        .cons (hchildren a (by simp [Tree.children]) _ _ ha he) .nil⟩ span
    | @cat _ _ a _ he =>
      obtain _ | ⟨ha, ⟨⟩⟩ := hus
      exact IsNode.denotes_cat ⟨_, _, _, rfl,
        .cons (hchildren a (by simp [Tree.children]) _ _ ha he) .nil⟩ span
    | read => exact ⟨.read span', Makes.read.ofTree, rfl⟩
    | quit => exact ⟨.quit span', Makes.quit.ofTree, rfl⟩

theorem SameAs.denotes_all {ts us : List Tree} (h : List.Forall₂ SameAs ts us) {es : List Expr}
    (hread : Expr.ofTrees ts = .ok es) :
    ∃ es', Expr.ofTrees us = .ok es' ∧ es'.map Expr.eraseSpans = es.map Expr.eraseSpans :=
  (ReadsAlike.ofTrees (fun t _ => SameAs.denotes t) h hread).ofTrees

end Tree

end ScopeScript
