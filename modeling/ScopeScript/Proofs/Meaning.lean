import ScopeScript.Proofs.Parts
import ScopeScript.Proofs.Reading
import ScopeScript.Proofs.Recognition

/-!
# What nodes denote

`t.Denotes e` says that the expression `e` is read from the tree `t`, up to ranges. For each kind of
node there is a lemma that builds this up from what the children denote; parentheses, and runs of a
single operand, denote what is inside of them. `t.IsOperand e` says in addition that the tree counts
as an operand in a run, and not as a sign or an operator.
-/

namespace ScopeScript

/-! ### Operators as rules -/

/-- The rule that reads an operator. -/
def Operator.rule : Operator → Rule
  | arith .add => .add
  | arith .sub => .sub
  | arith .mul => .mul
  | arith .div => .div
  | arith .mod => .modulo
  | arith .pow => .pow
  | logical .and => .and
  | logical .or => .or

/-- The rule that reads a comparison. -/
def Relation.rule : Relation → Rule
  | lt => .lt
  | le => .le
  | gt => .gt
  | ge => .ge
  | eq => .eq
  | ne => .ne

theorem Item.ofTrees_operator (op : Operator) (span : Span) (lexeme : List Char)
    (us ts : List Tree) :
    Item.ofTrees (.node op.rule span lexeme us :: ts) = return .operator op ::
      (← Item.ofTrees ts) := by
  rcases op with (_ | _ | _ | _ | _ | _) | (_ | _) <;> rfl

theorem Relation.ofTree_rule (op : Relation) (span : Span) (lexeme : List Char) (us : List Tree) :
    Relation.ofTree (.node op.rule span lexeme us) = .ok op := by
  cases op <;> rfl

namespace Tree

/-- The expression is read from the tree, up to ranges. -/
def Denotes (e : Expr) (t : Tree) : Prop :=
  ∃ e', Expr.ofTree t = .ok e' ∧ e'.eraseSpans = e.eraseSpans

/-- The tree is an operand of a run that denotes the expression. -/
def IsOperand (e : Expr) (t : Tree) : Prop :=
  t.Denotes e ∧ ∀ ts, Item.ofTrees (t :: ts) = do
    let e ← Expr.ofTree t
    return .operand e :: (← Item.ofTrees ts)

variable {t : Tree} {e a b c : Expr} {x : String}

theorem AllHave.ofTrees {es : List Expr} {ts : List Tree} (h : AllHave (es.map Denotes) ts) :
    ∃ es', Expr.ofTrees ts = .ok es' ∧ es'.map Expr.eraseSpans = es.map Expr.eraseSpans := by
  induction es generalizing ts with
  | nil =>
    cases h
    exact ⟨[], rfl, rfl⟩
  | cons e es ih =>
    obtain _ | ⟨⟨e', he, heq⟩, hts⟩ := h
    obtain ⟨es', hes, hesEq⟩ := ih hts
    exact ⟨e' :: es', by rw [Expr.ofTrees, he, hes]; rfl, congrArg₂ List.cons heq hesEq⟩

/-! ### Leaves -/

theorem IsToken.denotes_literal {r : Rule} {v : Literal} {cs : List Char} (h : t.IsToken r cs)
    (hr : r ∈ [Rule.float, .int, .string, .boolean]) (hread : Literal.ofTree t = .ok v) (s : Span) :
    t.IsOperand (.literal s v) := by
  obtain ⟨span, rfl⟩ := h
  refine ⟨⟨.literal span v, (Makes.literal hr hread).ofTree, rfl⟩, fun ts => ?_⟩
  simp only [List.mem_cons, List.not_mem_nil, or_false] at hr
  rcases hr with rfl | rfl | rfl | rfl <;> rfl

theorem IsToken.name (h : t.IsToken .ident x.toList) : t.name = x := by
  obtain ⟨span, rfl⟩ := h
  exact String.ofList_toList

theorem IsToken.denotes_var (h : t.IsToken .ident x.toList) (s : Span) :
    t.IsOperand (.var s x) := by
  obtain ⟨span, rfl⟩ := h
  refine ⟨⟨_, Makes.var.ofTree, ?_⟩, fun ts => rfl⟩
  rw [String.ofList_toList]
  rfl

/-! ### Operands -/

theorem IsNode.denotes_grouped (h : t.IsNode .grouped [Denotes e]) : t.IsOperand e := by
  obtain ⟨span, lexeme, _, rfl, _ | ⟨⟨e', he, heq⟩, ⟨⟩⟩⟩ := h
  exact ⟨⟨e', (Makes.grouped he).ofTree, heq⟩, fun ts => rfl⟩

theorem IsNode.denotes_element (h : t.IsNode .singleElement [IsToken .ident x.toList, Denotes a])
    (s : Span) :
    t.IsOperand (.element s x a) := by
  obtain ⟨span, lexeme, _, rfl, _ | ⟨hname, _ | ⟨⟨a', ha, haeq⟩, ⟨⟩⟩⟩⟩ := h
  refine ⟨⟨.element span x a', ?_, congrArg (Expr.element .blank _) haeq⟩, fun ts => rfl⟩
  exact hname.name ▸ (Makes.element ha).ofTree

theorem IsNode.denotes_call {es : List Expr}
    (h : t.IsNode .call [IsToken .ident x.toList, IsNode .args (es.map Denotes)]) (s : Span) :
    t.IsOperand (.call s x es) := by
  obtain ⟨span, lexeme, _, rfl, _ | ⟨hname, _ | ⟨⟨_, _, args, rfl, hargs⟩, ⟨⟩⟩⟩⟩ := h
  obtain ⟨es', hes, heq⟩ := hargs.ofTrees
  refine ⟨⟨.call span x es', ?_, ?_⟩, fun ts => rfl⟩
  · exact hname.name ▸ (Makes.call hes).ofTree
  · simp only [Expr.eraseSpans, Expr.mapSpans, Expr.mapSpansAll_eq_map]
    exact congrArg (Expr.call .blank _) heq

/-! ### Runs and comparisons -/

theorem IsNode.denotes_single (h : t.IsNode .simple [IsOperand e]) : t.Denotes e := by
  obtain ⟨span, lexeme, _, rfl, _ | ⟨⟨⟨e', he, heq⟩, hitem⟩, ⟨⟩⟩⟩ := h
  have hrun : Item.tree? [.operand e'] = some e' := rfl
  refine ⟨e', Makes.ofTree (.run ?_ hrun), heq⟩
  rw [hitem, he]
  rfl

theorem IsNode.denotes_not (h : t.IsNode .simple [IsNode .not [], IsOperand a]) (s : Span) :
    t.Denotes (.not s a) := by
  obtain ⟨span, lexeme, _, rfl, _ | ⟨⟨bang, _, _, rfl, ⟨⟩⟩, _ | ⟨⟨⟨a', ha, haeq⟩, hitem⟩, ⟨⟩⟩⟩⟩ := h
  have hrun : Item.tree? [.bang bang, .operand a'] = some (negate bang a') := rfl
  refine ⟨negate bang a', Makes.ofTree (.run ?_ hrun), ?_⟩
  · rw [Item.ofTrees, hitem, ha]
    rfl
  · exact congrArg (Expr.not .blank) haeq

theorem IsNode.denotes_operator {op : Operator}
    (h : t.IsNode .simple [IsOperand a, IsNode op.rule [], IsOperand b]) :
    t.Denotes (op.join a b) := by
  obtain ⟨span, lexeme, _, rfl, _ | ⟨⟨⟨a', ha, haeq⟩, hitemA⟩, _ | ⟨⟨_, _, _, rfl, -⟩, _ |
    ⟨⟨⟨b', hb, hbeq⟩, hitemB⟩, ⟨⟩⟩⟩⟩⟩ := h
  have hrun : Item.tree? [.operand a', .operator op, .operand b'] = some (op.join a' b') := by
    cases op <;> rfl
  refine ⟨op.join a' b', Makes.ofTree (.run ?_ hrun), ?_⟩
  · rw [hitemA, ha, Item.ofTrees_operator, hitemB, hb]
    rfl
  · cases op with
    | arith op => exact congrArg₂ (Expr.arith .blank op) haeq hbeq
    | logical op => exact congrArg₂ (Expr.logical .blank op) haeq hbeq

theorem IsNode.denotes_arith (h : t.IsNode .arith [Denotes e]) : t.Denotes e := by
  obtain ⟨span, lexeme, _, rfl, _ | ⟨⟨e', he, heq⟩, ⟨⟩⟩⟩ := h
  exact ⟨e', (Makes.alone he).ofTree, heq⟩

theorem IsNode.denotes_compare {op : Relation}
    (h : t.IsNode .arith [Denotes a, IsNode op.rule [], Denotes b]) (s : Span) :
    t.Denotes (.compare s op a b) := by
  obtain ⟨span, lexeme, _,
      rfl, _ | ⟨⟨a', ha, haeq⟩, _ | ⟨⟨_, _, _, rfl, -⟩, _ | ⟨⟨b', hb, hbeq⟩, ⟨⟩⟩⟩⟩⟩ := h
  refine ⟨.compare span op a' b', ?_, congrArg₂ (Expr.compare .blank op) haeq hbeq⟩
  exact (Makes.compare ha (Relation.ofTree_rule ..) hb).ofTree

/-! ### Control -/

theorem IsNode.denotes_ifThen (h : t.IsNode .ifExpr [Denotes c, Denotes a]) (s : Span) :
    t.Denotes (.ifThen s c a) := by
  obtain ⟨span, lexeme, _, rfl, _ | ⟨⟨c', hc, hceq⟩, _ | ⟨⟨a', ha, haeq⟩, ⟨⟩⟩⟩⟩ := h
  exact ⟨.ifThen span c' a', (Makes.ifThen hc ha).ofTree, congrArg₂ (Expr.ifThen .blank) hceq haeq⟩

theorem IsNode.denotes_ifElse (h : t.IsNode .ifExpr [Denotes c, Denotes a, Denotes b]) (s : Span) :
    t.Denotes (.ifElse s c a b) := by
  obtain ⟨span, lexeme, _,
      rfl, _ | ⟨⟨c', hc, hceq⟩, _ | ⟨⟨a', ha, haeq⟩, _ | ⟨⟨b', hb, hbeq⟩, ⟨⟩⟩⟩⟩⟩ := h
  refine ⟨.ifElse span c' a' b', (Makes.ifElse hc ha hb).ofTree, ?_⟩
  change Expr.ifElse .blank c'.eraseSpans a'.eraseSpans b'.eraseSpans = _
  rw [hceq, haeq, hbeq]
  rfl

theorem IsNode.denotes_whileDo (h : t.IsNode .whileExpr [Denotes c, Denotes a]) (s : Span) :
    t.Denotes (.whileDo s c a) := by
  obtain ⟨span, lexeme, _, rfl, _ | ⟨⟨c', hc, hceq⟩, _ | ⟨⟨a', ha, haeq⟩, ⟨⟩⟩⟩⟩ := h
  exact ⟨.whileDo span c' a', (Makes.whileDo hc ha).ofTree,
    congrArg₂ (Expr.whileDo .blank) hceq haeq⟩

theorem IsNode.denotes_forIn (h : t.IsNode .forExpr [IsToken .ident x.toList, Denotes a, Denotes b])
    (s : Span) :
    t.Denotes (.forIn s x a b) := by
  obtain ⟨span, lexeme, _, rfl, _ | ⟨hname, _ | ⟨⟨a', ha, haeq⟩, _ | ⟨⟨b', hb, hbeq⟩, ⟨⟩⟩⟩⟩⟩ := h
  refine ⟨.forIn span x a' b', ?_, congrArg₂ (Expr.forIn .blank _) haeq hbeq⟩
  exact hname.name ▸ (Makes.forIn ha hb).ofTree

theorem IsNode.denotes_brk {Ps : List (Tree → Prop)} (h : t.IsNode .breakExpr Ps) (s : Span) :
    t.Denotes (.brk s) := by
  obtain ⟨span, lexeme, us, rfl, -⟩ := h
  exact ⟨.brk span, Makes.brk.ofTree, rfl⟩

theorem IsNode.denotes_nxt {Ps : List (Tree → Prop)} (h : t.IsNode .nextExpr Ps) (s : Span) :
    t.Denotes (.nxt s) := by
  obtain ⟨span, lexeme, us, rfl, -⟩ := h
  exact ⟨.nxt span, Makes.nxt.ofTree, rfl⟩

theorem IsNode.denotes_block {es : List Expr} (h : t.IsNode .compound (es.map Denotes)) (s : Span) :
    t.Denotes (.block s es) := by
  obtain ⟨span, lexeme, us, rfl, hus⟩ := h
  obtain ⟨es', hes, heq⟩ := hus.ofTrees
  refine ⟨.block span es', (Makes.block hes).ofTree, ?_⟩
  simp only [Expr.eraseSpans, Expr.mapSpans, Expr.mapSpansAll_eq_map]
  exact congrArg (Expr.block .blank) heq

/-! ### Assignments and functions -/

theorem IsNode.denotes_assign (h : t.IsNode .assignment [IsToken .ident x.toList, Denotes a])
    (s : Span) :
    t.Denotes (.assign s x a) := by
  obtain ⟨span, lexeme, _, rfl, _ | ⟨hname, _ | ⟨⟨a', ha, haeq⟩, ⟨⟩⟩⟩⟩ := h
  refine ⟨.assign span x a', ?_, congrArg (Expr.assign .blank _) haeq⟩
  exact hname.name ▸ (Makes.assign ha).ofTree

theorem IsNode.denotes_assignAt
    (h : t.IsNode .assignment [IsToken .ident x.toList, IsNode .index [Denotes a], Denotes b])
    (s : Span) :
    t.Denotes (.assignAt s x a b) := by
  obtain ⟨span, lexeme, _, rfl, _ | ⟨hname, _ | ⟨⟨_, _, _, rfl, _ | ⟨⟨a', ha, haeq⟩, ⟨⟩⟩⟩, _ |
    ⟨⟨b', hb, hbeq⟩, ⟨⟩⟩⟩⟩⟩ := h
  refine ⟨.assignAt span x a' b', ?_, congrArg₂ (Expr.assignAt .blank _) haeq hbeq⟩
  exact hname.name ▸ (Makes.assignAt ha hb).ofTree

theorem AllHave.map_name {xs : List String} {ts : List Tree}
    (h : AllHave (xs.map fun x => IsToken .ident x.toList) ts) : ts.map Tree.name = xs := by
  induction xs generalizing ts with
  | nil =>
    cases h
    rfl
  | cons x xs ih =>
    obtain _ | ⟨hname, hts⟩ := h
    rw [List.map_cons, ih hts, hname.name]

theorem IsNode.denotes_function {xs : List String}
    (h : t.IsNode .functionDef [IsNode .params (xs.map fun x => IsToken .ident x.toList),
      Denotes a]) (s : Span) :
    t.Denotes (.function s xs a) := by
  obtain ⟨span, lexeme, _, rfl, _ | ⟨⟨_, _, _, rfl, hparams⟩, _ | ⟨⟨a', ha, haeq⟩, ⟨⟩⟩⟩⟩ := h
  refine ⟨.function span xs a', ?_, congrArg (Expr.function .blank xs) haeq⟩
  exact hparams.map_name ▸ (Makes.function ha).ofTree

/-! ### Lists, output and input -/

theorem IsNode.denotes_list {vs : List Literal}
    (h : t.IsNode .listExpr (vs.map fun v t => Literal.ofTree t = .ok v)) (s : Span) :
    t.Denotes (.list s vs) := by
  obtain ⟨span, lexeme, us, rfl, hus⟩ := h
  have hread : us.mapM Literal.ofTree = .ok vs := by
    induction vs generalizing us with
    | nil =>
      cases hus
      rfl
    | cons v vs ih =>
      obtain _ | ⟨hv, hus⟩ := hus
      rw [List.mapM_cons, hv, ih _ hus]
      rfl
  exact ⟨.list span vs, (Makes.list hread).ofTree, rfl⟩

theorem IsNode.denotes_print (h : t.IsNode .printExpr [Denotes a]) (s : Span) :
    t.Denotes (.print s a) := by
  obtain ⟨span, lexeme, _, rfl, _ | ⟨⟨a', ha, haeq⟩, ⟨⟩⟩⟩ := h
  exact ⟨.print span a', (Makes.print ha).ofTree, congrArg (Expr.print .blank) haeq⟩

theorem IsNode.denotes_cat (h : t.IsNode .catExpr [Denotes a]) (s : Span) :
    t.Denotes (.cat s a) := by
  obtain ⟨span, lexeme, _, rfl, _ | ⟨⟨a', ha, haeq⟩, ⟨⟩⟩⟩ := h
  exact ⟨.cat span a', (Makes.cat ha).ofTree, congrArg (Expr.cat .blank) haeq⟩

theorem IsNode.denotes_read {Ps : List (Tree → Prop)} (h : t.IsNode .readExpr Ps) (s : Span) :
    t.Denotes (.read s) := by
  obtain ⟨span, lexeme, us, rfl, -⟩ := h
  exact ⟨.read span, Makes.read.ofTree, rfl⟩

theorem IsNode.denotes_quit {Ps : List (Tree → Prop)} (h : t.IsNode .quitExpr Ps) (s : Span) :
    t.Denotes (.quit s) := by
  obtain ⟨span, lexeme, us, rfl, -⟩ := h
  exact ⟨.quit span, Makes.quit.ofTree, rfl⟩

end Tree

end ScopeScript
