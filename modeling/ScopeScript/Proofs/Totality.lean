import ScopeScript.Proofs.Reading
import ScopeScript.Proofs.Shapes

/-!
# Which texts are read

The grammar and the reader of match trees are two descriptions of the language, and they agree:
whatever the grammar matches is read, unless an integer in it does not fit a word. Then the error is
that of the leftmost such integer (`Program.parse_of_match`). So the only causes of an error are a
text that the grammar does not match and an integer that is too large, and
`SyntaxError.Cause.unhandled` never comes up.

`Settles result ints` says that reading a stretch of text depends on the integers in it in this way.
It passes through sequences of reads (`Settles.bind`), so each kind of node needs one look at its
children, and the run of operands one at how signs, operators and operands alternate
(`Item.exists_tree?`).
-/

namespace ScopeScript

/-! ### The integers of a match -/

mutual

/-- The integers in a tree, from left to right. -/
def Tree.ints : Tree → List Tree
  | .node rule span lexeme children =>
    if rule = .int then [.node rule span lexeme children] else Tree.intsAll children

/-- The integers in a list of trees. -/
def Tree.intsAll : List Tree → List Tree
  | [] => []
  | t :: ts => t.ints ++ Tree.intsAll ts

end

/-- Whether the integer that a tree denotes fits a word. -/
def Tree.fits (t : Tree) : Bool := fitsWord (signedValue t.lexeme)

namespace Tree

variable {t : Tree} {ts us : List Tree}

theorem ints_of_int (h : t.rule = .int) : t.ints = [t] := by
  obtain ⟨rule, span, lexeme, children⟩ := t
  cases h
  rfl

theorem ints_of_ne (h : t.rule ≠ .int) : t.ints = intsAll t.children := by
  obtain ⟨rule, span, lexeme, children⟩ := t
  exact if_neg h

@[simp] theorem intsAll_append (ts us : List Tree) :
    intsAll (ts ++ us) = intsAll ts ++ intsAll us := by
  induction ts with
  | nil => rfl
  | cons t ts ih => rw [List.cons_append, intsAll, ih, intsAll, List.append_assoc]

theorem intsAll_eq_nil (h : ∀ t ∈ ts, t.ints = []) : intsAll ts = [] := by
  induction ts with
  | nil => rfl
  | cons t ts ih =>
    obtain ⟨ht, hts⟩ := List.forall_mem_cons.mp h
    rw [intsAll, ht, ih hts, List.append_nil]

/-- There is no integer in a match of other rules that are without children. -/
theorem ints_eq_nil {r : Rule} (h : t.IsMatch) (hleft : t.IsLeft r)
    (hr : ∀ s ∈ r.leaves, s ≠ .int ∧ (s.isAtomic = true ∨ s.body.parts? = some [])) :
    t.ints = [] := by
  obtain ⟨hint, hchildren⟩ := hr t.rule hleft
  suffices hnil : t.children = [] by rw [ints_of_ne hint, hnil]; rfl
  cases hatomic : t.rule.isAtomic with
  | true => exact h.children_of_isAtomic hatomic
  | false =>
    have hparts := hchildren.resolve_left (by rw [hatomic]; exact Bool.false_ne_true)
    exact List.forall₂_nil_right_iff.mp (h.forall₂_children rfl hatomic hparts)

end Tree

/-! ### Integers from left to right -/

/-- The trees stand one after the other between two positions. -/
structure Tree.InOrder (start : Nat) (ts : List Tree) (stop : Nat) : Prop where
  le : start ≤ stop
  within : ∀ t ∈ ts, start ≤ t.span.start ∧ t.span.stop ≤ stop
  pairwise : ts.Pairwise fun t u => t.span.stop ≤ u.span.start

namespace Tree.InOrder

variable {a b c d : Nat} {ts us : List Tree}

theorem nil (h : a ≤ b) : InOrder a [] b := ⟨h, by simp, .nil⟩

theorem append (hts : InOrder a ts b) (hle : b ≤ c) (hus : InOrder c us d) :
    InOrder a (ts ++ us) d where
  le := Nat.le_trans hts.le (Nat.le_trans hle hus.le)
  within t ht := by
    have := hts.le
    have := hus.le
    rcases List.mem_append.mp ht with ht | ht
    · have := hts.within t ht
      omega
    · have := hus.within t ht
      omega
  pairwise := by
    refine List.pairwise_append.mpr ⟨hts.pairwise, hus.pairwise, fun t ht u hu => ?_⟩
    have := hts.within t ht
    have := hus.within u hu
    omega

end Tree.InOrder

/-- The integers of a derivation are found from left to right. -/
theorem Derives.inOrder_ints {atomic : Bool} {p : Pattern} {here next : Cursor} {ts : List Tree}
    (h : Derives atomic p here ts next) : Tree.InOrder here.pos (Tree.intsAll ts) next.pos := by
  induction h with
  | text h => exact .nil (Cursor.afterText?_eq_some_iff.mp h).pos_le
  | one h =>
    obtain ⟨c, -, hc⟩ := Cursor.spans_of_afterOne? h
    exact .nil hc.pos_le
  | start | stop | absent | never | ahead | notAhead => exact .nil (Nat.le_refl _)
  | bare _ _ ih | first _ ih | second _ ih | present _ ih | once _ ih => exact ih
  | @node r here next ts _ _ ih =>
    rw [Tree.intsAll, Tree.intsAll, List.append_nil, Tree.ints]
    split
    · exact ⟨ih.le, List.forall_mem_singleton.mpr ⟨Nat.le_refl _, Nat.le_refl _⟩,
        List.pairwise_singleton _ _⟩
    · exact ih
  | @seq _ _ _ _ mid _ _ _ _ _ ihp ihq | @again _ _ _ mid _ _ _ _ _ ihp ihq =>
    obtain ⟨blanks, hblanks⟩ := Cursor.spans_skip _ mid
    rw [Tree.intsAll_append]
    exact ihp.append hblanks.pos_le ihq

/-- The text of an integer is the text at its range. -/
theorem Derives.slice_ints {atomic : Bool} {p : Pattern} {here next : Cursor} {ts : List Tree}
    {source : List Char} (h : Derives atomic p here ts next)
    (hsource : ∃ before, (Cursor.atStart source).Spans before here) :
    ∀ t ∈ Tree.intsAll ts, t.span.slice source = t.lexeme := by
  induction h with
  | text | one | start | stop | absent | never | ahead | notAhead =>
    exact fun _ ht => absurd ht List.not_mem_nil
  | bare _ _ ih | first _ ih | second _ ih | present _ ih | once _ ih => exact ih hsource
  | @node r here next ts _ _ ih =>
    rw [Tree.intsAll, Tree.intsAll, List.append_nil, Tree.ints]
    split
    · rename_i hint
      obtain ⟨before, hbefore⟩ := hsource
      refine List.forall_mem_singleton.mpr ((hbefore.slice next.pos).trans ?_)
      rw [Tree.lexeme, hint]
      rfl
    · exact ih hsource
  | @seq _ _ _ _ mid _ _ _ hp _ ihp ihq | @again _ _ _ mid _ _ _ hp _ ihp ihq =>
    obtain ⟨before, hbefore⟩ := hsource
    obtain ⟨cs, hcs⟩ := hp.spans
    obtain ⟨blanks, hblanks⟩ := Cursor.spans_skip _ mid
    intro t ht
    rw [Tree.intsAll_append] at ht
    rcases List.mem_append.mp ht with ht | ht
    · exact ihp ⟨before, hbefore⟩ t ht
    · exact ihq ⟨_, (hbefore.trans hcs).trans hblanks⟩ t ht

/-! ### What integers make of reading -/

/-- Reading succeeds if all integers fit, and else fails at the first one that does not. -/
def Settles {α : Type} (ints : List Tree) (result : Except SyntaxError α) : Prop :=
  match ints.find? fun t => !t.fits with
  | none => ∃ a, result = .ok a
  | some t => result = .error ⟨.number t.lexeme, t.span⟩

namespace Settles

variable {α β : Type} {x : Except SyntaxError α} {f : α → Except SyntaxError β} {ts us : List Tree}

theorem pure (a : α) : Settles [] (pure a) := ⟨a, rfl⟩

/-- What is read first fails first. -/
theorem bind (hx : Settles ts x) (hf : ∀ a, x = .ok a → Settles us (f a)) :
    Settles (ts ++ us) (x >>= f) := by
  unfold Settles at hx ⊢
  rw [List.find?_append]
  cases hfind : ts.find? fun t => !t.fits with
  | none =>
    rw [hfind] at hx
    obtain ⟨a, rfl⟩ := hx
    exact hf a rfl
  | some t =>
    rw [hfind] at hx
    subst hx
    rfl

/-- What cannot fail has no part in it. -/
theorem bind_ok (hx : Settles ts x) (hf : ∀ a, x = .ok a → ∃ b, f a = .ok b) :
    Settles ts (x >>= f) := by
  have hbind : Settles (ts ++ []) (x >>= f) := hx.bind hf
  rwa [List.append_nil] at hbind

theorem map (hx : Settles ts x) (g : α → β) : Settles ts (x >>= fun a => Pure.pure (g a)) :=
  hx.bind_ok fun a _ => ⟨g a, rfl⟩

/-- A tree without integers has no part in it. -/
theorem cons {t : Tree} (ht : t.ints = []) (hx : Settles ts x) : Settles (t.ints ++ ts) x := by
  rwa [ht]

end Settles

/-! ### Constants -/

/-- The text of a match of a constant can be read, integers aside. -/
theorem Literal.settles_ofTree {t : Tree} (h : t.IsMatch) (hleft : t.IsLeft .constant) :
    Settles t.ints (Literal.ofTree t) := by
  by_cases hint : t.rule = .int
  · have htext := h.lexeme_int hint
    rw [Tree.ints_of_int hint, Literal.ofTree, hint]
    cases hfits : t.fits with
    | true =>
      have hread : readInt? t.lexeme ≠ none := by
        rw [Ne, htext.readInt?_eq_none_iff]
        exact fun hnot => Bool.false_ne_true (hnot.symm.trans hfits)
      obtain ⟨n, hn⟩ := Option.ne_none_iff_exists'.mp hread
      simp only [Settles, List.find?, hfits, hn]
      exact ⟨_, rfl⟩
    | false =>
      simp only [Settles, List.find?, hfits, htext.readInt?_eq_none_iff.mpr hfits, Bool.not_false]
  · have hnone : t.ints = [] := by
      rw [Tree.ints_of_ne hint, h.children_of_isAtomic]
      · rfl
      · exact (by decide : ∀ s ∈ Rule.constant.leaves, s.isAtomic = true) t.rule hleft
    rw [hnone]
    have hrule : t.rule = .float ∨ t.rule = .int ∨ t.rule = .string ∨ t.rule = .boolean := by
      simpa [Tree.IsLeft, Rule.leaves] using hleft
    rcases hrule with hrule | hrule | hrule | hrule
    · obtain ⟨x, hx⟩ := (h.lexeme_float hrule).readFloat?
      exact ⟨.float x, by rw [Literal.ofTree, hrule]; simp only [hx]⟩
    · exact absurd hrule hint
    · exact ⟨_, by rw [Literal.ofTree, hrule]⟩
    · rcases h.lexeme_boolean hrule with hlexeme | hlexeme
      · exact ⟨.bool true, by rw [Literal.ofTree, hrule]; simp [hlexeme]⟩
      · exact ⟨.bool false, by rw [Literal.ofTree, hrule]; simp [hlexeme]⟩

theorem Literal.settles_mapM {ts : List Tree} (h : ∀ t ∈ ts, t.IsMatch)
    (hleft : ∀ t ∈ ts, t.IsLeft .constant) :
    Settles (Tree.intsAll ts) (ts.mapM Literal.ofTree) := by
  induction ts with
  | nil => exact .pure []
  | cons t ts ih =>
    obtain ⟨ht, hts⟩ := List.forall_mem_cons.mp h
    obtain ⟨htleft, htsleft⟩ := List.forall_mem_cons.mp hleft
    rw [List.mapM_cons]
    exact (Literal.settles_ofTree ht htleft).bind fun v _ => (ih hts htsleft).map _

/-! ### Runs of operands -/

namespace Item

/-- Signs and one operand. -/
inductive IsOperand : List Item → Prop where
  | operand (e : Expr) : IsOperand [.operand e]
  | bang {items : List Item} (s : Span) (h : IsOperand items) : IsOperand (.bang s :: items)

/-- Operators, each with its operand. -/
inductive IsTail : List Item → Prop where
  | nil : IsTail []
  | cons {items rest : List Item} (op : Operator) (h : IsOperand items) (hrest : IsTail rest) :
      IsTail (.operator op :: (items ++ rest))

theorem IsOperand.takeOperand {items : List Item} (h : IsOperand items) (rest : List Item) :
    ∃ e, takeOperand (items ++ rest) = some (e, rest) := by
  induction h with
  | operand e => exact ⟨e, rfl⟩
  | bang s _ ih =>
    obtain ⟨e, he⟩ := ih
    exact ⟨negate s e, by rw [List.cons_append, Item.takeOperand, he]; rfl⟩

theorem IsTail.takeOperators {items : List Item} (h : IsTail items) {fuel : Nat}
    (hfuel : items.length ≤ fuel) : ∃ ops, takeOperators fuel items = some ops := by
  induction h generalizing fuel with
  | nil => exact ⟨[], by unfold Item.takeOperators; rfl⟩
  | @cons items rest op h _ ih =>
    rw [List.length_cons, List.length_append] at hfuel
    obtain ⟨fuel, rfl⟩ : ∃ k, fuel = k + 1 := ⟨fuel - 1, by omega⟩
    obtain ⟨e, he⟩ := h.takeOperand rest
    obtain ⟨ops, hops⟩ := ih (by omega : rest.length ≤ fuel)
    exact ⟨(op, e) :: ops, by rw [Item.takeOperators, he]; simp only [hops, Option.map_some]⟩

/-- An operand followed by operators with operands is a tree. -/
theorem exists_tree? {first rest : List Item} (hfirst : IsOperand first) (hrest : IsTail rest) :
    ∃ e, tree? (first ++ rest) = some e := by
  obtain ⟨e, he⟩ := hfirst.takeOperand rest
  obtain ⟨ops, hops⟩ := hrest.takeOperators (by simp : rest.length ≤ (first ++ rest).length)
  exact ⟨joinAll e ops, by rw [tree?, he]; simp only [hops, Option.map_some]⟩

/-! ### The items of a run -/

variable {t : Tree} {ts us : List Tree}

theorem ofTrees_bang (h : t.IsLeft .prefixOp) (ts : List Tree) :
    ofTrees (t :: ts) = do return .bang t.span :: (← ofTrees ts) := by
  obtain ⟨rule, span, lexeme, children⟩ := t
  obtain rfl : rule = .not := List.mem_singleton.mp h
  rw [ofTrees]
  rfl

theorem exists_ofTrees_operator (h : t.IsLeft .infixOp) (ts : List Tree) :
    ∃ op, ofTrees (t :: ts) = do return .operator op :: (← ofTrees ts) := by
  obtain ⟨rule, span, lexeme, children⟩ := t
  simp only [Tree.IsLeft, Tree.rule, Rule.leaves, List.mem_cons, List.not_mem_nil, or_false] at h
  rcases h with rfl | rfl | rfl | rfl | rfl | rfl | rfl | rfl <;> exact ⟨_, rfl⟩

theorem ofTrees_operand (h : t.IsLeft .factor) (ts : List Tree) :
    ofTrees (t :: ts) = do
      let e ← Expr.ofTree t
      return .operand e :: (← ofTrees ts) := by
  obtain ⟨rule, span, lexeme, children⟩ := t
  simp only [Tree.IsLeft, Tree.rule, Rule.leaves, List.mem_cons, List.not_mem_nil, or_false] at h
  rcases h with rfl | rfl | rfl | rfl | rfl | rfl | rfl | rfl <;> rfl

/-- The trees of a run are matches, and its operands can be read. -/
def IsReadable (ts : List Tree) : Prop :=
  ∀ t ∈ ts, t.IsMatch ∧ (t.IsLeft .factor → Settles t.ints (Expr.ofTree t))

/-- The items of signs and an operand, and of what follows them. -/
theorem settles_operand {nots rest : List Tree} {operand : Tree}
    (h : IsReadable (nots ++ operand :: rest))
    (hnots : ∀ u ∈ nots, u.IsLeft .prefixOp) (hoperand : operand.IsLeft .factor)
    (hrest : Settles (Tree.intsAll rest) (ofTrees rest)) :
    Settles (Tree.intsAll (nots ++ operand :: rest)) (ofTrees (nots ++ operand :: rest)) ∧
      ∀ items, ofTrees (nots ++ operand :: rest) = .ok items →
        ∃ first tail, items = first ++ tail ∧ IsOperand first ∧ ofTrees rest = .ok tail := by
  induction nots with
  | nil =>
    have hread := (h operand List.mem_cons_self).2 hoperand
    rw [List.nil_append, ofTrees_operand hoperand]
    refine ⟨hread.bind fun e _ => hrest.map _, fun items hitems => ?_⟩
    obtain ⟨e, -, hitems⟩ := exists_of_bind_eq_ok hitems
    obtain ⟨tail, htail, hitems⟩ := exists_of_bind_eq_ok hitems
    cases hitems
    exact ⟨[.operand e], tail, rfl, .operand e, htail⟩
  | cons bang nots ih =>
    obtain ⟨⟨hbang, -⟩, h⟩ := List.forall_mem_cons.mp h
    obtain ⟨hleft, hnots⟩ := List.forall_mem_cons.mp hnots
    obtain ⟨hsettles, hparts⟩ := ih h hnots
    rw [List.cons_append, ofTrees_bang hleft]
    refine ⟨(hsettles.map _).cons (Tree.ints_eq_nil hbang hleft (by decide)),
      fun items hitems => ?_⟩
    obtain ⟨others, hothers, hitems⟩ := exists_of_bind_eq_ok hitems
    cases hitems
    obtain ⟨first, tail, rfl, hfirst, htail⟩ := hparts others hothers
    exact ⟨.bang bang.span :: first, tail, rfl, .bang _ hfirst, htail⟩

/-- The items of operators with their operands. -/
theorem settles_tail {runs : List (List Tree)} (h : IsReadable runs.flatten)
    (hruns : ∀ us ∈ runs, ∃ op : Tree, op.IsLeft .infixOp ∧
      ∃ nots : List Tree, (∀ u ∈ nots, u.IsLeft .prefixOp) ∧
        ∃ operand : Tree, operand.IsLeft .factor ∧ op :: (nots ++ [operand]) = us) :
    Settles (Tree.intsAll runs.flatten) (ofTrees runs.flatten) ∧
      ∀ items, ofTrees runs.flatten = .ok items → IsTail items := by
  induction runs with
  | nil =>
    refine ⟨.pure [], fun items hitems => ?_⟩
    cases hitems
    exact .nil
  | cons us runs ih =>
    obtain ⟨⟨op, hop, nots, hnots, operand, hoperand, rfl⟩, hlaterRuns⟩ :=
      List.forall_mem_cons.mp hruns
    have hflatten : ((op :: (nots ++ [operand])) :: runs).flatten = op ::
        (nots ++ operand :: runs.flatten) := by
      simp
    rw [hflatten] at h ⊢
    obtain ⟨⟨hmatch, -⟩, h⟩ := List.forall_mem_cons.mp h
    have hlater : IsReadable runs.flatten :=
      fun t ht => h t (List.mem_append_right _ (List.mem_cons_of_mem _ ht))
    obtain ⟨hrest, htail⟩ := ih hlater hlaterRuns
    obtain ⟨hsettles, hparts⟩ := settles_operand h hnots hoperand hrest
    obtain ⟨o, ho⟩ := exists_ofTrees_operator hop (nots ++ operand :: runs.flatten)
    rw [ho]
    refine ⟨(hsettles.map _).cons (Tree.ints_eq_nil hmatch hop (by decide)), fun items hitems => ?_⟩
    obtain ⟨others, hothers, hitems⟩ := exists_of_bind_eq_ok hitems
    cases hitems
    obtain ⟨first, tail, rfl, hfirst, hfound⟩ := hparts others hothers
    exact .cons o hfirst (htail tail hfound)

end Item

/-! ### Expressions -/

/-- The rules that stand for expressions, operands and runs of operands. -/
def Rule.readable : List Rule := expr.leaves ++ factor.leaves ++ simple.leaves

theorem Expr.settles_ofTrees {ts : List Tree} (h : ∀ t ∈ ts, Settles t.ints (Expr.ofTree t)) :
    Settles (Tree.intsAll ts) (Expr.ofTrees ts) := by
  induction ts with
  | nil => exact .pure []
  | cons t ts ih =>
    obtain ⟨ht, hts⟩ := List.forall_mem_cons.mp h
    exact ht.bind fun e _ => (ih hts).map _

section Nodes

variable {span : Span} {lexeme : List Char} {children : List Tree}

/-- What is inside of a tree can be read. -/
def Tree.ReadsInside (t : Tree) : Prop :=
  ∀ u, t.HasInside u → u.rule ∈ Rule.readable → Settles u.ints (Expr.ofTree u)

theorem Tree.ReadsInside.child {t u : Tree} (h : t.ReadsInside) (hu : u ∈ t.children)
    (hleft : u.IsLeft .expr) :
    Settles u.ints (Expr.ofTree u) :=
  h u (.child hu) (List.mem_append_left _ (List.mem_append_left _ hleft))

theorem Tree.ReadsInside.grandchild {t u v : Tree} (h : t.ReadsInside) (hu : u ∈ t.children)
    (hv : v ∈ u.children) (hleft : v.IsLeft .expr) : Settles v.ints (Expr.ofTree v) := by
  obtain ⟨rule, span, lexeme, children⟩ := u
  exact h v (.deep hu hv) (List.mem_append_left _ (List.mem_append_left _ hleft))

theorem Expr.settles_simple (ht : (Tree.node .simple span lexeme children).IsMatch)
    (h : (Tree.node .simple span lexeme children).ReadsInside) :
    Settles (Tree.intsAll children) (Expr.ofTree (.node .simple span lexeme children)) := by
  obtain ⟨nots, hnots, first, hfirst, runs, hruns, hchildren⟩ := ht.children_simple rfl
  change _ = children at hchildren
  subst hchildren
  have hreadable : Item.IsReadable (nots ++ first :: runs.flatten) :=
    fun t htree => ⟨ht.child htree, fun hleft =>
      h t (.child htree) (List.mem_append_left _ (List.mem_append_right _ hleft))⟩
  have hlater : Item.IsReadable runs.flatten :=
    fun t htree => hreadable t (List.mem_append_right _ (List.mem_cons_of_mem _ htree))
  obtain ⟨hrest, htail⟩ := Item.settles_tail hlater hruns
  obtain ⟨hsettles, hparts⟩ := Item.settles_operand hreadable hnots hfirst hrest
  rw [Expr.ofTree]
  refine hsettles.bind_ok fun items hitems => ?_
  obtain ⟨xs, tail, rfl, hxs, hfound⟩ := hparts items hitems
  obtain ⟨e, he⟩ := Item.exists_tree? hxs (htail tail hfound)
  exact ⟨e, by simp only [he]; rfl⟩

theorem Expr.settles_arith (ht : (Tree.node .arith span lexeme children).IsMatch)
    (h : (Tree.node .arith span lexeme children).ReadsInside) :
    Settles (Tree.intsAll children) (Expr.ofTree (.node .arith span lexeme children)) := by
  obtain ⟨left, hleft, hchildren⟩ := ht.children_arith rfl
  have hrun : ∀ u ∈ children, u.IsLeft .simple → Settles u.ints (Expr.ofTree u) :=
    fun u hu hsimple => h u (.child hu) (List.mem_append_right _ hsimple)
  rcases hchildren with hchildren | ⟨op, right, ⟨hop, hright⟩, hchildren⟩
  · obtain rfl : [left] = children := hchildren
    rw [Expr.ofTree, Tree.intsAll, Tree.intsAll, List.append_nil]
    exact hrun left (by simp) hleft
  · obtain rfl : [left, op, right] = children := hchildren
    rw [Expr.ofTree]
    have hints : op.ints = [] :=
      Tree.ints_eq_nil (ht.child (by simp [Tree.children])) hop (by decide)
    have hrelation : ∃ relation, Relation.ofTree op = .ok relation := by
      have hrule : op.rule ∈ Rule.relOp.leaves := hop
      simp only [Rule.leaves, List.mem_cons, List.not_mem_nil, or_false] at hrule
      rcases hrule with hrule | hrule | hrule | hrule | hrule | hrule <;>
        exact ⟨_, by rw [Relation.ofTree, hrule]⟩
    obtain ⟨relation, hrelation⟩ := hrelation
    rw [hrelation]
    refine (hrun left (by simp) hleft).bind fun a _ => Settles.cons hints ?_
    exact (hrun right (by simp) hright).bind fun b _ => .pure _

theorem Expr.settles_ifExpr (ht : (Tree.node .ifExpr span lexeme children).IsMatch)
    (h : (Tree.node .ifExpr span lexeme children).ReadsInside) :
    Settles (Tree.intsAll children) (Expr.ofTree (.node .ifExpr span lexeme children)) := by
  obtain ⟨cond, hcond, rest, ⟨yes, hyes, hrest⟩, hchildren⟩ := ht.children_ifExpr rfl
  obtain rfl : cond :: rest = children := hchildren
  rcases hrest with rfl | ⟨no, hno, rfl⟩
  · rw [Expr.ofTree]
    refine (h.child (by simp [Tree.children]) hcond).bind fun a _ => ?_
    exact (h.child (by simp [Tree.children]) hyes).bind fun b _ => .pure _
  · rw [Expr.ofTree]
    refine (h.child (by simp [Tree.children]) hcond).bind fun a _ => ?_
    refine (h.child (by simp [Tree.children]) hyes).bind fun b _ => ?_
    exact (h.child (by simp [Tree.children]) hno).bind fun c _ => .pure _

theorem Expr.settles_assignment (ht : (Tree.node .assignment span lexeme children).IsMatch)
    (h : (Tree.node .assignment span lexeme children).ReadsInside) :
    Settles (Tree.intsAll children) (Expr.ofTree (.node .assignment span lexeme children)) := by
  obtain ⟨name, hname, rest, hrest, hchildren⟩ := ht.children_assignment rfl
  obtain rfl : name :: rest = children := hchildren
  have hints : name.ints = [] := Tree.ints_eq_nil (ht.child List.mem_cons_self) hname (by decide)
  rcases hrest with ⟨value, hvalue, rfl⟩ | ⟨index, hindex, value, hvalue, rfl⟩
  · rw [Expr.ofTree]
    exact .cons hints ((h.child (by simp [Tree.children]) hvalue).bind fun a _ => .pure _)
  · have hmatch : index.IsMatch := ht.child (by simp [Tree.children])
    obtain ⟨rule, ispan, ilexeme, ichildren⟩ := index
    obtain rfl : rule = .index := List.mem_singleton.mp hindex
    obtain _ | @⟨e, _, _, _, hexpr, ⟨⟩⟩ := hmatch.forall₂_children rfl rfl rfl
    have hindexInts : (Tree.node .index ispan ilexeme [e]).ints = e.ints := List.append_nil _
    rw [Expr.ofTree]
    refine .cons hints ?_
    rw [Tree.intsAll, hindexInts]
    have hread := h.grandchild (List.mem_cons_of_mem _ List.mem_cons_self) List.mem_cons_self hexpr
    exact hread.bind fun a _ => (h.child (by simp [Tree.children]) hvalue).bind fun b _ => .pure _

theorem Expr.settles_call (ht : (Tree.node .call span lexeme children).IsMatch)
    (h : (Tree.node .call span lexeme children).ReadsInside) :
    Settles (Tree.intsAll children) (Expr.ofTree (.node .call span lexeme children)) := by
  obtain _ | @⟨name, _, _, _, hname, _ | @⟨args, _, _, _, hargs, ⟨⟩⟩⟩ :=
    ht.forall₂_children rfl rfl rfl
  have hints : name.ints = [] := Tree.ints_eq_nil (ht.child List.mem_cons_self) hname (by decide)
  have hmatch : args.IsMatch := ht.child (by simp [Tree.children])
  obtain ⟨rule, aspan, alexeme, es⟩ := args
  obtain rfl : rule = .args := List.mem_singleton.mp hargs
  have hleft : ∀ e ∈ es, e.IsLeft .expr :=
    hmatch.forall_mem_children (r := .args) rfl rfl (by decide)
  have hargsInts : (Tree.node .args aspan alexeme es).ints = Tree.intsAll es := rfl
  rw [Expr.ofTree]
  refine .cons hints ?_
  rw [Tree.intsAll, hargsInts]
  have hread : ∀ e ∈ es, Settles e.ints (Expr.ofTree e) :=
    fun e he => h.grandchild (List.mem_cons_of_mem _ List.mem_cons_self) he (hleft e he)
  exact (Expr.settles_ofTrees hread).bind fun as _ => .pure _

theorem Expr.settles_functionDef (ht : (Tree.node .functionDef span lexeme children).IsMatch)
    (h : (Tree.node .functionDef span lexeme children).ReadsInside) :
    Settles (Tree.intsAll children) (Expr.ofTree (.node .functionDef span lexeme children)) := by
  obtain _ | @⟨params, _, _, _, hparams, _ | @⟨body, _, _, _, hbody, ⟨⟩⟩⟩ :=
    ht.forall₂_children rfl rfl rfl
  have hmatch : params.IsMatch := ht.child List.mem_cons_self
  obtain ⟨rule, pspan, plexeme, names⟩ := params
  obtain rfl : rule = .params := List.mem_singleton.mp hparams
  have hleft : ∀ x ∈ names, x.IsLeft .ident :=
    hmatch.forall_mem_children (r := .params) rfl rfl (by decide)
  have hints : (Tree.node .params pspan plexeme names).ints = [] := by
    refine Tree.intsAll_eq_nil fun x hx => ?_
    exact Tree.ints_eq_nil (hmatch.child hx) (hleft x hx) (by decide)
  have hexpr : body.IsLeft .expr := by
    have hrule : body.rule = .compound := List.mem_singleton.mp hbody
    rw [Tree.IsLeft, hrule]
    decide
  rw [Expr.ofTree]
  exact .cons hints ((h.child (by simp [Tree.children]) hexpr).bind fun a _ => .pure _)

theorem Expr.settles_compound (ht : (Tree.node .compound span lexeme children).IsMatch)
    (h : (Tree.node .compound span lexeme children).ReadsInside) :
    Settles (Tree.intsAll children) (Expr.ofTree (.node .compound span lexeme children)) := by
  have hleft : ∀ e ∈ children, e.IsLeft .expr :=
    ht.forall_mem_children (r := .compound) rfl rfl (by decide)
  rw [Expr.ofTree]
  exact (Expr.settles_ofTrees fun e he => h.child he (hleft e he)).map _

theorem Expr.settles_listExpr (ht : (Tree.node .listExpr span lexeme children).IsMatch) :
    Settles (Tree.intsAll children) (Expr.ofTree (.node .listExpr span lexeme children)) := by
  have hleft : ∀ e ∈ children, e.IsLeft .constant :=
    ht.forall_mem_children (r := .listExpr) rfl rfl (by decide)
  rw [Expr.ofTree]
  exact (Literal.settles_mapM (fun e he => ht.child he) hleft).map _

theorem Expr.settles_literal {r : Rule} (ht : (Tree.node r span lexeme children).IsMatch)
    (hr : r ∈ Rule.constant.leaves) :
    Settles (Tree.node r span lexeme children).ints
      (Expr.ofTree (.node r span lexeme children)) := by
  have hatomic : ∀ s ∈ Rule.constant.leaves, s.isAtomic = true := by decide
  obtain rfl : children = [] := ht.children_of_isAtomic (hatomic r hr)
  have hconstant := Literal.settles_ofTree ht hr
  simp only [Rule.leaves, List.mem_cons, List.not_mem_nil, or_false] at hr
  rcases hr with rfl | rfl | rfl | rfl
  all_goals
    rw [Expr.ofTree]
    exact hconstant.map _

end Nodes

/-- **Whatever the grammar matches is read**, unless an integer is too large. -/
theorem Expr.settles_ofTree (t : Tree) : t.IsMatch → t.rule ∈ Rule.readable →
    Settles t.ints (Expr.ofTree t) := by
  induction t using Tree.induction with
  | h t ih =>
    intro ht hreadable
    have h : t.ReadsInside := fun u hu hleft => ih u hu (ht.inside hu) hleft
    obtain ⟨rule, span, lexeme, children⟩ := t
    change rule ∈ Rule.readable at hreadable
    cases rule
    case ifExpr => exact settles_ifExpr ht h
    case functionDef => exact settles_functionDef ht h
    case assignment => exact settles_assignment ht h
    case call => exact settles_call ht h
    case compound => exact settles_compound ht h
    case listExpr => exact settles_listExpr ht
    case arith => exact settles_arith ht h
    case simple => exact settles_simple ht h
    case int | float | string | boolean => exact settles_literal ht (by decide)
    case ident =>
      obtain rfl : children = [] := ht.children_of_isAtomic rfl
      rw [Expr.ofTree]
      exact .pure _
    case quitExpr | readExpr | breakExpr | nextExpr =>
      obtain ⟨⟩ := ht.forall₂_children rfl rfl rfl
      rw [Expr.ofTree]
      exact .pure _
    case printExpr | catExpr =>
      obtain _ | @⟨e, _, _, _, he, ⟨⟩⟩ := ht.forall₂_children rfl rfl rfl
      rw [Expr.ofTree]
      exact (h.child List.mem_cons_self he).bind fun a _ => .pure _
    case grouped =>
      obtain _ | @⟨e, _, _, _, he, ⟨⟩⟩ := ht.forall₂_children rfl rfl rfl
      have hints : (Tree.node .grouped span lexeme [e]).ints = e.ints := List.append_nil _
      rw [Expr.ofTree, hints]
      exact h.child List.mem_cons_self he
    case singleElement =>
      obtain _ | @⟨name, _, _, _, hname, _ | @⟨index, _, _, _, hindex, ⟨⟩⟩⟩ :=
        ht.forall₂_children rfl rfl rfl
      rw [Expr.ofTree]
      refine .cons (Tree.ints_eq_nil (ht.child List.mem_cons_self) hname (by decide)) ?_
      exact (h.child (by simp [Tree.children]) hindex).bind fun a _ => .pure _
    case whileExpr =>
      obtain _ | @⟨cond, _, _, _, hcond, _ | @⟨body, _, _, _, hbody, ⟨⟩⟩⟩ :=
        ht.forall₂_children rfl rfl rfl
      rw [Expr.ofTree]
      refine (h.child (by simp [Tree.children]) hcond).bind fun a _ => ?_
      exact (h.child (by simp [Tree.children]) hbody).bind fun b _ => .pure _
    case forExpr =>
      obtain _ | @⟨name, _, _, _,
          hname, _ | @⟨items, _, _, _, hitems, _ | @⟨body, _, _, _, hbody, ⟨⟩⟩⟩⟩ :=
        ht.forall₂_children rfl rfl rfl
      rw [Expr.ofTree]
      refine .cons (Tree.ints_eq_nil (ht.child List.mem_cons_self) hname (by decide)) ?_
      refine (h.child (by simp [Tree.children]) hitems).bind fun a _ => ?_
      exact (h.child (by simp [Tree.children]) hbody).bind fun b _ => .pure _
    all_goals exact absurd hreadable (by decide)

/-! ### Programs -/

/-- The trees of a program are those of its expressions. -/
theorem Program.exists_trees {source : List Char} {next : Cursor} {roots : List Tree}
    (h : Rule.program.matchStart source = .ok (next, roots)) :
    ∃ es, Program.trees source = .ok es ∧ Tree.intsAll roots = Tree.intsAll es ∧
      ∀ e ∈ es, e.IsMatch ∧ e.IsLeft .expr := by
  have hderives := Rule.derives_of_matchStart h
  obtain ⟨root, rfl, hroot⟩ := hderives.of_rule rfl
  have hmatch : root.IsMatch := hderives.isMatch root List.mem_cons_self
  obtain ⟨es, hes, stop, hstop, hchildren⟩ := hmatch.children_program hroot
  have hmem : ∀ u ∈ es ++ [stop], u.IsMatch := fun u hu => hmatch.child (hchildren ▸ hu)
  refine ⟨es, ?_, ?_, fun e he => ⟨hmem e (List.mem_append_left _ he), hes e he⟩⟩
  · have htrees : Rule.program.trees source = .ok [root] := by rw [Rule.trees, h]
    have hstopRule : stop.rule = .endOfInput := List.mem_singleton.mp hstop
    have hkept : ∀ e ∈ es, (e.rule != .endOfInput) = true := by
      intro e he
      have hother : ∀ r ∈ Rule.expr.leaves, (r != .endOfInput) = true := by decide
      exact hother e.rule (hes e he)
    have hfilter : (es ++ [stop]).filter (·.rule != .endOfInput) = es := by
      rw [List.filter_append, List.filter_eq_self.mpr hkept]
      simp [hstopRule]
    have hflat : [root].flatMap (fun t => t.children.filter (·.rule != .endOfInput)) = es := by
      rw [List.flatMap_singleton, ← hchildren, hfilter]
    rw [Program.trees, htrees]
    exact congrArg Except.ok hflat
  · have hstopInts := Tree.ints_eq_nil (hmem stop (by simp)) hstop (by decide)
    have hstopAll : Tree.intsAll [stop] = [] :=
      Tree.intsAll_eq_nil (List.forall_mem_singleton.mpr hstopInts)
    rw [Tree.intsAll, Tree.intsAll, List.append_nil,
      Tree.ints_of_ne (by rw [hroot]; decide), ← hchildren,
      Tree.intsAll_append, hstopAll, List.append_nil]

theorem Program.settles_parse {source : List Char} {next : Cursor} {roots : List Tree}
    (h : Rule.program.matchStart source = .ok (next, roots)) :
    Settles (Tree.intsAll roots) (Program.parse source) := by
  obtain ⟨es, htrees, hints, hes⟩ := Program.exists_trees h
  rw [hints, Program.parse, htrees]
  refine Expr.settles_ofTrees fun e he => Expr.settles_ofTree e (hes e he).1 ?_
  exact List.mem_append_left _ (List.mem_append_left _ (hes e he).2)

/-- **Reading is total on the grammar.** A text that the grammar does not match is unexpected
somewhere. A text that it matches is read if all integers in it fit a word; else the error has the
range of an integer that does not fit and the text that stands there, and all other such integers
stand behind it. There are no other errors. -/
theorem Program.parse_of_match (source : List Char) :
    (match Rule.program.matchStart source with
    | .error mismatch =>
      Program.parse source =
        .error ⟨.unexpected mismatch.wanted mismatch.refused, ⟨mismatch.pos, mismatch.pos⟩⟩
    | .ok (_, roots) =>
      ((∀ t ∈ Tree.intsAll roots, t.fits) ∧ ∃ p, Program.parse source = .ok p) ∨
        ∃ t ∈ Tree.intsAll roots, ¬t.fits ∧
          (∀ u ∈ Tree.intsAll roots, ¬u.fits → u = t ∨ t.span.stop ≤ u.span.start) ∧
          t.lexeme = t.span.slice source ∧
          Program.parse source = .error ⟨.number t.lexeme, t.span⟩) ∧
      ∀ rule span, Program.parse source ≠ .error ⟨.unhandled rule, span⟩ := by
  cases hmatch : Rule.program.matchStart source with
  | error mismatch =>
    have hparse : Program.parse source = .error mismatch.toError := by
      rw [Program.parse, Program.trees, Rule.trees, hmatch]
      rfl
    exact ⟨hparse, fun rule span h => by rw [hparse] at h; cases h⟩
  | ok found =>
    obtain ⟨next, roots⟩ := found
    have hsettles := Program.settles_parse hmatch
    have hderives := Rule.derives_of_matchStart hmatch
    have hordered := hderives.inOrder_ints.pairwise
    unfold Settles at hsettles
    cases hfind : (Tree.intsAll roots).find? fun t => !t.fits with
    | none =>
      rw [hfind] at hsettles
      obtain ⟨p, hparse⟩ := hsettles
      refine ⟨.inl ⟨fun t ht => ?_, p, hparse⟩, fun rule span h => by rw [hparse] at h; cases h⟩
      simpa using List.find?_eq_none.mp hfind t ht
    | some t =>
      rw [hfind] at hsettles
      obtain ⟨hnot, before, after, hsplit, hbefore⟩ := List.find?_eq_some_iff_append.mp hfind
      have ht : t ∈ Tree.intsAll roots := List.mem_of_find?_eq_some hfind
      have htext : t.lexeme = t.span.slice source := (hderives.slice_ints ⟨[], .refl _⟩ t ht).symm
      refine ⟨.inr ⟨t, ht, by simpa using hnot, fun u hu hnotu => ?_, htext, hsettles⟩,
        fun rule span h => by rw [hsettles] at h; cases h⟩
      · rw [hsplit] at hu hordered
        rcases List.mem_append.mp hu with hu | hu
        · exact absurd (by simpa using hbefore u hu) hnotu
        · rcases List.mem_cons.mp hu with rfl | hu
          · exact .inl rfl
          · exact .inr (List.rel_of_pairwise_cons (List.pairwise_append.mp hordered).2.1 hu)

end ScopeScript
