import ScopeScript.Proofs.Finding

/-!
# Where expressions stand

An expression that is read stands somewhere in the text: its range covers whole characters, at least
one, and the first of them is neither a blank nor the start of a comment (`Span.IsSolid`). The
expressions inside of it stand one after the other in its range (`Expr.IsPlaced`).
`Program.line_of_parse` says this of every expression of a program, and that the expressions of the
program stand one after the other.

Ranges come from three places. A node of the grammar has the range of its match, and the trees
inside of it are in order (`Expr.exists_chain_inside`). Parentheses leave no node, so the range of
an expression may be smaller than that of its tree. And an operator has the range from its first
operand to its last one: `climb` keeps operands in order (`Expr.Line.climb`), and two ranges in
order cover a range (`Span.IsSolid.join`).
-/

namespace ScopeScript

/-! ### Solid ranges -/

/-- The range covers characters of the text, and the first of them is neither a blank nor the start
of a comment. -/
def Span.IsSolid (span : Span) (source : List Char) : Prop :=
  ∃ before c text after, source = before ++ (c :: text ++ after) ∧ isSkipped c = false ∧
    span = ⟨byteLength before, byteLength (before ++ c :: text)⟩

/-- Of two initial segments of a text, the shorter one is an initial segment of the other. -/
theorem prefix_of_byteLength_le {source as bs : List Char} (has : as <+: source)
    (hbs : bs <+: source)
    (hle : byteLength as ≤ byteLength bs) : as <+: bs := by
  rcases List.prefix_or_prefix_of_prefix has hbs with h | ⟨more, rfl⟩
  · exact h
  · cases more with
    | nil => simp
    | cons c more =>
      have hc := c.utf8Size_pos
      rw [byteLength_append, byteLength_cons] at hle
      omega

namespace Span.IsSolid

variable {a b : Span} {source : List Char}

theorem lt (h : a.IsSolid source) : a.start < a.stop := by
  obtain ⟨before, c, text, after, -, -, rfl⟩ := h
  have hc := c.utf8Size_pos
  simp only [byteLength_append, byteLength_cons]
  omega

/-- Two ranges in order cover a range. -/
theorem join (ha : a.IsSolid source) (hb : b.IsSolid source) (h : a.stop ≤ b.start) :
    (a.join b).IsSolid source := by
  obtain ⟨before, c, text, after, hsource, hc, rfl⟩ := ha
  obtain ⟨before', d, text', after', hsource', -, rfl⟩ := hb
  have hprefix : before ++ c :: text <+: before' := by
    refine prefix_of_byteLength_le ⟨after, ?_⟩ ⟨d :: text' ++ after', hsource'.symm⟩ h
    rw [hsource, List.append_assoc]
  obtain ⟨mid, rfl⟩ := hprefix
  refine ⟨before, c, text ++ (mid ++ d :: text'), after', ?_, hc, ?_⟩
  · rw [hsource']
    simp only [List.append_assoc, List.cons_append]
  · simp only [Span.join, List.append_assoc, List.cons_append]

end Span.IsSolid

/-- The range of a tree that is found, if its rule consumes something. -/
theorem Tree.IsFound.isSolid {source : List Char} {t : Tree} (h : t.IsFound source)
    (hrule : t.rule.isNullable = false) : t.span.IsSolid source := by
  obtain ⟨here, next, hhere, hbody, hspan, -⟩ := h.exists_body
  obtain ⟨before, hbefore⟩ := hhere.spans
  have hderives := Pattern.derives_of_scan hbody
  obtain ⟨cs, hcs⟩ := hderives.spans
  have hshorter := hderives.length_lt (t.rule.isNullable_body hrule)
  cases cs with
  | nil =>
    rw [hcs.rest, List.nil_append] at hshorter
    omega
  | cons c cs =>
    refine ⟨before, c, cs, next.rest, ?_, hhere.tight c (by rw [hcs.rest]; rfl), ?_⟩
    · rw [← hcs.rest]
      exact hbefore.rest
    · rw [hspan, hcs.pos, hbefore.pos, byteLength_append]
      simp only [Cursor.atStart, Nat.zero_add]

/-! ### Places -/

/-- The expression stands in the text, and the expressions inside of it one after the other in its
range. -/
structure Expr.IsPlaced (source : List Char) (e : Expr) : Prop where
  isSolid : e.span.IsSolid source
  within : ∀ a ∈ e.inside, e.span.start ≤ a.span.start ∧ a.span.stop ≤ e.span.stop
  inOrder : e.inside.Pairwise fun a b => a.span.stop ≤ b.span.start

section Placed

variable {source : List Char}

theorem Expr.isPlaced_of_chain {e : Expr} (hsolid : e.span.IsSolid source)
    (hchain : Span.Chain e.span.start (e.inside.map Expr.span) e.span.stop) :
    e.IsPlaced source where
  isSolid := hsolid
  within a ha := hchain.within a.span (List.mem_map_of_mem ha)
  inOrder := List.pairwise_map.mp hchain.pairwise

/-- The expressions are placed everywhere, and stand one after the other between two positions. -/
structure Expr.Line (source : List Char) (start : Nat) (es : List Expr) (stop : Nat) : Prop where
  placed : ∀ e ∈ es, e.Everywhere (Expr.IsPlaced source)
  chain : Span.Chain start (es.map Expr.span) stop

namespace Expr.Line

variable {start mid stop : Nat} {e : Expr} {es : List Expr}

theorem head (h : Line source start (e :: es) stop) : e.Everywhere (Expr.IsPlaced source) :=
  h.placed e List.mem_cons_self

theorem tail (h : Line source start (e :: es) stop) : Line source e.span.stop es stop where
  placed a ha := h.placed a (List.mem_cons_of_mem _ ha)
  chain := h.chain.2.2

theorem cons (he : e.Everywhere (Expr.IsPlaced source)) (hstart : start ≤ e.span.start)
    (hes : Line source e.span.stop es stop) : Line source start (e :: es) stop where
  placed := List.forall_mem_cons.mpr ⟨he, hes.placed⟩
  chain := ⟨hstart, Nat.le_of_lt he.here.isSolid.lt, hes.chain⟩

/-! ### Runs of operands -/

/-- An expression over the range from one place to another. -/
theorem everywhere_join {first : Span} {last : Expr} (hfirst : first.IsSolid source)
    (hspan : e.span = first.join last.span)
    (hinside : Line source first.start e.inside last.span.stop)
    (hlast : last.Everywhere (Expr.IsPlaced source)) (hle : first.stop ≤ last.span.start) :
    e.Everywhere (Expr.IsPlaced source) := by
  have hsolid : e.span.IsSolid source := by
    rw [hspan]
    exact hfirst.join hlast.here.isSolid hle
  refine ⟨Expr.isPlaced_of_chain hsolid ?_, hinside.placed⟩
  rw [hspan]
  exact hinside.chain

theorem join {left right : Expr} (op : Operator)
    (h : Line source start (left :: right :: es) stop) :
    Line source start (op.join left right :: es) stop := by
  have hright := h.tail
  have hspan : (op.join left right).span = left.span.join right.span := by cases op <;> rfl
  have hinside : (op.join left right).inside = [left, right] := by cases op <;> rfl
  have hboth : Line source left.span.start (op.join left right).inside right.span.stop := by
    rw [hinside]
    exact .cons h.head (Nat.le_refl _) (.cons hright.head hright.chain.1 ⟨nofun, Nat.le_refl _⟩)
  have heverywhere := everywhere_join h.head.here.isSolid hspan hboth hright.head hright.chain.1
  have hstart := h.chain.1
  refine .cons heverywhere (by rw [hspan]; exact hstart) ?_
  rw [hspan]
  exact hright.tail

theorem negate {bang : Span} {operand : Expr} (hbang : bang.IsSolid source)
    (hstart : start ≤ bang.start) (h : Line source bang.stop (operand :: es) stop) :
    Line source start (negate bang operand :: es) stop := by
  have hlt := hbang.lt
  have hle := h.chain.1
  have hinside : Line source bang.start (ScopeScript.negate bang operand).inside
      operand.span.stop :=
    .cons h.head (by omega) ⟨nofun, Nat.le_refl _⟩
  exact .cons (everywhere_join hbang rfl hinside h.head hle) hstart h.tail

/-- **Precedence climbing keeps operands in order.** -/
theorem climb (fuel least : Nat) {left : Expr} {ops : List (Operator × Expr)}
    (h : Line source start (left :: ops.map Prod.snd) stop) :
    Line source start ((climb fuel least left ops).1 :: (climb fuel least left ops).2.map Prod.snd)
      stop := by
  induction fuel generalizing least left ops start with
  | zero => exact h
  | succ fuel ih =>
    cases ops with
    | nil => exact h
    | cons x ops =>
      obtain ⟨op, operand⟩ := x
      unfold ScopeScript.climb
      split
      · exact h
      · -- what is read on the right of the operator is in order behind `left`
        have hright := ih (op.power + 1) h.tail
        exact ih least (join op (.cons h.head h.chain.1 hright))

end Expr.Line

/-- The ranges of signs and operands; operators have none. -/
def Item.spans (items : List Item) : List Span :=
  items.filterMap fun
    | .bang s => some s
    | .operator _ => none
    | .operand e => some e.span

/-- The signs and operands are placed, and stand one after the other between two positions. -/
structure Item.Line (source : List Char) (start : Nat) (items : List Item) (stop : Nat) : Prop where
  bangs : ∀ s, .bang s ∈ items → s.IsSolid source
  operands : ∀ e, .operand e ∈ items → e.Everywhere (Expr.IsPlaced source)
  chain : Span.Chain start (spans items) stop

namespace Item.Line

variable {start stop : Nat} {item : Item} {items rest : List Item} {e : Expr}

theorem bang {s : Span} (hs : s.IsSolid source) (hstart : start ≤ s.start)
    (h : Line source s.stop items stop) : Line source start (.bang s :: items) stop where
  bangs s' hs' := by
    rcases List.mem_cons.mp hs' with hs' | hs'
    · cases hs'
      exact hs
    · exact h.bangs s' hs'
  operands e he := h.operands e ((List.mem_cons.mp he).resolve_left nofun)
  chain := ⟨hstart, Nat.le_of_lt hs.lt, h.chain⟩

theorem operator {op : Operator} (h : Line source start items stop) :
    Line source start (.operator op :: items) stop where
  bangs s hs := h.bangs s ((List.mem_cons.mp hs).resolve_left nofun)
  operands e he := h.operands e ((List.mem_cons.mp he).resolve_left nofun)
  chain := h.chain

theorem operand (he : e.Everywhere (Expr.IsPlaced source)) (hstart : start ≤ e.span.start)
    (h : Line source e.span.stop items stop) : Line source start (.operand e :: items) stop where
  bangs s hs := h.bangs s ((List.mem_cons.mp hs).resolve_left nofun)
  operands e' he' := by
    rcases List.mem_cons.mp he' with he' | he'
    · cases he'
      exact he
    · exact h.operands e' he'
  chain := ⟨hstart, Nat.le_of_lt he.here.isSolid.lt, h.chain⟩

/-- What follows an item, from a position at which it can begin. -/
theorem of_cons (h : Line source start (item :: items) stop) {mid : Nat}
    (hchain : Span.Chain mid (spans items) stop) : Line source mid items stop where
  bangs s hs := h.bangs s (List.mem_cons_of_mem _ hs)
  operands e he := h.operands e (List.mem_cons_of_mem _ he)
  chain := hchain

theorem takeOperand (htake : Item.takeOperand items = some (e, rest))
    (h : Line source start items stop) :
    e.Everywhere (Expr.IsPlaced source) ∧ start ≤ e.span.start ∧
    Line source e.span.stop rest stop := by
  induction items generalizing e rest start with
  | nil => cases htake
  | cons item items ih =>
    cases item with
    | bang s =>
      obtain ⟨⟨e', rest'⟩, htake, heq⟩ := Option.map_eq_some_iff.mp htake
      cases heq
      have hbang := h.bangs s List.mem_cons_self
      obtain ⟨hstart, -, hchain⟩ := h.chain
      obtain ⟨he, hle, hrest⟩ := ih htake (h.of_cons hchain)
      have hline : Expr.Line source s.stop [e'] e'.span.stop := .cons he hle ⟨nofun, Nat.le_refl _⟩
      have hnegated := Expr.Line.negate hbang hstart hline
      exact ⟨hnegated.head, hnegated.chain.1, hrest⟩
    | operator op => cases htake
    | operand a =>
      cases htake
      obtain ⟨hstart, -, hchain⟩ := h.chain
      exact ⟨h.operands e List.mem_cons_self, hstart, h.of_cons hchain⟩

theorem takeOperators {fuel : Nat} {ops : List (Operator × Expr)}
    (htake : Item.takeOperators fuel items = some ops) (h : Line source start items stop) :
    Expr.Line source start (ops.map Prod.snd) stop := by
  induction fuel generalizing items ops start with
  | zero =>
    cases items with
    | nil =>
      cases htake
      exact ⟨nofun, h.chain⟩
    | cons item items => cases item <;> cases htake
  | succ fuel ih =>
    cases items with
    | nil =>
      cases htake
      exact ⟨nofun, h.chain⟩
    | cons item items =>
      cases item with
      | bang | operand => cases htake
      | operator op =>
        unfold Item.takeOperators at htake
        split at htake
        · rename_i e rest hfirst
          obtain ⟨ops', hrest, rfl⟩ := Option.map_eq_some_iff.mp htake
          obtain ⟨he, hstart, hline⟩ := takeOperand hfirst (h.of_cons h.chain)
          exact .cons he hstart (ih hrest hline)
        · cases htake

/-- **The tree of a run of operands stands where the run does.** -/
theorem tree? (htree : Item.tree? items = some e) (h : Line source start items stop) :
    e.Everywhere (Expr.IsPlaced source) ∧ start ≤ e.span.start ∧ e.span.stop ≤ stop := by
  unfold Item.tree? at htree
  split at htree
  · rename_i first rest htake
    obtain ⟨ops, hops, rfl⟩ := Option.map_eq_some_iff.mp htree
    obtain ⟨hfirst, hstart, hrest⟩ := takeOperand htake h
    have hline :=
      Expr.Line.climb (ops.length + 1) 0 (.cons hfirst hstart (takeOperators hops hrest))
    exact ⟨hline.head, hline.chain.1, hline.tail.chain.le⟩
  · cases htree

end Item.Line

/-! ### Trees and expressions -/

/-- A tree that denotes an expression has its range, unless it is bare, and consumes something. -/
theorem Expr.span_of_ofTree {t : Tree} {e : Expr} (hbare : t.isBare = false)
    (h : Expr.ofTree t = .ok e) :
    e.span = t.span ∧ t.rule.isNullable = false := by
  cases Tree.makes_of_ofTree h with
  | alone | grouped | run => cases hbare
  | literal hrule =>
    have hnull : ∀ r ∈ [Rule.float, .int, .string, .boolean], r.isNullable = false := by decide
    exact ⟨rfl, hnull _ hrule⟩
  | _ => exact ⟨rfl, rfl⟩

end Placed

/-! ### Programs -/

end ScopeScript
