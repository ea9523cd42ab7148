import Mathlib.Logic.Relation
import ScopeScript.Proofs.Settling
import ScopeScript.Proofs.Tables

/-!
# Names that are left without a value

A name that is declared and has no value hides the name further out. An evaluation is tidy for a
name if it leaves no such entry behind that it has not found, and hides no value (`Moment.IsTidy`).
Errors do not matter here, as they close all scopes.

Assignments clean up after themselves, but loops do not: if the list of a loop is left by `break` or
`next` while its new variable still awaits a value, the variable is left behind (`Moment.Strands`).
This is the only way. An evaluation and all that come up in its course are tidy for a name exactly
if no loop strands the name (`Moment.forall_isTidy_iff`); what happens in the body of a function
that is called is of no concern, since its scope is closed.
-/

namespace ScopeScript

open Eval

/-- A name that the innermost scope does not have is looked up further out. -/
theorem ScopeStack.lookup?_of_find?_eq_none {s : ScopeStack} {name : String}
    (h : s.find? name = none) :
    s.lookup? name = (s.scopes.tail.findSome? (·.find? name)).bind (·.value) := by
  unfold find? at h
  unfold lookup? findAny?
  cases hs : s.scopes with
  | nil => rfl
  | cons scope rest =>
    simp only [hs] at h
    simp only [List.findSome?_cons, h, List.tail_cons]

namespace Moment

/-- The second evaluation comes up in the course of the first one, and not in the body of a function
that is called: both take place in the same scopes. -/
inductive Operand (lim : Limits) : Moment → Moment → Prop where
  | operand {room : Nat} {aside : List Scope} {e e₁ : Expr} {m m₁ : Machine}
      (hcall : e.isCall = false) (h : Consults (node lim · e) (within lim room) (m.begin e) e₁ m₁) :
      Operand lim ⟨room + 1, aside, e, m⟩ ⟨room, aside, e₁, m₁⟩
  | argument {room : Nat} {aside : List Scope} {span : Span} {name : String}
      {args : List Expr} {e₁ : Expr} {m m₁ : Machine}
      (h : Consults (evalArgs · (.call span name args) args) (within lim room)
        (m.begin (.call span name args)) e₁ m₁) :
      Operand lim ⟨room + 1, aside, .call span name args, m⟩ ⟨room, aside, e₁, m₁⟩

variable {lim : Limits} {t t' : Moment} {name : String}

theorem Operand.part (h : t.Operand lim t') : t.Part lim t' := by
  cases h with
  | operand hcall h => exact .operand hcall h
  | argument h => exact .argument h

/-- The second evaluation is the first one, or comes up inside of it in the same scopes. -/
abbrev Inside (lim : Limits) : Moment → Moment → Prop :=
  Relation.ReflTransGen (Operand lim)

theorem Inside.obeys_sound (h : t.Inside lim t') (ht : t.Obeys (Law.sound lim)) :
    t'.Obeys (Law.sound lim) := by
  induction h with
  | refl => exact ht
  | tail _ hstep ih => exact hstep.part.obeys_sound ih

/-- A loop declares the name as its variable, and is left by the evaluation of its list before the
variable has a value. -/
inductive Strands (lim : Limits) (name : String) : Moment → Prop where
  | intro {room : Nat} {aside : List Scope} {span : Span} {items body : Expr}
      {m m' : Machine} {stop : Stop}
      (hnew : m.scopes.find? name = none) (hstop : stop.leavesLoop = true)
      (hleft : within lim room items ((m.begin (.forIn span name items body)).declare
        ⟨name, .plain .ofScalar, none⟩) =
        .error stop m') (hawaits : m'.Awaits name) :
      Strands lim name ⟨room + 1, aside, .forIn span name items body, m⟩

/-- Where evaluation goes on or is left for a loop, the name awaits no value unless it did so
before, and has a value in sight if it had one before. -/
def IsTidy (lim : Limits) (name : String) (t : Moment) : Prop :=
  ∀ m', GoesOn (within lim t.room t.expr t.machine) m' →
    (m'.Awaits name → t.machine.Awaits name) ∧
      ∀ v, t.machine.scopes.lookup? name = some v → ∃ w, m'.scopes.lookup? name = some w

/-! ### Loops that are left too early -/

/-- A loop variable that is stranded is left behind. -/
theorem Strands.not_isTidy (h : t.Strands lim name) : ¬ t.IsTidy lim name := by
  obtain ⟨hnew, hstop, hleft, hawaits⟩ := h
  rename_i room aside span items body m m' stop
  intro htidy
  have hdeclare :
      declareLoopVar (.forIn span name items body) name (m.begin (.forIn span name items body)) =
      .ok () ((m.begin (.forIn span name items body)).declare ⟨name, .plain .ofScalar, none⟩) := by
    have hnew' : (m.begin (.forIn span name items body)).scopes.find? name = none := hnew
    simp only [declareLoopVar, hnew']
  have hended : within lim (room + 1) (.forIn span name items body) m =
      .error stop (m'.finish (.forIn span name items body) (some stop)) := by
    rw [within, counted, node, evalFor_eq, bind_of_ok hdeclare, bind_of_error hleft]
  have hgoes : GoesOn (within lim (room + 1) (.forIn span name items body) m)
      (m'.finish (.forIn span name items body) (some stop)) := by
    rw [hended]
    cases stop with
    | brk => exact .inr (.inl rfl)
    | nxt => exact .inr (.inr rfl)
    | quit | error | unfinished => cases hstop
  exact Machine.not_awaits_of_find? hnew ((htidy _ hgoes).1 hawaits)

/-! ### One level of evaluation -/

section

variable {room : Nat} {aside : List Scope} {e : Expr} {m : Machine}

/-- A call settles what its arguments settle. -/
theorem settles_evalCall {x : String} {args : List Expr} (hroom : room = lim.maxDepth - m.depth)
    (hargs : KeepsSettled name m (evalArgs (within lim room) e args m)) :
    KeepsSettled name m (evalCall (within lim room) e x args m) := by
  have hscopes := after_evalCall_scopes (e := e) x args m hroom
  cases hr : evalArgs (within lim room) e args m with
  | error stop m₁ =>
    rw [hr] at hargs
    rw [evalCall, bind_of_error hr]
    exact hargs
  | ok ns m₁ =>
    rw [hr] at hargs
    rw [after_of_ok hr] at hscopes
    cases hcall : evalCall (within lim room) e x args m with
    | ok v m₂ =>
      rw [after_of_ok hcall] at hscopes
      exact fun h => hargs ((Machine.awaits_of_scopes_eq hscopes).mp h)
    | error stop m₂ =>
      rw [after_of_error hcall] at hscopes
      exact fun _ h => hargs ((Machine.awaits_of_scopes_eq hscopes).mp h)

/-- A construct settles a name if the evaluations in its course do, and if it strands no variable of
that name. -/
theorem settles_node (hobeys : Moment.Obeys (Law.sound lim) ⟨room + 1, aside, e, m⟩)
    (hnone : ¬ Strands lim name ⟨room + 1, aside, e, m⟩)
    (hasked : ∀ e₁ m₁, Operand lim ⟨room + 1, aside, e, m⟩ ⟨room, aside, e₁, m₁⟩ →
      Behaves name (within lim room) e₁ m₁) :
    KeepsSettled name (m.begin e) (node lim (within lim room) e (m.begin e)) := by
  obtain ⟨-, hroom⟩ := hobeys.begin
  by_cases hfor : ∃ span x items body, e = .forIn span x items body
  · obtain ⟨span, x, items, body, rfl⟩ := hfor
    refine Settling.evalFor (fun e₁ m₁ h => hasked e₁ m₁ (.operand rfl h)) ?_
    rintro rfl hnew stop m' hstop hleft hawaits
    exact hnone ⟨hnew, hstop, hleft, hawaits⟩
  · cases hcall : e.isCall with
    | true =>
      cases e with
      | call span x args =>
        have hbuilt : Built .plain (evalArgs · (.call span x args) args) :=
          .evalArgs _ fun _ _ => trivial
        exact settles_evalCall hroom
          ((Settling.of_built hbuilt not_false not_false).settles _ fun e₁ m₁ h =>
            hasked e₁ m₁ (.argument h))
      | _ => cases hcall
    | false =>
      refine (Settling.node lim hcall ?_).settles _ fun e₁ m₁ h => hasked e₁ m₁ (.operand hcall h)
      exact fun span x items body heq => hfor ⟨span, x, items, body, heq⟩

end

/-! ### Whole evaluations -/

/-- **An evaluation settles a name** if no loop strands it in the course of the evaluation. -/
theorem settles (hobeys : t.Obeys (Law.sound lim))
    (hnone : ∀ t', t.Inside lim t' → ¬ t'.Strands lim name) :
    KeepsSettled name t.machine (within lim t.room t.expr t.machine) := by
  obtain ⟨room, aside, e, m⟩ := t
  induction room generalizing e m with
  | zero => exact nofun
  | succ room ih =>
    have hnode := settles_node hobeys (hnone _ .refl) fun e₁ m₁ hop => by
      have hobeys₁ := hop.part.obeys_sound hobeys
      refine ⟨ih e₁ m₁ hobeys₁ fun t' hin => hnone t' (.head hop hin), fun id m' hr => ?_⟩
      -- the list is one of the heap, and none of these is empty
      have hended := Law.within room hobeys₁.inv hobeys₁.room hobeys₁.admits
      rw [hr] at hended
      exact hended.1.inv.heap.list id hended.2
    show KeepsSettled name m (counted e (node lim (within lim room) e) m)
    unfold counted
    cases hr : node lim (within lim room) e (m.begin e) with
    | ok v m' =>
      rw [hr] at hnode
      exact hnode
    | error stop m' =>
      rw [hr] at hnode
      exact hnode

theorem KeepsSettled.of_goesOn {r : EStateM.Result Stop Machine Value} {m m' : Machine}
    (h : KeepsSettled name m r)
    (hgoes : GoesOn r m') : m'.Awaits name → m.Awaits name := by
  rcases hgoes with ⟨v, rfl⟩ | rfl | rfl
  · exact h
  · exact h rfl
  · exact h rfl

/-- A value in sight can be hidden by an entry without a value only. -/
theorem exists_lookup?_of_kept {m m' : Machine} (hkept : m.Kept m')
    (hawaits : m'.Awaits name → m.Awaits name)
    {v : Value} (hv : m.scopes.lookup? name = some v) : ∃ w, m'.scopes.lookup? name = some w := by
  cases hfind' : m'.scopes.find? name with
  | some e' =>
    rw [ScopeStack.lookup?_of_find? hfind']
    cases hvalue : e'.value with
    | some w => exact ⟨w, rfl⟩
    | none =>
      obtain ⟨e, hfind, hnone⟩ := hawaits ⟨e', hfind', hvalue⟩
      rw [ScopeStack.lookup?_of_find? hfind, hnone] at hv
      cases hv
  | none =>
    have hfind : m.scopes.find? name = none := by
      cases hfind : m.scopes.find? name with
      | none => rfl
      | some e =>
        obtain ⟨e', he', -⟩ := hkept.find? hfind
        rw [hfind'] at he'
        cases he'
    rw [ScopeStack.lookup?_of_find?_eq_none hfind', hkept.stack.tail_eq,
      ← ScopeStack.lookup?_of_find?_eq_none hfind]
    exact ⟨v, hv⟩

/-- **Only loops that strand their variable leave something behind.** An evaluation, and all that
come up in its course in the same scopes, are tidy for a name exactly if no loop among them strands
the name. -/
theorem forall_isTidy_iff (hobeys : t.Obeys (Law.sound lim)) (name : String) :
    (∀ t', t.Inside lim t' → t'.IsTidy lim name) ↔ ∀ t', t.Inside lim t' →
    ¬ t'.Strands lim name := by
  constructor
  · exact fun htidy t' hin hstrands => hstrands.not_isTidy (htidy t' hin)
  · intro hnone t' hin m' hgoes
    have hobeys' := hin.obeys_sound hobeys
    have hawaits :=
      KeepsSettled.of_goesOn (settles hobeys' fun t'' hin' => hnone t'' (hin.trans hin')) hgoes
    refine ⟨hawaits, fun v hv => exists_lookup?_of_kept ?_ hawaits hv⟩
    have hended := Law.within t'.room hobeys'.inv hobeys'.room hobeys'.admits
    rcases hgoes with ⟨v, heq⟩ | heq | heq
    all_goals
      rw [heq] at hended
      exact hended.1.kept

end Moment

/-! ### Sessions -/

/-- **What is left behind on a machine of a session.** On any machine of a session of programs that
were read, evaluate an expression in which, as in all that are read, no list is empty. It and all
that come up in its course in the same scopes are tidy for a name exactly if no loop among them
strands the name. -/
theorem Session.Reaches.isTidy_iff {s : Session} {aside : List Scope} {m : Machine}
    (h : s.Reaches aside m)
    (hread : s.IsRead) {e : Expr} (he : e.Everywhere Expr.IsShaped) (name : String) :
    (∀ t, Moment.Inside s.limits ⟨s.limits.maxDepth - m.depth, aside, e, m⟩ t →
      t.IsTidy s.limits name) ↔
      ∀ t, Moment.Inside s.limits ⟨s.limits.maxDepth - m.depth, aside, e, m⟩ t →
      ¬ t.Strands s.limits name :=
  Moment.forall_isTidy_iff (t := ⟨s.limits.maxDepth - m.depth, aside, e, m⟩)
    ⟨rfl, h.isSound hread, he⟩ name

/-- The loops `while (TRUE) for (x in { break }) 1`. -/
def strayLoop : Expr :=
  .whileDo ⟨26, 61⟩ (.literal ⟨33, 37⟩ (.bool true))
    (.forIn ⟨39, 61⟩ "x" (.block ⟨49, 58⟩ [.brk ⟨51, 56⟩]) (.literal ⟨60, 61⟩ (.int 1)))

/-- The outer loop is not tidy, so in its course a loop strands the variable `x`. -/
theorem Session.Reaches.isTidy_iff_strayLoop :
    ∃ m, Session.Reaches ⟨{}, {}, []⟩ [] m ∧ ¬ Moment.IsTidy {} "x" ⟨1000, [], strayLoop, m⟩ ∧
      ∃ t, Moment.Inside {} ⟨1000, [], strayLoop, m⟩ t ∧ t.Strands {} "x" := by
  have hreach : Session.Reaches ⟨{}, {}, []⟩ [] (Session.start ⟨{}, {}, []⟩) :=
    .pause ⟨[], [], rfl, rfl⟩
  have hshaped : strayLoop.Everywhere Expr.IsShaped := by
    have hitems : (Expr.block ⟨49, 58⟩ [.brk ⟨51, 56⟩]).Everywhere Expr.IsShaped :=
      ⟨trivial, List.forall_mem_singleton.mpr ⟨trivial, nofun⟩⟩
    have hfor : (Expr.forIn ⟨39, 61⟩ "x" (.block ⟨49, 58⟩ [.brk ⟨51, 56⟩])
        (.literal ⟨60, 61⟩ (.int 1))).Everywhere Expr.IsShaped :=
      ⟨trivial, List.forall_mem_cons.mpr ⟨hitems, List.forall_mem_singleton.mpr ⟨trivial, nofun⟩⟩⟩
    exact ⟨trivial, List.forall_mem_cons.mpr ⟨⟨trivial, nofun⟩, List.forall_mem_singleton.mpr hfor⟩⟩
  have huntidy : ¬ Moment.IsTidy {} "x" ⟨1000, [], strayLoop, Session.start ⟨{}, {}, []⟩⟩ := by
    intro htidy
    obtain ⟨hawaits, -⟩ := htidy _ (.inl ⟨.null, rfl⟩)
    exact Machine.not_awaits_of_find? rfl (hawaits ⟨⟨"x", .plain .ofScalar, none⟩, rfl, rfl⟩)
  refine ⟨_, hreach, huntidy, ?_⟩
  have hiff := hreach.isTidy_iff (fun _ hp => absurd hp List.not_mem_nil) hshaped "x"
  refine Classical.byContradiction fun hnone => huntidy (hiff.mpr ?_ _ .refl)
  exact fun t hin hstrands => hnone ⟨t, hin, hstrands⟩

/-- The loop of a function leaves its variable behind, which hides the global `x` from there on. -/
theorem strayLoop_hides_global :
    ∃ p, Program.parse
      "x <- 5; f <- function() { while (TRUE) for (x in { break }) 1; x }; f()".toList = .ok p ∧
      (Machine.run {} {} p).1 = .failed (.semantic ⟨.undefinedIdent, none⟩ ⟨63, 64⟩) ∧
      ∃ m' : Machine, expr {} strayLoop {} = .ok .null m' ∧ m'.Awaits "x" ∧
      ¬ Machine.Awaits {} "x" := by
  refine ⟨[.assign ⟨0, 6⟩ "x" (.literal ⟨5, 6⟩ (.int 5)),
    .assign ⟨8, 66⟩ "f" (.function ⟨13, 66⟩ [] (.block ⟨24, 66⟩ [strayLoop, .var ⟨63, 64⟩ "x"])),
    .call ⟨68, 71⟩ "f" []], rfl, by decide +kernel, _, rfl,
      ⟨⟨"x", .plain .ofScalar, none⟩, rfl, rfl⟩, ?_⟩
  exact Machine.not_awaits_of_find? rfl

end ScopeScript
