import ScopeScript.Ast.Parse
import ScopeScript.Proofs.Coupling

/-!
# Source positions

Where in the source an expression stands has no influence on what it does. Erasing all ranges from a
program, and from the functions of the machine that it runs on, changes neither the values nor the
output nor the input that is left, and a run that fails does so with the same error, up to the range
that the error names (`Machine.run_of_eraseSpans`). So two texts of one program, with other blanks,
comments or redundant parentheses, do the same, down to the depth at which a limit strikes.

The log of a machine is full of ranges, and evaluation never looks at it. `Machine.eraseSpans` drops
it as a whole: how a machine was got does not matter. Both facts come from putting two runs side by
side that never part (`Coupling.recast`), in one case with other ranges, in the other with another
past.
-/

namespace ScopeScript

open Eval

/-! ### Erasing ranges -/

/-- The function without source ranges in its body. -/
def Function.eraseSpans (f : Function) : Function := { f with body := f.body.eraseSpans }

/-- The machine without source ranges: those in the bodies of functions are erased, and the log is
dropped. -/
def Machine.eraseSpans (m : Machine) : Machine :=
  { m with
    heap := { m.heap with functions := m.heap.functions.map Function.eraseSpans }
    log := [] }

/-- The error without the range that it names. -/
def EvalError.eraseSpan : EvalError → EvalError
  | .semantic error _ => .semantic error .blank
  | .resource error _ => .resource error .blank
  | .io fault => .io fault

/-- The ending without the range of its error. -/
def Ending.eraseSpan : Ending → Ending
  | .failed e => .failed e.eraseSpan
  | r => r

/-! ### Runs with other ranges or another past -/

/-- The second run has other ranges, and its log begins with other events. The runs never part. -/
def Coupling.recast (lim : Limits) (span : Span → Span) (past : List Event) : Coupling lim lim where
  toTwin := ⟨span, id, past⟩
  Parts _ _ _ := False
  fatal h := h.elim
  unwinds h _ _ := h
  continues h _ := h
  room := .inl rfl
  loops := .inl ⟨rfl, rfl⟩
  prints text m := by
    left
    have hconsole : ((⟨span, id, past⟩ : Twin).machine m).console = m.console := rfl
    simp only [onConsole, hconsole]
    cases Console.printLine text m.console <;> rfl
  reads m := by
    left
    have hconsole : ((⟨span, id, past⟩ : Twin).machine m).console = m.console := rfl
    simp only [onConsole, hconsole]
    cases Console.readLine m.console <;> rfl
  flushes _ := rfl

theorem Coupling.run_recast (lim : Limits) (span : Span → Span) (past : List Event) (p : Program)
    (m : Machine) :
    ((⟨span, id, past⟩ : Twin).machine m).run lim (p.map (Expr.mapSpans span)) =
      ((⟨span, id, past⟩ : Twin).ending (m.run lim p).1,
        (⟨span, id, past⟩ : Twin).machine (m.run lim p).2) := by
  rcases (Coupling.recast lim span past).run p m with heq | ⟨stop, m₁, -, hparts⟩
  · exact heq
  · exact hparts.elim

/-- Without other ranges, the second machine differs in its log only. -/
theorem Twin.machine_of_past (past : List Event) (m : Machine) :
    (⟨id, id, past⟩ : Twin).machine m = { m with log := m.log ++ past } := by
  have hfunctions : (⟨id, id, past⟩ : Twin).function = id := funext same_function
  have hevents : (⟨id, id, past⟩ : Twin).event = id := funext same_event
  simp only [machine, heap, hfunctions, hevents, Array.map_id, List.map_id]
  rfl

namespace Machine

variable {lim : Limits}

/-- What was logged before a run has no part in it. -/
theorem run_of_log (m : Machine) (lim : Limits) (p : Program) :
    ∃ log, m.run lim p =
      (({ m with log := [] }.run lim p).1, { ({ m with log := [] }.run lim p).2 with log }) := by
  have hrun := Coupling.run_recast lim id m.log p { m with log := [] }
  have hending : (⟨id, id, m.log⟩ : Twin).ending = id := funext fun r => by
    cases r with
    | failed e => cases e <;> rfl
    | _ => rfl
  rw [Twin.machine_of_past, Twin.machine_of_past, hending, funext Expr.mapSpans_id,
    List.map_id'] at hrun
  exact ⟨_, hrun⟩

/-- **Erasing ranges before a run** or after it makes no difference. -/
theorem run_eraseSpans (m : Machine) (lim : Limits) (p : Program) :
    (m.eraseSpans.run lim p.eraseSpans).1 = (m.run lim p).1.eraseSpan ∧
      { (m.eraseSpans.run lim p.eraseSpans).2 with log := [] } = (m.run lim p).2.eraseSpans := by
  have hrun := Coupling.run_recast lim (fun _ => .blank) [] p { m with log := [] }
  have hstart : (⟨fun _ => .blank, id, []⟩ : Twin).machine { m with log := [] } =
      m.eraseSpans := rfl
  have hending : (⟨fun _ => .blank, id, []⟩ : Twin).ending = Ending.eraseSpan := funext fun r => by
    cases r with
    | failed e => cases e <;> rfl
    | _ => rfl
  rw [hstart, hending] at hrun
  obtain ⟨log, hlog⟩ := m.run_of_log lim p
  have hp : p.eraseSpans = p.map (Expr.mapSpans fun _ => .blank) := rfl
  rw [hp, hrun, hlog]
  exact ⟨rfl, rfl⟩

/-- **Source positions do not matter.** Two programs that are the same without their ranges, on
machines that are the same without the ranges in their functions, end in the same way, up to the
range of an error, and leave machines that are the same without ranges: the same scopes, lists,
output and remaining input. -/
theorem run_of_eraseSpans {m m' : Machine} {p p' : Program} (hp : p.eraseSpans = p'.eraseSpans)
    (hm : m.eraseSpans = m'.eraseSpans) :
    (m.run lim p).1.eraseSpan = (m'.run lim p').1.eraseSpan ∧
      (m.run lim p).2.eraseSpans = (m'.run lim p').2.eraseSpans := by
  obtain ⟨hending, hmachine⟩ := m.run_eraseSpans lim p
  obtain ⟨hending', hmachine'⟩ := m'.run_eraseSpans lim p'
  rw [← hending, ← hmachine, hp, hm]
  exact ⟨hending', hmachine'⟩

/-- The program `f <- function(a) { a / 0 }`, wherever its parts stand. -/
def divider (stop : Nat) (quotient left right : Span) : Program :=
  [.assign ⟨0, stop⟩ "f" (.function ⟨5, stop⟩ ["a"] (.block ⟨17, stop⟩
    [.arith quotient .div (.var left "a") (.literal right (.int 0))]))]

/-- The program `f(1)`, wherever its parts stand. -/
def dividing (call arg : Span) : Program := [.call call "f" [.literal arg (.int 1)]]

/-- A function is defined and called in two layouts. The calls fail at different places with one
error, and leave machines that differ in their ranges only. -/
theorem run_of_eraseSpans_layout :
    ∃ m m' : Machine, ∃ p p' q q' : Program,
      Program.parse "f <- function(a) \x7b a / 0 \x7d".toList = .ok p ∧
      m = (({} : Machine).run {} p).2 ∧
      Program.parse "f <- function(a) \x7b\n  (a) / 0 # zero\n\x7d".toList = .ok p' ∧
      m' = (({} : Machine).run {} p').2 ∧
      Program.parse "f(1)".toList = .ok q ∧ Program.parse "f( (1) )".toList = .ok q' ∧
      (m.run {} q).1 = .failed (.semantic ⟨.attemptedDivByZero, none⟩ ⟨19, 24⟩) ∧
      (m'.run {} q').1 = .failed (.semantic ⟨.attemptedDivByZero, none⟩ ⟨22, 28⟩) ∧
      (m.run {} q).1.eraseSpan = (m'.run {} q').1.eraseSpan ∧
      (m.run {} q).2.eraseSpans = (m'.run {} q').2.eraseSpans := by
  refine ⟨_, _, divider 26 ⟨19, 24⟩ ⟨19, 20⟩ ⟨23, 24⟩, divider 37 ⟨22, 28⟩ ⟨22, 23⟩ ⟨27, 28⟩,
    dividing ⟨0, 4⟩ ⟨2, 3⟩, dividing ⟨0, 8⟩ ⟨4, 5⟩, rfl, rfl, rfl, rfl, rfl, rfl, rfl, rfl, ?_⟩
  have hp : (divider 26 ⟨19, 24⟩ ⟨19, 20⟩ ⟨23, 24⟩).eraseSpans =
    (divider 37 ⟨22, 28⟩ ⟨22, 23⟩ ⟨27, 28⟩).eraseSpans := rfl
  have hq : (dividing ⟨0, 4⟩ ⟨2, 3⟩).eraseSpans = (dividing ⟨0, 8⟩ ⟨4, 5⟩).eraseSpans := rfl
  exact run_of_eraseSpans hq (run_of_eraseSpans hp rfl).2

end Machine

end ScopeScript
