import ScopeScript.Eval.Basic

/-!
# Running programs

A program runs its expressions one after the other on a machine, which may have
run other programs before. A `break` or `next` outside of any loop ends only the
expression it stands in. Quitting ends the program and keeps the machine's scopes;
an error ends the program and closes all of them. Either way the output is
flushed, and the flush may fail: after an error this is ignored, else it is
reported, and the scopes stay.
-/

namespace ScopeScript

/-- How a program ended. -/
inductive Ending where
  /-- Every expression was evaluated; the last one had this value. -/
  | completed (v : Value)
  | quit
  | failed (e : EvalError)
  /-- A loop without a limit went on for longer than anyone waits. -/
  | unfinished
deriving DecidableEq, Inhabited

/-- The ending after the output is flushed. -/
def flushed (ending : Ending) (m : Machine) : Ending × Machine :=
  match Console.flush m.console with
  | .ok _ c => (ending, { m with console := c })
  | .error fault c => (.failed (.io fault), { m with console := c })

/-- Closes every scope after an error; whether the output can be flushed does not matter. -/
def abandon (e : EvalError) (m : Machine) : Ending × Machine :=
  (.failed e, (flushed .quit m.closeAll).2)

/-- Runs the expressions that are left; `last` is the value of the one before. -/
def runFrom (lim : Limits) : Program → Value → Machine → Ending × Machine
  | [], last, m => flushed (.completed last) m
  | e :: es, _, m =>
    match Eval.expr lim e m with
    | .ok v m => runFrom lim es v m
    | .error .brk m => runFrom lim es .null m
    | .error .nxt m => runFrom lim es .null m
    | .error .quit m => flushed .quit m
    | .error (.error e) m => abandon e m
    | .error .unfinished m => (.unfinished, m)

/-- Runs a program on a machine. -/
def Machine.run (m : Machine) (lim : Limits) (p : Program) : Ending × Machine :=
  runFrom lim p .null m

/-- Runs programs one after the other on one machine. -/
def Machine.runAll (m : Machine) (lim : Limits) : List Program → Machine
  | [] => m
  | p :: ps => Machine.runAll (m.run lim p).2 lim ps

end ScopeScript
