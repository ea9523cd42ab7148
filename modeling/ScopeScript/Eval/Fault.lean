import ScopeScript.Console
import ScopeScript.Text.Span

/-!
# Faults of evaluation

Evaluation fails for one of three reasons: a rule of the language is violated
(`SemanticError`), a limit of the run is exceeded (`ResourceError`), or the
console fails. The first two concern an expression and carry its range in the
source; `EvalError.message` is the text of each.
-/

namespace ScopeScript

/-- The rules of the language that a program can violate. -/
inductive SemanticKind where
  | cannotBeFunctNullListOrStr
  | cannotBeFunct
  | cannotBeFunctOrNull
  | cannotBeFunctOrNullOrList
  | cannotBeList
  | mustBeList
  | mustBeFunct
  | mustBeInteger
  | mustBeIntFloatOrBool
  | tooFewParams
  | tooManyParams
  | nonIntFunctParam
  | multiplyDefinedIdent
  | undefinedIdent
  /-- A binding that should be there is missing; no program gets here with a scope open. -/
  | internal
  | subOutOfBounds
  | attemptedDivByZero
deriving DecidableEq, Inhabited

namespace SemanticKind

/-- Every kind. -/
def all : List SemanticKind :=
  [cannotBeFunctNullListOrStr, cannotBeFunct, cannotBeFunctOrNull, cannotBeFunctOrNullOrList,
    cannotBeList, mustBeList, mustBeFunct, mustBeInteger, mustBeIntFloatOrBool, tooFewParams,
    tooManyParams, nonIntFunctParam, multiplyDefinedIdent, undefinedIdent, internal,
    subOutOfBounds, attemptedDivByZero]

/-- The code of a kind in diagnostics. -/
def code : SemanticKind → String
  | cannotBeFunctNullListOrStr => "CannotBeFunctNullListOrStr"
  | cannotBeFunct => "CannotBeFunct"
  | cannotBeFunctOrNull => "CannotBeFunctOrNull"
  | cannotBeFunctOrNullOrList => "CannotBeFunctOrNullOrList"
  | cannotBeList => "CannotBeList"
  | mustBeList => "MustBeList"
  | mustBeFunct => "MustBeFunct"
  | mustBeInteger => "MustBeInteger"
  | mustBeIntFloatOrBool => "MustBeIntFloatOrBool"
  | tooFewParams => "TooFewParams"
  | tooManyParams => "TooManyParams"
  | nonIntFunctParam => "NonIntFunctParam"
  | multiplyDefinedIdent => "MultiplyDefinedIdent"
  | undefinedIdent => "UndefinedIdent"
  | internal => "Error"
  | subOutOfBounds => "SubOutOfBounds"
  | attemptedDivByZero => "AttemptedDivByZero"

/-- The kind of a code. -/
def ofCode? (code : String) : Option SemanticKind :=
  all.find? fun k => k.code == code

/-- What the violated rule says. -/
def message : SemanticKind → String
  | cannotBeFunctNullListOrStr => "cannot be function or null or list or string"
  | cannotBeFunct => "cannot be function"
  | cannotBeFunctOrNull => "cannot be function or null"
  | cannotBeFunctOrNullOrList => "cannot be function or null or list"
  | cannotBeList => "cannot be list"
  | mustBeList => "must be list"
  | mustBeFunct => "must be function"
  | mustBeInteger => "must be integer"
  | mustBeIntFloatOrBool => "must be integer or float or bool"
  | tooFewParams => "Too few parameters in function call"
  | tooManyParams => "Too many parameters in function call"
  | nonIntFunctParam => "Function parameters must be integer"
  | multiplyDefinedIdent => "Multiply defined identifier"
  | undefinedIdent => "Undefined identifier"
  | internal => "<undefined error>"
  | subOutOfBounds => "Subscript out of bounds"
  | attemptedDivByZero => "Attempted division by zero"

end SemanticKind

/-- A violated rule and, where it concerns one of several operands, its position from one. -/
structure SemanticError where
  kind : SemanticKind
  arg : Option Nat := none
deriving DecidableEq, Inhabited

/-- The text of a violated rule. -/
def SemanticError.message (e : SemanticError) : String :=
  match e.arg with
  | some n => "Arg " ++ toString n ++ ": " ++ e.kind.message
  | none => e.kind.message

/-- A limit that is exceeded. -/
inductive ResourceError where
  | stackOverflow (depth maxDepth : Nat)
  | iterationLimit (maxIterations : Nat)
deriving DecidableEq, Inhabited

/-- The text of an exceeded limit. -/
def ResourceError.message : ResourceError → String
  | stackOverflow depth maxDepth =>
    "Evaluation stack overflow: depth " ++ toString depth ++ " exceeds maximum of " ++
      toString maxDepth
  | iterationLimit n => "Loop iteration limit of " ++ toString n ++ " exceeded"

/-- Why evaluation failed. -/
inductive EvalError where
  | semantic (error : SemanticError) (span : Span)
  | resource (error : ResourceError) (span : Span)
  | io (fault : IoFault)
deriving DecidableEq, Inhabited

namespace EvalError

/-- The text of an error. -/
def message : EvalError → String
  | semantic e _ => e.message
  | resource e _ => e.message
  | io f => "I/O error: " ++ f.message

/-- The range of the expression that failed. -/
def span? : EvalError → Option Span
  | semantic _ s => some s
  | resource _ s => some s
  | io _ => none

/-- The violated rule, if it is one. -/
def semantic? : EvalError → Option SemanticError
  | semantic e _ => some e
  | _ => none

end EvalError

end ScopeScript
