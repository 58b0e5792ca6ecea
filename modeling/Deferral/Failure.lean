import Deferral.Literal
import Deferral.Syntax.Fault
import Deferral.Value.Basic

/-!
# Failures

Why a computation fails, and the message for it.
-/

namespace Deferral

/-- How deep deferred values may nest, and how many may stand in a row, while one is resolved. -/
def depthLimit : Nat := 256

def repetitionLimit : Nat := Nat.pow 2 24

inductive Mismatch where
  | operands (operator : Operator) (left right : TypeName)
  | notCallable (type : TypeName)
  | wrongCount (builtin : Builtin) (given : Nat)
  | unknownKeyword (builtin : Builtin) (key : String)
  | keywordText (key : String) (type : TypeName)
  | negativeCount (count : Int64)
  | countType (type : TypeName)
  | notSequence (builtin : Builtin) (type : TypeName)
  /-- A sequence that goes on with something that is neither a sequence nor its end. -/
  | brokenTail (type : TypeName)
  | noLength (type : TypeName)
  | noMagnitude (type : TypeName)
  /-- A least or greatest element of nothing. -/
  | noCandidates (builtin : Builtin)
  | incomparable (left right : TypeName)
  | notIntText (text : String)
  | notIntType (type : TypeName)
  | notFloatText (text : String)
  | notFloatType (type : TypeName)
  deriving DecidableEq

inductive ArithmeticFault where
  | overflow (operator : Operator) (left right : Int64)
  | divisionByZero (left right : Int64)
  | floatDivisionByZero (left right : Double)
  | repetition (length : Nat) (count : Int64)
  | magnitudeOverflow (n : Int64)
  /-- A float that no integer is near to. -/
  | notAnInteger (x : Double)
  deriving DecidableEq

inductive Failure where
  | unbound (name : String)
  | mismatch (cause : Mismatch)
  | arithmetic (fault : ArithmeticFault)
  | exhausted (requested available : Nat)
  | source (failure : SyntaxFailure)
  /-- A deferred value whose environment is gone. -/
  | detached
  | tooDeep
  | sinkFull
  deriving DecidableEq

def wrongCountMessage (builtin : Builtin) (given : Nat) : String :=
  let arity := builtin.arity
  let bound := if arity.variadic then "at least " else ""
  let plural := if arity.required = 1 then "" else "s"
  let verb := if given = 1 then "was" else "were"
  s!"{builtin.name}() takes {bound}{arity.required} positional argument{plural}"
    ++ s!" but {given} {verb} given"

def Mismatch.message : Mismatch → String
  | .operands operator left right =>
    s!"unsupported operand types for {operator.symbol}: '{left.display}' and '{right.display}'"
  | .notCallable type => s!"'{type.display}' object is not callable"
  | .wrongCount builtin given => wrongCountMessage builtin given
  | .unknownKeyword builtin key =>
    s!"{builtin.name}() got an unexpected keyword argument '{key}'"
  | .keywordText key type => s!"{key} must be None or a string, not '{type.display}'"
  | .negativeCount count => s!"Expected a non-negative count, received {intText count}"
  | .countType type => s!"Expected an int count, received '{type.display}'"
  | .notSequence builtin type =>
    s!"{builtin.name}() expected a sequence, received '{type.display}'"
  | .brokenTail type => s!"sequence tail must be a sequence or None, received '{type.display}'"
  | .noLength type => s!"object of type '{type.display}' has no len()"
  | .noMagnitude type => s!"bad operand type for abs(): '{type.display}'"
  | .noCandidates builtin => s!"{builtin.name}() arg is an empty sequence"
  | .incomparable left right => s!"cannot compare '{left.display}' and '{right.display}'"
  | .notIntText text => s!"invalid literal for int(): {quoteText text}"
  | .notIntType type => s!"int() argument must be a string or a number, not '{type.display}'"
  | .notFloatText text => s!"could not convert string to float: {quoteText text}"
  | .notFloatType type => s!"float() argument must be a string or a number, not '{type.display}'"

def ArithmeticFault.message : ArithmeticFault → String
  | .overflow operator left right =>
    s!"Integer overflow: {intText left} {operator.symbol} {intText right}"
  | .divisionByZero left right => s!"Division by zero: {intText left} / {intText right}"
  | .floatDivisionByZero left right => s!"Division by zero: {floatText left} / {floatText right}"
  | .repetition length count =>
    s!"Repetition too large: {length} * {intText count} exceeds {repetitionLimit} elements"
  | .magnitudeOverflow n => s!"Integer overflow: abs({intText n})"
  | .notAnInteger x => s!"cannot convert float {floatText x} to integer"

/-- The message of a failure, which begins with its kind except for `detached`. -/
def Failure.message : Failure → String
  | .unbound name => s!"NameNotBound: name '{name}' is not defined"
  | .mismatch cause => s!"TypeMismatch: {cause.message}"
  | .arithmetic fault => s!"ArithmeticError: {fault.message}"
  | .exhausted requested available =>
    s!"SequenceExhausted: requested {requested} elements, sequence provided {available}"
  | .source failure => s!"SyntaxError (line {failure.line}): {failure.fault.message}"
  | .detached => "Deferred value outlived the environment it was bound to"
  | .tooDeep => s!"RecursionError: maximum resolution depth {depthLimit} exceeded"
  | .sinkFull => "IOError: sink is full"

end Deferral
