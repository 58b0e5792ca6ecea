import Deferral.Builtin.Conversion
import Deferral.Builtin.Extremum
import Deferral.Builtin.Measure
import Deferral.Display
import Deferral.Sequence

/-!
# Running a built-in function

A function checks the number of its arguments and the names of its keywords before it does anything
else.
-/

namespace Deferral

namespace Builtin

def validate (builtin : Builtin) (given : Nat) (kwargs : List (String × Value)) :
    Except Failure Unit :=
  if builtin.arity.accepts given then
    match kwargs.find? fun entry => entry.1 ∉ builtin.keywords with
    | some (key, _) => .error (.mismatch (.unknownKeyword builtin key))
    | none => .ok ()
  else .error (.mismatch (.wrongCount builtin given))

def countOf (v : Value) : Except Failure Nat :=
  match v with
  | .int n => if 0 ≤ n then .ok n.toInt.toNat else .error (.mismatch (.negativeCount n))
  | other => .error (.mismatch (.countType other.typeName))

/-- The text under a keyword. The first argument of that name counts, and `None` stands for the
text that is taken when there is none. -/
def keywordText (kwargs : List (String × Value)) (key default : String) :
    Except Failure String :=
  match kwargs.lookup key with
  | none => .ok default
  | some .nil => .ok default
  | some (.str s) => .ok s
  | some other => .error (.mismatch (.keywordText key other.typeName))

def printedText (forcing : Forcing) (reverse : Bool) (v : Value) : Eval String :=
  match v, reverse with
  | .int n, true => return String.ofList (intText n).toList.reverse
  | v, _ => v.plainText forcing

def printArguments (forcing : Forcing) (env : EnvId) (args : List Value)
    (kwargs : List (String × Value)) : Eval Value := do
  let separator ← Eval.ofExcept (keywordText kwargs "sep" " ")
  let terminator ← Eval.ofExcept (keywordText kwargs "end" "\n")
  let environment ← Eval.environment env
  let texts ← args.mapM (printedText forcing environment.reversePrint)
  Eval.print env (separator.intercalate texts ++ terminator)
  return .nil

/-- What a function gives for its arguments. The last case is never reached after `validate`. -/
def perform (forcing : Forcing) (env : EnvId) (builtin : Builtin) (args : List Value)
    (kwargs : List (String × Value)) : Eval Value :=
  match builtin, args with
  | .take, [count, v] => do
    let count ← Eval.ofExcept (countOf count)
    Sequence.take forcing count v
  | .tail, [v] => Sequence.tail v
  | .head, [v] => Sequence.head forcing v
  | .concat, [left, right] => Sequence.concat forcing env left right
  | .lazy, [.function f] => return .function (.lazy f.builtin)
  | .lazy, [v] => throw (.mismatch (.notCallable v.typeName))
  | .print, args => printArguments forcing env args kwargs
  | .str, [v] => do return .str (← v.plainText forcing)
  | .repr, [v] => do return .str (← v.display forcing)
  | .len, [v] => Eval.ofExcept (lengthOf v)
  | .abs, [v] => Eval.ofExcept (absolute v)
  | .min, args => Eval.ofExcept (extremum .min .lt args)
  | .max, args => Eval.ofExcept (extremum .max .gt args)
  | .int, [v] => Eval.ofExcept (toInteger v)
  | .float, [v] => Eval.ofExcept (toFloat v)
  | .list, [v] => Sequence.collect forcing v
  | .resolve, [v] => forcing.force v
  | .quote, [v] => return .str v.quoted
  | builtin, args => throw (.mismatch (.wrongCount builtin args.length))

def run (forcing : Forcing) (env : EnvId) (builtin : Builtin) (args : List Value)
    (kwargs : List (String × Value)) : Eval Value := do
  Eval.ofExcept (builtin.validate args.length kwargs)
  builtin.perform forcing env args kwargs

end Builtin

end Deferral
