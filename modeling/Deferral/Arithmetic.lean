import Deferral.Decimal.Reader
import Deferral.Store

/-!
# Arithmetic

Operators on values that are not deferred, apart from sequences. Integers are exact or fail; as
soon as one side is a float, both are. Strings and lists can be added and repeated, and the sum of
two sequences is a call that adds them element by element.
-/

namespace Deferral

namespace Operator

def applyInt (operator : Operator) (left right : Int64) : Except Failure Value :=
  let outcome? : Option Int :=
    match operator with
    | .add => some (left.toInt + right.toInt)
    | .subtract => some (left.toInt - right.toInt)
    | .multiply => some (left.toInt * right.toInt)
    | .divide => if right = 0 then none else some (left.toInt.tdiv right.toInt)
  match outcome? with
  | none => .error (.arithmetic (.divisionByZero left right))
  | some exact =>
    match int64? exact with
    | some result => .ok (.int result)
    | none => .error (.arithmetic (.overflow operator left right))

def applyFloat (operator : Operator) (left right : Double) : Except Failure Value :=
  match operator with
  | .add => .ok (.float (left + right))
  | .subtract => .ok (.float (left - right))
  | .multiply => .ok (.float (left * right))
  | .divide =>
    if right.isZero then .error (.arithmetic (.floatDivisionByZero left right))
    else .ok (.float (left / right))

end Operator

/-- How often something of a length is repeated. Nothing is repeated less than once, and the result
may not grow too large. -/
def repetitions (count : Int64) (length : Nat) : Except Failure Nat :=
  if count ≤ 0 ∨ length = 0 then .ok 0
  else if count.toInt.toNat * length ≤ repetitionLimit then .ok count.toInt.toNat
  else .error (.arithmetic (.repetition length count))

def repeatText (s : String) (count : Int64) : Except Failure Value :=
  (repetitions count s.utf8ByteSize).map fun n => .str (Nat.repeat (· ++ s) n "")

def repeatItems (items : List Value) (count : Int64) : Except Failure Value :=
  (repetitions count items.length).map fun n => .list (List.replicate n items).flatten

namespace Operator

def compute (operator : Operator) (left right : Value) : Except Failure Value :=
  match operator, left, right with
  | operator, .int a, .int b => operator.applyInt a b
  | operator, .int a, .float b => operator.applyFloat (Double.ofInt a.toInt) b
  | operator, .float a, .int b => operator.applyFloat a (Double.ofInt b.toInt)
  | operator, .float a, .float b => operator.applyFloat a b
  | .add, .str a, .str b => .ok (.str (a ++ b))
  | .add, .list as, .list bs => .ok (.list (as ++ bs))
  | .multiply, .str s, .int count => repeatText s count
  | .multiply, .int count, .str s => repeatText s count
  | .multiply, .list items, .int count => repeatItems items count
  | .multiply, .int count, .list items => repeatItems items count
  | operator, left, right =>
    .error (.mismatch (.operands operator left.typeName right.typeName))

/-- An operator on two values. Two sequences are not added yet: their sum is a call. -/
def apply (operator : Operator) (env : EnvId) (left right : Value) : Eval Value :=
  match operator, left.isSequence && right.isSequence with
  | .add, true => Eval.call env (.function (.eager .concat)) [left, right] []
  | operator, _ => Eval.ofExcept (operator.compute left right)

def combine (operator : Operator) (env : EnvId) (left right : Value) : Eval Value :=
  if left.isDeferred || right.isDeferred then Eval.expression env operator left right
  else operator.apply env left right

end Operator

/-- The environment for a node over two values: that of the left one if it is deferred, else that of
the right one. -/
def Value.sharedEnvironment? (left right : Value) : Option EnvId :=
  left.environment?.or right.environment?

end Deferral
