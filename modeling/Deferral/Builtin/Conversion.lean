import Deferral.Decimal.Reader
import Deferral.Failure
import Deferral.Text.Blank

/-!
# Conversions to numbers

Text is read without the white space around it. A float becomes the integer next to it on the side
of zero, if that lies strictly between the two ends of the range of integers.
-/

namespace Deferral

def toInteger (v : Value) : Except Failure Value :=
  match v with
  | .int n => .ok (.int n)
  | .bool b => .ok (.int (if b then 1 else 0))
  | .float x =>
    if x.isFinite ∧ x.truncate.natAbs < Nat.pow 2 63 then .ok (.int (Int64.ofInt x.truncate))
    else .error (.arithmetic (.notAnInteger x))
  | .str s =>
    match int64OfText? (trimBlank s.toList) with
    | some n => .ok (.int n)
    | none => .error (.mismatch (.notIntText s))
  | other => .error (.mismatch (.notIntType other.typeName))

def toFloat (v : Value) : Except Failure Value :=
  match v with
  | .int n => .ok (.float (Double.ofInt n.toInt))
  | .float x => .ok (.float x)
  | .bool b => .ok (.float (Double.ofInt (if b then 1 else 0)))
  | .str s =>
    match Double.ofText? (trimBlank s.toList) with
    | some x => .ok (.float x)
    | none => .error (.mismatch (.notFloatText s))
  | other => .error (.mismatch (.notFloatType other.typeName))

end Deferral
