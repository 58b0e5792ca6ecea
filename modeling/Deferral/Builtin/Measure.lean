import Deferral.Failure

/-!
# Sizes

The length of a container and the distance of a number from zero.
-/

namespace Deferral

def lengthOf (v : Value) : Except Failure Value :=
  match v with
  | .str s => .ok (.int (Int64.ofNat s.length))
  | .list items => .ok (.int (Int64.ofNat items.length))
  | .map entries => .ok (.int (Int64.ofNat entries.length))
  | other => .error (.mismatch (.noLength other.typeName))

/-- The number without its sign. The least integer has no counterpart above zero. -/
def absolute (v : Value) : Except Failure Value :=
  match v with
  | .int n =>
    if n = Int64.minValue then .error (.arithmetic (.magnitudeOverflow n))
    else .ok (.int (if n < 0 then -n else n))
  | .float x => .ok (.float x.abs)
  | other => .error (.mismatch (.noMagnitude other.typeName))

end Deferral
