import Deferral.Value.Basic

/-!
# Equality of values

Scalars and containers are equal by content, deferred values by identity. Floats compare as
numbers, so a NaN makes whatever holds it differ from itself. Nothing is forced.
-/

namespace Deferral

mutual

/-- Equality of two values. -/
protected def Value.beq : Value → Value → Bool
  | .nil, .nil => true
  | .bool a, .bool b => a == b
  | .int a, .int b => a == b
  | .float a, .float b => a == b
  | .str a, .str b => a == b
  | .list as, .list bs => beqItems as bs
  | .map as, .map bs => beqEntries as bs
  | .function f, .function g => f == g
  | .symbol env name, .symbol env' name' => name == name' && env == env'
  | .expression node .., .expression node' .. => node == node'
  | .call node .., .call node' .. => node == node'
  | .sequence node .., .sequence node' .. => node == node'
  | _, _ => false

def Value.beqItems : List Value → List Value → Bool
  | [], [] => true
  | a :: as, b :: bs => a.beq b && beqItems as bs
  | _, _ => false

def Value.beqEntries : List (Value × Value) → List (Value × Value) → Bool
  | [], [] => true
  | (key, value) :: as, (key', value') :: bs =>
    key.beq key' && value.beq value' && beqEntries as bs
  | _, _ => false

end

instance : BEq Value := ⟨Value.beq⟩

end Deferral
