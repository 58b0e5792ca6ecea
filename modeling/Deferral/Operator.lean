/-!
# Operators

The four arithmetic operators.
-/

namespace Deferral

inductive Operator where
  | add
  | subtract
  | multiply
  | divide
  deriving DecidableEq

def Operator.symbol : Operator → String
  | .add => "+"
  | .subtract => "-"
  | .multiply => "*"
  | .divide => "/"

end Deferral
