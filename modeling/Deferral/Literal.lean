import Deferral.Decimal.Layout
import Deferral.Text.Quoted

/-!
# Literals

How the language writes numbers and strings, in source text as in the text of values.
-/

namespace Deferral

/-- Floats are written with the fewest digits that read back, the larger one of two that are
equally near; positionally from `0.0001` on and below `1e16`. -/
def floatLayout : Layout where
  plainFrom := -4
  plainBelow := 16
  plusSign := false
  tie := .awayFromZero

def floatText (x : Double) : String := floatLayout.write x

def intText (n : Int64) : String := toString n.toInt

end Deferral
