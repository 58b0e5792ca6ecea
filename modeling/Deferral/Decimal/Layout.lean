import Deferral.Decimal.Shortest

/-!
# How a double is laid out as text

The digits come from `Decimal.shortest`. A `Layout` records what a format decides about them: where
positional notation ends, how an exponent is signed, and which way a tie between two equally short
decimals goes.
-/

namespace Deferral

structure Layout where
  /-- The least exponent of the leading digit that is written positionally. -/
  plainFrom : Int
  /-- The first exponent of the leading digit that is written as an exponent again. -/
  plainBelow : Int
  /-- Whether an exponent that is not negative is written with a plus sign. -/
  plusSign : Bool
  tie : Tie
  deriving DecidableEq

namespace Layout

def digits (n : Nat) : List Char := Nat.toDigits 10 n

def zeros (n : Int) : List Char := List.replicate n.toNat '0'

/-- A positive decimal as text. Positional notation always shows a point with a digit on either
side of it; in exponent notation the point is dropped when one digit is left. -/
def positive (layout : Layout) (d : Decimal) : List Char :=
  let ds := digits d.digits
  let lead := d.exponent + ds.length - 1
  if layout.plainFrom ≤ lead ∧ lead < layout.plainBelow then
    if 0 ≤ d.exponent then ds ++ zeros d.exponent ++ ['.', '0']
    else if 0 ≤ lead then ds.take (lead + 1).toNat ++ '.' :: ds.drop (lead + 1).toNat
    else '0' :: '.' :: zeros (-lead - 1) ++ ds
  else
    let sign := if lead < 0 then ['-'] else if layout.plusSign then ['+'] else []
    let point := if ds.length = 1 then [] else ['.']
    ds.take 1 ++ point ++ ds.drop 1 ++ 'e' :: sign ++ digits lead.natAbs

def write (layout : Layout) (x : Double) : String :=
  if x.isNaN then "NaN"
  else
    let unsigned :=
      if !x.isFinite then ['i', 'n', 'f']
      else if x.isZero then ['0', '.', '0']
      else layout.positive (Decimal.shortest layout.tie x)
    String.ofList (if x.negative then '-' :: unsigned else unsigned)

end Layout

end Deferral
