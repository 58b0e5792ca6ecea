import Deferral.Decimal.Double

/-!
# The fewest digits that read back

The reals that round to a double form an interval around it, whose ends belong to it exactly when
its significand is even. `Decimal.shortest` looks for a decimal in that interval on ever finer
grids, and takes the nearest point of the first grid that has one.
-/

namespace Deferral

structure Decimal where
  digits : Nat
  exponent : Int
  deriving DecidableEq

inductive Tie where
  | toEven
  | awayFromZero
  deriving DecidableEq

namespace Decimal

def compareScaled (a : Nat) (i : Int) (b : Nat) (j : Int) : Ordering :=
  compare (a * Nat.pow 10 i.toNat * Nat.pow 2 (-j).toNat)
    (b * Nat.pow 2 j.toNat * Nat.pow 10 (-i).toNat)

def narrowBelow (x : Double) : Bool :=
  decide (Nat.pow 2 53 ≤ x.magnitude) && x.magnitude % Nat.pow 2 52 == 0

def readsBack (x : Double) (d : Decimal) : Bool :=
  let m := x.significand
  let gap := if narrowBelow x then 1 else 2
  let below := compareScaled d.digits d.exponent (4 * m - gap) (x.scale - 2)
  let above := compareScaled d.digits d.exponent (4 * m + 2) (x.scale - 2)
  (below == .gt || (below == .eq && m % 2 == 0)) && (above == .lt || (above == .eq && m % 2 == 0))

def leadExponent (x : Double) : (steps : Nat) → (k : Int) → Int
  | 0, k => k
  | steps + 1, k =>
    if compareScaled 1 k x.significand x.scale == .gt then k else leadExponent x steps (k + 1)

/-- The point of the grid `10 ^ exponent` that stands for a double, if one reads back: the nearer
of the two that enclose it. -/
def onGrid? (tie : Tie) (x : Double) (exponent : Int) : Option Decimal :=
  let num := x.significand * Nat.pow 2 x.scale.toNat * Nat.pow 10 (-exponent).toNat
  let den := Nat.pow 2 (-x.scale).toNat * Nat.pow 10 exponent.toNat
  let low := num / den
  let high := low + 1
  match readsBack x ⟨low, exponent⟩, readsBack x ⟨high, exponent⟩ with
  | false, false => none
  | true, false => some ⟨low, exponent⟩
  | false, true => some ⟨high, exponent⟩
  | true, true =>
    match compare (2 * num) ((low + high) * den), tie with
    | .lt, _ => some ⟨low, exponent⟩
    | .gt, _ => some ⟨high, exponent⟩
    | .eq, .awayFromZero => some ⟨high, exponent⟩
    | .eq, .toEven => some ⟨if low % 2 = 0 then low else high, exponent⟩

def stripZeros : (count : Nat) → Decimal → Decimal
  | 0, d => d
  | count + 1, d =>
    if d.digits ≠ 0 ∧ d.digits % 10 = 0 then stripZeros count ⟨d.digits / 10, d.exponent + 1⟩ else d

def exact (x : Double) : Decimal :=
  if 0 ≤ x.scale then ⟨x.significand * Nat.pow 2 x.scale.toNat, 0⟩
  else ⟨x.significand * Nat.pow 5 (-x.scale).toNat, x.scale⟩

/-- The fewest digits that read back to a finite double, sign apart. Seventeen always suffice; the
exact value stands behind them so that nothing but a decimal that reads back is ever returned. -/
def shortest (tie : Tie) (x : Double) : Decimal :=
  let binary : Int := x.significand.log2 + x.scale
  let lead := leadExponent x 5 ((binary * 30103).fdiv 100000 - 1)
  match (List.range 17).findSome? fun (n : Nat) => onGrid? tie x (lead - (n + 1)) with
  | some d => stripZeros 17 d
  | none => exact x

end Decimal

end Deferral
