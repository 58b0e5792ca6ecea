/-!
# Double-precision numbers

A double is its 64-bit word: a sign bit, eleven bits of exponent and fifty-two of fraction. The
numeric order, the exact value and the conversion from integers are read off the word in whole
numbers, so they can be reasoned about; only the four arithmetic operations are the machine's.

`Double.ofRatio` is the one place where a value is rounded: to the nearest double, and to the even
one of two that are equally near.
-/

namespace Deferral

/-- A double-precision number, held as its word. Two doubles are equal as values of this type
exactly when their words are; the numeric comparison is `==`. -/
structure Double where
  bits : UInt64
  deriving DecidableEq

namespace Double

/-! ## The parts of the word -/

def negative (x : Double) : Bool := decide (Nat.pow 2 63 ≤ x.bits.toNat)

/-- The word without its sign. It grows with the distance from zero. -/
def magnitude (x : Double) : Nat := x.bits.toNat % Nat.pow 2 63

def infinityMagnitude : Nat := 0x7FF * Nat.pow 2 52

def ofParts (negative : Bool) (magnitude : Nat) : Double :=
  ⟨UInt64.ofNat (if negative then Nat.pow 2 63 + magnitude else magnitude)⟩

def isNaN (x : Double) : Bool := decide (infinityMagnitude < x.magnitude)

def isFinite (x : Double) : Bool := decide (x.magnitude < infinityMagnitude)

def isZero (x : Double) : Bool := x.magnitude == 0

def significand (x : Double) : Nat :=
  if x.magnitude < Nat.pow 2 52 then x.magnitude else Nat.pow 2 52 + x.magnitude % Nat.pow 2 52

def scale (x : Double) : Int :=
  if x.magnitude < Nat.pow 2 52 then -1074 else (x.magnitude / Nat.pow 2 52 : Nat) - 1075

/-! ## Order -/

/-- A whole number that orders the doubles other than NaN as their values do. Both zeros have
rank 0. -/
def rank (x : Double) : Int := if x.negative then -(x.magnitude : Int) else x.magnitude

protected def beq (x y : Double) : Bool := !x.isNaN && !y.isNaN && x.rank == y.rank

instance : BEq Double := ⟨Double.beq⟩

def compare? (x y : Double) : Option Ordering :=
  if x.isNaN || y.isNaN then none else some (compare x.rank y.rank)

/-! ## Arithmetic -/

instance : Add Double := ⟨fun x y => ⟨(Float.ofBits x.bits + Float.ofBits y.bits).toBits⟩⟩
instance : Sub Double := ⟨fun x y => ⟨(Float.ofBits x.bits - Float.ofBits y.bits).toBits⟩⟩
instance : Mul Double := ⟨fun x y => ⟨(Float.ofBits x.bits * Float.ofBits y.bits).toBits⟩⟩
instance : Div Double := ⟨fun x y => ⟨(Float.ofBits x.bits / Float.ofBits y.bits).toBits⟩⟩

def abs (x : Double) : Double := ofParts false x.magnitude

def truncate (x : Double) : Int :=
  let whole := x.significand * Nat.pow 2 x.scale.toNat / Nat.pow 2 (-x.scale).toNat
  if x.negative then -(whole : Int) else whole

/-! ## Rounding -/

def divideToEven (num den : Nat) : Nat :=
  let quotient := num / den
  let twice := 2 * (num % den)
  if twice < den then quotient
  else if den < twice then quotient + 1
  else if quotient % 2 = 0 then quotient else quotient + 1

def binaryExponent (num den : Nat) : Int :=
  let guess : Int := num.log2 - den.log2
  if den * Nat.pow 2 guess.toNat ≤ num * Nat.pow 2 (-guess).toNat then guess else guess - 1

/-- The double nearest to `num / den`, the even one of two that are equally near; a quotient past
the largest finite double goes to infinity. -/
def ofRatio (negative : Bool) (num den : Nat) : Double :=
  if num = 0 then ofParts negative 0
  else
    let scale := max (binaryExponent num den - 52) (-1074)
    let significand := divideToEven (num * Nat.pow 2 (-scale).toNat) (den * Nat.pow 2 scale.toNat)
    ofParts negative (min infinityMagnitude ((scale + 1074).toNat * Nat.pow 2 52 + significand))

def ofInt (n : Int) : Double := ofRatio (decide (n < 0)) n.natAbs 1

end Double

end Deferral
