import Deferral.Decimal.Double

/-!
# Numbers read from text

A decimal is read as the double nearest to it, and a whole number as a 64-bit integer if it fits.
Both readers take the whole text or nothing; neither skips blanks.
-/

namespace Deferral

def isDigit (c : Char) : Bool := '0' ≤ c && c ≤ '9'

def pushDigit (n : Nat) (c : Char) : Nat := 10 * n + (c.toNat - 48)

def digitsValue (ds : List Char) : Nat := ds.foldl pushDigit 0

/-- The number that a run of decimal digits stands for, on from the number before them, if it is
less than a bound. Reading stops where the bound is reached. -/
def digitsBelow? (bound : Nat) : (n : Nat) → List Char → Option Nat
  | n, [] => some n
  | n, c :: rest =>
    let n := pushDigit n c
    if n < bound then digitsBelow? bound n rest else none

/-- A number only grows with its digits. -/
theorem le_foldl_pushDigit (ds : List Char) (n : Nat) : n ≤ ds.foldl pushDigit n := by
  induction ds generalizing n with
  | nil => exact Nat.le_refl n
  | cons c rest ih =>
    refine Nat.le_trans ?_ (ih (pushDigit n c))
    unfold pushDigit
    omega

/-- Stopping early changes nothing but the work. -/
theorem digitsBelow?_eq {bound n : Nat} (ds : List Char) (h : n < bound) :
    digitsBelow? bound n ds =
      if ds.foldl pushDigit n < bound then some (ds.foldl pushDigit n) else none := by
  induction ds generalizing n with
  | nil => simp [digitsBelow?, h]
  | cons c rest ih =>
    rw [digitsBelow?, List.foldl_cons]
    by_cases hn : pushDigit n c < bound
    · rw [if_pos hn, ih hn]
    · have hgrow := le_foldl_pushDigit rest (pushDigit n c)
      rw [if_neg hn, if_neg (by omega)]

def splitSign : List Char → Bool × List Char
  | '-' :: rest => (true, rest)
  | '+' :: rest => (false, rest)
  | rest => (false, rest)

namespace Double

/-- The double nearest to `± digits * 10 ^ exponent`. A decimal whose leading digit lies far
outside the range of doubles is not computed: it is infinite or zero. -/
def ofDecimal (negative : Bool) (digits : Nat) (exponent : Int) : Double :=
  let lead : Int := (Nat.toDigits 10 digits).length + exponent
  if digits = 0 ∨ lead < -330 then ofParts negative 0
  else if 310 < lead then ofParts negative infinityMagnitude
  else ofRatio negative (digits * Nat.pow 10 exponent.toNat) (Nat.pow 10 (-exponent).toNat)

/-- How many digits of a decimal count one by one. Neither a double nor the middle between two
neighbours needs so many, so of the digits after them it only matters whether one is not zero. -/
def digitsRead : Nat := 800

def ofDigits (negative : Bool) (ds : List Char) (exponent : Int) : Double :=
  let ds := ds.dropWhile (· == '0')
  let leading := digitsValue (ds.take digitsRead)
  let others := ds.drop digitsRead
  if others.all (· == '0') then ofDecimal negative leading (exponent + others.length)
  else ofDecimal negative (10 * leading + 1) (exponent + others.length - 1)

def exponentLimit : Nat := Nat.pow 2 16

def exponentValue (ds : List Char) : Nat :=
  ds.foldl (fun n c => if n < exponentLimit then pushDigit n c else n) 0

def exponent? : List Char → Option Int
  | [] => some 0
  | mark :: rest =>
    let (negative, ds) := splitSign rest
    if (mark == 'e' || mark == 'E') && !ds.isEmpty && ds.all isDigit then
      some (if negative then -(exponentValue ds : Int) else exponentValue ds)
    else none

def fraction : List Char → List Char × List Char
  | '.' :: rest => (rest.takeWhile isDigit, rest.dropWhile isDigit)
  | rest => ([], rest)

def special? (cs : List Char) : Option Nat :=
  match String.ofList (cs.map Char.toLower) with
  | "inf" => some infinityMagnitude
  | "infinity" => some infinityMagnitude
  | "nan" => some (infinityMagnitude + Nat.pow 2 51)
  | _ => none

/-- Reads a double: an optional sign, then `inf`, `infinity` or `nan`, or a decimal that has a
digit before or after its point, and an optional exponent. -/
def ofText? (cs : List Char) : Option Double :=
  let (negative, rest) := splitSign cs
  match special? rest with
  | some magnitude => some (ofParts negative magnitude)
  | none =>
    let whole := rest.takeWhile isDigit
    let (part, rest) := fraction (rest.dropWhile isDigit)
    if whole.isEmpty && part.isEmpty then none
    else
      (exponent? rest).map fun exponent =>
        ofDigits negative (whole ++ part) (exponent - part.length)

end Double

def int64? (n : Int) : Option Int64 :=
  if Int64.minValue.toInt ≤ n ∧ n ≤ Int64.maxValue.toInt then some (Int64.ofInt n) else none

def int64OfText? (cs : List Char) : Option Int64 :=
  let (negative, ds) := splitSign cs
  if ds.isEmpty || !ds.all isDigit then none
  else
    (digitsBelow? (Nat.pow 2 63 + 1) 0 ds).bind fun n => int64? (if negative then -(n : Int) else n)

end Deferral
