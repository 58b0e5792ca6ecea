/-!
# Sets of characters

A property of characters is a list of ranges of code points in ascending order. A long list is cut
into blocks, and a search passes over every block but one. The tables of the properties are those
of Unicode 17.
-/

namespace Deferral

abbrev Ranges := List (Nat × Nat)

/-- Whether a code point lies in one of the ranges. The search stops at the first range that begins
after it. -/
def Ranges.contains : Ranges → Nat → Bool
  | [], _ => false
  | (first, last) :: rest, n =>
    if n < first then false else n ≤ last || Ranges.contains rest n

structure RangeBlock where
  last : Nat
  ranges : Ranges

abbrev RangeTable := List RangeBlock

def RangeTable.contains : RangeTable → Nat → Bool
  | [], _ => false
  | block :: rest, n =>
    if n ≤ block.last then block.ranges.contains n else RangeTable.contains rest n

end Deferral
