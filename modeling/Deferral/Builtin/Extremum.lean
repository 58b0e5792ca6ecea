import Deferral.Failure

/-!
# Least and greatest values

Numbers are compared with numbers and strings with strings. An integer that meets a float is rounded
to one first.
-/

namespace Deferral

def compareText (a b : String) : Ordering :=
  if a < b then .lt else if a = b then .eq else .gt

def compareValues (left right : Value) : Except Failure Ordering :=
  let order? : Option Ordering :=
    match left, right with
    | .int a, .int b => some (compare a.toInt b.toInt)
    | .int a, .float b => (Double.ofInt a.toInt).compare? b
    | .float a, .int b => a.compare? (Double.ofInt b.toInt)
    | .float a, .float b => a.compare? b
    | .str a, .str b => some (compareText a b)
    | _, _ => none
  match order? with
  | some order => .ok order
  | none => .error (.mismatch (.incomparable left.typeName right.typeName))

/-- The last of the candidates that stood in the wanted order to the best one before it. -/
def best (wanted : Ordering) : Value → List Value → Except Failure Value
  | current, [] => .ok current
  | current, candidate :: rest => do
    let order ← compareValues candidate current
    best wanted (if order = wanted then candidate else current) rest

def extremum (builtin : Builtin) (wanted : Ordering) (args : List Value) : Except Failure Value :=
  let candidates :=
    match args with
    | [.list items] => items
    | args => args
  match candidates with
  | [] => .error (.mismatch (.noCandidates builtin))
  | first :: rest => best wanted first rest

end Deferral
