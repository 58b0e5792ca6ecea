import Deferral.Arithmetic
import Deferral.Forcing

/-!
# Sequences

A sequence is followed one element at a time: what is left of it is forced, then the head of the
node found there. The tail stays as it is until the next element is asked for, so the first `n`
elements force `n` heads and `n - 1` tails. Only `None` ends a sequence.
-/

namespace Deferral

namespace Sequence

def next? (forcing : Forcing) (rest : Value) : Eval (Option (Value × Value)) := do
  match ← forcing.force rest with
  | .nil => return none
  | .sequence _ _ head tail =>
    let item ← forcing.force head
    return some (item, tail)
  | other => throw (.mismatch (.brokenTail other.typeName))

def takeItems (forcing : Forcing) (requested : Nat) :
    (left : Nat) → (found : List Value) → (rest : Value) → Eval (List Value)
  | 0, found, _ => return found.reverse
  | left + 1, found, rest => do
    match ← next? forcing rest with
    | none => throw (.exhausted requested found.length)
    | some (item, rest) => takeItems forcing requested left (item :: found) rest

def collectItems (forcing : Forcing) :
    (fuel : Nat) → (found : List Value) → (rest : Value) → Eval (List Value)
  | 0, _, _ => Eval.outOfFuel
  | fuel + 1, found, rest => do
    match ← next? forcing rest with
    | none => return found.reverse
    | some (item, rest) => collectItems forcing fuel (item :: found) rest

def notSequence {α : Type} (builtin : Builtin) (v : Value) : Eval α :=
  throw (.mismatch (.notSequence builtin v.typeName))

def take (forcing : Forcing) (count : Nat) : Value → Eval Value
  | .list items =>
    if items.length < count then throw (.exhausted count items.length)
    else return .list (items.take count)
  | .sequence node env head tail => do
    return .list (← takeItems forcing count count [] (.sequence node env head tail))
  | other => notSequence .take other

def tail : Value → Eval Value
  | .sequence _ _ _ tail => return tail
  | other => notSequence .tail other

def head (forcing : Forcing) : Value → Eval Value
  | .sequence _ _ head _ => forcing.force head
  | other => notSequence .head other

/-- The sum of two sequences, element by element. The heads are added at once and the tails when
the result is followed; it ends where the first of the two ends. -/
def concat (forcing : Forcing) (env : EnvId) (left right : Value) : Eval Value := do
  match left, right with
  | .nil, _ => return .nil
  | _, .nil => return .nil
  | .sequence _ _ leftHead leftTail, .sequence _ _ rightHead rightTail =>
    let first ← forcing.force leftHead
    let second ← forcing.force rightHead
    let sum ← Operator.add.apply env first second
    let rest ← Eval.call env (.function (.eager .concat)) [leftTail, rightTail] []
    Eval.sequence env sum rest
  | .sequence .., other => notSequence .concat other
  | other, _ => notSequence .concat other

def collect (forcing : Forcing) : Value → Eval Value
  | .list items => return .list items
  | .sequence node env head tail => do
    return .list (← collectItems forcing forcing.patience [] (.sequence node env head tail))
  | other => notSequence .list other

end Sequence

/-- A place in a sequence. It is lost at the end, and after a failure. -/
structure Cursor where
  rest? : Option Value

namespace Cursor

def start (v : Value) : Cursor := ⟨some v⟩

def next (forcing : Forcing) (cursor : Cursor) :
    Eval (Except Failure (Option Value) × Cursor) := do
  match cursor.rest? with
  | none => return (.ok none, cursor)
  | some rest =>
    match ← Eval.attempt (Sequence.next? forcing rest) with
    | .error failure => return (.error failure, ⟨none⟩)
    | .ok none => return (.ok none, ⟨none⟩)
    | .ok (some (item, rest)) => return (.ok (some item), ⟨some rest⟩)

end Cursor

end Deferral
