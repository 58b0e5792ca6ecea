import Deferral.Forcing
import Deferral.Value.Quoted

/-!
# Displayed values

The text of a value with its deferred parts forced. Of a sequence only the head is forced, since it
may have no end, and a part that fails shows its message.
-/

namespace Deferral

def failureText (failure : Failure) : String := "<" ++ failure.message ++ ">"

mutual

def Value.displayWith (deferred : Value → Eval String) : Value → Eval String
  | .nil => return "None"
  | .bool b => return boolText b
  | .int n => return intText n
  | .float x => return floatText x
  | .str s => return quoteText s
  | .list items => do
    let texts ← displayItems deferred [] items
    return "[" ++ ", ".intercalate texts ++ "]"
  | .map entries => do
    let texts ← displayEntries deferred [] entries
    return "\x7b" ++ ", ".intercalate texts ++ "\x7d"
  | .function f => return f.display
  | .symbol env name => deferred (.symbol env name)
  | .expression node env operator left right => deferred (.expression node env operator left right)
  | .call node env target args kwargs => deferred (.call node env target args kwargs)
  | .sequence node env head tail => deferred (.sequence node env head tail)

def Value.displayItems (deferred : Value → Eval String) (done : List String) :
    List Value → Eval (List String)
  | [] => return done.reverse
  | item :: rest => do
    let text ← item.displayWith deferred
    displayItems deferred (text :: done) rest

def Value.displayEntries (deferred : Value → Eval String) (done : List String) :
    List (Value × Value) → Eval (List String)
  | [] => return done.reverse
  | (key, value) :: rest => do
    let keyText ← key.displayWith deferred
    let valueText ← value.displayWith deferred
    displayEntries deferred ((keyText ++ ": " ++ valueText) :: done) rest

end

namespace Display

inductive Front where
  /-- All of it, as text. -/
  | whole (text : String)
  /-- A sequence, by its head. -/
  | sequence (head : Value)

def frontOfHead (forcing : Forcing) (head : Value) : Eval Front := do
  match ← Eval.attempt (forcing.force head) with
  | .ok head => return .sequence head
  | .error failure => return .whole ("Iter(" ++ failureText failure ++ ", ...)")

def front (forcing : Forcing) (text : Value → Eval String) (v : Value) : Eval Front := do
  match v with
  | .sequence _ _ head _ => frontOfHead forcing head
  | v =>
    if v.isDeferred then
      match ← Eval.attempt (forcing.force v) with
      | .error failure => return .whole (failureText failure)
      | .ok (.sequence _ _ head _) => frontOfHead forcing head
      | .ok w => return .whole (← text w)
    else return .whole (← text v)

/-- The text of a value. The fuel bounds how often showing a part needs another part shown. -/
def text (forcing : Forcing) : (fuel : Nat) → Value → Eval String
  | 0, _ => Eval.outOfFuel
  | fuel + 1, v => do
    match ← front forcing (·.displayWith (text forcing fuel)) v with
    | .whole shown => return shown
    | .sequence head =>
      let shown ← text forcing fuel head
      return "Iter(" ++ shown ++ ", ...)"

/-- Writes the text of a value on the console piece by piece, so that what is printed while a part
is forced stands in front of that part. -/
def present (forcing : Forcing) : (fuel : Nat) → Value → Eval Unit
  | 0, _ => Eval.outOfFuel
  | fuel + 1, v => do
    match ← front forcing (·.displayWith (text forcing fuel)) v with
    | .whole shown => Eval.record (.shown shown)
    | .sequence head =>
      Eval.record (.shown "Iter(")
      present forcing fuel head
      Eval.record (.shown ", ...)")

end Display

def Value.display (forcing : Forcing) (v : Value) : Eval String :=
  Display.text forcing forcing.patience v

def Value.plainText (forcing : Forcing) : Value → Eval String
  | .str s => return s
  | v => v.display forcing

end Deferral
