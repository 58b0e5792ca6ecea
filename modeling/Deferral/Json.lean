import Deferral.Resolution

/-!
# Values as JSON

A value without deferred parts and functions has a JSON form, if its floats are finite and the keys
of its maps are strings. The fields of an object stand in the order of their names.
-/

namespace Deferral

inductive Json where
  | null
  | bool (b : Bool)
  | int (n : Int64)
  | float (x : Double)
  | str (s : String)
  | array (items : List Json)
  | object (fields : List (String × Json))

namespace Json

def insertField (name : String) (value : Json) : List (String × Json) → List (String × Json)
  | [] => [(name, value)]
  | (known, old) :: rest =>
    if name < known then (name, value) :: (known, old) :: rest
    else if name = known then (name, value) :: rest
    else (known, old) :: insertField name value rest

def ofFields (fields : List (String × Json)) : Json :=
  .object (fields.foldl (fun found field => insertField field.1 field.2 found) [])

/-! ## The JSON form of a value -/

structure Unserializable where
  value : Value

def Unserializable.message (failure : Unserializable) : String :=
  "Unable to serialize value: " ++ failure.value.quoted

mutual

/-- The JSON form of a value. A map with a key that is no string is refused as a whole. -/
def ofValue : Value → Except Unserializable Json
  | .nil => .ok .null
  | .bool b => .ok (.bool b)
  | .int n => .ok (.int n)
  | .float x => if x.isFinite then .ok (.float x) else .error ⟨.float x⟩
  | .str s => .ok (.str s)
  | .list items => (ofItems items).map .array
  | .map entries => (ofEntries (.map entries) entries).map ofFields
  | v => .error ⟨v⟩

def ofItems : List Value → Except Unserializable (List Json)
  | [] => .ok []
  | item :: rest => do
    let item ← ofValue item
    let items ← ofItems rest
    return item :: items

def ofEntries (whole : Value) : List (Value × Value) → Except Unserializable (List (String × Json))
  | [] => .ok []
  | (.str name, value) :: rest => do
    let value ← ofValue value
    let fields ← ofEntries whole rest
    return (name, value) :: fields
  | _ :: _ => .error ⟨whole⟩

end

/-! ## JSON as text -/

/-- Floats are written with the fewest digits that read back, the even one of two that are equally
near; positionally from `0.00001` on and below `1e16`. -/
def floatLayout : Layout where
  plainFrom := -5
  plainBelow := 16
  plusSign := true
  tie := .toEven

def escapeChar (c : Char) : List Char :=
  match c with
  | '"' => ['\\', '"']
  | '\\' => ['\\', '\\']
  | '\x08' => ['\\', 'b']
  | '\x0c' => ['\\', 'f']
  | '\n' => ['\\', 'n']
  | '\r' => ['\\', 'r']
  | '\t' => ['\\', 't']
  | _ =>
    if c.toNat < 0x20 then
      ['\\', 'u', '0', '0', Nat.digitChar (c.toNat / 16), Nat.digitChar (c.toNat % 16)]
    else [c]

def textOf (s : String) : String := String.ofList ('"' :: s.toList.flatMap escapeChar ++ ['"'])

mutual

def compact : Json → String
  | .null => "null"
  | .bool b => if b then "true" else "false"
  | .int n => intText n
  | .float x => floatLayout.write x
  | .str s => textOf s
  | .array items => "[" ++ ",".intercalate (compactItems items) ++ "]"
  | .object fields => "\x7b" ++ ",".intercalate (compactFields fields) ++ "\x7d"

def compactItems : List Json → List String
  | [] => []
  | item :: rest => item.compact :: compactItems rest

def compactFields : List (String × Json) → List String
  | [] => []
  | (name, value) :: rest => (textOf name ++ ":" ++ value.compact) :: compactFields rest

end

/-! ## Export -/

inductive ExportFailure where
  | forcing (failure : Failure)
  | form (failure : Unserializable)

def ExportFailure.message (failure : ExportFailure) : String :=
  let cause :=
    match failure with
    | .forcing failure => failure.message
    | .form failure => failure.message
  "JSON serialization failed: " ++ cause

def render (forcing : Forcing) (v : Value) : Eval (Except ExportFailure String) := do
  match ← Eval.attempt (forcing.force v) with
  | .error failure => return .error (.forcing failure)
  | .ok v =>
    match ofValue v with
    | .error failure => return .error (.form failure)
    | .ok json => return .ok json.compact

end Json

end Deferral
