import Deferral.Literal
import Deferral.Value.Basic

/-!
# Quoted values

The text that shows how a value is built. It forces nothing: a symbol is shown by its name, and an
expression by its operands.
-/

namespace Deferral

def boolText (b : Bool) : String := if b then "True" else "False"

mutual

def Value.quoted : Value → String
  | .nil => "None"
  | .bool b => boolText b
  | .int n => intText n
  | .float x => floatText x
  | .str s => quoteText s
  | .list items => "[" ++ ", ".intercalate (quotedItems [] items) ++ "]"
  | .map entries => "\x7b" ++ ", ".intercalate (quotedEntries [] entries) ++ "\x7d"
  | .function f => f.display
  | .symbol _ name => "`" ++ name
  | .expression _ _ operator left right =>
    "(" ++ left.quoted ++ " " ++ operator.symbol ++ " " ++ right.quoted ++ ")"
  | .call _ _ target args kwargs =>
    let callee :=
      match target with
      | .function f => f.builtin.name
      | target => target.quoted
    callee ++ "(" ++ ", ".intercalate (quotedItems [] args ++ quotedKeywords kwargs) ++ ")"
  | .sequence _ _ head tail => "(" ++ head.quoted ++ " >> " ++ tail.quoted ++ ")"

def Value.quotedItems (done : List String) : List Value → List String
  | [] => done.reverse
  | item :: rest => quotedItems (item.quoted :: done) rest

def Value.quotedEntries (done : List String) : List (Value × Value) → List String
  | [] => done.reverse
  | (key, value) :: rest => quotedEntries ((key.quoted ++ ": " ++ value.quoted) :: done) rest

def Value.quotedKeywords : List (String × Value) → List String
  | [] => []
  | (key, value) :: rest => (key ++ "=" ++ value.quoted) :: quotedKeywords rest

end

end Deferral
