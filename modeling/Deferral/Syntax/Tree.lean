import Deferral.Literal
import Deferral.Operator

/-!
# Syntax trees

The expressions and statements of the language, and the source text that is written for them. The
text brackets every operator, so it shows the structure of the tree.
-/

namespace Deferral

inductive Tree where
  | int (n : Int64)
  | float (x : Double)
  | text (s : String)
  | name (s : String)
  | list (items : List Tree)
  | map (entries : List (Tree × Tree))
  | negate (operand : Tree)
  | arithmetic (operator : Operator) (left right : Tree)
  | append (head tail : Tree)
  | call (target : Tree) (args : List Tree) (kwargs : List (String × Tree))

mutual

def Tree.source : Tree → String
  | .int n => intText n
  | .float x => floatText x
  | .text s => quoteText s
  | .name s => s
  | .list items => "[" ++ ", ".intercalate (sourceItems items) ++ "]"
  | .map entries => "\x7b" ++ ", ".intercalate (sourceEntries entries) ++ "\x7d"
  | .negate operand => "-" ++ operand.source
  | .arithmetic operator left right =>
    "(" ++ left.source ++ " " ++ operator.symbol ++ " " ++ right.source ++ ")"
  | .append head tail => "(" ++ head.source ++ " >> " ++ tail.source ++ ")"
  | .call target args kwargs =>
    target.source ++ "(" ++ ", ".intercalate (sourceItems args ++ sourceKeywords kwargs) ++ ")"

def Tree.sourceItems : List Tree → List String
  | [] => []
  | item :: rest => item.source :: sourceItems rest

def Tree.sourceEntries : List (Tree × Tree) → List String
  | [] => []
  | (key, value) :: rest => (key.source ++ ": " ++ value.source) :: sourceEntries rest

def Tree.sourceKeywords : List (String × Tree) → List String
  | [] => []
  | (key, value) :: rest => (key ++ "=" ++ value.source) :: sourceKeywords rest

end

structure Statement where
  line : Nat
  target : Option String
  value : Tree

def Statement.source (statement : Statement) : String :=
  match statement.target with
  | some name => name ++ " = " ++ statement.value.source
  | none => statement.value.source

end Deferral
