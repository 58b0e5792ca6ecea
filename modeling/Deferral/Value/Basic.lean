import Deferral.Builtin
import Deferral.Decimal.Double
import Deferral.Operator

/-!
# Values

A value is a scalar, a container, a function, or *deferred*: a symbol, an expression, a call or a
sequence node, which stand for work not done yet.

A deferred value remembers the environment that it was made in. Expressions, calls and sequence
nodes are numbered when they are made, and two of them are the same only if they have one number.
-/

namespace Deferral

abbrev EnvId := Nat

abbrev NodeId := Nat

inductive Value where
  | nil
  | bool (b : Bool)
  | int (n : Int64)
  | float (x : Double)
  | str (s : String)
  | list (items : List Value)
  /-- The entries of a map, in the order in which their keys first came. -/
  | map (entries : List (Value × Value))
  | function (f : Function)
  /-- A name, looked up anew whenever its value is asked for. -/
  | symbol (env : EnvId) (name : String)
  | expression (node : NodeId) (env : EnvId) (operator : Operator) (left right : Value)
  | call (node : NodeId) (env : EnvId) (target : Value) (args : List Value)
    (kwargs : List (String × Value))
  /-- The first element of a sequence, and what gives the others. -/
  | sequence (node : NodeId) (env : EnvId) (head tail : Value)

inductive TypeName where
  | nil
  | bool
  | int
  | float
  | str
  | list
  | map
  | function
  | symbol
  | expression
  | call
  | sequence
  deriving DecidableEq

def TypeName.display : TypeName → String
  | .nil => "NoneType"
  | .bool => "bool"
  | .int => "int"
  | .float => "float"
  | .str => "str"
  | .list => "list"
  | .map => "dict"
  | .function => "builtin_function"
  | .symbol => "Symbol"
  | .expression => "Expression"
  | .call => "LazyCall"
  | .sequence => "Iter"

namespace Value

def typeName : Value → TypeName
  | .nil => .nil
  | .bool _ => .bool
  | .int _ => .int
  | .float _ => .float
  | .str _ => .str
  | .list _ => .list
  | .map _ => .map
  | .function _ => .function
  | .symbol .. => .symbol
  | .expression .. => .expression
  | .call .. => .call
  | .sequence .. => .sequence

def environment? : Value → Option EnvId
  | .symbol env _ => some env
  | .expression _ env .. => some env
  | .call _ env .. => some env
  | .sequence _ env .. => some env
  | _ => none

def isDeferred (v : Value) : Bool := v.environment?.isSome

def isSequence : Value → Bool
  | .sequence .. => true
  | _ => false

end Value

end Deferral
