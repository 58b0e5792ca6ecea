/-!
# Built-in functions

The functions that every environment knows, their names and how they take arguments.
-/

namespace Deferral

inductive Builtin where
  | take
  | tail
  | head
  | concat
  | lazy
  | print
  | str
  | repr
  | len
  | abs
  | min
  | max
  | int
  | float
  | list
  | resolve
  | quote
  deriving DecidableEq

structure Arity where
  /-- Whether arguments are forced before the function sees them. -/
  strict : Bool
  required : Nat
  /-- Whether more arguments than the required ones may be given. -/
  variadic : Bool
  deriving DecidableEq

def Arity.accepts (arity : Arity) (given : Nat) : Bool :=
  decide (arity.required ≤ given) && (arity.variadic || decide (given ≤ arity.required))

namespace Builtin

def all : List Builtin :=
  [.take, .tail, .head, .concat, .lazy, .print, .str, .repr, .len, .abs, .min, .max, .int, .float,
    .list, .resolve, .quote]

def name : Builtin → String
  | .take => "take"
  | .tail => "tail"
  | .head => "head"
  | .concat => "concat"
  | .lazy => "lazy"
  | .print => "print"
  | .str => "str"
  | .repr => "repr"
  | .len => "len"
  | .abs => "abs"
  | .min => "min"
  | .max => "max"
  | .int => "int"
  | .float => "float"
  | .list => "list"
  | .resolve => "resolve"
  | .quote => "quote"

def ofName? (name : String) : Option Builtin := all.find? (·.name = name)

def isLazy : Builtin → Bool
  | .take | .tail | .head | .concat => true
  | _ => false

/-- How each function takes its arguments. Only `quote` wants to see them as they are. -/
def arity : Builtin → Arity
  | .take | .concat => ⟨true, 2, false⟩
  | .print => ⟨true, 0, true⟩
  | .min | .max => ⟨true, 1, true⟩
  | .quote => ⟨false, 1, false⟩
  | _ => ⟨true, 1, false⟩

def keywords : Builtin → List String
  | .print => ["sep", "end"]
  | _ => []

end Builtin

/-- A built-in function as a value: an eager one runs when it is called, a lazy one when the result
of the call is asked for. -/
inductive Function where
  | eager (builtin : Builtin)
  | lazy (builtin : Builtin)
  deriving DecidableEq

namespace Function

def builtin : Function → Builtin
  | .eager b => b
  | .lazy b => b

def ofBuiltin (b : Builtin) : Function := if b.isLazy then .lazy b else .eager b

def display : Function → String
  | .eager b => "<built-in function " ++ b.name ++ ">"
  | .lazy b => "<lazy function " ++ b.name ++ ">"

end Function

end Deferral
