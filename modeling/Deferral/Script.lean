import Deferral.Resolution
import Deferral.Syntax.Parser

/-!
# Running scripts

A script is parsed as a whole before any of it runs, so a fault anywhere leaves the store as it was.
Its statements then run in their order up to the first that fails.

To evaluate an expression is to build its value. Names become symbols, and operators and calls on
deferred values become deferred values; only what needs nothing deferred is computed.
-/

namespace Deferral

def constants : List (String × Value) :=
  [("None", .nil), ("True", .bool true), ("False", .bool false)]

def reserved? (name : String) : Option Value :=
  match Builtin.ofName? name with
  | some builtin => some (.function (.ofBuiltin builtin))
  | none => constants.lookup name

/-- The value that a name stands for in source text: a built-in function or constant, which no
binding can hide, or else a symbol, bound or not. -/
def readName (env : EnvId) (name : String) : Value :=
  (reserved? name).getD (.symbol env name)

mutual

def Tree.evaluate (forcing : Forcing) (env : EnvId) : Tree → Eval Value
  | .int n => return .int n
  | .float x => return .float x
  | .text s => return .str s
  | .name s => return readName env s
  | .list items => do return .list (← evaluateItems forcing env items)
  | .map entries => do return .map (Entries.ofList (← evaluateEntries forcing env entries))
  | .negate operand => do
    let value ← operand.evaluate forcing env
    Operator.subtract.combine env (.int 0) value
  | .arithmetic operator left right => do
    let left ← left.evaluate forcing env
    let right ← right.evaluate forcing env
    operator.combine env left right
  | .append head tail => do
    let head ← head.evaluate forcing env
    let tail ← tail.evaluate forcing env
    Eval.sequence env head tail
  | .call target args kwargs => do
    let target ← target.evaluate forcing env
    let args ← evaluateItems forcing env args
    let kwargs ← evaluateKeywords forcing env kwargs
    callValue forcing env target args kwargs

def Tree.evaluateItems (forcing : Forcing) (env : EnvId) : List Tree → Eval (List Value)
  | [] => return []
  | item :: rest => do
    let value ← item.evaluate forcing env
    let values ← evaluateItems forcing env rest
    return value :: values

def Tree.evaluateEntries (forcing : Forcing) (env : EnvId) :
    List (Tree × Tree) → Eval (List (Value × Value))
  | [] => return []
  | (key, value) :: rest => do
    let key ← key.evaluate forcing env
    let value ← value.evaluate forcing env
    let entries ← evaluateEntries forcing env rest
    return (key, value) :: entries

def Tree.evaluateKeywords (forcing : Forcing) (env : EnvId) :
    List (String × Tree) → Eval (List (String × Value))
  | [] => return []
  | (key, value) :: rest => do
    let value ← value.evaluate forcing env
    let values ← evaluateKeywords forcing env rest
    return (key, value) :: values

end

/-- Runs a statement. An assignment binds its name and gives nothing; a bare expression gives its
value. -/
def Statement.execute (forcing : Forcing) (env : EnvId) (statement : Statement) :
    Eval (Option Value) := do
  let value ← statement.value.evaluate forcing env
  match statement.target with
  | some name =>
    modify (Store.bind env name value)
    return none
  | none => return some value

namespace Script

def read (source : String) : Eval (List Statement) :=
  match parse source with
  | .ok statements => return statements
  | .error failure => throw (.source failure)

def runAll (forcing : Forcing) (env : EnvId) :
    Option Value → List Statement → Eval (Option Value)
  | last, [] => return last
  | _, statement :: rest => do
    let value ← statement.execute forcing env
    runAll forcing env value rest

def execute (forcing : Forcing) (env : EnvId) (source : String) : Eval (Option Value) := do
  runAll forcing env none (← read source)

def run (forcing : Forcing) (env : EnvId) (source : String) : Eval Unit := do
  (← read source).forM fun statement => discard (statement.execute forcing env)

def evaluate (forcing : Forcing) (env : EnvId) (source : String) : Eval Value := do
  match ← read source with
  | [⟨_, none, expression⟩] => expression.evaluate forcing env
  | statements =>
    let line := (statements.getLast?.map (·.line)).getD 1
    throw (.source ⟨line, .notOneExpression⟩)

end Script

end Deferral
