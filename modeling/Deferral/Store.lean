import Deferral.Failure
import Deferral.Text.Utf8

/-!
# The store

All that a computation can change: the environments, the number of the next node, and what has been
written. Deferred values name their environment, so they see its bindings as they are now.

Each environment prints into a sink of its own, which may be bounded. The transcript keeps what all
of them wrote in the order of writing.
-/

namespace Deferral

/-! ## Bindings -/

/-- The names of an environment and their values. No name is there twice. -/
abbrev Bindings := List (String × Value)

def Bindings.insert (name : String) (value : Value) : Bindings → Bindings
  | [] => [(name, value)]
  | (known, old) :: rest =>
    if known = name then (name, value) :: rest else (known, old) :: Bindings.insert name value rest

def Bindings.get? (name : String) : Bindings → Option Value
  | [] => none
  | (known, value) :: rest => if known = name then some value else Bindings.get? name rest

/-! ## Environments -/

structure Environment where
  bindings : Bindings
  /-- Whether integers are printed with their digits reversed. -/
  reversePrint : Bool
  /-- Whether the environment still exists for the values that were made in it. -/
  live : Bool
  /-- How many bytes the sink still takes, if it is bounded. -/
  room : Option Nat

def Environment.fresh (reversePrint : Bool) (room : Option Nat) : Environment :=
  { bindings := [], reversePrint := reversePrint, live := true, room := room }

inductive Chunk where
  /-- Bytes that the sink of an environment took. -/
  | printed (env : EnvId) (bytes : ByteArray)
  /-- Text of the console itself. -/
  | shown (text : String)

def Chunk.text : Chunk → String
  | .printed _ bytes => textOfCut bytes
  | .shown text => text

structure Store where
  /-- The environments, each under its own number. -/
  environments : List Environment
  nextNode : NodeId
  transcript : List Chunk
  /-- How many levels resolution has entered, where it counts them. -/
  depth : Nat := 0

namespace Store

def empty : Store := { environments := [], nextNode := 0, transcript := [] }

def addEnvironment (environment : Environment) (store : Store) : EnvId × Store :=
  (store.environments.length,
    { store with environments := store.environments ++ [environment] })

def modifyEnvironment (env : EnvId) (change : Environment → Environment) (store : Store) : Store :=
  { store with environments := store.environments.modify env change }

/-- Ends an environment. The values that were made in it stay, detached. -/
def dropEnvironment (env : EnvId) : Store → Store :=
  modifyEnvironment env fun environment => { environment with live := false }

def live? (store : Store) (env : EnvId) : Option Environment :=
  store.environments[env]?.filter (·.live)

def bind (env : EnvId) (name : String) (value : Value) : Store → Store :=
  modifyEnvironment env fun environment =>
    { environment with bindings := environment.bindings.insert name value }

def binding? (store : Store) (env : EnvId) (name : String) : Option Value :=
  store.environments[env]?.bind (·.bindings.get? name)

def printedBy (store : Store) (env : EnvId) : ByteArray :=
  store.transcript.foldl (fun found chunk =>
    match chunk with
    | .printed source bytes => if source = env then found ++ bytes else found
    | .shown _ => found) ByteArray.empty

end Store

/-! ## Computations -/

/-- A computation: it reads and changes the store, and it may fail. It gives nothing at all when a
bound on its work runs out that the caller has set. -/
abbrev Eval := ExceptT Failure (StateT Store Option)

namespace Eval

def outOfFuel {α : Type} : Eval α := ExceptT.mk fun _ => none

def attempt {α : Type} (action : Eval α) : Eval (Except Failure α) := ExceptT.lift action.run

def ofExcept {α : Type} : Except Failure α → Eval α
  | .ok value => pure value
  | .error failure => throw failure

def freshNode : Eval NodeId := do
  let store ← get
  set { store with nextNode := store.nextNode + 1 }
  return store.nextNode

def environment (env : EnvId) : Eval Environment := do
  match (← get).live? env with
  | some environment => return environment
  | none => throw .detached

def record (chunk : Chunk) : Eval Unit :=
  modify fun store => { store with transcript := store.transcript ++ [chunk] }

/-- Prints a text. A bounded sink takes what still fits and refuses the rest; there is always room
for an empty text. -/
def print (env : EnvId) (text : String) : Eval Unit := do
  let bytes := text.toUTF8
  match (← environment env).room with
  | none => if bytes.size ≠ 0 then record (.printed env bytes)
  | some room =>
    let taken := bytes.extract 0 room
    if taken.size ≠ 0 then
      record (.printed env taken)
      modify (Store.modifyEnvironment env fun environment =>
        { environment with room := some (room - taken.size) })
    if taken.size < bytes.size then throw .sinkFull

def expression (env : EnvId) (operator : Operator) (left right : Value) : Eval Value := do
  return .expression (← freshNode) env operator left right

def call (env : EnvId) (target : Value) (args : List Value) (kwargs : List (String × Value)) :
    Eval Value := do
  return .call (← freshNode) env target args kwargs

def sequence (env : EnvId) (head tail : Value) : Eval Value := do
  return .sequence (← freshNode) env head tail

end Eval

end Deferral
