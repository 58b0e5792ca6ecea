import Deferral.Console

/-!
# The command line

`deferral [SCRIPT] [--json] [--reverse-print]` runs a script, or talks to its user line by line if
there is none. Output goes to standard output and error messages to the error stream. No log is
written, so `--log` and `--debug`, which ask for one, change nothing.
-/

namespace Deferral

namespace Main

structure Request where
  script : Option String
  json : Bool
  reversePrint : Bool

def usage : String := "usage: deferral [SCRIPT] [--log] [--debug] [--json] [--reverse-print]"

def Request.ofArgs? : List String → Option Request
  | [] => some { script := none, json := false, reversePrint := false }
  | arg :: rest => do
    let request ← ofArgs? rest
    if arg = "--json" then return { request with json := true }
    else if arg = "--reverse-print" then return { request with reversePrint := true }
    else if arg = "--log" ∨ arg = "--debug" then return request
    else if arg.startsWith "-" || request.script.isSome then none
    else return { request with script := some arg }

def forcing : Forcing := Forcing.top (Nat.pow 2 62)

def flush (store : Store) : IO Store := do
  let out ← IO.getStdout
  for chunk in store.transcript do
    out.putStr chunk.text
  out.flush
  return { store with transcript := [] }

def perform {α : Type} (action : Eval α) (store : Store) : IO (Except Failure α × Store) := do
  match action.run.run store with
  | none => throw (IO.userError "evaluation does not end")
  | some (result, store) => return (result, ← flush store)

partial def converse (options : Console.Options) (env : EnvId) (store : Store) : IO UInt32 := do
  let (_, store) ← perform (Console.say Console.prompt) store
  let line ← (← IO.getStdin).getLine
  if line.isEmpty then return 0
  match ← perform (Console.turn options forcing env line.toList) store with
  | (.ok (.next message?), store) =>
    for message in message?.toList do
      IO.eprintln message
    converse options env store
  | (.ok .exit, _) => return 0
  | (.error failure, _) =>
    IO.eprintln failure.message
    return 1

def runFile (path : String) (env : EnvId) (store : Store) : IO UInt32 := do
  let source ←
    try IO.FS.readFile path
    catch error =>
      IO.eprintln s!"Error: Failed to read path {path}"
      throw error
  match ← perform (Script.run forcing env source) store with
  | (.ok _, _) => return 0
  | (.error failure, _) =>
    IO.eprintln s!"Error: Failed to execute script at {path}: {failure.message}"
    return 1

end Main

end Deferral

def main (args : List String) : IO UInt32 := do
  match Deferral.Main.Request.ofArgs? args with
  | none =>
    IO.eprintln Deferral.Main.usage
    return 2
  | some request =>
    let (env, store) :=
      Deferral.Store.empty.addEnvironment (Deferral.Environment.fresh request.reversePrint none)
    match request.script with
    | some path => Deferral.Main.runFile path env store
    | none => Deferral.Main.converse ⟨request.json⟩ env store
