import Deferral.Json
import Deferral.Script

/-!
# The console

The console reads one line at a time, runs it and shows the value of its last statement. A failure
is reported and does not end the session; the line `exit` does.
-/

namespace Deferral

namespace Console

structure Options where
  /-- Whether values are shown as JSON. -/
  json : Bool

def lines (text : List Char) : List (List Char) :=
  text.foldr (fun c found =>
    match c, found with
    | '\n', found => [] :: found
    | c, [] => [[c]]
    | c, line :: rest => (c :: line) :: rest) []

/-- Runs an action and gives back the numbers that it took for new nodes. This is right where all of
these nodes are dropped with its result. -/
def withoutNodes {α : Type} (action : Eval α) : Eval α := do
  let store ← get
  let result ← action
  modify fun changed => { changed with nextNode := store.nextNode }
  return result

def say (text : String) : Eval Unit := Eval.record (.shown text)

def showValue (options : Options) (forcing : Forcing) (v : Value) : Eval (Option String) := do
  match v with
  | .nil => return none
  | v =>
    if options.json then
      match ← Json.render forcing v with
      | .ok text =>
        say (text ++ "\n")
        return none
      | .error failure => return some failure.message
    else
      Display.present forcing forcing.patience v
      say "\n"
      return none

def respond (options : Options) (forcing : Forcing) (v : Value) : Eval (Option String) :=
  withoutNodes do
    match ← Eval.attempt (forcing.force v) with
    | .ok forced => showValue options forcing forced
    | .error failure => return some failure.message

def runLine (options : Options) (forcing : Forcing) (env : EnvId) (line : String) :
    Eval (Option String) := do
  match ← Eval.attempt (Script.execute forcing env line) with
  | .error failure => return some failure.message
  | .ok none => return none
  | .ok (some v) => respond options forcing v

inductive Turn where
  | exit
  /-- Read the next line, after reporting what went wrong with this one. -/
  | next (message? : Option String)

/-- Takes a line. White space at its end does not count, and a blank line does nothing. -/
def turn (options : Options) (forcing : Forcing) (env : EnvId) (line : List Char) : Eval Turn :=
  let line := trimBlankEnd line
  if line = ['e', 'x', 'i', 't'] then return .exit
  else if line.all isBlank then return .next none
  else do return .next (← runLine options forcing env (String.ofList line))

def prompt : String := "> "

def run (options : Options) (forcing : Forcing) (env : EnvId) :
    List (List Char) → Eval (List String)
  | [] => do
    say prompt
    return []
  | line :: rest => do
    say prompt
    match ← turn options forcing env line with
    | .exit => return []
    | .next message? =>
      let messages ← run options forcing env rest
      return message?.toList ++ messages

end Console

end Deferral
