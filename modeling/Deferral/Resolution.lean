import Deferral.Builtin.Run
import Deferral.Value.Entries

/-!
# Resolution

To resolve a value is to replace every deferred part of it by what it stands for, as the bindings
are now. Nothing is remembered: resolving again looks everything up again. A sequence stays as it
is, since it may have no end.

Two limits keep resolution from running for ever on names that refer to themselves. Deferred values
nest no deeper than `depthLimit`, and no more than that many stand for one another in a row.
-/

namespace Deferral

/-! ## Containers -/

mutual

def Value.resolveWith (deferred : Value → Eval Value) : Value → Eval Value
  | .list items => do return .list (← resolveItems deferred [] items)
  | .map entries => do return .map (Entries.ofList (← resolveEntries deferred [] entries))
  | .symbol env name => deferred (.symbol env name)
  | .expression node env operator left right => deferred (.expression node env operator left right)
  | .call node env target args kwargs => deferred (.call node env target args kwargs)
  | v => return v

def Value.resolveItems (deferred : Value → Eval Value) (done : List Value) :
    List Value → Eval (List Value)
  | [] => return done.reverse
  | item :: rest => do
    let item ← item.resolveWith deferred
    resolveItems deferred (item :: done) rest

def Value.resolveEntries (deferred : Value → Eval Value) (done : List (Value × Value)) :
    List (Value × Value) → Eval (List (Value × Value))
  | [] => return done.reverse
  | (key, value) :: rest => do
    let key ← key.resolveWith deferred
    let value ← value.resolveWith deferred
    resolveEntries deferred ((key, value) :: done) rest

end

/-! ## Deferred values -/

def invoke (forcing : Forcing) (env : EnvId) (target : Value) (args : List Value)
    (kwargs : List (String × Value)) : Eval Value :=
  match target with
  | .function f => f.builtin.run forcing env args kwargs
  | other => throw (.mismatch (.notCallable other.typeName))

def forceKeywords (forcing : Forcing) (kwargs : List (String × Value)) :
    Eval (List (String × Value)) :=
  kwargs.mapM fun (key, value) => do return (key, ← forcing.force value)

def Value.forceOnce (forcing : Forcing) : Value → Eval Value
  | .symbol env name => do
    match (← Eval.environment env).bindings.get? name with
    | some bound => return bound
    | none => throw (.unbound name)
  | .expression _ env operator left right => do
    let left ← forcing.force left
    let right ← forcing.force right
    operator.apply env left right
  | .call _ env target args kwargs => do
    let target ← forcing.force target
    let args ← args.mapM forcing.force
    let kwargs ← forceKeywords forcing kwargs
    let _ ← Eval.environment env
    invoke forcing env target args kwargs
  | v => return v

/-- Takes steps, `left` at most, until the value is a sequence or not deferred any more. -/
def Value.unwind (forcing : Forcing) : (left : Nat) → Value → Eval Value
  | 0, _ => throw .tooDeep
  | left + 1, v => do
    let w ← v.forceOnce forcing
    if w.isDeferred && !w.isSequence then unwind forcing left w else return w

def Value.resolve (patience : Nat) : (room : Nat) → Value → Eval Value
  | 0, v => v.resolveWith fun _ => throw .tooDeep
  | room + 1, v => v.resolveWith fun deferred => do
    let found ← deferred.unwind ⟨resolve patience room, patience⟩ depthLimit
    resolve patience room found

def Forcing.top (patience : Nat) : Forcing := ⟨Value.resolve patience depthLimit, patience⟩

/-! ## Calls -/

/-- Calls a value. A lazy function and a deferred target give a call to be forced later; an eager
function runs at once, on forced arguments unless it takes them as they are. -/
def callValue (forcing : Forcing) (env : EnvId) (target : Value) (args : List Value)
    (kwargs : List (String × Value)) : Eval Value :=
  match target with
  | .function (.lazy builtin) => do
    Eval.ofExcept (builtin.validate args.length kwargs)
    Eval.call env (.function (.eager builtin)) args kwargs
  | .function (.eager builtin) =>
    if builtin.arity.strict then do
      let args ← args.mapM forcing.force
      let kwargs ← forceKeywords forcing kwargs
      builtin.run forcing env args kwargs
    else builtin.run forcing env args kwargs
  | target =>
    if target.isDeferred then Eval.call env target args kwargs
    else throw (.mismatch (.notCallable target.typeName))

end Deferral
