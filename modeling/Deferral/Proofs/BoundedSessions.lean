import Deferral.Proofs.Truncation

/-!
# Sessions with a bounded sink

A session is a number of operations, one after the other: it runs scripts, forces values and shows
them, and goes on after a failure.  What it does next may depend on all that it has seen.  Whatever
a failure to print changes in it, a bounded sink takes the beginning of what an unbounded one takes,
up to its bound (`IsSession.truncated`).
-/

namespace Deferral

open Eval

/-! ## 1. Operations -/

/-- What can be asked for: to run a script, to bind a name or end an environment, to make a node, to
force a value and to show it. -/
inductive IsOperation (forcing : Forcing) : {α : Type} → Eval α → Prop
  | run (env : EnvId) (source : String) : IsOperation forcing (Script.run forcing env source)
  | execute (env : EnvId) (source : String) :
      IsOperation forcing (Script.execute forcing env source)
  | evaluate (env : EnvId) (source : String) :
      IsOperation forcing (Script.evaluate forcing env source)
  | bind (env : EnvId) (name : String) (v : Value) :
      IsOperation forcing (modify (Store.bind env name v) : Eval PUnit)
  | drop (env : EnvId) : IsOperation forcing (modify (Store.dropEnvironment env) : Eval PUnit)
  | expression (env : EnvId) (operator : Operator) (left right : Value) :
      IsOperation forcing (Eval.expression env operator left right)
  | call (env : EnvId) (target : Value) (args : List Value) (kwargs : List (String × Value)) :
      IsOperation forcing (Eval.call env target args kwargs)
  | sequence (env : EnvId) (head tail : Value) :
      IsOperation forcing (Eval.sequence env head tail)
  | apply (operator : Operator) (env : EnvId) (left right : Value) :
      IsOperation forcing (operator.apply env left right)
  | combine (operator : Operator) (env : EnvId) (left right : Value) :
      IsOperation forcing (operator.combine env left right)
  | force (v : Value) : IsOperation forcing (forcing.force v)
  | forceOnce (v : Value) : IsOperation forcing (v.forceOnce forcing)
  | callValue (env : EnvId) (target : Value) (args : List Value)
      (kwargs : List (String × Value)) :
      IsOperation forcing (callValue forcing env target args kwargs)
  | invoke (env : EnvId) (target : Value) (args : List Value) (kwargs : List (String × Value)) :
      IsOperation forcing (invoke forcing env target args kwargs)
  | take (count : Nat) (v : Value) : IsOperation forcing (Sequence.take forcing count v)
  | head (v : Value) : IsOperation forcing (Sequence.head forcing v)
  | tail (v : Value) : IsOperation forcing (Sequence.tail v)
  | collect (v : Value) : IsOperation forcing (Sequence.collect forcing v)
  | concat (env : EnvId) (left right : Value) :
      IsOperation forcing (Sequence.concat forcing env left right)
  | next (cursor : Cursor) : IsOperation forcing (cursor.next forcing)
  | display (v : Value) : IsOperation forcing (v.display forcing)
  | plainText (v : Value) : IsOperation forcing (v.plainText forcing)
  | render (v : Value) : IsOperation forcing (Json.render forcing v)

/-- Operations one after the other.  A failure is a reply like any other, and what comes next
depends on the replies. -/
inductive IsSession (forcing : Forcing) : {α : Type} → Eval α → Prop
  | done {α : Type} (a : α) : IsSession forcing (pure a : Eval α)
  | step {α β : Type} {operation : Eval α} {next : Except Failure α → Eval β} :
      IsOperation forcing operation → (∀ reply, IsSession forcing (next reply)) →
      IsSession forcing (attempt operation >>= next)

/-! ## 2. What every operation does to a sink -/

variable {env : EnvId} {forcing : Forcing}

theorem Eval.Composed.truncates {ι α β : Type} {part : ι → Eval β} {action : Eval α}
    (h : Composed part action) (hparts : ∀ i, (part i).Truncates env) : action.Truncates env := by
  induction h with
  | pure a => exact truncates_pure a
  | throw failure => exact truncates_throw failure
  | outOfFuel => exact truncates_outOfFuel
  | bind _ _ ih ihnext => exact truncates_bind ih ihnext
  | attempt _ ih => exact truncates_attempt ih
  | freshNode => exact truncates_freshNode
  | print env text => exact truncates_print env text
  | environment env hroom _ ih => exact truncates_environment env hroom ih
  | part i => exact hparts i

theorem Script.read_truncates (source : String) : (read source).Truncates env := by
  unfold read
  split
  · exact truncates_pure _
  · exact truncates_throw _

section
variable (hforcing : ∀ v, (forcing.force v).Truncates env)
include hforcing

/-- A binding has nothing to do with sinks. -/
theorem Statement.execute_truncates (other : EnvId) (statement : Statement) :
    (statement.execute forcing other).Truncates env := by
  unfold Statement.execute
  refine truncates_bind ((statement.value.evaluate_composed forcing other).truncates hforcing)
    fun v => ?_
  split
  · exact truncates_bind (truncates_modify other fun _ _ => rfl) fun _ => truncates_pure none
  · exact truncates_pure (some v)

namespace Script

theorem runAll_truncates (other : EnvId) (last : Option Value) (statements : List Statement) :
    (runAll forcing other last statements).Truncates env := by
  induction statements generalizing last with
  | nil => exact truncates_pure last
  | cons statement rest ih =>
    exact truncates_bind (statement.execute_truncates hforcing other) fun value => ih value

theorem run_truncates (other : EnvId) (source : String) :
    (run forcing other source).Truncates env := by
  refine truncates_bind (read_truncates source) fun statements => ?_
  induction statements with
  | nil => exact truncates_pure _
  | cons statement rest ih =>
    have hdiscard : (discard (statement.execute forcing other)).Truncates env :=
      truncates_bind (statement.execute_truncates hforcing other) fun _ => truncates_pure _
    exact truncates_bind hdiscard fun _ => ih

theorem evaluate_truncates (other : EnvId) (source : String) :
    (evaluate forcing other source).Truncates env := by
  refine truncates_bind (read_truncates source) fun statements => ?_
  split
  · exact (Tree.evaluate_composed forcing other _).truncates hforcing
  · exact truncates_throw _

end Script

theorem IsOperation.truncates {α : Type} {operation : Eval α} (h : IsOperation forcing operation) :
    operation.Truncates env := by
  cases h with
  | run other source => exact Script.run_truncates hforcing other source
  | execute other source =>
    exact truncates_bind (Script.read_truncates source) fun statements =>
      Script.runAll_truncates hforcing other none statements
  | evaluate other source => exact Script.evaluate_truncates hforcing other source
  | bind other name v => exact truncates_modify other fun _ _ => rfl
  | drop other => exact truncates_modify other fun _ _ => rfl
  | expression other operator left right =>
    exact (Composed.expression other operator left right).truncates hforcing
  | call other target args kwargs =>
    exact (Composed.call other target args kwargs).truncates hforcing
  | sequence other head tail => exact (Composed.sequence other head tail).truncates hforcing
  | apply operator other left right =>
    exact (operator.apply_composed other left right).truncates hforcing
  | combine operator other left right =>
    exact (operator.combine_composed other left right).truncates hforcing
  | force v => exact hforcing v
  | forceOnce v => exact (v.forceOnce_composed forcing).truncates hforcing
  | callValue other target args kwargs =>
    exact (callValue_composed forcing other target args kwargs).truncates hforcing
  | invoke other target args kwargs =>
    exact (invoke_composed forcing other target args kwargs).truncates hforcing
  | take count v => exact (Sequence.take_composed forcing count v).truncates hforcing
  | head v => exact (Sequence.head_composed forcing v).truncates hforcing
  | tail v => exact (Sequence.tail_composed v).truncates hforcing
  | collect v => exact (Sequence.collect_composed forcing v).truncates hforcing
  | concat other left right =>
    exact (Sequence.concat_composed forcing other left right).truncates hforcing
  | next cursor => exact (Cursor.next_composed forcing cursor).truncates hforcing
  | display v => exact (v.display_composed forcing).truncates hforcing
  | plainText v => exact (v.plainText_composed forcing).truncates hforcing
  | render v => exact (Json.render_composed forcing v).truncates hforcing

theorem IsSession.truncates {α : Type} {session : Eval α} (h : IsSession forcing session) :
    session.Truncates env := by
  induction h with
  | done a => exact truncates_pure a
  | step hoperation _ ih =>
    exact truncates_bind (truncates_attempt (hoperation.truncates hforcing)) ih

end

/-! ## 3. The theorem -/

/-- Two runs of a session, from the same store but for the room in one sink: what the bounded sink
takes is the beginning of what the unbounded one takes. -/
theorem IsSession.truncated {patience n : Nat} {α : Type} {session : Eval α} {store : Store}
    {outcome outcome' : Except Failure α} {after after' : Store}
    (h : IsSession (Forcing.top patience) session)
    (hends : session.Ends (store.withRoom env none) outcome after)
    (hends' : session.Ends (store.withRoom env (some n)) outcome' after') :
    ∃ written, after.printedBy env = store.printedBy env ++ written ∧
      after'.printedBy env = store.printedBy env ++ written.extract 0 n := by
  have hforcing (v : Value) : ((Forcing.top patience).force v).Truncates env :=
    (v.resolve_composed patience depthLimit).truncates nofun
  have htruncates : session.Truncates env := h.truncates hforcing
  have hstores := store.same_withRoom env n
  obtain ⟨-, text, hprinted⟩ := (htruncates.prints _ _ _ hends).unbounded hstores.unbounded
  have hbounded : after'.printedBy env =
      (after.printedBy env).extract 0 ((store.printedBy env).size + n) := by
    obtain ⟨-, hsame⟩ | hfull := htruncates.same _ _ _ hstores _ _ _ _ hends hends'
    · exact hsame.output
    · exact hfull.output
  refine ⟨text.toUTF8, hprinted, ?_⟩
  rw [hbounded, hprinted]
  show (store.printedBy env ++ text.toUTF8).extract 0 _ = _
  rw [ByteArray.extract_append, ByteArray.extract_of_size_le (Nat.le_add_right _ n), Nat.zero_sub,
    Nat.add_sub_cancel_left]

/-- A script that prints in each of its statements fails in the second one, where the sink is full.
What is asked for next shows the message of this failure instead of what was printed, and a last
print comes to nothing. -/
theorem IsSession.truncated_shown_failure :
    let forcing := Forcing.top 1
    let store : Store := Store.single []
    let printing (s : String) : Value := .call 0 0 (.function (.eager .print)) [.str s] []
    let session : Eval Unit := do
      let _ ← attempt (Script.run forcing 0 "print('ab')\nprint('c')\nprint('d')")
      let reply ← attempt ((printing "e").display forcing)
      let _ ← attempt (forcing.force (printing (match reply with | .ok s => s | .error _ => "f")))
      return ()
    IsSession forcing session ∧ ∃ outcome outcome' after after',
      session.Ends (store.withRoom 0 none) outcome after ∧
      session.Ends (store.withRoom 0 (some 4)) outcome' after' ∧
      after.printedBy 0 = "ab\nc\nd\ne\nNone\n".toUTF8 ∧ after'.printedBy 0 = "ab\nc".toUTF8 ∧
      ∃ written, after.printedBy 0 = store.printedBy 0 ++ written ∧
        after'.printedBy 0 = store.printedBy 0 ++ written.extract 0 4 := by
  intro forcing store printing session
  have hsession : IsSession forcing session :=
    .step (.run 0 _) fun _ => .step (.display _) fun _ => .step (.force _) fun _ => .done ()
  have hrun : (session.run.run (store.withRoom 0 none)).map (fun run => run.2.printedBy 0) =
      some "ab\nc\nd\ne\nNone\n".toUTF8 := by
    decide +kernel
  have hrun' : (session.run.run (store.withRoom 0 (some 4))).map (fun run => run.2.printedBy 0) =
      some "ab\nc".toUTF8 := by
    decide +kernel
  obtain ⟨⟨outcome, after⟩, hends, hprinted⟩ := Option.map_eq_some_iff.mp hrun
  obtain ⟨⟨outcome', after'⟩, hends', hprinted'⟩ := Option.map_eq_some_iff.mp hrun'
  exact ⟨hsession, outcome, outcome', after, after', hends, hends', hprinted, hprinted',
    truncated hsession hends hends'⟩

end Deferral
