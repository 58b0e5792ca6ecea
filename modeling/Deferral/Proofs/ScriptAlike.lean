import Deferral.Proofs.ForcingAlike
import Deferral.Proofs.Traversal

/-!
# Scripts side by side

Two runs of one script from stores that answer alike go in lockstep (`Forcing.Lockstep.evaluate`,
`Forcing.Lockstep.runAll`).  What is called at once forces its arguments, so both runs force in one
way, and they bind alike values.
-/

namespace Deferral

open Eval

class Eval.Coupling.Binds (c : Coupling) (p : Pairing) : Prop extends c.Shows p where
  bind : ∀ env name v w, p.environments env → Value.Alike p v w →
    (modify (Store.bind env name v) : Eval PUnit).Lockstep c Eq (modify (Store.bind env name w))

section
variable {c : Coupling} {p : Pairing} {forcing : Forcing} {env : EnvId} {v w : Value}
  (hforcing : forcing.Lockstep c p) (henv : p.environments env)
include hforcing henv

/-! ## 1. Expressions -/

section
variable [c.Shows p]

/-- An eager function runs at once, a lazy one and a deferred target wait. -/
theorem Value.Alike.call_lockstep {args args' : List Value} {kwargs kwargs' : List (String × Value)}
    (h : Value.Alike p v w) (hargs : List.Forall₂ (Value.Alike p) args args')
    (hkwargs : Value.Alike.Keywords p kwargs kwargs') :
    (callValue forcing env v args kwargs).Lockstep c (Value.Alike p)
      (callValue forcing env w args' kwargs') := by
  have hwait := lockstep_call (c := c) henv h hargs hkwargs
  have hmismatch := lockstep_mismatch (c := c) (P := Value.Alike p) .notCallable h
  cases h with
  | function f =>
    cases f with
    | lazy builtin =>
      unfold callValue
      rw [hargs.length_eq]
      exact lockstep_bind ((builtin.validate_alike hkwargs args'.length).lockstep p) fun _ _ _ =>
        lockstep_call henv (.function _) hargs hkwargs
    | eager builtin =>
      unfold callValue
      dsimp only
      split
      · have hforced := lockstep_mapM (forall₂_imp_of_mem hargs fun a _ b hab =>
          hforcing.force a b hab)
        refine lockstep_bind hforced fun args args' hargs => ?_
        exact lockstep_bind (forceKeywords_lockstep hforcing hkwargs) fun _ _ hkwargs =>
          Builtin.run_lockstep hforcing henv hargs hkwargs builtin
      · exact Builtin.run_lockstep hforcing henv hargs hkwargs builtin
  -- A target that is deferred itself may turn out to be a function when the call is forced.
  | symbol | expression | call | sequence => exact hwait
  | _ => exact hmismatch

variable (hsymbols : ∀ name, p.symbols env name)
include hsymbols

theorem Forcing.Lockstep.evaluate (t : Tree) :
    (t.evaluate forcing env).Lockstep c (Value.Alike p) (t.evaluate forcing env) := by
  induction t with
  | int n => exact lockstep_pure (.int n)
  | float x => exact lockstep_pure (.float x)
  | text s => exact lockstep_pure (.str s)
  | name s => exact lockstep_pure (readName_alike henv (hsymbols s))
  | list items ih =>
    rw [Tree.evaluate, Tree.evaluateItems_eq_mapM]
    exact lockstep_bind (lockstep_mapM (List.forall₂_same.mpr ih)) fun _ _ hvalues =>
      lockstep_pure (.list hvalues)
  | map entries ih =>
    have hentry : ∀ entry ∈ entries, (Tree.evaluateEntry forcing env entry).Lockstep c
        (Value.Alike.Pairs p) (Tree.evaluateEntry forcing env entry) := by
      intro entry hentry
      exact lockstep_bind (ih entry hentry).1 fun _ _ hkey =>
        lockstep_bind (ih entry hentry).2 fun _ _ hvalue => lockstep_pure ⟨hkey, hvalue⟩
    rw [Tree.evaluate, Tree.evaluateEntries_eq_mapM]
    exact lockstep_bind (lockstep_mapM (List.forall₂_same.mpr hentry)) fun _ _ hentries =>
      lockstep_pure (Value.Alike.of_entries (Value.Alike.ofList hentries))
  | negate operand ih =>
    exact lockstep_bind ih fun _ _ hvalue =>
      Operator.subtract.combine_lockstep henv (.int 0) hvalue
  | arithmetic operator left right ihleft ihright =>
    exact lockstep_bind ihleft fun _ _ hleft => lockstep_bind ihright fun _ _ hright =>
      operator.combine_lockstep henv hleft hright
  | append head tail ihhead ihtail =>
    exact lockstep_bind ihhead fun _ _ hhead => lockstep_bind ihtail fun _ _ htail =>
      lockstep_sequence henv hhead htail
  | call target args kwargs ihtarget ihargs ihkwargs =>
    have hkeyword : ∀ entry ∈ kwargs, (Tree.evaluateKeyword forcing env entry).Lockstep c
        (fun a b => a.1 = b.1 ∧ Value.Alike p a.2 b.2)
        (Tree.evaluateKeyword forcing env entry) := by
      intro entry hentry
      exact lockstep_bind (ihkwargs entry hentry) fun _ _ hvalue => lockstep_pure ⟨rfl, hvalue⟩
    rw [Tree.evaluate, Tree.evaluateItems_eq_mapM, Tree.evaluateKeywords_eq_mapM]
    refine lockstep_bind ihtarget fun _ _ htarget => ?_
    refine lockstep_bind (lockstep_mapM (List.forall₂_same.mpr ihargs)) fun _ _ hargs => ?_
    exact lockstep_bind (lockstep_mapM (List.forall₂_same.mpr hkeyword)) fun _ _ hkwargs =>
      htarget.call_lockstep hforcing henv hargs hkwargs

end

/-! ## 2. Statements -/

variable [c.Binds p] (hsymbols : ∀ name, p.symbols env name)
include hsymbols

theorem Forcing.Lockstep.execute (statement : Statement) :
    (statement.execute forcing env).Lockstep c (Option.Rel (Value.Alike p))
      (statement.execute forcing env) := by
  unfold Statement.execute
  refine lockstep_bind (hforcing.evaluate henv hsymbols statement.value) fun v w h => ?_
  cases statement.target with
  | none => exact lockstep_pure (.some h)
  | some name =>
    exact lockstep_bind (Coupling.Binds.bind env name v w henv h) fun _ _ _ => lockstep_pure .none

theorem Forcing.Lockstep.runAll (statements : List Statement) (last last' : Option Value) :
    (Script.runAll forcing env last statements).Lockstep c (fun _ _ => True)
      (Script.runAll forcing env last' statements) := by
  induction statements generalizing last last' with
  | nil => exact lockstep_pure trivial
  | cons statement rest ih =>
    exact lockstep_bind (hforcing.execute henv hsymbols statement) fun found found' _ =>
      ih found found'

end

end Deferral
