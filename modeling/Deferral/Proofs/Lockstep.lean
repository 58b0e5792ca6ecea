import Deferral.Proofs.Traversal

/-!
# Two runs side by side

Two computations run in lockstep if, from any two stores that are coupled, they fail in the same way
or succeed with related results, and leave coupled stores again; neither ends if the other does not
(`Eval.Lockstep`).  There is one rule for each way to build a computation.
-/

namespace Deferral

namespace Eval

structure Coupling where
  /-- The stores before and after each step. -/
  stores : Store → Store → Prop
  /-- The failures that may happen, in both runs at once. -/
  failures : Failure → Prop
  /-- Whether both runs may have no end. -/
  endless : Prop

inductive Coupling.Meets {α β : Type} (c : Coupling) (P : α → β → Prop) :
    Option (Except Failure α × Store) → Option (Except Failure β × Store) → Prop
  | ok {a b after after'} : P a b → c.stores after after' →
      Meets c P (some (.ok a, after)) (some (.ok b, after'))
  | error {failure after after'} : c.failures failure → c.stores after after' →
      Meets c P (some (.error failure, after)) (some (.error failure, after'))
  | endless : c.endless → Meets c P none none

/-- Two computations whose runs from coupled stores go side by side. -/
def Lockstep {α β : Type} (c : Coupling) (P : α → β → Prop) (action : Eval α) (action' : Eval β) :
    Prop :=
  ∀ store store', c.stores store store' →
    c.Meets P (action.run.run store) (action'.run.run store')

inductive Alike {α β : Type} (F : Failure → Prop) (P : α → β → Prop) :
    Except Failure α → Except Failure β → Prop
  | ok {a b} : P a b → Alike F P (.ok a) (.ok b)
  | error {failure} : F failure → Alike F P (.error failure) (.error failure)

variable {α β γ δ : Type} {c : Coupling} {P : α → β → Prop} {Q : γ → δ → Prop}

/-- If one of the runs ends, then the other one ends in the same way. -/
theorem Lockstep.ends {action : Eval α} {action' : Eval β} (h : action.Lockstep c P action')
    {store store' after : Store} (hstores : c.stores store store') {outcome : Except Failure α}
    (hends : action.Ends store outcome after) : ∃ outcome' after',
      action'.Ends store' outcome' after' ∧ Alike c.failures P outcome outcome' ∧
        c.stores after after' := by
  have hmeets := h store store' hstores
  unfold Ends at hends ⊢
  rw [hends] at hmeets
  generalize action'.run.run store' = result at hmeets ⊢
  cases hmeets with
  | ok hab hafter => exact ⟨_, _, rfl, .ok hab, hafter⟩
  | error hf hafter => exact ⟨_, _, rfl, .error hf, hafter⟩

theorem Lockstep.ends_symm {action : Eval α} {action' : Eval β} (h : action.Lockstep c P action')
    {store store' after' : Store} (hstores : c.stores store store') {outcome' : Except Failure β}
    (hends : action'.Ends store' outcome' after') : ∃ outcome after,
      action.Ends store outcome after := by
  have hmeets := h store store' hstores
  unfold Ends at hends ⊢
  rw [hends] at hmeets
  generalize action.run.run store = result at hmeets ⊢
  cases hmeets <;> exact ⟨_, _, rfl⟩

theorem lockstep_of_ends {action : Eval α} {action' : Eval β}
    (h : ∀ store store', c.stores store store' → ∃ outcome outcome' after after',
      action.Ends store outcome after ∧ action'.Ends store' outcome' after' ∧
        Alike c.failures P outcome outcome' ∧ c.stores after after') :
    action.Lockstep c P action' := by
  intro store store' hstores
  obtain ⟨outcome, outcome', after, after', hends, hends', hsame, hafter⟩ := h store store' hstores
  rw [show action.run.run store = some (outcome, after) from hends,
    show action'.run.run store' = some (outcome', after') from hends']
  cases hsame with
  | ok hab => exact .ok hab hafter
  | error hf => exact .error hf hafter

theorem Lockstep.imp {P' : α → β → Prop} {action : Eval α} {action' : Eval β}
    (h : action.Lockstep c P action') (himp : ∀ a b, P a b → P' a b) :
    action.Lockstep c P' action' := by
  intro store store' hstores
  have hmeets := h store store' hstores
  generalize action.run.run store = x, action'.run.run store' = y at hmeets ⊢
  cases hmeets with
  | ok hab hafter => exact .ok (himp _ _ hab) hafter
  | error hf hafter => exact .error hf hafter
  | endless h => exact .endless h

theorem Lockstep.and {Q : α → Prop} {action : Eval α} {action' : Eval β}
    (h : action.Lockstep c P action')
    (hresult : ∀ store a after, action.Ends store (.ok a) after → Q a) :
    action.Lockstep c (fun a b => P a b ∧ Q a) action' := by
  intro store store' hstores
  have hmeets := h store store' hstores
  have hq := hresult store
  unfold Ends at hq
  generalize action.run.run store = x, action'.run.run store' = y at hmeets hq ⊢
  cases hmeets with
  | ok hab hafter => exact .ok ⟨hab, hq _ _ rfl⟩ hafter
  | error hf hafter => exact .error hf hafter
  | endless h => exact .endless h

theorem lockstep_outOfFuel (h : c.endless) :
    (outOfFuel : Eval α).Lockstep c P (outOfFuel : Eval β) :=
  fun _ _ _ => .endless h

theorem lockstep_pure {a : α} {b : β} (h : P a b) :
    (pure a : Eval α).Lockstep c P (pure b) :=
  fun _ _ hstores => .ok h hstores

theorem lockstep_throw {failure : Failure} (h : c.failures failure) :
    (throw failure : Eval α).Lockstep c P (throw failure : Eval β) :=
  fun _ _ hstores => .error h hstores

theorem lockstep_bind {action : Eval α} {action' : Eval β} {next : α → Eval γ} {next' : β → Eval δ}
    (h : action.Lockstep c P action')
    (hnext : ∀ a b, P a b → (next a).Lockstep c Q (next' b)) :
    (action >>= next).Lockstep c Q (action' >>= next') := by
  intro store store' hstores
  rw [run_bind, run_bind]
  have hmeets := h store store' hstores
  generalize action.run.run store = x, action'.run.run store' = y at hmeets ⊢
  cases hmeets with
  | ok hab hafter => exact hnext _ _ hab _ _ hafter
  | error hf hafter => exact .error hf hafter
  | endless h => exact .endless h

theorem lockstep_map {action : Eval α} {action' : Eval β} {f : α → γ} {g : β → δ}
    (h : action.Lockstep c P action') (hfg : ∀ a b, P a b → Q (f a) (g b)) :
    (f <$> action).Lockstep c Q (g <$> action') := by
  rw [map_eq_pure_bind, map_eq_pure_bind]
  exact lockstep_bind h fun a b hab => lockstep_pure (hfg a b hab)

/-- A failure that is a result is the same one in both runs. -/
theorem lockstep_attempt {action : Eval α} {action' : Eval β} (h : action.Lockstep c P action') :
    (attempt action).Lockstep c (Alike c.failures P) (attempt action') := by
  intro store store' hstores
  rw [run_attempt, run_attempt]
  have hmeets := h store store' hstores
  generalize action.run.run store = x, action'.run.run store' = y at hmeets ⊢
  cases hmeets with
  | ok hab hafter => exact .ok (.ok hab) hafter
  | error hf hafter => exact .ok (.error hf) hafter
  | endless h => exact .endless h

theorem lockstep_mapM {f : α → Eval γ} {g : β → Eval δ} {items : List α} {items' : List β}
    (h : List.Forall₂ (fun a b => (f a).Lockstep c Q (g b)) items items') :
    (items.mapM f).Lockstep c (List.Forall₂ Q) (items'.mapM g) := by
  induction h with
  | nil => exact lockstep_pure .nil
  | cons hitem _ ih =>
    rw [List.mapM_cons, List.mapM_cons]
    exact lockstep_bind hitem fun b b' hb =>
      lockstep_bind ih fun bs bs' hbs => lockstep_pure (.cons hb hbs)

end Eval

end Deferral
