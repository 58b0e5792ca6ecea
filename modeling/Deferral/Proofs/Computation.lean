import Deferral.Store
import Mathlib.Order.Defs.Unbundled
import Mathlib.Tactic.Common

/-!
# How computations end

`action.Ends store outcome after` says that a computation, started in a store, comes to an end with
an outcome and leaves another store.  The lemmas of the first part read a run of a composed
computation back into the runs of its parts.

The second part is about what all runs of a computation have in common: `action.Keeps R` says that
every run leads from a store to one that stands in the relation `R` to it.
-/

namespace Deferral

def Store.single (bindings : Bindings) : Store where
  environments := [{ bindings := bindings, reversePrint := false, live := true, room := none }]
  nextNode := 0
  transcript := []

namespace Eval

variable {α β : Type} {store after : Store}

/-! ## 1. Single runs -/

theorem run_bind (action : Eval α) (next : α → Eval β) (store : Store) :
    (action >>= next).run.run store = (action.run.run store).bind fun result =>
      match result with
      | (.ok a, between) => (next a).run.run between
      | (.error failure, between) => some (.error failure, between) := by
  change Option.bind _ _ = Option.bind _ _
  congr 1
  funext result
  rcases result with ⟨_ | _, _⟩ <;> rfl

theorem run_attempt (action : Eval α) (store : Store) :
    (attempt action).run.run store =
      (action.run.run store).map fun result => (.ok result.1, result.2) := by
  change Option.bind _ _ = _
  rw [Option.map_eq_bind]
  rfl

def Ends (action : Eval α) (store : Store) (outcome : Except Failure α) (after : Store) : Prop :=
  action.run.run store = some (outcome, after)

theorem Ends.unique {action : Eval α} {first second : Except Failure α} {after after' : Store}
    (h : action.Ends store first after) (h' : action.Ends store second after') :
    first = second ∧ after = after' := by
  have he : some (first, after) = some (second, after') := h.symm.trans h'
  simpa using he

theorem ends_iff_of_run {action : Eval α} {outcome result : Except Failure α} {new : Store}
    (hrun : action.run.run store = some (result, new)) :
    action.Ends store outcome after ↔ outcome = result ∧ after = new := by
  unfold Ends
  rw [hrun, Option.some.injEq, Prod.mk.injEq, eq_comm, eq_comm (a := new)]

@[simp] theorem ends_pure {a : α} {outcome : Except Failure α} :
    (pure a : Eval α).Ends store outcome after ↔ outcome = .ok a ∧ after = store :=
  ends_iff_of_run rfl

theorem ends_pure_ok {a b : α} :
    (pure a : Eval α).Ends store (.ok b) after ↔ b = a ∧ after = store := by
  rw [ends_pure, Except.ok.injEq]

theorem ends_pure_self (a : α) (store : Store) : (pure a : Eval α).Ends store (.ok a) store :=
  ends_pure.mpr ⟨rfl, rfl⟩

@[simp] theorem ends_throw {failure : Failure} {outcome : Except Failure α} :
    (throw failure : Eval α).Ends store outcome after ↔
      outcome = .error failure ∧ after = store :=
  ends_iff_of_run rfl

@[simp] theorem ends_outOfFuel {outcome : Except Failure α} :
    ¬ (outOfFuel : Eval α).Ends store outcome after := by
  intro h
  change none = some (outcome, after) at h
  cases h

@[simp] theorem ends_get {outcome : Except Failure Store} :
    (get : Eval Store).Ends store outcome after ↔ outcome = .ok store ∧ after = store :=
  ends_iff_of_run rfl

@[simp] theorem ends_modify {change : Store → Store} {outcome : Except Failure PUnit} :
    (modify change : Eval PUnit).Ends store outcome after ↔
      outcome = .ok ⟨⟩ ∧ after = change store :=
  ends_iff_of_run rfl

/-- A run of two computations in a row: the second one runs unless the first one fails. -/
theorem ends_bind {action : Eval α} {next : α → Eval β} {outcome : Except Failure β} :
    (action >>= next).Ends store outcome after ↔
      (∃ a between, action.Ends store (.ok a) between ∧ (next a).Ends between outcome after) ∨
      ∃ failure, action.Ends store (.error failure) after ∧ outcome = .error failure := by
  unfold Ends
  rw [run_bind]
  rcases action.run.run store with _ | ⟨failure | a, between⟩
  · simp
  · simp only [Option.bind_some, Option.some.injEq, Prod.mk.injEq, Except.error.injEq,
      reduceCtorEq, false_and, exists_false, false_or]
    constructor
    · rintro ⟨rfl, rfl⟩
      exact ⟨failure, ⟨rfl, rfl⟩, rfl⟩
    · rintro ⟨failure, ⟨rfl, rfl⟩, rfl⟩
      exact ⟨rfl, rfl⟩
  · simp

theorem not_ends_bind {action : Eval α} {next : α → Eval β}
    (h : ∀ outcome after, ¬ action.Ends store outcome after) (outcome : Except Failure β)
    (after : Store) : ¬ (action >>= next).Ends store outcome after := by
  intro hends
  rcases ends_bind.mp hends with ⟨a, between, ha, -⟩ | ⟨failure, hfailure, -⟩
  · exact h _ _ ha
  · exact h _ _ hfailure

theorem ends_bind_ok {action : Eval α} {next : α → Eval β} {b : β} :
    (action >>= next).Ends store (.ok b) after ↔
      ∃ a between, action.Ends store (.ok a) between ∧ (next a).Ends between (.ok b) after := by
  simp [ends_bind]

theorem Ends.bind {action : Eval α} {next : α → Eval β} {a : α} {between : Store}
    {outcome : Except Failure β} (h : action.Ends store (.ok a) between)
    (hnext : (next a).Ends between outcome after) :
    (action >>= next).Ends store outcome after :=
  ends_bind.mpr (.inl ⟨a, between, h, hnext⟩)

theorem Ends.bind_error {action : Eval α} {next : α → Eval β} {failure : Failure}
    (h : action.Ends store (.error failure) after) :
    (action >>= next).Ends store (.error failure) after :=
  ends_bind.mpr (.inr ⟨failure, h, rfl⟩)

theorem Ends.bind_iff {action : Eval α} {next : α → Eval β} {a : α} {between : Store}
    {outcome : Except Failure β} (h : action.Ends store (.ok a) between) :
    (action >>= next).Ends store outcome after ↔ (next a).Ends between outcome after := by
  constructor
  · intro hends
    rcases ends_bind.mp hends with ⟨b, store', hb, hnext⟩ | ⟨failure, hf, -⟩
    · obtain ⟨heq, rfl⟩ := h.unique hb
      cases heq
      exact hnext
    · cases (h.unique hf).1
  · exact h.bind

@[simp] theorem ends_attempt {action : Eval α} {outcome : Except Failure (Except Failure α)} :
    (attempt action).Ends store outcome after ↔
      ∃ result, outcome = .ok result ∧ action.Ends store result after := by
  unfold Ends
  rw [run_attempt, Option.map_eq_some_iff]
  constructor
  · rintro ⟨⟨result, between⟩, hr, he⟩
    cases he
    exact ⟨result, rfl, hr⟩
  · rintro ⟨result, rfl, hr⟩
    exact ⟨(result, after), hr, rfl⟩

@[simp] theorem ends_ofExcept {result outcome : Except Failure α} :
    (ofExcept result).Ends store outcome after ↔ outcome = result ∧ after = store := by
  cases result with
  | ok a => exact ends_pure
  | error failure => exact ends_throw

theorem ends_call_bind {env : EnvId} {target : Value} {args : List Value}
    {kwargs : List (String × Value)} {next : Value → Eval β} {outcome : Except Failure β} :
    (call env target args kwargs >>= next).Ends store outcome after ↔
      (next (.call store.nextNode env target args kwargs)).Ends
        { store with nextNode := store.nextNode + 1 } outcome after := by
  have hcall : (call env target args kwargs).Ends store
      (.ok (.call store.nextNode env target args kwargs))
      { store with nextNode := store.nextNode + 1 } := rfl
  exact hcall.bind_iff

@[simp] theorem ends_freshNode {outcome : Except Failure NodeId} :
    freshNode.Ends store outcome after ↔
      outcome = .ok store.nextNode ∧ after = { store with nextNode := store.nextNode + 1 } :=
  ends_iff_of_run rfl

@[simp] theorem ends_environment {env : EnvId} {outcome : Except Failure Environment} :
    (environment env).Ends store outcome after ↔
      outcome = ((store.live? env).elim (.error .detached) .ok) ∧ after = store := by
  unfold environment
  cases h : store.live? env <;> simp [ends_bind, h]

theorem ends_environment_ok {env : EnvId} {found : Environment} :
    (environment env).Ends store (.ok found) after ↔
      store.live? env = some found ∧ after = store := by
  rw [ends_environment]
  cases store.live? env <;> simp [eq_comm]

@[simp] theorem ends_record {chunk : Chunk} {outcome : Except Failure Unit} :
    (record chunk).Ends store outcome after ↔
      outcome = .ok () ∧ after = { store with transcript := store.transcript ++ [chunk] } :=
  ends_modify

theorem Ends.mapM_result {f : α → Eval β} {items : List α} {bs : List β} {b : β}
    (h : (items.mapM f).Ends store (.ok bs) after) (hb : b ∈ bs) :
    ∃ item ∈ items, ∃ before between, (f item).Ends before (.ok b) between := by
  induction items generalizing store after bs with
  | nil =>
    rw [List.mapM_nil, ends_pure_ok] at h
    rw [h.1] at hb
    cases hb
  | cons item rest ih =>
    rw [List.mapM_cons] at h
    obtain ⟨c, between, hc, h⟩ := ends_bind_ok.mp h
    obtain ⟨others, _, hothers, h⟩ := ends_bind_ok.mp h
    rw [ends_pure_ok] at h
    rw [h.1] at hb
    rcases List.mem_cons.mp hb with rfl | hrest
    · exact ⟨item, List.mem_cons_self, store, between, hc⟩
    · obtain ⟨other, hmem, hrun⟩ := ih hothers hrest
      exact ⟨other, List.mem_cons_of_mem item hmem, hrun⟩

theorem Ends.mapM_map {γ : Type} {f : α → Eval β} {g : α → γ} {g' : β → γ} {items : List α}
    {bs : List β}
    (hf : ∀ item store b after, (f item).Ends store (.ok b) after → g' b = g item)
    (h : (items.mapM f).Ends store (.ok bs) after) : bs.map g' = items.map g := by
  induction items generalizing store after bs with
  | nil =>
    rw [List.mapM_nil, ends_pure_ok] at h
    rw [h.1]
    rfl
  | cons item rest ih =>
    rw [List.mapM_cons] at h
    obtain ⟨b, between, hb, h⟩ := ends_bind_ok.mp h
    obtain ⟨others, _, hothers, h⟩ := ends_bind_ok.mp h
    rw [ends_pure_ok] at h
    rw [h.1, List.map_cons, List.map_cons, hf _ _ _ _ hb, ih hothers]

theorem Ends.mapM_length {f : α → Eval β} {items : List α} {bs : List β}
    (h : (items.mapM f).Ends store (.ok bs) after) : bs.length = items.length := by
  have hunits : bs.map (fun _ => ()) = items.map (fun _ => ()) := h.mapM_map fun _ _ _ _ _ => rfl
  simpa using congrArg List.length hunits

/-! ## 2. What all runs have in common -/

def Keeps (R : Store → Store → Prop) (action : Eval α) : Prop :=
  ∀ store outcome after, action.Ends store outcome after → R store after

/-- A preorder that contains everything that forcing can do to a store: take the number of a new
node, and print. -/
class Admits (R : Store → Store → Prop) : Prop extends IsPreorder Store R where
  freshNode : freshNode.Keeps R
  print : ∀ env text, (print env text).Keeps R

variable {R : Store → Store → Prop}

theorem keeps_outOfFuel : (outOfFuel : Eval α).Keeps R :=
  fun _ _ _ h => absurd h ends_outOfFuel

theorem keeps_attempt {action : Eval α} (h : action.Keeps R) : (attempt action).Keeps R := by
  intro store outcome after hends
  obtain ⟨result, -, hr⟩ := ends_attempt.mp hends
  exact h _ _ _ hr

theorem keeps_modify {change : Store → Store} (h : ∀ store, R store (change store)) :
    (modify change : Eval PUnit).Keeps R := by
  intro store outcome after hends
  rw [(ends_modify.mp hends).2]
  exact h store

section
variable [IsPreorder Store R]

theorem keeps_pure (a : α) : (pure a : Eval α).Keeps R := by
  intro store outcome after h
  rw [(ends_pure.mp h).2]
  exact refl_of R store

theorem keeps_throw (failure : Failure) : (throw failure : Eval α).Keeps R := by
  intro store outcome after h
  rw [(ends_throw.mp h).2]
  exact refl_of R store

theorem keeps_bind {action : Eval α} {next : α → Eval β} (h : action.Keeps R)
    (hnext : ∀ a, (next a).Keeps R) : (action >>= next).Keeps R := by
  intro store outcome after hends
  rcases ends_bind.mp hends with ⟨a, between, ha, hb⟩ | ⟨failure, hf, -⟩
  · exact trans_of R (h _ _ _ ha) (hnext a _ _ _ hb)
  · exact h _ _ _ hf

theorem keeps_ofExcept (result : Except Failure α) : (ofExcept result).Keeps R := by
  intro store outcome after h
  rw [(ends_ofExcept.mp h).2]
  exact refl_of R store

theorem keeps_environment (env : EnvId) : (environment env).Keeps R := by
  intro store outcome after h
  rw [(ends_environment.mp h).2]
  exact refl_of R store

theorem keeps_mapM {f : α → Eval β} {items : List α} (h : ∀ item ∈ items, (f item).Keeps R) :
    (items.mapM f).Keeps R := by
  induction items with
  | nil => exact keeps_pure []
  | cons item rest ih =>
    rw [List.mapM_cons]
    have hrest := ih fun other hother => h other (List.mem_cons_of_mem item hother)
    exact keeps_bind (h item List.mem_cons_self) fun b =>
      keeps_bind hrest fun bs => keeps_pure (b :: bs)

/-- A loop that succeeds has a run for each item, from a store that the items before it lead to. -/
theorem Ends.mapM_item {f : α → Eval β} {items : List α} {bs : List β} {item : α}
    (hkeeps : ∀ other, (f other).Keeps R) (h : (items.mapM f).Ends store (.ok bs) after)
    (hitem : item ∈ items) :
    ∃ before b between, R store before ∧ (f item).Ends before (.ok b) between := by
  induction items generalizing store after bs with
  | nil => cases hitem
  | cons first rest ih =>
    rw [List.mapM_cons] at h
    obtain ⟨b, between, hb, h⟩ := ends_bind_ok.mp h
    obtain ⟨others, _, hothers, -⟩ := ends_bind_ok.mp h
    -- The items in front of this one may have changed the store, but only within the relation.
    rcases List.mem_cons.mp hitem with rfl | hrest
    · exact ⟨store, b, between, refl_of R store, hb⟩
    · obtain ⟨before, c, last, hbefore, hc⟩ := ih hothers hrest
      exact ⟨before, c, last, trans_of R (hkeeps first _ _ _ hb) hbefore, hc⟩

end

end Eval

end Deferral
