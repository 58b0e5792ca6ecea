import Deferral.Proofs.Output
import Deferral.Proofs.Together

/-!
# Resolution at different depths

How deep in other deferred values a value is resolved is seen in one way only: resolution may meet
the limit there.  As long as nothing that makes text is called, a failure at the limit is caught
nowhere, so whatever else resolution ends with at some depth, it ends with on every shallower one
(`Value.resolve_upToLimit`).

Resolution is told how much room it has.  It could as well count the levels in the store: it enters
one for each deferred value, and leaves it however the value turns out (`Value.resolveCounting`).
The two agree, and the counter is what it was before (`Value.resolveCounting_mirrors`).
-/

namespace Deferral

open Eval

/-! ## 1. Less room -/

namespace Eval

variable {α : Type} {base : Store} {banned : List Builtin} {force force' : Value → Eval Value}
  {P : α → Prop} {action action' : Eval α}

def Gives (base : Store) (P : α → Prop) (action : Eval α) : Prop :=
  ∀ store outcome after, base.Grows store → action.Ends store outcome after →
    base.Grows after ∧ ∀ a, outcome = .ok a → P a

/-- Two computations do the same, unless the first one fails at the limit. -/
def UpToLimit (base : Store) (action action' : Eval α) : Prop :=
  ∀ store, base.Grows store → action.run.run store = action'.run.run store ∨
    ∃ after, action.Ends store (.error .tooDeep) after

theorem UpToLimit.ends {store after : Store} {outcome : Except Failure α}
    (h : action.UpToLimit base action') (hstore : base.Grows store)
    (hlimit : outcome ≠ .error .tooDeep) (hends : action.Ends store outcome after) :
    action'.Ends store outcome after := by
  rcases h store hstore with heq | ⟨last, hlast⟩
  · exact heq.symm.trans hends
  · exact absurd (hends.unique hlast).1 hlimit

theorem UpToLimit.ends_symm {store after : Store} {outcome : Except Failure α}
    (h : action.UpToLimit base action') (hstore : base.Grows store)
    (hends : action'.Ends store outcome after) :
    action.Ends store outcome after ∨ ∃ last, action.Ends store (.error .tooDeep) last :=
  (h store hstore).imp_left fun heq => heq.trans hends

theorem gives_throw (failure : Failure) : (throw failure : Eval α).Gives base P := by
  intro store outcome after hstore hends
  obtain ⟨rfl, rfl⟩ := ends_throw.mp hends
  exact ⟨hstore, nofun⟩

namespace Together

theorem gives (h : Together base banned force force' P action action')
    (hforce : ∀ v, base.Confines banned ⊤ v → (force v).Gives base (base.Confines banned ⊤)) :
    action.Gives base P := by
  induction h with
  | pure ha =>
    intro store outcome after hstore hends
    obtain ⟨rfl, rfl⟩ := ends_pure.mp hends
    refine ⟨hstore, fun b hb => ?_⟩
    cases hb
    exact ha
  | throw failure => exact gives_throw failure
  | outOfFuel => exact fun _ _ _ _ hends => absurd hends ends_outOfFuel
  | bind _ _ ih ihnext =>
    intro store outcome after hstore hends
    rcases ends_bind.mp hends with ⟨a, between, ha, hnext⟩ | ⟨failure, hfailure, rfl⟩
    · obtain ⟨hbetween, hp⟩ := ih store _ between hstore ha
      exact ihnext a (hp a rfl) between outcome after hbetween hnext
    · exact ⟨(ih store _ after hstore hfailure).1, nofun⟩
  | freshNode =>
    intro store outcome after hstore hends
    have hgrows : store.Grows after := Admits.freshNode _ _ _ hends
    exact ⟨trans_of Store.Grows hstore hgrows, fun _ _ => trivial⟩
  | environment env =>
    intro store outcome after hstore hends
    obtain ⟨rfl, rfl⟩ := ends_environment.mp hends
    refine ⟨hstore, fun environment hok name => ?_⟩
    obtain ⟨hlive, -⟩ := ends_environment_ok.mp (ends_environment.mpr ⟨hok.symm, rfl⟩)
    rw [← hstore.visible?, Store.visible?_of_live? hlive]
  | attempt _ _ ih =>
    intro store outcome after hstore hends
    obtain ⟨result, rfl, hresult⟩ := ends_attempt.mp hends
    obtain ⟨hafter, hp⟩ := ih store result after hstore hresult
    refine ⟨hafter, fun found hfound a ha => hp a ?_⟩
    cases hfound
    exact ha
  | print env text =>
    intro store outcome after hstore hends
    have hgrows : store.Grows after := Admits.print env text _ _ _ hends
    exact ⟨trans_of Store.Grows hstore hgrows, fun _ _ => trivial⟩
  | force hv => exact hforce _ hv

/-- Where nothing catches a failure, one at the limit ends the whole. -/
theorem upToLimit (h : Together base banned force force' P action action')
    (hsilent : ¬ Display.Allowed banned)
    (hgives : ∀ v, base.Confines banned ⊤ v → (force v).Gives base (base.Confines banned ⊤))
    (hforce : ∀ v, base.Confines banned ⊤ v → (force v).UpToLimit base (force' v)) :
    action.UpToLimit base action' := by
  induction h with
  | pure => exact fun _ _ => .inl rfl
  | throw => exact fun _ _ => .inl rfl
  | outOfFuel => exact fun _ _ => .inl rfl
  | @bind _ _ _ _ action _ _ _ hfirst _ ih ihnext =>
    intro store hstore
    rcases ih store hstore with heq | ⟨after, hlimit⟩
    · rw [run_bind, run_bind, ← heq]
      rcases hrun : action.run.run store with _ | ⟨failure | a, between⟩
      · exact .inl rfl
      · exact .inl rfl
      · obtain ⟨hbetween, hp⟩ := hfirst.gives hgives store _ between hstore hrun
        exact (ihnext a (hp a rfl) between hbetween).imp_right fun ⟨after, hlimit⟩ =>
          ⟨after, Ends.bind hrun hlimit⟩
    · exact .inr ⟨after, hlimit.bind_error⟩
  | freshNode => exact fun _ _ => .inl rfl
  | environment => exact fun _ _ => .inl rfl
  | attempt hshows => exact absurd hshows hsilent
  | print _ _ hshows => exact absurd hshows hsilent
  | force hv => exact hforce _ hv

end Together

end Eval

namespace Value

variable {base : Store} {banned : List Builtin} {v : Value}

/-- The steps from a deferred value, and what they lead to, forced in two ways. -/
theorem steps_together (force force' : Value → Eval Value) (hconcat : .concat ∉ banned)
    (patience : Nat) (hv : base.Confines banned ⊤ v) :
    Together base banned force force' (base.Confines banned ⊤)
      (v.unwind ⟨force, patience⟩ depthLimit >>= force)
      (v.unwind ⟨force', patience⟩ depthLimit >>= force') :=
  .bind (unwind_together hconcat depthLimit hv) fun _ hfound => .force hfound

/-- Resolution leads to no function that does not occur already. -/
theorem resolve_gives (hconcat : .concat ∉ banned) (patience room : Nat)
    (hv : base.Confines banned ⊤ v) :
    (v.resolve patience room).Gives base (base.Confines banned ⊤) := by
  induction room generalizing v with
  | zero =>
    exact Together.gives (resolveWith_together _ pure hv) fun _ _ => gives_throw _
  | succ room ih =>
    rw [resolve]
    refine Together.gives (resolveWith_together _ pure hv) fun u hu => ?_
    exact (steps_together _ pure hconcat patience hu).gives fun w hw => ih hw

/-- What resolution ends with at some depth, it ends with wherever there is more room, unless it
fails at the limit. -/
theorem resolve_upToLimit (hconcat : .concat ∉ banned) (hsilent : ¬ Display.Allowed banned)
    (patience : Nat) {room room' : Nat} (hroom : room ≤ room') (hv : base.Confines banned ⊤ v) :
    (v.resolve patience room).UpToLimit base (v.resolve patience room') := by
  induction room generalizing room' v with
  | zero =>
    have hthrow : ∀ action : Eval Value, (throw Failure.tooDeep : Eval Value).UpToLimit base
        action := fun action store _ => .inr ⟨store, ends_throw.mpr ⟨rfl, rfl⟩⟩
    cases room' <;> exact (resolveWith_together _ _ hv).upToLimit hsilent
      (fun _ _ => gives_throw _) fun _ _ => hthrow _
  | succ room ih =>
    obtain ⟨room', rfl⟩ : ∃ n, room' = n + 1 := ⟨room' - 1, by omega⟩
    have hgives : ∀ u, base.Confines banned ⊤ u →
        (u.resolve patience room).Gives base (base.Confines banned ⊤) :=
      fun u hu => resolve_gives hconcat patience room hu
    have hforce : ∀ u, base.Confines banned ⊤ u →
        (u.resolve patience room).UpToLimit base (u.resolve patience room') :=
      fun u hu => ih (by omega) hu
    rw [resolve, resolve]
    refine (resolveWith_together _ _ hv).upToLimit hsilent (fun u hu => ?_) fun u hu => ?_
    · exact (steps_together _ pure hconcat patience hu).gives hgives
    · exact (steps_together _ _ hconcat patience hu).upToLimit hsilent hgives hforce

end Value

/-! ## 2. A counter in the store -/

namespace Store

def withDepth (store : Store) (depth : Nat) : Store := { store with depth := depth }

@[simp] theorem depth_withDepth (store : Store) (depth : Nat) :
    (store.withDepth depth).depth = depth := rfl

@[simp] theorem withDepth_withDepth (store : Store) (old new : Nat) :
    (store.withDepth old).withDepth new = store.withDepth new := rfl

@[simp] theorem live?_withDepth (store : Store) (depth : Nat) (env : EnvId) :
    (store.withDepth depth).live? env = store.live? env := rfl

end Store

namespace Eval

/-- Runs a computation one level deeper, if there is one, and leaves the level however it ends. -/
def guarded {α : Type} (action : Eval α) : Eval α := do
  let depth := (← get).depth
  if depthLimit ≤ depth then throw .tooDeep
  modify (Store.withDepth · (depth + 1))
  let result ← attempt action
  modify fun store => store.withDepth (store.depth - 1)
  ofExcept result

end Eval

def Value.resolveCounting (patience : Nat) : (fuel : Nat) → Value → Eval Value
  | 0, _ => Eval.outOfFuel
  | fuel + 1, v => v.resolveWith fun deferred => Eval.guarded do
    let found ← deferred.unwind ⟨resolveCounting patience fuel, patience⟩ depthLimit
    resolveCounting patience fuel found

variable {base : Store} {banned : List Builtin}

namespace Eval

variable {α : Type} {P : α → Prop} {action action' : Eval α} {depth : Nat}

/-- Where the counter says `depth`, the second computation does what the first one does without
it, and leaves the counter as it was. -/
def Mirrors (base : Store) (depth : Nat) (action action' : Eval α) : Prop :=
  ∀ store, base.Grows store → action'.run.run (store.withDepth depth) =
    (action.run.run store).map fun result => (result.1, result.2.withDepth depth)

namespace Mirrors

theorem bind {β : Type} {next next' : α → Eval β} (h : action.Mirrors base depth action')
    (hgives : action.Gives base P) (hnext : ∀ a, P a → (next a).Mirrors base depth (next' a)) :
    (action >>= next).Mirrors base depth (action' >>= next') := by
  intro store hstore
  rw [run_bind, run_bind, h store hstore]
  rcases hrun : action.run.run store with _ | ⟨failure | a, between⟩
  · rfl
  · rfl
  · obtain ⟨hbetween, hp⟩ := hgives store _ _ hstore hrun
    exact hnext a (hp a rfl) between hbetween

theorem attempt (h : action.Mirrors base depth action') :
    (attempt action).Mirrors base depth (attempt action') := by
  intro store hstore
  rw [run_attempt, run_attempt, h store hstore]
  cases action.run.run store <;> rfl

theorem environment (env : EnvId) :
    (environment env).Mirrors base depth (environment env) := by
  intro store _
  have hrun : ∀ store : Store, (Eval.environment env).run.run store =
      some ((store.live? env).elim (.error .detached) .ok, store) :=
    fun store => ends_environment.mpr ⟨rfl, rfl⟩
  rw [hrun, hrun, Store.live?_withDepth]
  rfl

theorem print (env : EnvId) (text : String) :
    (print env text).Mirrors base depth (print env text) := by
  intro store _
  cases hlive : store.live? env with
  | none =>
    have hlive' : (store.withDepth depth).live? env = none := hlive
    rw [(print_ends_detached hlive).mpr ⟨rfl, rfl⟩, (print_ends_detached hlive').mpr ⟨rfl, rfl⟩]
    rfl
  | some environment =>
    have hlive' : (store.withDepth depth).live? env = some environment := hlive
    rw [(print_ends hlive).mpr ⟨rfl, rfl⟩, (print_ends hlive').mpr ⟨rfl, rfl⟩]
    rfl

/-- A level that there is: the inner computation sees a counter that is one higher. -/
theorem guarded (hdepth : depth < depthLimit) (h : action.Mirrors base (depth + 1) action') :
    action.Mirrors base depth (guarded action') := by
  intro store hstore
  have hguarded : (Eval.guarded action').run.run (store.withDepth depth) =
      (action'.run.run (store.withDepth (depth + 1))).map fun result =>
        (result.1, result.2.withDepth (result.2.depth - 1)) := by
    have hget : (get : Eval Store).run.run (store.withDepth depth) =
        some (.ok (store.withDepth depth), store.withDepth depth) := rfl
    have henter : (modify (Store.withDepth · (depth + 1)) : Eval PUnit).run.run
        (store.withDepth depth) = some (.ok ⟨⟩, store.withDepth (depth + 1)) :=
      ends_modify.mpr ⟨rfl, rfl⟩
    rw [Eval.guarded, run_bind, hget]
    simp only [Option.bind_some, Store.depth_withDepth, not_le.mpr hdepth, if_false]
    rw [run_bind, henter, Option.bind_some]
    dsimp only
    rw [run_bind, run_attempt]
    rcases action'.run.run (store.withDepth (depth + 1)) with _ | ⟨result, last⟩
    · rfl
    · cases result <;> rfl
  rw [hguarded, h store hstore]
  cases action.run.run store <;> simp

/-- At the limit there is no further level. -/
theorem guarded_limit :
    (throw .tooDeep : Eval α).Mirrors base depthLimit (Eval.guarded action') := by
  intro store _
  have hget : (get : Eval Store).Ends (store.withDepth depthLimit)
      (.ok (store.withDepth depthLimit)) (store.withDepth depthLimit) := rfl
  refine hget.bind ?_
  simp [Store.depth_withDepth]

end Mirrors

/-- What is put together alike from two ways of forcing, of which the second mirrors the first. -/
theorem Together.mirrors {force force' : Value → Eval Value}
    (h : Together base banned force force' P action action')
    (hgives : ∀ v, base.Confines banned ⊤ v → (force v).Gives base (base.Confines banned ⊤))
    (hforce : ∀ v, base.Confines banned ⊤ v → (force v).Mirrors base depth (force' v)) :
    action.Mirrors base depth action' := by
  induction h with
  | pure => exact fun _ _ => rfl
  | throw => exact fun _ _ => rfl
  | outOfFuel => exact fun _ _ => rfl
  | bind hfirst _ ih ihnext => exact ih.bind (hfirst.gives hgives) ihnext
  | freshNode => exact fun _ _ => rfl
  | environment env => exact .environment env
  | attempt _ _ ih => exact ih.attempt
  | print env text => exact .print env text
  | force hv => exact hforce _ hv

end Eval

namespace Value

variable {v : Value}

/-- Resolution with a counter does what resolution does that is told how much room it has. -/
theorem resolveCounting_mirrors (hconcat : .concat ∉ banned) (patience : Nat) {fuel depth : Nat}
    (hdepth : depth ≤ depthLimit) (hfuel : depthLimit < fuel + depth)
    (hv : base.Confines banned ⊤ v) :
    (v.resolve patience (depthLimit - depth)).Mirrors base depth
      (v.resolveCounting patience fuel) := by
  induction fuel generalizing depth v with
  | zero => omega
  | succ fuel ih =>
    rw [resolveCounting]
    rcases hdepth.lt_or_eq with hlt | rfl
    · obtain ⟨room, hroom⟩ : ∃ room, depthLimit - depth = room + 1 :=
        ⟨depthLimit - depth - 1, by omega⟩
      have hinner : depthLimit - (depth + 1) = room := by omega
      have hforce : ∀ u, base.Confines banned ⊤ u →
          (u.resolve patience room).Mirrors base (depth + 1) (u.resolveCounting patience fuel) :=
        fun u hu => hinner ▸ ih hlt (by omega) hu
      have hgives : ∀ u, base.Confines banned ⊤ u →
          (u.resolve patience room).Gives base (base.Confines banned ⊤) :=
        fun u hu => resolve_gives hconcat patience room hu
      rw [hroom, resolve]
      refine (resolveWith_together _ _ hv).mirrors (fun u hu => ?_) fun u hu => ?_
      · exact (steps_together _ pure hconcat patience hu).gives hgives
      · exact ((steps_together _ _ hconcat patience hu).mirrors hgives hforce).guarded hlt
    · rw [Nat.sub_self, resolve]
      exact (resolveWith_together _ _ hv).mirrors (fun _ _ => gives_throw _) fun _ _ =>
        .guarded_limit

/-- The counter is after resolution what it was before, whatever resolution ends with. -/
theorem resolveCounting_ends_iff (patience : Nat) {fuel depth : Nat} (hdepth : depth ≤ depthLimit)
    (hfuel : depthLimit < fuel + depth) {store last : Store} {outcome : Except Failure Value} :
    (v.resolveCounting patience fuel).Ends (store.withDepth depth) outcome last ↔
      ∃ after, last = after.withDepth depth ∧
        (v.resolve patience (depthLimit - depth)).Ends store outcome after := by
  have hconfines : store.Confines [] ⊤ v := Store.Avoids.confines fun _ _ => List.not_mem_nil
  have hrun := resolveCounting_mirrors List.not_mem_nil patience hdepth hfuel hconfines store
    (refl_of Store.Grows store)
  unfold Ends
  rw [hrun, Option.map_eq_some_iff]
  constructor
  · rintro ⟨⟨result, after⟩, hends, heq⟩
    cases heq
    exact ⟨after, rfl, hends⟩
  · rintro ⟨after, rfl, hends⟩
    exact ⟨(outcome, after), hends, rfl⟩

/-! ## 3. The theorem -/

/-- What a value resolves to does not depend on how deep it is resolved, apart from a failure at the
limit, if nothing is called that makes text.  And a counter of the levels says after a resolution
what it said before, even if that failed, so that it gives the next one the same room. -/
theorem resolve_any_depth {store : Store} {v : Value} (h : store.Avoids [.str, .repr, .print] v)
    {deep shallow : Nat} (hshallow : shallow ≤ deep) (patience : Nat) :
    (∀ outcome after, outcome ≠ .error .tooDeep →
      (v.resolve patience (depthLimit - deep)).Ends store outcome after →
      (v.resolve patience (depthLimit - shallow)).Ends store outcome after) ∧
    ∀ (u : Value) (before : Store) (depth fuel : Nat), depth ≤ depthLimit →
      depthLimit < fuel + depth → ∀ outcome last,
        (u.resolveCounting patience fuel).Ends (before.withDepth depth) outcome last ↔
          ∃ after, last = after.withDepth depth ∧
            (u.resolve patience (depthLimit - depth)).Ends before outcome after := by
  constructor
  · intro outcome after hlimit hends
    have hsilent : ¬ Display.Allowed [.str, .repr, .print] :=
      fun ⟨builtin, hshows, hallowed⟩ => hallowed hshows
    have hroom : depthLimit - deep ≤ depthLimit - shallow := Nat.sub_le_sub_left hshallow _
    exact (resolve_upToLimit (by simp) hsilent patience hroom h.confines).ends
      (refl_of Store.Grows store) hlimit hends
  · intro u before depth fuel hdepth hfuel outcome last
    exact resolveCounting_ends_iff patience hdepth hfuel

/-- A sum whose operand is a name takes two levels.  At the last level but one it fails at the
limit, and further out it does not. -/
theorem resolve_any_depth_sum :
    let store := Store.single [("x", .int 1)]
    let v := Value.expression 0 0 .add (.symbol 0 "x") (.int 2)
    (v.resolve 1 (depthLimit - 255)).Ends store (.error .tooDeep) store ∧
      (v.resolve 1 (depthLimit - 254)).Ends store (.ok (.int 3)) store ∧
      (v.resolve 1 (depthLimit - 100)).Ends store (.ok (.int 3)) store ∧
      (v.resolveCounting 1 300).Ends (store.withDepth 255) (.error .tooDeep)
        (store.withDepth 255) := by
  intro store v
  have havoids : store.Avoids [.str, .repr, .print] v := by
    have hvisible : store.visible? 0 "x" = some (.int 1) := rfl
    let values : List Value := [v, .symbol 0 "x", .int 2, .int 1]
    have hclosed : ∀ u ∈ values, ∀ w ∈ store.parts u, w ∈ values := by
      simp [values, v, Store.parts, hvisible]
    exact .of_closed hclosed (by simp [values, v]) List.mem_cons_self
  have hdeep : (v.resolve 1 (depthLimit - 255)).Ends store (.error .tooDeep) store := rfl
  have hless : (v.resolve 1 (depthLimit - 254)).Ends store (.ok (.int 3)) store := rfl
  obtain ⟨hshallow, hcounter⟩ :=
    resolve_any_depth havoids (show 100 ≤ 254 by decide) 1
  exact ⟨hdeep, hless, hshallow _ _ (by simp) hless,
    (hcounter v store 255 300 (by decide) (by decide) _ _).mpr ⟨store, rfl, hdeep⟩⟩

end Value

end Deferral
