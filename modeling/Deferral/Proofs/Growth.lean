import Deferral.Proofs.Effects

/-!
# What forcing leaves alone

Forcing binds nothing and ends no environment: apart from the room that is left in a sink, the
environments stay as they are, and the transcript only becomes longer.
-/

namespace Deferral

open Eval

def Environment.withoutRoom (environment : Environment) : Environment :=
  { environment with room := none }

def Store.visible? (store : Store) (env : EnvId) (name : String) : Option Value :=
  (store.live? env).bind (·.bindings.get? name)

/-- What is visible in an environment that exists is what it binds. -/
theorem Store.visible?_of_live? {store : Store} {env : EnvId} {environment : Environment}
    (h : store.live? env = some environment) (name : String) :
    store.visible? env name = environment.bindings.get? name := by
  rw [visible?, h, Option.bind_some]

theorem Store.live?_of_visible? {store : Store} {env : EnvId} {name : String} {v : Value}
    (h : store.visible? env name = some v) : (store.live? env).isSome := by
  obtain ⟨environment, hlive, -⟩ := Option.bind_eq_some_iff.mp h
  rw [hlive, Option.isSome_some]

theorem Bindings.mem_of_get? {bindings : Bindings} {name : String} {v : Value}
    (h : bindings.get? name = some v) : (name, v) ∈ bindings := by
  induction bindings with
  | nil => cases h
  | cons first rest ih =>
    rw [Bindings.get?] at h
    split at h
    · rename_i hname
      cases h
      exact hname ▸ List.mem_cons_self
    · exact List.mem_cons_of_mem first (ih h)

theorem Store.binding?_of_visible? {store : Store} {env : EnvId} {name : String} {v : Value}
    (h : store.visible? env name = some v) : store.binding? env name = some v := by
  obtain ⟨environment, hlive, hvalue⟩ := Option.bind_eq_some_iff.mp h
  rw [binding?, (Option.filter_eq_some_iff.mp hlive).1]
  exact hvalue

structure Store.Grows (before after : Store) : Prop where
  environments : after.environments.map Environment.withoutRoom =
    before.environments.map Environment.withoutRoom
  transcript : before.transcript <+: after.transcript

namespace Store.Grows

theorem live? {before after : Store} (h : before.Grows after) (env : EnvId) :
    (after.live? env).map Environment.withoutRoom =
      (before.live? env).map Environment.withoutRoom := by
  -- Whether an environment exists does not depend on its room.
  have hone : ∀ store : Store, (store.live? env).map Environment.withoutRoom =
      ((store.environments.map Environment.withoutRoom)[env]?).filter (·.live) := by
    intro store
    rw [Store.live?, List.getElem?_map]
    cases store.environments[env]? with
    | none => rfl
    | some environment =>
      simp only [Option.filter, Option.map_some, Environment.withoutRoom]
      split <;> rfl
  rw [hone, hone, h.environments]

theorem visible? {before after : Store} (h : before.Grows after) (env : EnvId) (name : String) :
    after.visible? env name = before.visible? env name := by
  have hone : ∀ store : Store, store.visible? env name =
      ((store.live? env).map Environment.withoutRoom).bind (·.bindings.get? name) := by
    intro store
    rw [Store.visible?]
    cases store.live? env <;> rfl
  rw [hone, hone, h.live? env]

instance : IsPreorder Store Grows where
  refl _ := ⟨rfl, List.prefix_rfl⟩
  trans _ _ _ h h' := ⟨h'.environments.trans h.environments, h.transcript.trans h'.transcript⟩

/-- Less room in a sink is no change. -/
theorem modifyRoom (store : Store) (env : EnvId) (room : Option Nat) :
    store.Grows (store.modifyEnvironment env fun environment =>
      { environment with room := room }) := by
  refine ⟨List.ext_getElem? fun i => ?_, List.prefix_rfl⟩
  simp only [Store.modifyEnvironment, List.getElem?_map, List.getElem?_modify]
  cases store.environments[i]? with
  | none => rfl
  | some environment => by_cases hi : env = i <;> simp [hi, Environment.withoutRoom]

theorem record (chunk : Chunk) : (Eval.record chunk).Keeps Grows :=
  keeps_modify fun _ => ⟨rfl, List.prefix_append _ _⟩

theorem print (env : EnvId) (text : String) : (Eval.print env text).Keeps Grows := by
  unfold Eval.print
  refine keeps_bind (keeps_environment env) fun environment => ?_
  split
  · split
    · exact record _
    · exact keeps_pure _
  · rename_i room _
    dsimp only
    -- What the sink takes is printed even if it refuses the rest.
    have hrefuse : (if (text.toUTF8.extract 0 room).size < text.toUTF8.size then
        throw Failure.sinkFull else pure () : Eval Unit).Keeps Grows := by
      split
      · exact keeps_throw _
      · exact keeps_pure _
    split
    · refine keeps_bind (record _) fun _ => keeps_bind ?_ fun _ => hrefuse
      exact keeps_modify fun store => modifyRoom store env _
    · exact hrefuse

instance : Admits Grows where
  freshNode := by
    intro before outcome after h
    rw [(ends_freshNode.mp h).2]
    exact ⟨rfl, List.prefix_rfl⟩
  print := print

end Store.Grows

theorem Value.forceOnce_symbol_ends {forcing : Forcing} {env : EnvId} {name : String} {v : Value}
    {store after : Store} :
    ((Value.symbol env name).forceOnce forcing).Ends store (.ok v) after ↔
      store.visible? env name = some v ∧ after = store := by
  rw [forceOnce, ends_bind_ok, Store.visible?]
  cases hlive : store.live? env with
  | none => simp [hlive]
  | some environment =>
    cases hbound : environment.bindings.get? name <;> simp [hlive, hbound, eq_comm]

end Deferral
