import Deferral.Proofs.LateBinding
import Deferral.Proofs.Output

/-!
# Forcing is read-only

Whatever is forced, and whether or not it fails, all bindings are afterwards what they were before,
and the output of an environment is what it was before with a text after it.  Bindings are changed
by assignments alone: one assignment binds its own name in its own environment, and a script leaves
alone what it does not assign (`Value.resolve_readOnly`).
-/

namespace Deferral

open Eval

/-! ## 1. Bindings -/

def Store.bindings (store : Store) : List Bindings := store.environments.map (·.bindings)

theorem Store.bindings_bind (env : EnvId) (name : String) (v : Value) (store : Store) :
    (store.bind env name v).bindings = store.bindings.modify env (·.insert name v) := by
  refine List.ext_getElem? fun i => ?_
  simp only [Store.bindings, Store.bind, Store.modifyEnvironment, List.getElem?_map,
    List.getElem?_modify]
  cases store.environments[i]? with
  | none => rfl
  | some environment => by_cases hi : env = i <;> simp [hi]

theorem Store.binding?_eq (store : Store) (env : EnvId) (name : String) :
    store.binding? env name = store.bindings[env]?.bind (·.get? name) := by
  rw [Store.binding?, Store.bindings, List.getElem?_map, Option.bind_map]
  rfl

/-- Binding a name changes what this name stands for, and nothing else. -/
theorem Store.binding?_bind_cases (env : EnvId) (name : String) (v : Value) (store : Store)
    (other : EnvId) (found : String) :
    (store.bind env name v).binding? other found = store.binding? other found ∨
      other = env ∧ found = name ∧ (store.bind env name v).binding? other found = some v := by
  rw [binding?_eq, binding?_eq, bindings_bind, List.getElem?_modify]
  by_cases hother : env = other
  · subst hother
    cases hbindings : store.bindings[env]? with
    | none => exact .inl rfl
    | some bindings =>
      by_cases hname : name = found
      · subst hname
        simp [Bindings.get?_insert]
      · simp [Bindings.get?_insert, hname]
  · simp [hother]

theorem Store.OnlyPrints.bindings {before after : Store} (h : before.OnlyPrints after) :
    after.bindings = before.bindings := by
  have hone : ∀ store : Store, store.bindings =
      (store.environments.map Environment.withoutRoom).map (·.bindings) := by
    intro store
    rw [List.map_map]
    rfl
  rw [hone, hone, h.environments]

/-- Every run leaves all bindings as they are and adds one text to the output of each environment,
of which the sink takes what fits. -/
def Eval.ReadOnly {α : Type} (action : Eval α) : Prop :=
  action.Keeps fun store after => after.bindings = store.bindings ∧
    ∀ env, ∃ text, after.printedBy env = store.printedBy env ++ takenBytes (store.room? env) text

theorem Eval.Keeps.readOnly {α : Type} {action : Eval α} (h : action.Keeps Store.OnlyPrints) :
    action.ReadOnly := by
  intro store outcome after hends
  have honly := h store outcome after hends
  refine ⟨honly.bindings, fun env => ?_⟩
  obtain ⟨text, hprinted, -⟩ := honly.output env
  exact ⟨text, hprinted⟩

/-! ## 2. Everything that forces -/

structure Forcing.ReadOnly (forcing : Forcing) : Prop where
  force (v : Value) : (forcing.force v).ReadOnly
  forceOnce (v : Value) : (v.forceOnce forcing).ReadOnly
  display (v : Value) : (v.display forcing).ReadOnly
  plainText (v : Value) : (v.plainText forcing).ReadOnly
  render (v : Value) : (Json.render forcing v).ReadOnly
  take (count : Nat) (v : Value) : (Sequence.take forcing count v).ReadOnly
  collect (v : Value) : (Sequence.collect forcing v).ReadOnly
  head (v : Value) : (Sequence.head forcing v).ReadOnly
  tail (v : Value) : (Sequence.tail v).ReadOnly
  concat (env : EnvId) (left right : Value) : (Sequence.concat forcing env left right).ReadOnly
  next (cursor : Cursor) : (cursor.next forcing).ReadOnly
  combine (operator : Operator) (env : EnvId) (left right : Value) :
    (operator.combine env left right).ReadOnly
  call (env : EnvId) (target : Value) (args : List Value) (kwargs : List (String × Value)) :
    (callValue forcing env target args kwargs).ReadOnly
  run (env : EnvId) (builtin : Builtin) (args : List Value) (kwargs : List (String × Value)) :
    (builtin.run forcing env args kwargs).ReadOnly
  invoke (env : EnvId) (target : Value) (args : List Value) (kwargs : List (String × Value)) :
    (invoke forcing env target args kwargs).ReadOnly
  evaluate (env : EnvId) (t : Tree) : (t.evaluate forcing env).ReadOnly

theorem Forcing.Keeps.readOnly {forcing : Forcing} (h : forcing.Keeps Store.OnlyPrints) :
    forcing.ReadOnly where
  force v := (h v).readOnly
  forceOnce v := (v.forceOnce_keeps h).readOnly
  display v := (v.display_keeps h).readOnly
  plainText v := (v.plainText_keeps h).readOnly
  render v := (Json.render_keeps h v).readOnly
  take count v := (Sequence.take_keeps h count v).readOnly
  collect v := (Sequence.collect_keeps h v).readOnly
  head v := (Sequence.head_keeps h v).readOnly
  tail v := Eval.Keeps.readOnly (Sequence.tail_keeps v)
  concat env left right := (Sequence.concat_keeps h env left right).readOnly
  next cursor := (Cursor.next_keeps h cursor).readOnly
  combine operator env left right := Eval.Keeps.readOnly (operator.combine_keeps env left right)
  call env target args kwargs := (callValue_keeps h env target args kwargs).readOnly
  run env builtin args kwargs := (Builtin.run_keeps h env builtin args kwargs).readOnly
  invoke env target args kwargs := (invoke_keeps h env target args kwargs).readOnly
  evaluate env t := (t.evaluate_keeps h env).readOnly

/-! ## 3. Assignments -/

variable {forcing : Forcing} {env : EnvId} {store after : Store}
  {outcome : Except Failure (Option Value)}

/-- A statement changes no binding unless it is an assignment that succeeds, which binds its
name. -/
theorem Statement.execute_bindings (hforcing : forcing.Keeps Store.OnlyPrints)
    {statement : Statement} (h : (statement.execute forcing env).Ends store outcome after) :
    ((statement.target = none ∨ ∃ failure, outcome = .error failure) ∧
      after.bindings = store.bindings) ∨
    ∃ name v between, statement.target = some name ∧ outcome = .ok none ∧
      (statement.value.evaluate forcing env).Ends store (.ok v) between ∧
        after.bindings = store.bindings.modify env (·.insert name v) := by
  have hevaluate := statement.value.evaluate_keeps hforcing env
  unfold Statement.execute at h
  rcases ends_bind.mp h with ⟨v, between, hv, h⟩ | ⟨failure, hf, rfl⟩
  · have hbetween := (hevaluate _ _ _ hv).bindings
    cases htarget : statement.target with
    | none =>
      rw [htarget, ends_pure] at h
      rw [h.2]
      exact .inl ⟨.inl rfl, hbetween⟩
    | some name =>
      rw [htarget] at h
      simp only [ends_bind, ends_modify, ends_pure] at h
      obtain ⟨-, -, ⟨-, rfl⟩, houtcome, rfl⟩ | ⟨_, ⟨hfalse, -⟩, -⟩ := h
      · refine .inr ⟨name, v, between, rfl, houtcome, hv, ?_⟩
        rw [Store.bindings_bind, hbetween]
      · cases hfalse
  · exact .inl ⟨.inr ⟨failure, rfl⟩, (hevaluate _ _ _ hf).bindings⟩

/-- A statement changes what its own name stands for in its own environment, and nothing else. -/
theorem Statement.execute_changed (hforcing : forcing.Keeps Store.OnlyPrints)
    {statement : Statement} (h : (statement.execute forcing env).Ends store outcome after)
    {other : EnvId} {name : String}
    (hchanged : after.binding? other name ≠ store.binding? other name) :
    other = env ∧ statement.target = some name := by
  obtain ⟨-, hsame⟩ | ⟨assigned, v, _, htarget, -, -, hbindings⟩ := execute_bindings hforcing h
  · rw [Store.binding?_eq, Store.binding?_eq, hsame] at hchanged
    exact absurd rfl hchanged
  · rw [Store.binding?_eq, hbindings, ← Store.bindings_bind, ← Store.binding?_eq] at hchanged
    obtain hsame | ⟨hother, rfl, -⟩ := store.binding?_bind_cases env assigned v other name
    · exact absurd hsame hchanged
    · exact ⟨hother, htarget⟩

/-- A script changes what the names stand for that it assigns, and nothing else. -/
theorem Script.runAll_changed (hforcing : forcing.Keeps Store.OnlyPrints) {last : Option Value}
    {statements : List Statement}
    (h : (runAll forcing env last statements).Ends store outcome after) {other : EnvId}
    {name : String} (hchanged : after.binding? other name ≠ store.binding? other name) :
    other = env ∧ ∃ statement ∈ statements, statement.target = some name := by
  induction statements generalizing last store with
  | nil =>
    rw [runAll, ends_pure] at h
    rw [h.2] at hchanged
    exact absurd rfl hchanged
  | cons statement rest ih =>
    rw [runAll] at h
    -- The binding is changed by the first statement or after it.
    rcases ends_bind.mp h with ⟨value, between, hfirst, hrest⟩ | ⟨failure, hfirst, -⟩
    · by_cases hbetween : between.binding? other name = store.binding? other name
      · rw [← hbetween] at hchanged
        obtain ⟨henv, found, hmem, htarget⟩ := ih hrest hchanged
        exact ⟨henv, found, List.mem_cons_of_mem statement hmem, htarget⟩
      · obtain ⟨henv, htarget⟩ := Statement.execute_changed hforcing hfirst hbetween
        exact ⟨henv, statement, List.mem_cons_self, htarget⟩
    · obtain ⟨henv, htarget⟩ := Statement.execute_changed hforcing hfirst hchanged
      exact ⟨henv, statement, List.mem_cons_self, htarget⟩

/-! ## 4. The theorem -/

/-- Everything that forces a value is read-only.  A statement that binds a name is an assignment
that succeeds; it binds this name in its own environment, and no other binding changes in any run of
a script. -/
theorem Value.resolve_readOnly (patience room : Nat) :
    let forcing : Forcing := ⟨Value.resolve patience room, patience⟩
    forcing.ReadOnly ∧
      (∀ env statement store outcome after,
        (Statement.execute forcing env statement).Ends store outcome after →
          ((statement.target = none ∨ ∃ failure, outcome = .error failure) ∧
            after.bindings = store.bindings) ∨
          ∃ name v between, statement.target = some name ∧ outcome = .ok none ∧
            (statement.value.evaluate forcing env).Ends store (.ok v) between ∧
              after.bindings = store.bindings.modify env (·.insert name v)) ∧
      ∀ env last statements store outcome after,
        (Script.runAll forcing env last statements).Ends store outcome after → ∀ other name,
          after.binding? other name ≠ store.binding? other name →
            other = env ∧ ∃ statement ∈ statements, statement.target = some name := by
  have hforcing : Forcing.Keeps Store.OnlyPrints ⟨Value.resolve patience room, patience⟩ :=
    fun v => v.resolve_keeps patience room
  refine ⟨hforcing.readOnly, ?_, ?_⟩
  · intro env statement store outcome after h
    exact Statement.execute_bindings hforcing h
  · intro env last statements store outcome after h other name hchanged
    exact Script.runAll_changed hforcing h hchanged

/-- A script that fails while it prints: what it has assigned before stays, the name that it was
about to assign keeps its value, and the sink has taken what fits. -/
theorem Value.resolve_readOnly_sink_full :
    let forcing : Forcing := ⟨Value.resolve 0 depthLimit, 0⟩
    let environment : Environment :=
      { bindings := [("x", .int 5)], reversePrint := false, live := true, room := some 2 }
    let store : Store := { environments := [environment], nextNode := 0, transcript := [] }
    let printing : Tree := .call (.name "print") [.text "abc"] []
    let statements : List Statement := [⟨1, some "y", .int 2⟩, ⟨2, some "x", printing⟩]
    ∃ after, (Script.runAll forcing 0 none statements).Ends store (.error .sinkFull) after ∧
      after.bindings = [[("x", .int 5), ("y", .int 2)]] ∧
      after.printedBy 0 = "ab".toUTF8 ∧
      after.binding? 0 "x" = store.binding? 0 "x" ∧
      ∃ statement ∈ statements, statement.target = some "y" := by
  intro forcing environment store printing statements
  have hrun : ∃ after, (Script.runAll forcing 0 none statements).Ends store (.error .sinkFull)
      after ∧ after.bindings = [[("x", .int 5), ("y", .int 2)]] ∧
      after.printedBy 0 = "ab".toUTF8 := ⟨_, rfl, rfl, rfl⟩
  obtain ⟨after, hends, hbindings, hprinted⟩ := hrun
  have hbinding (name : String) : after.binding? 0 name =
      Bindings.get? name [("x", .int 5), ("y", .int 2)] := by
    rw [Store.binding?_eq, hbindings]
    rfl
  have hchanged : after.binding? 0 "y" ≠ store.binding? 0 "y" := by
    rw [hbinding]
    exact nofun
  obtain ⟨-, hassigned⟩ := (resolve_readOnly 0 depthLimit).2.2 0 none statements store
    (.error .sinkFull) after hends 0 "y" hchanged
  exact ⟨after, hends, hbindings, hprinted, hbinding "x", hassigned⟩

end Deferral
