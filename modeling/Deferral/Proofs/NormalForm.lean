import Deferral.Console
import Deferral.Proofs.DistinctKeys

/-!
# Values in normal form

Resolution gives a value without anything left to force outside of sequences, and whose maps have
no two equal keys.  To such a value nothing happens any more: resolved again, however deep and
whatever the bindings are by then, it stays as it is (`Value.resolve_ok_normal`).
-/

namespace Deferral

open Eval

/-- A value in normal form: outside of sequence nodes it has no symbols, expressions or calls, and
no map with two equal keys. -/
inductive Value.Normal : Value → Prop
  | nil : Normal .nil
  | bool (b : Bool) : Normal (.bool b)
  | int (n : Int64) : Normal (.int n)
  | float (x : Double) : Normal (.float x)
  | str (s : String) : Normal (.str s)
  | list {items : List Value} : (∀ item ∈ items, item.Normal) → Normal (.list items)
  | map {entries : List (Value × Value)} : (∀ entry ∈ entries, entry.1.Normal) →
      (∀ entry ∈ entries, entry.2.Normal) → Entries.Distinct entries → Normal (.map entries)
  | function (f : Function) : Normal (.function f)
  | sequence (node : NodeId) (env : EnvId) (head tail : Value) :
      Normal (.sequence node env head tail)

/-! ## 1. Nothing happens to a normal form -/

theorem Eval.mapM_eq_pure_map {α β : Type} {f : α → Eval β} {g : α → β} {items : List α}
    (h : ∀ item ∈ items, f item = pure (g item)) : items.mapM f = pure (items.map g) := by
  induction items with
  | nil => exact List.mapM_nil
  | cons item rest ih =>
    rw [List.mapM_cons, h item List.mem_cons_self,
      ih fun other hother => h other (List.mem_cons_of_mem item hother)]
    simp only [pure_bind, List.map_cons]

theorem Eval.mapM_eq_pure {α : Type} {f : α → Eval α} {items : List α}
    (h : ∀ item ∈ items, f item = pure item) : items.mapM f = pure items := by
  rw [Eval.mapM_eq_pure_map (g := id) h, List.map_id]

namespace Value

theorem Normal.resolveWith_eq {w : Value} (deferred : Value → Eval Value) (h : w.Normal) :
    w.resolveWith deferred = pure w := by
  induction h with
  | list _ ih => rw [resolveWith_list, Eval.mapM_eq_pure ih, map_pure]
  | @map entries _ _ hdistinct ihkeys ihvalues =>
    have hentry : ∀ entry ∈ entries, resolveEntry deferred entry = pure entry := by
      intro entry hmem
      rw [resolveEntry, ihkeys entry hmem, ihvalues entry hmem]
      simp only [pure_bind]
    -- No entry is merged with another, since the keys already differ.
    rw [resolveWith_map, Eval.mapM_eq_pure hentry, map_pure, Entries.ofList_eq_self hdistinct]
  | _ => rfl

/-- A normal form resolves to itself, at any depth. -/
theorem Normal.resolve_eq {w : Value} (patience room : Nat) (h : w.Normal) :
    w.resolve patience room = pure w := by
  cases room <;> exact h.resolveWith_eq _

/-! ## 2. Resolution gives normal forms -/

theorem resolveWith_normal {deferred : Value → Eval Value}
    (hdeferred : ∀ v store w after, (deferred v).Ends store (.ok w) after → w.Normal)
    {v w : Value} {store after : Store} (h : (v.resolveWith deferred).Ends store (.ok w) after) :
    w.Normal := by
  induction v generalizing store w after with
  | list items ih =>
    rw [resolveWith_list, map_eq_pure_bind] at h
    obtain ⟨found, _, hfound, h⟩ := ends_bind_ok.mp h
    rw [ends_pure_ok] at h
    rw [h.1]
    refine .list fun item hitem => ?_
    obtain ⟨source, hmem, _, _, hrun⟩ := Ends.mapM_result hfound hitem
    exact ih source hmem hrun
  | map entries ih =>
    rw [resolveWith_map, map_eq_pure_bind] at h
    obtain ⟨found, _, hfound, h⟩ := ends_bind_ok.mp h
    rw [ends_pure_ok] at h
    rw [h.1]
    -- Entries whose keys turn out equal are merged, so those that stay are some of those found.
    have hparts : ∀ entry ∈ found, entry.1.Normal ∧ entry.2.Normal := by
      intro entry hentry
      obtain ⟨source, hmem, _, _, hrun⟩ := Ends.mapM_result hfound hentry
      obtain ⟨key, _, hkey, hrun⟩ := ends_bind_ok.mp hrun
      obtain ⟨value, _, hvalue, hrun⟩ := ends_bind_ok.mp hrun
      rw [ends_pure_ok] at hrun
      rw [hrun.1]
      exact ⟨(ih source hmem).1 hkey, (ih source hmem).2 hvalue⟩
    exact .map (fun entry hentry => (hparts entry (Entries.mem_of_mem_ofList hentry)).1)
      (fun entry hentry => (hparts entry (Entries.mem_of_mem_ofList hentry)).2)
      (Entries.distinct_ofList found)
  | symbol => exact hdeferred _ _ _ _ h
  | expression => exact hdeferred _ _ _ _ h
  | call => exact hdeferred _ _ _ _ h
  | _ =>
    change (pure _ : Eval Value).Ends store (.ok w) after at h
    rw [ends_pure_ok] at h
    rw [h.1]
    constructor

theorem resolve_normal {patience room : Nat} {v w : Value} {store after : Store}
    (h : (v.resolve patience room).Ends store (.ok w) after) : w.Normal := by
  induction room generalizing v w store after with
  | zero =>
    refine resolveWith_normal (fun u before found between hu => ?_) h
    simp at hu
  | succ room ih =>
    refine resolveWith_normal (fun u before found between hu => ?_) h
    -- Whatever the steps from a deferred value lead to, it is resolved once more.
    obtain ⟨last, _, -, hfound⟩ := ends_bind_ok.mp hu
    exact ih hfound

end Value

/-! ## 3. Resolving twice -/

theorem Json.render_forced {forcing : Forcing} {w : Value} {store : Store}
    (hw : (forcing.force w).Ends store (.ok w) store) :
    (Json.render forcing w).Ends store (.ok (((Json.ofValue w).map Json.compact).mapError .form))
      store := by
  refine (ends_attempt.mpr ⟨_, rfl, hw⟩).bind ?_
  dsimp only
  cases Json.ofValue w <;> exact ends_pure_self _ _

def Console.jsonLine (w : Value) : List Chunk × Option String :=
  match w with
  | .nil => ([], none)
  | w =>
    match Json.ofValue w with
    | .ok json => ([.shown (json.compact ++ "\n")], none)
    | .error failure => ([], some (Json.ExportFailure.form failure).message)

/-- The console forces a value and forces it once more to export it.  If that leaves it as it is,
only the line of the console itself is added to what the first forcing has written. -/
theorem Console.respond_json {forcing : Forcing} {v w : Value} {store after : Store}
    (hv : (forcing.force v).Ends store (.ok w) after)
    (hw : ∀ later, (forcing.force w).Ends later (.ok w) later) :
    (Console.respond ⟨true⟩ forcing v).Ends store (.ok (jsonLine w).2)
      { after with
        nextNode := store.nextNode
        transcript := after.transcript ++ (jsonLine w).1 } := by
  have hshow : (showValue ⟨true⟩ forcing w).Ends after (.ok (jsonLine w).2)
      { after with transcript := after.transcript ++ (jsonLine w).1 } := by
    have hrender := Json.render_forced (hw after)
    cases w with
    | nil =>
      rw [jsonLine, List.append_nil]
      exact ends_pure_self _ _
    | _ =>
      unfold jsonLine
      dsimp only
      generalize Json.ofValue _ = form at hrender ⊢
      refine hrender.bind ?_
      cases form with
      | ok json => exact (ends_record.mpr ⟨rfl, rfl⟩).bind (ends_pure_self _ _)
      | error failure =>
        dsimp only
        rw [List.append_nil]
        exact ends_pure_self _ _
  unfold respond withoutNodes
  refine (ends_get.mpr ⟨rfl, rfl⟩).bind ?_
  refine Ends.bind ((ends_attempt.mpr ⟨_, rfl, hv⟩).bind hshow) ?_
  exact (ends_modify.mpr ⟨rfl, rfl⟩).bind (ends_pure_self _ _)

namespace Value

/-- What resolution gives is in normal form, and whatever resolves it once more leaves it and the
store as they are: resolution itself, at any depth and in any store, the built-in function of that
name, which has forced its argument before it forces it, and the console, which exports in JSON what
it has forced. -/
theorem resolve_ok_normal {patience room : Nat} {v w : Value} {store after : Store}
    (h : (v.resolve patience room).Ends store (.ok w) after) :
    w.Normal ∧
      (∀ patience' room' later, (w.resolve patience' room').Ends later (.ok w) later) ∧
      (∀ env, (callValue ⟨resolve patience room, patience⟩ env (.function (.eager .resolve)) [v]
        []).Ends store (.ok w) after) ∧
      (Console.respond ⟨true⟩ ⟨resolve patience room, patience⟩ v).Ends store
        (.ok (Console.jsonLine w).2)
        { after with
          nextNode := store.nextNode
          transcript := after.transcript ++ (Console.jsonLine w).1 } := by
  have hnormal : w.Normal := resolve_normal h
  have hagain : ∀ patience' room' later,
      (w.resolve patience' room').Ends later (.ok w) later := by
    intro patience' room' later
    rw [hnormal.resolve_eq]
    exact ends_pure_self _ _
  refine ⟨hnormal, hagain, fun env => ?_, Console.respond_json h (hagain patience room)⟩
  -- The call forces its argument, and the function forces what it is given.
  have hargs : ([v].mapM (resolve patience room)).Ends store (.ok [w]) after := by
    rw [List.mapM_cons, List.mapM_nil]
    exact h.bind (ends_pure_self _ _)
  have hvalid : (Builtin.resolve.validate 1 [] : Except Failure Unit) = .ok () := rfl
  refine hargs.bind (Ends.bind (ends_pure_self _ _) ?_)
  exact Ends.bind (ends_ofExcept.mpr ⟨hvalid.symm, rfl⟩) (hagain patience room after)

/-- Two keys that turn out equal leave one entry, and the map with it is in normal form. -/
theorem resolve_ok_normal_merged_keys :
    let store := Store.single [("x", .int 5)]
    let v := Value.map [(.symbol 0 "x", .int 1), (.int 5, .list [.symbol 0 "x"])]
    let w := Value.map [(.int 5, .list [.int 5])]
    (v.resolve 0 depthLimit).Ends store (.ok w) store ∧ w.Normal ∧
      ∀ patience room later, (w.resolve patience room).Ends later (.ok w) later := by
  intro store v w
  have h : (v.resolve 0 depthLimit).Ends store (.ok w) store := rfl
  exact ⟨h, (resolve_ok_normal h).1, (resolve_ok_normal h).2.1⟩

end Value

end Deferral
