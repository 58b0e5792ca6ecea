import Deferral.Proofs.Growth
import Deferral.Proofs.NormalForm
import Deferral.Proofs.StrictEvaluation

/-!
# Late binding agrees with strict evaluation

A script of assignments builds values with symbols in them, and what they stand for is only looked
up when a name is resolved.  The result is the datum that the last assignments give when they are
read as equations (`Script.resolve_assigned`), in whatever order they stand.

The link between the two sides is `Value.Means`: what a value stands for under the bindings of a
store.  A step of evaluation builds a value with the right meaning, whether it computes at once or
defers, and resolution turns a value into its meaning.
-/

namespace Deferral

open Eval

/-! ## 1. The meaning of a value -/

/-- The datum that a value stands for under the bindings of a store, and a bound on the symbols and
expressions on each path through the value and its bindings. -/
inductive Value.Means (store : Store) : Value → Datum → Nat → Prop
  | int (n : Int64) (bound : Nat) : Means store (.int n) (.int n.toInt) bound
  | text (s : String) (bound : Nat) : Means store (.str s) (.text s) bound
  | nil (bound : Nat) : Means store (.list []) (.list []) bound
  | cons {item items d ds bound} : Means store item d bound →
      Means store (.list items) (.list ds) bound →
      Means store (.list (item :: items)) (.list (d :: ds)) bound
  | symbol {env name v d bound} : store.visible? env name = some v → Means store v d bound →
      Means store (.symbol env name) d (bound + 1)
  | expression {node env operator left right a b d bound} : Means store left a bound →
      Means store right b bound → Datum.combine? operator a b = some d →
      Means store (.expression node env operator left right) d (bound + 1)

namespace Value.Means

variable {store : Store} {v left right : Value} {a b d : Datum} {bound : Nat}

theorem append {xs ys : List Value} {as bs : List Datum}
    (hxs : Means store (.list xs) (.list as) bound)
    (hys : Means store (.list ys) (.list bs) bound) :
    Means store (.list (xs ++ ys)) (.list (as ++ bs)) bound := by
  induction xs generalizing as with
  | nil => cases hxs; exact hys
  | cons x xs ih =>
    cases hxs with
    | cons hx hxs => exact .cons hx (ih hxs)

theorem length_eq {xs : List Value} {as : List Datum}
    (h : Means store (.list xs) (.list as) bound) : xs.length = as.length := by
  induction xs generalizing as with
  | nil => cases h; rfl
  | cons x xs ih =>
    cases h with
    | cons _ hxs => rw [List.length_cons, List.length_cons, ih hxs]

theorem replicate {xs : List Value} {as : List Datum}
    (h : Means store (.list xs) (.list as) bound) (n : Nat) :
    Means store (.list (List.replicate n xs).flatten) (.list (List.replicate n as).flatten)
      bound := by
  induction n with
  | zero => exact .nil bound
  | succ n ih =>
    rw [List.replicate_succ, List.replicate_succ, List.flatten_cons, List.flatten_cons]
    exact h.append ih

theorem repeatText {s : String} {count : Int64}
    (h : Datum.repeatText? s count.toInt = some d) :
    ∃ v, Deferral.repeatText s count = .ok v ∧ Means store v d bound := by
  unfold Datum.repeatText? at h
  split at h
  · rename_i hsize
    obtain rfl := Option.some.inj h
    exact ⟨_, repeatText_eq hsize, .text _ bound⟩
  · cases h

theorem repeatItems {items : List Value} {ds : List Datum} {count : Int64}
    (hitems : Means store (.list items) (.list ds) bound)
    (h : Datum.repeatItems? ds count.toInt = some d) :
    ∃ v, Deferral.repeatItems items count = .ok v ∧ Means store v d bound := by
  unfold Datum.repeatItems? at h
  split at h
  · rename_i hsize
    obtain rfl := Option.some.inj h
    exact ⟨_, repeatItems_eq (by rwa [hitems.length_eq]), hitems.replicate _⟩
  · cases h

theorem mono {bound' : Nat} (h : Means store v d bound) (hle : bound ≤ bound') :
    Means store v d bound' := by
  induction h generalizing bound' with
  | int n => exact .int n bound'
  | text s => exact .text s bound'
  | nil => exact .nil bound'
  | cons _ _ ih ihs => exact .cons (ih hle) (ihs hle)
  | symbol hbound _ ih =>
    obtain ⟨more, rfl⟩ := Nat.exists_eq_add_of_le' hle
    exact .symbol hbound (ih (Nat.le_add_left _ more))
  | expression _ _ hcombine ihleft ihright =>
    obtain ⟨more, rfl⟩ := Nat.exists_eq_add_of_le' hle
    exact .expression (ihleft (Nat.le_add_left _ more)) (ihright (Nat.le_add_left _ more)) hcombine

/-- A value that is not deferred has the form of its meaning. -/
theorem int_inv {n : Int} (h : Means store v (.int n) bound) (hv : v.isDeferred = false) :
    ∃ k : Int64, v = .int k ∧ n = k.toInt := by
  cases h with
  | int k => exact ⟨k, rfl, rfl⟩
  | symbol => cases hv
  | expression => cases hv

theorem text_inv {s : String} (h : Means store v (.text s) bound) (hv : v.isDeferred = false) :
    v = .str s := by
  cases h with
  | text => rfl
  | symbol => cases hv
  | expression => cases hv

theorem list_inv {ds : List Datum} (h : Means store v (.list ds) bound)
    (hv : v.isDeferred = false) : ∃ items, v = .list items := by
  cases h with
  | nil => exact ⟨[], rfl⟩
  | cons => exact ⟨_, rfl⟩
  | symbol => cases hv
  | expression => cases hv

theorem isSequence (h : Means store v d bound) : v.isSequence = false := by
  cases h <;> rfl

/-- An operator that is computed at once gives a value with the combined meaning.  Lists need not be
resolved for that: their items keep their meanings. -/
theorem compute {operator : Operator} (hleft : Means store left a bound)
    (hright : Means store right b bound) (hl : left.isDeferred = false)
    (hr : right.isDeferred = false) (h : Datum.combine? operator a b = some d) :
    ∃ v, operator.compute left right = .ok v ∧ Means store v d bound := by
  -- The forms of the two data are those of the values, and they say which clause applies.
  cases a with
  | int m =>
    obtain ⟨j, rfl, rfl⟩ := hleft.int_inv hl
    cases b with
    | int n =>
      obtain ⟨k, rfl, rfl⟩ := hright.int_inv hr
      obtain ⟨result, hresult, rfl⟩ := Operator.applyInt_eq h
      exact ⟨.int result, by cases operator <;> exact hresult, .int result bound⟩
    | text s =>
      obtain rfl := hright.text_inv hr
      cases operator with
      | multiply => exact repeatText h
      | _ => cases h
    | list ds =>
      obtain ⟨items, rfl⟩ := hright.list_inv hr
      cases operator with
      | multiply => exact hright.repeatItems h
      | _ => cases h
  | text s =>
    obtain rfl := hleft.text_inv hl
    cases b with
    | int n =>
      obtain ⟨k, rfl, rfl⟩ := hright.int_inv hr
      cases operator with
      | multiply => exact repeatText h
      | _ => cases h
    | text t =>
      obtain rfl := hright.text_inv hr
      cases operator with
      | add =>
        obtain rfl := Option.some.inj h
        exact ⟨_, rfl, .text _ bound⟩
      | _ => cases h
    | list ds => cases operator <;> cases h
  | list ds =>
    obtain ⟨items, rfl⟩ := hleft.list_inv hl
    cases b with
    | int n =>
      obtain ⟨k, rfl, rfl⟩ := hright.int_inv hr
      cases operator with
      | multiply => exact hleft.repeatItems h
      | _ => cases h
    | text t => cases operator <;> cases h
    | list es =>
      obtain ⟨others, rfl⟩ := hright.list_inv hr
      cases operator with
      | add =>
        obtain rfl := Option.some.inj h
        exact ⟨_, rfl, hleft.append hright⟩
      | _ => cases h

/-- An operator gives a value with the combined meaning, whether it is deferred or computed. -/
theorem combine {operator : Operator} {env : EnvId} {before after : Store}
    (hleft : Means store left a bound) (hright : Means store right b bound)
    (h : Datum.combine? operator a b = some d)
    (hends : (operator.combine env left right).Ends before (.ok v) after) :
    Means store v d (bound + 1) := by
  unfold Operator.combine at hends
  split at hends
  · obtain ⟨node, between, -, hends⟩ := ends_bind_ok.mp hends
    rw [ends_pure_ok] at hends
    rw [hends.1]
    exact .expression hleft hright h
  · rename_i hconcrete
    obtain ⟨hl, hr⟩ := Bool.or_eq_false_iff.mp (eq_false_of_ne_true hconcrete)
    obtain ⟨w, hcompute, hw⟩ := hleft.compute hright hl hr h
    unfold Operator.apply at hends
    rw [hleft.isSequence, Bool.false_and] at hends
    -- No sequence is involved, so addition is not a special case.
    have hv : (Eval.ofExcept (operator.compute left right)).Ends before (.ok v) after := by
      cases operator <;> exact hends
    rw [ends_ofExcept, hcompute, Except.ok.injEq] at hv
    rw [hv.1]
    exact hw.mono (Nat.le_succ bound)

/-- A bound of zero leaves no symbol and no expression, so the value is the datum itself. -/
theorem value_eq (h : Means store v d 0) : v = d.value := by
  generalize hzero : 0 = bound at h
  induction h with
  | int n => rw [Datum.value, Int64.ofInt_toInt]
  | text => rfl
  | nil => rfl
  | cons _ _ ih ihs =>
    have htail := ihs hzero
    rw [Datum.value, Value.list.injEq] at htail
    rw [Datum.value, Datum.values, ← ih hzero, htail]
  | symbol => cases hzero
  | expression => cases hzero

theorem concrete (h : Means store v d bound) : Means store d.value d 0 := by
  induction h with
  | int n =>
    rw [Datum.value, Int64.ofInt_toInt]
    exact .int n 0
  | text s => exact .text s 0
  | nil => exact .nil 0
  | cons _ _ ih ihs => exact .cons ih ihs
  | symbol _ _ ih => exact ih
  | @expression _ _ _ _ _ a b d _ _ _ hcombine iha ihb =>
    have ha : a.value.isDeferred = false := by cases a <;> rfl
    have hb : b.value.isDeferred = false := by cases b <;> rfl
    -- What the operator computes from the two has no names in it, so it is the datum.
    obtain ⟨w, -, hw⟩ := iha.compute ihb ha hb hcombine
    exact hw.value_eq ▸ hw

theorem normal (h : Means store v d 0) : v.Normal := by
  generalize hzero : 0 = bound at h
  induction h with
  | int n => exact .int n
  | text s => exact .str s
  | nil => exact .list (by simp)
  | cons _ _ ih ihs =>
    cases ihs hzero with
    | list hitems => exact .list (List.forall_mem_cons.mpr ⟨ih hzero, hitems⟩)
  | symbol => cases hzero
  | expression => cases hzero

/-- Operands that have been resolved are combined as data are. -/
theorem apply_ends {operator : Operator} (env : EnvId) (hleft : Means store left a bound)
    (hright : Means store right b bound) (h : Datum.combine? operator a b = some d) :
    (operator.apply env a.value b.value).Ends store (.ok d.value) store := by
  have ha : a.value.isDeferred = false := by cases a <;> rfl
  have hb : b.value.isDeferred = false := by cases b <;> rfl
  obtain ⟨w, hcompute, hw⟩ := hleft.concrete.compute hright.concrete ha hb h
  rw [hw.value_eq] at hcompute
  unfold Operator.apply
  rw [hleft.concrete.isSequence, Bool.false_and]
  cases operator <;> exact ends_ofExcept.mpr ⟨hcompute.symm, rfl⟩

end Value.Means

/-! ## 2. Resolution gives the meaning -/

/-- A computation that changes nothing and gives a result, or is excused when it runs into the limit
on depth. -/
def Eval.Attains {α : Type} (action : Eval α) (store : Store) (a : α) (excuse : Prop) : Prop :=
  action.Ends store (.ok a) store ∨ excuse ∧ action.Ends store (.error .tooDeep) store

namespace Eval.Attains

variable {α β : Type} {store : Store} {excuse excuse' : Prop}

theorem of_ends {action : Eval α} {a : α} (h : action.Ends store (.ok a) store) :
    action.Attains store a excuse := .inl h

theorem mono {action : Eval α} {a : α} (h : action.Attains store a excuse)
    (himp : excuse → excuse') : action.Attains store a excuse' :=
  h.imp_right fun ⟨he, hends⟩ => ⟨himp he, hends⟩

theorem bind {action : Eval α} {next : α → Eval β} {a : α} {b : β}
    (h : action.Attains store a excuse) (hnext : (next a).Attains store b excuse) :
    (action >>= next).Attains store b excuse := by
  rcases h with h | ⟨he, h⟩
  · exact hnext.imp h.bind fun ⟨he, hends⟩ => ⟨he, h.bind hends⟩
  · exact .inr ⟨he, h.bind_error⟩

theorem of_map {action : Eval α} {f : α → β} (hf : Function.Injective f) {a : α}
    (h : (f <$> action).Attains store (f a) excuse) : action.Attains store a excuse := by
  rw [map_eq_pure_bind] at h
  rcases h with h | ⟨he, h⟩
  · obtain ⟨c, between, hc, h⟩ := ends_bind_ok.mp h
    rw [ends_pure_ok] at h
    obtain ⟨hresult, rfl⟩ := h
    exact .inl (hf hresult ▸ hc)
  -- What the function is applied to afterwards cannot fail, so the computation has.
  · rcases ends_bind.mp h with ⟨c, between, -, h⟩ | ⟨failure, h, hfailure⟩
    · simp at h
    · rw [Except.error.injEq] at hfailure
      exact .inr ⟨he, hfailure ▸ h⟩

end Eval.Attains

namespace Value

theorem resolve_list (patience room : Nat) (items : List Value) :
    (Value.list items).resolve patience room =
      Value.list <$> items.mapM (resolve patience room) := by
  cases room <;> exact resolveWith_list _ items

theorem Means.resolve_concrete {store : Store} {v : Value} {d : Datum} {excuse : Prop}
    (h : Means store v d 0) (patience room : Nat) :
    (v.resolve patience room).Attains store d.value excuse := by
  rw [h.normal.resolve_eq, h.value_eq]
  exact .of_ends (ends_pure_self _ _)

/-- A deferred value needs one level of room more than the steps that lead on from it. -/
theorem resolve_deferred_attains {store : Store} {v w : Value} {bound patience : Nat}
    (hdeferred : v.isDeferred = true) (hsequence : v.isSequence = false)
    (h : ∀ room left,
      (v.unwind ⟨resolve patience room, patience⟩ left >>= resolve patience room).Attains store w
        (room + 1 < bound + 1 ∨ left < bound + 1 ∨ depthLimit < bound + 1)) (room : Nat) :
    (v.resolve patience room).Attains store w (room < bound + 1 ∨ depthLimit < bound + 1) := by
  cases room with
  | zero =>
    rw [resolve, resolveWith_deferred _ hdeferred hsequence]
    exact .inr ⟨.inl (Nat.succ_pos bound), ends_throw.mpr ⟨rfl, rfl⟩⟩
  | succ room =>
    rw [resolve, resolveWith_deferred _ hdeferred hsequence]
    exact (h room depthLimit).mono fun hexcuse => by omega

/-- A step to a value is followed by the steps from there, or by its resolution. -/
theorem unwind_attains {store : Store} {v w result : Value} {excuse : Prop}
    {patience room left : Nat}
    (hstep : (v.forceOnce ⟨resolve patience room, patience⟩).Attains store w excuse)
    (hsequence : w.isSequence = false)
    (hunwind : w.isDeferred = true →
      (w.unwind ⟨resolve patience room, patience⟩ left >>= resolve patience room).Attains store
        result excuse)
    (hresolve : w.isDeferred = false → (w.resolve patience room).Attains store result excuse) :
    (v.unwind ⟨resolve patience room, patience⟩ (left + 1) >>= resolve patience room).Attains store
      result excuse := by
  rw [unwind, bind_assoc]
  refine hstep.bind ?_
  rw [hsequence]
  cases hdeferred : w.isDeferred with
  | false => simpa using hresolve hdeferred
  | true => simpa using hunwind hdeferred

/-- A value that has a meaning resolves to it, unless it nests deeper than the room or the limit. -/
theorem Means.resolve_attains {store : Store} {v : Value} {d : Datum} {bound : Nat}
    (h : Means store v d bound) (patience : Nat) :
    (∀ room, (v.resolve patience room).Attains store d.value
      (room < bound ∨ depthLimit < bound)) ∧
    (v.isDeferred = true → ∀ room left,
      (v.unwind ⟨resolve patience room, patience⟩ left >>= resolve patience room).Attains store
        d.value (room + 1 < bound ∨ left < bound ∨ depthLimit < bound)) := by
  induction h with
  | int n =>
    exact ⟨fun room => (Means.int n 0).resolve_concrete patience room, fun hv => nomatch hv⟩
  | text s =>
    exact ⟨fun room => (Means.text s 0).resolve_concrete patience room, fun hv => nomatch hv⟩
  | nil =>
    exact ⟨fun room => (Means.nil 0).resolve_concrete patience room, fun hv => nomatch hv⟩
  | @cons item items d ds bound _ _ ih ihs =>
    -- The items have no excuse of their own: each is resolved in the room of the list.
    refine ⟨fun room => ?_, fun hv => nomatch hv⟩
    have hrest := ihs.1 room
    rw [resolve_list] at hrest
    have hitems : (items.mapM (resolve patience room)).Attains store (Datum.values ds)
        (room < bound ∨ depthLimit < bound) := hrest.of_map fun _ _ => Value.list.inj
    have hall : ((item :: items).mapM (resolve patience room)).Attains store
        (Datum.values (d :: ds)) (room < bound ∨ depthLimit < bound) := by
      rw [List.mapM_cons]
      exact (ih.1 room).bind (hitems.bind (.of_ends (ends_pure_self _ _)))
    rw [resolve_list, map_eq_pure_bind]
    exact hall.bind (.of_ends (ends_pure_self _ _))
  | @symbol env name v d bound hbound hmeans ih =>
    have hunwind : ∀ room left,
        ((Value.symbol env name).unwind ⟨resolve patience room, patience⟩ left >>=
          resolve patience room).Attains store d.value
            (room + 1 < bound + 1 ∨ left < bound + 1 ∨ depthLimit < bound + 1) := by
      intro room left
      cases left with
      | zero =>
        exact .inr ⟨.inr (.inl (Nat.succ_pos bound)), (ends_throw.mpr ⟨rfl, rfl⟩).bind_error⟩
      | succ left =>
        -- The binding takes up one step; it is followed further or resolved.
        refine unwind_attains (.of_ends (forceOnce_symbol_ends.mpr ⟨hbound, rfl⟩))
          hmeans.isSequence (fun hdeferred => ?_) (fun _ => ?_)
        · exact (ih.2 hdeferred room left).mono fun hexcuse => by omega
        · exact (ih.1 room).mono fun hexcuse => by omega
    exact ⟨resolve_deferred_attains rfl rfl hunwind, fun _ => hunwind⟩
  | @expression node env operator left right a b d bound hleft hright hcombine ihleft ihright =>
    have hconcrete : Means store d.value d 0 :=
      (Means.expression hleft hright hcombine :
        Means store (.expression node env operator left right) d (bound + 1)).concrete
    have hunwind : ∀ room steps,
        ((Value.expression node env operator left right).unwind ⟨resolve patience room, patience⟩
          steps >>= resolve patience room).Attains store d.value
            (room + 1 < bound + 1 ∨ steps < bound + 1 ∨ depthLimit < bound + 1) := by
      intro room steps
      cases steps with
      | zero =>
        exact .inr ⟨.inr (.inl (Nat.succ_pos bound)), (ends_throw.mpr ⟨rfl, rfl⟩).bind_error⟩
      | succ steps =>
        refine unwind_attains (w := d.value) ?_ hconcrete.isSequence (fun hdeferred => ?_)
          fun _ => hconcrete.resolve_concrete patience room
        -- Both operands are resolved in the room that is left, and their data are combined.
        · refine ((ihleft.1 room).mono fun hexcuse => by omega).bind
            (((ihright.1 room).mono fun hexcuse => by omega).bind ?_)
          exact .of_ends (hleft.apply_ends env hright hcombine)
        · cases d <;> cases hdeferred
    exact ⟨resolve_deferred_attains rfl rfl hunwind, fun _ => hunwind⟩

end Value

/-! ## 3. Scripts build values with the right meanings -/

theorem Bindings.get?_insert (name other : String) (v : Value) (bindings : Bindings) :
    (bindings.insert name v).get? other = if name = other then some v else bindings.get? other := by
  induction bindings with
  | nil => rfl
  | cons first rest ih =>
    obtain ⟨known, old⟩ := first
    by_cases hknown : known = name
    · subst hknown
      by_cases hother : known = other <;> simp [Bindings.insert, Bindings.get?, hother]
    · by_cases hother : known = other
      · subst hother
        simp [Bindings.insert, Bindings.get?, hknown, Ne.symm hknown]
      · simp [Bindings.insert, Bindings.get?, hknown, hother, ih]

theorem Store.live?_bind (store : Store) (env : EnvId) (name : String) (v : Value) :
    (store.bind env name v).live? env = (store.live? env).map fun environment =>
      { environment with bindings := environment.bindings.insert name v } := by
  unfold Store.bind Store.modifyEnvironment Store.live?
  rw [List.getElem?_modify_eq]
  cases store.environments[env]? with
  | none => rfl
  | some environment => cases hlive : environment.live <;> simp [Option.filter, hlive]

theorem Store.visible?_bind {store : Store} {env : EnvId} (hlive : (store.live? env).isSome)
    (name other : String) (v : Value) :
    (store.bind env name v).visible? env other =
      if name = other then some v else store.visible? env other := by
  obtain ⟨environment, henvironment⟩ := Option.isSome_iff_exists.mp hlive
  rw [Store.visible?, Store.visible?, live?_bind, henvironment]
  exact Bindings.get?_insert name other v environment.bindings

namespace Script

variable {forcing : Forcing} {env : EnvId} {store after : Store}

theorem run_eq (forcing : Forcing) (env : EnvId) (source : String) :
    run forcing env source = execute forcing env source >>= fun _ => pure () := by
  -- Where the value is thrown away, it does not matter which one the loop carries.
  have hstatements : ∀ (statements : List Statement) (last : Option Value),
      (statements.forM fun statement => discard (statement.execute forcing env)) =
        runAll forcing env last statements >>= fun _ => pure () := by
    intro statements
    rw [List.forM_eq_forM]
    induction statements with
    | nil => exact fun last => (pure_bind _ _).symm
    | cons statement rest ih =>
      intro last
      have hdiscard : (discard (statement.execute forcing env) : Eval Unit) =
          statement.execute forcing env >>= fun _ => pure () := rfl
      rw [runAll, List.forM_cons, hdiscard, bind_assoc, bind_assoc]
      simp only [pure_bind]
      exact bind_congr fun value => ih value
  unfold run execute
  simp only [hstatements _ none, bind_assoc]

theorem run_ends {source : String} {outcome : Except Failure Unit} :
    (run forcing env source).Ends store outcome after ↔
      ∃ result, (execute forcing env source).Ends store result after ∧
        outcome = result.map fun _ => () := by
  rw [run_eq, ends_bind]
  constructor
  · rintro (⟨value, between, hvalue, hpure⟩ | ⟨failure, hfailure, rfl⟩)
    · obtain ⟨rfl, rfl⟩ := ends_pure.mp hpure
      exact ⟨.ok value, hvalue, rfl⟩
    · exact ⟨.error failure, hfailure, rfl⟩
  · rintro ⟨value | failure, hends, rfl⟩
    · exact .inr ⟨value, hends, rfl⟩
    · exact .inl ⟨failure, after, hends, ends_pure_self _ _⟩

/-- Each equation has been evaluated at some time, and its name is bound to the value since. -/
structure Binds (forcing : Forcing) (env : EnvId) (equations : Equations) (store : Store) :
    Prop where
  live : (store.live? env).isSome
  bound : ∀ name t, equations name = some t → ∃ v before after,
    (t.evaluate forcing env).Ends before (.ok v) after ∧ store.visible? env name = some v

theorem Binds.of_grows {equations : Equations} (h : Binds forcing env equations store)
    (hgrows : store.Grows after) : Binds forcing env equations after where
  live := by
    have hsame := congrArg Option.isSome (hgrows.live? env)
    rw [Option.isSome_map, Option.isSome_map] at hsame
    rw [hsame]
    exact h.live
  bound name t ht := by
    obtain ⟨v, before, last, hends, hv⟩ := h.bound name t ht
    exact ⟨v, before, last, hends, (hgrows.visible? env name).trans hv⟩

/-- An assignment replaces the equation of its name. -/
theorem Binds.execute {statements : List Statement} {statement : Statement} {r : Option Value}
    (hforcing : forcing.Keeps Store.Grows) (hassign : statement.target.isSome)
    (h : Binds forcing env (equations statements) store)
    (hends : (statement.execute forcing env).Ends store (.ok r) after) :
    Binds forcing env (equations (statements ++ [statement])) after := by
  obtain ⟨target, htarget⟩ := Option.isSome_iff_exists.mp hassign
  unfold Statement.execute at hends
  obtain ⟨v, between, hvalue, hends⟩ := ends_bind_ok.mp hends
  rw [htarget] at hends
  obtain ⟨_, bound, hmodify, hends⟩ := ends_bind_ok.mp hends
  rw [ends_pure] at hends
  obtain ⟨-, rfl⟩ := ends_modify.mp hmodify
  rw [hends.2]
  -- Evaluation binds nothing, so the other names keep their values.
  have hbetween : Binds forcing env (equations statements) between :=
    h.of_grows (statement.value.evaluate_keeps hforcing env _ _ _ hvalue)
  -- The name that is assigned has a new equation and a new value; the others have neither.
  refine ⟨?_, fun name t ht => ?_⟩
  · rw [Store.live?_bind, Option.isSome_map]
    exact hbetween.live
  · rw [Store.visible?_bind hbetween.live]
    simp only [equations_append, htarget, Option.some.injEq] at ht
    split at ht
    · rename_i hname
      rw [← Option.some.inj ht, if_pos hname]
      exact ⟨v, store, between, hvalue, rfl⟩
    · rename_i hname
      rw [if_neg hname]
      exact hbetween.bound name t ht

theorem Binds.runAll {done statements : List Statement} {last r : Option Value}
    (hforcing : forcing.Keeps Store.Grows)
    (hassign : ∀ statement ∈ statements, statement.target.isSome)
    (h : Binds forcing env (equations done) store)
    (hends : (Script.runAll forcing env last statements).Ends store (.ok r) after) :
    Binds forcing env (equations (done ++ statements)) after := by
  induction statements generalizing done last store with
  | nil =>
    rw [Script.runAll, ends_pure] at hends
    rw [hends.2, List.append_nil]
    exact h
  | cons statement rest ih =>
    rw [Script.runAll] at hends
    obtain ⟨value, between, hstatement, hends⟩ := ends_bind_ok.mp hends
    have hstep := h.execute hforcing (hassign statement List.mem_cons_self) hstatement
    rw [List.append_cons]
    exact ih (fun other hother => hassign other (List.mem_cons_of_mem statement hother)) hstep hends

end Script

/-- Evaluation of an expression builds a value that stands, under the final bindings, for the datum
of the expression. -/
theorem Tree.Strict.evaluate_means {forcing : Forcing} {env : EnvId} {equations : Equations}
    {store : Store} {t : Tree} {d : Datum} (h : t.Strict equations d)
    (hbinds : Script.Binds forcing env equations store)
    (hequations : ∀ name t, equations name = some t → t.Plain) {bound : Nat} {v : Value}
    {before after : Store} (hplain : t.Plain) (hbound : ∀ n, t.Path equations n → n ≤ bound)
    (hends : (t.evaluate forcing env).Ends before (.ok v) after) : v.Means store d bound := by
  induction h generalizing bound v before after with
  | int n =>
    rw [evaluate, ends_pure_ok] at hends
    rw [hends.1]
    exact .int n bound
  | text s =>
    rw [evaluate, ends_pure_ok] at hends
    rw [hends.1]
    exact .text s bound
  | @name s t d heq _ ih =>
    cases hplain with
    | name hreserved =>
      rw [evaluate, ends_pure_ok, readName, hreserved] at hends
      -- The value of its equation was built at another time, but it is bound now.
      obtain ⟨w, start, stop, hw, hvisible⟩ := hbinds.bound s t heq
      have hone : 1 ≤ bound := hbound 1 (.name heq (.stop t))
      have hrest : ∀ n, t.Path equations n → n ≤ bound - 1 :=
        fun n hn => Nat.le_sub_one_of_lt (hbound (n + 1) (.name heq hn))
      have hmeans : w.Means store d (bound - 1) := ih (hequations s t heq) hrest hw
      rw [hends.1, ← Nat.sub_add_cancel hone]
      exact .symbol hvisible hmeans
  | nil =>
    rw [evaluate, evaluateItems, pure_bind, ends_pure_ok] at hends
    rw [hends.1]
    exact .nil bound
  | @cons item items d ds _ _ ih ihs =>
    cases hplain with
    | list hitems =>
      obtain ⟨hitem, hrest⟩ := List.forall_mem_cons.mp hitems
      rw [evaluate, evaluateItems, bind_assoc] at hends
      obtain ⟨w, between, hw, hends⟩ := ends_bind_ok.mp hends
      rw [bind_assoc] at hends
      obtain ⟨ws, last, hws, hends⟩ := ends_bind_ok.mp hends
      rw [pure_bind, ends_pure_ok] at hends
      rw [hends.1]
      refine .cons (ih hitem (fun n hn => hbound n (.item List.mem_cons_self hn)) hw) ?_
      -- The rest of the items is evaluated as the list of them is.
      refine ihs (.list hrest) (fun n hn => ?_) (hws.bind (ends_pure_self _ _))
      cases hn with
      | stop => exact Nat.zero_le bound
      | item hmem hn => exact hbound n (.item (List.mem_cons_of_mem item hmem) hn)
  | @negate operand n d _ hnegate ih =>
    cases hplain with
    | negate hoperand =>
      rw [evaluate] at hends
      obtain ⟨w, between, hw, hends⟩ := ends_bind_ok.mp hends
      -- A negation is a difference from zero.
      have hone : 1 ≤ bound := hbound 1 (.negate (.stop operand))
      have hzero : Datum.combine? .subtract (.int (0 : Int64).toInt) (.int n) = some d := by
        rw [Datum.combine?, Int64.toInt_zero, Int.zero_sub, hnegate]
      have hrest : ∀ n, operand.Path equations n → n ≤ bound - 1 :=
        fun n hn => Nat.le_sub_one_of_lt (hbound (n + 1) (.negate hn))
      have hv := (Value.Means.int 0 (bound - 1)).combine (ih hoperand hrest hw) hzero hends
      rwa [Nat.sub_add_cancel hone] at hv
  | @arithmetic operator left right a b d _ _ hcombine ihleft ihright =>
    cases hplain with
    | arithmetic hleft hright =>
      rw [evaluate] at hends
      obtain ⟨w, between, hw, hends⟩ := ends_bind_ok.mp hends
      obtain ⟨w', last, hw', hends⟩ := ends_bind_ok.mp hends
      have hone : 1 ≤ bound := hbound 1 (.left (.stop left))
      have hrestleft : ∀ n, left.Path equations n → n ≤ bound - 1 :=
        fun n hn => Nat.le_sub_one_of_lt (hbound (n + 1) (.left hn))
      have hrestright : ∀ n, right.Path equations n → n ≤ bound - 1 :=
        fun n hn => Nat.le_sub_one_of_lt (hbound (n + 1) (.right hn))
      have hv := (ihleft hleft hrestleft hw).combine (ihright hright hrestright hw') hcombine hends
      rwa [Nat.sub_add_cancel hone] at hv

namespace Script

/-! ## 4. Late binding -/

/-- After a run of assignments, a name that is not reserved resolves to the datum that its last
assignment stands for when the last assignments are evaluated strictly, unless the limit on depth
is met; and with at most `depthLimit` operators and names on every path from it, it is not met. -/
theorem resolve_assigned {source : String} {statements : List Statement} {patience : Nat}
    {env : EnvId} {store after : Store} {x : String} {d : Datum}
    (hparse : parse source = .ok statements)
    (hassign : ∀ statement ∈ statements, statement.AssignsPlain)
    (hlive : (store.live? env).isSome)
    (hrun : (Script.run (.top patience) env source).Ends store (.ok ()) after)
    (hx : reserved? x = none) (hstrict : (Tree.name x).Strict (equations statements) d) :
    (((readName env x).resolve patience depthLimit).Ends after (.ok d.value) after ∨
      ((readName env x).resolve patience depthLimit).Ends after (.error .tooDeep) after) ∧
    ((∀ n, (Tree.name x).Path (equations statements) n → n ≤ depthLimit) →
      ((readName env x).resolve patience depthLimit).Ends after (.ok d.value) after) := by
  have hforcing : (Forcing.top patience).Keeps Store.Grows :=
    Value.resolve_keeps patience depthLimit
  have hbinds : Binds (.top patience) env (equations statements) after := by
    obtain ⟨result, hexecute, hresult⟩ := run_ends.mp hrun
    cases result with
    | error failure => cases hresult
    | ok last =>
      rw [Script.execute, Script.read, hparse, pure_bind] at hexecute
      have hstart : Binds (.top patience) env (equations []) store :=
        ⟨hlive, fun name t ht => nomatch ht⟩
      exact hstart.runAll hforcing (fun statement hmem => (hassign statement hmem).1) hexecute
  have hname : ((Tree.name x).evaluate (.top patience) env).Ends after (.ok (readName env x))
      after := ends_pure_self _ _
  -- Whatever bounds the paths from the name also bounds the depth at which it is resolved.
  have hattains : ∀ bound, (∀ n, (Tree.name x).Path (equations statements) n → n ≤ bound) →
      ((readName env x).resolve patience depthLimit).Attains after d.value
        (depthLimit < bound) := by
    intro bound hbound
    have hmeans : (readName env x).Means after d bound :=
      hstrict.evaluate_means hbinds (fun _ _ => equations_plain hassign) (.name hx) hbound hname
    exact ((hmeans.resolve_attains patience).1 depthLimit).mono (or_self _).mp
  constructor
  · obtain ⟨bound, hbound⟩ := hstrict.path_bounded
    exact (hattains bound hbound).imp_right And.right
  · intro hshort
    exact (hattains depthLimit hshort).resolve_right fun h => Nat.lt_irrefl depthLimit h.1

/-- A name that is used before it is assigned. -/
theorem resolve_assigned_later :
    ∃ after, (Script.run (.top 0) 0 "b = a * 2; a = 3").Ends (.single []) (.ok ()) after ∧
      ((readName 0 "b").resolve 0 depthLimit).Ends after (.ok (.int 6)) after := by
  have hparse : parse "b = a * 2; a = 3" = .ok
      [⟨1, some "b", .arithmetic .multiply (.name "a") (.int 2)⟩, ⟨1, some "a", .int 3⟩] := by
    have htokens : tokenize "b = a * 2; a = 3" = .ok
        ⟨[⟨1, .name "b"⟩, ⟨1, .assign⟩, ⟨1, .name "a"⟩, ⟨1, .star⟩, ⟨1, .integer 2⟩,
          ⟨1, .separator⟩, ⟨1, .name "a"⟩, ⟨1, .assign⟩, ⟨1, .integer 3⟩], 1⟩ := by
      decide +kernel
    rw [parse, htokens]
    rfl
  have hrun : ∃ after,
      (Script.run (.top 0) 0 "b = a * 2; a = 3").Ends (.single []) (.ok ()) after := by
    rw [Script.run, Script.read, hparse]
    exact ⟨_, rfl⟩
  obtain ⟨after, hrun⟩ := hrun
  have hlive : ((Store.single []).live? 0).isSome := rfl
  have hx : reserved? "b" = none := rfl
  have hstrict : (Tree.name "b").Strict (equations
      [⟨1, some "b", .arithmetic .multiply (.name "a") (.int 2)⟩, ⟨1, some "a", .int 3⟩])
      (.int 6) :=
    .name rfl (.arithmetic (.name rfl (.int 3)) (.int 2) rfl)
  refine ⟨after, hrun, (resolve_assigned hparse ?_ hlive hrun hx hstrict).2 ?_⟩
  · intro statement hmem
    simp only [List.mem_cons, List.not_mem_nil, or_false] at hmem
    rcases hmem with rfl | rfl
    · exact ⟨rfl, .arithmetic (.name rfl) (.int 2)⟩
    · exact ⟨rfl, .int 3⟩
  · intro n hn
    cases hn with
    | stop => decide
    | name hb hn =>
      obtain rfl := Option.some.inj hb
      cases hn with
      | stop => decide
      | left hn =>
        cases hn with
        | stop => decide
        | name ha hn =>
          obtain rfl := Option.some.inj ha
          cases hn
          decide
      | right hn =>
        cases hn
        decide

/-- An assignment to a reserved name is never seen: the name keeps its own value. -/
theorem resolve_assigned_reserved :
    ∃ statements after, parse "len = 5" = .ok statements ∧
      (∀ statement ∈ statements, statement.AssignsPlain) ∧
      (Script.run (.top 0) 0 "len = 5").Ends (.single []) (.ok ()) after ∧
      (Tree.name "len").Strict (equations statements) (.int 5) ∧
      ((readName 0 "len").resolve 0 depthLimit).Ends after (.ok (.function (.eager .len))) after ∧
      ¬ (((readName 0 "len").resolve 0 depthLimit).Ends after (.ok (.int 5)) after ∨
        ((readName 0 "len").resolve 0 depthLimit).Ends after (.error .tooDeep) after) := by
  have hparse : parse "len = 5" = .ok [⟨1, some "len", .int 5⟩] := by
    have htokens : tokenize "len = 5" =
        .ok ⟨[⟨1, .name "len"⟩, ⟨1, .assign⟩, ⟨1, .integer 5⟩], 1⟩ := by
      decide +kernel
    rw [parse, htokens]
    rfl
  have hrun : ∃ after,
      (Script.run (.top 0) 0 "len = 5").Ends (.single []) (.ok ()) after := by
    rw [Script.run, Script.read, hparse]
    exact ⟨_, rfl⟩
  obtain ⟨after, hrun⟩ := hrun
  have hfunction : ((readName 0 "len").resolve 0 depthLimit).Ends after
      (.ok (.function (.eager .len))) after := rfl
  refine ⟨_, after, hparse, ?_, hrun, .name rfl (.int 5), hfunction, ?_⟩
  · intro statement hmem
    obtain rfl := List.mem_singleton.mp hmem
    exact ⟨rfl, .int 5⟩
  · rintro (h | h)
    · cases (hfunction.unique h).1
    · cases (hfunction.unique h).1

end Script

end Deferral
