import Deferral.Proofs.Output

/-!
# A sink that fills up

The same computation is run twice, once into an unbounded sink and once into a sink that takes a
number of bytes.  Up to the first print that does not fit, both runs do the same.  From there on
they may go apart, but nothing more is taken.  So the bounded sink takes the beginning of what the
other one takes (`Eval.Truncates`).
-/

namespace Deferral

open Eval

theorem ByteArray.extract_of_size_le {bytes : ByteArray} {n : Nat} (h : bytes.size ≤ n) :
    bytes.extract 0 n = bytes := by
  rw [← Nat.max_eq_left h]
  exact ByteArray.extract_zero_max_size

namespace Store

/-! ## 1. Stores that differ in the room of a sink -/

def withRoom (env : EnvId) (room : Option Nat) : Store → Store :=
  modifyEnvironment env fun environment => { environment with room := room }

variable {store store' after after' : Store} {env other : EnvId} {total : Nat}

theorem live?_withRoom (env other : EnvId) (room : Option Nat) (store : Store) :
    (store.withRoom env room).live? other = (store.live? other).map fun environment =>
      if env = other then { environment with room := room } else environment := by
  simp only [live?, withRoom, modifyEnvironment, List.getElem?_modify]
  cases store.environments[other]? with
  | none => rfl
  | some environment =>
    by_cases hother : env = other <;> cases hlive : environment.live <;>
      simp [hother, hlive, Option.filter]

theorem withRoom_modifyEnvironment {change : Environment → Environment}
    (hchange : ∀ environment room,
      change { environment with room := room } = { change environment with room := room })
    (env other : EnvId) (room : Option Nat) (store : Store) :
    (store.withRoom env room).modifyEnvironment other change =
      (store.modifyEnvironment other change).withRoom env room := by
  simp only [withRoom, modifyEnvironment, Store.mk.injEq, and_true]
  refine List.ext_getElem? fun i => ?_
  simp only [List.getElem?_modify]
  cases store.environments[i]? with
  | none => rfl
  | some environment =>
    by_cases hi : env = i <;> by_cases hi' : other = i <;> simp [hi, hi']
    exact hchange environment room

theorem room?_modifyEnvironment {change : Environment → Environment}
    (hchange : ∀ environment, (change environment).room = environment.room) (env other : EnvId)
    (store : Store) : (store.modifyEnvironment other change).room? env = store.room? env := by
  simp only [room?, modifyEnvironment, List.getElem?_modify]
  cases store.environments[env]? with
  | none => rfl
  | some environment => by_cases hi : other = env <;> simp [hi, hchange]

theorem printed_withRoom_of_ne (hother : other ≠ env) (room : Option Nat) (text : String)
    (store : Store) :
    (store.withRoom env room).printed other text =
      (store.printed other text).withRoom env room := by
  have hroom : (store.withRoom env room).room? other = store.room? other := by
    simp only [room?, withRoom, modifyEnvironment, List.getElem?_modify, if_neg hother.symm]
    simp
  simp only [printed, hroom]
  simp only [withRoom, modifyEnvironment, Store.mk.injEq, and_true]
  refine List.ext_getElem? fun i => ?_
  simp only [List.getElem?_modify]
  cases store.environments[i]? with
  | none => rfl
  | some environment =>
    by_cases hi : env = i
    · have hi' : other ≠ i := hi ▸ hother
      simp [hi, hi']
    · simp [hi]

theorem printed_withRoom_self {environment : Environment} {room : Nat} {text : String}
    (hlive : store.live? env = some environment) (hroom : environment.room = none)
    (hfits : text.utf8ByteSize ≤ room) :
    (store.withRoom env (some room)).printed env text =
      (store.printed env text).withRoom env (some (room - text.utf8ByteSize)) := by
  have hlive' : (store.withRoom env (some room)).live? env =
      some { environment with room := some room } := by
    rw [live?_withRoom, hlive]
    simp
  have htaken : takenBytes (some room) text = takenBytes none text :=
    ByteArray.extract_of_size_le (by simpa using hfits)
  simp only [printed, room?_of_live hlive', room?_of_live hlive, hroom, htaken]
  simp only [withRoom, modifyEnvironment, Store.mk.injEq, and_true, List.modify_modify_eq]
  rfl

/-! ## 2. Two runs -/

/-- The stores of two runs that have done the same so far, the second one into a sink that takes
`total` bytes of all that its environment prints. -/
structure Same (env : EnvId) (total : Nat) (store store' : Store) : Prop where
  unbounded : store.room? env = none
  bounded : ∃ room, store' = store.withRoom env (some room) ∧
    (store.printedBy env).size + room = total

structure Full (env : EnvId) (total : Nat) (store store' : Store) : Prop where
  unbounded : store.room? env = none
  full : store'.room? env = some 0
  reached : total ≤ (store.printedBy env).size
  output : store'.printedBy env = (store.printedBy env).extract 0 total

theorem same_withRoom (env : EnvId) (n : Nat) (store : Store) :
    Same env ((store.printedBy env).size + n) (store.withRoom env none)
      (store.withRoom env (some n)) where
  unbounded := by
    simp only [room?, withRoom, modifyEnvironment, List.getElem?_modify]
    cases store.environments[env]? <;> simp
  bounded := by
    refine ⟨n, ?_, rfl⟩
    simp only [withRoom, modifyEnvironment, Store.mk.injEq, and_true, List.modify_modify_eq]
    rfl

/-- What the bounded sink took of it all, if it is not full. -/
theorem Same.output (h : Same env total store store') :
    store'.printedBy env = (store.printedBy env).extract 0 total := by
  obtain ⟨-, room, rfl, htotal⟩ := h
  rw [ByteArray.extract_of_size_le (by omega)]
  rfl

def Prints (env : EnvId) (before after : Store) : Prop :=
  ∃ text, after.printedBy env = before.printedBy env ++ takenBytes (before.room? env) text ∧
    after.room? env = roomAfter (before.room? env) text

theorem Prints.of_silent {before : Store} (hroom : after.room? env = before.room? env)
    (htranscript : after.transcript = before.transcript) : before.Prints env after := by
  refine ⟨"", ?_, ?_⟩
  · rw [takenBytes_empty, ByteArray.append_empty, printedBy, printedBy, htranscript]
  · rw [roomAfter_empty, hroom]

instance : IsPreorder Store (Prints env) where
  refl _ := .of_silent rfl rfl
  trans a b c := by
    rintro ⟨text, hprinted, hroom⟩ ⟨text', hprinted', hroom'⟩
    refine ⟨text ++ text', ?_, ?_⟩
    · rw [hprinted', hprinted, hroom, takenBytes_append, ByteArray.append_assoc]
    · rw [hroom', hroom, roomAfter_append]

instance : Admits (Prints env) where
  freshNode store outcome after h :=
    (Admits.freshNode (R := OnlyPrints) store outcome after h).output env
  print other text store outcome after h :=
    (Admits.print (R := OnlyPrints) other text store outcome after h).output env

theorem Prints.unbounded (h : store.Prints env after) (hroom : store.room? env = none) :
    after.room? env = none ∧ ∃ text : String,
      after.printedBy env = store.printedBy env ++ text.toUTF8 := by
  obtain ⟨text, hprinted, hafter⟩ := h
  rw [hroom] at hprinted hafter
  exact ⟨hafter, text, hprinted⟩

theorem Prints.full (h : store.Prints env after) (hroom : store.room? env = some 0) :
    after.room? env = some 0 ∧ after.printedBy env = store.printedBy env := by
  obtain ⟨text, hprinted, hafter⟩ := h
  rw [hroom] at hprinted hafter
  refine ⟨by simpa [roomAfter] using hafter, ?_⟩
  rw [hprinted]
  simp [takenBytes]

/-- Once the sink is full, it does not matter what either run does. -/
theorem Full.prints (h : Full env total store store') (hafter : store.Prints env after)
    (hafter' : store'.Prints env after') : Full env total after after' := by
  obtain ⟨hunbounded, text, hprinted⟩ := hafter.unbounded h.unbounded
  obtain ⟨hfull, hprinted'⟩ := hafter'.full h.full
  have hreached := h.reached
  refine ⟨hunbounded, hfull, ?_, ?_⟩
  · rw [hprinted, ByteArray.size_append]
    omega
  · rw [hprinted', h.output, hprinted, ByteArray.extract_append, Nat.sub_eq_zero_of_le hreached]
    simp

end Store

namespace Eval

variable {α β : Type} {env : EnvId} {action : Eval α}

/-- Two runs of a computation, into an unbounded sink and into a bounded one, do the same unless
they fill the bounded one. -/
structure Truncates (env : EnvId) (action : Eval α) : Prop where
  prints : action.Keeps (Store.Prints env)
  same : ∀ total store store', Store.Same env total store store' →
    ∀ outcome after outcome' after', action.Ends store outcome after →
      action.Ends store' outcome' after' →
        (outcome = outcome' ∧ Store.Same env total after after') ∨ Store.Full env total after after'

/-! ## 3. Ways to put computations together -/

/-- A computation that does the same from every two such stores. -/
theorem truncates_of_ends (hprints : action.Keeps (Store.Prints env))
    (h : ∀ total store store', Store.Same env total store store' → ∃ outcome after after',
      action.Ends store outcome after ∧ action.Ends store' outcome after' ∧
        Store.Same env total after after') : action.Truncates env := by
  refine ⟨hprints, fun total store store' hstores outcome after outcome' after' hends hends' => ?_⟩
  obtain ⟨result, between, between', hrun, hrun', hsame⟩ := h _ _ _ hstores
  obtain ⟨rfl, rfl⟩ := hends.unique hrun
  obtain ⟨rfl, rfl⟩ := hends'.unique hrun'
  exact .inl ⟨rfl, hsame⟩

theorem truncates_pure (a : α) : (pure a : Eval α).Truncates env :=
  truncates_of_ends (keeps_pure a) fun _ store store' hstores =>
    ⟨_, _, _, ends_pure_self a store, ends_pure_self a store', hstores⟩

theorem truncates_throw (failure : Failure) : (throw failure : Eval α).Truncates env :=
  truncates_of_ends (keeps_throw failure) fun _ _ _ hstores =>
    ⟨_, _, _, ends_throw.mpr ⟨rfl, rfl⟩, ends_throw.mpr ⟨rfl, rfl⟩, hstores⟩

theorem truncates_outOfFuel : (outOfFuel : Eval α).Truncates env :=
  ⟨keeps_outOfFuel, fun _ _ _ _ _ _ _ _ hends => absurd hends ends_outOfFuel⟩

theorem Ends.of_bind {next : α → Eval β} {store after : Store} {outcome : Except Failure β}
    (h : (action >>= next).Ends store outcome after) : ∃ result between,
      action.Ends store result between ∧ (ofExcept result >>= next).Ends between outcome after := by
  obtain ⟨a, between, ha, hnext⟩ | ⟨failure, hfailure, rfl⟩ := ends_bind.mp h
  · exact ⟨.ok a, between, ha, Ends.bind (ends_ofExcept.mpr ⟨rfl, rfl⟩) hnext⟩
  · exact ⟨.error failure, after, hfailure, Ends.bind_error (ends_ofExcept.mpr ⟨rfl, rfl⟩)⟩

theorem truncates_bind {next : α → Eval β} (h : action.Truncates env)
    (hnext : ∀ a, (next a).Truncates env) : (action >>= next).Truncates env := by
  have hrest (result : Except Failure α) : (ofExcept result >>= next).Keeps (Store.Prints env) :=
    keeps_bind (keeps_ofExcept result) fun a => (hnext a).prints
  refine ⟨keeps_bind h.prints fun a => (hnext a).prints, ?_⟩
  intro total store store' hstores outcome after outcome' after' hends hends'
  obtain ⟨result, between, hfirst, hsecond⟩ := hends.of_bind
  obtain ⟨result', between', hfirst', hsecond'⟩ := hends'.of_bind
  obtain ⟨rfl, hsame⟩ | hfull := h.same _ _ _ hstores _ _ _ _ hfirst hfirst'
  · cases result with
    | ok a =>
      have hok {store : Store} : (ofExcept (.ok a)).Ends store (.ok a) store :=
        ends_ofExcept.mpr ⟨rfl, rfl⟩
      exact (hnext a).same _ _ _ hsame _ _ _ _ (hok.bind_iff.mp hsecond) (hok.bind_iff.mp hsecond')
    | error failure =>
      have hfailed {store : Store} :
          (ofExcept (.error failure) >>= next).Ends store (.error failure) store :=
        Ends.bind_error (ends_ofExcept.mpr ⟨rfl, rfl⟩)
      obtain ⟨rfl, rfl⟩ := hsecond.unique hfailed
      obtain ⟨rfl, rfl⟩ := hsecond'.unique hfailed
      exact .inl ⟨rfl, hsame⟩
  -- The runs may go apart here: one may have failed, and results may differ.
  · exact .inr (hfull.prints (hrest result _ _ _ hsecond) (hrest result' _ _ _ hsecond'))

theorem truncates_attempt (h : action.Truncates env) : (attempt action).Truncates env := by
  refine ⟨keeps_attempt h.prints, ?_⟩
  intro total store store' hstores outcome after outcome' after' hends hends'
  obtain ⟨result, rfl, hrun⟩ := ends_attempt.mp hends
  obtain ⟨result', rfl, hrun'⟩ := ends_attempt.mp hends'
  obtain ⟨rfl, hsame⟩ | hfull := h.same _ _ _ hstores _ _ _ _ hrun hrun'
  · exact .inl ⟨rfl, hsame⟩
  · exact .inr hfull

theorem truncates_freshNode : freshNode.Truncates env := by
  refine truncates_of_ends Admits.freshNode fun total store store' hstores => ?_
  obtain ⟨hunbounded, room, rfl, htotal⟩ := hstores
  exact ⟨_, _, _, ends_freshNode.mpr ⟨rfl, rfl⟩, ends_freshNode.mpr ⟨rfl, rfl⟩,
    hunbounded, room, rfl, htotal⟩

theorem truncates_modify (other : EnvId) {change : Environment → Environment}
    (hchange : ∀ environment room,
      change { environment with room := room } = { change environment with room := room }) :
    (modify (Store.modifyEnvironment other change) : Eval PUnit).Truncates env := by
  have hroom (environment : Environment) : (change environment).room = environment.room := by
    have hsame : change environment = { change environment with room := environment.room } :=
      hchange environment environment.room
    rw [hsame]
  refine truncates_of_ends (keeps_modify fun store => ?_) fun total store store' hstores => ?_
  · exact .of_silent (Store.room?_modifyEnvironment hroom env other store) rfl
  · obtain ⟨hunbounded, room, rfl, htotal⟩ := hstores
    refine ⟨_, _, _, ends_modify.mpr ⟨rfl, rfl⟩, ends_modify.mpr ⟨rfl, rfl⟩, ?_, room, ?_, htotal⟩
    · rw [Store.room?_modifyEnvironment hroom, hunbounded]
    · exact Store.withRoom_modifyEnvironment hchange env other _ store

/-- What follows depends on an environment, but not on the room in its sink. -/
theorem truncates_environment (other : EnvId) {next : Environment → Eval β}
    (hroom : ∀ environment room, next { environment with room := room } = next environment)
    (hnext : ∀ environment, (next environment).Truncates env) :
    (environment other >>= next).Truncates env := by
  refine ⟨keeps_bind (keeps_environment other) fun a => (hnext a).prints, ?_⟩
  intro total store store' hstores outcome after outcome' after' hends hends'
  obtain ⟨hunbounded, room, rfl, htotal⟩ := id hstores
  cases hlive : store.live? other with
  | none =>
    have hlive' : (store.withRoom env (some room)).live? other = none := by
      rw [Store.live?_withRoom, hlive]
      rfl
    have hfailed {store : Store} (hgone : store.live? other = none) :
        (environment other >>= next).Ends store (.error .detached) store :=
      Ends.bind_error (ends_environment.mpr ⟨by rw [hgone]; rfl, rfl⟩)
    obtain ⟨rfl, rfl⟩ := hends.unique (hfailed hlive)
    obtain ⟨rfl, rfl⟩ := hends'.unique (hfailed hlive')
    exact .inl ⟨rfl, hstores⟩
  | some found =>
    have hlive' := Store.live?_withRoom env other (some room) store
    rw [hlive, Option.map_some] at hlive'
    have hfound : (environment other).Ends store (.ok found) store :=
      ends_environment_ok.mpr ⟨hlive, rfl⟩
    have hfound' := ends_environment_ok.mpr ⟨hlive', rfl⟩
    rw [hfound.bind_iff] at hends
    rw [hfound'.bind_iff] at hends'
    have hnext' : next (if env = other then { found with room := some room } else found) =
        next found := by
      split
      · exact hroom found (some room)
      · rfl
    rw [hnext'] at hends'
    exact (hnext found).same _ _ _ hstores _ _ _ _ hends hends'

theorem truncates_print (other : EnvId) (text : String) : (print other text).Truncates env := by
  refine ⟨Admits.print other text, ?_⟩
  intro total store store' hstores outcome after outcome' after' hends hends'
  obtain ⟨hunbounded, room, rfl, htotal⟩ := id hstores
  have hlive' := Store.live?_withRoom env other (some room) store
  cases hlive : store.live? other with
  | none =>
    rw [hlive, Option.map_none] at hlive'
    obtain ⟨rfl, rfl⟩ := (print_ends_detached hlive).mp hends
    obtain ⟨rfl, rfl⟩ := (print_ends_detached hlive').mp hends'
    exact .inl ⟨rfl, hstores⟩
  | some found =>
    rw [hlive, Option.map_some] at hlive'
    obtain ⟨rfl, rfl⟩ := (print_ends hlive).mp hends
    obtain ⟨rfl, rfl⟩ := (print_ends hlive').mp hends'
    by_cases hother : env = other
    · subst hother
      have hroom : found.room = none := by rw [← Store.room?_of_live hlive, hunbounded]
      have hroom' : (store.withRoom env (some room)).room? env = some room := by
        rw [Store.room?_of_live hlive', if_pos rfl]
      have hafter : (store.printed env text).room? env = none := by
        rw [Store.room?_printed, if_pos rfl, hunbounded]
        rfl
      have hprinted : (store.printed env text).printedBy env =
          store.printedBy env ++ text.toUTF8 := by
        rw [Store.printedBy_printed, if_pos rfl, hunbounded]
        rfl
      have hsize : text.toUTF8.size = text.utf8ByteSize := by simp
      by_cases hfits : text.utf8ByteSize ≤ room
      -- All of the text is taken in both runs.
      · have htaken : takenBytes (some room) text = takenBytes none text :=
          ByteArray.extract_of_size_le (by rwa [hsize])
        refine .inl ⟨?_, hafter, room - text.utf8ByteSize, ?_, ?_⟩
        · rw [if_pos rfl, hroom, htaken]
        · exact Store.printed_withRoom_self hlive hroom hfits
        · rw [hprinted, ByteArray.size_append, hsize]
          omega
      -- The bounded sink takes as much as it has room for.
      · refine .inr ⟨hafter, ?_, ?_, ?_⟩
        · rw [Store.room?_printed, if_pos rfl, hroom']
          show some (room - text.utf8ByteSize) = some 0
          rw [Nat.sub_eq_zero_of_le (by omega)]
        · rw [hprinted, ByteArray.size_append, hsize]
          omega
        · rw [Store.printedBy_printed, if_pos rfl, hroom', hprinted, ByteArray.extract_append,
            ByteArray.extract_of_size_le (by omega), ← htotal, Nat.zero_sub,
            Nat.add_sub_cancel_left]
          rfl
    · rw [if_neg hother]
      refine .inl ⟨rfl, ?_, room, ?_, ?_⟩
      · rw [Store.room?_printed, if_neg (Ne.symm hother), hunbounded]
      · exact Store.printed_withRoom_of_ne (Ne.symm hother) _ text store
      · rw [Store.printedBy_printed, if_neg (Ne.symm hother), ByteArray.append_empty, htotal]

end Eval

end Deferral
