import Deferral.Proofs.Growth

/-!
# Output

What printing does to the store, with and without a bound on the sink (`Eval.print_ends`).  All that
an environment prints one after the other is one text, of which the sink takes what fits
(`Store.OnlyPrints`).
-/

namespace Deferral

open Eval

/-! ## 1. Sinks -/

def Store.room? (store : Store) (env : EnvId) : Option Nat :=
  store.environments[env]?.bind (·.room)

def takenBytes (room : Option Nat) (text : String) : ByteArray :=
  match room with
  | none => text.toUTF8
  | some room => text.toUTF8.extract 0 room

def roomAfter (room : Option Nat) (text : String) : Option Nat :=
  room.map (· - text.utf8ByteSize)

theorem takenBytes_empty (room : Option Nat) : takenBytes room "" = ByteArray.empty := by
  cases room <;> simp [takenBytes]

theorem roomAfter_empty (room : Option Nat) : roomAfter room "" = room := by
  cases room <;> simp [roomAfter]

/-- One text after another is taken like both of them at once. -/
theorem takenBytes_append (room : Option Nat) (text text' : String) :
    takenBytes room (text ++ text') =
      takenBytes room text ++ takenBytes (roomAfter room text) text' := by
  cases room with
  | none => simp [takenBytes, roomAfter]
  | some room => simp [takenBytes, roomAfter, ByteArray.extract_append]

theorem roomAfter_append (room : Option Nat) (text text' : String) :
    roomAfter room (text ++ text') = roomAfter (roomAfter room text) text' := by
  cases room with
  | none => rfl
  | some room => simp [roomAfter, Nat.sub_add_eq]

namespace Store

/-! ## 2. Printing -/

def printed (env : EnvId) (text : String) (store : Store) : Store :=
  let taken := takenBytes (store.room? env) text
  { store with
    environments := store.environments.modify env fun environment =>
      { environment with room := roomAfter environment.room text }
    transcript := store.transcript ++ if taken.size = 0 then [] else [.printed env taken] }

variable {store : Store} {env : EnvId} {environment : Environment}

theorem room?_of_live (hlive : store.live? env = some environment) :
    store.room? env = environment.room := by
  rw [room?, (Option.filter_eq_some_iff.mp hlive).1]
  rfl

theorem modify_of_live (change : Environment → Environment)
    (hlive : store.live? env = some environment) :
    store.environments.modify env change = store.environments.set env (change environment) := by
  have henv : store.environments[env]? = some environment :=
    (Option.filter_eq_some_iff.mp hlive).1
  refine List.ext_getElem? fun i => ?_
  rw [List.getElem?_modify, List.getElem?_set]
  by_cases hi : env = i
  · subst hi
    rw [henv]
    simp [(List.getElem?_eq_some_iff.mp henv).1]
  · simp [hi]

theorem set_room_of_live {room : Option Nat} (hlive : store.live? env = some environment)
    (hroom : room = environment.room) :
    store.environments.set env { environment with room := room } = store.environments := by
  obtain ⟨hin, heq⟩ := List.getElem?_eq_some_iff.mp (Option.filter_eq_some_iff.mp hlive).1
  rw [hroom, ← heq]
  exact List.set_getElem_self hin

theorem printed_of_live (hlive : store.live? env = some environment) (text : String) :
    store.printed env text =
      { store with
        environments := store.environments.set env
          { environment with room := roomAfter environment.room text }
        transcript := store.transcript ++
          if (takenBytes environment.room text).size = 0 then []
          else [.printed env (takenBytes environment.room text)] } := by
  rw [printed, room?_of_live hlive, modify_of_live _ hlive]

theorem room?_printed (env other : EnvId) (text : String) (store : Store) :
    (store.printed env text).room? other =
      if env = other then roomAfter (store.room? other) text else store.room? other := by
  simp only [room?, printed, List.getElem?_modify]
  cases store.environments[other]? with
  | none => simp [roomAfter]
  | some environment => by_cases hother : env = other <;> simp [hother]

theorem live?_printed (env other : EnvId) (text : String) (store : Store) :
    (store.printed env text).live? other = (store.live? other).map fun environment =>
      if env = other then { environment with room := roomAfter environment.room text }
      else environment := by
  simp only [live?, printed, List.getElem?_modify]
  cases store.environments[other]? with
  | none => rfl
  | some environment =>
    by_cases hother : env = other <;> cases hlive : environment.live <;>
      simp [hother, hlive, Option.filter]

theorem printedBy_printed (env other : EnvId) (text : String) (store : Store) :
    (store.printed env text).printedBy other = store.printedBy other ++
      if env = other then takenBytes (store.room? env) text else ByteArray.empty := by
  unfold printedBy printed
  dsimp only
  rw [List.foldl_append]
  split
  · rename_i hsize
    rw [ByteArray.size_eq_zero_iff.mp hsize]
    simp
  · by_cases hother : env = other <;> simp [hother]

end Store

/-- Printing succeeds if all of the text is taken, and what is taken is printed in any case. -/
theorem Eval.print_ends {env : EnvId} {text : String} {environment : Environment}
    {store after : Store} {outcome : Except Failure Unit}
    (hlive : store.live? env = some environment) :
    (print env text).Ends store outcome after ↔
      outcome = (if (takenBytes environment.room text).size < text.utf8ByteSize
        then .error .sinkFull else .ok ()) ∧ after = store.printed env text := by
  have henv : (Eval.environment env).Ends store (.ok environment) store :=
    ends_environment_ok.mpr ⟨hlive, rfl⟩
  unfold Eval.print
  rw [henv.bind_iff, Store.printed_of_live hlive]
  cases hroom : environment.room with
  | none =>
    rw [Store.set_room_of_live hlive (by rw [hroom]; rfl)]
    by_cases hsize : text = "" <;> simp [takenBytes, hsize]
  | some room =>
    rw [show takenBytes (some room) text = text.toUTF8.extract 0 room from rfl]
    dsimp only
    have hsize : (text.toUTF8.extract 0 room).size = min room text.utf8ByteSize := by
      simp [ByteArray.size_extract]
    generalize text.toUTF8.extract 0 room = taken at hsize ⊢
    have hbytes : text.toUTF8.size = text.utf8ByteSize := by simp
    have hrest : roomAfter (some room) text = some (room - taken.size) := by
      rw [roomAfter, Option.map_some, hsize]
      congr 1
      omega
    have hrefuse (store : Store) : (if taken.size < text.utf8ByteSize then throw .sinkFull
        else pure () : Eval Unit).Ends store outcome after ↔ outcome =
          (if taken.size < text.utf8ByteSize then .error .sinkFull else .ok ()) ∧
            after = store := by
      split <;> simp
    rw [hrest, hbytes]
    by_cases hnone : taken.size = 0
    · rw [Store.set_room_of_live hlive (by rw [hroom, hnone, Nat.sub_zero]),
        if_neg (not_not.mpr hnone), hrefuse, if_pos hnone, List.append_nil]
    · rw [if_pos hnone, if_neg hnone, ends_bind]
      simp [ends_bind, hrefuse, Store.modifyEnvironment, Store.modify_of_live _ hlive]

/-- Nothing is printed into an environment that is gone. -/
theorem Eval.print_ends_detached {env : EnvId} {text : String} {store after : Store}
    {outcome : Except Failure Unit} (hlive : store.live? env = none) :
    (print env text).Ends store outcome after ↔ outcome = .error .detached ∧ after = store := by
  unfold Eval.print
  rw [ends_bind]
  simp [hlive, and_comm]

/-! ## 3. Runs that only print -/

/-- The second store has the environments of the first one, apart from the room in their sinks.
Each of them has printed one more text since, or as much of it as its sink took. -/
structure Store.OnlyPrints (before after : Store) : Prop where
  environments : after.environments.map Environment.withoutRoom =
    before.environments.map Environment.withoutRoom
  output : ∀ env, ∃ text,
    after.printedBy env = before.printedBy env ++ takenBytes (before.room? env) text ∧
      after.room? env = roomAfter (before.room? env) text

namespace Store.OnlyPrints

theorem of_silent {before after : Store} (henvironments : after.environments = before.environments)
    (htranscript : after.transcript = before.transcript) : before.OnlyPrints after where
  environments := by rw [henvironments]
  output env := by
    refine ⟨"", ?_, ?_⟩
    · rw [takenBytes_empty, ByteArray.append_empty, printedBy, printedBy, htranscript]
    · rw [roomAfter_empty, room?, room?, henvironments]

instance : IsPreorder Store OnlyPrints where
  refl _ := of_silent rfl rfl
  trans a b c h h' := by
    refine ⟨h'.environments.trans h.environments, fun env => ?_⟩
    obtain ⟨text, hprinted, hroom⟩ := h.output env
    obtain ⟨text', hprinted', hroom'⟩ := h'.output env
    refine ⟨text ++ text', ?_, ?_⟩
    · rw [hprinted', hprinted, hroom, takenBytes_append, ByteArray.append_assoc]
    · rw [hroom', hroom, roomAfter_append]

theorem printed (store : Store) (env : EnvId) (text : String) :
    store.OnlyPrints (store.printed env text) where
  environments := by
    refine List.ext_getElem? fun i => ?_
    rw [List.getElem?_map, List.getElem?_map, Store.printed, List.getElem?_modify]
    cases store.environments[i]? with
    | none => rfl
    | some environment => by_cases hi : env = i <;> simp [hi, Environment.withoutRoom]
  output other := by
    rw [printedBy_printed, room?_printed]
    by_cases hother : env = other
    · subst hother
      exact ⟨text, by rw [if_pos rfl], if_pos rfl⟩
    · refine ⟨"", ?_, ?_⟩
      · rw [if_neg hother, takenBytes_empty]
      · rw [if_neg hother, roomAfter_empty]

instance : Admits OnlyPrints where
  freshNode := by
    intro before outcome after h
    rw [(ends_freshNode.mp h).2]
    exact of_silent rfl rfl
  print := by
    intro env text before outcome after h
    cases hlive : before.live? env with
    | none =>
      rw [((print_ends_detached hlive).mp h).2]
      exact refl_of OnlyPrints before
    | some environment =>
      rw [((print_ends hlive).mp h).2]
      exact printed before env text

end Store.OnlyPrints

end Deferral
