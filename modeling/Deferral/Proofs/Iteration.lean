import Deferral.Proofs.NormalForm

/-!
# Following a sequence

A sequence is followed by a cursor, by `take` and by `list`, and all three see the same elements and
the same end (`Sequence.iteration`).  What they have in common is a run along the sequence that
gives some elements (`Sequence.Yields`) and then, it may be, none any more (`Sequence.Stops`).

Only what is asked for is forced: what stands behind the elements that are taken does not matter
(`Sequence.takeItems_chain`).
-/

namespace Deferral

open Eval

variable {forcing : Forcing} {store between after : Store} {rest remaining : Value}
  {items : List Value}

/-! ## 1. Runs along a sequence -/

namespace Sequence

/-- Followed from one store to another, what is left of a sequence gives some elements, one after
the other, and then something is left again. -/
inductive Yields (forcing : Forcing) : Store → Value → List Value → Value → Store → Prop
  | nil (store : Store) (rest : Value) : Yields forcing store rest [] rest store
  | cons {store between after : Store} {rest item following remaining : Value}
      {items : List Value} :
      (next? forcing rest).Ends store (.ok (some (item, following))) between →
      Yields forcing between following items remaining after →
      Yields forcing store rest (item :: items) remaining after

theorem yields_nil : Yields forcing store rest [] remaining after ↔
    remaining = rest ∧ after = store := by
  constructor
  · rintro ⟨⟩
    exact ⟨rfl, rfl⟩
  · rintro ⟨rfl, rfl⟩
    exact .nil _ _

theorem yields_cons {item : Value} : Yields forcing store rest (item :: items) remaining after ↔
    ∃ following between, (next? forcing rest).Ends store (.ok (some (item, following))) between ∧
      Yields forcing between following items remaining after := by
  constructor
  · intro h
    cases h with
    | cons hnext hyields => exact ⟨_, _, hnext, hyields⟩
  · exact fun ⟨_, _, hnext, hyields⟩ => .cons hnext hyields

def Stops (forcing : Forcing) (store : Store) (rest : Value) (failure? : Option Failure)
    (after : Store) : Prop :=
  (next? forcing rest).Ends store (failure?.elim (.ok none) .error) after

/-- The next element is found or the sequence stops, and then something else is done. -/
theorem next?_bind_ends {β : Type} {next : Option (Value × Value) → Eval β}
    {outcome : Except Failure β} : (next? forcing rest >>= next).Ends store outcome after ↔
      (∃ item following between,
        (next? forcing rest).Ends store (.ok (some (item, following))) between ∧
        (next (some (item, following))).Ends between outcome after) ∨
      ∃ failure? between, Stops forcing store rest failure? between ∧
        (failure?.elim (next none) throw).Ends between outcome after := by
  rw [ends_bind]
  constructor
  · rintro (⟨_ | ⟨item, following⟩, between, hnext, h⟩ | ⟨failure, hnext, rfl⟩)
    · exact .inr ⟨none, between, hnext, h⟩
    · exact .inl ⟨item, following, between, hnext, h⟩
    · exact .inr ⟨some failure, after, hnext, ends_throw.mpr ⟨rfl, rfl⟩⟩
  · rintro (⟨item, following, between, hnext, h⟩ | ⟨_ | failure, between, hstops, h⟩)
    · exact .inl ⟨_, between, hnext, h⟩
    · exact .inl ⟨none, between, hstops, h⟩
    · obtain ⟨rfl, rfl⟩ := ends_throw.mp h
      exact .inr ⟨failure, hstops, rfl⟩

/-- Followed for some rounds, a sequence gives an element in each of them, or it stops before. -/
def Rounds (forcing : Forcing) (n : Nat) (store : Store) (rest : Value)
    (given : List Value → Value → Store → Prop)
    (stopped : List Value → Option Failure → Store → Prop) : Prop :=
  (∃ items remaining after, items.length = n ∧ Yields forcing store rest items remaining after ∧
    given items remaining after) ∨
  ∃ items remaining between failure? after, items.length < n ∧
    Yields forcing store rest items remaining between ∧
    Stops forcing between remaining failure? after ∧ stopped items failure? after

section
variable {given : List Value → Value → Store → Prop}
  {stopped : List Value → Option Failure → Store → Prop}

theorem rounds_zero : Rounds forcing 0 store rest given stopped ↔ given [] rest store := by
  constructor
  · rintro (⟨items, remaining, after, hlength, hyields, h⟩ | ⟨_, _, _, _, _, hlength, -⟩)
    · obtain rfl := List.length_eq_zero_iff.mp hlength
      obtain ⟨rfl, rfl⟩ := yields_nil.mp hyields
      exact h
    · cases hlength
  · exact fun h => .inl ⟨[], rest, store, rfl, .nil store rest, h⟩

theorem rounds_succ {n : Nat} : Rounds forcing (n + 1) store rest given stopped ↔
    (∃ item following between,
      (next? forcing rest).Ends store (.ok (some (item, following))) between ∧
      Rounds forcing n between following (fun items => given (item :: items))
        fun items => stopped (item :: items)) ∨
    ∃ failure? after, Stops forcing store rest failure? after ∧ stopped [] failure? after := by
  constructor
  · rintro (⟨_ | ⟨item, items⟩, remaining, after, hlength, hyields, h⟩ |
      ⟨_ | ⟨item, items⟩, remaining, between, failure?, after, hlength, hyields, hstops, h⟩)
    · cases hlength
    · obtain ⟨following, between, hnext, hyields⟩ := yields_cons.mp hyields
      exact .inl ⟨item, following, between, hnext,
        .inl ⟨items, remaining, after, Nat.succ.inj hlength, hyields, h⟩⟩
    · obtain ⟨rfl, rfl⟩ := yields_nil.mp hyields
      exact .inr ⟨failure?, after, hstops, h⟩
    · obtain ⟨following, middle, hnext, hyields⟩ := yields_cons.mp hyields
      exact .inl ⟨item, following, middle, hnext, .inr ⟨items, remaining, between, failure?, after,
        Nat.lt_of_succ_lt_succ hlength, hyields, hstops, h⟩⟩
  · rintro (⟨item, following, middle, hnext, ⟨items, remaining, after, hlength, hyields, h⟩ |
      ⟨items, remaining, between, failure?, after, hlength, hyields, hstops, h⟩⟩ |
      ⟨failure?, after, hstops, h⟩)
    · exact .inl ⟨item :: items, remaining, after, congrArg Nat.succ hlength, .cons hnext hyields,
        h⟩
    · exact .inr ⟨item :: items, remaining, between, failure?, after, Nat.succ_lt_succ hlength,
        .cons hnext hyields, hstops, h⟩
    · exact .inr ⟨[], rest, store, failure?, after, Nat.succ_pos n, .nil store rest, hstops, h⟩

end

/-- A loop that follows a sequence makes as many rounds as it should, or the sequence stops
before. -/
theorem loop_ends {β : Type} {loop : Nat → List Value → Value → Eval β}
    {ended : List Value → Eval β}
    (hloop : ∀ n found rest, loop (n + 1) found rest = next? forcing rest >>= fun next =>
      next.elim (ended found) fun found' => loop n (found'.1 :: found) found'.2)
    {n : Nat} {found : List Value} {outcome : Except Failure β} :
    (loop n found rest).Ends store outcome after ↔ Rounds forcing n store rest
      (fun items remaining between =>
        (loop 0 (items.reverse ++ found) remaining).Ends between outcome after)
      fun items failure? last =>
        (failure?.elim (ended (items.reverse ++ found)) throw).Ends last outcome after := by
  induction n generalizing store rest found with
  | zero =>
    rw [rounds_zero]
    rfl
  | succ n ih =>
    rw [hloop, next?_bind_ends, rounds_succ]
    simp only [Option.elim, ih, List.reverse_cons, List.append_assoc, List.singleton_append,
      List.reverse_nil, List.nil_append]

theorem takeItems_ends {requested left : Nat} {outcome : Except Failure (List Value)} :
    (takeItems forcing requested left [] rest).Ends store outcome after ↔
      (∃ items remaining, items.length = left ∧
        Yields forcing store rest items remaining after ∧ outcome = .ok items) ∨
      ∃ items remaining between failure?, items.length < left ∧
        Yields forcing store rest items remaining between ∧
        Stops forcing between remaining failure? after ∧
        outcome = .error (failure?.getD (.exhausted requested items.length)) := by
  have hloop : ∀ n found rest, takeItems forcing requested (n + 1) found rest =
      next? forcing rest >>= fun next =>
        next.elim (throw (.exhausted requested found.length)) fun found' =>
          takeItems forcing requested n (found'.1 :: found) found'.2 := by
    intro n found rest
    rw [takeItems]
    congr 1
    funext next
    cases next <;> rfl
  have hstop : ∀ (failure? : Option Failure) (found : List Value) (last : Store),
      (failure?.elim (throw (.exhausted requested found.length)) throw : Eval (List Value)).Ends
        last outcome after ↔
      after = last ∧ outcome = .error (failure?.getD (.exhausted requested found.length)) := by
    intro failure? found last
    cases failure? <;> simp [and_comm]
  rw [loop_ends hloop, Rounds]
  simp only [takeItems, ends_pure, hstop, List.append_nil, List.reverse_reverse,
    List.length_reverse]
  constructor
  · rintro (⟨items, remaining, _, hlength, hyields, rfl, rfl⟩ |
      ⟨items, remaining, between, failure?, _, hlength, hyields, hstops, rfl, rfl⟩)
    · exact .inl ⟨items, remaining, hlength, hyields, rfl⟩
    · exact .inr ⟨items, remaining, between, failure?, hlength, hyields, hstops, rfl⟩
  · rintro (⟨items, remaining, hlength, hyields, rfl⟩ |
      ⟨items, remaining, between, failure?, hlength, hyields, hstops, rfl⟩)
    · exact .inl ⟨items, remaining, after, hlength, hyields, rfl, rfl⟩
    · exact .inr ⟨items, remaining, between, failure?, after, hlength, hyields, hstops, rfl, rfl⟩

/-- Collecting elements stops behind all of them, as long as there is fuel. -/
theorem collectItems_ends {fuel : Nat} {outcome : Except Failure (List Value)} :
    (collectItems forcing fuel [] rest).Ends store outcome after ↔
      ∃ items remaining between failure?, items.length < fuel ∧
        Yields forcing store rest items remaining between ∧
        Stops forcing between remaining failure? after ∧
        outcome = failure?.elim (.ok items) .error := by
  have hloop : ∀ n found rest, collectItems forcing (n + 1) found rest =
      next? forcing rest >>= fun next =>
        next.elim (pure found.reverse) fun found' =>
          collectItems forcing n (found'.1 :: found) found'.2 := by
    intro n found rest
    rw [collectItems]
    congr 1
    funext next
    cases next <;> rfl
  have hstop : ∀ (failure? : Option Failure) (found : List Value) (last : Store),
      (failure?.elim (pure found) throw : Eval (List Value)).Ends last outcome after ↔
      after = last ∧ outcome = failure?.elim (.ok found) .error := by
    intro failure? found last
    cases failure? <;> simp [and_comm]
  rw [loop_ends hloop, Rounds]
  simp only [collectItems, ends_outOfFuel, and_false, exists_false, false_or, hstop,
    List.append_nil, List.reverse_reverse]
  constructor
  · rintro ⟨items, remaining, between, failure?, _, hlength, hyields, hstops, rfl, rfl⟩
    exact ⟨items, remaining, between, failure?, hlength, hyields, hstops, rfl⟩
  · rintro ⟨items, remaining, between, failure?, hlength, hyields, hstops, rfl⟩
    exact ⟨items, remaining, between, failure?, after, hlength, hyields, hstops, rfl, rfl⟩

end Sequence

/-! ## 2. Cursors -/

open Sequence

namespace Cursor

def element (item : Value) : Except Failure (Option Value) := .ok (some item)

def stop (failure? : Option Failure) : Except Failure (Option Value) :=
  failure?.elim (.ok none) .error

def nexts (forcing : Forcing) : (n : Nat) → Cursor →
    Eval (List (Except Failure (Option Value)))
  | 0, _ => return []
  | n + 1, cursor => do
    let (result, cursor) ← next forcing cursor
    return result :: (← nexts forcing n cursor)

/-- A cursor that has lost its place gives nothing any more. -/
theorem nexts_lost (n : Nat) :
    nexts forcing n ⟨none⟩ = pure (List.replicate n (stop none)) := by
  induction n with
  | zero => rfl
  | succ n ih =>
    change (pure (stop none, ⟨none⟩) >>= fun found => do
      return found.1 :: (← nexts forcing n found.2)) = _
    rw [pure_bind, ih, pure_bind, List.replicate_succ]

theorem next_ends {found : Except Failure (Option Value) × Cursor} :
    (next forcing (start rest)).Ends store (.ok found) after ↔
      (∃ item following, (next? forcing rest).Ends store (.ok (some (item, following))) after ∧
        found = (element item, start following)) ∨
      ∃ failure?, Stops forcing store rest failure? after ∧ found = (stop failure?, ⟨none⟩) := by
  change (attempt (next? forcing rest) >>= _).Ends store (.ok found) after ↔ _
  rw [ends_bind_ok]
  constructor
  · rintro ⟨result, between, hresult, h⟩
    obtain ⟨_, ⟨⟩, hnext⟩ := ends_attempt.mp hresult
    rcases result with failure | _ | ⟨item, following⟩
    · obtain ⟨rfl, rfl⟩ := ends_pure_ok.mp h
      exact .inr ⟨some failure, hnext, rfl⟩
    · obtain ⟨rfl, rfl⟩ := ends_pure_ok.mp h
      exact .inr ⟨none, hnext, rfl⟩
    · obtain ⟨rfl, rfl⟩ := ends_pure_ok.mp h
      exact .inl ⟨item, following, hnext, rfl⟩
  · rintro (⟨item, following, hnext, rfl⟩ | ⟨_ | failure, hstops, rfl⟩)
    · exact ⟨_, after, ends_attempt.mpr ⟨_, rfl, hnext⟩, ends_pure_self _ _⟩
    · exact ⟨_, after, ends_attempt.mpr ⟨_, rfl, hstops⟩, ends_pure_self _ _⟩
    · exact ⟨_, after, ends_attempt.mpr ⟨_, rfl, hstops⟩, ends_pure_self _ _⟩

theorem nexts_succ_ends {n : Nat} {results : List (Except Failure (Option Value))} :
    ((start rest).nexts forcing (n + 1)).Ends store (.ok results) after ↔
      (∃ item following between,
        (next? forcing rest).Ends store (.ok (some (item, following))) between ∧
        ∃ others, ((start following).nexts forcing n).Ends between (.ok others) after ∧
          results = element item :: others) ∨
      ∃ failure?, Stops forcing store rest failure? after ∧
        results = stop failure? :: List.replicate n (stop none) := by
  rw [nexts, ends_bind_ok]
  constructor
  · rintro ⟨found, middle, hfound, h⟩
    obtain ⟨others, last, hothers, h⟩ := ends_bind_ok.mp h
    obtain ⟨rfl, rfl⟩ := ends_pure_ok.mp h
    rcases next_ends.mp hfound with ⟨item, following, hnext, rfl⟩ | ⟨failure?, hstops, rfl⟩
    · exact .inl ⟨item, following, middle, hnext, others, hothers, rfl⟩
    · rw [nexts_lost, ends_pure_ok] at hothers
      obtain ⟨rfl, rfl⟩ := hothers
      exact .inr ⟨failure?, hstops, rfl⟩
  · rintro (⟨item, following, between, hnext, others, hothers, rfl⟩ | ⟨failure?, hstops, rfl⟩)
    · exact ⟨_, between, next_ends.mpr (.inl ⟨item, following, hnext, rfl⟩),
        hothers.bind (ends_pure_self _ _)⟩
    · refine ⟨_, after, next_ends.mpr (.inr ⟨failure?, hstops, rfl⟩), ?_⟩
      dsimp only
      rw [nexts_lost, pure_bind]
      exact ends_pure_self _ _

/-- The results are elements, and after an end or a failure nothing more. -/
theorem nexts_ends {n : Nat} {results : List (Except Failure (Option Value))} :
    ((start rest).nexts forcing n).Ends store (.ok results) after ↔
      (∃ items remaining, items.length = n ∧
        Yields forcing store rest items remaining after ∧ results = items.map element) ∨
      ∃ items remaining between failure?, items.length < n ∧
        Yields forcing store rest items remaining between ∧
        Stops forcing between remaining failure? after ∧ results = items.map element ++
          stop failure? :: List.replicate (n - items.length - 1) (stop none) := by
  induction n generalizing store rest results with
  | zero =>
    rw [nexts, ends_pure_ok]
    constructor
    · rintro ⟨rfl, rfl⟩
      exact .inl ⟨[], rest, rfl, .nil _ rest, rfl⟩
    · rintro (⟨items, remaining, hlength, hyields, rfl⟩ | ⟨_, _, _, _, hlength, -⟩)
      · obtain rfl := List.length_eq_zero_iff.mp hlength
        obtain ⟨-, rfl⟩ := yields_nil.mp hyields
        exact ⟨rfl, rfl⟩
      · cases hlength
  | succ n ih =>
    rw [nexts_succ_ends]
    constructor
    · rintro (⟨item, following, middle, hnext, others, hothers, rfl⟩ | ⟨failure?, hstops, rfl⟩)
      · rcases ih.mp hothers with ⟨items, remaining, hlength, hyields, rfl⟩ |
          ⟨items, remaining, between, failure?, hlength, hyields, hstops, rfl⟩
        · exact .inl ⟨item :: items, remaining, congrArg Nat.succ hlength, .cons hnext hyields, rfl⟩
        · exact .inr ⟨item :: items, remaining, between, failure?, Nat.succ_lt_succ hlength,
            .cons hnext hyields, hstops, by simp⟩
      · exact .inr ⟨[], rest, store, failure?, Nat.succ_pos n, .nil store rest, hstops, by simp⟩
    · rintro (⟨_ | ⟨item, items⟩, remaining, hlength, hyields, rfl⟩ |
        ⟨_ | ⟨item, items⟩, remaining, between, failure?, hlength, hyields, hstops, rfl⟩)
      · cases hlength
      · obtain ⟨following, middle, hnext, hyields⟩ := yields_cons.mp hyields
        exact .inl ⟨item, following, middle, hnext, _,
          ih.mpr (.inl ⟨items, remaining, Nat.succ.inj hlength, hyields, rfl⟩), rfl⟩
      · obtain ⟨rfl, rfl⟩ := yields_nil.mp hyields
        exact .inr ⟨failure?, hstops, by simp⟩
      · obtain ⟨following, middle, hnext, hyields⟩ := yields_cons.mp hyields
        exact .inl ⟨item, following, middle, hnext, _, ih.mpr (.inr ⟨items, remaining, between,
          failure?, Nat.lt_of_succ_lt_succ hlength, hyields, hstops, rfl⟩), by simp⟩

/-- Where the results differ from elements for the first time. -/
theorem stop_unique {items' : List Value} {failure? failure?' : Option Failure}
    {later later' : List (Except Failure (Option Value))}
    (h : items.map element ++ stop failure? :: later =
      items'.map element ++ stop failure?' :: later') : items = items' ∧ failure? = failure?' := by
  have hstop : ∀ item failure?, element item ≠ stop failure? := by
    rintro item (_ | failure) <;> nofun
  induction items generalizing items' with
  | nil =>
    cases items' with
    | nil => cases failure? <;> cases failure?' <;> simp_all [stop]
    | cons item' items' => exact absurd (List.cons.inj h).1.symm (hstop item' failure?)
  | cons item items ih =>
    cases items' with
    | nil => exact absurd (List.cons.inj h).1 (hstop item failure?')
    | cons item' items' =>
      obtain ⟨hitem, hrest⟩ := List.cons.inj h
      obtain ⟨rfl, rfl⟩ := ih hrest
      cases hitem
      exact ⟨rfl, rfl⟩

theorem stop_notMem (items : List Value) (failure? : Option Failure) :
    stop failure? ∉ items.map element := by
  intro h
  obtain ⟨item, -, heq⟩ := List.mem_map.mp h
  cases failure? <;> cases heq

/-- What `take` gives, by the results of as many calls for the next element as it is asked for. -/
inductive Taken (n : Nat) : List (Except Failure (Option Value)) → Except Failure Value → Prop
  | elements (items : List Value) : Taken n (items.map element) (.ok (.list items))
  | ended (items : List Value) (later : List (Except Failure (Option Value))) :
      Taken n (items.map element ++ .ok none :: later) (.error (.exhausted n items.length))
  | failed (items : List Value) (failure : Failure)
      (later : List (Except Failure (Option Value))) :
      Taken n (items.map element ++ .error failure :: later) (.error failure)

inductive Collected : List (Except Failure (Option Value)) → Except Failure Value → Prop
  | ended (items : List Value) : Collected (items.map element ++ [.ok none]) (.ok (.list items))
  | failed (items : List Value) (failure : Failure) :
      Collected (items.map element ++ [.error failure]) (.error failure)

theorem taken_stop (n : Nat) (items : List Value) (failure? : Option Failure)
    (later : List (Except Failure (Option Value))) :
    Taken n (items.map element ++ stop failure? :: later)
      (.error (failure?.getD (.exhausted n items.length))) := by
  cases failure? with
  | none => exact .ended items later
  | some failure => exact .failed items failure later

theorem Taken.cases {n : Nat} {results : List (Except Failure (Option Value))}
    {outcome : Except Failure Value} (h : Taken n results outcome) :
    (∃ items : List Value, results = items.map element ∧ outcome = .ok (.list items)) ∨
      ∃ (items : List Value) (failure? : Option Failure) (later : _),
        results = items.map element ++ stop failure? :: later ∧
        outcome = .error (failure?.getD (.exhausted n items.length)) := by
  cases h with
  | elements items => exact .inl ⟨items, rfl, rfl⟩
  | ended items later => exact .inr ⟨items, none, later, rfl, rfl⟩
  | failed items failure later => exact .inr ⟨items, some failure, later, rfl, rfl⟩

theorem Collected.cases {results : List (Except Failure (Option Value))}
    {outcome : Except Failure Value} (h : Collected results outcome) :
    ∃ (items : List Value) (failure? : Option Failure),
      results = items.map element ++ [stop failure?] ∧
      outcome = failure?.elim (.ok (.list items)) .error := by
  cases h with
  | ended items => exact ⟨items, none, rfl, rfl⟩
  | failed items failure => exact ⟨items, some failure, rfl, rfl⟩

theorem Taken.unique {n : Nat} {results : List (Except Failure (Option Value))}
    {outcome outcome' : Except Failure Value} (h : Taken n results outcome)
    (h' : Taken n results outcome') : outcome = outcome' := by
  rcases h.cases with ⟨items, rfl, rfl⟩ | ⟨items, failure?, later, rfl, rfl⟩ <;>
    rcases h'.cases with ⟨items', heq, rfl⟩ | ⟨items', failure?', later', heq, rfl⟩
  · have hinj : Function.Injective element := fun _ _ h => Option.some.inj (Except.ok.inj h)
    rw [hinj.list_map heq]
  · exact absurd (heq ▸ by simp) (stop_notMem items failure?')
  · exact absurd (heq ▸ by simp) (stop_notMem items' failure?)
  · obtain ⟨rfl, rfl⟩ := stop_unique heq
    rfl

end Cursor

/-! ## 3. The theorem -/

theorem Eval.ends_map {α β : Type} {action : Eval α} {f : α → β} {outcome : Except Failure β} :
    (action >>= fun a => pure (f a)).Ends store outcome after ↔
      ∃ found, action.Ends store found after ∧ outcome = found.map f := by
  rw [ends_bind]
  constructor
  · rintro (⟨a, between, ha, h⟩ | ⟨failure, hfailure, rfl⟩)
    · obtain ⟨rfl, rfl⟩ := ends_pure.mp h
      exact ⟨.ok a, ha, rfl⟩
    · exact ⟨.error failure, hfailure, rfl⟩
  · rintro ⟨failure | a, hfound, rfl⟩
    · exact .inr ⟨failure, hfound, rfl⟩
    · exact .inl ⟨a, after, hfound, ends_pure_self _ _⟩

namespace Sequence

open Cursor

variable {node : NodeId} {env : EnvId} {head tail : Value} {outcome : Except Failure Value}

theorem take_ends {n : Nat} :
    (take forcing n (.sequence node env head tail)).Ends store outcome after ↔
      ∃ results, ((start (.sequence node env head tail)).nexts forcing n).Ends store (.ok results)
        after ∧ Taken n results outcome := by
  unfold take
  rw [ends_map]
  constructor
  · rintro ⟨found, hfound, rfl⟩
    rcases takeItems_ends.mp hfound with ⟨items, remaining, hlength, hyields, rfl⟩ |
      ⟨items, remaining, between, failure?, hlength, hyields, hstops, rfl⟩
    · exact ⟨_, nexts_ends.mpr (.inl ⟨items, remaining, hlength, hyields, rfl⟩), .elements items⟩
    · exact ⟨_, nexts_ends.mpr (.inr ⟨items, remaining, between, failure?, hlength, hyields, hstops,
        rfl⟩), taken_stop n items failure? _⟩
  · rintro ⟨results, hresults, htaken⟩
    rcases nexts_ends.mp hresults with ⟨items, remaining, hlength, hyields, rfl⟩ |
      ⟨items, remaining, between, failure?, hlength, hyields, hstops, rfl⟩
    · obtain rfl := htaken.unique (.elements items)
      exact ⟨_, takeItems_ends.mpr (.inl ⟨items, remaining, hlength, hyields, rfl⟩), rfl⟩
    · obtain rfl := htaken.unique (taken_stop n items failure? _)
      exact ⟨_, takeItems_ends.mpr (.inr ⟨items, remaining, between, failure?, hlength, hyields,
        hstops, rfl⟩), rfl⟩

theorem collect_ends :
    (collect forcing (.sequence node env head tail)).Ends store outcome after ↔
      ∃ n ≤ forcing.patience, ∃ results,
        ((start (.sequence node env head tail)).nexts forcing n).Ends store (.ok results) after ∧
          Collected results outcome := by
  unfold collect
  rw [ends_map]
  constructor
  · rintro ⟨found, hfound, rfl⟩
    obtain ⟨items, remaining, between, failure?, hlength, hyields, hstops, rfl⟩ :=
      collectItems_ends.mp hfound
    refine ⟨items.length + 1, hlength, _, nexts_ends.mpr (.inr ⟨items, remaining, between, failure?,
      Nat.lt_succ_self _, hyields, hstops, rfl⟩), ?_⟩
    rw [Nat.add_sub_cancel_left, Nat.sub_self]
    cases failure? with
    | none => exact .ended items
    | some failure => exact .failed items failure
  · rintro ⟨n, hn, results, hresults, hcollected⟩
    obtain ⟨items, failure?, rfl, rfl⟩ := hcollected.cases
    rcases nexts_ends.mp hresults with ⟨items', _, -, -, heq⟩ |
      ⟨items', remaining, between, failure?', hlength, hyields, hstops, heq⟩
    · exact absurd (heq ▸ by simp) (stop_notMem items' failure?)
    · obtain ⟨rfl, rfl⟩ := stop_unique heq
      refine ⟨_, collectItems_ends.mpr ⟨items, remaining, between, failure?, by omega, hyields,
        hstops, rfl⟩, ?_⟩
      cases failure? <;> rfl

section
variable {v : Value} {n : Nat} (hv : v.isSequence)
include hv

theorem take_eq (n : Nat) :
    take forcing n v = takeItems forcing n n [] v >>= fun items => pure (.list items) := by
  cases v with
  | sequence => rfl
  | _ => cases hv

theorem collect_eq : collect forcing v =
    collectItems forcing forcing.patience [] v >>= fun items => pure (.list items) := by
  cases v with
  | sequence => rfl
  | _ => cases hv

theorem yields_of_take (h : (take forcing n v).Ends store (.ok (.list items)) after) :
    items.length = n ∧ ∃ remaining, Yields forcing store v items remaining after := by
  rw [take_eq hv, ends_map] at h
  obtain ⟨found, hfound, heq⟩ := h
  rcases takeItems_ends.mp hfound with ⟨items', remaining, hlength, hyields, rfl⟩ |
    ⟨_, _, _, _, -, -, -, rfl⟩
  · cases heq
    exact ⟨hlength, remaining, hyields⟩
  · cases heq

theorem Yields.take (h : Yields forcing store v items remaining after) :
    (take forcing items.length v).Ends store (.ok (.list items)) after := by
  rw [take_eq hv, ends_map]
  exact ⟨_, takeItems_ends.mpr (.inl ⟨items, remaining, rfl, h, rfl⟩), rfl⟩

end

def chain : List ((NodeId × EnvId) × Value) → Value → Value
  | [], tail => tail
  | ((node, env), head) :: links, tail => .sequence node env head (chain links tail)

/-- The first elements do not depend on what stands behind them. -/
theorem takeItems_chain
    (hforce : ∀ node env head tail, forcing.force (.sequence node env head tail) =
      pure (.sequence node env head tail))
    (requested : Nat) (found : List Value) {links links' : List ((NodeId × EnvId) × Value)}
    (hheads : links.map Prod.snd = links'.map Prod.snd) (tail tail' : Value) :
    takeItems forcing requested links.length found (chain links tail) =
      takeItems forcing requested links.length found (chain links' tail') := by
  induction links generalizing links' found with
  | nil =>
    rw [List.map_nil, eq_comm, List.map_eq_nil_iff] at hheads
    rw [hheads]
    rfl
  | cons link links ih =>
    obtain ⟨link', rest, rfl, hhead, hrest⟩ := List.map_eq_cons_iff.mp hheads.symm
    obtain ⟨⟨node, env⟩, head⟩ := link
    obtain ⟨⟨node', env'⟩, head'⟩ := link'
    cases hhead
    -- Both nodes have the same head, and their tails are left for the next round.
    have hnext : ∀ node env tail, next? forcing (.sequence node env head tail) =
        forcing.force head >>= fun item => pure (some (item, tail)) := by
      intro node env tail
      rw [next?, hforce, pure_bind]
    simp only [chain, List.length_cons, takeItems, hnext, bind_assoc, pure_bind]
    exact bind_congr fun item => ih (item :: found) hrest.symm

/-- Following a sequence, taking from it and collecting it give the same elements and the same end.
Calls for the next element give nothing any more after an end or a failure.  And of a sequence no
more is forced than is taken, so what stands behind that may be any value. -/
theorem iteration (patience room : Nat) (node : NodeId) (env : EnvId) (head tail : Value) :
    let forcing : Forcing := ⟨Value.resolve patience room, patience⟩
    let s := Value.sequence node env head tail
    (∀ n store outcome after, (take forcing n s).Ends store outcome after ↔
      ∃ results, ((start s).nexts forcing n).Ends store (.ok results) after ∧
        Taken n results outcome) ∧
    (∀ store outcome after, (collect forcing s).Ends store outcome after ↔
      ∃ n ≤ patience, ∃ results, ((start s).nexts forcing n).Ends store (.ok results) after ∧
        Collected results outcome) ∧
    (∀ cursor store result later after,
      (next forcing cursor).Ends store (.ok (result, later)) after →
      (∀ item, result ≠ .ok (some item)) →
        ∀ n, later.nexts forcing n = pure (List.replicate n (.ok none))) ∧
    (∀ links links' t t', links ≠ [] → links.map Prod.snd = links'.map Prod.snd →
      take forcing links.length (chain links t) = take forcing links'.length (chain links' t')) ∧
    take forcing 0 s = pure (.list []) := by
  intro forcing s
  refine ⟨fun n store outcome after => take_ends, fun store outcome after => collect_ends, ?_, ?_,
    rfl⟩
  · rintro ⟨_ | rest⟩ store result later after hnext hresult n
    · obtain ⟨heq, -⟩ := ends_pure_ok.mp hnext
      cases heq
      exact nexts_lost n
    · rcases next_ends.mp hnext with ⟨item, following, -, heq⟩ | ⟨failure?, -, heq⟩
      · cases heq
        exact absurd rfl (hresult item)
      · cases heq
        exact nexts_lost n
  · intro links links' t t' hlinks hheads
    have hlength : links.length = links'.length := by simpa using congrArg List.length hheads
    have hforce : ∀ node env head tail, forcing.force (.sequence node env head tail) =
        pure (.sequence node env head tail) :=
      fun node env head tail => (Value.Normal.sequence node env head tail).resolve_eq _ _
    obtain ⟨link, rest, rfl⟩ := List.exists_cons_of_ne_nil hlinks
    obtain ⟨link', rest', rfl, -⟩ := List.map_eq_cons_iff.mp hheads.symm
    change (takeItems forcing _ _ [] (chain (link :: rest) t) >>= _) =
      (takeItems forcing _ _ [] (chain (link' :: rest') t') >>= _)
    rw [takeItems_chain hforce _ [] hheads t t', hlength]

/-- A sequence of two elements whose tail is a name that is not bound. -/
theorem iteration_unbound :
    let forcing : Forcing := ⟨Value.resolve 5 depthLimit, 5⟩
    let store := Store.single []
    let s := fun tail => Value.sequence 0 0 (.int 1) (.sequence 1 0 (.int 2) tail)
    let missing := Value.symbol 0 "x"
    (take forcing 2 (s missing)).Ends store (.ok (.list [.int 1, .int 2])) store ∧
      (take forcing 3 (s missing)).Ends store (.error (.unbound "x")) store ∧
      (collect forcing (s missing)).Ends store (.error (.unbound "x")) store ∧
      (collect forcing (s .nil)).Ends store (.ok (.list [.int 1, .int 2])) store ∧
      take forcing 2 (s missing) = take forcing 2 (s .nil) := by
  intro forcing store s missing
  let items : List Value := [.int 1, .int 2]
  obtain ⟨htake, hcollect, -, hchain, -⟩ :=
    iteration 5 depthLimit 0 0 (.int 1) (.sequence 1 0 (.int 2) missing)
  obtain ⟨-, hcollect', -⟩ := iteration 5 depthLimit 0 0 (.int 1) (.sequence 1 0 (.int 2) .nil)
  let links : List ((NodeId × EnvId) × Value) := [((0, 0), .int 1), ((1, 0), .int 2)]
  exact ⟨(htake 2 store _ _).mpr ⟨_, rfl, .elements items⟩,
    (htake 3 store _ _).mpr ⟨_, rfl, .failed items (.unbound "x") []⟩,
    (hcollect store _ _).mpr ⟨3, by decide, _, rfl, .failed items (.unbound "x")⟩,
    (hcollect' store _ _).mpr ⟨3, by decide, _, rfl, .ended items⟩,
    hchain links links missing .nil (List.cons_ne_nil _ _) rfl⟩

end Sequence

end Deferral
