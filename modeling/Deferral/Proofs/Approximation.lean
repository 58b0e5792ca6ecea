import Deferral.Proofs.NormalForm

/-!
# Computations that end alike

A computation may give nothing at all, when a bound on its work runs out.  `action.Below action'`
says that the second computation ends wherever the first one does, and in the same way.  Everything
that forces values is monotone in this order: the more its forcing ends, the more does the whole.

Two bounds are compared like this.  More patience changes nothing that ends with less of it
(`Value.resolve_below`).  And a resolver that gives up at its limits, instead of failing, tells
where no limit is met: there a resolver with more room does the same (`Value.resolveOr_below`).
-/

namespace Deferral

open Eval

/-! ## 1. The order -/

namespace Eval

variable {α β : Type}

/-- Wherever the first computation ends, the second one ends in the same way. -/
def Below (action action' : Eval α) : Prop :=
  ∀ store outcome after, action.Ends store outcome after → action'.Ends store outcome after

theorem Below.refl (action : Eval α) : action.Below action := fun _ _ _ h => h

theorem outOfFuel_below (action : Eval α) : (outOfFuel : Eval α).Below action :=
  fun _ _ _ h => absurd h ends_outOfFuel

theorem below_bind {action action' : Eval α} {next next' : α → Eval β}
    (h : action.Below action') (hnext : ∀ a, (next a).Below (next' a)) :
    (action >>= next).Below (action' >>= next') := by
  intro store outcome after hends
  rcases ends_bind.mp hends with ⟨a, between, ha, hb⟩ | ⟨failure, hf, rfl⟩
  · exact (h _ _ _ ha).bind (hnext a _ _ _ hb)
  · exact (h _ _ _ hf).bind_error

theorem below_attempt {action action' : Eval α} (h : action.Below action') :
    (attempt action).Below (attempt action') := by
  intro store outcome after hends
  obtain ⟨result, hresult, hr⟩ := ends_attempt.mp hends
  exact ends_attempt.mpr ⟨result, hresult, h _ _ _ hr⟩

theorem below_mapM {f f' : α → Eval β} {items : List α}
    (h : ∀ item ∈ items, (f item).Below (f' item)) : (items.mapM f).Below (items.mapM f') := by
  induction items with
  | nil => exact Below.refl _
  | cons item rest ih =>
    rw [List.mapM_cons, List.mapM_cons]
    have hrest := ih fun other hother => h other (List.mem_cons_of_mem item hother)
    exact below_bind (h item List.mem_cons_self) fun b => below_bind hrest fun bs => Below.refl _

end Eval

structure Forcing.Below (forcing forcing' : Forcing) : Prop where
  force : ∀ v, (forcing.force v).Below (forcing'.force v)
  patience : forcing.patience ≤ forcing'.patience

variable {forcing forcing' : Forcing} (h : forcing.Below forcing')

/-! ## 2. Sequences -/

namespace Sequence

include h

theorem next?_below (rest : Value) : (next? forcing rest).Below (next? forcing' rest) := by
  apply below_bind (h.force rest)
  intro found
  cases found with
  | sequence node env head tail => exact below_bind (h.force head) fun item => Below.refl _
  | _ => exact Below.refl _

theorem takeItems_below (requested left : Nat) (found : List Value) (rest : Value) :
    (takeItems forcing requested left found rest).Below
      (takeItems forcing' requested left found rest) := by
  induction left generalizing found rest with
  | zero => exact Below.refl _
  | succ left ih =>
    refine below_bind (next?_below h rest) fun next => ?_
    rcases next with _ | ⟨item, rest⟩
    · exact Below.refl _
    · exact ih (item :: found) rest

theorem collectItems_below {fuel fuel' : Nat} (hfuel : fuel ≤ fuel') (found : List Value)
    (rest : Value) :
    (collectItems forcing fuel found rest).Below (collectItems forcing' fuel' found rest) := by
  induction fuel generalizing fuel' found rest with
  | zero => exact outOfFuel_below _
  | succ fuel ih =>
    obtain ⟨fuel', rfl⟩ : ∃ n, fuel' = n + 1 := ⟨fuel' - 1, by omega⟩
    refine below_bind (next?_below h rest) fun next => ?_
    rcases next with _ | ⟨item, rest⟩
    · exact Below.refl _
    · exact ih (by omega) (item :: found) rest

theorem take_below (count : Nat) (v : Value) :
    (take forcing count v).Below (take forcing' count v) := by
  cases v with
  | sequence node env head tail =>
    exact below_bind (takeItems_below h count count [] _) fun items => Below.refl _
  | _ => exact Below.refl _

theorem head_below (v : Value) : (head forcing v).Below (head forcing' v) := by
  cases v with
  | sequence node env head tail => exact h.force head
  | _ => exact Below.refl _

theorem concat_below (env : EnvId) (left right : Value) :
    (concat forcing env left right).Below (concat forcing' env left right) := by
  unfold concat
  split
  · exact Below.refl _
  · exact Below.refl _
  · rename_i leftHead _ _ _ rightHead _
    exact below_bind (h.force leftHead) fun first =>
      below_bind (h.force rightHead) fun second => Below.refl _
  · exact Below.refl _
  · exact Below.refl _

theorem collect_below (v : Value) : (collect forcing v).Below (collect forcing' v) := by
  cases v with
  | sequence node env head tail =>
    exact below_bind (collectItems_below h h.patience [] _) fun items => Below.refl _
  | _ => exact Below.refl _

end Sequence

/-! ## 3. Text -/

theorem Value.displayWith_below {deferred deferred' : Value → Eval String}
    (hdeferred : ∀ v, (deferred v).Below (deferred' v)) (v : Value) :
    (v.displayWith deferred).Below (v.displayWith deferred') := by
  induction v with
  | list items ih =>
    simp only [displayWith, displayItems_eq_mapM, map_eq_pure_bind]
    have hitems := below_mapM ih
    exact below_bind (below_bind hitems fun _ => Below.refl _) fun _ => Below.refl _
  | map entries ih =>
    simp only [displayWith, displayEntries_eq_mapM, map_eq_pure_bind]
    have hentries : (entries.mapM (displayEntry deferred)).Below
        (entries.mapM (displayEntry deferred')) :=
      below_mapM fun entry hentry => below_bind (ih entry hentry).1 fun _ =>
        below_bind (ih entry hentry).2 fun _ => Below.refl _
    exact below_bind (below_bind hentries fun _ => Below.refl _) fun _ => Below.refl _
  | symbol => exact hdeferred _
  | expression => exact hdeferred _
  | call => exact hdeferred _
  | sequence => exact hdeferred _
  | _ => exact Below.refl _

section
include h

theorem Display.frontOfHead_below (head : Value) :
    (frontOfHead forcing head).Below (frontOfHead forcing' head) :=
  below_bind (below_attempt (h.force head)) fun _ => Below.refl _

theorem Display.front_below {text text' : Value → Eval String}
    (htext : ∀ v, (text v).Below (text' v)) (v : Value) :
    (front forcing text v).Below (front forcing' text' v) := by
  unfold front
  split
  · exact frontOfHead_below h _
  · split
    · apply below_bind (below_attempt (h.force _))
      intro result
      rcases result with failure | w
      · exact Below.refl _
      · cases w with
        | sequence node env head tail => exact frontOfHead_below h head
        | _ => exact below_bind (htext _) fun _ => Below.refl _
    · exact below_bind (htext _) fun _ => Below.refl _

theorem Display.text_below {fuel fuel' : Nat} (hfuel : fuel ≤ fuel') (v : Value) :
    (text forcing fuel v).Below (text forcing' fuel' v) := by
  induction fuel generalizing fuel' v with
  | zero => exact outOfFuel_below _
  | succ fuel ih =>
    obtain ⟨fuel', rfl⟩ : ∃ n, fuel' = n + 1 := ⟨fuel' - 1, by omega⟩
    have hparts : ∀ w, (Value.displayWith (text forcing fuel) w).Below
        (Value.displayWith (text forcing' fuel') w) :=
      Value.displayWith_below fun w => ih (by omega) w
    apply below_bind (front_below h hparts v)
    intro front
    cases front with
    | whole shown => exact Below.refl _
    | sequence head => exact below_bind (ih (by omega) head) fun _ => Below.refl _

theorem Display.present_below {fuel fuel' : Nat} (hfuel : fuel ≤ fuel') (v : Value) :
    (present forcing fuel v).Below (present forcing' fuel' v) := by
  induction fuel generalizing fuel' v with
  | zero => exact outOfFuel_below _
  | succ fuel ih =>
    obtain ⟨fuel', rfl⟩ : ∃ n, fuel' = n + 1 := ⟨fuel' - 1, by omega⟩
    have hparts : ∀ w, (Value.displayWith (text forcing fuel) w).Below
        (Value.displayWith (text forcing' fuel') w) :=
      Value.displayWith_below fun w => text_below h (by omega) w
    apply below_bind (front_below h hparts v)
    intro front
    cases front with
    | whole shown => exact Below.refl _
    | sequence head =>
      exact below_bind (Below.refl _) fun _ => below_bind (ih (by omega) head) fun _ => Below.refl _

theorem Value.display_below (v : Value) : (v.display forcing).Below (v.display forcing') :=
  Display.text_below h h.patience v

theorem Value.plainText_below (v : Value) : (v.plainText forcing).Below (v.plainText forcing') := by
  cases v with
  | str s => exact Below.refl _
  | _ => exact display_below h _

/-! ## 4. Built-in functions -/

theorem Builtin.printedText_below (reverse : Bool) (v : Value) :
    (printedText forcing reverse v).Below (printedText forcing' reverse v) := by
  unfold printedText
  split
  · exact Below.refl _
  · exact Value.plainText_below h _

theorem Builtin.printArguments_below (env : EnvId) (args : List Value)
    (kwargs : List (String × Value)) :
    (printArguments forcing env args kwargs).Below (printArguments forcing' env args kwargs) := by
  apply below_bind (Below.refl _)
  intro separator
  apply below_bind (Below.refl _)
  intro terminator
  apply below_bind (Below.refl _)
  intro environment
  have htexts : (args.mapM (printedText forcing environment.reversePrint)).Below
      (args.mapM (printedText forcing' environment.reversePrint)) :=
    below_mapM fun arg _ => printedText_below h environment.reversePrint arg
  exact below_bind htexts fun texts => Below.refl _

theorem Builtin.perform_below (env : EnvId) (builtin : Builtin) (args : List Value)
    (kwargs : List (String × Value)) :
    (builtin.perform forcing env args kwargs).Below
      (builtin.perform forcing' env args kwargs) := by
  unfold perform
  split
  -- Those that are not listed force nothing.
  case h_1 count v =>
    exact below_bind (Below.refl _) fun n => Sequence.take_below h n v
  case h_3 v => exact Sequence.head_below h v
  case h_4 left right => exact Sequence.concat_below h env left right
  case h_7 => exact printArguments_below h env args kwargs
  case h_8 v => exact below_bind (v.plainText_below h) fun _ => Below.refl _
  case h_9 v => exact below_bind (v.display_below h) fun _ => Below.refl _
  case h_16 v => exact Sequence.collect_below h v
  case h_17 v => exact h.force v
  all_goals exact Below.refl _

theorem Builtin.run_below (env : EnvId) (builtin : Builtin) (args : List Value)
    (kwargs : List (String × Value)) :
    (builtin.run forcing env args kwargs).Below (builtin.run forcing' env args kwargs) :=
  below_bind (Below.refl _) fun _ => perform_below h env builtin args kwargs

/-! ## 5. Resolution -/

theorem invoke_below (env : EnvId) (target : Value) (args : List Value)
    (kwargs : List (String × Value)) :
    (invoke forcing env target args kwargs).Below (invoke forcing' env target args kwargs) := by
  cases target with
  | function f => exact Builtin.run_below h env f.builtin args kwargs
  | _ => exact Below.refl _

theorem forceKeywords_below (kwargs : List (String × Value)) :
    (forceKeywords forcing kwargs).Below (forceKeywords forcing' kwargs) :=
  below_mapM fun entry _ => below_bind (h.force entry.2) fun _ => Below.refl _

theorem Value.forceOnce_below (v : Value) : (v.forceOnce forcing).Below (v.forceOnce forcing') := by
  cases v with
  | expression node env operator left right =>
    exact below_bind (h.force left) fun _ => below_bind (h.force right) fun _ => Below.refl _
  | call node env target args kwargs =>
    apply below_bind (h.force target)
    intro target
    refine below_bind (below_mapM fun arg _ => h.force arg) fun args => ?_
    apply below_bind (forceKeywords_below h kwargs)
    intro kwargs
    exact below_bind (Below.refl _) fun _ => invoke_below h env target args kwargs
  | _ => exact Below.refl _

end

namespace Value

theorem resolveWith_below {deferred deferred' : Value → Eval Value}
    (hdeferred : ∀ v, (deferred v).Below (deferred' v)) (v : Value) :
    (v.resolveWith deferred).Below (v.resolveWith deferred') := by
  induction v with
  | list items ih =>
    simp only [resolveWith_list, map_eq_pure_bind]
    exact below_bind (below_mapM ih) fun _ => Below.refl _
  | map entries ih =>
    simp only [resolveWith_map, map_eq_pure_bind]
    have hentries : (entries.mapM (resolveEntry deferred)).Below
        (entries.mapM (resolveEntry deferred')) :=
      below_mapM fun entry hentry => below_bind (ih entry hentry).1 fun _ =>
        below_bind (ih entry hentry).2 fun _ => Below.refl _
    exact below_bind hentries fun _ => Below.refl _
  | symbol => exact hdeferred _
  | expression => exact hdeferred _
  | call => exact hdeferred _
  | _ => exact Below.refl _

def unwindOr (limit : Eval Value) (forcing : Forcing) : (left : Nat) → Value → Eval Value
  | 0, _ => limit
  | left + 1, v => do
    let w ← v.forceOnce forcing
    if w.isDeferred && !w.isSequence then unwindOr limit forcing left w else return w

def resolveOr (limit : Eval Value) (patience : Nat) : (room : Nat) → Value → Eval Value
  | 0, v => v.resolveWith fun _ => limit
  | room + 1, v => v.resolveWith fun deferred => do
    let found ← deferred.unwindOr limit ⟨resolveOr limit patience room, patience⟩ depthLimit
    resolveOr limit patience room found

theorem unwindOr_tooDeep (forcing : Forcing) (left : Nat) (v : Value) :
    v.unwindOr (throw .tooDeep) forcing left = v.unwind forcing left := by
  induction left generalizing v with
  | zero => rfl
  | succ left ih => simp only [unwindOr, unwind, ih]

theorem resolveOr_tooDeep (patience room : Nat) (v : Value) :
    v.resolveOr (throw .tooDeep) patience room = v.resolve patience room := by
  induction room generalizing v with
  | zero => rfl
  | succ room ih =>
    have hforce : resolveOr (throw .tooDeep) patience room = resolve patience room := funext ih
    simp only [resolveOr, resolve, unwindOr_tooDeep, hforce]

/-- One resolver has as much room as another one, or more of it than one that gives up at its
limits. -/
def Roomier (limit limit' : Eval Value) (room room' : Nat) : Prop :=
  limit.Below limit' ∧ (room = room' ∨ limit = outOfFuel ∧ room ≤ room')

theorem Roomier.zero {limit limit' : Eval Value} {room' : Nat}
    (hroom : Roomier limit limit' 0 room') : room' = 0 ∨ limit = outOfFuel :=
  hroom.2.imp Eq.symm And.left

theorem Roomier.succ {limit limit' : Eval Value} {room room' : Nat}
    (hroom : Roomier limit limit' (room + 1) room') :
    ∃ smaller, room' = smaller + 1 ∧ Roomier limit limit' room smaller := by
  refine ⟨room' - 1, ?_, hroom.1, ?_⟩
  · rcases hroom.2 with rfl | ⟨-, hle⟩ <;> omega
  · rcases hroom.2 with rfl | ⟨hlimit, hle⟩
    · exact .inl rfl
    · exact .inr ⟨hlimit, by omega⟩

theorem unwindOr_below {limit limit' : Eval Value} {left left' : Nat}
    (h : forcing.Below forcing') (hleft : Roomier limit limit' left left') (v : Value) :
    (v.unwindOr limit forcing left).Below (v.unwindOr limit' forcing' left') := by
  induction left generalizing left' v with
  | zero =>
    rcases hleft.zero with rfl | rfl
    · exact hleft.1
    · exact outOfFuel_below _
  | succ left ih =>
    obtain ⟨smaller, rfl, hsmaller⟩ := hleft.succ
    apply below_bind (v.forceOnce_below h)
    intro w
    cases w.isDeferred && !w.isSequence
    · exact Below.refl _
    · exact ih hsmaller w

/-- What a resolver ends with where it meets no limit, any other one ends with that has as much room
and patience. -/
theorem resolveOr_below {limit limit' : Eval Value} {room room' patience patience' : Nat}
    (hroom : Roomier limit limit' room room') (hpatience : patience ≤ patience') (v : Value) :
    (v.resolveOr limit patience room).Below (v.resolveOr limit' patience' room') := by
  induction room generalizing room' v with
  | zero =>
    rcases hroom.zero with rfl | rfl
    · exact v.resolveWith_below fun _ => hroom.1
    · cases room' <;> exact v.resolveWith_below fun _ => outOfFuel_below _
  | succ room ih =>
    obtain ⟨smaller, rfl, hsmaller⟩ := hroom.succ
    have hforcing : Forcing.Below ⟨resolveOr limit patience room, patience⟩
        ⟨resolveOr limit' patience' smaller, patience'⟩ := ⟨ih hsmaller, hpatience⟩
    -- The steps in a row have the same limit on both sides.
    have hsteps : Roomier limit limit' depthLimit depthLimit := ⟨hroom.1, .inl rfl⟩
    exact v.resolveWith_below fun deferred =>
      below_bind (unwindOr_below hforcing hsteps deferred) fun found => ih hsmaller found

/-- More patience changes nothing that ends with less. -/
theorem resolve_below {patience patience' : Nat} (hpatience : patience ≤ patience') (room : Nat)
    (v : Value) : (v.resolve patience room).Below (v.resolve patience' room) := by
  rw [← resolveOr_tooDeep, ← resolveOr_tooDeep]
  exact resolveOr_below ⟨Below.refl _, .inl rfl⟩ hpatience v

end Value

end Deferral
