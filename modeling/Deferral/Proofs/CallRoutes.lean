import Deferral.Proofs.Approximation
import Deferral.Proofs.Growth

/-!
# Three ways to call a function

A built-in function is called directly, through its lazy form, or through a name that is bound to
it.  The last two defer the call, and forced they give the same.  The direct call does so too
(`Builtin.forceCall_ok_iff`), apart from two things.

The deferred calls stand one level deeper, so they can meet a limit that the direct call does not
meet.  This need not make them fail: a failure is shown where text is made.  And a deferred call
forces its arguments whatever the function says, so `quote` sees its argument unforced only where
it is called directly (`Builtin.forceCall_differs`).
-/

namespace Deferral

open Eval

def forceCall (forcing : Forcing) (env : EnvId) (target : Value) (args : List Value)
    (kwargs : List (String × Value)) : Eval Value := do
  forcing.force (← callValue forcing env target args kwargs)

variable {store after : Store} {env : EnvId} {builtin : Builtin} {args : List Value}
  {kwargs : List (String × Value)} {forcing : Forcing} {w : Value}

/-! ## 1. Valid arguments -/

theorem Builtin.validate_eq_ok {given : Nat} :
    builtin.validate given kwargs = .ok () ↔
      builtin.arity.accepts given = true ∧ ∀ key ∈ kwargs.map Prod.fst, key ∈ builtin.keywords := by
  unfold validate
  cases haccepts : builtin.arity.accepts given with
  | false => simp
  | true =>
    cases hfind : kwargs.find? fun entry => entry.1 ∉ builtin.keywords with
    | none =>
      have hall : ∀ entry ∈ kwargs, entry.1 ∈ builtin.keywords := by
        simpa using List.find?_eq_none.mp hfind
      simp only [if_true, true_and, true_iff]
      intro key hkey
      obtain ⟨entry, hentry, rfl⟩ := List.mem_map.mp hkey
      exact hall entry hentry
    | some entry =>
      have hunknown : entry.1 ∉ builtin.keywords := by simpa using List.find?_some hfind
      simp only [if_true, reduceCtorEq, true_and, false_iff]
      intro hall
      exact hunknown (hall entry.1 (List.mem_map_of_mem (List.mem_of_find?_eq_some hfind)))

/-- Forcing changes neither how many arguments there are nor the names of keywords. -/
theorem Builtin.validate_forced {forced : List Value} {forcedKwargs : List (String × Value)}
    {before between between' : Store}
    (hargs : (args.mapM forcing.force).Ends before (.ok forced) between)
    (hkwargs : (forceKeywords forcing kwargs).Ends between (.ok forcedKwargs) between')
    (h : builtin.validate forced.length forcedKwargs = .ok ()) :
    builtin.validate args.length kwargs = .ok () := by
  have hkeys : forcedKwargs.map Prod.fst = kwargs.map Prod.fst := by
    refine hkwargs.mapM_map fun entry store b after hentry => ?_
    obtain ⟨value, _, -, hpure⟩ := ends_bind_ok.mp hentry
    rw [(ends_pure_ok.mp hpure).1]
  rw [validate_eq_ok, hargs.mapM_length, hkeys] at h
  exact validate_eq_ok.mpr h

theorem Builtin.run_ok (h : (builtin.run forcing env args kwargs).Ends store (.ok w) after) :
    builtin.validate args.length kwargs = .ok () := by
  obtain ⟨⟨⟩, _, hvalid, -⟩ := ends_bind_ok.mp h
  exact (ends_ofExcept.mp hvalid).1.symm

theorem Builtin.no_keywords (hlazy : builtin.arity.strict = false)
    (h : builtin.validate args.length kwargs = .ok ()) : kwargs = [] := by
  have hnone : builtin.keywords = [] := by cases builtin <;> first | rfl | cases hlazy
  have hkeys := (validate_eq_ok.mp h).2
  cases kwargs with
  | nil => rfl
  | cons entry rest =>
    have hkey := hkeys entry.1 (List.mem_map_of_mem List.mem_cons_self)
    rw [hnone] at hkey
    cases hkey

/-! ## 2. The deferred calls -/

/-- What a deferred call of a function does first. -/
theorem Value.forceOnce_call_ends {node : NodeId} {target : Value} {outcome : Except Failure Value}
    {between : Store} (htarget : (forcing.force target).Ends store
      (.ok (.function (.eager builtin))) between) :
    ((Value.call node env target args kwargs).forceOnce forcing).Ends store outcome after ↔
      (do
        let args ← args.mapM forcing.force
        let kwargs ← forceKeywords forcing kwargs
        let _ ← Eval.environment env
        builtin.run forcing env args kwargs).Ends between outcome after :=
  htarget.bind_iff

namespace Value

variable {patience room : Nat} {outcome : Except Failure Value} {node : NodeId} {nameEnv : EnvId}
  {name : String}

theorem Normal.resolveOr_eq (limit : Eval Value) (patience room : Nat) (hw : w.Normal) :
    w.resolveOr limit patience room = pure w := by
  cases room <;> exact hw.resolveWith_eq _

theorem resolveOr_function_ends (limit : Eval Value) (patience room : Nat) (f : Function)
    (store : Store) :
    ((Value.function f).resolveOr limit patience room).Ends store (.ok (.function f)) store := by
  rw [(Normal.function f).resolveOr_eq]
  exact ends_pure_self _ _

theorem resolveOr_symbol_ends {f : Function} (limit : Eval Value)
    (hname : store.visible? nameEnv name = some (.function f)) :
    ((Value.symbol nameEnv name).resolveOr limit patience (room + 1)).Ends store
      (.ok (.function f)) store := by
  have hstep : ∀ forcing, ((Value.symbol nameEnv name).forceOnce forcing).Ends store
      (.ok (.function f)) store := fun forcing => forceOnce_symbol_ends.mpr ⟨hname, rfl⟩
  have hsteps : ((Value.symbol nameEnv name).unwindOr limit
      ⟨resolveOr limit patience room, patience⟩ (255 + 1)).Ends store (.ok (.function f)) store :=
    (hstep _).bind (ends_pure_self _ _)
  exact hsteps.bind (resolveOr_function_ends limit patience room f store)

/-- Where there is room to look the name up, a call by name ends like the call of the function. -/
theorem resolveOr_named_iff (limit : Eval Value)
    (hname : store.visible? nameEnv name = some (.function (.eager builtin))) :
    ((Value.call node env (.symbol nameEnv name) args kwargs).resolveOr limit patience
        (room + 2)).Ends store outcome after ↔
      ((Value.call node env (.function (.eager builtin)) args kwargs).resolveOr limit patience
        (room + 2)).Ends store outcome after := by
  let forcing : Forcing := ⟨resolveOr limit patience (room + 1), patience⟩
  let named : Value := .call node env (.symbol nameEnv name) args kwargs
  let called : Value := .call node env (.function (.eager builtin)) args kwargs
  -- Both targets are forced to the function, and nothing else tells the calls apart.
  have hstep : ∀ outcome after, (named.forceOnce forcing).Ends store outcome after ↔
      (called.forceOnce forcing).Ends store outcome after := by
    intro outcome after
    rw [forceOnce_call_ends (resolveOr_symbol_ends limit hname),
      forceOnce_call_ends (resolveOr_function_ends limit _ _ _ _)]
  have hsteps : ∀ outcome after, (named.unwindOr limit forcing (255 + 1)).Ends store outcome after ↔
      (called.unwindOr limit forcing (255 + 1)).Ends store outcome after := by
    intro outcome after
    rw [unwindOr, unwindOr, ends_bind, ends_bind]
    simp only [hstep]
  show (named.unwindOr limit forcing (255 + 1) >>= _).Ends store outcome after ↔
    (called.unwindOr limit forcing (255 + 1) >>= _).Ends store outcome after
  rw [ends_bind, ends_bind]
  simp only [hsteps]

/-- A call by name takes one level for the call and one for the name. -/
theorem two_le_of_named_ends
    (h : ((Value.call node env (.symbol nameEnv name) args kwargs).resolveOr outOfFuel patience
      room).Ends store outcome after) : 2 ≤ room := by
  let forcing : Forcing := ⟨Value.resolveOr outOfFuel patience 0, patience⟩
  let named : Value := .call node env (.symbol nameEnv name) args kwargs
  have hstep : ∀ outcome after, ¬ (named.forceOnce forcing).Ends store outcome after :=
    not_ends_bind fun _ _ => ends_outOfFuel
  have hsteps : ∀ outcome after, ¬ (named.unwindOr outOfFuel forcing (255 + 1)).Ends store outcome
      after := not_ends_bind hstep
  match room, h with
  | 0, h => exact absurd h ends_outOfFuel
  | 1, h => exact absurd h (not_ends_bind hsteps _ _)
  | room + 2, _ => exact Nat.le_add_left 2 room

/-- The steps that are left after the first one, and what they lead to, are no more than resolving
what the first step gives. -/
theorem unwindOr_resolveOr_below (left : Nat) (hleft : left ≤ depthLimit) (w : Value) :
    ((if w.isDeferred && !w.isSequence then
        w.unwindOr outOfFuel ⟨resolveOr outOfFuel patience room, patience⟩ left
      else pure w) >>= resolveOr outOfFuel patience room).Below
      (w.resolve patience (room + 1)) := by
  rw [← resolveOr_tooDeep]
  have hroom : Roomier outOfFuel (throw .tooDeep) room room := ⟨outOfFuel_below _, .inl rfl⟩
  cases hw : w.isDeferred && !w.isSequence with
  | true =>
    obtain ⟨hdeferred, hsequence⟩ : w.isDeferred = true ∧ w.isSequence = false := by
      simpa using hw
    have hforcing : Forcing.Below ⟨resolveOr outOfFuel patience room, patience⟩
        ⟨resolveOr (throw .tooDeep) patience room, patience⟩ :=
      ⟨resolveOr_below hroom (Nat.le_refl _), (Nat.le_refl _)⟩
    rw [if_pos rfl, resolveOr, resolveWith_deferred _ hdeferred hsequence]
    exact below_bind (unwindOr_below hforcing ⟨outOfFuel_below _, .inr ⟨rfl, hleft⟩⟩ w)
      fun found => resolveOr_below hroom (Nat.le_refl _) found
  | false =>
    rw [if_neg Bool.false_ne_true, pure_bind]
    exact resolveOr_below ⟨outOfFuel_below _, .inr ⟨rfl, Nat.le_succ room⟩⟩ (Nat.le_refl _) w

end Value

/-! ## 3. The direct call -/

/-- Forcing with less room, that gives up at its limits, and forcing as it is done. -/
theorem Forcing.resolveOr_below {patience room room' : Nat} (hroom : room ≤ room') :
    Forcing.Below ⟨Value.resolveOr outOfFuel patience room, patience⟩
      ⟨Value.resolve patience room', patience⟩ where
  force v := by
    dsimp only
    rw [← Value.resolveOr_tooDeep]
    exact Value.resolveOr_below ⟨outOfFuel_below _, .inr ⟨rfl, hroom⟩⟩ (Nat.le_refl _) v
  patience := Nat.le_refl _

/-- An environment that exists is still there when values have been forced. -/
theorem Store.Grows.environment_ends {before : Store} (h : before.Grows after)
    (hlive : (before.live? env).isSome = true) :
    ∃ environment, (Eval.environment env).Ends after (.ok environment) after := by
  have hmap := congrArg Option.isSome (h.live? env)
  rw [Option.isSome_map, Option.isSome_map, hlive] at hmap
  obtain ⟨environment, hfound⟩ := Option.isSome_iff_exists.mp hmap
  exact ⟨environment, ends_environment_ok.mpr ⟨hfound, rfl⟩⟩

namespace Builtin

variable {patience room room' : Nat} {node : NodeId} {outcome : Except Failure Value}

/-- What a deferred call does first, a direct call does, with at least as much room. -/
theorem direct_ends (hroom : room ≤ room') (hlive : (store.live? env).isSome = true)
    (hargs : builtin.arity.strict = true ∨ ∀ arg ∈ args, arg.Normal)
    (hvalid : builtin.validate args.length kwargs = .ok ())
    (h : ((Value.call node env (.function (.eager builtin)) args kwargs).forceOnce
      ⟨Value.resolveOr outOfFuel patience room, patience⟩).Ends store outcome after) :
    (callValue ⟨Value.resolve patience room', patience⟩ env (.function (.eager builtin)) args
      kwargs).Ends store outcome after := by
  have hbelow : Forcing.Below ⟨Value.resolveOr outOfFuel patience room, patience⟩
      ⟨Value.resolve patience room', patience⟩ := Forcing.resolveOr_below hroom
  have hkeeps : Forcing.Keeps Store.Grows ⟨Value.resolve patience room', patience⟩ :=
    Value.resolve_keeps patience room'
  replace h := (Value.forceOnce_call_ends (Value.resolveOr_function_ends _ _ _ _ _)).mp h
  unfold callValue
  dsimp only
  cases hstrict : builtin.arity.strict with
  | true =>
    rw [if_pos rfl]
    rcases ends_bind.mp h with ⟨forced, afterArgs, hforced, h⟩ | ⟨failure, hforced, rfl⟩
    · have hforced := below_mapM (fun arg _ => hbelow.force arg) _ _ _ hforced
      refine hforced.bind ?_
      rcases ends_bind.mp h with ⟨forcedKwargs, afterKwargs, hkwargs, h⟩ | ⟨failure, hkwargs, rfl⟩
      · have hkwargs := forceKeywords_below hbelow kwargs _ _ _ hkwargs
        refine hkwargs.bind ?_
        have hgrows : store.Grows afterKwargs := trans_of Store.Grows
          (keeps_mapM (fun arg _ => hkeeps arg) _ _ _ hforced)
          (forceKeywords_keeps hkeeps kwargs _ _ _ hkwargs)
        obtain ⟨environment, henv⟩ := hgrows.environment_ends hlive
        exact run_below hbelow env builtin forced forcedKwargs _ _ _ (henv.bind_iff.mp h)
      · exact (forceKeywords_below hbelow kwargs _ _ _ hkwargs).bind_error
    · exact (below_mapM (fun arg _ => hbelow.force arg) _ _ _ hforced).bind_error
  | false =>
    have hnormal : ∀ arg ∈ args, arg.Normal := by simpa [hstrict] using hargs
    obtain rfl : kwargs = [] := no_keywords hstrict hvalid
    rw [if_neg Bool.false_ne_true]
    -- There is nothing to force.
    have hforced : args.mapM (Value.resolveOr outOfFuel patience room) = pure args :=
      Eval.mapM_eq_pure fun arg harg => (hnormal arg harg).resolveOr_eq _ _ _
    obtain ⟨environment, henv⟩ := (refl_of Store.Grows store).environment_ends hlive
    rw [hforced, pure_bind] at h
    exact run_below hbelow env builtin args [] _ _ _ (henv.bind_iff.mp h)

/-- A deferred call that meets no limit ends like the direct call, if that is forced as well. -/
theorem forceCall_direct_ends (hlive : (store.live? env).isSome = true)
    (hargs : builtin.arity.strict = true ∨ ∀ arg ∈ args, arg.Normal)
    (hvalid : builtin.validate args.length kwargs = .ok ())
    (h : ((Value.call node env (.function (.eager builtin)) args kwargs).resolveOr outOfFuel
      patience room).Ends store outcome after) :
    (forceCall ⟨Value.resolve patience room, patience⟩ env (.function (.eager builtin)) args
      kwargs).Ends store outcome after := by
  cases room with
  | zero => exact absurd h ends_outOfFuel
  | succ room =>
    obtain ⟨left, hleft⟩ : ∃ left, depthLimit = left + 1 := ⟨255, rfl⟩
    change (Value.unwindOr _ _ depthLimit _ >>= _).Ends store outcome after at h
    rw [hleft, Value.unwindOr, bind_assoc] at h
    rcases ends_bind.mp h with ⟨w, between, hstep, h⟩ | ⟨failure, hstep, rfl⟩
    · have hcall := direct_ends (Nat.le_succ room) hlive hargs hvalid hstep
      exact hcall.bind (Value.unwindOr_resolveOr_below left (by omega) w _ _ _ h)
    · exact (direct_ends (Nat.le_succ room) hlive hargs hvalid hstep).bind_error

/-! ## 4. All three calls -/

theorem forceCall_direct_valid
    (h : (forceCall forcing env (.function (.eager builtin)) args kwargs).Ends store (.ok w)
      after) : builtin.validate args.length kwargs = .ok () := by
  obtain ⟨_, _, hcall, -⟩ := ends_bind_ok.mp h
  unfold callValue at hcall
  dsimp only at hcall
  cases hstrict : builtin.arity.strict with
  | true =>
    rw [hstrict, if_pos rfl] at hcall
    obtain ⟨forced, _, hargs, hcall⟩ := ends_bind_ok.mp hcall
    obtain ⟨forcedKwargs, _, hkwargs, hrun⟩ := ends_bind_ok.mp hcall
    exact validate_forced hargs hkwargs (run_ok hrun)
  | false =>
    rw [hstrict, if_neg Bool.false_ne_true] at hcall
    exact run_ok hcall

theorem forceCall_lazy_valid
    (h : (forceCall forcing env (.function (.lazy builtin)) args kwargs).Ends store (.ok w) after) :
    builtin.validate args.length kwargs = .ok () := by
  obtain ⟨_, _, hcall, -⟩ := ends_bind_ok.mp h
  obtain ⟨⟨⟩, _, hvalid, -⟩ := ends_bind_ok.mp hcall
  exact (ends_ofExcept.mp hvalid).1.symm

theorem resolve_call_valid (hroom : 0 < room)
    (h : ((Value.call node env (.function (.eager builtin)) args kwargs).resolve patience
      room).Ends store (.ok w) after) : builtin.validate args.length kwargs = .ok () := by
  obtain ⟨room, rfl⟩ := Nat.exists_eq_add_of_lt hroom
  obtain ⟨_, _, hsteps, -⟩ := ends_bind_ok.mp h
  obtain ⟨_, _, hstep, -⟩ := ends_bind_ok.mp hsteps
  have hfunction : ((Value.function (.eager builtin)).resolve patience (0 + room)).Ends store
      (.ok (.function (.eager builtin))) store := by
    rw [(Value.Normal.function _).resolve_eq]
    exact ends_pure_self _ _
  replace hstep := (Value.forceOnce_call_ends hfunction).mp hstep
  obtain ⟨forced, _, hargs, hstep⟩ := ends_bind_ok.mp hstep
  obtain ⟨forcedKwargs, _, hkwargs, hstep⟩ := ends_bind_ok.mp hstep
  obtain ⟨_, _, -, hrun⟩ := ends_bind_ok.mp hstep
  exact validate_forced hargs hkwargs (run_ok hrun)

theorem forceCall_lazy_ends (hvalid : builtin.validate args.length kwargs = .ok ()) :
    (forceCall forcing env (.function (.lazy builtin)) args kwargs).Ends store outcome after ↔
      (forcing.force (.call store.nextNode env (.function (.eager builtin)) args kwargs)).Ends
        { store with nextNode := store.nextNode + 1 } outcome after := by
  have hstart : (ofExcept (builtin.validate args.length kwargs)).Ends store (.ok ()) store := by
    rw [ends_ofExcept, hvalid]
    exact ⟨rfl, rfl⟩
  unfold forceCall callValue
  dsimp only
  rw [bind_assoc, hstart.bind_iff]
  exact ends_call_bind

/-- A call by name takes two levels of depth, and fails at the limit where there are not as many.
Where there are, it gives the same value as the call through the lazy form, if any, and leaves the
same store, so both write the same.

Suppose further that the call by name meets no limit when it is forced, not even inside of a text.
Then the direct call gives the same value too, and leaves the same store, from a store where the
number of the deferred call is taken; for a function that takes its arguments as they are, this
needs arguments without anything to force. -/
theorem forceCall_ok_iff {nameEnv : EnvId} {name : String}
    (hname : store.visible? nameEnv name = some (.function (.eager builtin))) :
    let forcing : Forcing := ⟨Value.resolve patience room, patience⟩
    let named (way : Forcing) := forceCall way env (.symbol nameEnv name) args kwargs
    (room < 2 → ∃ last, (named forcing).Ends store (.error .tooDeep) last) ∧
    (2 ≤ room → ∀ w after,
      (forceCall forcing env (.function (.lazy builtin)) args kwargs).Ends store (.ok w) after ↔
        (named forcing).Ends store (.ok w) after) ∧
    ((store.live? env).isSome = true → ∀ outcome last,
      (named ⟨Value.resolveOr outOfFuel patience room, patience⟩).Ends store outcome last →
      2 ≤ room ∧ (builtin.arity.strict = true ∨ (∀ arg ∈ args, arg.Normal) → ∀ w after,
        (forceCall forcing env (.function (.eager builtin)) args kwargs).Ends
            { store with nextNode := store.nextNode + 1 } (.ok w) after ↔
          (named forcing).Ends store (.ok w) after)) := by
  intro forcing named
  let numbered : Store := { store with nextNode := store.nextNode + 1 }
  let called : Value := .call store.nextNode env (.function (.eager builtin)) args kwargs
  have hnamed : ∀ forcing outcome after, (named forcing).Ends store outcome after ↔
      (forcing.force (.call store.nextNode env (.symbol nameEnv name) args kwargs)).Ends numbered
        outcome after := fun _ _ _ => ends_call_bind
  have hvisible : numbered.visible? nameEnv name = some (.function (.eager builtin)) := hname
  -- From here on both deferred calls are one: that of the function.
  have hcalled : 2 ≤ room → ∀ outcome after, (named forcing).Ends store outcome after ↔
      (called.resolve patience room).Ends numbered outcome after := by
    intro hroom outcome after
    obtain ⟨room, rfl⟩ := Nat.exists_eq_add_of_le' hroom
    rw [hnamed]
    show (Value.resolve patience (room + 2) _).Ends numbered outcome after ↔ _
    rw [← Value.resolveOr_tooDeep, ← Value.resolveOr_tooDeep]
    exact Value.resolveOr_named_iff _ hvisible
  refine ⟨?_, ?_, ?_⟩
  · intro hroom
    refine ⟨numbered, (hnamed _ _ _).mpr ?_⟩
    obtain rfl | rfl : room = 0 ∨ room = 1 := by omega
    · rfl
    · rfl
  · intro hroom w after
    rw [hcalled hroom]
    constructor
    · exact fun h => (forceCall_lazy_ends (forceCall_lazy_valid h)).mp h
    · exact fun h => (forceCall_lazy_ends (resolve_call_valid (by omega) h)).mpr h
  · intro hlive outcome last hlimit
    have hends := (hnamed _ _ _).mp hlimit
    have hroom := Value.two_le_of_named_ends hends
    refine ⟨hroom, fun hargs w after => ?_⟩
    -- Without a limit, the deferred call ends as supposed, and so does the direct one.
    obtain ⟨room, rfl⟩ := Nat.exists_eq_add_of_le' hroom
    have hcall := (Value.resolveOr_named_iff outOfFuel hvisible).mp hends
    have hbelow := (Forcing.resolveOr_below (Nat.le_refl (room + 2))).force called _ _ _ hcall
    have hthere : (numbered.live? env).isSome = true := hlive
    have hdirect := fun hvalid => forceCall_direct_ends hthere hargs hvalid hcall
    rw [hcalled hroom]
    constructor
    · intro h
      obtain ⟨rfl, rfl⟩ := h.unique (hdirect (forceCall_direct_valid h))
      exact hbelow
    · intro h
      obtain ⟨rfl, rfl⟩ := h.unique hbelow
      exact hdirect (resolve_call_valid (by omega) h)

/-- The greater one of a name and a number. -/
theorem forceCall_ok_iff_max :
    let store := Store.single [("x", .int 2), ("f", .function (.eager .max))]
    let args : List Value := [.symbol 0 "x", .int 1]
    let after := { store with nextNode := 1 }
    (forceCall (Forcing.top 0) 0 (.symbol 0 "f") args []).Ends store (.ok (.int 2)) after ∧
      (forceCall (Forcing.top 0) 0 (.function (.lazy .max)) args []).Ends store (.ok (.int 2))
        after ∧
      (forceCall (Forcing.top 0) 0 (.function (.eager .max)) args []).Ends after (.ok (.int 2))
        after := by
  intro store args after
  have hnamed : (forceCall (Forcing.top 0) 0 (.symbol 0 "f") args []).Ends store (.ok (.int 2))
      after := rfl
  have hlimit : (forceCall ⟨Value.resolveOr outOfFuel 0 depthLimit, 0⟩ 0 (.symbol 0 "f") args
      []).Ends store (.ok (.int 2)) after := rfl
  have hname : store.visible? 0 "f" = some (.function (.eager .max)) := rfl
  have hroom : 2 ≤ depthLimit := by decide
  exact ⟨hnamed, ((forceCall_ok_iff hname).2.1 hroom _ _).mpr hnamed,
    (((forceCall_ok_iff hname).2.2 rfl _ _ hlimit).2 (.inl rfl) _ _).mpr hnamed⟩

end Builtin

/-! ## 5. Where they differ -/

def Value.onesProduct : Nat → Value
  | 0 => .int 1
  | n + 1 => .expression 0 0 .multiply (onesProduct n) (.int 1)

theorem Value.resolve_onesProduct (patience n room : Nat) (store : Store) :
    ((onesProduct n).resolve patience room).Ends store
      (if n ≤ room then .ok (.int 1) else .error .tooDeep) store := by
  have hone : ∀ room, (Value.int 1).resolve patience room = pure (.int 1) := by
    intro room
    cases room <;> rfl
  induction n generalizing room with
  | zero =>
    rw [onesProduct, hone, if_pos (Nat.zero_le room)]
    exact ends_pure_self _ _
  | succ n ih =>
    cases room with
    | zero => exact ends_throw.mpr ⟨rfl, rfl⟩
    | succ room =>
      have hleft := ih room
      -- The first factor has one level less.
      by_cases hle : n ≤ room
      · rw [if_pos hle] at hleft
        rw [if_pos (Nat.succ_le_succ hle)]
        have hright : ((Value.int 1).resolve patience room).Ends store (.ok (.int 1)) store := by
          rw [hone]
          exact ends_pure_self _ _
        have happly : (Operator.multiply.apply 0 (.int 1) (.int 1)).Ends store (.ok (.int 1))
            store := rfl
        have hstep : ((onesProduct (n + 1)).forceOnce ⟨resolve patience room, patience⟩).Ends store
            (.ok (.int 1)) store := hleft.bind (hright.bind happly)
        exact Ends.bind (hstep.bind (ends_pure_self _ _)) hright
      · rw [if_neg hle] at hleft
        rw [if_neg (by omega)]
        exact hleft.bind_error.bind_error.bind_error

namespace Builtin

/-- The text of a sequence shows what becomes of its head. -/
theorem run_str_ends {forcing : Forcing} {n : Nat} (hpatience : forcing.patience = n + 1)
    {head tail : Value} {shown : String} {store : Store} {node : NodeId} {env nodeEnv : EnvId}
    (htext : (do
      match ← Display.frontOfHead forcing head with
      | .whole shown => return shown
      | .sequence head => return "Iter(" ++ (← Display.text forcing n head) ++ ", ...)").Ends store
        (.ok shown) store) :
    (Builtin.str.run forcing env [.sequence node nodeEnv head tail] []).Ends store
      (.ok (.str shown)) store := by
  have hvalid : (ofExcept (Builtin.str.validate 1 [])).Ends store (.ok ()) store :=
    ends_ofExcept.mpr ⟨rfl, rfl⟩
  refine hvalid.bind (Ends.bind (a := shown) ?_ (ends_pure_self _ _))
  change (Display.text forcing forcing.patience _).Ends store (.ok shown) store
  rw [hpatience]
  exact htext

/-- A deferred call shows `quote` what its argument stands for.  And where the head of a sequence
nests as deep as the limit allows, its text is made by a direct call, while in the text that a
deferred call makes there is a failure. -/
theorem forceCall_differs :
    let store := Store.single [("x", .int 2)]
    let numbered := { store with nextNode := 1 }
    let v := Value.sequence 0 0 (.onesProduct depthLimit) .nil
    (forceCall (Forcing.top 2) 0 (.function (.eager .quote)) [.symbol 0 "x"] []).Ends numbered
        (.ok (.str "`x")) numbered ∧
      (forceCall (Forcing.top 2) 0 (.function (.lazy .quote)) [.symbol 0 "x"] []).Ends store
        (.ok (.str "2")) numbered ∧
      (forceCall (Forcing.top 2) 0 (.function (.eager .str)) [v] []).Ends numbered
        (.ok (.str "Iter(1, ...)")) numbered ∧
      (forceCall (Forcing.top 2) 0 (.function (.lazy .str)) [v] []).Ends store
        (.ok (.str "Iter(<RecursionError: maximum resolution depth 256 exceeded>, ...)"))
        numbered := by
  intro store numbered v
  have hhead := fun room => Value.resolve_onesProduct 2 depthLimit room numbered
  have hargs : ∀ room, ([v].mapM (Value.resolve 2 room)).Ends numbered (.ok [v]) numbered := by
    intro room
    rw [Eval.mapM_eq_pure (by simp [v, (Value.Normal.sequence ..).resolve_eq])]
    exact ends_pure_self _ _
  have hkwargs : ∀ forcing, (forceKeywords forcing []).Ends numbered (.ok []) numbered :=
    fun _ => rfl
  refine ⟨rfl, rfl, ?_, ?_⟩
  · have hfront : (Display.frontOfHead (Forcing.top 2) (.onesProduct depthLimit)).Ends numbered
        (.ok (.sequence (.int 1))) numbered :=
      (ends_attempt.mpr ⟨_, rfl, hhead depthLimit⟩).bind (ends_pure_self _ _)
    have hone : (Display.text (Forcing.top 2) 1 (.int 1)).Ends numbered (.ok "1") numbered := rfl
    have hrun : (Builtin.str.run (Forcing.top 2) 0 [v] []).Ends numbered
        (.ok (.str "Iter(1, ...)")) numbered :=
      run_str_ends rfl (hfront.bind (hone.bind (ends_pure_self _ _)))
    have hcall : (callValue (Forcing.top 2) 0 (.function (.eager .str)) [v] []).Ends numbered
        (.ok (.str "Iter(1, ...)")) numbered := (hargs depthLimit).bind ((hkwargs _).bind hrun)
    exact hcall.bind rfl
  · let deeper : Forcing := ⟨Value.resolve 2 255, 2⟩
    let shown := "Iter(<RecursionError: maximum resolution depth 256 exceeded>, ...)"
    have hfront : (Display.frontOfHead deeper (.onesProduct depthLimit)).Ends numbered
        (.ok (.whole shown)) numbered :=
      (ends_attempt.mpr ⟨_, rfl, hhead 255⟩).bind (ends_pure_self _ _)
    have hrun : (Builtin.str.run deeper 0 [v] []).Ends numbered (.ok (.str shown)) numbered :=
      run_str_ends rfl (hfront.bind (ends_pure_self _ _))
    have htarget : (deeper.force (.function (.eager .str))).Ends numbered
        (.ok (.function (.eager .str))) numbered := rfl
    have henv : ∃ environment,
        (Eval.environment 0).Ends numbered (.ok environment) numbered := ⟨_, rfl⟩
    obtain ⟨environment, henv⟩ := henv
    have hstep : ((Value.call 0 0 (.function (.eager .str)) [v] []).forceOnce deeper).Ends numbered
        (.ok (.str shown)) numbered :=
      htarget.bind ((hargs 255).bind ((hkwargs _).bind (henv.bind hrun)))
    have hcall : (callValue (Forcing.top 2) 0 (.function (.lazy .str)) [v] []).Ends store
        (.ok (.call 0 0 (.function (.eager .str)) [v] [])) numbered := rfl
    have hsteps : ((Value.call 0 0 (.function (.eager .str)) [v] []).unwind deeper
        (255 + 1)).Ends numbered (.ok (.str shown)) numbered :=
      hstep.bind (ends_pure_self _ _)
    have hlast : ((Value.str shown).resolve 2 255).Ends numbered (.ok (.str shown)) numbered := rfl
    exact hcall.bind (hsteps.bind hlast)

end Builtin

end Deferral
