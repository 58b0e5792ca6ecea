import Deferral.Proofs.SequenceSums

/-!
# Where a sum of sequences ends

Behind the last element that two sequences have in common, their sum forces what is left of both,
the left one first, before it looks whether one of them has ended.  So it ends there if both can be
forced, and else it fails as they do, even if one of the sequences has ended
(`Sequence.collect_concat`, `Sequence.collect_concat_unbound`).
-/

namespace Deferral

open Eval

/-! ## 1. Forcing that fails -/

namespace Pairing.Progress

variable {base : Store} {left middle right next : Nat} {p : Pairing} (hbase : base.Numbered)
  (hp : p.Progress base left middle right) {u u' : Value} {patience room room' : Nat}
  (hroom : room' ≤ room) {failure : Failure}
include hbase hp hroom

theorem fails_left (hnext : next ≤ middle) (hu : Value.Copies base p left u u')
    (hends : (u.resolve patience room).Ends (base.made left) (.error failure) (base.made next)) :
    ∃ failure' after, (u'.resolve patience room').Ends (base.made p.second) (.error failure') after
      ∧ (failure' = .tooDeep ∨ failure' = failure) := by
  have hfirst : next ≤ p.first := (hnext.trans hp.middle_le).trans hp.right_le
  exact hu.force_fails hbase hp.covers hp.base_le hfirst (hp.free_left hnext) room' hroom hends

theorem fails_right (hnext : next ≤ p.first) (hu : Value.Copies base p right u u')
    (hends : (u.resolve patience room).Ends (base.made right) (.error failure) (base.made next)) :
    ∃ failure' after, (u'.resolve patience room').Ends (base.made p.second) (.error failure') after
      ∧ (failure' = .tooDeep ∨ failure' = failure) := by
  exact hu.force_fails hbase hp.covers hp.base_le_right hnext (hp.free_right next) room' hroom hends

end Pairing.Progress

/-! ## 2. The end of a sum -/

namespace Sequence

/-- What stops the sum of two sequences where one of them has ended: the failure to force what is
left of the left one, or else of the right one, or else nothing. -/
def stopOf : Except Failure Value → Except Failure Value → Option Failure
  | .error failure, _ => some failure
  | .ok _, .error failure => some failure
  | .ok _, .ok _ => none

theorem concat_nil (forcing : Forcing) (env : EnvId) {left right : Value}
    (h : left = .nil ∨ right = .nil) : concat forcing env left right = pure .nil := by
  rcases h with rfl | rfl
  · rfl
  · cases left <;> rfl

section
variable {base : Store} (hbase : base.Numbered) {env : EnvId} (hlive : (base.live? env).isSome)
  {p : Pairing} {left left' middle right right' : Nat} {x y : Value} (hleft' : left' ≤ middle)
  (hright' : right' ≤ p.first) {patience room room' : Nat} (hroom : room' ≤ room)
  {found found' : Except Failure Value}
  (hleft : (x.resolve patience room).Ends (base.made left) found (base.made left'))
  (hright : (y.resolve patience room).Ends (base.made right) found' (base.made right'))
  (hnil : found = .ok .nil ∨ found' = .ok .nil)
include hbase hlive hleft' hright' hroom hleft hright hnil

/-- The tails of a sum, where one of the inputs has ended. -/
theorem sumTails_stop {x' y' : Value} (hp : p.Progress base left middle right)
    (hx : Value.Copies base p left x x') (hy : Value.Copies base p right y y') :
    ∃ failure? after, (sumTails ⟨Value.resolve patience room', patience⟩ env x' y').Ends
      (base.made p.second) (failure?.elim (.ok .nil) .error) after ∧
        (failure? = some .tooDeep ∨ failure? = stopOf found found') := by
  cases found with
  | error failure =>
    obtain ⟨failure', after, hfails, hsame⟩ := hp.fails_left hbase hroom hleft' hx hleft
    exact ⟨some failure', after, hfails.bind_error, hsame.imp (congrArg some) (congrArg some)⟩
  | ok u =>
    rcases hp.force_left hbase room' hleft' hx hleft with
      ⟨after, hlimit⟩ | ⟨u', _, hfound, q, rfl, hq, hp', hu, -⟩
    · exact ⟨some .tooDeep, after, hlimit.bind_error, .inl rfl⟩
    have hy := hy.carry hq hp'.covers hp.right_le
    have hfirst : right' ≤ q.first := hq.first ▸ hright'
    cases found' with
    | error failure =>
      obtain ⟨failure', after, hfails, hsame⟩ := hp'.fails_right hbase hroom hfirst hy hright
      exact ⟨some failure', after, hfound.bind hfails.bind_error,
        hsame.imp (congrArg some) (congrArg some)⟩
    | ok v =>
      rcases hp'.force_right hbase room' hfirst hy hright with
        ⟨after, hlimit⟩ | ⟨v', _, hfound', q', rfl, -, -, hv, -⟩
      · exact ⟨some .tooDeep, after, hfound.bind hlimit.bind_error, .inl rfl⟩
      -- What stands for nothing is nothing.
      have hended : u' = .nil ∨ v' = .nil := by
        rcases hnil with ⟨⟨⟩⟩ | ⟨⟨⟩⟩
        · cases hu.alike
          exact .inl rfl
        · cases hv.alike
          exact .inr rfl
      obtain ⟨environment, henvironment⟩ := Option.isSome_iff_exists.mp hlive
      have hends : (Eval.environment env).Ends (base.made q'.second) (.ok environment)
          (base.made q'.second) := ends_environment_ok.mpr ⟨henvironment, rfl⟩
      refine ⟨none, base.made q'.second, hfound.bind (hfound'.bind (hends.bind ?_)), .inr rfl⟩
      rw [concat_nil _ _ hended]
      exact ends_pure_self _ _

/-- A sum stops where one of its inputs has ended. -/
theorem SumTail.stops {tail : Value} (htail : SumTail base env p left middle right x y tail) :
    ∃ failure? after, Stops ⟨Value.resolve patience room', patience⟩ (base.made p.second) tail
      failure? after ∧ (failure? = some .tooDeep ∨ failure? = stopOf found found') := by
  obtain @⟨node, x', y', hp, hx, hy⟩ := htail
  cases room' with
  | zero => exact ⟨some .tooDeep, _, rfl, .inl rfl⟩
  | succ room' =>
    obtain ⟨failure?, after, hends, hsame⟩ := sumTails_stop hbase hlive hleft' hright'
      ((Nat.le_succ room').trans hroom) hleft hright hnil hp hx hy
    rw [← resolve_sum_tail patience room' node] at hends
    refine ⟨failure?, after, ?_, hsame⟩
    cases failure? with
    | none => exact Ends.bind hends (ends_pure_self _ _)
    | some failure => exact Ends.bind_error hends

end

/-! ## 3. The theorem -/

theorem Stops.collect {forcing : Forcing} {store between after : Store} {v remaining : Value}
    {items : List Value} {failure? : Option Failure}
    (h : Stops forcing between remaining failure? after) (hv : v.isSequence)
    (hyields : Yields forcing store v items remaining between)
    (hlength : items.length < forcing.patience) :
    (collect forcing v).Ends store (failure?.elim (.ok (.list items)) .error) after := by
  rw [collect_eq hv, ends_map]
  refine ⟨_, collectItems_ends.mpr ⟨items, remaining, between, failure?, hlength, hyields, h, rfl⟩,
    ?_⟩
  cases failure? <;> rfl

/-- Two sequences are followed along as many elements, and what is left of them is forced, where one
of them turns out to have ended.  If the elements can be added, then all of the sum is collected:
these are their sums, up to new numbers for the nodes that have been made, if what is left of both
could be forced, and else it fails as the first of the two did; or the limit is met. -/
theorem collect_concat {store store₁ store₂ store₃ store₄ : Store} {env : EnvId}
    {left right restLeft restRight : Value} {as bs cs : List Value}
    {found found' : Except Failure Value} {next : NodeId} {patience room : Nat}
    (hstore : store.Numbered) (hlive : (store.live? env).isSome) (hleft : IsInput store left)
    (hright : IsInput store right) (hne : as ≠ []) (hlength : as.length = bs.length)
    (hyields : Yields ⟨Value.resolve patience room, patience⟩ store left as restLeft store₁)
    (hfound : (restLeft.resolve patience room).Ends store₁ found store₂)
    (hyields' : Yields ⟨Value.resolve patience room, patience⟩ store₂ right bs restRight store₃)
    (hfound' : (restRight.resolve patience room).Ends store₃ found' store₄)
    (hnil : found = .ok .nil ∨ found' = .ok .nil)
    (hsums : List.Forall₂ (IsSum env store₄) (as.zip bs) cs) (hpatience : as.length < patience)
    (hnext : store.nextNode ≤ next) (room₁ : Nat) {room₂ : Nat} (hroom : room₂ ≤ room) :
    (concat ⟨Value.resolve patience room₁, patience⟩ env left right).WithinLimit (store.made next)
      fun s between => s.isSequence ∧ ∃ outcome after,
        (collect ⟨Value.resolve patience room₂, patience⟩ s).Ends between outcome after ∧
          (outcome = .error .tooDeep ∨
            ∃ rename : NodeId → NodeId, Function.Injective rename ∧
              (∀ node < store.nextNode, rename node = node) ∧
              outcome = (stopOf found found').elim (.ok (.list (cs.map (Value.renumber rename))))
                .error) := by
  obtain ⟨l, hl, rfl, hquiet⟩ := yields_quiet hstore le_rfl hleft.quiet hyields
  obtain ⟨middle, hmiddle, rfl, -⟩ := Value.resolve_quiet hstore hl hquiet hfound
  have hle : store.nextNode ≤ middle := hl.trans hmiddle
  obtain ⟨r, hr, rfl, hquiet'⟩ := yields_quiet hstore hle (hright.quiet.mono hle) hyields'
  obtain ⟨first, hfirst, rfl, -⟩ := Value.resolve_quiet hstore (hle.trans hr) hquiet' hfound'
  have hp : (Pairing.since store.nextNode first next).Progress store store.nextNode middle middle :=
    .since hle (hr.trans hfirst) hnext
  have hcount : cs.length = as.length := by
    rw [← hsums.length_eq, List.length_zip, ← hlength, Nat.min_self]
  refine (concat_run hstore hlive hyields hyields' hlength hsums hmiddle hfirst hleft.sequence
    hright.sequence hne hp (.self hp.covers hleft.quiet le_rfl) (.self hp.covers hright.quiet hle)
    room₁ room₂).mono ?_
  rintro s between ⟨hs, ⟨items, remaining, last, after, hshort, hitems, hstops⟩ |
    ⟨q, cs', tail, hitems, hq, hcs, htail⟩⟩
  · exact ⟨hs, _, after, hstops.collect hs hitems (hshort.trans (hcount ▸ hpatience)), .inl rfl⟩
  · have hq : first ≤ q.first := hq.first ▸ le_rfl
    obtain ⟨failure?, after, hstops, hsame⟩ :=
      htail.stops hstore hlive le_rfl hq hroom hfound hfound' hnil
    obtain ⟨rename, hinjective, hold, rfl⟩ :=
      Value.Copies.renamed htail.inputs.1.covers (hfirst.trans hq) hcs
    have hcollected := hstops.collect hs hitems (by simpa [hcount] using hpatience)
    refine ⟨hs, _, after, hcollected, hsame.imp (fun hlimit => ?_) fun hstop => ?_⟩
    · rw [hlimit]
      rfl
    · rw [hstop]
      exact ⟨rename, hinjective, hold, rfl⟩

/-- One sequence ends where the other goes on, on either side of the sum.  What is behind the next
element of the other does not matter. -/
theorem collect_concat_shorter :
    let forcing : Forcing := ⟨Value.resolve 5 depthLimit, 5⟩
    let rest := Value.sequence 1 0 (.int 20) (.symbol 0 "missing")
    let short := Value.sequence 0 0 (.int 1) .nil
    let long := Value.sequence 2 0 (.int 10) rest
    let store : Store := (Store.single []).made 3
    ((store.Numbered ∧ IsInput store short ∧ IsInput store long) ∧
      (Yields forcing store short [.int 1] .nil store ∧
        (forcing.force .nil).Ends store (.ok .nil) store) ∧
      Yields forcing store long [.int 10] rest store ∧
        (forcing.force rest).Ends store (.ok rest) store) ∧
    ∀ left right, (left = short ∧ right = long) ∨ (left = long ∧ right = short) →
      (concat forcing 0 left right).WithinLimit store fun s between =>
        ∃ outcome after, (collect forcing s).Ends between outcome after ∧
          (outcome = .error .tooDeep ∨ outcome = .ok (.list [.int 11])) := by
  intro forcing rest short long store
  let values : List Value := [short, .int 1, .nil, long, .int 10, rest, .int 20,
    .symbol 0 "missing"]
  have hclosed : ∀ u ∈ values, ∀ w ∈ store.parts u, w ∈ values := by
    have hmissing : store.visible? 0 "missing" = none := rfl
    simp [values, short, long, rest, Store.parts, hmissing]
  have havoids : ∀ v ∈ values, store.Avoids [.str, .repr, .print] v :=
    fun v hv => .of_closed hclosed (by simp [values, short, long, rest]) hv
  have hshort : IsInput store short := ⟨rfl, .sequence 0 (by decide) (.int 1) .nil,
    havoids short (by simp [values])⟩
  have hlong : IsInput store long := ⟨rfl, .sequence 0 (by decide) (.int 10)
    (.sequence 0 (by decide) (.int 20) (.symbol 0 "missing")), havoids long (by simp [values])⟩
  have hstore : store.Numbered := Store.single_numbered (by simp)
  have hyields : Yields forcing store short [.int 1] .nil store := .cons rfl (.nil _ _)
  have hyields' : Yields forcing store long [.int 10] rest store := .cons rfl (.nil _ _)
  have hend : (forcing.force .nil).Ends store (.ok .nil) store := rfl
  have hend' : (forcing.force rest).Ends store (.ok rest) store := rfl
  refine ⟨⟨⟨hstore, hshort, hlong⟩, ⟨hyields, hend⟩, hyields', hend'⟩, ?_⟩
  have hsum : IsSum 0 store (.int 1, .int 10) (.int 11) := ⟨rfl, store, rfl⟩
  have hsum' : IsSum 0 store (.int 10, .int 1) (.int 11) := ⟨rfl, store, rfl⟩
  rintro left right (⟨rfl, rfl⟩ | ⟨rfl, rfl⟩)
  · refine (collect_concat hstore rfl hshort hlong (List.cons_ne_nil _ _) (by rfl) hyields hend
      hyields' hend' (.inl rfl) (.cons hsum .nil) (by decide) le_rfl depthLimit le_rfl).mono ?_
    rintro s between ⟨-, outcome, after, hends, hlimit | ⟨rename, -, -, rfl⟩⟩
    · exact ⟨outcome, after, hends, .inl hlimit⟩
    · exact ⟨_, after, hends, .inr rfl⟩
  · refine (collect_concat hstore rfl hlong hshort (List.cons_ne_nil _ _) (by rfl) hyields' hend'
      hyields hend (.inr rfl) (.cons hsum' .nil) (by decide) le_rfl depthLimit le_rfl).mono ?_
    rintro s between ⟨-, outcome, after, hends, hlimit | ⟨rename, -, -, rfl⟩⟩
    · exact ⟨outcome, after, hends, .inl hlimit⟩
    · exact ⟨_, after, hends, .inr rfl⟩

/-- A sequence of one element, and one that fails behind its first.  Their sum fails there, although
the first of them has ended. -/
theorem collect_concat_unbound :
    let forcing : Forcing := ⟨Value.resolve 5 depthLimit, 5⟩
    let short := Value.sequence 0 0 (.int 1) .nil
    let failing := Value.sequence 1 0 (.int 10) (.symbol 0 "missing")
    let store : Store := (Store.single []).made 2
    (collect forcing short).Ends store (.ok (.list [.int 1])) store ∧
      (take forcing 1 failing).Ends store (.ok (.list [.int 10])) store ∧
      IsSum 0 store (.int 1, .int 10) (.int 11) ∧
      ∃ s between, (concat forcing 0 short failing).Ends store (.ok s) between ∧
        ∀ outcome after, (collect forcing s).Ends between outcome after →
          outcome = .error (.unbound "missing") := by
  intro forcing short failing store
  let s := Value.sequence 3 0 (.int 11) (sumTail 2 0 .nil (.symbol 0 "missing"))
  have hfails : (collect forcing s).Ends (store.made 4) (.error (.unbound "missing"))
      (store.made 4) := rfl
  exact ⟨rfl, rfl, ⟨rfl, store, rfl⟩, s, _, rfl, fun outcome after h => (h.unique hfails).1⟩

end Sequence

end Deferral
