import Deferral.Proofs.Iteration
import Deferral.Proofs.Repetition

/-!
# Sums of sequences

The sum of two sequences has the sums of their elements, as far as both inputs are followed
(`Sequence.take_concat`).  Its tail is a call that forces the tails of both inputs, one level deeper
than following the inputs does.  So to follow the sum is to repeat the runs along the two inputs by
turns, and each of these steps may meet the limit.
-/

namespace Deferral

open Eval

/-! ## 1. The tail of a sum -/

namespace Sequence

def sumTails (forcing : Forcing) (env : EnvId) (left right : Value) : Eval Value := do
  let left ← forcing.force left
  let right ← forcing.force right
  let _ ← Eval.environment env
  concat forcing env left right

theorem concat_bind {forcing : Forcing} {env : EnvId} {left right : Value}
    {next : Value → Eval Value} (hnil : next .nil = pure .nil)
    (hsequence : ∀ node env head tail,
      next (.sequence node env head tail) = pure (.sequence node env head tail)) :
    concat forcing env left right >>= next = concat forcing env left right := by
  have hthrow : ∀ failure : Failure, (throw failure : Eval Value) >>= next = throw failure :=
    fun _ => rfl
  unfold concat
  split
  · rw [pure_bind, hnil]
  · rw [pure_bind, hnil]
  · simp only [bind_assoc, Eval.sequence, pure_bind, hsequence]
  · exact hthrow _
  · exact hthrow _

def sumTail (node : NodeId) (env : EnvId) (left right : Value) : Value :=
  .call node env (.function (.eager .concat)) [left, right] []

/-- Forcing the tail of a sum, with room for one level more. -/
theorem resolve_sum_tail (patience room : Nat) (node : NodeId) (env : EnvId) (left right : Value) :
    (sumTail node env left right).resolve patience (room + 1) =
      sumTails ⟨Value.resolve patience room, patience⟩ env left right := by
  have hfunction : (Value.function (.eager .concat)).resolve patience room =
      pure (.function (.eager .concat)) := (Value.Normal.function _).resolve_eq _ _
  have hstep : (sumTail node env left right).forceOnce ⟨Value.resolve patience room, patience⟩ =
      sumTails ⟨Value.resolve patience room, patience⟩ env left right := by
    rw [sumTail, Value.forceOnce]
    dsimp only
    rw [hfunction, pure_bind]
    simp only [List.mapM_cons, List.mapM_nil, forceKeywords, bind_assoc, pure_bind]
    rfl
  change Value.unwind _ (255 + 1) (sumTail node env left right) >>= Value.resolve patience room = _
  rw [Value.unwind, hstep, bind_assoc]
  simp only [sumTails, bind_assoc]
  refine bind_congr fun left => bind_congr fun right => bind_congr fun _ => ?_
  refine concat_bind ?_ fun node env head tail => ?_
  · exact Value.Normal.nil.resolve_eq _ _
  · exact (Value.Normal.sequence node env head tail).resolve_eq _ _

end Sequence

/-! ## 2. Steps along one input -/

namespace Sequence

/-- A step along a sequence: what is left of it is forced, and then the head that is found.  This
makes the nodes with numbers from `a` to below `b`. -/
inductive Finds (base : Store) (patience room : Nat) (a b : Nat) (rest item following : Value) :
    Prop
  | intro {node : NodeId} {env : EnvId} {head : Value} {between : Nat} : between ≤ b →
      (rest.resolve patience room).Ends (base.made a) (.ok (.sequence node env head following))
        (base.made between) →
      (head.resolve patience room).Ends (base.made between) (.ok item) (base.made b) →
      Finds base patience room a b rest item following

theorem Finds.of_sequence {base : Store} {patience room a b : Nat} {rest item following : Value}
    (h : Finds base patience room a b rest item following) (hrest : rest.isSequence) :
    ∃ node env head, rest = .sequence node env head following ∧
      (head.resolve patience room).Ends (base.made a) (.ok item) (base.made b) := by
  obtain ⟨-, hfound, hhead⟩ := h
  cases rest with
  | sequence node env head tail =>
    rw [(Value.Normal.sequence node env head tail).resolve_eq, ends_pure_ok] at hfound
    obtain ⟨heq, hstore⟩ := hfound
    cases heq
    rw [hstore] at hhead
    exact ⟨_, _, _, rfl, hhead⟩
  | _ => cases hrest

variable {base : Store} (hbase : base.Numbered) {patience room a : Nat}
  (ha : base.nextNode ≤ a) {rest remaining : Value} (hrest : base.Quiet a rest) {after : Store}
include hbase ha hrest

theorem next?_finds {item following : Value}
    (h : (next? ⟨Value.resolve patience room, patience⟩ rest).Ends (base.made a)
      (.ok (some (item, following))) after) :
    ∃ b, a ≤ b ∧ after = base.made b ∧ Finds base patience room a b rest item following ∧
      base.Quiet b following := by
  obtain ⟨found, middle, hfound, h⟩ := ends_bind_ok.mp h
  obtain ⟨m, ham, rfl, hquiet⟩ := Value.resolve_quiet hbase ha hrest hfound
  cases found with
  | sequence node env head tail =>
    obtain ⟨hfoundQuiet, -⟩ := hquiet _ rfl
    obtain ⟨w, last, hhead, h⟩ := ends_bind_ok.mp h
    obtain ⟨heq, rfl⟩ := ends_pure_ok.mp h
    cases heq
    obtain ⟨b, hmb, rfl, -⟩ :=
      Value.resolve_quiet hbase (ha.trans ham) hfoundQuiet.head hhead
    exact ⟨b, ham.trans hmb, rfl, .intro hmb hfound hhead, hfoundQuiet.tail.mono hmb⟩
  | nil => cases (ends_pure_ok.mp h).1
  | _ => exact absurd h (by simp)

theorem yields_quiet {items : List Value}
    (h : Yields ⟨Value.resolve patience room, patience⟩ (base.made a) rest items remaining after) :
    ∃ b, a ≤ b ∧ after = base.made b ∧ base.Quiet b remaining := by
  induction items generalizing a rest with
  | nil =>
    obtain ⟨rfl, rfl⟩ := yields_nil.mp h
    exact ⟨a, le_rfl, rfl, hrest⟩
  | cons item items ih =>
    obtain ⟨following, _, hnext, hyields⟩ := yields_cons.mp h
    obtain ⟨b, hab, rfl, -, hfollowing⟩ := next?_finds hbase ha hrest hnext
    obtain ⟨c, hbc, hafter⟩ := ih (ha.trans hab) hfollowing hyields
    exact ⟨c, hab.trans hbc, hafter⟩

theorem yields_le {items : List Value} {last : Nat}
    (h : Yields ⟨Value.resolve patience room, patience⟩ (base.made a) rest items remaining
      (base.made last)) : a ≤ last := by
  obtain ⟨b, hab, heq, -⟩ := yields_quiet hbase ha hrest h
  exact hab.trans_eq (congrArg Store.nextNode heq).symm

end Sequence

/-! ## 3. How far the inputs have been followed again -/

/-- The first run has followed one sequence up to the number `middle`, and then another one.  The
second run has repeated the steps along the one up to `left`, and along the other up to `right`. -/
structure Pairing.Progress (base : Store) (left middle right : Nat) (p : Pairing) : Prop where
  covers : p.Covers base
  base_le : base.nextNode ≤ left
  left_le : left ≤ middle
  middle_le : middle ≤ right
  right_le : right ≤ p.first
  old : ∀ x y, p.old x y → x < left ∨ middle ≤ x ∧ x < right

theorem Pairing.Progress.since {base : Store} {middle first second : Nat}
    (hmiddle : base.nextNode ≤ middle) (hfirst : middle ≤ first)
    (hsecond : base.nextNode ≤ second) :
    (Pairing.since base.nextNode first second).Progress base base.nextNode middle middle where
  covers :=
    { old := fun _ hnode => ⟨rfl, hnode, hnode.trans_le (hmiddle.trans hfirst),
        hnode.trans_le hsecond⟩
      environments := fun _ => trivial
      symbols := fun _ _ => trivial
      sameOutput := trivial
      first := hmiddle.trans hfirst
      second := hsecond }
  base_le := le_rfl
  left_le := hmiddle
  middle_le := le_rfl
  right_le := hfirst
  old _ _ h := .inl h.2.1

namespace Pairing.Progress

variable {base : Store} {left middle right next : Nat} {p q : Pairing}

theorem base_le_right (h : p.Progress base left middle right) : base.nextNode ≤ right :=
  h.base_le.trans (h.left_le.trans h.middle_le)

theorem left_le_first (h : p.Progress base left middle right) : left ≤ p.first :=
  h.left_le.trans (h.middle_le.trans h.right_le)

/-- What the next step along the one sequence makes has no counterpart yet. -/
theorem free_left (h : p.Progress base left middle right) (hnext : next ≤ middle) :
    ∀ x y, p.old x y → x < left ∨ next ≤ x :=
  fun x y hxy => (h.old x y hxy).imp_right fun hx => hnext.trans hx.1

theorem free_right (h : p.Progress base left middle right) (next : Nat) :
    ∀ x y, p.old x y → x < right ∨ next ≤ x :=
  fun x y hxy => .inl <|
    (h.old x y hxy).elim (fun hx => hx.trans_le (h.left_le.trans h.middle_le)) And.right

theorem skip (h : p.Progress base left middle right) (made : Nat) :
    (p.skip made).Progress base left middle right where
  covers := (p.grows_skip made 0).covers base h.covers
  base_le := h.base_le
  left_le := h.left_le
  middle_le := h.middle_le
  right_le := h.right_le
  old := h.old

theorem grows_left (h : p.Progress base left middle right) (hle : left ≤ next)
    (hnext : next ≤ middle) (hgrows : p.Grows q left next) :
    q.Progress base next middle right where
  covers := hgrows.covers base h.covers
  base_le := h.base_le.trans hle
  left_le := hnext
  middle_le := h.middle_le
  right_le := hgrows.first ▸ h.right_le
  old x y hxy := by
    rcases hgrows.new x y hxy with hold | ⟨-, hlt⟩
    · exact (h.old x y hold).imp_left fun hlt => hlt.trans_le hle
    · exact .inl hlt

theorem grows_right (h : p.Progress base left middle right) (hle : right ≤ next)
    (hnext : next ≤ p.first) (hgrows : p.Grows q right next) :
    q.Progress base left middle next where
  covers := hgrows.covers base h.covers
  base_le := h.base_le
  left_le := h.left_le
  middle_le := h.middle_le.trans hle
  right_le := hgrows.first ▸ hnext
  old x y hxy := by
    rcases hgrows.new x y hxy with hold | ⟨hge, hlt⟩
    · exact (h.old x y hold).imp_right fun hx => ⟨hx.1, hx.2.trans_le hle⟩
    · exact .inr ⟨h.middle_le.trans hge, hlt⟩

variable (hbase : base.Numbered) (hp : p.Progress base left middle right) {u u' w : Value}
  {patience room : Nat} (room' : Nat)
include hbase hp

theorem force_left (hnext : next ≤ middle) (hu : Value.Copies base p left u u')
    (hends : (u.resolve patience room).Ends (base.made left) (.ok w) (base.made next)) :
    (u'.resolve patience room').WithinLimit (base.made p.second) fun w' after =>
      ∃ q, after = base.made q.second ∧ p.Extends q ∧ q.Progress base next middle right ∧
        Value.Copies base q next w w' ∧ w'.Normal := by
  have hfirst : next ≤ p.first := (hnext.trans hp.middle_le).trans hp.right_le
  have hle : left ≤ next := (Value.resolve_quiet_made hbase hp.base_le hu.quiet hends).1
  exact (hu.force hbase hp.covers hp.base_le hfirst (hp.free_left hnext) room' hends).mono
    fun w' after ⟨q, hafter, hgrows, hw, hnormal⟩ =>
      ⟨q, hafter, hgrows.toExtends, hp.grows_left hle hnext hgrows, hw, hnormal⟩

theorem force_right (hnext : next ≤ p.first) (hu : Value.Copies base p right u u')
    (hends : (u.resolve patience room).Ends (base.made right) (.ok w) (base.made next)) :
    (u'.resolve patience room').WithinLimit (base.made p.second) fun w' after =>
      ∃ q, after = base.made q.second ∧ p.Extends q ∧ q.Progress base left middle next ∧
        Value.Copies base q next w w' ∧ w'.Normal := by
  have hright : base.nextNode ≤ right := hp.base_le_right
  have hle : right ≤ next := (Value.resolve_quiet_made hbase hright hu.quiet hends).1
  exact (hu.force hbase hp.covers hright hnext (hp.free_right next) room' hends).mono
    fun w' after ⟨q, hafter, hgrows, hw, hnormal⟩ =>
      ⟨q, hafter, hgrows.toExtends, hp.grows_right hle hnext hgrows, hw, hnormal⟩

end Pairing.Progress

/-! ## 4. One element of a sum -/

theorem Value.Normal.closed : Value.Closed Value.Normal where
  scalar v h := by
    cases v <;> first | (constructor; done) | simp [typeName] at h
  list items := by
    constructor
    · intro h
      cases h with
      | list hitems => exact hitems
    · exact .list

namespace Sequence

def IsSum (env : EnvId) (store : Store) (pair : Value × Value) (sum : Value) : Prop :=
  sum.isDeferred = false ∧
    ∃ after, (Operator.add.apply env pair.1 pair.2).Ends store (.ok sum) after

variable {env : EnvId} {a b a' b' c : Value}

/-- A sum that is no node has been computed. -/
theorem IsSum.compute {store : Store} (h : IsSum env store (a, b) c) :
    (a.isSequence && b.isSequence) = false ∧ Operator.add.compute a b = .ok c := by
  obtain ⟨hplain, after, hends⟩ := h
  unfold Operator.apply at hends
  cases hboth : a.isSequence && b.isSequence with
  | true =>
    rw [hboth] at hends
    obtain ⟨node, middle, -, hends⟩ := ends_bind_ok.mp hends
    obtain ⟨rfl, -⟩ := ends_pure_ok.mp hends
    cases hplain
  | false =>
    rw [hboth] at hends
    exact ⟨rfl, (ends_ofExcept.mp hends).1.symm⟩

theorem IsSum.alike {store : Store} {p : Pairing} (h : IsSum env store (a, b) c)
    (ha : Value.Alike p a a') (hb : Value.Alike p b b') : ∃ c', Value.Alike p c c' ∧
      Operator.add.apply env a' b' = pure c' ∧ Operator.add.compute a' b' = .ok c' := by
  obtain ⟨hboth, hsum⟩ := h.compute
  have hsame := Operator.add.compute_alike ha hb
  rw [hsum] at hsame
  cases hsum' : Operator.add.compute a' b' with
  | error failure =>
    rw [hsum'] at hsame
    cases hsame
  | ok c' =>
    rw [hsum'] at hsame
    cases hsame with
    | ok hc =>
      refine ⟨c', hc, ?_, rfl⟩
      unfold Operator.apply
      rw [← ha.isSequence_eq, ← hb.isSequence_eq, hboth]
      change Eval.ofExcept (Operator.add.compute a' b') = _
      rw [hsum']
      rfl

inductive SumTail (base : Store) (env : EnvId) (p : Pairing) (left middle right : Nat)
    (x y : Value) : Value → Prop
  | intro (node : NodeId) {x' y' : Value} : p.Progress base left middle right →
      Value.Copies base p left x x' → Value.Copies base p right y y' →
      SumTail base env p left middle right x y (sumTail node env x' y')

theorem SumTail.inputs {base : Store} {p : Pairing} {left middle right : Nat} {x y tail : Value}
    (h : SumTail base env p left middle right x y tail) :
    p.Progress base left middle right ∧ base.Quiet left x ∧ base.Quiet right y := by
  cases h with
  | intro node hp hx hy => exact ⟨hp, hx.quiet, hy.quiet⟩

/-- A sum has been found, where one run has gone on since.  Its first element is a copy of `c`. -/
inductive SumNode (base : Store) (env : EnvId) (p : Pairing) (left middle right : Nat)
    (c x y : Value) : Value → Store → Prop
  | intro {q : Pairing} (node : NodeId) {c' tail : Value} : p.Extends q →
      Value.Copies base q right c c' → c'.Normal → SumTail base env q left middle right x y tail →
      SumNode base env p left middle right c x y (.sequence node env c' tail) (base.made q.second)

theorem SumNode.extended {base : Store} {p q : Pairing} {left middle right : Nat} {x y s : Value}
    {after : Store} (h : SumNode base env q left middle right c x y s after) (hpq : p.Extends q) :
    SumNode base env p left middle right c x y s after := by
  cases h with
  | intro node hextends hc hnormal htail =>
    exact .intro node (trans_of Pairing.Extends hpq hextends) hc hnormal htail

section
variable {base : Store} (hbase : base.Numbered) {p : Pairing} {middle left left' right right' : Nat}
  {x x' y y' following following' : Value} {store : Store} (hleft' : left' ≤ middle)
  (hright' : right' ≤ p.first) (hsum : IsSum env store (a, b) c) {patience room : Nat}
include hbase hleft' hright' hsum

theorem concat_within {node node' : NodeId} {env₁ env₂ : EnvId} {head head' : Value}
    (hp : p.Progress base left middle right)
    (hx : Value.Copies base p left (.sequence node env₁ head following) x')
    (hy : Value.Copies base p right (.sequence node' env₂ head' following') y')
    (hhead : (head.resolve patience room).Ends (base.made left) (.ok a) (base.made left'))
    (hhead' : (head'.resolve patience room).Ends (base.made right) (.ok b) (base.made right'))
    (room' : Nat) :
    (concat ⟨Value.resolve patience room', patience⟩ env x' y').WithinLimit (base.made p.second)
      (SumNode base env p left' middle right' c following following') := by
  obtain ⟨_, headX, tailX, rfl, hheadX, htailX⟩ := hx.sequence
  obtain ⟨_, headY, tailY, rfl, hheadY, htailY⟩ := hy.sequence
  refine (hp.force_left hbase room' hleft' hheadX hhead).bind ?_
  rintro a' after ⟨p₁, rfl, h₁, hp₁, ha, hnormal⟩
  refine (hp₁.force_right hbase room' (h₁.first ▸ hright')
    (hheadY.carry h₁ hp₁.covers hp.right_le) hhead').bind ?_
  rintro b' after ⟨p₂, rfl, h₂, hp₂, hb, hnormal'⟩
  obtain ⟨hle, hle'⟩ : left' ≤ right' ∧ right' ≤ p₁.first :=
    ⟨hleft'.trans hp₂.middle_le, h₁.first ▸ hright'⟩
  have ha := (ha.carry h₂ hp₂.covers (hle.trans hle')).mono hle
  obtain ⟨c', hc, happly, hcompute⟩ := hsum.alike ha.alike hb.alike
  have hcopies : Value.Copies base p₂ right' c c' := ⟨
    (Store.Quiet.closed base _).compute ha.quiet hb.quiet hsum.compute.2,
    (Store.Quiet.closed base _).compute ha.quiet' hb.quiet' hcompute, hc⟩
  -- The second run makes two nodes of its own: the call that is the tail, and the sum.
  have h₃ : p₂.Extends (p₂.skip 2) := (p₂.grows_skip 2 0).toExtends
  have hp₃ := hp₂.skip 2
  have hall : p.Extends (p₂.skip 2) :=
    trans_of Pairing.Extends h₁ (trans_of Pairing.Extends h₂ h₃)
  have hleft := (Value.resolve_quiet_made hbase hp.base_le hheadX.quiet hhead).1
  have hright := (Value.resolve_quiet_made hbase hp.base_le_right hheadY.quiet hhead').1
  have htailX := (htailX.carry hall hp₃.covers hp.left_le_first).mono hleft
  have htailY := (htailY.carry hall hp₃.covers hp.right_le).mono hright
  rw [happly, pure_bind]
  exact .inr ⟨_, base.made (p₂.skip 2).second, rfl,
    .intro _ hall (hcopies.carry h₃ hp₃.covers hp₂.right_le)
      (Value.Normal.closed.compute hnormal hnormal' hcompute) (.intro _ hp₃ htailX htailY)⟩

theorem sumTails_within (hlive : (base.live? env).isSome) (hp : p.Progress base left middle right)
    (hx : Value.Copies base p left x x') (hy : Value.Copies base p right y y')
    (hfinds : Finds base patience room left left' x a following)
    (hfinds' : Finds base patience room right right' y b following') (room' : Nat) :
    (sumTails ⟨Value.resolve patience room', patience⟩ env x' y').WithinLimit (base.made p.second)
      (SumNode base env p left' middle right' c following following') := by
  obtain @⟨_, _, _, _, hbetween, hfound, hhead⟩ := hfinds
  obtain @⟨_, _, _, _, hbetween', hfound', hhead'⟩ := hfinds'
  refine (hp.force_left hbase room' (hbetween.trans hleft') hx hfound).bind ?_
  rintro u after ⟨p₁, rfl, h₁, hp₁, hu, -⟩
  have hy := hy.carry h₁ hp₁.covers hp.right_le
  refine (hp₁.force_right hbase room' (h₁.first ▸ hbetween'.trans hright') hy hfound').bind ?_
  rintro v after ⟨p₂, rfl, h₂, hp₂, hv, -⟩
  have hall : p.Extends p₂ := trans_of Pairing.Extends h₁ h₂
  have hu := hu.carry h₂ hp₂.covers hp₁.left_le_first
  exact withinLimit_environment hlive <| (concat_within hbase hleft' (hall.first ▸ hright') hsum
    hp₂ hu hv hhead hhead' room').mono fun _ _ hnode => hnode.extended hall

/-- The next element of a sum whose tail stands for what is left of both inputs. -/
theorem next?_within (hlive : (base.live? env).isSome) {tail : Value}
    (htail : SumTail base env p left middle right x y tail)
    (hfinds : Finds base patience room left left' x a following)
    (hfinds' : Finds base patience room right right' y b following') (room' : Nat) :
    (next? ⟨Value.resolve patience room', patience⟩ tail).WithinLimit (base.made p.second)
      fun found after => ∃ q c' tail', found = some (c', tail') ∧ after = base.made q.second ∧
        p.Extends q ∧ Value.Copies base q right' c c' ∧
        SumTail base env q left' middle right' following following' tail' := by
  obtain @⟨node, x', y', hp, hx, hy⟩ := htail
  cases room' with
  | zero => exact .inl ⟨_, rfl⟩
  | succ room' =>
    have hforce : ((sumTail node env x' y').resolve patience (room' + 1)).WithinLimit
        (base.made p.second) (SumNode base env p left' middle right' c following following') := by
      rw [resolve_sum_tail]
      exact sumTails_within hbase hleft' hright' hsum hlive hp hx hy hfinds hfinds' room'
    refine hforce.bind ?_
    rintro _ _ @⟨q, node, c', tail', hextends, hc, hnormal, htail⟩
    refine .inr ⟨_, base.made q.second, ?_, q, c', tail', rfl, rfl, hextends, hc, htail⟩
    dsimp only
    rw [hnormal.resolve_eq, pure_bind]
    exact ends_pure_self _ _

end

/-! ## 5. The run along a sum -/

theorem next?_sequence {store : Store} (patience room : Nat) (node : NodeId) (env : EnvId)
    {head : Value} (hhead : head.Normal) (tail : Value) :
    (next? ⟨Value.resolve patience room, patience⟩ (.sequence node env head tail)).Ends store
      (.ok (some (head, tail))) store := by
  have hnode := (Value.Normal.sequence node env head tail).resolve_eq patience room
  rw [next?]
  dsimp only
  rw [hnode, pure_bind]
  dsimp only
  rw [hhead.resolve_eq, pure_bind]
  exact ends_pure_self _ _

def MeetsLimit (forcing : Forcing) (store : Store) (rest : Value) (count : Nat) : Prop :=
  ∃ items remaining between after, items.length < count ∧
    Yields forcing store rest items remaining between ∧
    Stops forcing between remaining (some .tooDeep) after

theorem MeetsLimit.cons {forcing : Forcing} {store between : Store} {rest item following : Value}
    {count : Nat}
    (hnext : (next? forcing rest).Ends store (.ok (some (item, following))) between)
    (h : MeetsLimit forcing between following count) :
    MeetsLimit forcing store rest (count + 1) := by
  obtain ⟨items, remaining, last, after, hlength, hyields, hstops⟩ := h
  exact ⟨item :: items, remaining, last, after, Nat.succ_lt_succ hlength, .cons hnext hyields,
    hstops⟩

/-- The run along a sum gives copies of the sums and leaves a tail that stands for what is left of
both inputs, or it meets the limit before. -/
def SumRun (base : Store) (env : EnvId) (forcing : Forcing) (p : Pairing)
    (left middle right : Nat) (x y : Value) (store : Store) (rest : Value) (cs : List Value) :
    Prop :=
  MeetsLimit forcing store rest cs.length ∨
    ∃ q cs' tail, Yields forcing store rest cs' tail (base.made q.second) ∧ p.Extends q ∧
      List.Forall₂ (Value.Copies base q right) cs cs' ∧
      SumTail base env q left middle right x y tail

theorem SumRun.cons {base store between : Store} {forcing : Forcing} {p q : Pairing}
    {left middle right next : Nat} {x y rest c c' following : Value} {cs : List Value}
    (h : SumRun base env forcing q left middle right x y between following cs)
    (hnext : (next? forcing rest).Ends store (.ok (some (c', following))) between)
    (hpq : p.Extends q) (hc : Value.Copies base q next c c') (hle : next ≤ right)
    (hfirst : next ≤ q.first) :
    SumRun base env forcing p left middle right x y store rest (c :: cs) := by
  rcases h with hlimit | ⟨q', cs', tail, hyields, hq', hcs, htail⟩
  · exact .inl (hlimit.cons hnext)
  · have hc := (hc.carry hq' htail.inputs.1.covers hfirst).mono hle
    exact .inr ⟨q', c' :: cs', tail, .cons hnext hyields, trans_of Pairing.Extends hpq hq',
      .cons hc hcs, htail⟩

section
variable {base : Store} (hbase : base.Numbered) (hlive : (base.live? env).isSome) {p : Pairing}
  {left left' middle right right' : Nat} {x x' y y' : Value} {as bs cs : List Value}
  {store : Store} {patience room : Nat}
  (hleft : Yields ⟨Value.resolve patience room, patience⟩ (base.made left) x as x'
    (base.made left'))
  (hright : Yields ⟨Value.resolve patience room, patience⟩ (base.made right) y bs y'
    (base.made right'))
  (hlength : as.length = bs.length) (hsums : List.Forall₂ (IsSum env store) (as.zip bs) cs)
  (hleft' : left' ≤ middle) (hright' : right' ≤ p.first)
include hbase hlive hleft hright hlength hsums hleft' hright'

/-- The tail of a sum is followed as far as the inputs have been followed. -/
theorem SumTail.run {tail : Value} (htail : SumTail base env p left middle right x y tail)
    (room' : Nat) :
    SumRun base env ⟨Value.resolve patience room', patience⟩ p left' middle right' x' y'
      (base.made p.second) tail cs := by
  induction as generalizing bs cs left right x y p tail with
  | nil =>
    obtain rfl := List.length_eq_zero_iff.mp hlength.symm
    cases hsums
    obtain ⟨rfl, heq⟩ := yields_nil.mp hleft
    obtain ⟨rfl, heq'⟩ := yields_nil.mp hright
    obtain rfl : left' = left := congrArg Store.nextNode heq
    obtain rfl : right' = right := congrArg Store.nextNode heq'
    exact .inr ⟨p, [], tail, .nil _ _, refl_of Pairing.Extends p, .nil, htail⟩
  | cons a as ih =>
    obtain ⟨b, bs, rfl⟩ := List.exists_cons_of_length_eq_add_one hlength.symm
    cases hsums with
    | cons hsum hsums =>
      obtain ⟨hp, hx, hy⟩ := htail.inputs
      obtain ⟨following, _, hnext, hleftRest⟩ := yields_cons.mp hleft
      obtain ⟨following', _, hnext', hrightRest⟩ := yields_cons.mp hright
      obtain ⟨l, hl, rfl, hfinds, hquiet⟩ := next?_finds hbase hp.base_le hx hnext
      obtain ⟨r, hr, rfl, hfinds', hquiet'⟩ := next?_finds hbase hp.base_le_right hy hnext'
      have hle := yields_le hbase (hp.base_le.trans hl) hquiet hleftRest
      have hle' := yields_le hbase (hp.base_le_right.trans hr) hquiet' hrightRest
      rcases next?_within hbase (hle.trans hleft') (hle'.trans hright') hsum hlive htail hfinds
        hfinds' room' with ⟨after, hlimit⟩ | ⟨_, _, hfound, q, c', tail', rfl, rfl, hq, hc, htail'⟩
      · exact .inl ⟨[], tail, _, after, Nat.succ_pos _, .nil _ _, hlimit⟩
      · have hfirst : right' ≤ q.first := hq.first ▸ hright'
        have hrest := ih hleftRest hrightRest (Nat.succ.inj hlength) hsums hfirst htail'
        exact hrest.cons hfound hq hc hle' (hle'.trans hfirst)

/-- The sum of two sequences is followed as far as they have been followed, if that is by one
element at least. -/
theorem concat_run {u v : Value} (hx : x.isSequence) (hy : y.isSequence) (hne : as ≠ [])
    (hp : p.Progress base left middle right) (hu : Value.Copies base p left x u)
    (hv : Value.Copies base p right y v) (room₁ room₂ : Nat) :
    (concat ⟨Value.resolve patience room₁, patience⟩ env u v).WithinLimit (base.made p.second)
      fun s between => s.isSequence ∧ SumRun base env ⟨Value.resolve patience room₂, patience⟩ p
        left' middle right' x' y' between s cs := by
  obtain ⟨a, as, rfl⟩ := List.exists_cons_of_ne_nil hne
  obtain ⟨b, bs, rfl⟩ := List.exists_cons_of_length_eq_add_one hlength.symm
  cases hsums with
  | cons hsum hsums =>
    obtain ⟨following, _, hnext, hleftRest⟩ := yields_cons.mp hleft
    obtain ⟨following', _, hnext', hrightRest⟩ := yields_cons.mp hright
    obtain ⟨l, hl, rfl, hfinds, hquiet⟩ := next?_finds hbase hp.base_le hu.quiet hnext
    obtain ⟨r, hr, rfl, hfinds', hquiet'⟩ := next?_finds hbase hp.base_le_right hv.quiet hnext'
    have hle := yields_le hbase (hp.base_le.trans hl) hquiet hleftRest
    have hle' := yields_le hbase (hp.base_le_right.trans hr) hquiet' hrightRest
    obtain ⟨_, _, head, rfl, hhead⟩ := hfinds.of_sequence hx
    obtain ⟨_, _, head', rfl, hhead'⟩ := hfinds'.of_sequence hy
    refine (concat_within hbase (hle.trans hleft') (hle'.trans hright') hsum hp hu hv hhead
      hhead' room₁).mono ?_
    rintro _ _ @⟨q, node, c', tail', hq, hc, hnormal, htail⟩
    have hfirst : right' ≤ q.first := hq.first ▸ hright'
    have hrest := htail.run hbase hlive hleftRest hrightRest (Nat.succ.inj hlength) hsums hleft'
      hfirst room₂
    exact ⟨rfl, hrest.cons (next?_sequence patience room₂ node env hnormal tail') hq hc hle'
      (hle'.trans hfirst)⟩

end

end Sequence

/-! ## 6. The theorem -/

/-- Copies of values are these values with other numbers for the nodes made since. -/
theorem Value.Copies.renamed {base : Store} {q : Pairing} (hq : q.Covers base) {next : NodeId}
    (hnext : next ≤ q.first) {values values' : List Value}
    (h : List.Forall₂ (Value.Copies base q next) values values') :
    ∃ rename : NodeId → NodeId, Function.Injective rename ∧
      (∀ node < base.nextNode, rename node = node) ∧ values' = values.map (renumber rename) := by
  -- A pairing with room for numbers of the first run that have none in the second.
  let q' : Pairing :=
    { q with
      second := q.second + q.first
      old_lt := fun a b hab => ⟨(q.old_lt a b hab).1, Nat.lt_add_right _ (q.old_lt a b hab).2⟩ }
  have hsecond : q'.second = q.second + q'.first := rfl
  obtain ⟨rename, hinjective, hrename⟩ :=
    q'.exists_renaming hsecond fun a b hab => (q.old_lt a b hab).2
  refine ⟨rename, hinjective, fun node hnode => hrename node node (.inl (hq.old node hnode)), ?_⟩
  have hnodes : ∀ a b, q.nodes a b → a < next → q.old a b := fun a b hab hlt =>
    Pairing.old_of_lt hab (hlt.trans_le hnext)
  have hsame := map_eq_of_forall₂ (f := renumber rename) (g := id) h fun v _ v' hv => by
    have halike : Value.Alike q' v v' := hv.alike.carried hv.quiet.older
      (fun a b hab hlt => .inl (hnodes a b hab hlt)) hq.environments hq.symbols
    exact halike.renumber_eq_of_nodes hrename
  rw [hsame, List.map_id]

namespace Sequence

theorem MeetsLimit.take {forcing : Forcing} {store : Store} {v : Value} {n : Nat}
    (hv : v.isSequence) (h : MeetsLimit forcing store v n) :
    ∃ after, (take forcing n v).Ends store (.error .tooDeep) after := by
  obtain ⟨items, remaining, between, after, hlength, hyields, hstops⟩ := h
  refine ⟨after, ?_⟩
  rw [take_eq hv, ends_map]
  exact ⟨_, takeItems_ends.mpr (.inr ⟨items, remaining, between, some .tooDeep, hlength, hyields,
    hstops, rfl⟩), rfl⟩

structure IsInput (store : Store) (v : Value) : Prop where
  sequence : v.isSequence
  older : v.OlderThan store.nextNode
  avoids : store.Avoids [.str, .repr, .print] v

theorem IsInput.quiet {store : Store} {v : Value} (h : IsInput store v) :
    store.Quiet store.nextNode v := ⟨h.avoids.confines, h.older⟩

/-- The sum of two sequences has the sums of their elements.  If the first `n` elements of both can
be taken and added, then a sum of the sequences is made, and its first `n` elements are taken, and
they are those, up to new numbers for the nodes that have been made; or the limit is met.  This may
happen at any depth, and whatever other nodes have been made before. -/
theorem take_concat {store store₁ store₂ : Store} {env : EnvId} {left right : Value} {n : Nat}
    {as bs cs : List Value} {next : NodeId} (patience room room₁ room₂ : Nat)
    (hstore : store.Numbered) (hlive : (store.live? env).isSome) (hleft : IsInput store left)
    (hright : IsInput store right) (hn : 1 ≤ n)
    (htake : (take ⟨Value.resolve patience room, patience⟩ n left).Ends store (.ok (.list as))
      store₁)
    (htake' : (take ⟨Value.resolve patience room, patience⟩ n right).Ends store₁ (.ok (.list bs))
      store₂)
    (hsums : List.Forall₂ (IsSum env store₂) (as.zip bs) cs) (hnext : store.nextNode ≤ next) :
    (concat ⟨Value.resolve patience room₁, patience⟩ env left right).WithinLimit (store.made next)
      fun s between => s.isSequence ∧
        (take ⟨Value.resolve patience room₂, patience⟩ n s).WithinLimit between fun w _ =>
          ∃ rename : NodeId → NodeId, Function.Injective rename ∧
            (∀ node < store.nextNode, rename node = node) ∧
            w = .list (cs.map (Value.renumber rename)) := by
  obtain ⟨hlength, _, hyields⟩ := yields_of_take hleft.sequence htake
  obtain ⟨hlength', _, hyields'⟩ := yields_of_take hright.sequence htake'
  obtain ⟨l, hl, rfl, -⟩ := yields_quiet hstore le_rfl hleft.quiet hyields
  obtain ⟨r, hr, rfl, -⟩ := yields_quiet hstore hl (hright.quiet.mono hl) hyields'
  have hp : (Pairing.since store.nextNode r next).Progress store store.nextNode l l :=
    .since hl hr hnext
  have hne : as ≠ [] := List.length_pos_iff.mp (hlength ▸ hn)
  have hsame : as.length = bs.length := hlength.trans hlength'.symm
  have hcount : cs.length = n := by
    rw [← hsums.length_eq, List.length_zip, ← hsame, Nat.min_self, hlength]
  refine (concat_run hstore hlive hyields hyields' hsame hsums le_rfl le_rfl hleft.sequence
    hright.sequence hne hp (.self hp.covers hleft.quiet le_rfl) (.self hp.covers hright.quiet hl)
    room₁ room₂).mono ?_
  rintro s between ⟨hs, hlimit | ⟨q, cs', tail, hyields, hq, hcs, htail⟩⟩
  · rw [hcount] at hlimit
    exact ⟨hs, .inl (hlimit.take hs)⟩
  · have hfirst : r ≤ q.first := hq.first ▸ le_rfl
    obtain ⟨rename, hinjective, hold, rfl⟩ := Value.Copies.renamed htail.inputs.1.covers hfirst hcs
    have htake := hyields.take hs
    rw [List.length_map, hcount] at htake
    exact ⟨hs, htake.withinLimit ⟨rename, hinjective, hold, rfl⟩⟩

/-- A sequence without an end, and one that fails behind its second element. -/
theorem take_concat_ones :
    let forcing : Forcing := ⟨Value.resolve 0 depthLimit, 0⟩
    let ones := Value.sequence 0 0 (.int 1) (.symbol 0 "s")
    let tens := Value.sequence 2 0 (.int 10) (.sequence 1 0 (.int 20) (.symbol 0 "missing"))
    let store : Store := (Store.single [("s", ones)]).made 3
    ((store.Numbered ∧ IsInput store ones ∧ IsInput store tens) ∧
      (take forcing 2 ones).Ends store (.ok (.list [.int 1, .int 1])) store ∧
      (take forcing 2 tens).Ends store (.ok (.list [.int 10, .int 20])) store ∧
      List.Forall₂ (IsSum 0 store) [(.int 1, .int 10), (.int 1, .int 20)] [.int 11, .int 21]) ∧
    (concat forcing 0 ones tens).WithinLimit store fun s between => s.isSequence ∧
      (take forcing 2 s).WithinLimit between fun w _ => w = .list [.int 11, .int 21] := by
  intro forcing ones tens store
  let values : List Value := [ones, .int 1, .symbol 0 "s", tens, .int 10,
    .sequence 1 0 (.int 20) (.symbol 0 "missing"), .int 20, .symbol 0 "missing"]
  have hclosed : ∀ u ∈ values, ∀ w ∈ store.parts u, w ∈ values := by
    have hbound : store.visible? 0 "s" = some ones := rfl
    have hmissing : store.visible? 0 "missing" = none := rfl
    simp [values, ones, tens, Store.parts, hbound, hmissing]
  have havoids : ∀ v ∈ values, store.Avoids [.str, .repr, .print] v :=
    fun v hv => .of_closed hclosed (by simp [values, ones, tens]) hv
  have hones : ones.OlderThan 3 := .sequence 0 (by decide) (.int 1) (.symbol 0 "s")
  have htens : tens.OlderThan 3 := .sequence 0 (by decide) (.int 10)
    (.sequence 0 (by decide) (.int 20) (.symbol 0 "missing"))
  have hstore : store.Numbered := Store.single_numbered (by simpa using hones)
  have hleft : IsInput store ones := ⟨rfl, hones, havoids ones (by simp [values])⟩
  have hright : IsInput store tens := ⟨rfl, htens, havoids tens (by simp [values])⟩
  have htake : (take forcing 2 ones).Ends store (.ok (.list [.int 1, .int 1])) store := rfl
  have htake' : (take forcing 2 tens).Ends store (.ok (.list [.int 10, .int 20])) store := rfl
  have hsums : List.Forall₂ (IsSum 0 store) [(.int 1, .int 10), (.int 1, .int 20)]
      [.int 11, .int 21] := .cons ⟨rfl, store, rfl⟩ (.cons ⟨rfl, store, rfl⟩ .nil)
  refine ⟨⟨⟨hstore, hleft, hright⟩, htake, htake', hsums⟩, ?_⟩
  refine (take_concat 0 depthLimit depthLimit depthLimit hstore rfl hleft hright (by decide) htake
    htake' hsums le_rfl).mono fun s between h => ⟨h.1, h.2.mono fun w after hw => ?_⟩
  obtain ⟨rename, -, -, rfl⟩ := hw
  rfl

end Sequence

end Deferral
