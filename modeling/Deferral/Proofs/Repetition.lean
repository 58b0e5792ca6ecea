import Deferral.Proofs.DepthLimit
import Deferral.Proofs.Relocation

/-!
# Forcing again what was forced before

Where nothing makes text, forcing changes nothing in the store but the number of the next node
(`Value.resolve_quiet`).  So a second run over the same values, in another order, begins each of its
steps in a store that differs from that of the first run by a number, and does the same there, or
fails at the limit if it stands deeper (`Value.Alike.resolve_again`).  Which node of one run is
which of the other is kept in a pairing that grows from step to step (`Pairing.Grows`).
-/

namespace Deferral

open Eval

/-! ## 1. Forcing that makes nodes and nothing else -/

def Store.made (store : Store) (next : NodeId) : Store := { store with nextNode := next }

theorem Store.grows_made (store : Store) (next : NodeId) : store.Grows (store.made next) :=
  ⟨rfl, List.prefix_rfl⟩

theorem Store.follows_made {store : Store} {next : NodeId} (h : store.nextNode ≤ next) :
    store.Follows (store.made next) := ⟨rfl, h⟩

structure Store.Quiet (base : Store) (next : NodeId) (v : Value) : Prop where
  confines : base.Confines [.str, .repr, .print] ⊤ v
  older : v.OlderThan next

namespace Store.Quiet

variable {base : Store} {next later : NodeId} {v : Value}

theorem mono (h : base.Quiet next v) (hle : next ≤ later) : base.Quiet later v :=
  ⟨h.confines, h.older.mono hle⟩

theorem head {node : NodeId} {env : EnvId} {head tail : Value}
    (h : base.Quiet next (.sequence node env head tail)) : base.Quiet next head :=
  ⟨h.confines.part (by simp [parts]), h.older.head⟩

theorem tail {node : NodeId} {env : EnvId} {head tail : Value}
    (h : base.Quiet next (.sequence node env head tail)) : base.Quiet next tail :=
  ⟨h.confines.tail, h.older.tail⟩

theorem closed (base : Store) (next : NodeId) : Value.Closed (base.Quiet next) where
  scalar v h :=
    ⟨(Store.Confines.closed base _ ⊤).scalar v h, (Value.OlderThan.closed next).scalar v h⟩
  list items := by
    have hconfines := (Store.Confines.closed base [.str, .repr, .print] ⊤).list items
    have holder := (Value.OlderThan.closed next).list items
    constructor
    · exact fun h item hitem => ⟨hconfines.mp h.confines item hitem, holder.mp h.older item hitem⟩
    · exact fun h => ⟨hconfines.mpr fun item hitem => (h item hitem).confines,
        holder.mpr fun item hitem => (h item hitem).older⟩

end Store.Quiet

namespace Eval

variable {α : Type} {base : Store} {banned : List Builtin} {force force' : Value → Eval Value}
  {P : α → Prop} {action action' : Eval α}

def OnlyMakes (base : Store) (action : Eval α) : Prop :=
  ∀ store outcome after, base.Grows store → action.Ends store outcome after →
    ∃ next, store.nextNode ≤ next ∧ after = store.made next

theorem Together.onlyMakes (h : Together base banned force force' P action action')
    (hsilent : ¬ Display.Allowed banned)
    (hgives : ∀ v, base.Confines banned ⊤ v → (force v).Gives base (base.Confines banned ⊤))
    (hforce : ∀ v, base.Confines banned ⊤ v → (force v).OnlyMakes base) :
    action.OnlyMakes base := by
  induction h with
  | pure =>
    intro store outcome after _ hends
    obtain ⟨-, rfl⟩ := ends_pure.mp hends
    exact ⟨_, le_rfl, rfl⟩
  | throw failure =>
    intro store outcome after _ hends
    obtain ⟨-, rfl⟩ := ends_throw.mp hends
    exact ⟨_, le_rfl, rfl⟩
  | outOfFuel => exact fun _ _ _ _ hends => absurd hends ends_outOfFuel
  | bind hfirst _ ih ihnext =>
    intro store outcome after hstore hends
    rcases ends_bind.mp hends with ⟨a, between, ha, hnext⟩ | ⟨failure, hfailure, rfl⟩
    · obtain ⟨hbetween, hp⟩ := hfirst.gives hgives store _ between hstore ha
      obtain ⟨next, hle, rfl⟩ := ih store _ between hstore ha
      obtain ⟨last, hle', rfl⟩ := ihnext a (hp a rfl) _ outcome after hbetween hnext
      exact ⟨last, hle.trans hle', rfl⟩
    · exact ih store _ after hstore hfailure
  | freshNode =>
    intro store outcome after _ hends
    obtain ⟨-, rfl⟩ := ends_freshNode.mp hends
    exact ⟨_, Nat.le_succ _, rfl⟩
  | environment env =>
    intro store outcome after _ hends
    obtain ⟨-, rfl⟩ := ends_environment.mp hends
    exact ⟨_, le_rfl, rfl⟩
  | attempt hshows => exact absurd hshows hsilent
  | print _ _ hshows => exact absurd hshows hsilent
  | force hv => exact hforce _ hv

end Eval

/-- In this list are all functions that make text. -/
theorem Display.not_allowed : ¬ Display.Allowed [.str, .repr, .print] :=
  fun ⟨_, hshows, hallowed⟩ => hallowed hshows

namespace Value

variable {base : Store} {banned : List Builtin} {v : Value}

theorem resolve_onlyMakes (hconcat : .concat ∉ banned) (hsilent : ¬ Display.Allowed banned)
    (patience room : Nat) (hv : base.Confines banned ⊤ v) :
    (v.resolve patience room).OnlyMakes base := by
  induction room generalizing v with
  | zero =>
    refine (resolveWith_together _ pure hv).onlyMakes hsilent
      (fun _ _ => gives_throw _) fun u _ store outcome after _ hends => ?_
    obtain ⟨-, rfl⟩ := ends_throw.mp hends
    exact ⟨_, le_rfl, rfl⟩
  | succ room ih =>
    have hgives : ∀ u, base.Confines banned ⊤ u →
        (u.resolve patience room).Gives base (base.Confines banned ⊤) :=
      fun u hu => resolve_gives hconcat patience room hu
    rw [resolve]
    refine Together.onlyMakes (resolveWith_together _ pure hv) hsilent
      (fun u hu => ?_) fun u hu => ?_
    · exact (steps_together _ pure hconcat patience hu).gives hgives
    · exact (steps_together _ pure hconcat patience hu).onlyMakes hsilent hgives
        fun w hw => ih hw

/-- What happens when a value is forced in which nothing makes text. -/
theorem resolve_quiet (hbase : base.Numbered) {next : NodeId} (hnext : base.nextNode ≤ next)
    (hv : base.Quiet next v) {patience room : Nat} {outcome : Except Failure Value} {after : Store}
    (h : (v.resolve patience room).Ends (base.made next) outcome after) :
    ∃ last, next ≤ last ∧ after = base.made last ∧
      ∀ w, outcome = .ok w → base.Quiet last w ∧ w.Normal := by
  have hgrows := base.grows_made next
  obtain ⟨last, hle, rfl⟩ := resolve_onlyMakes (by simp) Display.not_allowed patience room
    hv.confines _ _ _ hgrows h
  refine ⟨last, hle, rfl, ?_⟩
  rintro w rfl
  obtain ⟨-, hconfines⟩ := resolve_gives (by simp) patience room hv.confines _ _ _ hgrows h
  have hnumbered : (base.made next).Numbered := hbase.of_follows (Store.follows_made hnext)
  obtain ⟨-, -, holder⟩ := resolve_makes patience room next v hv.older _ _ _ le_rfl hnumbered h
  exact ⟨⟨hconfines w rfl, holder w rfl⟩, resolve_normal h⟩

theorem resolve_quiet_made (hbase : base.Numbered) {next last : NodeId}
    (hnext : base.nextNode ≤ next) (hv : base.Quiet next v) {patience room : Nat}
    {outcome : Except Failure Value}
    (h : (v.resolve patience room).Ends (base.made next) outcome (base.made last)) :
    next ≤ last ∧ ∀ w, outcome = .ok w → base.Quiet last w ∧ w.Normal := by
  obtain ⟨other, hle, heq, hquiet⟩ := resolve_quiet hbase hnext hv h
  obtain rfl : last = other := congrArg Store.nextNode heq
  exact ⟨hle, hquiet⟩

end Value

/-! ## 2. Pairings that grow -/

namespace Pairing

variable {p q : Pairing} {base : Store}

/-- What there is before both runs is the same in both, and any name may occur. -/
structure Covers (p : Pairing) (base : Store) : Prop where
  old : ∀ node < base.nextNode, p.old node node
  environments : ∀ env, p.environments env
  symbols : ∀ env name, p.symbols env name
  sameOutput : p.sameOutput
  first : base.nextNode ≤ p.first
  second : base.nextNode ≤ p.second

structure Extends (p q : Pairing) : Prop where
  first : q.first = p.first
  second : p.second ≤ q.second
  old : ∀ x y, p.old x y → q.old x y

/-- Of the first run, which has come to its end, the new nodes are those with numbers from `a` to
below `b`. -/
structure Grows (p q : Pairing) (a b : Nat) : Prop extends p.Extends q where
  new : ∀ x y, q.old x y → p.old x y ∨ a ≤ x ∧ x < b
  covers : ∀ base, p.Covers base → q.Covers base

instance : IsPreorder Pairing Extends where
  refl _ := ⟨rfl, le_rfl, fun _ _ h => h⟩
  trans _ _ _ h h' := ⟨h'.first.trans h.first, h.second.trans h'.second,
    fun x y hxy => h'.old x y (h.old x y hxy)⟩

theorem Covers.alike (h : p.Covers base) {v : Value} (hv : v.OlderThan base.nextNode) :
    Value.Alike p v v :=
  .of_olderThan hv (fun node hnode => .inl (h.old node hnode)) h.environments h.symbols

theorem old_of_lt {x y : Nat} (h : p.nodes x y) (hx : x < p.first) : p.old x y := by
  rcases h with hold | ⟨i, rfl, rfl⟩
  · exact hold
  · omega

theorem Extends.alike (h : p.Extends q) (hq : q.Covers base) {v w : Value}
    (hv : v.OlderThan p.first) (hvw : Value.Alike p v w) : Value.Alike q v w :=
  hvw.carried hv (fun _ _ hxy hx => .inl (h.old _ _ (old_of_lt hxy hx))) hq.environments hq.symbols

def skip (p : Pairing) (made : Nat) : Pairing where
  first := p.first
  second := p.second + made
  old := p.old
  old_lt x y h := ⟨(p.old_lt x y h).1, Nat.lt_add_right made (p.old_lt x y h).2⟩
  old_inj := p.old_inj
  environments := p.environments
  symbols := p.symbols
  sameOutput := p.sameOutput

theorem grows_skip (p : Pairing) (made a : Nat) : p.Grows (p.skip made) a a where
  first := rfl
  second := Nat.le_add_right _ _
  old _ _ h := h
  new _ _ h := .inl h
  covers _ h := ⟨h.old, h.environments, h.symbols, h.sameOutput, h.first,
    h.second.trans (Nat.le_add_right _ _)⟩

def repeated (p : Pairing) (a made : Nat) (hfirst : a + made ≤ p.first)
    (hfree : ∀ x y, p.old x y → x < a ∨ a + made ≤ x) : Pairing where
  first := p.first
  second := p.second + made
  old x y := p.old x y ∨ ∃ i < made, x = a + i ∧ y = p.second + i
  old_lt := by
    rintro x y (h | ⟨i, hi, rfl, rfl⟩)
    · exact ⟨(p.old_lt x y h).1, Nat.lt_add_right made (p.old_lt x y h).2⟩
    · omega
  old_inj := by
    rintro x y x' y' (h | ⟨i, hi, rfl, rfl⟩) (h' | ⟨j, hj, rfl, rfl⟩)
    · exact p.old_inj x y x' y' h h'
    · have hlt := p.old_lt x y h
      have hx := hfree x y h
      omega
    · have hlt := p.old_lt x' y' h'
      have hx := hfree x' y' h'
      omega
    · omega
  environments := p.environments
  symbols := p.symbols
  sameOutput := p.sameOutput

theorem grows_repeated {a made : Nat} (hfirst : a + made ≤ p.first)
    (hfree : ∀ x y, p.old x y → x < a ∨ a + made ≤ x) :
    p.Grows (p.repeated a made hfirst hfree) a (a + made) where
  first := rfl
  second := Nat.le_add_right _ _
  old _ _ h := .inl h
  new := by
    rintro x y (h | ⟨i, hi, rfl, rfl⟩)
    · exact .inl h
    · exact .inr (by omega)
  covers _ h := ⟨fun node hnode => .inl (h.old node hnode), h.environments, h.symbols,
    h.sameOutput, h.first, h.second.trans (Nat.le_add_right _ _)⟩

def before (p : Pairing) (a : Nat) : Pairing where
  first := a
  second := p.second
  old x y := p.old x y ∧ x < a
  old_lt x y h := ⟨h.2, (p.old_lt x y h.1).2⟩
  old_inj x y x' y' h h' := p.old_inj x y x' y' h.1 h'.1
  environments := p.environments
  symbols := p.symbols

theorem Covers.joins_before (hp : p.Covers base) (hbase : base.Numbered) {a : Nat}
    (ha : base.nextNode ≤ a) : (p.before a).Joins (base.made a) (base.made p.second)
      (base.made a) (base.made p.second) where
  nextNode := ⟨0, rfl, rfl⟩
  environments env _ := by
    refine hbase.matches (fun v hv => ?_) env
    exact .of_olderThan hv (fun node hnode => .inl ⟨hp.old node hnode, hnode.trans_le ha⟩)
      hp.environments hp.symbols
  transcript := ⟨[], (List.append_nil _).symm, (List.append_nil _).symm⟩

end Pairing

/-! ## 3. A step that is repeated -/

structure Value.Copies (base : Store) (p : Pairing) (next : NodeId) (u u' : Value) : Prop where
  quiet : base.Quiet next u
  quiet' : base.Quiet p.second u'
  alike : Value.Alike p u u'

namespace Value.Copies

variable {base : Store} {p q : Pairing} {next later : NodeId} {u u' : Value}

theorem mono (h : Copies base p next u u') (hle : next ≤ later) : Copies base p later u u' :=
  ⟨h.quiet.mono hle, h.quiet', h.alike⟩

theorem carry (h : Copies base p next u u') (hextends : p.Extends q) (hq : q.Covers base)
    (hnext : next ≤ p.first) : Copies base q next u u' where
  quiet := h.quiet
  quiet' := h.quiet'.mono hextends.second
  alike := hextends.alike hq (h.quiet.older.mono hnext) h.alike

theorem self (hp : p.Covers base) (hu : base.Quiet base.nextNode u) (hnext : base.nextNode ≤ next) :
    Copies base p next u u := ⟨hu.mono hnext, hu.mono hp.second, hp.alike hu.older⟩

/-- A sequence node stands for a sequence node, its head for the head and its tail for the tail. -/
theorem sequence {node : NodeId} {env : EnvId} {head tail : Value}
    (h : Copies base p next (.sequence node env head tail) u') : ∃ node' head' tail',
      u' = .sequence node' env head' tail' ∧ Copies base p next head head' ∧
        Copies base p next tail tail' := by
  obtain ⟨hquiet, hquiet', halike⟩ := h
  cases halike with
  | sequence _ _ hhead htail =>
    exact ⟨_, _, _, rfl, ⟨hquiet.head, hquiet'.head, hhead⟩, ⟨hquiet.tail, hquiet'.tail, htail⟩⟩

end Value.Copies

section
variable {p : Pairing} {base : Store} (hbase : base.Numbered) (hp : p.Covers base) {a b : Nat}
  (ha : base.nextNode ≤ a) (hfirst : b ≤ p.first) (hfree : ∀ x y, p.old x y → x < a ∨ b ≤ x)
  {u u' : Value} (hu : base.Quiet a u) (hu' : base.Quiet p.second u') (halike : Value.Alike p u u')
  {patience room : Nat} {outcome : Except Failure Value}
  (hends : (u.resolve patience room).Ends (base.made a) outcome (base.made b))

include hbase hp ha hfirst hfree hu hu' halike hends

/-- Forcing an alike value in the second run ends like it did in the first one. -/
theorem Value.Alike.resolve_again : ∃ q outcome',
    (u'.resolve patience room).Ends (base.made p.second) outcome' (base.made q.second) ∧
      p.Grows q a b ∧ Eval.Alike (fun _ => True) (Value.Alike q) outcome outcome' := by
  obtain ⟨hab, hquiet⟩ := Value.resolve_quiet_made hbase ha hu hends
  have hbefore : Value.Alike (p.before a) u u' :=
    halike.carried hu.older (fun x y hxy hx =>
      .inl ⟨Pairing.old_of_lt hxy (hx.trans_le (hab.trans hfirst)), hx⟩) hp.environments hp.symbols
  have := Pairing.joint_shows (p := p.before a) trivial (base.made a) (base.made p.second)
  have hforcing : Forcing.Lockstep ((p.before a).joint (base.made a) (base.made p.second))
      (p.before a) ⟨Value.resolve patience room, patience⟩ :=
    Value.resolve_lockstep patience room fun hother => absurd trivial hother
  obtain ⟨outcome', after', hends', hsame, hafter⟩ :=
    (hforcing.force u u' hbefore).ends (hp.joins_before hbase ha) hends
  obtain ⟨last', -, rfl, -⟩ := Value.resolve_quiet hbase hp.second hu' hends'
  -- Both runs have made as many nodes in this step.
  obtain ⟨made, hb, hlast⟩ := hafter.nextNode
  obtain rfl : b = a + made := hb
  obtain rfl : last' = p.second + made := hlast
  refine ⟨p.repeated a made hfirst hfree, outcome', hends', Pairing.grows_repeated hfirst hfree, ?_⟩
  cases hsame with
  | error => exact .error trivial
  | ok hw =>
    refine .ok (hw.carried (hquiet _ rfl).1.older (fun x y hxy hx => .inl ?_) hp.environments
      hp.symbols)
    rcases hxy with ⟨hold, -⟩ | ⟨i, rfl, rfl⟩
    · exact .inl hold
    · exact .inr ⟨i, by simp only [Pairing.before] at hx; omega, rfl, rfl⟩

end

namespace Eval

variable {α β : Type} {action : Eval α} {store after : Store} {P : α → Store → Prop}

/-- The computation fails at the limit, or it succeeds, and then its result and the store that it
leaves have a property. -/
def WithinLimit (action : Eval α) (store : Store) (P : α → Store → Prop) : Prop :=
  (∃ after, action.Ends store (.error .tooDeep) after) ∨
    ∃ a after, action.Ends store (.ok a) after ∧ P a after

theorem Ends.withinLimit {a : α} (h : action.Ends store (.ok a) after) (hp : P a after) :
    action.WithinLimit store P := .inr ⟨a, after, h, hp⟩

theorem WithinLimit.mono {Q : α → Store → Prop} (h : action.WithinLimit store P)
    (himp : ∀ a after, P a after → Q a after) : action.WithinLimit store Q :=
  h.imp_right fun ⟨a, after, ha, hp⟩ => ⟨a, after, ha, himp a after hp⟩

theorem WithinLimit.bind {next : α → Eval β} {Q : β → Store → Prop}
    (h : action.WithinLimit store P)
    (hnext : ∀ a between, P a between → (next a).WithinLimit between Q) :
    (action >>= next).WithinLimit store Q := by
  rcases h with ⟨after, hlimit⟩ | ⟨a, between, ha, hp⟩
  · exact .inl ⟨after, hlimit.bind_error⟩
  · rcases hnext a between hp with ⟨after, hlimit⟩ | ⟨b, after, hb, hq⟩
    · exact .inl ⟨after, ha.bind hlimit⟩
    · exact .inr ⟨b, after, ha.bind hb, hq⟩

theorem withinLimit_environment {env : EnvId} (hlive : (store.live? env).isSome)
    (h : action.WithinLimit store P) :
    (Eval.environment env >>= fun _ => action).WithinLimit store P := by
  obtain ⟨environment, henvironment⟩ := Option.isSome_iff_exists.mp hlive
  have hends := ends_environment_ok.mpr ⟨henvironment, rfl⟩
  exact h.imp (fun ⟨after, hlimit⟩ => ⟨after, hends.bind hlimit⟩)
    fun ⟨a, after, ha, hp⟩ => ⟨a, after, hends.bind ha, hp⟩

end Eval

namespace Value.Copies

variable {p : Pairing} {base : Store} (hbase : base.Numbered) (hp : p.Covers base) {a b : Nat}
  (ha : base.nextNode ≤ a) (hfirst : b ≤ p.first) (hfree : ∀ x y, p.old x y → x < a ∨ b ≤ x)
  {u u' : Value} (hu : Copies base p a u u') {patience room : Nat} (room' : Nat)
include hbase hp ha hfirst hfree hu

/-- Forcing a copy gives a copy, or it fails at the limit. -/
theorem force {w : Value} (hends : (u.resolve patience room).Ends (base.made a) (.ok w)
      (base.made b)) :
    (u'.resolve patience room').WithinLimit (base.made p.second) fun w' after =>
      ∃ q, after = base.made q.second ∧ p.Grows q a b ∧ Copies base q b w w' ∧ w'.Normal := by
  -- With more room the first run does the same, and with less the second fails or does the same.
  have hmore := (Value.resolve_upToLimit (by simp) Display.not_allowed patience
    (le_max_left room room') hu.quiet.confines).ends (base.grows_made a) (by nofun) hends
  obtain ⟨q, outcome', hends', hgrows, hsame⟩ :=
    hu.alike.resolve_again hbase hp ha hfirst hfree hu.quiet hu.quiet' hmore
  cases hsame with
  | @ok _ w' hw =>
    obtain ⟨-, hquiet⟩ := Value.resolve_quiet_made hbase ha hu.quiet hmore
    obtain ⟨-, hquiet'⟩ := Value.resolve_quiet_made hbase hp.second hu.quiet' hends'
    obtain ⟨hw', hnormal⟩ := hquiet' w' rfl
    rcases (Value.resolve_upToLimit (by simp) Display.not_allowed patience
      (le_max_right room room') hu.quiet'.confines).ends_symm (base.grows_made p.second) hends' with
      hends' | hlimit
    · exact hends'.withinLimit ⟨q, rfl, hgrows, ⟨(hquiet w rfl).1, hw', hw⟩, hnormal⟩
    · exact .inl hlimit

/-- Forcing a copy fails if forcing the value does, unless it fails at the limit before. -/
theorem force_fails {failure : Failure} (hroom : room' ≤ room)
    (hends : (u.resolve patience room).Ends (base.made a) (.error failure) (base.made b)) :
    ∃ failure' after, (u'.resolve patience room').Ends (base.made p.second) (.error failure') after
      ∧ (failure' = .tooDeep ∨ failure' = failure) := by
  obtain ⟨q, outcome', hends', hgrows, hsame⟩ :=
    hu.alike.resolve_again hbase hp ha hfirst hfree hu.quiet hu.quiet' hends
  cases hsame with
  | error =>
    rcases (Value.resolve_upToLimit (by simp) Display.not_allowed patience hroom
      hu.quiet'.confines).ends_symm (base.grows_made p.second) hends' with hends' | ⟨after, hlimit⟩
    · exact ⟨failure, _, hends', .inr rfl⟩
    · exact ⟨_, after, hlimit, .inl rfl⟩

end Value.Copies

end Deferral
