import Deferral.Proofs.Footprint
import Deferral.Proofs.Responses

/-!
# Steps that are repeated

The runs of a loop lead from store to store.  If some of its items are run again, in another order
and from the first store, then each of them begins where other nodes have been made, and does the
same but for the numbers of its own nodes.  So all results of the second loop are those of the first
one under a single injective renaming (`Relocation.alike`, `Pairing.exists_renaming`).
-/

namespace Deferral

open Eval

/-! ## 1. Loops -/

namespace Eval

variable {α β : Type} {f : α → Eval β} {store after : Store}

theorem Ends.mapM_stores {items : List α} {results : List β}
    (h : (items.mapM f).Ends store (.ok results) after) :
    ∃ stores : Nat → Store, stores 0 = store ∧ (∀ i, items.length ≤ i → stores i = after) ∧
      ∀ i a b, items[i]? = some a → results[i]? = some b →
        (f a).Ends (stores i) (.ok b) (stores (i + 1)) := by
  induction items generalizing store results with
  | nil =>
    rw [List.mapM_nil, ends_pure_ok] at h
    obtain ⟨rfl, rfl⟩ := h
    exact ⟨fun _ => after, rfl, fun _ _ => rfl, nofun⟩
  | cons item rest ih =>
    rw [List.mapM_cons] at h
    obtain ⟨b, between, hb, h⟩ := ends_bind_ok.mp h
    obtain ⟨others, last, hothers, h⟩ := ends_bind_ok.mp h
    obtain ⟨rfl, rfl⟩ := ends_pure_ok.mp h
    obtain ⟨stores, hfirst, hlast, hruns⟩ := ih hothers
    subst hfirst
    refine ⟨fun i => i.casesOn store stores, rfl, fun i hi => ?_, fun i a c ha hc => ?_⟩
    · cases i with
      | zero => cases hi
      | succ i => exact hlast i (Nat.le_of_succ_le_succ hi)
    · cases i with
      | zero =>
        cases ha
        cases hc
        exact hb
      | succ i => exact hruns i a c ha hc

theorem exists_mapM_ends {items : List α} {C : Store → Prop} (hstore : C store)
    (h : ∀ item ∈ items, ∀ before, C before → ∃ b between,
      (f item).Ends before (.ok b) between ∧ C between) :
    ∃ results after, (items.mapM f).Ends store (.ok results) after := by
  induction items generalizing store with
  | nil => exact ⟨[], store, ends_pure_self [] store⟩
  | cons item rest ih =>
    obtain ⟨hitem, hrest⟩ := List.forall_mem_cons.mp h
    obtain ⟨b, between, hb, hbetween⟩ := hitem store hstore
    obtain ⟨others, after, hothers⟩ := ih hbetween hrest
    refine ⟨b :: others, after, ?_⟩
    rw [List.mapM_cons]
    exact hb.bind (hothers.bind (ends_pure_self _ _))

end Eval

/-! ## 2. The same steps from two stores -/

structure Store.Reached (base store : Store) : Prop extends base.Follows store where
  live? : ∀ env, store.live? env = base.live? env

theorem Store.Reached.ends {α : Type} {base store after : Store} {action : Eval α}
    {outcome : Except Failure α} (h : base.Reached store) (hbase : base.Unbounded)
    (hfollows : action.Keeps Store.Follows) (hsettled : action.Keeps Store.Settled)
    (hends : action.Ends store outcome after) : base.Reached after where
  toFollows := trans_of Store.Follows h.toFollows (hfollows _ _ _ hends)
  live? env := by
    have hstore : store.Unbounded := fun env environment hlive =>
      hbase env environment (h.live? env ▸ hlive)
    exact (hsettled _ _ _ hends hstore env).trans (h.live? env)

/-- What the values of two runs have in common that begin with values of one store, when each of
them may have made other nodes before. -/
def Pairing.since (base first second : Nat) : Pairing where
  first := first
  second := second
  old a b := a = b ∧ a < base ∧ a < first ∧ b < second
  old_lt := fun _ _ hold => hold.2.2
  old_inj := fun _ _ _ _ ⟨heq, _⟩ ⟨heq', _⟩ => by rw [heq, heq']
  environments _ := True
  symbols _ _ := True

theorem Store.Numbered.matches {base : Store} (hbase : base.Numbered) {p : Pairing}
    (hold : ∀ v : Value, v.OlderThan base.nextNode → Value.Alike p v v) (env : EnvId) :
    Option.Rel (p.Matches env) (base.live? env) (base.live? env) := by
  cases hlive : base.live? env with
  | none => exact .none
  | some environment =>
    refine .some ⟨⟨fun _ => rfl, fun name _ => ?_⟩, rfl⟩
    cases hbound : environment.bindings.get? name with
    | none => exact .none
    | some bound =>
      have hvisible : base.visible? env name = some bound := by
        rw [Store.visible?_of_live? hlive, hbound]
      exact .some (hold bound (hbase env name bound (Store.binding?_of_visible? hvisible)))

section
variable {base store store' : Store} (hbase : base.Numbered)
  (hstore : base.Reached store) (hstore' : base.Reached store')
include hstore hstore'

/-- A value from before both runs is the same in both. -/
theorem Value.Alike.since {v : Value} (h : v.OlderThan base.nextNode) :
    Value.Alike (.since base.nextNode store.nextNode store'.nextNode) v v :=
  .of_olderThan h (fun _ hnode => .inl ⟨rfl, hnode, hnode.trans_le hstore.nextNode,
    hnode.trans_le hstore'.nextNode⟩) (fun _ => trivial) fun _ _ => trivial

include hbase in
theorem Store.Reached.joins :
    (Pairing.since base.nextNode store.nextNode store'.nextNode).Joins store store' store
      store' where
  nextNode := ⟨0, rfl, rfl⟩
  environments env _ := by
    rw [hstore.live?, hstore'.live?]
    exact hbase.matches (fun v hv => .since hstore hstore' hv) env
  transcript := ⟨[], (List.append_nil _).symm, (List.append_nil _).symm⟩

end

/-! ## 3. Renaming -/

/-- Numbers that belong together are given by an injective function. -/
theorem Pairing.exists_renaming (p : Pairing) {shift : Nat} (hsecond : p.second = shift + p.first)
    (hold : ∀ a b, p.old a b → b < shift) : ∃ rename : Nat → Nat,
      Function.Injective rename ∧ ∀ a b, p.nodes a b → rename a = b := by
  classical
  let rename (a : Nat) : Nat := if h : ∃ b, p.old a b then h.choose else shift + a
  have hrename : ∀ a b, p.old a b → rename a = b := by
    intro a b hab
    have h : ∃ b, p.old a b := ⟨b, hab⟩
    have hchosen : rename a = h.choose := dif_pos h
    rw [hchosen]
    exact (p.old_inj _ _ _ _ h.choose_spec hab).mp rfl
  have hshift : ∀ a, (¬ ∃ b, p.old a b) → rename a = shift + a := fun a h => dif_neg h
  refine ⟨rename, fun a a' heq => ?_, ?_⟩
  · -- What is no number of an older node is renamed to a number behind all of those.
    by_cases h : ∃ b, p.old a b <;> by_cases h' : ∃ b, p.old a' b
    · obtain ⟨b, hb⟩ := h
      obtain ⟨b', hb'⟩ := h'
      rw [hrename a b hb, hrename a' b' hb'] at heq
      exact (p.old_inj _ _ _ _ hb hb').mpr heq
    · obtain ⟨b, hb⟩ := h
      have hlt := hold a b hb
      rw [hrename a b hb, hshift a' h'] at heq
      omega
    · obtain ⟨b', hb'⟩ := h'
      have hlt := hold a' b' hb'
      rw [hshift a h, hrename a' b' hb'] at heq
      omega
    · rw [hshift a h, hshift a' h'] at heq
      omega
  · rintro a b (hab | ⟨i, rfl, rfl⟩)
    · exact hrename a b hab
    · have hnew : ¬ ∃ b, p.old (p.first + i) b := by
        rintro ⟨b, hb⟩
        have hlt := (p.old_lt _ _ hb).1
        omega
      rw [hshift _ hnew, hsecond]
      omega

/-- Alike values of older nodes are alike in every pairing that these nodes belong to. -/
theorem Value.Alike.carried {p q : Pairing} {v w : Value} {next : NodeId} (h : Value.Alike p v w)
    (hv : v.OlderThan next) (hnodes : ∀ a b, p.nodes a b → a < next → q.nodes a b)
    (henvironments : ∀ env, q.environments env) (hsymbols : ∀ env name, q.symbols env name) :
    Value.Alike q v w := by
  induction v generalizing w with
  | list items ih =>
    cases h with
    | list h => exact .list (forall₂_imp_of_mem h fun a ha b hab => ih a ha hab (hv.items a ha))
  | map entries ih =>
    cases h with
    | map hkeys hvalues =>
      refine .map (forall₂_imp_of_mem hkeys fun key hkey b hab => ?_)
        (forall₂_imp_of_mem hvalues fun value hvalue b hab => ?_)
      · obtain ⟨entry, hentry, rfl⟩ := List.mem_map.mp hkey
        exact (ih entry hentry).1 hab (hv.entry hentry).1
      · obtain ⟨entry, hentry, rfl⟩ := List.mem_map.mp hvalue
        exact (ih entry hentry).2 hab (hv.entry hentry).2
  | symbol env name =>
    cases h
    exact .symbol (henvironments env) (hsymbols env name)
  | expression node env operator left right ihleft ihright =>
    cases hv with
    | expression _ _ hlt hvleft hvright =>
      cases h with
      | expression _ hnode _ hleft hright =>
        exact .expression operator (hnodes _ _ hnode hlt) (henvironments env)
          (ihleft hleft hvleft) (ihright hright hvright)
  | call node env target args kwargs ihtarget ihargs ihkwargs =>
    cases hv with
    | call _ hlt hvtarget hvargs hvkwargs =>
      cases h with
      | call hnode _ htarget hargs hnames hvalues =>
        refine .call (hnodes _ _ hnode hlt) (henvironments env) (ihtarget htarget hvtarget)
          (forall₂_imp_of_mem hargs fun a ha b hab => ihargs a ha hab (hvargs a ha)) hnames
          (forall₂_imp_of_mem hvalues fun value hvalue b hab => ?_)
        obtain ⟨entry, hentry, rfl⟩ := List.mem_map.mp hvalue
        exact ihkwargs entry hentry hab (hvkwargs entry hentry)
  | sequence node env head tail ihhead ihtail =>
    cases hv with
    | sequence _ hlt hvhead hvtail =>
      cases h with
      | sequence hnode _ hhead htail =>
        exact .sequence (hnodes _ _ hnode hlt) (henvironments env) (ihhead hhead hvhead)
          (ihtail htail hvtail)
  | _ =>
    cases h
    constructor

/-- The numbers of the next nodes in two runs, each before its first step, before its second, and so
on.  A step of the second run repeats one of the first, and makes as many nodes. -/
structure Relocation where
  /-- The number of the next node before both runs. -/
  base : Nat
  first : Nat → Nat
  second : Nat → Nat
  /-- How many steps the first run has. -/
  count : Nat
  /-- The steps that the second run repeats. -/
  repeated : List Nat
  first_mono : Monotone first
  second_mono : Monotone second
  first_zero : first 0 = base
  second_zero : second 0 = base
  repeated_lt : ∀ i ∈ repeated, i < count
  repeated_nodup : repeated.Nodup
  made : ∀ k i, repeated[k]? = some i →
    ∃ made, first (i + 1) = first i + made ∧ second (k + 1) = second k + made

namespace Relocation

variable (r : Relocation)

def Moves (a b : Nat) : Prop :=
  (a = b ∧ a < r.base) ∨ ∃ k i d, r.repeated[k]? = some i ∧ a = r.first i + d ∧
    b = r.second k + d ∧ a < r.first (i + 1)

/-- The nodes that have been made are divided among the steps. -/
theorem step_unique {next : Nat → Nat} (hmono : Monotone next) {i j a : Nat} (hi : next i ≤ a)
    (hi' : a < next (i + 1)) (hj : next j ≤ a) (hj' : a < next (j + 1)) : i = j := by
  by_contra hne
  rcases Nat.lt_or_gt_of_ne hne with hlt | hlt
  · have hle := hmono (show i + 1 ≤ j from hlt)
    omega
  · have hle := hmono (show j + 1 ≤ i from hlt)
    omega

variable {r}

theorem Moves.lt {a b : Nat} (h : r.Moves a b) :
    a < r.first r.count ∧ b < r.second r.repeated.length := by
  have hfirst := r.first_mono (Nat.zero_le r.count)
  have hsecond := r.second_mono (Nat.zero_le r.repeated.length)
  rw [r.first_zero] at hfirst
  rw [r.second_zero] at hsecond
  rcases h with ⟨rfl, hlt⟩ | ⟨k, i, d, hk, rfl, rfl, hlt⟩
  · omega
  · obtain ⟨made, hmade, hmade'⟩ := r.made k i hk
    have hi := r.first_mono (show i + 1 ≤ r.count from r.repeated_lt i (List.mem_of_getElem? hk))
    have hk' := r.second_mono
      (show k + 1 ≤ r.repeated.length from (List.getElem?_eq_some_iff.mp hk).1)
    omega

theorem Moves.inj {a b a' b' : Nat} (h : r.Moves a b) (h' : r.Moves a' b') : a = a' ↔ b = b' := by
  have hfirst := fun i => r.first_zero ▸ r.first_mono (Nat.zero_le i)
  have hsecond := fun k => r.second_zero ▸ r.second_mono (Nat.zero_le k)
  rcases h with ⟨rfl, hlt⟩ | ⟨k, i, d, hk, rfl, rfl, hlt⟩ <;>
    rcases h' with ⟨rfl, hlt'⟩ | ⟨k', i', d', hk', rfl, rfl, hlt'⟩
  · exact Iff.rfl
  · have h1 := hfirst i'
    have h2 := hsecond k'
    omega
  · have h1 := hfirst i
    have h2 := hsecond k
    omega
  · obtain ⟨made, hmade, hmade'⟩ := r.made k i hk
    obtain ⟨other, hother, hother'⟩ := r.made k' i' hk'
    constructor
    · intro heq
      obtain rfl : i = i' :=
        step_unique r.first_mono (Nat.le_add_right _ d) hlt (by omega) (by omega)
      have hlength := (List.getElem?_eq_some_iff.mp hk).1
      obtain rfl : k = k' :=
        (List.getElem?_inj hlength r.repeated_nodup).mp (hk.trans hk'.symm)
      omega
    · intro heq
      obtain rfl : k = k' :=
        step_unique r.second_mono (Nat.le_add_right _ d) (by omega) (by omega) (by omega)
      obtain rfl : i = i' := Option.some.inj (hk.symm.trans hk')
      omega

variable (r)

def pairing : Pairing where
  first := r.first r.count
  second := r.second r.repeated.length + r.first r.count
  old := r.Moves
  old_lt := fun _ _ h => ⟨h.lt.1, Nat.lt_add_right _ h.lt.2⟩
  old_inj := fun _ _ _ _ h h' => h.inj h'
  environments _ := True
  symbols _ _ := True

variable {r}

/-- What a step gives and what its repetition gives. -/
theorem alike {k i : Nat} (hk : r.repeated[k]? = some i) {v w : Value}
    (h : Value.Alike (.since r.base (r.first i) (r.second k)) v w)
    (hv : v.OlderThan (r.first (i + 1))) : Value.Alike r.pairing v w := by
  refine h.carried hv (fun a b hab hlt => ?_) (fun _ => trivial) fun _ _ => trivial
  rcases hab with ⟨heq, hbase, -⟩ | ⟨d, ha, hb⟩
  · exact .inl (.inl ⟨heq, hbase⟩)
  · exact .inl (.inr ⟨k, i, d, hk, ha, hb, hlt⟩)

end Relocation

end Deferral
