import Deferral.Proofs.DistinctKeys

/-!
# Entries with one key

A map that is built by insertion has one entry of all those with one key: the last one, in the place
of the first.  So it is enough to know which numbers of entries are left, and in which order
(`Entries.order`).  Where entries are put into a map twice, with other keys the second time, two
such orders meet: the entries that are left after the first time have the same keys as all of them
(`Entries.ofList_order_sameKeys`), but they may come in another order, and so another one of them
may be the last (`Entries.mem_ofList_order`).
-/

namespace Deferral

namespace Entries

/-! ## 1. What is left of numbers -/

section
variable (same : Nat → Nat → Prop) [DecidableRel same]

/-- Puts a number in the place of the one that it is the same as, or behind all of them. -/
def place (new : Nat) : List Nat → List Nat
  | [] => [new]
  | old :: rest => if same old new then new :: rest else old :: place new rest

/-- What is left of the first numbers when each of them takes the place of one that is the same. -/
def order : (count : Nat) → List Nat
  | 0 => []
  | count + 1 => place same count (order count)

/-- A number is seen no later than another one, if it or one that is the same stands wherever the
other stands, or before. -/
def NoLater (i j : Nat) : Prop := ∀ l, same l j → ∃ h ≤ l, same h i

variable {same}

variable (same) in
theorem place_cases (new : Nat) (numbers : List Nat) :
    (∃ before old behind, numbers = before ++ old :: behind ∧ same old new ∧
      place same new numbers = before ++ new :: behind) ∨
    ((∀ old ∈ numbers, ¬ same old new) ∧ place same new numbers = numbers ++ [new]) := by
  induction numbers with
  | nil => exact .inr ⟨nofun, rfl⟩
  | cons first rest ih =>
    rw [place]
    by_cases hsame : same first new
    · rw [if_pos hsame]
      exact .inl ⟨[], first, rest, rfl, hsame, rfl⟩
    · rw [if_neg hsame]
      obtain ⟨before, old, behind, rfl, hold, hplace⟩ | ⟨hnone, hplace⟩ := ih
      · exact .inl ⟨first :: before, old, behind, rfl, hold, by rw [hplace, List.cons_append]⟩
      · refine .inr ⟨?_, by rw [hplace, List.cons_append]⟩
        exact List.forall_mem_cons.mpr ⟨hsame, hnone⟩

theorem mem_place_of_distinct (hsame : Equivalence same) {new i : Nat} {numbers : List Nat}
    (hdistinct : numbers.Pairwise fun i j => ¬ same i j) :
    i ∈ place same new numbers ↔ i = new ∨ i ∈ numbers ∧ ¬ same i new := by
  obtain ⟨before, old, behind, rfl, hold, hplace⟩ | ⟨hnone, hplace⟩ :=
    place_cases same new numbers
  · obtain ⟨-, hbehind, hbefore⟩ := List.pairwise_append.mp hdistinct
    -- What is the same as the new number is the same as the old one, which has gone.
    have hleft : ∀ i ∈ before, ¬ same i new := fun i hi h =>
      hbefore i hi old List.mem_cons_self (hsame.trans h (hsame.symm hold))
    have hright : ∀ i ∈ behind, ¬ same i new := fun i hi h =>
      (List.pairwise_cons.mp hbehind).1 i hi (hsame.trans hold (hsame.symm h))
    rw [hplace]
    simp only [List.mem_append, List.mem_cons]
    constructor
    · rintro (hi | rfl | hi)
      · exact .inr ⟨.inl hi, hleft i hi⟩
      · exact .inl rfl
      · exact .inr ⟨.inr (.inr hi), hright i hi⟩
    · rintro (rfl | ⟨hi | rfl | hi, hnot⟩)
      · exact .inr (.inl rfl)
      · exact .inl hi
      · exact absurd hold hnot
      · exact .inr (.inr hi)
  · rw [hplace, List.mem_append, List.mem_singleton]
    constructor
    · rintro (hi | rfl)
      · exact .inr ⟨hi, hnone i hi⟩
      · exact .inl rfl
    · rintro (rfl | ⟨hi, -⟩)
      · exact .inr rfl
      · exact .inl hi

theorem mem_place {new i : Nat} {numbers : List Nat} (h : i ∈ place same new numbers) :
    i = new ∨ i ∈ numbers := by
  induction numbers with
  | nil => exact .inl (List.mem_singleton.mp h)
  | cons first rest ih =>
    rw [place] at h
    split at h
    · exact (List.mem_cons.mp h).imp_right (List.mem_cons_of_mem first)
    · rcases List.mem_cons.mp h with rfl | hrest
      · exact .inr List.mem_cons_self
      · exact (ih hrest).imp_right (List.mem_cons_of_mem first)

theorem lt_of_mem_order {i count : Nat} (h : i ∈ order same count) : i < count := by
  induction count with
  | zero => cases h
  | succ count ih =>
    obtain rfl | h := mem_place h
    · omega
    · have hlt := ih h
      omega

omit [DecidableRel same] in
/-- Of two numbers, one is seen no later than the other. -/
theorem NoLater.of_not {i j : Nat} (h : ¬ NoLater same j i) : NoLater same i j := by
  simp only [NoLater, not_forall, not_exists, not_and] at h
  obtain ⟨l, hl, hbefore⟩ := h
  intro l' hl'
  by_cases hle : l ≤ l'
  · exact ⟨l, hle, hl⟩
  · exact absurd hl' (hbefore l' (by omega))

variable (hsame : Equivalence same)
include hsame

omit [DecidableRel same] in
theorem NoLater.of_same {i j : Nat} (h : same j i) : NoLater same i j :=
  fun l hl => ⟨l, Nat.le_refl l, hsame.trans hl h⟩

omit [DecidableRel same] in
theorem NoLater.congr_left {i i' j : Nat} (h : same i i') (hlate : NoLater same i j) :
    NoLater same i' j := by
  intro l hl
  obtain ⟨found, hle, hfound⟩ := hlate l hl
  exact ⟨found, hle, hsame.trans hfound h⟩

omit [DecidableRel same] in
theorem NoLater.congr_right {i j j' : Nat} (h : same j j') (hlate : NoLater same i j) :
    NoLater same i j' :=
  fun l hl => hlate l (hsame.trans hl (hsame.symm h))

theorem exists_mem_order {i count : Nat} (h : i < count) : ∃ j ∈ order same count, same j i := by
  induction count with
  | zero => omega
  | succ count ih =>
    rw [order]
    by_cases hlast : i = count
    · refine ⟨count, ?_, hlast ▸ hsame.refl count⟩
      obtain ⟨_, _, _, -, -, hplace⟩ | ⟨-, hplace⟩ :=
        place_cases same count (order same count)
      all_goals simp [hplace]
    · obtain ⟨j, hj, hji⟩ := ih (by omega)
      obtain ⟨before, old, behind, heq, hold, hplace⟩ | ⟨-, hplace⟩ :=
        place_cases same count (order same count)
      · -- The one that was left may have given its place to the new one.
        by_cases hjold : j = old
        · exact ⟨count, by simp [hplace], hsame.trans (hsame.symm hold) (hjold ▸ hji)⟩
        · refine ⟨j, ?_, hji⟩
          rw [heq] at hj
          simp only [hplace, List.mem_append, List.mem_cons] at hj ⊢
          tauto
      · exact ⟨j, hplace ▸ List.mem_append_left _ hj, hji⟩

theorem order_sorted (count : Nat) :
    (order same count).Pairwise fun i j => ¬ NoLater same j i := by
  induction count with
  | zero => exact .nil
  | succ count ih =>
    rw [order]
    obtain ⟨before, old, behind, heq, hold, hplace⟩ | ⟨hnone, hplace⟩ :=
      place_cases same count (order same count)
    · rw [heq] at ih
      rw [hplace]
      simp only [List.pairwise_append, List.pairwise_cons, List.forall_mem_cons] at ih ⊢
      obtain ⟨hbefore, ⟨hold', hbehind⟩, hacross⟩ := ih
      -- The new number is seen when the old one is.
      refine ⟨hbefore, ⟨fun j hj hlate => ?_, hbehind⟩, fun i hi => ⟨fun hlate => ?_, ?_⟩⟩
      · exact hold' j hj (hlate.congr_right hsame (hsame.symm hold))
      · exact (hacross i hi).1 (hlate.congr_left hsame (hsame.symm hold))
      · exact (hacross i hi).2
    · rw [hplace]
      refine List.pairwise_append.mpr ⟨ih, List.pairwise_singleton _ _, fun i hi j hj hlate => ?_⟩
      obtain rfl := List.mem_singleton.mp hj
      obtain ⟨found, hle, hfound⟩ := hlate i (hsame.refl i)
      have hlt := lt_of_mem_order hi
      obtain ⟨left, hleft, hleftfound⟩ := exists_mem_order hsame (show found < j by omega)
      exact hnone left hleft (hsame.trans hleftfound hfound)

theorem order_distinct (count : Nat) : (order same count).Pairwise fun i j => ¬ same i j :=
  (order_sorted hsame count).imp fun hlate h => hlate (.of_same hsame h)

theorem mem_order {i count : Nat} :
    i ∈ order same count ↔ i < count ∧ ∀ m < count, i < m → ¬ same m i := by
  induction count with
  | zero => simp [order]
  | succ count ih =>
    rw [order, mem_place_of_distinct hsame (order_distinct hsame count), ih]
    constructor
    · rintro (rfl | ⟨⟨hi, hlast⟩, hnew⟩)
      · exact ⟨by omega, fun m hm him => by omega⟩
      · refine ⟨by omega, fun m hm him h => ?_⟩
        by_cases hmnew : m = count
        · exact hnew (hsame.symm (hmnew ▸ h))
        · exact hlast m (by omega) him h
    · rintro ⟨hi, hlast⟩
      by_cases hinew : i = count
      · exact .inl hinew
      · exact .inr ⟨⟨by omega, fun m hm => hlast m (by omega)⟩,
          fun h => hlast count (by omega) (by omega) (hsame.symm h)⟩

end

/-! ## 2. What is left of entries -/

def SameKey (entries : Entries) (i j : Nat) : Prop :=
  i = j ∨ (entries[i]?.any fun a => entries[j]?.any fun b => a.1 == b.1) = true

instance (entries : Entries) : DecidableRel entries.SameKey :=
  fun _ _ => inferInstanceAs (Decidable (_ ∨ _))

def LastOfKey (entries : Entries) (j : Nat) : Prop := ∀ m, j < m → ¬ entries.SameKey m j

def nth (entries : Entries) (i : Nat) : Value × Value := entries.getD i (.nil, .nil)

theorem getElem?_eq_nth {entries : Entries} {i : Nat} (h : i < entries.length) :
    entries[i]? = some (entries.nth i) := by
  rw [nth, List.getD_eq_getElem?_getD, List.getElem?_eq_getElem h, Option.getD_some]

theorem getElem_eq_nth {entries : Entries} {i : Nat} (h : i < entries.length) :
    entries[i] = entries.nth i :=
  Option.some.inj ((List.getElem?_eq_getElem h).symm.trans (getElem?_eq_nth h))

theorem nth_map {entry : Nat → Value × Value} {numbers : List Nat} {k i : Nat}
    (hk : numbers[k]? = some i) : nth (numbers.map entry) k = entry i := by
  rw [nth, List.getD_eq_getElem?_getD, List.getElem?_map, hk, Option.map_some, Option.getD_some]

theorem nth_mem {entries : Entries} {i : Nat} (h : i < entries.length) :
    entries.nth i ∈ entries := List.mem_of_getElem? (getElem?_eq_nth h)

/-- What entries have become, without those that are lost when the entries are put into a map. -/
def leftOf (entries resolved : Entries) : Entries :=
  (order entries.SameKey resolved.length).map resolved.nth

theorem sameKey_iff {entries : Entries} {i j : Nat} (hi : i < entries.length)
    (hj : j < entries.length) :
    entries.SameKey i j ↔ i = j ∨ ((entries.nth i).1 == (entries.nth j).1) = true := by
  rw [SameKey, getElem?_eq_nth hi, getElem?_eq_nth hj, Option.any_some, Option.any_some]

theorem SameKey.lt {entries : Entries} {i j : Nat} (h : entries.SameKey i j) (hne : i ≠ j) :
    i < entries.length := by
  obtain ⟨a, ha, -⟩ := (Option.any_eq_true _ _).mp (h.resolve_left hne)
  exact (List.getElem?_eq_some_iff.mp ha).1

theorem sameKey_equivalence (entries : Entries) : Equivalence entries.SameKey where
  refl _ := .inl rfl
  symm := by
    rintro i j (rfl | h)
    · exact .inl rfl
    · simp only [Option.any_eq_true] at h
      obtain ⟨a, ha, b, hb, hab⟩ := h
      exact .inr (by simp [ha, hb, Value.beq_symm hab])
  trans := by
    rintro i j k (rfl | h) (rfl | h')
    · exact .inl rfl
    · exact .inr h'
    · exact .inr h
    · simp only [Option.any_eq_true] at h h'
      obtain ⟨a, ha, b, hb, hab⟩ := h
      obtain ⟨b', hb', c, hc, hbc⟩ := h'
      rw [hb] at hb'
      cases hb'
      exact .inr (by simp [ha, hc, Value.beq_trans hab hbc])

theorem ofList_append_singleton (entries : Entries) (entry : Value × Value) :
    ofList (entries ++ [entry]) = insert entry.1 entry.2 (ofList entries) := by
  rw [ofList, List.foldl_append]
  rfl

theorem insert_map_nth {entries : Entries} {new : Nat} {numbers : List Nat}
    (hnew : new < entries.length) (hnumbers : ∀ i ∈ numbers, i < new) :
    insert (entries.nth new).1 (entries.nth new).2 (numbers.map entries.nth) =
      (place entries.SameKey new numbers).map entries.nth := by
  induction numbers with
  | nil => rfl
  | cons first rest ih =>
    obtain ⟨hfirst, hrest⟩ := List.forall_mem_cons.mp hnumbers
    have hkey : entries.SameKey first new ↔
        ((entries.nth first).1 == (entries.nth new).1) = true := by
      rw [sameKey_iff (by omega) hnew]
      exact or_iff_right (by omega)
    rw [List.map_cons, insert, place]
    by_cases hsame : entries.SameKey first new
    · rw [if_pos hsame, if_pos (hkey.mp hsame), List.map_cons]
    · rw [if_neg hsame, if_neg (fun h => hsame (hkey.mpr h)), List.map_cons, ih hrest]

theorem ofList_take {entries : Entries} {count : Nat} (h : count ≤ entries.length) :
    ofList (entries.take count) = (order entries.SameKey count).map entries.nth := by
  induction count with
  | zero => rfl
  | succ count ih =>
    rw [List.take_succ_eq_append_getElem h, getElem_eq_nth h, ofList_append_singleton,
      ih (by omega), order]
    exact insert_map_nth h fun i hi => lt_of_mem_order hi

/-- A map that is built by insertion has the entries that are left, in their order. -/
theorem ofList_eq_order (entries : Entries) :
    ofList entries = (order entries.SameKey entries.length).map entries.nth := by
  have htake := ofList_take (Nat.le_refl entries.length)
  rwa [List.take_length] at htake

/-- An entry of the map is the last one with its key. -/
theorem exists_last_of_mem_ofList {entries : Entries} {entry : Value × Value}
    (h : entry ∈ ofList entries) :
    ∃ j, j < entries.length ∧ entries.nth j = entry ∧ entries.LastOfKey j := by
  rw [ofList_eq_order] at h
  obtain ⟨j, hj, rfl⟩ := List.mem_map.mp h
  obtain ⟨hlt, hlast⟩ := (mem_order entries.sameKey_equivalence).mp hj
  exact ⟨j, hlt, rfl, fun m hjm hm => hlast m (hm.lt (by omega)) hjm hm⟩

theorem exists_key_mem_ofList {entries : Entries} {entry : Value × Value} {key : Value}
    (h : entry ∈ entries) (hkey : (entry.1 == key) = true) :
    ∃ found ∈ ofList entries, (found.1 == key) = true := by
  obtain ⟨i, hi, rfl⟩ := List.mem_iff_getElem.mp h
  obtain ⟨j, hj, hji⟩ := exists_mem_order entries.sameKey_equivalence hi
  refine ⟨entries.nth j, ?_, ?_⟩
  · rw [ofList_eq_order]
    exact List.mem_map_of_mem hj
  · rw [getElem_eq_nth hi] at hkey
    rcases (sameKey_iff (lt_of_mem_order hj) hi).mp hji with rfl | hji
    · exact hkey
    · exact Value.beq_trans hji hkey

/-! ## 3. Maps with the same keys -/

def Agree (a b : Value × Value) : Prop := a = b ∨ (a.1 == b.1) = true

abbrev SameKeys (as bs : Entries) : Prop := List.Forall₂ Agree as bs

theorem Agree.symm {a b : Value × Value} (h : Agree a b) : Agree b a :=
  h.imp Eq.symm Value.beq_symm

theorem Agree.trans {a b c : Value × Value} (h : Agree a b) (h' : Agree b c) : Agree a c := by
  rcases h with rfl | h
  · exact h'
  · rcases h' with rfl | h'
    · exact .inr h
    · exact .inr (Value.beq_trans h h')

theorem Agree.beq_eq {a a' b b' : Value × Value} (ha : Agree a a') (hb : Agree b b') :
    (a.1 == b.1) = (a'.1 == b'.1) := by
  have hcongr : ∀ {a a' b b' : Value × Value}, Agree a a' → Agree b b' →
      (a.1 == b.1) = true → (a'.1 == b'.1) = true := by
    intro a a' b b' ha hb hab
    have hleft : (a'.1 == b.1) = true := by
      rcases ha with rfl | ha
      · exact hab
      · exact Value.beq_trans (Value.beq_symm ha) hab
    rcases hb with rfl | hb
    · exact hleft
    · exact Value.beq_trans hleft hb
  rw [Bool.eq_iff_iff]
  exact ⟨hcongr ha hb, hcongr ha.symm hb.symm⟩

namespace SameKeys

theorem refl (entries : Entries) : SameKeys entries entries :=
  List.forall₂_same.mpr fun _ _ => .inl rfl

theorem symm {as bs : Entries} (h : SameKeys as bs) : SameKeys bs as :=
  Value.forall₂_symm (fun _ _ _ => Agree.symm) h

theorem trans {as bs cs : Entries} (h : SameKeys as bs) (h' : SameKeys bs cs) : SameKeys as cs :=
  Value.forall₂_trans (fun _ _ _ _ => Agree.trans) h h'

theorem insert {as bs : Entries} {a b : Value × Value} (h : SameKeys as bs) (hab : Agree a b) :
    SameKeys (Entries.insert a.1 a.2 as) (Entries.insert b.1 b.2 bs) :=
  forall₂_insert (fun _ _ _ _ => Agree.beq_eq) h hab

theorem ofList {as bs : Entries} (h : SameKeys as bs) :
    SameKeys (Entries.ofList as) (Entries.ofList bs) :=
  forall₂_ofList (fun _ _ _ _ => Agree.beq_eq) h

theorem insert_known {entries : Entries} {new : Value × Value}
    (h : ∃ known ∈ entries, (known.1 == new.1) = true) :
    SameKeys entries (Entries.insert new.1 new.2 entries) := by
  induction entries with
  | nil => simp at h
  | cons first rest ih =>
    rw [Entries.insert]
    by_cases hsame : (first.1 == new.1) = true
    · rw [if_pos hsame]
      exact .cons (.inr hsame) (SameKeys.refl rest)
    · rw [if_neg hsame]
      refine .cons (.inl rfl) (ih ?_)
      obtain ⟨known, hknown, hkey⟩ := h
      rcases List.mem_cons.mp hknown with rfl | hknown
      · exact absurd hkey hsame
      · exact ⟨known, hknown, hkey⟩

/-- Maps with the same keys are the same if entries with equal keys are. -/
theorem eq {as bs : Entries} (h : SameKeys as bs)
    (heq : ∀ a ∈ as, ∀ b ∈ bs, (a.1 == b.1) = true → a = b) : as = bs := by
  induction h with
  | nil => rfl
  | @cons a b as bs hab _ ih =>
    rw [hab.elim id (heq a List.mem_cons_self b List.mem_cons_self),
      ih fun c hc d hd => heq c (List.mem_cons_of_mem a hc) d (List.mem_cons_of_mem b hd)]

end SameKeys

theorem mem_insert_of_mem {key value : Value} {entry : Value × Value} {entries : Entries}
    (h : entry ∈ entries) (hkey : (entry.1 == key) = false) :
    entry ∈ insert key value entries := by
  induction entries with
  | nil => cases h
  | cons first rest ih =>
    rw [insert]
    rcases List.mem_cons.mp h with rfl | h
    · rw [if_neg (by simp [hkey])]
      exact List.mem_cons_self
    · split
      · exact List.mem_cons_of_mem _ h
      · exact List.mem_cons_of_mem _ (ih h)

theorem insert_self_mem (key value : Value) (entries : Entries) :
    (key, value) ∈ insert key value entries := by
  induction entries with
  | nil => exact List.mem_singleton_self _
  | cons first rest ih =>
    rw [insert]
    split
    · exact List.mem_cons_self
    · exact List.mem_cons_of_mem _ ih

theorem mem_ofList_append {before behind : Entries} {entry : Value × Value}
    (h : ∀ later ∈ behind, (entry.1 == later.1) = false) :
    entry ∈ ofList (before ++ entry :: behind) := by
  have hfold : ∀ {done : Entries}, entry ∈ done →
      entry ∈ behind.foldl (fun found entry => insert entry.1 entry.2 found) done := by
    induction behind with
    | nil => exact fun hdone => hdone
    | cons first rest ih =>
      obtain ⟨hfirst, hrest⟩ := List.forall_mem_cons.mp h
      exact fun hdone => ih hrest (mem_insert_of_mem hdone hfirst)
  rw [ofList, List.foldl_append, List.foldl_cons]
  exact hfold (insert_self_mem _ _ _)

theorem Distinct.eq_of_mem {entries : Entries} (h : entries.Distinct) {a b : Value × Value}
    (ha : a ∈ entries) (hb : b ∈ entries) (hab : (a.1 == b.1) = true) : a = b := by
  induction h with
  | nil => cases ha
  | @cons first rest hfirst _ ih =>
    -- The first entry has another key than those behind it.
    rcases List.mem_cons.mp ha with hfirsta | hresta
    · rcases List.mem_cons.mp hb with hfirstb | hrestb
      · rw [hfirsta, hfirstb]
      · rw [hfirsta, hfirst b hrestb] at hab
        cases hab
    · rcases List.mem_cons.mp hb with hfirstb | hrestb
      · have hba := Value.beq_symm hab
        rw [hfirstb, hfirst a hresta] at hba
        cases hba
      · exact ih hresta hrestb

/-! ## 4. Two ways to be the same -/

section
variable {same : Nat → Nat → Prop} [DecidableRel same] {entries : Entries}

/-- If entries that are the same have one key, then those that are left have all keys, in the order
of all entries. -/
theorem ofList_order_sameKeys (hkeys : ∀ i j, same i j → entries.SameKey i j) {count : Nat}
    (h : count ≤ entries.length) :
    SameKeys (ofList ((order same count).map entries.nth)) (ofList (entries.take count)) := by
  induction count with
  | zero => exact .nil
  | succ count ih =>
    have hbefore := ih (by omega)
    rw [List.take_succ_eq_append_getElem h, getElem_eq_nth h, ofList_append_singleton, order]
    obtain ⟨before, old, behind, heq, hold, hplace⟩ | ⟨-, hplace⟩ :=
      place_cases same count (order same count)
    · have hleft : old ∈ order same count := by simp [heq]
      have hlt : old < count := lt_of_mem_order hleft
      have hkey : (entries.nth old).1 == (entries.nth count).1 :=
        ((sameKey_iff (by omega) h).mp (hkeys old count hold)).resolve_left (by omega)
      have hreplaced : SameKeys ((before ++ count :: behind).map entries.nth)
          ((before ++ old :: behind).map entries.nth) := by
        rw [List.map_append, List.map_append, List.map_cons, List.map_cons]
        exact List.rel_append (SameKeys.refl _)
          (.cons (.inr (Value.beq_symm hkey)) (SameKeys.refl _))
      have hmem : entries.nth old ∈ entries.take count := by
        rw [List.mem_take_iff_getElem]
        exact ⟨old, by omega, getElem_eq_nth (by omega)⟩
      rw [hplace]
      rw [heq] at hbefore
      exact (hreplaced.ofList.trans hbefore).trans (.insert_known (exists_key_mem_ofList hmem hkey))
    · rw [hplace, List.map_append, List.map_singleton, ofList_append_singleton]
      exact hbefore.insert (.inl rfl)

/-- Of the entries with one key that are left, the map has the one that was seen last. -/
theorem mem_ofList_order (hsame : Equivalence same) {j : Nat} (hj : j < entries.length)
    (hlast : ∀ m < entries.length, j < m → ¬ same m j)
    (hlate : ∀ i, entries.SameKey i j → NoLater same i j) :
    entries.nth j ∈ ofList ((order same entries.length).map entries.nth) := by
  obtain ⟨before, behind, heq⟩ := List.append_of_mem ((mem_order hsame).mpr ⟨hj, hlast⟩)
  have hsorted := order_sorted hsame entries.length
  rw [heq] at hsorted
  rw [heq, List.map_append, List.map_cons]
  refine mem_ofList_append fun later hlater => ?_
  obtain ⟨i, hi, rfl⟩ := List.mem_map.mp hlater
  have hleft : i ∈ order same entries.length := by simp [heq, hi]
  have hlt : i < entries.length := lt_of_mem_order hleft
  by_contra hkey
  have hkey := Value.beq_symm (eq_true_of_ne_false hkey)
  exact (List.pairwise_cons.mp (List.pairwise_append.mp hsorted).2.1).1 i hi
    (hlate i ((sameKey_iff hlt hj).mpr (.inr hkey)))

/-- The map has nothing but these entries. -/
theorem exists_of_mem_ofList_order (hsame : Equivalence same)
    (hkeys : ∀ i j, same i j → entries.SameKey i j) {entry : Value × Value}
    (h : entry ∈ ofList ((order same entries.length).map entries.nth)) :
    ∃ j < entries.length, entries.nth j = entry ∧ (∀ m < entries.length, j < m → ¬ same m j) ∧
      ∀ i, entries.SameKey i j → NoLater same i j := by
  obtain ⟨k, hk, rfl, hlast⟩ := exists_last_of_mem_ofList h
  have hk' := hk
  rw [List.length_map] at hk'
  let numbers := order same entries.length
  have hnth : ∀ k (hk : k < numbers.length),
      nth (numbers.map entries.nth) k = entries.nth numbers[k] :=
    fun k hk => nth_map (List.getElem?_eq_getElem hk)
  obtain ⟨hj, hjlast⟩ := (mem_order hsame).mp (List.getElem_mem hk')
  refine ⟨numbers[k], hj, (hnth k hk').symm, hjlast, fun i hi => ?_⟩
  have hilt : i < entries.length := by
    by_cases hij : i = numbers[k]
    · exact hij ▸ hj
    · exact hi.lt hij
  -- Another number that is left for `i` stands before, since this one is the last with its key.
  obtain ⟨left, hleft, hsamei⟩ := exists_mem_order hsame hilt
  obtain ⟨k', hkleft, rfl⟩ := List.mem_iff_getElem.mp hleft
  rcases Nat.lt_trichotomy k' k with hlt | rfl | hlt
  · have hsorted := List.pairwise_iff_getElem.mp (order_sorted hsame _) k' k hkleft hk' hlt
    exact (NoLater.of_not hsorted).congr_left hsame hsamei
  · exact .of_same hsame hsamei
  · have hdistinct := List.pairwise_iff_getElem.mp (order_distinct hsame _) k k' hk' hkleft hlt
    have hne : numbers[k'] ≠ numbers[k] := fun heq => hdistinct (heq ▸ hsame.refl _)
    have hkey := entries.sameKey_equivalence.trans (hkeys _ _ hsamei) hi
    refine absurd ((sameKey_iff (by rwa [List.length_map]) hk).mpr (.inr ?_)) (hlast k' hlt)
    rw [hnth k' hkleft, hnth k hk']
    exact ((sameKey_iff (lt_of_mem_order hleft) hj).mp hkey).resolve_left hne

/-- If the last entry with each key is one that is seen last, then nothing is lost with the entries
that are not left. -/
theorem ofList_order_eq (hsame : Equivalence same) (hkeys : ∀ i j, same i j → entries.SameKey i j)
    (hlate : ∀ j, entries.LastOfKey j → ∀ i, entries.SameKey i j → NoLater same i j) :
    ofList ((order same entries.length).map entries.nth) = ofList entries := by
  have hagree := ofList_order_sameKeys hkeys (Nat.le_refl entries.length)
  rw [List.take_length] at hagree
  refine hagree.eq fun left hleft entry hentry hkey => ?_
  obtain ⟨j, hj, rfl, hlast⟩ := exists_last_of_mem_ofList hentry
  -- The last entry with the key is in both maps, and no other one with the key is.
  have hmem := mem_ofList_order hsame hj
    (fun m _ hjm h => hlast m hjm (hkeys m j h)) (hlate j hlast)
  exact (distinct_ofList _).eq_of_mem hleft hmem hkey

end

end Entries

end Deferral
