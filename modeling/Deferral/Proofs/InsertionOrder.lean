import Deferral.Proofs.Merging
import Mathlib.Data.List.Induction

/-!
# Maps in insertion order

A map is a finite map that remembers in which order its keys came: what is found under a key is the
value that was put in last, and each key stands where one equal to it came first
(`Entries.ofList_insertion_order`).  A key that is not equal to itself, such as a NaN, is a new one
each time, and nothing is found under it.
-/

namespace Deferral

/-- A key that is equal to anything is equal to itself. -/
theorem Value.beq_self_of_beq {known key : Value} (h : (known == key) = true) :
    (key == key) = true := Value.beq_trans (Value.beq_symm h) h

namespace Entries

/-! ## 1. Looking up -/

theorem get?_insert (wanted key value : Value) (entries : Entries) :
    get? wanted (insert key value entries) =
      if key == wanted then some value else get? wanted entries := by
  induction entries with
  | nil => rfl
  | cons first rest ih =>
    obtain ⟨known, old⟩ := first
    rw [insert]
    by_cases hsame : (known == key) = true
    · rw [if_pos hsame, get?, get?]
      by_cases hkey : (key == wanted) = true
      · rw [if_pos hkey, if_pos hkey]
      · -- The old key goes with the new one, so it was not the wanted one either.
        have hknown : ¬ (known == wanted) = true := fun h =>
          hkey (Value.beq_trans (Value.beq_symm hsame) h)
        rw [if_neg hkey, if_neg hkey, if_neg hknown]
    · rw [if_neg hsame, get?, get?, ih]
      by_cases hknown : (known == wanted) = true
      · have hkey : ¬ (key == wanted) = true := fun h =>
          hsame (Value.beq_trans hknown (Value.beq_symm h))
        rw [if_pos hknown, if_neg hkey, if_pos hknown]
      · rw [if_neg hknown, if_neg hknown]

/-- Under a key stands what was put in last under one equal to it. -/
theorem get?_ofList (wanted : Value) (entries : List (Value × Value)) :
    get? wanted (ofList entries) = (entries.reverse.find? (·.1 == wanted)).map Prod.snd := by
  induction entries using List.reverseRecOn with
  | nil => rfl
  | append_singleton entries entry ih =>
    rw [ofList_append_singleton, get?_insert, List.reverse_append, List.reverse_singleton,
      List.singleton_append, List.find?_cons, ih]
    cases entry.1 == wanted <;> rfl

theorem get?_eq_none {key : Value} (h : (key == key) = false) (entries : Entries) :
    get? key entries = none := by
  induction entries with
  | nil => rfl
  | cons first rest ih =>
    have hdiffer : ¬ (first.1 == key) = true := fun hkey => by
      rw [Value.beq_self_of_beq hkey] at h
      cases h
    rw [get?, if_neg hdiffer, ih]

/-- A key that is not equal to itself is a new one. -/
theorem insert_of_ne_self {key : Value} (h : (key == key) = false) (value : Value)
    (entries : Entries) : insert key value entries = entries ++ [(key, value)] := by
  refine insert_eq_append value fun entry _ => ?_
  by_contra hkey
  rw [Value.beq_self_of_beq (eq_true_of_ne_false hkey)] at h
  cases h

/-! ## 2. How many entries there are -/

theorem insert_eq_or (key value : Value) (entries : Entries) :
    (insert key value entries).length = entries.length ∨
      insert key value entries = entries ++ [(key, value)] := by
  induction entries with
  | nil => exact .inr rfl
  | cons first rest ih =>
    rw [insert]
    split
    · exact .inl rfl
    · rcases ih with hlength | heq
      · exact .inl (by simp [hlength])
      · exact .inr (by rw [heq, List.cons_append])

theorem length_ofList_le (entries : List (Value × Value)) :
    (ofList entries).length ≤ entries.length := by
  induction entries using List.reverseRecOn with
  | nil => exact Nat.le_refl 0
  | append_singleton entries entry ih =>
    rw [ofList_append_singleton]
    rcases insert_eq_or entry.1 entry.2 (ofList entries) with hlength | heq
    · rw [hlength, List.length_append]
      omega
    · rw [heq, List.length_append, List.length_append]
      simpa using ih

/-- If no entry is lost, then all stay in their places. -/
theorem ofList_eq_self_of_length {entries : List (Value × Value)}
    (h : (ofList entries).length = entries.length) : ofList entries = entries := by
  induction entries using List.reverseRecOn with
  | nil => rfl
  | append_singleton entries entry ih =>
    have hle := length_ofList_le entries
    rw [ofList_append_singleton] at h ⊢
    rcases insert_eq_or entry.1 entry.2 (ofList entries) with hlength | heq
    · rw [hlength, List.length_append, List.length_singleton] at h
      omega
    · rw [heq, List.length_append, List.length_append, Nat.add_right_cancel_iff] at h
      rw [heq, ih h]

/-! ## 3. The order of the keys -/

section
variable (same : Nat → Nat → Prop) [DecidableRel same]

/-- The numbers that none before them is the same as. -/
def firsts (count : Nat) : List Nat := (List.range count).filter fun i => ∀ h < i, ¬ same h i

variable {same}

theorem firsts_succ (count : Nat) :
    firsts same (count + 1) =
      firsts same count ++ if ∀ h < count, ¬ same h count then [count] else [] := by
  unfold firsts
  rw [List.range_succ, List.filter_append, List.filter_singleton, Bool.cond_decide]

/-- What is left stands in the place of what came first. -/
theorem forall₂_firsts_order (hsame : Equivalence same) (count : Nat) :
    List.Forall₂ same (firsts same count) (order same count) := by
  induction count with
  | zero => exact .nil
  | succ count ih =>
    rw [firsts_succ, order]
    obtain ⟨before, old, behind, heq, hold, hplace⟩ | ⟨hnone, hplace⟩ :=
      place_cases same count (order same count)
    · have hleft : old ∈ order same count := by simp [heq]
      have hlt : old < count := lt_of_mem_order hleft
      rw [if_neg fun hnew => hnew old hlt hold, List.append_nil, hplace]
      rw [heq] at ih
      have hself : ∀ numbers : List Nat, List.Forall₂ same numbers numbers :=
        fun numbers => List.forall₂_same.mpr fun i _ => hsame.refl i
      refine Value.forall₂_trans (fun _ _ _ _ => hsame.trans) ih ?_
      exact List.rel_append (hself before) (.cons hold (hself behind))
    · have hnew : ∀ h < count, ¬ same h count := by
        intro h hlt hcount
        obtain ⟨j, hj, hjh⟩ := exists_mem_order hsame hlt
        exact hnone j hj (hsame.trans hjh hcount)
      rw [if_pos hnew, hplace]
      exact List.rel_append ih (.cons (hsame.refl count) .nil)

end

def newKeys (entries : List (Value × Value)) : List Nat :=
  firsts (SameKey entries) entries.length

/-- Each entry stands in the place of the first one with its key, and is the last one with it. -/
theorem forall₂_newKeys (entries : List (Value × Value)) :
    List.Forall₂ (fun i entry => ∃ j, entries[j]? = some entry ∧ SameKey entries i j ∧
      LastOfKey entries j) (newKeys entries) (ofList entries) := by
  have hsame := sameKey_equivalence entries
  have hlast : ∀ j ∈ order (SameKey entries) entries.length,
      entries[j]? = some (nth entries j) ∧ LastOfKey entries j := by
    intro j hj
    obtain ⟨hlt, hlast⟩ := (mem_order hsame).mp hj
    exact ⟨getElem?_eq_nth hlt, fun m hjm hm => hlast m (hm.lt (by omega)) hjm hm⟩
  have horder := (forall₂_firsts_order hsame entries.length).flip
  rw [ofList_eq_order, List.forall₂_map_right_iff]
  refine ((List.forall₂_and_left _ _).mpr ⟨hlast, horder⟩).flip.imp fun i j h => ?_
  exact ⟨j, h.1.1, h.2, h.1.2⟩

/-- A map after some entries have been put into it, one after the other.  No two keys of it are
equal, and under each key stands the value that came last with it, if one came.  The entries stand
in the order in which their keys came first, each with the key and the value that came last.  A key
that is not equal to itself always makes a new entry and is never found, and to put the entries of
the map in once more gives the map again. -/
theorem ofList_insertion_order (entries : List (Value × Value)) :
    (ofList entries).Distinct ∧
    (∀ key, get? key (ofList entries) =
      (entries.reverse.find? (·.1 == key)).map Prod.snd) ∧
    List.Forall₂ (fun i entry => ∃ j, entries[j]? = some entry ∧ SameKey entries i j ∧
      LastOfKey entries j) (newKeys entries) (ofList entries) ∧
    (∀ key value, (key == key) = false →
      insert key value (ofList entries) = ofList entries ++ [(key, value)] ∧
      get? key (ofList entries) = none) ∧
    ofList (ofList entries) = ofList entries := by
  have hdistinct := distinct_ofList entries
  refine ⟨hdistinct, fun key => get?_ofList key entries, forall₂_newKeys entries, ?_,
    ofList_eq_self hdistinct⟩
  exact fun key value h => ⟨insert_of_ne_self h value _, get?_eq_none h _⟩

theorem ofList_insertion_order_nan :
    let nan := Value.float ⟨0x7FF8000000000000⟩
    (nan == nan) = false ∧
      insert nan (.str "b") (ofList [(nan, .str "a")]) = [(nan, .str "a"), (nan, .str "b")] ∧
      get? nan (ofList [(nan, .str "a")]) = none := by
  have hnan : (Value.float ⟨0x7FF8000000000000⟩ == Value.float ⟨0x7FF8000000000000⟩) = false := rfl
  exact ⟨hnan, (ofList_insertion_order [_]).2.2.2.1 _ (.str "b") hnan⟩

/-- The two zeros are one key, whose place stays as it was. -/
example :
    let zero := Value.float ⟨0⟩
    let minusZero := Value.float ⟨0x8000000000000000⟩
    ofList [(zero, .str "a"), (.nil, .str "b"), (minusZero, .str "c")] =
      [(minusZero, .str "c"), (.nil, .str "b")] := by rfl

end Entries

end Deferral
