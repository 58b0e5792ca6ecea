import Deferral.Proofs.Traversal
import Deferral.Value.Entries
import Mathlib.Data.List.Forall2
import Mathlib.Tactic.Common

/-!
# Maps whose keys differ

Equality of values is symmetric and transitive, though not reflexive.  That is enough for a map that
is built by insertion to have no two equal keys, and for putting the entries of such a map in once
more to change nothing.
-/

namespace Deferral

/-! ## 1. Equality -/

theorem Double.beq_symm {x y : Double} (h : (x == y) = true) : (y == x) = true := by
  change (!x.isNaN && !y.isNaN && x.rank == y.rank) = true at h
  change (!y.isNaN && !x.isNaN && y.rank == x.rank) = true
  simp only [Bool.and_eq_true, beq_iff_eq] at h ⊢
  exact ⟨⟨h.1.2, h.1.1⟩, h.2.symm⟩

theorem Double.beq_trans {x y z : Double} (hxy : (x == y) = true) (hyz : (y == z) = true) :
    (x == z) = true := by
  change (!x.isNaN && !y.isNaN && x.rank == y.rank) = true at hxy
  change (!y.isNaN && !z.isNaN && y.rank == z.rank) = true at hyz
  change (!x.isNaN && !z.isNaN && x.rank == z.rank) = true
  simp only [Bool.and_eq_true, beq_iff_eq] at hxy hyz ⊢
  exact ⟨⟨hxy.1.1, hyz.1.2⟩, hxy.2.trans hyz.2⟩

namespace Value

theorem beqItems_iff {as bs : List Value} :
    beqItems as bs = true ↔ List.Forall₂ (fun a b => a.beq b = true) as bs := by
  induction as generalizing bs with
  | nil => cases bs <;> simp [beqItems]
  | cons a as ih => cases bs <;> simp [beqItems, ih]

theorem beqEntries_iff {as bs : List (Value × Value)} :
    beqEntries as bs = true ↔
      List.Forall₂ (fun a b => a.1.beq b.1 = true ∧ a.2.beq b.2 = true) as bs := by
  induction as generalizing bs with
  | nil => cases bs <;> simp [beqEntries]
  | cons a as ih => cases bs <;> simp [beqEntries, ih]

section
variable {α : Type} {r : α → α → Prop} {as bs cs : List α}

theorem forall₂_symm (hsymm : ∀ a ∈ as, ∀ b, r a b → r b a) (h : List.Forall₂ r as bs) :
    List.Forall₂ r bs as := by
  induction h with
  | nil => exact .nil
  | @cons a b as bs hab _ ih =>
    have hrest := ih fun c hc => hsymm c (List.mem_cons_of_mem a hc)
    exact .cons (hsymm a List.mem_cons_self b hab) hrest

theorem forall₂_trans (htrans : ∀ a ∈ as, ∀ b c, r a b → r b c → r a c)
    (hab : List.Forall₂ r as bs) (hbc : List.Forall₂ r bs cs) : List.Forall₂ r as cs := by
  induction hab generalizing cs with
  | nil => exact hbc
  | @cons a b as bs hab _ ih =>
    cases hbc with
    | @cons _ c _ cs hbc hrest =>
      have hlast := ih (fun d hd => htrans d (List.mem_cons_of_mem a hd)) hrest
      exact .cons (htrans a List.mem_cons_self b c hab hbc) hlast

end

theorem beq_symm {a b : Value} (h : (a == b) = true) : (b == a) = true := by
  change a.beq b = true at h
  change b.beq a = true
  induction a generalizing b with
  | float x =>
    cases b with
    | float y => exact Double.beq_symm h
    | _ => simp [Value.beq] at h
  | list items ih =>
    cases b with
    | list others =>
      have hitems := beqItems_iff.mp h
      exact beqItems_iff.mpr (forall₂_symm (fun item hmem b => ih item hmem) hitems)
    | _ => simp [Value.beq] at h
  | map entries ih =>
    cases b with
    | map others =>
      have hentries := beqEntries_iff.mp h
      refine beqEntries_iff.mpr (forall₂_symm (fun entry hmem b hb => ?_) hentries)
      exact ⟨(ih entry hmem).1 hb.1, (ih entry hmem).2 hb.2⟩
    | _ => simp [Value.beq] at h
  | _ =>
    -- Two values of different forms are never equal.
    cases b <;>
      first
      | exact absurd h Bool.false_ne_true
      | simp_all [Value.beq]

theorem beq_trans {a b c : Value} (hab : (a == b) = true) (hbc : (b == c) = true) :
    (a == c) = true := by
  change a.beq b = true at hab
  change b.beq c = true at hbc
  change a.beq c = true
  induction a generalizing b c with
  | float x =>
    cases b with
    | float y =>
      cases c with
      | float z => exact Double.beq_trans hab hbc
      | _ => simp [Value.beq] at hbc
    | _ => simp [Value.beq] at hab
  | list items ih =>
    cases b with
    | list others =>
      cases c with
      | list last =>
        have hfirst := beqItems_iff.mp hab
        have hsecond := beqItems_iff.mp hbc
        exact beqItems_iff.mpr (forall₂_trans (fun item hmem b c => ih item hmem) hfirst hsecond)
      | _ => simp [Value.beq] at hbc
    | _ => simp [Value.beq] at hab
  | map entries ih =>
    cases b with
    | map others =>
      cases c with
      | map last =>
        have hfirst := beqEntries_iff.mp hab
        have hsecond := beqEntries_iff.mp hbc
        refine beqEntries_iff.mpr (forall₂_trans (fun entry hmem b c hb hc => ?_) hfirst hsecond)
        exact ⟨(ih entry hmem).1 hb.1 hc.1, (ih entry hmem).2 hb.2 hc.2⟩
      | _ => simp [Value.beq] at hbc
    | _ => simp [Value.beq] at hab
  | _ =>
    -- The three have one form, or one of the two comparisons is false.
    cases b <;>
      first
      | exact absurd hab Bool.false_ne_true
      | cases c <;>
          first
          | exact absurd hbc Bool.false_ne_true
          | simp_all [Value.beq]

end Value

/-! ## 2. Insertion -/

namespace Entries

def Distinct (entries : Entries) : Prop := entries.Pairwise fun a b => (a.1 == b.1) = false

theorem mem_insert {key value : Value} {entries : Entries} {entry : Value × Value}
    (h : entry ∈ insert key value entries) : entry = (key, value) ∨ entry ∈ entries := by
  induction entries with
  | nil => exact .inl (List.mem_singleton.mp h)
  | cons first rest ih =>
    obtain ⟨known, old⟩ := first
    rw [insert] at h
    split at h
    · exact (List.mem_cons.mp h).imp_right (List.mem_cons_of_mem _)
    · rcases List.mem_cons.mp h with rfl | hrest
      · exact .inr List.mem_cons_self
      · exact (ih hrest).imp_right (List.mem_cons_of_mem _)

theorem distinct_insert {entries : Entries} (key value : Value) (h : entries.Distinct) :
    (insert key value entries).Distinct := by
  induction entries with
  | nil => exact List.pairwise_singleton _ _
  | cons first rest ih =>
    obtain ⟨known, old⟩ := first
    obtain ⟨hfirst, hrest⟩ := List.pairwise_cons.mp h
    rw [insert]
    split
    · rename_i hsame
      refine List.pairwise_cons.mpr ⟨fun entry hentry => ?_, hrest⟩
      -- The new key is equal to the old one, so whatever is equal to it is equal to the old one.
      by_contra hne
      have hold := Value.beq_trans hsame (eq_true_of_ne_false hne)
      rw [hfirst entry hentry] at hold
      cases hold
    · rename_i hdiffer
      refine List.pairwise_cons.mpr ⟨fun entry hentry => ?_, ih hrest⟩
      rcases mem_insert hentry with rfl | hmem
      · exact eq_false_of_ne_true hdiffer
      · exact hfirst entry hmem

theorem foldl_insert_distinct {entries : List (Value × Value)} {found : Entries}
    (h : found.Distinct) :
    Distinct (entries.foldl (fun found entry => insert entry.1 entry.2 found) found) := by
  induction entries generalizing found with
  | nil => exact h
  | cons entry rest ih => exact ih (distinct_insert entry.1 entry.2 h)

/-- A map that is built by insertion has no two equal keys. -/
theorem distinct_ofList (entries : List (Value × Value)) : (ofList entries).Distinct :=
  foldl_insert_distinct List.Pairwise.nil

theorem mem_foldl_insert {entries : List (Value × Value)} {found : Entries}
    {entry : Value × Value}
    (h : entry ∈ entries.foldl (fun found entry => insert entry.1 entry.2 found) found) :
    entry ∈ found ∨ entry ∈ entries := by
  induction entries generalizing found with
  | nil => exact .inl h
  | cons first rest ih =>
    rcases ih h with hfound | hrest
    · rcases mem_insert hfound with rfl | hmem
      · exact .inr List.mem_cons_self
      · exact .inl hmem
    · exact .inr (List.mem_cons_of_mem first hrest)

theorem mem_of_mem_ofList {entries : List (Value × Value)} {entry : Value × Value}
    (h : entry ∈ ofList entries) : entry ∈ entries :=
  (mem_foldl_insert h).resolve_left List.not_mem_nil

theorem insert_eq_append {key : Value} (value : Value) {entries : Entries}
    (h : ∀ entry ∈ entries, (entry.1 == key) = false) :
    insert key value entries = entries ++ [(key, value)] := by
  induction entries with
  | nil => rfl
  | cons first rest ih =>
    obtain ⟨known, old⟩ := first
    have hdiffer : (known == key) = false := h (known, old) List.mem_cons_self
    rw [insert, hdiffer, if_neg Bool.false_ne_true,
      ih fun entry hentry => h entry (List.mem_cons_of_mem _ hentry), List.cons_append]

theorem foldl_insert_eq_append {entries : List (Value × Value)} {found : Entries}
    (h : Distinct (found ++ entries)) :
    entries.foldl (fun found entry => insert entry.1 entry.2 found) found = found ++ entries := by
  induction entries generalizing found with
  | nil => rw [List.foldl_nil, List.append_nil]
  | cons entry rest ih =>
    have hnew : ∀ known ∈ found, (known.1 == entry.1) = false := fun known hknown =>
      (List.pairwise_append.mp h).2.2 known hknown entry List.mem_cons_self
    rw [List.foldl_cons, insert_eq_append entry.2 hnew, ih (by simpa using h)]
    simp

/-- Putting the entries of a map in once more gives the map. -/
theorem ofList_eq_self {entries : Entries} (h : entries.Distinct) : ofList entries = entries :=
  foldl_insert_eq_append (by simpa using h)

/-! ## 3. Related entries -/

section
variable {R : Value × Value → Value × Value → Prop} {as bs : Entries} {a b : Value × Value}
  (hkey : ∀ a b a' b', R a b → R a' b' → (a.1 == a'.1) = (b.1 == b'.1))
include hkey

/-- Two maps whose entries are related stay so, if related entries have the same keys in common. -/
theorem forall₂_insert (h : List.Forall₂ R as bs) (hab : R a b) :
    List.Forall₂ R (insert a.1 a.2 as) (insert b.1 b.2 bs) := by
  induction h with
  | nil => exact .cons hab .nil
  | @cons known known' as bs hknown hrest ih =>
    have hsame : (known.1 == a.1) = (known'.1 == b.1) := hkey _ _ _ _ hknown hab
    rw [insert, insert, hsame]
    split
    · exact .cons hab hrest
    · exact .cons hknown ih

theorem forall₂_ofList (h : List.Forall₂ R as bs) : List.Forall₂ R (ofList as) (ofList bs) := by
  have hfold : ∀ {done done' : Entries}, List.Forall₂ R done done' →
      List.Forall₂ R (as.foldl (fun found entry => insert entry.1 entry.2 found) done)
        (bs.foldl (fun found entry => insert entry.1 entry.2 found) done') := by
    induction h with
    | nil => exact fun hdone => hdone
    | cons hab _ ih => exact fun hdone => ih (forall₂_insert hkey hdone hab)
  exact hfold .nil

end

end Entries

end Deferral
