import Deferral.Arithmetic
import Deferral.Script
import Mathlib.Tactic.Common

/-!
# Strict evaluation

A script that only assigns can be read as a system of equations, one for each name: its last
assignment.  This module says what such a system means when its right-hand sides are integers,
strings, lists, names and arithmetic, and everything is computed at once, without deferred values,
limits on depth or an order of statements.

`Tree.Strict equations t d` is that meaning.  A derivation is finite, so a name that needs itself
has none, and neither has one without an equation.
-/

namespace Deferral

/-! ## 1. Data -/

inductive Datum where
  | int (n : Int)
  | text (s : String)
  | list (items : List Datum)

namespace Datum

mutual

def value : Datum → Value
  | .int n => .int (Int64.ofInt n)
  | .text s => .str s
  | .list items => .list (values items)

def values : List Datum → List Value
  | [] => []
  | item :: rest => item.value :: values rest

end

def integer? (n : Int) : Option Datum :=
  if Int64.minValue.toInt ≤ n ∧ n ≤ Int64.maxValue.toInt then some (.int n) else none

def repeatText? (s : String) (n : Int) : Option Datum :=
  if n.toNat * s.utf8ByteSize ≤ Nat.pow 2 24 then
    some (.text (String.join (List.replicate n.toNat s)))
  else none

def repeatItems? (items : List Datum) (n : Int) : Option Datum :=
  if n.toNat * items.length ≤ Nat.pow 2 24 then some (.list (List.replicate n.toNat items).flatten)
  else none

def combine? : Operator → Datum → Datum → Option Datum
  | .add, .int a, .int b => integer? (a + b)
  | .subtract, .int a, .int b => integer? (a - b)
  | .multiply, .int a, .int b => integer? (a * b)
  | .divide, .int a, .int b => if b = 0 then none else integer? (a.tdiv b)
  | .add, .text a, .text b => some (.text (a ++ b))
  | .add, .list as, .list bs => some (.list (as ++ bs))
  | .multiply, .text s, .int n => repeatText? s n
  | .multiply, .int n, .text s => repeatText? s n
  | .multiply, .list items, .int n => repeatItems? items n
  | .multiply, .int n, .list items => repeatItems? items n
  | _, _, _ => none

end Datum

/-! ## 2. Equations -/

abbrev Equations := String → Option Tree

/-- The equations of a script: the last assignment to a name counts. -/
def Script.equations (statements : List Statement) : Equations := fun name =>
  (statements.reverse.find? (·.target = some name)).map (·.value)

namespace Tree

inductive Plain : Tree → Prop
  | int (n : Int64) : Plain (.int n)
  | text (s : String) : Plain (.text s)
  | name {s : String} : reserved? s = none → Plain (.name s)
  | list {items : List Tree} : (∀ item ∈ items, item.Plain) → Plain (.list items)
  | negate {operand : Tree} : operand.Plain → Plain (.negate operand)
  | arithmetic {operator : Operator} {left right : Tree} : left.Plain → right.Plain →
      Plain (.arithmetic operator left right)

inductive Strict (equations : Equations) : Tree → Datum → Prop
  | int (n : Int64) : Strict equations (.int n) (.int n.toInt)
  | text (s : String) : Strict equations (.text s) (.text s)
  | name {s t d} : equations s = some t → Strict equations t d → Strict equations (.name s) d
  | nil : Strict equations (.list []) (.list [])
  | cons {item items d ds} : Strict equations item d → Strict equations (.list items) (.list ds) →
      Strict equations (.list (item :: items)) (.list (d :: ds))
  | negate {operand n d} : Strict equations operand (.int n) → Datum.integer? (-n) = some d →
      Strict equations (.negate operand) d
  | arithmetic {operator left right a b d} : Strict equations left a → Strict equations right b →
      Datum.combine? operator a b = some d → Strict equations (.arithmetic operator left right) d

theorem Strict.unique {equations : Equations} {t : Tree} {d d' : Datum}
    (h : t.Strict equations d) (h' : t.Strict equations d') : d = d' := by
  induction h generalizing d' with
  | int | text | nil =>
    cases h'
    rfl
  | name heq _ ih =>
    cases h' with
    | name heq' h' =>
      rw [heq, Option.some.injEq] at heq'
      exact ih (heq' ▸ h')
  | cons _ _ ih ihs =>
    cases h' with
    | cons h' hs' =>
      have htail := ihs hs'
      rw [Datum.list.injEq] at htail
      rw [ih h', htail]
  | negate _ hnegate ih =>
    cases h' with
    | negate h' hnegate' =>
      have hn := ih h'
      rw [Datum.int.injEq] at hn
      rw [← hn, hnegate, Option.some.injEq] at hnegate'
      exact hnegate'
  | arithmetic _ _ hcombine ihleft ihright =>
    cases h' with
    | arithmetic hleft' hright' hcombine' =>
      rw [← ihleft hleft', ← ihright hright', hcombine, Option.some.injEq] at hcombine'
      exact hcombine'

/-- A path into an expression and on through the equations of its names, with the number of
operators and names on it. -/
inductive Path (equations : Equations) : Tree → Nat → Prop
  | stop (t : Tree) : Path equations t 0
  | name {s t n} : equations s = some t → Path equations t n → Path equations (.name s) (n + 1)
  | item {items item n} : item ∈ items → Path equations item n → Path equations (.list items) n
  | negate {operand n} : Path equations operand n → Path equations (.negate operand) (n + 1)
  | left {operator left right n} : Path equations left n →
      Path equations (.arithmetic operator left right) (n + 1)
  | right {operator left right n} : Path equations right n →
      Path equations (.arithmetic operator left right) (n + 1)

theorem Strict.path_bounded {equations : Equations} {t : Tree} {d : Datum}
    (h : t.Strict equations d) : ∃ bound, ∀ n, t.Path equations n → n ≤ bound := by
  induction h with
  | int | text =>
    refine ⟨0, fun n hn => ?_⟩
    cases hn
    exact Nat.le_refl 0
  | name heq _ ih =>
    obtain ⟨bound, hbound⟩ := ih
    refine ⟨bound + 1, fun n hn => ?_⟩
    cases hn with
    | stop => exact Nat.zero_le _
    | name heq' hpath =>
      rw [heq, Option.some.injEq] at heq'
      exact Nat.succ_le_succ (hbound _ (heq' ▸ hpath))
  | nil =>
    refine ⟨0, fun n hn => ?_⟩
    cases hn with
    | stop => exact Nat.le_refl 0
    | item hmem => cases hmem
  | @cons item items _ _ _ _ ih ihs =>
    obtain ⟨bound, hbound⟩ := ih
    obtain ⟨rest, hrest⟩ := ihs
    refine ⟨max bound rest, fun n hn => ?_⟩
    -- A path goes into the first item, or it is one into the list of the others.
    cases hn with
    | stop => exact Nat.zero_le _
    | item hmem hpath =>
      rcases List.mem_cons.mp hmem with rfl | hmem
      · exact Nat.le_trans (hbound n hpath) (Nat.le_max_left _ _)
      · exact Nat.le_trans (hrest n (.item hmem hpath)) (Nat.le_max_right _ _)
  | negate _ _ ih =>
    obtain ⟨bound, hbound⟩ := ih
    refine ⟨bound + 1, fun n hn => ?_⟩
    cases hn with
    | stop => exact Nat.zero_le _
    | negate hpath => exact Nat.succ_le_succ (hbound _ hpath)
  | arithmetic _ _ _ ihleft ihright =>
    obtain ⟨first, hfirst⟩ := ihleft
    obtain ⟨second, hsecond⟩ := ihright
    refine ⟨max first second + 1, fun n hn => ?_⟩
    cases hn with
    | stop => exact Nat.zero_le _
    | left hpath => exact Nat.succ_le_succ (Nat.le_trans (hfirst _ hpath) (Nat.le_max_left _ _))
    | right hpath => exact Nat.succ_le_succ (Nat.le_trans (hsecond _ hpath) (Nat.le_max_right _ _))

end Tree

def Statement.AssignsPlain (statement : Statement) : Prop :=
  statement.target.isSome ∧ statement.value.Plain

theorem Script.equations_append (statements : List Statement) (statement : Statement)
    (name : String) :
    equations (statements ++ [statement]) name =
      if statement.target = some name then some statement.value else equations statements name := by
  unfold equations
  rw [List.reverse_append, List.reverse_singleton, List.singleton_append, List.find?_cons]
  by_cases h : statement.target = some name <;> simp [h]

theorem Script.equations_plain {statements : List Statement} {name : String} {t : Tree}
    (hplain : ∀ statement ∈ statements, statement.AssignsPlain)
    (h : equations statements name = some t) : t.Plain := by
  obtain ⟨statement, hfound, rfl⟩ := Option.map_eq_some_iff.mp h
  exact (hplain statement (List.mem_reverse.mp (List.mem_of_find?_eq_some hfound))).2

/-! ## 3. Computing with values that stand for data -/

theorem int64?_eq {n : Int} {d : Datum} (h : Datum.integer? n = some d) :
    int64? n = some (Int64.ofInt n) ∧ d = .int n ∧ (Int64.ofInt n).toInt = n := by
  unfold Datum.integer? at h
  split at h
  · rename_i hrange
    refine ⟨?_, (Option.some.inj h).symm, ?_⟩
    · rw [int64?, if_pos hrange]
    · exact Int64.toInt_ofInt_of_le hrange.1 (Int.lt_of_le_sub_one hrange.2)
  · cases h

/-- An operator on integers gives the exact result where that fits. -/
theorem Operator.applyInt_eq {operator : Operator} {a b : Int64} {d : Datum}
    (h : Datum.combine? operator (.int a.toInt) (.int b.toInt) = some d) :
    ∃ n : Int64, operator.applyInt a b = .ok (.int n) ∧ d = .int n.toInt := by
  have hresult : ∀ exact : Int, Datum.integer? exact = some d →
      ∃ n : Int64, int64? exact = some n ∧ d = .int n.toInt := by
    intro exact hexact
    obtain ⟨hfits, hd, hback⟩ := int64?_eq hexact
    exact ⟨Int64.ofInt exact, hfits, by rw [hd, hback]⟩
  cases operator with
  | add | subtract | multiply =>
    obtain ⟨n, hn, hd⟩ := hresult _ h
    exact ⟨n, by simp only [applyInt, hn], hd⟩
  | divide =>
    rw [Datum.combine?] at h
    split at h
    · cases h
    · rename_i hzero
      have hb : b ≠ 0 := fun hb => hzero (by rw [hb]; rfl)
      obtain ⟨n, hn, hd⟩ := hresult _ h
      exact ⟨n, by simp only [applyInt, if_neg hb, hn], hd⟩

theorem repetitions_eq {count : Int64} {length : Nat}
    (h : count.toInt.toNat * length ≤ Nat.pow 2 24) :
    repetitions count length = .ok (if length = 0 then 0 else count.toInt.toNat) := by
  have hle : count ≤ 0 ↔ count.toInt ≤ 0 := Int64.le_iff_toInt_le
  unfold repetitions
  by_cases hlength : length = 0
  · rw [if_pos (.inr hlength), if_pos hlength]
  · rw [if_neg hlength]
    split
    · rename_i hzero
      have hcount : count.toInt ≤ 0 := hle.mp (hzero.resolve_right hlength)
      rw [Int.toNat_of_nonpos hcount]
    · rw [if_pos (by exact h)]

theorem repeat_append_eq_join (s : String) (n : Nat) :
    Nat.repeat (· ++ s) n "" = String.join (List.replicate n s) := by
  induction n with
  | zero => rfl
  | succ n ih =>
    rw [Nat.repeat, ih, List.replicate_succ', String.join_append]
    simp

theorem join_replicate_empty (n : Nat) : String.join (List.replicate n "") = "" := by
  rw [← repeat_append_eq_join]
  induction n with
  | zero => rfl
  | succ n ih => rw [Nat.repeat, ih]; rfl

theorem repeatText_eq {s : String} {count : Int64}
    (h : count.toInt.toNat * s.utf8ByteSize ≤ Nat.pow 2 24) :
    repeatText s count = .ok (.str (String.join (List.replicate count.toInt.toNat s))) := by
  rw [repeatText, repetitions_eq h, Except.map, repeat_append_eq_join]
  split
  · rename_i hempty
    -- The empty string is not repeated at all, which comes to the same.
    obtain rfl : s = "" := by simpa using hempty
    rw [join_replicate_empty, join_replicate_empty]
  · rfl

theorem repeatItems_eq {items : List Value} {count : Int64}
    (h : count.toInt.toNat * items.length ≤ Nat.pow 2 24) :
    repeatItems items count = .ok (.list (List.replicate count.toInt.toNat items).flatten) := by
  rw [repeatItems, repetitions_eq h, Except.map]
  split
  · rename_i hempty
    obtain rfl : items = [] := List.length_eq_zero_iff.mp hempty
    rw [List.flatten_replicate_nil, List.flatten_replicate_nil]
  · rfl

end Deferral
