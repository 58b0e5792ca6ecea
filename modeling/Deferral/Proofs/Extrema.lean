import Deferral.Proofs.DoubleOrder
import Deferral.Proofs.NormalForm
import Deferral.Proofs.Occurrence
import Mathlib.Data.String.Basic
import Mathlib.Order.Compare

/-!
# Least and greatest values

The best of several values is one that none of them beats (`Builtin.extremum_unbeaten`).  The loop
compares each candidate with the best one so far only, which is enough because to beat is
transitive, also from an integer through a float to an integer.  To be equal is not: integers beyond
2 ^ 53 may be rounded to one and the same float.
-/

namespace Deferral

open Eval

/-! ## 1. The order of values -/

namespace Value

def rank? : Value → Option Int
  | .int n => some (Double.ofInt n.toInt).rank
  | .float x => if x.isNaN then none else some x.rank
  | _ => none

def IsText (v : Value) : Prop := ∃ s, v = .str s

def IsNumber (v : Value) : Prop := (∃ n, v = .int n) ∨ ∃ x, v = .float x ∧ x.isNaN = false

theorem isNumber_iff {v : Value} : v.IsNumber ↔ ∃ p, v.rank? = some p := by
  cases v with
  | float x => cases h : x.isNaN <;> simp [IsNumber, rank?, h]
  | _ => simp [IsNumber, rank?]

theorem not_isNumber_of_isText {v : Value} (h : v.IsText) : ¬ v.IsNumber := by
  obtain ⟨s, rfl⟩ := h
  simp [IsNumber]

end Value

section
variable {α : Type} [LinearOrder α] {wanted : Ordering} (hwanted : wanted ≠ .eq)
include hwanted

/-- What lies on the wanted side of something that lies on the wanted side of a third one does so
too. -/
theorem compare_trans_of_ne {x y z : α} (hxy : compare x y = wanted) (hyz : compare y z = wanted) :
    compare x z = wanted := by
  cases wanted with
  | lt => exact compare_lt_iff_lt.mpr ((compare_lt_iff_lt.mp hxy).trans (compare_lt_iff_lt.mp hyz))
  | eq => exact absurd rfl hwanted
  | gt => exact compare_gt_iff_gt.mpr ((compare_gt_iff_gt.mp hyz).trans (compare_gt_iff_gt.mp hxy))

/-- Of two different things one lies on the wanted side of the other. -/
theorem eq_of_compare_ne {x y : α} (hxy : compare x y ≠ wanted) (hyx : compare y x ≠ wanted) :
    x = y := by
  by_contra hne
  cases wanted with
  | lt =>
    rcases lt_or_gt_of_ne hne with h | h
    · exact hxy (compare_lt_iff_lt.mpr h)
    · exact hyx (compare_lt_iff_lt.mpr h)
  | eq => exact hwanted rfl
  | gt =>
    rcases lt_or_gt_of_ne hne with h | h
    · exact hyx (compare_gt_iff_gt.mpr h)
    · exact hxy (compare_gt_iff_gt.mpr h)

/-- Rounding takes an integer on the wanted side of another one to the same side, or it makes them
the same. -/
theorem compare_rank_ofInt {m n : Int} (h : compare m n = wanted) :
    compare (Double.ofInt m).rank (Double.ofInt n).rank = wanted ∨
      (Double.ofInt m).rank = (Double.ofInt n).rank := by
  cases wanted with
  | lt =>
    have hle := Double.rank_ofInt_mono (compare_lt_iff_lt.mp h).le
    exact hle.lt_or_eq.imp_left compare_lt_iff_lt.mpr
  | eq => exact absurd rfl hwanted
  | gt =>
    have hle := Double.rank_ofInt_mono (compare_gt_iff_gt.mp h).le
    exact hle.lt_or_eq.imp compare_gt_iff_gt.mpr Eq.symm

theorem compare_of_rank_ofInt {m n : Int}
    (h : compare (Double.ofInt m).rank (Double.ofInt n).rank = wanted) : compare m n = wanted := by
  cases wanted with
  | lt =>
    have hlt := compare_lt_iff_lt.mp h
    exact compare_lt_iff_lt.mpr (lt_of_not_ge fun hle => hlt.not_ge (Double.rank_ofInt_mono hle))
  | eq => exact absurd rfl hwanted
  | gt =>
    have hlt := compare_gt_iff_gt.mp h
    exact compare_gt_iff_gt.mpr (lt_of_not_ge fun hle => hlt.not_ge (Double.rank_ofInt_mono hle))

end

section
variable {a b c : Value} {wanted : Ordering}

theorem compareText_eq (s t : String) : compareText s t = compare s t :=
  (LinearOrder.compare_eq_compareOfLessAndEq s t).symm

theorem compareValues_text (s t : String) :
    compareValues (.str s) (.str t) = .ok (compare s t) := by
  rw [← compareText_eq]
  rfl

theorem rank?_float {x : Double} {p : Int} :
    (Value.float x).rank? = some p ↔ x.isNaN = false ∧ x.rank = p := by
  cases h : x.isNaN <;> simp [Value.rank?, h]

/-- Numbers are compared by their ranks, unless both are integers. -/
theorem compareValues_numbers {p q : Int} (ha : a.rank? = some p) (hb : b.rank? = some q) :
    (∃ m n, a = .int m ∧ b = .int n) ∨ compareValues a b = .ok (compare p q) := by
  cases a with
  | int m =>
    cases b with
    | int n => exact .inl ⟨m, n, rfl, rfl⟩
    | float y =>
      obtain ⟨hy, rfl⟩ := rank?_float.mp hb
      cases ha
      simp [compareValues, Double.compare?, Double.isNaN_ofInt, hy]
    | _ => cases hb
  | float x =>
    obtain ⟨hx, rfl⟩ := rank?_float.mp ha
    cases b with
    | int n =>
      cases hb
      simp [compareValues, Double.compare?, Double.isNaN_ofInt, hx]
    | float y =>
      obtain ⟨hy, rfl⟩ := rank?_float.mp hb
      simp [compareValues, Double.compare?, hx, hy]
    | _ => cases hb
  | _ => cases ha

theorem compareValues_ok_iff : (∃ order, compareValues a b = .ok order) ↔
    a.IsNumber ∧ b.IsNumber ∨ a.IsText ∧ b.IsText := by
  constructor
  · rintro ⟨order, h⟩
    cases a with
    | int m =>
      cases b with
      | int n => exact .inl ⟨.inl ⟨m, rfl⟩, .inl ⟨n, rfl⟩⟩
      | float y =>
        cases hy : y.isNaN with
        | true => simp [compareValues, Double.compare?, hy] at h
        | false => exact .inl ⟨.inl ⟨m, rfl⟩, .inr ⟨y, rfl, hy⟩⟩
      | _ => cases h
    | float x =>
      cases hx : x.isNaN with
      | true => cases b <;> simp [compareValues, Double.compare?, hx] at h
      | false =>
        cases b with
        | int n => exact .inl ⟨.inr ⟨x, rfl, hx⟩, .inl ⟨n, rfl⟩⟩
        | float y =>
          cases hy : y.isNaN with
          | true => simp [compareValues, Double.compare?, hy] at h
          | false => exact .inl ⟨.inr ⟨x, rfl, hx⟩, .inr ⟨y, rfl, hy⟩⟩
        | _ => cases h
    | str s =>
      cases b with
      | str t => exact .inr ⟨⟨s, rfl⟩, t, rfl⟩
      | _ => cases h
    | _ => cases h
  · rintro (⟨ha, hb⟩ | ⟨⟨s, rfl⟩, t, rfl⟩)
    · obtain ⟨p, hp⟩ := Value.isNumber_iff.mp ha
      obtain ⟨q, hq⟩ := Value.isNumber_iff.mp hb
      rcases compareValues_numbers hp hq with ⟨m, n, rfl, rfl⟩ | h
      · exact ⟨_, rfl⟩
      · exact ⟨_, h⟩
    · exact ⟨_, rfl⟩

section
variable (hwanted : wanted ≠ .eq)
include hwanted

theorem beats_of_ranks {p q : Int} (ha : a.rank? = some p) (hb : b.rank? = some q)
    (h : compare p q = wanted) : compareValues a b = .ok wanted := by
  rcases compareValues_numbers ha hb with ⟨m, n, rfl, rfl⟩ | hranks
  · cases ha
    cases hb
    exact congrArg Except.ok (compare_of_rank_ofInt hwanted h)
  · rw [hranks, h]

/-- A value beats another one as a string or by its rank, or both are integers of one rank. -/
theorem beats_cases (h : compareValues a b = .ok wanted) :
    (∃ s t, a = .str s ∧ b = .str t ∧ compare s t = wanted) ∨
    ∃ p q, a.rank? = some p ∧ b.rank? = some q ∧ (compare p q = wanted ∨
      p = q ∧ ∃ m n : Int64, a = .int m ∧ b = .int n ∧ compare m.toInt n.toInt = wanted) := by
  rcases compareValues_ok_iff.mp ⟨wanted, h⟩ with ⟨ha, hb⟩ | ⟨⟨s, rfl⟩, t, rfl⟩
  · obtain ⟨p, hp⟩ := Value.isNumber_iff.mp ha
    obtain ⟨q, hq⟩ := Value.isNumber_iff.mp hb
    refine .inr ⟨p, q, hp, hq, ?_⟩
    rcases compareValues_numbers hp hq with ⟨m, n, rfl, rfl⟩ | hranks
    · have hints : compare m.toInt n.toInt = wanted := Except.ok.inj h
      cases hp
      cases hq
      exact (compare_rank_ofInt hwanted hints).imp_right fun hsame => ⟨hsame, m, n, rfl, rfl, hints⟩
    · rw [hranks] at h
      exact .inl (Except.ok.inj h)
  · rw [compareValues_text] at h
    exact .inl ⟨s, t, rfl, rfl, Except.ok.inj h⟩

/-- What beats something that beats a third value beats that too, whichever of the three are
integers and which are floats. -/
theorem beats_trans (hab : compareValues a b = .ok wanted) (hbc : compareValues b c = .ok wanted) :
    compareValues a c = .ok wanted := by
  rcases beats_cases hwanted hab with ⟨s, t, rfl, rfl, hst⟩ | ⟨p, q, hp, hq, hpq⟩
  · rcases beats_cases hwanted hbc with ⟨_, u, heq, rfl, htu⟩ | ⟨_, _, hq, -⟩
    · cases heq
      rw [compareValues_text, compare_trans_of_ne hwanted hst htu]
    · cases hq
  · rcases beats_cases hwanted hbc with ⟨t, _, rfl, -, -⟩ | ⟨q', r, hq', hr, hqr⟩
    · cases hq
    · obtain rfl : q = q' := Option.some.inj (hq.symm.trans hq')
      rcases hpq with hpq | ⟨rfl, m, n, rfl, rfl, hmn⟩
      · rcases hqr with hqr | ⟨rfl, -⟩
        · exact beats_of_ranks hwanted hp hr (compare_trans_of_ne hwanted hpq hqr)
        · exact beats_of_ranks hwanted hp hr hpq
      · rcases hqr with hqr | ⟨rfl, n', o, heq, rfl, hno⟩
        · exact beats_of_ranks hwanted hp hr hqr
        · cases heq
          exact congrArg Except.ok (compare_trans_of_ne hwanted hmn hno)

theorem not_beats_self (a : Value) : compareValues a a ≠ .ok wanted := by
  intro h
  rcases beats_cases hwanted h with ⟨s, t, rfl, heq, hst⟩ | ⟨p, q, hp, hq, hpq⟩
  · cases heq
    exact hwanted (hst.symm.trans (compare_eq_iff_eq.mpr rfl))
  · obtain rfl : p = q := Option.some.inj (hp.symm.trans hq)
    rcases hpq with hpq | ⟨-, m, n, rfl, heq, hmn⟩
    · exact hwanted (hpq.symm.trans (compare_eq_iff_eq.mpr rfl))
    · cases heq
      exact hwanted (hmn.symm.trans (compare_eq_iff_eq.mpr rfl))

/-- Among integers, and among strings, no two different values fail to beat each other. -/
theorem eq_of_not_beats
    (hkind : (∃ m n, a = .int m ∧ b = .int n) ∨ a.IsText ∧ b.IsText)
    (hab : compareValues a b ≠ .ok wanted) (hba : compareValues b a ≠ .ok wanted) : a = b := by
  rcases hkind with ⟨m, n, rfl, rfl⟩ | ⟨⟨s, rfl⟩, t, rfl⟩
  · have hsame : m.toInt = n.toInt := eq_of_compare_ne hwanted
      (fun h => hab (congrArg Except.ok h)) fun h => hba (congrArg Except.ok h)
    rw [Int64.toInt_inj.mp hsame]
  · rw [compareValues_text] at hab hba
    rw [eq_of_compare_ne hwanted (fun h => hab (congrArg Except.ok h))
      fun h => hba (congrArg Except.ok h)]

end

end

/-! ## 2. The loop -/

section
variable {wanted : Ordering} {current w : Value} {rest : List Value}

theorem best_cons {candidate : Value} :
    best wanted current (candidate :: rest) = .ok w ↔
      ∃ order, compareValues candidate current = .ok order ∧
        best wanted (if order = wanted then candidate else current) rest = .ok w := by
  rw [best]
  cases compareValues candidate current with
  | ok order => simp [bind, Except.bind]
  | error failure => simp [bind, Except.bind]

/-- The loop ends with a value if all values are of one kind, and else it fails. -/
theorem best_ok_iff {P : Value → Prop} (hcurrent : P current)
    (hcompare : ∀ a b, P b → ((∃ order, compareValues a b = .ok order) ↔ P a)) :
    (∃ w, best wanted current rest = .ok w) ↔ ∀ x ∈ rest, P x := by
  induction rest generalizing current with
  | nil => simp [best]
  | cons candidate rest ih =>
    rw [List.forall_mem_cons, ← hcompare candidate current hcurrent]
    constructor
    · rintro ⟨w, h⟩
      obtain ⟨order, horder, h⟩ := best_cons.mp h
      have hcandidate := (hcompare candidate current hcurrent).mp ⟨order, horder⟩
      refine ⟨⟨order, horder⟩, (ih ?_).mp ⟨w, h⟩⟩
      split
      · exact hcandidate
      · exact hcurrent
    · rintro ⟨⟨order, horder⟩, hrest⟩
      have hcandidate := (hcompare candidate current hcurrent).mp ⟨order, horder⟩
      have hnext : P (if order = wanted then candidate else current) := by
        split
        · exact hcandidate
        · exact hcurrent
      obtain ⟨w, h⟩ := (ih hnext).mpr hrest
      exact ⟨w, best_cons.mpr ⟨order, horder, h⟩⟩

/-- What does not beat the best value at some point of the loop does not beat the last one. -/
theorem best_unbeaten (hwanted : wanted ≠ .eq) (h : best wanted current rest = .ok w) :
    (∀ x, compareValues x current ≠ .ok wanted → compareValues x w ≠ .ok wanted) ∧
      ∀ x ∈ rest, compareValues x w ≠ .ok wanted := by
  induction rest generalizing current with
  | nil =>
    cases h
    exact ⟨fun x hx => hx, by simp⟩
  | cons candidate rest ih =>
    obtain ⟨order, horder, h⟩ := best_cons.mp h
    obtain ⟨hkeeps, hrest⟩ := ih h
    by_cases hbeats : order = wanted
    · rw [if_pos hbeats] at hkeeps
      rw [hbeats] at horder
      constructor
      · -- What beats the candidate beats what the candidate has beaten.
        intro x hx
        exact hkeeps x fun hcandidate => hx (beats_trans hwanted hcandidate horder)
      · exact List.forall_mem_cons.mpr ⟨hkeeps candidate (not_beats_self hwanted candidate), hrest⟩
    · rw [if_neg hbeats] at hkeeps
      refine ⟨hkeeps, List.forall_mem_cons.mpr ⟨hkeeps candidate ?_, hrest⟩⟩
      rw [horder]
      exact fun heq => hbeats (Except.ok.inj heq)

end

/-! ## 3. The functions -/

section
variable {builtin : Builtin} {wanted : Ordering} {xs : List Value} {w : Value}

theorem extremum_eq_best (builtin : Builtin) (wanted : Ordering) (first second : Value)
    (rest : List Value) : extremum builtin wanted (first :: second :: rest) =
      best wanted first (second :: rest) := by
  cases first <;> rfl

theorem exists_two (htwo : 2 ≤ xs.length) : ∃ first second rest, xs = first :: second :: rest := by
  cases xs with
  | nil => simp at htwo
  | cons first xs =>
    cases xs with
    | nil => simp at htwo
    | cons second rest => exact ⟨first, second, rest, rfl⟩

theorem extremum_ok_iff (htwo : 2 ≤ xs.length) : (∃ w, extremum builtin wanted xs = .ok w) ↔
    (∀ x ∈ xs, x.IsText) ∨ ∀ x ∈ xs, x.IsNumber := by
  obtain ⟨first, second, rest, rfl⟩ := exists_two htwo
  have htext : ∀ a b : Value, b.IsText → ((∃ order, compareValues a b = .ok order) ↔ a.IsText) := by
    intro a b hb
    rw [compareValues_ok_iff]
    simp [hb, Value.not_isNumber_of_isText hb]
  have hnumber : ∀ a b : Value, b.IsNumber →
      ((∃ order, compareValues a b = .ok order) ↔ a.IsNumber) := by
    intro a b hb
    have hb' : ¬ b.IsText := fun h => Value.not_isNumber_of_isText h hb
    rw [compareValues_ok_iff]
    simp [hb, hb']
  rw [extremum_eq_best]
  constructor
  · intro h
    have hfirst : ∃ order, compareValues second first = .ok order := by
      obtain ⟨w, hw⟩ := h
      obtain ⟨order, horder, -⟩ := best_cons.mp hw
      exact ⟨order, horder⟩
    rcases compareValues_ok_iff.mp hfirst with ⟨-, hfirst⟩ | ⟨-, hfirst⟩
    · exact .inr (List.forall_mem_cons.mpr ⟨hfirst, (best_ok_iff hfirst hnumber).mp h⟩)
    · exact .inl (List.forall_mem_cons.mpr ⟨hfirst, (best_ok_iff hfirst htext).mp h⟩)
  · rintro (hall | hall)
    · obtain ⟨hfirst, hrest⟩ := List.forall_mem_cons.mp hall
      exact (best_ok_iff hfirst htext).mpr hrest
    · obtain ⟨hfirst, hrest⟩ := List.forall_mem_cons.mp hall
      exact (best_ok_iff hfirst hnumber).mpr hrest

theorem extremum_mem (htwo : 2 ≤ xs.length) (h : extremum builtin wanted xs = .ok w) : w ∈ xs := by
  obtain ⟨first, second, rest, rfl⟩ := exists_two htwo
  rw [extremum_eq_best] at h
  exact best_mem h

theorem extremum_not_beaten (hwanted : wanted ≠ .eq) (htwo : 2 ≤ xs.length)
    (h : extremum builtin wanted xs = .ok w) : ∀ x ∈ xs, compareValues x w ≠ .ok wanted := by
  obtain ⟨first, second, rest, rfl⟩ := exists_two htwo
  rw [extremum_eq_best] at h
  obtain ⟨hkeeps, hrest⟩ := best_unbeaten hwanted h
  exact List.forall_mem_cons.mpr ⟨hkeeps first (not_beats_self hwanted first), hrest⟩

theorem extremum_perm (hwanted : wanted ≠ .eq) (htwo : 2 ≤ xs.length)
    (hkind : (∀ x ∈ xs, ∃ n, x = .int n) ∨ ∀ x ∈ xs, x.IsText) {ys : List Value}
    (hperm : ys.Perm xs) : extremum builtin wanted ys = extremum builtin wanted xs := by
  have htwo' : 2 ≤ ys.length := hperm.length_eq ▸ htwo
  have hcomparable : (∀ x ∈ xs, x.IsText) ∨ ∀ x ∈ xs, x.IsNumber :=
    hkind.symm.imp_right fun hints x hx => .inl (hints x hx)
  obtain ⟨w, hw⟩ : ∃ w, extremum builtin wanted xs = .ok w :=
    (extremum_ok_iff htwo).mpr hcomparable
  have hcomparable' : (∀ x ∈ ys, x.IsText) ∨ ∀ x ∈ ys, x.IsNumber :=
    hcomparable.imp (fun h x hx => h x (hperm.mem_iff.mp hx))
      fun h x hx => h x (hperm.mem_iff.mp hx)
  obtain ⟨w', hw'⟩ : ∃ w', extremum builtin wanted ys = .ok w' :=
    (extremum_ok_iff htwo').mpr hcomparable'
  have hmem := extremum_mem htwo hw
  have hmem' := hperm.mem_iff.mp (extremum_mem htwo' hw')
  have hsame : (∃ m n, w' = .int m ∧ w = .int n) ∨ w'.IsText ∧ w.IsText := by
    rcases hkind with hints | htexts
    · obtain ⟨m, hm⟩ := hints w' hmem'
      obtain ⟨n, hn⟩ := hints w hmem
      exact .inl ⟨m, n, hm, hn⟩
    · exact .inr ⟨htexts w' hmem', htexts w hmem⟩
  rw [hw, hw', eq_of_not_beats hwanted hsame (extremum_not_beaten hwanted htwo hw w' hmem')
    (extremum_not_beaten hwanted htwo' hw' w (hperm.mem_iff.mpr hmem))]

namespace Builtin

/-- Called with arguments that are in normal form, the functions for extrema only compare them. -/
theorem call_extremum (hbuiltin : (builtin, wanted) ∈ [(Builtin.max, Ordering.gt), (.min, .lt)])
    (patience room : Nat) (env : EnvId) {args : List Value} (hne : args ≠ [])
    (hargs : ∀ arg ∈ args, arg.Normal) :
    callValue ⟨Value.resolve patience room, patience⟩ env (.function (.eager builtin)) args [] =
      Eval.ofExcept (extremum builtin wanted args) := by
  have hforced : args.mapM (Value.resolve patience room) = pure args :=
    Eval.mapM_eq_pure fun arg harg => (hargs arg harg).resolve_eq patience room
  have hcount : 1 ≤ args.length := List.length_pos_iff.mpr hne
  simp only [List.mem_cons, Prod.mk.injEq, List.not_mem_nil, or_false] at hbuiltin
  have hvalid : builtin.validate args.length [] = .ok () := by
    obtain ⟨rfl, -⟩ | ⟨rfl, -⟩ := hbuiltin <;> simp [validate, Arity.accepts, arity, hcount]
  have hperform : ∀ forcing, builtin.perform forcing env args [] =
      Eval.ofExcept (extremum builtin wanted args) := by
    intro forcing
    obtain ⟨rfl, rfl⟩ | ⟨rfl, rfl⟩ := hbuiltin <;> rfl
  have hstrict : builtin.arity.strict = true := by
    obtain ⟨rfl, -⟩ | ⟨rfl, -⟩ := hbuiltin <;> rfl
  simp only [callValue, hstrict, if_true, hforced, pure_bind, forceKeywords, List.mapM_nil, run,
    hvalid, hperform, Eval.ofExcept]

/-- Beyond 2 ^ 53 two integers are rounded to one float, and both are equal to it. -/
theorem compareValues_eq_not_trans :
    let low := Value.int (2 ^ 53)
    let high := Value.int (2 ^ 53 + 1)
    let rounded := Value.float ⟨0x4340000000000000⟩
    compareValues low rounded = .ok .eq ∧ compareValues rounded high = .ok .eq ∧
      compareValues low high = .ok .lt := by
  decide +kernel

/-- Calling `max` or `min` with several values, or with the list of them, gives one of them if all
are strings or all are numbers, and else it fails.  What it gives is beaten by none of the values,
though to be equal is not transitive among integers and floats.  If all are integers or all are
strings, then their order does not matter. -/
theorem extremum_unbeaten
    (hbuiltin : (builtin, wanted) ∈ [(Builtin.max, Ordering.gt), (.min, .lt)])
    {patience room : Nat} (env : EnvId) (htwo : 2 ≤ xs.length)
    (hfixed : ∀ x ∈ xs, ∃ store after, (x.resolve patience room).Ends store (.ok x) after) :
    let call := fun args => callValue ⟨Value.resolve patience room, patience⟩ env
      (.function (.eager builtin)) args []
    (∃ outcome : Except Failure Value,
      call xs = Eval.ofExcept outcome ∧ call [.list xs] = Eval.ofExcept outcome ∧
      ((∃ w, outcome = .ok w) ↔ (∀ x ∈ xs, x.IsText) ∨ ∀ x ∈ xs, x.IsNumber) ∧
      (∀ w, outcome = .ok w →
        w ∈ xs ∧ ∀ x ∈ xs, ∃ order, compareValues x w = .ok order ∧ order ≠ wanted) ∧
      (((∀ x ∈ xs, ∃ n, x = .int n) ∨ ∀ x ∈ xs, x.IsText) →
        ∀ ys, ys.Perm xs → call ys = Eval.ofExcept outcome)) ∧
    ∃ a b c : Value, compareValues a b = .ok .eq ∧ compareValues b c = .ok .eq ∧
      compareValues a c ≠ .ok .eq := by
  intro call
  have hwanted : wanted ≠ .eq := by
    simp only [List.mem_cons, Prod.mk.injEq, List.not_mem_nil, or_false] at hbuiltin
    obtain ⟨-, rfl⟩ | ⟨-, rfl⟩ := hbuiltin <;> decide
  have hnormal : ∀ x ∈ xs, x.Normal := by
    intro x hx
    obtain ⟨store, after, hresolve⟩ := hfixed x hx
    exact Value.resolve_normal hresolve
  have hne : xs ≠ [] := List.ne_nil_of_length_pos (by omega)
  have hcall : ∀ args, args ≠ [] → (∀ arg ∈ args, arg.Normal) →
      call args = Eval.ofExcept (extremum builtin wanted args) :=
    fun args hargs hall => call_extremum hbuiltin patience room env hargs hall
  constructor
  · refine ⟨extremum builtin wanted xs, hcall xs hne hnormal, ?_, extremum_ok_iff htwo, ?_, ?_⟩
    · obtain ⟨first, second, rest, rfl⟩ := exists_two htwo
      rw [hcall _ (List.cons_ne_nil _ _) (by simpa using Value.Normal.list hnormal),
        extremum_eq_best]
      rfl
    · intro w hw
      have hmem := extremum_mem htwo hw
      refine ⟨hmem, fun x hx => ?_⟩
      -- The values are of one kind, so each of them can be compared with the one that is given.
      have hcomparable : ∃ order, compareValues x w = .ok order := by
        apply compareValues_ok_iff.mpr
        rcases (extremum_ok_iff htwo).mp ⟨w, hw⟩ with hall | hall
        · exact .inr ⟨hall x hx, hall w hmem⟩
        · exact .inl ⟨hall x hx, hall w hmem⟩
      obtain ⟨order, horder⟩ := hcomparable
      refine ⟨order, horder, fun heq => ?_⟩
      exact extremum_not_beaten hwanted htwo hw x hx (heq ▸ horder)
    · intro hkind ys hperm
      have hys : ys ≠ [] := fun h => hne (List.nil_perm.mp (h ▸ hperm))
      rw [hcall ys hys fun y hy => hnormal y (hperm.mem_iff.mp hy),
        extremum_perm hwanted htwo hkind hperm]
  · obtain ⟨hlow, hhigh, hdiffer⟩ := compareValues_eq_not_trans
    exact ⟨_, _, _, hlow, hhigh, by rw [hdiffer]; simp⟩

/-- Two integers that one float is equal to, and the float between them. -/
theorem extremum_unbeaten_rounded :
    let xs : List Value := [.int (2 ^ 53), .float ⟨0x4340000000000000⟩, .int (2 ^ 53 + 1)]
    let call := fun args => callValue ⟨Value.resolve 0 0, 0⟩ 0 (.function (.eager .max)) args []
    ((Builtin.max, Ordering.gt) ∈ [(Builtin.max, Ordering.gt), (.min, .lt)] ∧ 2 ≤ xs.length ∧
      ∀ x ∈ xs, ∃ store after, (x.resolve 0 0).Ends store (.ok x) after) ∧
    ∃ outcome : Except Failure Value,
      call xs = Eval.ofExcept outcome ∧ call [.list xs] = Eval.ofExcept outcome ∧
      (∃ w, outcome = .ok w) ∧
      ∀ w, outcome = .ok w → ∀ x ∈ xs, ∃ order, compareValues x w = .ok order ∧ order ≠ .gt := by
  intro xs call
  have hbuiltin : (Builtin.max, Ordering.gt) ∈ [(Builtin.max, Ordering.gt), (.min, .lt)] :=
    List.mem_cons_self
  have hfixed : ∀ x ∈ xs, ∃ store after, (x.resolve 0 0).Ends store (.ok x) after := by
    intro x hx
    simp only [xs, List.mem_cons, List.not_mem_nil, or_false] at hx
    obtain rfl | rfl | rfl := hx <;> exact ⟨Store.empty, Store.empty, rfl⟩
  obtain ⟨⟨outcome, hcall, hlist, hok, hbest, -⟩, -⟩ :=
    extremum_unbeaten hbuiltin 0 (show 2 ≤ xs.length by decide) hfixed
  refine ⟨⟨hbuiltin, by decide, hfixed⟩, outcome, hcall, hlist, hok.mpr (.inr ?_),
    fun w hw => (hbest w hw).2⟩
  intro x hx
  simp only [xs, List.mem_cons, List.not_mem_nil, or_false] at hx
  obtain rfl | rfl | rfl := hx
  · exact .inl ⟨_, rfl⟩
  · exact .inr ⟨_, rfl, rfl⟩
  · exact .inl ⟨_, rfl⟩

end Builtin

end

end Deferral
