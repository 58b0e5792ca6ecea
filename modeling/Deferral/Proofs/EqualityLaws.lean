import Deferral.Proofs.DistinctKeys

/-!
# The laws of equality

Equality of values is symmetric and transitive.  What keeps it from being reflexive is a NaN, and
only one that stands in the open: in a list or in a map, however deep, but not in the parts of an
expression, a call or a sequence node.  Those parts are never looked at, so equality does not depend
on what they are or on what they would be forced to.
-/

namespace Deferral

/-! ## 1. What differs from itself -/

theorem Double.beq_self_iff {x : Double} : (x == x) = true ↔ x.isNaN = false := by
  change (!x.isNaN && !x.isNaN && x.rank == x.rank) = true ↔ _
  rw [beq_self_eq_true, Bool.and_true, Bool.and_self, Bool.not_eq_true']

namespace Value

/-- A NaN occurs in a value.  Only lists and maps are searched. -/
inductive HoldsNaN : Value → Prop
  | float {x : Double} : x.isNaN = true → HoldsNaN (.float x)
  | item {items : List Value} {item : Value} : item ∈ items → HoldsNaN item →
      HoldsNaN (.list items)
  | key {entries : List (Value × Value)} {entry : Value × Value} : entry ∈ entries →
      HoldsNaN entry.1 → HoldsNaN (.map entries)
  | value {entries : List (Value × Value)} {entry : Value × Value} : entry ∈ entries →
      HoldsNaN entry.2 → HoldsNaN (.map entries)

theorem holdsNaN_float {x : Double} : HoldsNaN (.float x) ↔ x.isNaN = true := by
  constructor
  · intro h
    cases h
    assumption
  · exact .float

theorem holdsNaN_list {items : List Value} :
    HoldsNaN (.list items) ↔ ∃ item ∈ items, item.HoldsNaN := by
  constructor
  · intro h
    cases h with
    | item hmem hitem => exact ⟨_, hmem, hitem⟩
  · rintro ⟨item, hmem, hitem⟩
    exact .item hmem hitem

theorem holdsNaN_map {entries : List (Value × Value)} :
    HoldsNaN (.map entries) ↔ ∃ entry ∈ entries, entry.1.HoldsNaN ∨ entry.2.HoldsNaN := by
  constructor
  · intro h
    cases h with
    | key hmem hkey => exact ⟨_, hmem, .inl hkey⟩
    | value hmem hvalue => exact ⟨_, hmem, .inr hvalue⟩
  · rintro ⟨entry, hmem, hkey | hvalue⟩
    · exact .key hmem hkey
    · exact .value hmem hvalue

/-- No NaN is reached through what is deferred. -/
theorem not_holdsNaN_of_deferred {v : Value} (hv : v.isDeferred = true) : ¬ v.HoldsNaN := by
  intro h
  cases h <;> cases hv

theorem beq_self_iff {v : Value} : (v == v) = true ↔ ¬ v.HoldsNaN := by
  change v.beq v = true ↔ _
  induction v with
  | float x =>
    rw [holdsNaN_float, Bool.not_eq_true]
    exact Double.beq_self_iff
  | list items ih =>
    show beqItems items items = true ↔ _
    rw [beqItems_iff, List.forall₂_same, holdsNaN_list]
    push Not
    exact forall₂_congr ih
  | map entries ih =>
    show beqEntries entries entries = true ↔ _
    rw [beqEntries_iff, List.forall₂_same, holdsNaN_map]
    push Not
    exact forall₂_congr fun entry hmem => and_congr (ih entry hmem).1 (ih entry hmem).2
  | symbol | expression | call | sequence =>
    apply iff_of_true
    · simp [Value.beq]
    · exact not_holdsNaN_of_deferred rfl
  | _ =>
    apply iff_of_true
    · simp [Value.beq]
    · intro h
      cases h

/-! ## 2. What equality looks at -/

mutual

/-- What can be seen of a value without forcing anything.  Of an expression, a call and a sequence
node that is the number; its parts are left out. -/
def face : Value → Value
  | .list items => .list (faceItems items)
  | .map entries => .map (faceEntries entries)
  | .expression node .. => .expression node 0 .add .nil .nil
  | .call node .. => .call node 0 .nil [] []
  | .sequence node .. => .sequence node 0 .nil .nil
  | v => v

def faceItems : List Value → List Value
  | [] => []
  | item :: rest => item.face :: faceItems rest

def faceEntries : List (Value × Value) → List (Value × Value)
  | [] => []
  | (key, value) :: rest => (key.face, value.face) :: faceEntries rest

end

theorem beqItems_face {as bs : List Value} (h : ∀ a ∈ as, ∀ b, a.face.beq b.face = a.beq b) :
    beqItems (faceItems as) (faceItems bs) = beqItems as bs := by
  induction as generalizing bs with
  | nil => cases bs <;> simp [faceItems, beqItems]
  | cons a as ih =>
    cases bs with
    | nil => simp [faceItems, beqItems]
    | cons b bs =>
      have hrest : beqItems (faceItems as) (faceItems bs) = beqItems as bs :=
        ih fun c hc => h c (List.mem_cons_of_mem a hc)
      rw [faceItems, faceItems, beqItems, beqItems, h a List.mem_cons_self b, hrest]

theorem beqEntries_face {as bs : List (Value × Value)}
    (h : ∀ a ∈ as, (∀ b, a.1.face.beq b.face = a.1.beq b) ∧ ∀ b, a.2.face.beq b.face = a.2.beq b) :
    beqEntries (faceEntries as) (faceEntries bs) = beqEntries as bs := by
  induction as generalizing bs with
  | nil => cases bs <;> simp [faceEntries, beqEntries]
  | cons a as ih =>
    cases bs with
    | nil => simp [faceEntries, beqEntries]
    | cons b bs =>
      have hrest : beqEntries (faceEntries as) (faceEntries bs) = beqEntries as bs :=
        ih fun c hc => h c (List.mem_cons_of_mem a hc)
      obtain ⟨hkey, hvalue⟩ := h a List.mem_cons_self
      rw [faceEntries, faceEntries, beqEntries, beqEntries, hkey b.1, hvalue b.2, hrest]

/-- Two values are equal exactly if what can be seen of them is. -/
theorem beq_face (a b : Value) : (a.face == b.face) = (a == b) := by
  change a.face.beq b.face = a.beq b
  induction a generalizing b with
  | list items ih =>
    cases b with
    | list others => exact beqItems_face ih
    | _ => rfl
  | map entries ih =>
    cases b with
    | map others => exact beqEntries_face ih
    | _ => rfl
  | _ => cases b <;> rfl

/-- A deferred value is equal to what cannot be told from it, and to nothing else. -/
theorem beq_iff_face_eq {a b : Value} (ha : a.isDeferred = true) :
    (a == b) = true ↔ a.face = b.face := by
  change a.beq b = true ↔ _
  cases a with
  | symbol => cases b <;> simp [Value.beq, face, and_comm]
  | expression | call | sequence => cases b <;> simp [Value.beq, face]
  | _ => cases ha

/-! ## 3. The laws -/

/-- Equality of values is symmetric and transitive, and reflexive but for what a NaN occurs in.  It
looks at nothing that would have to be forced: deferred values are told apart by their numbers, and
symbols by their names and environments.  So it stays as it is whatever takes the place of the parts
of a deferred value, and it depends on no binding. -/
theorem beq_partial_equivalence (a b c : Value) :
    ((a == b) = true → (b == a) = true) ∧
    ((a == b) = true → (b == c) = true → (a == c) = true) ∧
    ((a == a) = true ↔ ¬ a.HoldsNaN) ∧
    (a == b) = (a.face == b.face) ∧
    (∀ a' b' : Value, a'.face = a.face → b'.face = b.face → (a' == b') = (a == b)) ∧
    (a.isDeferred = true → ((a == b) = true ↔ a.face = b.face)) := by
  refine ⟨beq_symm, beq_trans, beq_self_iff, (beq_face a b).symm, ?_, beq_iff_face_eq⟩
  intro a' b' ha hb
  rw [← beq_face a' b', ha, hb, beq_face]

/-- A list that holds a NaN differs from itself; one that holds a call of a NaN does not. -/
theorem beq_partial_equivalence_nan :
    let nan : Value := .float ⟨0x7FF8000000000000⟩
    let shown : Value := .list [nan]
    let hidden : Value := .list [.call 4 0 .nil [nan] []]
    (shown.HoldsNaN ∧ (shown == shown) = false) ∧
      (hidden == hidden) = true ∧ ¬ hidden.HoldsNaN := by
  intro nan shown hidden
  have hnan : shown.HoldsNaN := .item List.mem_cons_self (.float (by decide))
  have hshown : ¬ (shown == shown) = true := by
    intro h
    exact (beq_partial_equivalence shown shown shown).2.2.1.mp h hnan
  have hhidden : (hidden == hidden) = true := by decide
  exact ⟨⟨hnan, eq_false_of_ne_true hshown⟩, hhidden,
    (beq_partial_equivalence hidden hidden hidden).2.2.1.mp hhidden⟩

end Value

end Deferral
