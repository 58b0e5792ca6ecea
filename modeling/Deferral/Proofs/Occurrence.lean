import Deferral.Proofs.DistinctKeys
import Deferral.Proofs.Growth
import Mathlib.Data.ENat.Basic
import Mathlib.Logic.Relation

/-!
# What occurs in a value

The values that are met when a value is resolved and shown are those that it is made of, what its
names stand for, and so on.  Two things about them decide whether this comes to an end: which
functions are among them (`Store.Avoids`), and how often in a row a sequence begins with a sequence
(`Store.Nests`).  Both stay as they are under everything that resolution does to values.
-/

namespace Deferral

open Relation

/-! ## 1. Occurrences -/

namespace Store

def parts (store : Store) : Value → List Value
  | .list items => items
  | .map entries => entries.map Prod.fst ++ entries.map Prod.snd
  | .symbol env name => (store.visible? env name).toList
  | .expression _ _ _ left right => [left, right]
  | .call _ _ target args kwargs => target :: (args ++ kwargs.map Prod.snd)
  | .sequence _ _ head tail => [head, tail]
  | _ => []

/-- The second value is the first one, or it occurs in it or in a binding that is reached from
it. -/
def Holds (store : Store) : Value → Value → Prop := ReflTransGen fun v u => u ∈ store.parts v

def Avoids (store : Store) (banned : List Builtin) (v : Value) : Prop :=
  ∀ f, store.Holds v (.function f) → f.builtin ∉ banned

/-- No more than `n` sequences begin with one another: each sequence that occurs begins with a value
where no more than `n - 1` do, and for `n = 0` there is no sequence. -/
def Nests (store : Store) : Nat → Value → Prop
  | 0, v => ∀ node env head tail, ¬ store.Holds v (.sequence node env head tail)
  | n + 1, v => ∀ node env head tail,
    store.Holds v (.sequence node env head tail) → store.Nests n head

variable {store : Store} {u v : Value}

theorem Holds.part (h : u ∈ store.parts v) : store.Holds v u := .single h

section
variable {values : List Value} (hclosed : ∀ u ∈ values, ∀ w ∈ store.parts u, w ∈ values)
include hclosed

/-- Values with parts among themselves hold nothing else. -/
theorem Holds.mem_of_closed (hv : v ∈ values) (h : store.Holds v u) : u ∈ values := by
  induction h with
  | refl => exact hv
  | tail _ hpart ih => exact hclosed _ ih _ hpart

theorem Avoids.of_closed {banned : List Builtin}
    (hfunctions : ∀ f, .function f ∈ values → f.builtin ∉ banned) (hv : v ∈ values) :
    store.Avoids banned v := fun f hf => hfunctions f (hf.mem_of_closed hclosed hv)

theorem Nests.of_closed {n : Nat}
    (hheads : ∀ node env head tail, .sequence node env head tail ∈ values → store.Nests n head)
    (hv : v ∈ values) : store.Nests (n + 1) v :=
  fun node env head tail hs => hheads node env head tail (hs.mem_of_closed hclosed hv)

end

namespace Nests

variable {n : Nat}

/-- Both cases of the definition in one. -/
theorem iff_heads : store.Nests n v ↔ ∀ node env head tail,
    store.Holds v (.sequence node env head tail) → ∃ m, n = m + 1 ∧ store.Nests m head := by
  cases n with
  | zero => simp [Nests]
  | succ n => simp [Nests]

theorem holds (h : store.Nests n v) (hu : store.Holds v u) : store.Nests n u :=
  iff_heads.mpr fun node env head tail hs => iff_heads.mp h node env head tail (hu.trans hs)

theorem succ (h : store.Nests n v) : store.Nests (n + 1) v := by
  induction n generalizing v with
  | zero => exact fun node env head tail hs => absurd hs (h node env head tail)
  | succ n ih => exact fun node env head tail hs => ih (h node env head tail hs)

theorem mono {m : Nat} (h : store.Nests n v) (hle : n ≤ m) : store.Nests m v := by
  induction hle with
  | refl => exact h
  | step _ ih => exact ih.succ

theorem head {node : NodeId} {env : EnvId} {head tail : Value}
    (h : store.Nests n (.sequence node env head tail)) : ∃ m, n = m + 1 ∧ store.Nests m head :=
  iff_heads.mp h node env head tail .refl

theorem of_parts (hv : v.isSequence = false) (h : ∀ u ∈ store.parts v, store.Nests n u) :
    store.Nests n v := by
  rw [iff_heads]
  intro node env head tail hs
  -- A sequence that occurs in the value is not the value itself, so it occurs in a part.
  rcases ReflTransGen.cases_head hs with rfl | ⟨u, hu, hus⟩
  · cases hv
  · exact iff_heads.mp (h u hu) node env head tail hus

theorem sequence {node : NodeId} {env : EnvId} {head tail : Value} (hhead : store.Nests n head)
    (htail : store.Nests (n + 1) tail) :
    store.Nests (n + 1) (.sequence node env head tail) := by
  intro node' env' head' tail' hs
  rcases ReflTransGen.cases_head hs with heq | ⟨u, hu, hus⟩
  · cases heq
    exact hhead
  · have hpart : u = head ∨ u = tail := by simpa [parts] using hu
    rcases hpart with rfl | rfl
    · exact hhead.succ node' env' head' tail' hus
    · exact htail node' env' head' tail' hus

end Nests

/-! ## 2. Classes of values that resolution does not leave -/

/-- A value without certain functions, and with a bound on how often sequences begin with sequences.
At the level `⊤` there is no such bound. -/
structure Confines (store : Store) (banned : List Builtin) (level : ℕ∞) (v : Value) : Prop where
  avoids : store.Avoids banned v
  nests : ∀ n : Nat, level = n → store.Nests n v

namespace Confines

variable {banned : List Builtin} {level : ℕ∞}

theorem holds (h : store.Confines banned level v) (hu : store.Holds v u) :
    store.Confines banned level u where
  avoids f hf := h.avoids f (hu.trans hf)
  nests n hn := (h.nests n hn).holds hu

theorem part (h : store.Confines banned level v) (hu : u ∈ store.parts v) :
    store.Confines banned level u := h.holds (.part hu)

theorem mono {higher : ℕ∞} (h : store.Confines banned level v) (hle : level ≤ higher) :
    store.Confines banned higher v where
  avoids := h.avoids
  nests := by
    rintro n rfl
    obtain ⟨m, hm, hmn⟩ := ENat.le_natCast_iff.mp hle
    exact (h.nests m hm).mono hmn

/-- What a value is made of decides, unless the value is a function or a sequence. -/
theorem of_parts (hf : v.typeName ≠ .function) (hs : v.typeName ≠ .sequence)
    (h : ∀ u ∈ store.parts v, store.Confines banned level u) :
    store.Confines banned level v where
  avoids f hvf := by
    rcases ReflTransGen.cases_head hvf with rfl | ⟨u, hu, huf⟩
    · exact absurd rfl hf
    · exact (h u hu).avoids f huf
  nests n hn := by
    have hv : v.isSequence = false := by cases v <;> first | rfl | exact absurd rfl hs
    exact .of_parts hv fun u hu => (h u hu).nests n hn

theorem function {f : Function} (hf : f.builtin ∉ banned) :
    store.Confines banned level (.function f) where
  avoids g hg := by
    rcases ReflTransGen.cases_head hg with heq | ⟨u, hu, -⟩
    · cases heq
      exact hf
    · cases hu
  nests n _ := .of_parts rfl fun u hu => by cases hu

theorem list {items : List Value} (h : ∀ item ∈ items, store.Confines banned level item) :
    store.Confines banned level (.list items) := of_parts nofun nofun h

theorem map {entries : List (Value × Value)}
    (hkeys : ∀ entry ∈ entries, store.Confines banned level entry.1)
    (hvalues : ∀ entry ∈ entries, store.Confines banned level entry.2) :
    store.Confines banned level (.map entries) := by
  refine of_parts nofun nofun fun u hu => ?_
  rcases List.mem_append.mp hu with hu | hu
  · obtain ⟨entry, hentry, rfl⟩ := List.mem_map.mp hu
    exact hkeys entry hentry
  · obtain ⟨entry, hentry, rfl⟩ := List.mem_map.mp hu
    exact hvalues entry hentry

theorem call {node : NodeId} {env : EnvId} {target : Value} {args : List Value}
    (htarget : store.Confines banned level target)
    (hargs : ∀ arg ∈ args, store.Confines banned level arg) :
    store.Confines banned level (.call node env target args []) := by
  refine of_parts nofun nofun fun u hu => ?_
  have hu : u = target ∨ u ∈ args := by simpa [parts] using hu
  rcases hu with rfl | hu
  · exact htarget
  · exact hargs u hu

theorem key {entries : List (Value × Value)} {entry : Value × Value}
    (h : store.Confines banned level (.map entries)) (hentry : entry ∈ entries) :
    store.Confines banned level entry.1 :=
  h.part (List.mem_append_left _ (List.mem_map_of_mem hentry))

theorem value {entries : List (Value × Value)} {entry : Value × Value}
    (h : store.Confines banned level (.map entries)) (hentry : entry ∈ entries) :
    store.Confines banned level entry.2 :=
  h.part (List.mem_append_right _ (List.mem_map_of_mem hentry))

theorem tail {node : NodeId} {env : EnvId} {head tail : Value}
    (h : store.Confines banned level (.sequence node env head tail)) :
    store.Confines banned level tail := h.part (by simp [parts])

theorem head {node : NodeId} {env : EnvId} {head tail : Value}
    (h : store.Confines banned level (.sequence node env head tail)) :
    ∃ lower, level = lower + 1 ∧ store.Confines banned lower head := by
  have havoids : store.Avoids banned head := (h.part (by simp [parts])).avoids
  cases level using ENat.recTopCoe with
  | top => exact ⟨⊤, rfl, havoids, fun n hn => absurd hn (ENat.top_ne_natCast n)⟩
  | coe n =>
    obtain ⟨m, rfl, hm⟩ := (h.nests n rfl).head
    refine ⟨m, by norm_cast, havoids, fun k hk => ?_⟩
    rw [← ENat.natCast_inj.mp hk]
    exact hm

theorem sequence {node : NodeId} {env : EnvId} {head tail : Value} {lower : ℕ∞}
    (hhead : store.Confines banned lower head)
    (htail : store.Confines banned (lower + 1) tail) :
    store.Confines banned (lower + 1) (.sequence node env head tail) where
  avoids f hf := by
    rcases ReflTransGen.cases_head hf with heq | ⟨u, hu, huf⟩
    · cases heq
    · have hpart : u = head ∨ u = tail := by simpa [parts] using hu
      rcases hpart with rfl | rfl
      · exact hhead.avoids f huf
      · exact htail.avoids f huf
  nests n hn := by
    cases lower using ENat.recTopCoe with
    | top => exact absurd hn (ENat.top_ne_natCast n)
    | coe m =>
      obtain rfl : m + 1 = n := by exact_mod_cast hn
      exact (hhead.nests m rfl).sequence (htail.nests (m + 1) (by norm_cast))

end Confines

end Store

/-! ## 3. What is computed from values -/

structure Value.Closed (C : Value → Prop) : Prop where
  scalar : ∀ v, v.typeName ∈ [TypeName.nil, .bool, .int, .float, .str] → C v
  list : ∀ items, C (.list items) ↔ ∀ item ∈ items, C item

theorem Store.Confines.closed (store : Store) (banned : List Builtin) (level : ℕ∞) :
    Value.Closed (store.Confines banned level) where
  scalar v h := by
    have hparts : store.parts v = [] := by
      cases v <;> first | rfl | simp [Value.typeName] at h
    refine of_parts (fun hf => ?_) (fun hs => ?_) (by simp [hparts])
    · simp [hf] at h
    · simp [hs] at h
  list _ := ⟨fun h _ hitem => h.part hitem, list⟩

section
variable {C : Value → Prop} {left right v w : Value}

theorem Operator.applyInt_typeName {operator : Operator} {a b : Int64}
    (h : operator.applyInt a b = .ok w) : w.typeName = .int := by
  unfold applyInt at h
  extract_lets outcome? at h
  clear_value outcome?
  cases outcome? with
  | none => cases h
  | some exact =>
    dsimp only at h
    split at h <;> cases h
    rfl

theorem Operator.applyFloat_typeName {operator : Operator} {a b : Double}
    (h : operator.applyFloat a b = .ok w) : w.typeName = .float := by
  unfold applyFloat at h
  split at h
  · cases h
    rfl
  · cases h
    rfl
  · cases h
    rfl
  · split at h <;> cases h
    rfl

theorem Value.Closed.repeatItems (hC : Closed C) {items : List Value} {count : Int64}
    (hitems : C (.list items)) (h : repeatItems items count = .ok w) : C w := by
  unfold Deferral.repeatItems at h
  cases hn : repetitions count items.length with
  | error failure =>
    rw [hn] at h
    cases h
  | ok n =>
    rw [hn] at h
    cases h
    refine (hC.list _).mpr fun item hitem => ?_
    obtain ⟨_, hlist, hitem⟩ := List.mem_flatten.mp hitem
    rw [List.eq_of_mem_replicate hlist] at hitem
    exact (hC.list items).mp hitems item hitem

theorem repeatText_typeName {s : String} {count : Int64} (h : repeatText s count = .ok w) :
    w.typeName = .str := by
  unfold repeatText at h
  cases hn : repetitions count s.utf8ByteSize with
  | error failure =>
    rw [hn] at h
    cases h
  | ok n =>
    rw [hn] at h
    cases h
    rfl

theorem Value.Closed.compute (hC : Closed C) {operator : Operator} (hleft : C left)
    (hright : C right) (h : operator.compute left right = .ok w) : C w := by
  unfold Operator.compute at h
  split at h
  case h_1 => exact hC.scalar w (by simp [Operator.applyInt_typeName h])
  case h_5 =>
    cases h
    exact hC.scalar _ (by simp [typeName])
  case h_6 as bs =>
    cases h
    refine (hC.list _).mpr fun item hitem => ?_
    rcases List.mem_append.mp hitem with hitem | hitem
    · exact (hC.list as).mp hleft item hitem
    · exact (hC.list bs).mp hright item hitem
  case h_7 => exact hC.scalar w (by simp [repeatText_typeName h])
  case h_8 => exact hC.scalar w (by simp [repeatText_typeName h])
  case h_9 => exact hC.repeatItems hleft h
  case h_10 => exact hC.repeatItems hright h
  case h_11 => cases h
  all_goals exact hC.scalar w (by simp [Operator.applyFloat_typeName h])

theorem Value.Closed.toInteger (hC : Closed C) (h : toInteger v = .ok w) : C w := by
  unfold Deferral.toInteger at h
  split at h
  · cases h
    exact hC.scalar _ (by simp [typeName])
  · cases h
    exact hC.scalar _ (by simp [typeName])
  · split at h <;> cases h
    exact hC.scalar _ (by simp [typeName])
  · split at h <;> cases h
    exact hC.scalar _ (by simp [typeName])
  · cases h

theorem Value.Closed.toFloat (hC : Closed C) (h : toFloat v = .ok w) : C w := by
  unfold Deferral.toFloat at h
  split at h
  · cases h
    exact hC.scalar _ (by simp [typeName])
  · cases h
    exact hC.scalar _ (by simp [typeName])
  · cases h
    exact hC.scalar _ (by simp [typeName])
  · split at h <;> cases h
    exact hC.scalar _ (by simp [typeName])
  · cases h

theorem Value.Closed.lengthOf (hC : Closed C) (h : lengthOf v = .ok w) : C w := by
  unfold Deferral.lengthOf at h
  split at h <;> cases h <;> exact hC.scalar _ (by simp [typeName])

theorem Value.Closed.absolute (hC : Closed C) (h : absolute v = .ok w) : C w := by
  unfold Deferral.absolute at h
  split at h
  · split at h <;> cases h
    exact hC.scalar _ (by simp [typeName])
  · cases h
    exact hC.scalar _ (by simp [typeName])
  · cases h

theorem best_mem {wanted : Ordering} {current : Value} {rest : List Value}
    (h : best wanted current rest = .ok w) : w ∈ current :: rest := by
  induction rest generalizing current with
  | nil =>
    cases h
    exact List.mem_cons_self
  | cons candidate rest ih =>
    unfold best at h
    cases horder : compareValues candidate current with
    | error failure =>
      rw [horder] at h
      cases h
    | ok order =>
      rw [horder] at h
      have hmem := ih h
      -- The one that is kept is one of the two that were compared.
      split at hmem <;> simp only [List.mem_cons] at hmem ⊢ <;> tauto

theorem Value.Closed.extremum (hC : Closed C) {builtin : Builtin} {wanted : Ordering}
    {args : List Value} (hargs : ∀ arg ∈ args, C arg)
    (h : extremum builtin wanted args = .ok w) : C w := by
  have hbest : ∀ first rest, (∀ candidate ∈ first :: rest, C candidate) →
      best wanted first rest = .ok w → C w := fun first rest hall h => hall w (best_mem h)
  rcases args with _ | ⟨first, _ | ⟨second, rest⟩⟩
  · cases h
  · -- The only argument stands for itself, or for its items if it is a list.
    cases first with
    | list items =>
      have hitems : ∀ item ∈ items, C item :=
        (hC.list items).mp (hargs (.list items) List.mem_cons_self)
      cases items with
      | nil => cases h
      | cons item rest => exact hbest item rest hitems h
    | _ => exact hbest _ [] hargs h
  · exact hbest first (second :: rest) hargs (by cases first <;> exact h)

end

end Deferral
