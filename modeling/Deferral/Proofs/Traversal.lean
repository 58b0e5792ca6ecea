import Deferral.Display
import Deferral.Proofs.Computation
import Deferral.Script

/-!
# Walking through values and trees

Induction over values and over syntax trees, and the loops over their parts in the form in which
they are reasoned about: each of them is `mapM`.
-/

namespace Deferral

open Eval

namespace Value

/-! ## 1. Values -/

/-- Induction over a value.  The parts of a container, an expression, a call or a sequence node come
before it. -/
@[induction_eliminator]
theorem induction {P : Value → Prop} (nil : P .nil) (bool : ∀ b, P (.bool b))
    (int : ∀ n, P (.int n)) (float : ∀ x, P (.float x)) (str : ∀ s, P (.str s))
    (list : ∀ items, (∀ item ∈ items, P item) → P (.list items))
    (map : ∀ entries, (∀ entry ∈ entries, P entry.1 ∧ P entry.2) → P (.map entries))
    (function : ∀ f, P (.function f)) (symbol : ∀ env name, P (.symbol env name))
    (expression : ∀ node env operator left right, P left → P right →
      P (.expression node env operator left right))
    (call : ∀ node env target args kwargs, P target → (∀ arg ∈ args, P arg) →
      (∀ entry ∈ kwargs, P entry.2) → P (.call node env target args kwargs))
    (sequence : ∀ node env head tail, P head → P tail → P (.sequence node env head tail))
    (v : Value) : P v :=
  -- The other motives say of a list of parts that each of them has the property.
  @Value.rec P (fun items => ∀ item ∈ items, P item)
    (fun entries => ∀ entry ∈ entries, P entry.1 ∧ P entry.2)
    (fun kwargs => ∀ entry ∈ kwargs, P entry.2) (fun entry => P entry.1 ∧ P entry.2)
    (fun entry => P entry.2) nil bool int float str list map function symbol expression call
    sequence (by simp) (fun _ _ h hs => List.forall_mem_cons.mpr ⟨h, hs⟩) (by simp)
    (fun _ _ h hs => List.forall_mem_cons.mpr ⟨h, hs⟩) (by simp)
    (fun _ _ h hs => List.forall_mem_cons.mpr ⟨h, hs⟩) (fun _ _ h h' => ⟨h, h'⟩)
    (fun _ _ h => h) v

/-! ## 2. Loops over the parts of a value -/

theorem resolveItems_eq_mapM (deferred : Value → Eval Value) (done items : List Value) :
    resolveItems deferred done items =
      (fun found => done.reverse ++ found) <$> items.mapM (resolveWith deferred) := by
  -- Each item that has been resolved joins those done, which stand in reverse.
  induction items generalizing done with
  | nil => simp [resolveItems]
  | cons item rest ih => simp [resolveItems, ih]

def resolveEntry (deferred : Value → Eval Value) (entry : Value × Value) :
    Eval (Value × Value) := do
  return (← entry.1.resolveWith deferred, ← entry.2.resolveWith deferred)

theorem resolveEntries_eq_mapM (deferred : Value → Eval Value)
    (done entries : List (Value × Value)) :
    resolveEntries deferred done entries =
      (fun found => done.reverse ++ found) <$> entries.mapM (resolveEntry deferred) := by
  induction entries generalizing done with
  | nil => simp [resolveEntries]
  | cons entry rest ih => simp [resolveEntries, resolveEntry, ih]

theorem resolveWith_list (deferred : Value → Eval Value) (items : List Value) :
    (Value.list items).resolveWith deferred = Value.list <$> items.mapM (resolveWith deferred) := by
  rw [resolveWith, resolveItems_eq_mapM]
  simp

theorem resolveWith_map (deferred : Value → Eval Value) (entries : List (Value × Value)) :
    (Value.map entries).resolveWith deferred =
      (fun found => Value.map (Entries.ofList found)) <$> entries.mapM (resolveEntry deferred) := by
  rw [resolveWith, resolveEntries_eq_mapM]
  simp

theorem displayItems_eq_mapM (deferred : Value → Eval String) (done : List String)
    (items : List Value) :
    displayItems deferred done items =
      (fun texts => done.reverse ++ texts) <$> items.mapM (displayWith deferred) := by
  induction items generalizing done with
  | nil => simp [displayItems]
  | cons item rest ih => simp [displayItems, ih]

def displayEntry (deferred : Value → Eval String) (entry : Value × Value) : Eval String := do
  let keyText ← entry.1.displayWith deferred
  let valueText ← entry.2.displayWith deferred
  return keyText ++ ": " ++ valueText

theorem displayEntries_eq_mapM (deferred : Value → Eval String) (done : List String)
    (entries : List (Value × Value)) :
    displayEntries deferred done entries =
      (fun texts => done.reverse ++ texts) <$> entries.mapM (displayEntry deferred) := by
  induction entries generalizing done with
  | nil => simp [displayEntries]
  | cons entry rest ih => simp [displayEntries, displayEntry, ih]

/-! ## 3. Deferred values -/

theorem resolveWith_deferred {v : Value} (deferred : Value → Eval Value)
    (hdeferred : v.isDeferred = true) (hsequence : v.isSequence = false) :
    v.resolveWith deferred = deferred v := by
  cases v <;> first | rfl | simp_all [isDeferred, environment?, isSequence]

end Value

namespace Display

def frontOfForced (forcing : Forcing) (text : Value → Eval String) :
    Except Failure Value → Eval Front
  | .error failure => return .whole (failureText failure)
  | .ok (.sequence _ _ head _) => frontOfHead forcing head
  | .ok w => return .whole (← text w)

theorem front_deferred {v : Value} (forcing : Forcing) (text : Value → Eval String)
    (hdeferred : v.isDeferred = true) (hsequence : v.isSequence = false) :
    front forcing text v = attempt (forcing.force v) >>= frontOfForced forcing text := by
  cases v with
  | sequence => cases hsequence
  | symbol | expression | call => rfl
  | _ => cases hdeferred

end Display

/-! ## 4. Names -/

/-- What a name stands for in source text: a built-in function, a constant or a symbol. -/
theorem readName_cases (env : EnvId) (name : String) :
    (∃ builtin, Builtin.ofName? name = some builtin ∧
      readName env name = .function (.ofBuiltin builtin)) ∨
    readName env name = .nil ∨ (∃ b, readName env name = .bool b) ∨
    readName env name = .symbol env name := by
  unfold readName reserved?
  cases hname : Builtin.ofName? name with
  | some builtin => exact .inl ⟨builtin, rfl, rfl⟩
  | none =>
    cases hconstant : constants.lookup name with
    | none => exact .inr (.inr (.inr rfl))
    | some v =>
      obtain ⟨before, behind, hconstants, -⟩ := List.lookup_eq_some_iff.mp hconstant
      have hmem : (name, v) ∈ constants := by simp [hconstants]
      simp only [constants, List.mem_cons, Prod.mk.injEq, List.not_mem_nil, or_false] at hmem
      obtain ⟨-, rfl⟩ | ⟨-, rfl⟩ | ⟨-, rfl⟩ := hmem
      · exact .inr (.inl rfl)
      · exact .inr (.inr (.inl ⟨true, rfl⟩))
      · exact .inr (.inr (.inl ⟨false, rfl⟩))

/-! ## 5. Syntax trees -/

namespace Tree

/-- Induction over a syntax tree. -/
@[induction_eliminator]
theorem induction {P : Tree → Prop} (int : ∀ n, P (.int n)) (float : ∀ x, P (.float x))
    (text : ∀ s, P (.text s)) (name : ∀ s, P (.name s))
    (list : ∀ items, (∀ item ∈ items, P item) → P (.list items))
    (map : ∀ entries, (∀ entry ∈ entries, P entry.1 ∧ P entry.2) → P (.map entries))
    (negate : ∀ operand, P operand → P (.negate operand))
    (arithmetic : ∀ operator left right, P left → P right → P (.arithmetic operator left right))
    (append : ∀ head tail, P head → P tail → P (.append head tail))
    (call : ∀ target args kwargs, P target → (∀ arg ∈ args, P arg) →
      (∀ entry ∈ kwargs, P entry.2) → P (.call target args kwargs))
    (t : Tree) : P t :=
  @Tree.rec P (fun items => ∀ item ∈ items, P item)
    (fun entries => ∀ entry ∈ entries, P entry.1 ∧ P entry.2)
    (fun kwargs => ∀ entry ∈ kwargs, P entry.2) (fun entry => P entry.1 ∧ P entry.2)
    (fun entry => P entry.2) int float text name list map negate arithmetic append call
    (by simp) (fun _ _ h hs => List.forall_mem_cons.mpr ⟨h, hs⟩) (by simp)
    (fun _ _ h hs => List.forall_mem_cons.mpr ⟨h, hs⟩) (by simp)
    (fun _ _ h hs => List.forall_mem_cons.mpr ⟨h, hs⟩) (fun _ _ h h' => ⟨h, h'⟩)
    (fun _ _ h => h) t

variable (forcing : Forcing) (env : EnvId)

theorem evaluateItems_eq_mapM (items : List Tree) :
    evaluateItems forcing env items = items.mapM (evaluate forcing env) := by
  induction items with
  | nil => simp [evaluateItems]
  | cons item rest ih => simp [evaluateItems, ih]

def evaluateEntry (entry : Tree × Tree) : Eval (Value × Value) := do
  return (← entry.1.evaluate forcing env, ← entry.2.evaluate forcing env)

theorem evaluateEntries_eq_mapM (entries : List (Tree × Tree)) :
    evaluateEntries forcing env entries = entries.mapM (evaluateEntry forcing env) := by
  induction entries with
  | nil => simp [evaluateEntries]
  | cons entry rest ih => simp [evaluateEntries, evaluateEntry, ih]

def evaluateKeyword (entry : String × Tree) : Eval (String × Value) := do
  return (entry.1, ← entry.2.evaluate forcing env)

theorem evaluateKeywords_eq_mapM (kwargs : List (String × Tree)) :
    evaluateKeywords forcing env kwargs = kwargs.mapM (evaluateKeyword forcing env) := by
  induction kwargs with
  | nil => simp [evaluateKeywords]
  | cons entry rest ih => simp [evaluateKeywords, evaluateKeyword, ih]

end Tree

end Deferral
