import Deferral.Json
import Deferral.Proofs.DistinctKeys
import Deferral.Proofs.Lockstep

/-!
# Alike values

Two runs that do the same give the same values up to the numbers of the nodes that they make.  What
is computed from such values is the same again.
-/

namespace Deferral

/-! ## 1. Values up to new nodes -/

structure Pairing where
  /-- The number of the first node that one run makes. -/
  first : Nat
  /-- The number of the first node that the other run makes. -/
  second : Nat
  /-- The numbers of a node that is older than both runs. -/
  old : Nat → Nat → Prop
  old_lt : ∀ a b, old a b → a < first ∧ b < second
  old_inj : ∀ a b a' b', old a b → old a' b' → (a = a' ↔ b = b')
  /-- The environments that the values may be made in. -/
  environments : EnvId → Prop
  /-- The names that may occur in the values. -/
  symbols : EnvId → String → Prop
  /-- Whether both runs print the same. -/
  sameOutput : Prop := True

/-- Two numbers of one node: it is older than both runs, or both have made it. -/
def Pairing.nodes (p : Pairing) (a b : Nat) : Prop :=
  p.old a b ∨ ∃ i, a = p.first + i ∧ b = p.second + i

inductive Value.Alike (p : Pairing) : Value → Value → Prop
  | nil : Alike p .nil .nil
  | bool (b : Bool) : Alike p (.bool b) (.bool b)
  | int (n : Int64) : Alike p (.int n) (.int n)
  | float (x : Double) : Alike p (.float x) (.float x)
  | str (s : String) : Alike p (.str s) (.str s)
  | list {items items' : List Value} : List.Forall₂ (Alike p) items items' →
      Alike p (.list items) (.list items')
  | map {entries entries' : List (Value × Value)} :
      List.Forall₂ (Alike p) (entries.map Prod.fst) (entries'.map Prod.fst) →
      List.Forall₂ (Alike p) (entries.map Prod.snd) (entries'.map Prod.snd) →
      Alike p (.map entries) (.map entries')
  | function (f : Function) : Alike p (.function f) (.function f)
  | symbol {env : EnvId} {name : String} : p.environments env → p.symbols env name →
      Alike p (.symbol env name) (.symbol env name)
  | expression {node node' : NodeId} {env : EnvId} {left left' right right' : Value}
      (operator : Operator) : p.nodes node node' → p.environments env → Alike p left left' →
      Alike p right right' →
      Alike p (.expression node env operator left right)
        (.expression node' env operator left' right')
  | call {node node' : NodeId} {env : EnvId} {target target' : Value} {args args' : List Value}
      {kwargs kwargs' : List (String × Value)} : p.nodes node node' → p.environments env →
      Alike p target target' → List.Forall₂ (Alike p) args args' →
      kwargs.map Prod.fst = kwargs'.map Prod.fst →
      List.Forall₂ (Alike p) (kwargs.map Prod.snd) (kwargs'.map Prod.snd) →
      Alike p (.call node env target args kwargs) (.call node' env target' args' kwargs')
  | sequence {node node' : NodeId} {env : EnvId} {head head' tail tail' : Value} :
      p.nodes node node' → p.environments env → Alike p head head' → Alike p tail tail' →
      Alike p (.sequence node env head tail) (.sequence node' env head' tail')

section
variable {α β : Type} {R S : α → β → Prop}

theorem forall₂_imp_of_mem {as : List α} {bs : List β} (h : List.Forall₂ R as bs)
    (himp : ∀ a ∈ as, ∀ b, R a b → S a b) : List.Forall₂ S as bs := by
  induction h with
  | nil => exact .nil
  | @cons a b as bs hab _ ih =>
    exact .cons (himp a List.mem_cons_self b hab)
      (ih fun c hc => himp c (List.mem_cons_of_mem a hc))

theorem map_eq_of_forall₂ {γ : Type} {f : α → γ} {g : β → γ} {as : List α} {bs : List β}
    (h : List.Forall₂ R as bs) (hfg : ∀ a ∈ as, ∀ b, R a b → f a = g b) :
    as.map f = bs.map g := by
  induction h with
  | nil => rfl
  | @cons a b as bs hab _ ih =>
    rw [List.map_cons, List.map_cons, hfg a List.mem_cons_self b hab,
      ih fun c hc => hfg c (List.mem_cons_of_mem a hc)]

theorem forall₂_pairs {γ δ : Type} {T : γ → δ → Prop} {as : List (α × γ)} {bs : List (β × δ)} :
    List.Forall₂ (fun a b => R a.1 b.1 ∧ T a.2 b.2) as bs ↔
      List.Forall₂ R (as.map Prod.fst) (bs.map Prod.fst) ∧
        List.Forall₂ T (as.map Prod.snd) (bs.map Prod.snd) := by
  induction as generalizing bs with
  | nil => cases bs <;> simp
  | cons a as ih =>
    cases bs with
    | nil => simp
    | cons b bs =>
      simp only [List.map_cons, List.forall₂_cons, ih]
      tauto

end

namespace Value.Alike

variable {p : Pairing} {v w v' w' : Value}

abbrev Pairs (p : Pairing) (a b : Value × Value) : Prop := Alike p a.1 b.1 ∧ Alike p a.2 b.2

abbrev Entries (p : Pairing) (as bs : List (Value × Value)) : Prop := List.Forall₂ (Pairs p) as bs

abbrev Keywords (p : Pairing) (as bs : List (String × Value)) : Prop :=
  List.Forall₂ (fun a b => a.1 = b.1 ∧ Alike p a.2 b.2) as bs

theorem of_entries {as bs : List (Value × Value)} (h : Entries p as bs) :
    Alike p (.map as) (.map bs) :=
  .map (forall₂_pairs.mp h).1 (forall₂_pairs.mp h).2

theorem keywords_iff {as bs : List (String × Value)} :
    Keywords p as bs ↔ as.map Prod.fst = bs.map Prod.fst ∧
      List.Forall₂ (Alike p) (as.map Prod.snd) (bs.map Prod.snd) := by
  rw [Keywords, forall₂_pairs (R := (· = ·)), List.forall₂_eq_eq_eq]

theorem typeName_eq (h : Alike p v w) : v.typeName = w.typeName := by
  cases h <;> rfl

theorem environment?_eq (h : Alike p v w) : v.environment? = w.environment? := by
  cases h <;> rfl

theorem isDeferred_eq (h : Alike p v w) : v.isDeferred = w.isDeferred := by
  rw [isDeferred, isDeferred, h.environment?_eq]

theorem isSequence_eq (h : Alike p v w) : v.isSequence = w.isSequence := by
  cases h <;> rfl

/-! ## 2. Equality -/

theorem nodes_inj {a b a' b' : Nat} (h : p.nodes a b) (h' : p.nodes a' b') :
    a = a' ↔ b = b' := by
  rcases h with hold | ⟨i, rfl, rfl⟩ <;> rcases h' with hold' | ⟨j, rfl, rfl⟩
  · exact p.old_inj _ _ _ _ hold hold'
  · have hlt := p.old_lt _ _ hold
    omega
  · have hlt := p.old_lt _ _ hold'
    omega
  · omega

theorem beqItems_eq {as bs as' bs' : List Value} (h : List.Forall₂ (Alike p) as bs)
    (h' : List.Forall₂ (Alike p) as' bs')
    (hitem : ∀ a ∈ as, ∀ b a' b', Alike p a b → Alike p a' b' → a.beq a' = b.beq b') :
    beqItems as as' = beqItems bs bs' := by
  induction h generalizing as' bs' with
  | nil => cases h' <;> rfl
  | @cons a b as bs hab _ ih =>
    cases h' with
    | nil => rfl
    | cons hab' hrest =>
      rw [beqItems, beqItems, hitem a List.mem_cons_self b _ _ hab hab',
        ih hrest fun c hc => hitem c (List.mem_cons_of_mem a hc)]

theorem beqEntries_eq {as bs as' bs' : List (Value × Value)} (h : Entries p as bs)
    (h' : Entries p as' bs')
    (hitem : ∀ a ∈ as, (∀ b a' b', Alike p a.1 b → Alike p a' b' → a.1.beq a' = b.beq b') ∧
      ∀ b a' b', Alike p a.2 b → Alike p a' b' → a.2.beq a' = b.beq b') :
    beqEntries as as' = beqEntries bs bs' := by
  induction h generalizing as' bs' with
  | nil => cases h' <;> rfl
  | @cons a b as bs hab _ ih =>
    cases h' with
    | nil => rfl
    | cons hab' hrest =>
      obtain ⟨hkey, hvalue⟩ := hitem a List.mem_cons_self
      rw [beqEntries, beqEntries, hkey _ _ _ hab.1 hab'.1, hvalue _ _ _ hab.2 hab'.2,
        ih hrest fun c hc => hitem c (List.mem_cons_of_mem a hc)]

theorem beq_eq (h : Alike p v w) (h' : Alike p v' w') : v.beq v' = w.beq w' := by
  have hnode : ∀ {a b a' b' : Nat}, p.nodes a b → p.nodes a' b' → (a == a') = (b == b') := by
    intro a b a' b' hab hab'
    rw [Bool.eq_iff_iff, beq_iff_eq, beq_iff_eq]
    exact nodes_inj hab hab'
  induction v generalizing w v' w' with
  | list items ih =>
    cases v' with
    | list items' =>
      cases h with
      | list h =>
        cases h' with
        | list h' => exact beqItems_eq h h' fun a ha b a' b' hab hab' => ih a ha hab hab'
    | _ =>
      cases h
      cases h'
      rfl
  | map entries ih =>
    cases v' with
    | map entries' =>
      cases h with
      | map hkeys hvalues =>
        cases h' with
        | map hkeys' hvalues' =>
          refine beqEntries_eq (forall₂_pairs.mpr ⟨hkeys, hvalues⟩)
            (forall₂_pairs.mpr ⟨hkeys', hvalues'⟩) fun a ha => ⟨?_, ?_⟩
          · exact fun b a' b' hab hab' => (ih a ha).1 hab hab'
          · exact fun b a' b' hab hab' => (ih a ha).2 hab hab'
    | _ =>
      cases h
      cases h'
      rfl
  | _ =>
    -- Scalars are the same in both runs, and of nodes only the numbers count.
    cases v'
    all_goals
      cases h
      cases h'
      first
      | rfl
      | exact hnode ‹_› ‹_›

/-! ## 3. Maps -/

theorem ofList {as bs : List (Value × Value)} (h : Entries p as bs) :
    Entries p (Deferral.Entries.ofList as) (Deferral.Entries.ofList bs) :=
  Deferral.Entries.forall₂_ofList (fun _ _ _ _ hab hab' => beq_eq hab.1 hab'.1) h

end Value.Alike

/-! ## 4. Renumbering -/

mutual

def Value.renumber (r : NodeId → NodeId) : Value → Value
  | .list items => .list (renumberItems r items)
  | .map entries => .map (renumberEntries r entries)
  | .expression node env operator left right =>
    .expression (r node) env operator (left.renumber r) (right.renumber r)
  | .call node env target args kwargs =>
    .call (r node) env (target.renumber r) (renumberItems r args) (renumberKeywords r kwargs)
  | .sequence node env head tail => .sequence (r node) env (head.renumber r) (tail.renumber r)
  | v => v

def Value.renumberItems (r : NodeId → NodeId) : List Value → List Value
  | [] => []
  | item :: rest => item.renumber r :: renumberItems r rest

def Value.renumberEntries (r : NodeId → NodeId) : List (Value × Value) → List (Value × Value)
  | [] => []
  | (key, value) :: rest => (key.renumber r, value.renumber r) :: renumberEntries r rest

def Value.renumberKeywords (r : NodeId → NodeId) : List (String × Value) → List (String × Value)
  | [] => []
  | (key, value) :: rest => (key, value.renumber r) :: renumberKeywords r rest

end

def renumbering (first second : Nat) (node : NodeId) : NodeId :=
  if node < first then node else second + (node - first)

theorem Pairing.renumbering_eq {p : Pairing} (hsame : ∀ a b, p.old a b → a = b) {a b : Nat}
    (h : p.nodes a b) : renumbering p.first p.second a = b := by
  unfold renumbering
  rcases h with hold | ⟨i, rfl, rfl⟩
  · rw [if_pos (p.old_lt a b hold).1, hsame a b hold]
  · rw [if_neg (Nat.not_lt.mpr (Nat.le_add_right p.first i)), Nat.add_sub_cancel_left]

namespace Value

variable (r : NodeId → NodeId)

theorem renumberItems_eq_map (items : List Value) :
    renumberItems r items = items.map (renumber r) := by
  induction items with
  | nil => rfl
  | cons item rest ih => rw [renumberItems, ih, List.map_cons]

theorem renumberEntries_eq_map (entries : List (Value × Value)) :
    renumberEntries r entries = entries.map (Prod.map (renumber r) (renumber r)) := by
  induction entries with
  | nil => rfl
  | cons entry rest ih => rw [renumberEntries, ih, List.map_cons, Prod.map]

theorem renumberKeywords_eq_map (kwargs : List (String × Value)) :
    renumberKeywords r kwargs = kwargs.map (Prod.map id (renumber r)) := by
  induction kwargs with
  | nil => rfl
  | cons entry rest ih => rw [renumberKeywords, ih, List.map_cons, Prod.map, id]

variable {r} in
/-- Alike values are the same after renumbering by the numbers that belong together. -/
theorem Alike.renumber_eq_of_nodes {p : Pairing} {v w : Value} (h : Alike p v w)
    (hr : ∀ a b, p.nodes a b → r a = b) : v.renumber r = w := by
  induction v generalizing w with
  | list items ih =>
    cases h with
    | list h =>
      rw [renumber, renumberItems_eq_map, map_eq_of_forall₂ (g := id) h fun a ha _ => ih a ha,
        List.map_id]
  | map entries ih =>
    cases h with
    | map hkeys hvalues =>
      have hentries := forall₂_pairs.mpr ⟨hkeys, hvalues⟩
      rw [renumber, renumberEntries_eq_map, map_eq_of_forall₂ (g := id) hentries
        fun a ha b hab => Prod.ext ((ih a ha).1 hab.1) ((ih a ha).2 hab.2), List.map_id]
  | expression node env operator left right ihleft ihright =>
    cases h with
    | expression _ hnode _ hleft hright =>
      rw [renumber, hr _ _ hnode, ihleft hleft, ihright hright]
  | call node env target args kwargs ihtarget ihargs ihkwargs =>
    cases h with
    | call hnode _ htarget hargs hnames hvalues =>
      have hkwargs := map_eq_of_forall₂ (f := Prod.map id (renumber _)) (g := id)
        (keywords_iff.mpr ⟨hnames, hvalues⟩) fun a ha b hab =>
          Prod.ext hab.1 (ihkwargs a ha hab.2)
      rw [renumber, hr _ _ hnode, ihtarget htarget, renumberItems_eq_map,
        renumberKeywords_eq_map, map_eq_of_forall₂ (g := id) hargs fun a ha _ => ihargs a ha,
        hkwargs, List.map_id, List.map_id]
  | sequence node env head tail ihhead ihtail =>
    cases h with
    | sequence hnode _ hhead htail =>
      rw [renumber, hr _ _ hnode, ihhead hhead, ihtail htail]
  | _ =>
    cases h
    rfl

theorem Alike.renumber_eq {p : Pairing} {v w : Value} (h : Alike p v w)
    (hsame : ∀ a b, p.old a b → a = b) : v.renumber (renumbering p.first p.second) = w :=
  h.renumber_eq_of_nodes fun _ _ => Pairing.renumbering_eq hsame

end Value

/-! ## 5. Arithmetic -/

/-- A failure that depends on values alone: a calculation without a result, or a value that does not
fit its use. -/
inductive Failure.OfValues : Failure → Prop
  | arithmetic (fault : ArithmeticFault) : OfValues (.arithmetic fault)
  | mismatch (cause : Mismatch) : OfValues (.mismatch cause)

section
variable {p : Pairing} {v w v' w' : Value}

abbrev Pairing.Outcomes (p : Pairing) (outcome outcome' : Except Failure Value) : Prop :=
  Eval.Alike Failure.OfValues (Value.Alike p) outcome outcome'

theorem Operator.applyInt_alike (operator : Operator) (a b : Int64) :
    p.Outcomes (operator.applyInt a b) (operator.applyInt a b) := by
  unfold applyInt
  extract_lets outcome?
  clear_value outcome?
  cases outcome? with
  | none => exact .error (.arithmetic _)
  | some exact =>
    dsimp only
    split
    · exact .ok (.int _)
    · exact .error (.arithmetic _)

theorem Operator.applyFloat_alike (operator : Operator) (a b : Double) :
    p.Outcomes (operator.applyFloat a b) (operator.applyFloat a b) := by
  unfold applyFloat
  split
  · exact .ok (.float _)
  · exact .ok (.float _)
  · exact .ok (.float _)
  · split
    · exact .error (.arithmetic _)
    · exact .ok (.float _)

theorem repetitions_ofValues {count : Int64} {length : Nat} {failure : Failure}
    (h : repetitions count length = .error failure) : failure.OfValues := by
  unfold repetitions at h
  split at h
  · cases h
  · split at h <;> cases h
    exact .arithmetic _

theorem repeatText_alike (s : String) (count : Int64) :
    p.Outcomes (repeatText s count) (repeatText s count) := by
  unfold repeatText
  cases hn : repetitions count s.utf8ByteSize with
  | error failure => exact .error (repetitions_ofValues hn)
  | ok n => exact .ok (.str _)

theorem repeatItems_alike {items items' : List Value}
    (h : List.Forall₂ (Value.Alike p) items items') (count : Int64) :
    p.Outcomes (repeatItems items count) (repeatItems items' count) := by
  have hreplicate : ∀ n, List.Forall₂ (List.Forall₂ (Value.Alike p)) (List.replicate n items)
      (List.replicate n items') := by
    intro n
    induction n with
    | zero => exact .nil
    | succ n ih => exact .cons h ih
  unfold repeatItems
  rw [h.length_eq]
  cases hn : repetitions count items'.length with
  | error failure => exact .error (repetitions_ofValues hn)
  | ok n => exact .ok (.list (List.rel_flatten (hreplicate n)))

theorem Operator.compute_alike (operator : Operator) (hleft : Value.Alike p v v')
    (hright : Value.Alike p w w') :
    p.Outcomes (operator.compute v w) (operator.compute v' w') := by
  have hmismatch : p.Outcomes
      (.error (.mismatch (.operands operator v.typeName w.typeName)))
      (.error (.mismatch (.operands operator v'.typeName w'.typeName))) := by
    rw [hleft.typeName_eq, hright.typeName_eq]
    exact .error (.mismatch _)
  cases hleft with
  | int a =>
    cases hright with
    | int b => exact operator.applyInt_alike a b
    | float b => exact operator.applyFloat_alike _ b
    | str s =>
      cases operator
      case multiply => exact repeatText_alike s a
      all_goals exact hmismatch
    | list h =>
      cases operator
      case multiply => exact repeatItems_alike h a
      all_goals exact hmismatch
    | _ => cases operator <;> exact hmismatch
  | float a =>
    cases hright with
    | int b => exact operator.applyFloat_alike a _
    | float b => exact operator.applyFloat_alike a b
    | _ => cases operator <;> exact hmismatch
  | str s =>
    cases hright with
    | int b =>
      cases operator
      case multiply => exact repeatText_alike s b
      all_goals exact hmismatch
    | str t =>
      cases operator
      case add => exact .ok (.str _)
      all_goals exact hmismatch
    | _ => cases operator <;> exact hmismatch
  | list h =>
    cases hright with
    | int b =>
      cases operator
      case multiply => exact repeatItems_alike h b
      all_goals exact hmismatch
    | list h' =>
      cases operator
      case add => exact .ok (.list (List.rel_append h h'))
      all_goals exact hmismatch
    | _ => cases operator <;> exact hmismatch
  | _ => cases operator <;> exact hmismatch

/-! ## 6. Built-in functions -/

theorem toInteger_alike (h : Value.Alike p v w) : p.Outcomes (toInteger v) (toInteger w) := by
  cases h with
  | int n => exact .ok (.int n)
  | bool b => exact .ok (.int _)
  | float x =>
    unfold toInteger
    dsimp only
    split
    · exact .ok (.int _)
    · exact .error (.arithmetic _)
  | str s =>
    unfold toInteger
    dsimp only
    split
    · exact .ok (.int _)
    · exact .error (.mismatch _)
  | _ => exact .error (.mismatch _)

theorem toFloat_alike (h : Value.Alike p v w) : p.Outcomes (toFloat v) (toFloat w) := by
  cases h with
  | int n => exact .ok (.float _)
  | bool b => exact .ok (.float _)
  | float x => exact .ok (.float x)
  | str s =>
    unfold toFloat
    dsimp only
    split
    · exact .ok (.float _)
    · exact .error (.mismatch _)
  | _ => exact .error (.mismatch _)

theorem lengthOf_alike (h : Value.Alike p v w) : p.Outcomes (lengthOf v) (lengthOf w) := by
  cases h with
  | str s => exact .ok (.int _)
  | list hitems =>
    rw [lengthOf, lengthOf, hitems.length_eq]
    exact .ok (.int _)
  | map hkeys _ =>
    have hlength := hkeys.length_eq
    rw [List.length_map, List.length_map] at hlength
    rw [lengthOf, lengthOf, hlength]
    exact .ok (.int _)
  | _ => exact .error (.mismatch _)

theorem absolute_alike (h : Value.Alike p v w) : p.Outcomes (absolute v) (absolute w) := by
  cases h with
  | int n =>
    unfold absolute
    dsimp only
    split
    · exact .error (.arithmetic _)
    · exact .ok (.int _)
  | float x => exact .ok (.float _)
  | _ => exact .error (.mismatch _)

theorem compareValues_alike (hleft : Value.Alike p v v') (hright : Value.Alike p w w') :
    Eval.Alike Failure.OfValues Eq (compareValues v w) (compareValues v' w') := by
  -- Only numbers and strings are compared, and these are the same in both runs.
  have hsame : compareValues v w = compareValues v' w' := by
    cases hleft <;> cases hright <;> rfl
  rw [hsame]
  unfold compareValues
  extract_lets order?
  clear_value order?
  cases order? with
  | none => exact .error (.mismatch _)
  | some order => exact .ok rfl

theorem best_alike (wanted : Ordering) {rest rest' : List Value} (h : Value.Alike p v v')
    (hrest : List.Forall₂ (Value.Alike p) rest rest') :
    p.Outcomes (best wanted v rest) (best wanted v' rest') := by
  induction hrest generalizing v v' with
  | nil => exact .ok h
  | @cons a b as bs hab _ ih =>
    rw [best, best]
    have horder := compareValues_alike hab h
    generalize compareValues a v = x, compareValues b v' = y at horder ⊢
    cases horder with
    | error hf => exact .error hf
    | @ok order _ heq =>
      subst heq
      refine ih ?_
      split
      · exact hab
      · exact h

theorem extremum_alike (builtin : Builtin) (wanted : Ordering) {args args' : List Value}
    (h : List.Forall₂ (Value.Alike p) args args') :
    p.Outcomes (extremum builtin wanted args) (extremum builtin wanted args') := by
  have hcandidates : ∀ {as bs : List Value}, List.Forall₂ (Value.Alike p) as bs →
      p.Outcomes
        (match as with
        | [] => .error (.mismatch (.noCandidates builtin))
        | first :: rest => best wanted first rest)
        (match bs with
        | [] => .error (.mismatch (.noCandidates builtin))
        | first :: rest => best wanted first rest) := by
    intro as bs has
    cases has with
    | nil => exact .error (.mismatch _)
    | cons hfirst hrest => exact best_alike wanted hfirst hrest
  have hall := hcandidates h
  cases h with
  | nil => exact hall
  | cons hfirst hrest =>
    -- The only argument stands for its items if it is a list.
    cases hrest with
    | nil =>
      cases hfirst with
      | list hitems => exact hcandidates hitems
      | _ => exact hall
    | cons => cases hfirst <;> exact hall

namespace Builtin

theorem countOf_alike (h : Value.Alike p v w) :
    Eval.Alike Failure.OfValues Eq (countOf v) (countOf w) := by
  cases h with
  | int n =>
    unfold countOf
    dsimp only
    split
    · exact .ok rfl
    · exact .error (.mismatch _)
  | _ => exact .error (.mismatch _)

variable {kwargs kwargs' : List (String × Value)} (hkwargs : Value.Alike.Keywords p kwargs kwargs')
include hkwargs

theorem validate_alike (builtin : Builtin) (given : Nat) :
    Eval.Alike Failure.OfValues Eq (builtin.validate given kwargs)
      (builtin.validate given kwargs') := by
  have hfind : Option.Rel (fun a b => a.1 = b.1)
      (kwargs.find? fun entry => entry.1 ∉ builtin.keywords)
      (kwargs'.find? fun entry => entry.1 ∉ builtin.keywords) := by
    induction hkwargs with
    | nil => exact .none
    | @cons a b as bs hab _ ih =>
      rw [List.find?_cons, List.find?_cons, hab.1]
      split
      · exact .some hab.1
      · exact ih
  unfold validate
  split
  · generalize List.find? _ kwargs = x, List.find? _ kwargs' = y at hfind ⊢
    cases hfind with
    | none => exact .ok rfl
    | @some a b hab =>
      obtain ⟨key, value⟩ := a
      obtain ⟨key', value'⟩ := b
      obtain rfl : key = key' := hab
      exact .error (.mismatch _)
  · exact .error (.mismatch _)

theorem keywordText_alike (key default : String) :
    Eval.Alike Failure.OfValues Eq (keywordText kwargs key default)
      (keywordText kwargs' key default) := by
  have hlookup : Option.Rel (Value.Alike p) (kwargs.lookup key) (kwargs'.lookup key) := by
    induction hkwargs with
    | nil => exact .none
    | @cons a b as bs hab _ ih =>
      rw [List.lookup_cons, List.lookup_cons, hab.1]
      split
      · exact .some hab.2
      · exact ih
  unfold keywordText
  generalize kwargs.lookup key = x, kwargs'.lookup key = y at hlookup ⊢
  cases hlookup with
  | none => exact .ok rfl
  | some h =>
    cases h with
    | nil => exact .ok rfl
    | str s => exact .ok rfl
    | _ => exact .error (.mismatch _)

end Builtin

/-! ## 7. Text -/

namespace Value

theorem quotedItems_eq (done : List String) (items : List Value) :
    quotedItems done items = done.reverse ++ items.map quoted := by
  induction items generalizing done with
  | nil => simp [quotedItems]
  | cons item rest ih => simp [quotedItems, ih]

theorem quotedEntries_eq (done : List String) (entries : List (Value × Value)) :
    quotedEntries done entries =
      done.reverse ++ entries.map fun entry => entry.1.quoted ++ ": " ++ entry.2.quoted := by
  induction entries generalizing done with
  | nil => simp [quotedEntries]
  | cons entry rest ih => simp [quotedEntries, ih]

theorem quotedKeywords_eq (kwargs : List (String × Value)) :
    quotedKeywords kwargs = kwargs.map fun entry => entry.1 ++ "=" ++ entry.2.quoted := by
  induction kwargs with
  | nil => rfl
  | cons entry rest ih => simp [quotedKeywords, ih]

theorem quoted_call {node : NodeId} {env : EnvId} {target : Value} {args : List Value}
    {kwargs : List (String × Value)} (htarget : target.typeName ≠ .function) :
    (call node env target args kwargs).quoted =
      target.quoted ++ "(" ++ ", ".intercalate (quotedItems [] args ++ quotedKeywords kwargs) ++
        ")" := by
  cases target <;> first | rfl | exact absurd rfl htarget

/-- Numbers of nodes do not show. -/
theorem Alike.quoted_eq (h : Alike p v w) : v.quoted = w.quoted := by
  induction v generalizing w with
  | list items ih =>
    cases h with
    | list h =>
      rw [quoted, quoted, quotedItems_eq, quotedItems_eq,
        map_eq_of_forall₂ h fun a ha b hab => ih a ha hab]
  | map entries ih =>
    cases h with
    | map hkeys hvalues =>
      rw [quoted, quoted, quotedEntries_eq, quotedEntries_eq,
        map_eq_of_forall₂ (forall₂_pairs.mpr ⟨hkeys, hvalues⟩) fun a ha b hab => by
          rw [(ih a ha).1 hab.1, (ih a ha).2 hab.2]]
  | expression node env operator left right ihleft ihright =>
    cases h with
    | expression _ _ _ hleft hright =>
      rw [quoted, quoted, ihleft hleft, ihright hright]
  | call node env target args kwargs ihtarget ihargs ihkwargs =>
    cases h with
    | @call _ _ _ _ _ _ args' _ kwargs' _ _ htarget hargs hnames hvalues =>
      have hkwargs := keywords_iff.mpr ⟨hnames, hvalues⟩
      have htexts : quotedItems [] args ++ quotedKeywords kwargs =
          quotedItems [] args' ++ quotedKeywords kwargs' := by
        rw [quotedItems_eq, quotedKeywords_eq,
          map_eq_of_forall₂ hargs fun a ha b hab => ihargs a ha hab,
          map_eq_of_forall₂ hkwargs fun a ha b hab => by rw [hab.1, ihkwargs a ha hab.2],
          ← quotedItems_eq, ← quotedKeywords_eq]
      by_cases hfunction : target.typeName = .function
      · -- A function is shown by its name alone.
        cases target <;> cases hfunction
        cases htarget
        rw [quoted, quoted, htexts]
      · rw [quoted_call hfunction, quoted_call (htarget.typeName_eq ▸ hfunction), htexts,
          ihtarget htarget]
  | sequence node env head tail ihhead ihtail =>
    cases h with
    | sequence _ _ hhead htail => rw [quoted, quoted, ihhead hhead, ihtail htail]
  | _ =>
    cases h
    rfl

end Value

namespace Json

open Json (ofValue ofItems ofEntries)

abbrev Unserializable.asText {α : Type} (result : Except Unserializable α) : Except String α :=
  result.mapError Unserializable.message

theorem Unserializable.asText_bind {α β : Type} (result : Except Unserializable α)
    (next : α → Except Unserializable β) :
    asText (result >>= next) = asText result >>= fun a => asText (next a) := by
  cases result <;> rfl

theorem Unserializable.asText_map {α β : Type} (f : α → β) (result : Except Unserializable α) :
    asText (result.map f) = (asText result).map f := by
  cases result <;> rfl

/-- A value that is refused is shown by its quoted text. -/
theorem Unserializable.asText_error {α : Type} {v w : Value} (h : Value.Alike p v w) :
    asText (.error ⟨v⟩ : Except Unserializable α) = asText (.error ⟨w⟩) :=
  congrArg (fun text => Except.error ("Unable to serialize value: " ++ text)) h.quoted_eq

theorem ofItems_eq {items items' : List Value} (h : List.Forall₂ (Value.Alike p) items items')
    (hitem : ∀ a ∈ items, ∀ b, Value.Alike p a b →
      Unserializable.asText (ofValue a) = Unserializable.asText (ofValue b)) :
    Unserializable.asText (ofItems items) = Unserializable.asText (ofItems items') := by
  induction h with
  | nil => rfl
  | @cons a b as bs hab _ ih =>
    have hfirst := hitem a List.mem_cons_self b hab
    have hrest := ih fun c hc => hitem c (List.mem_cons_of_mem a hc)
    rw [ofItems, ofItems, Unserializable.asText_bind, Unserializable.asText_bind, hfirst]
    congr 1
    funext item
    rw [Unserializable.asText_bind, Unserializable.asText_bind, hrest]

theorem ofEntries_eq {whole whole' : Value} {entries entries' : List (Value × Value)}
    (hwhole : Value.Alike p whole whole') (h : Value.Alike.Entries p entries entries')
    (hvalue : ∀ a ∈ entries, ∀ b, Value.Alike p a.2 b →
      Unserializable.asText (ofValue a.2) = Unserializable.asText (ofValue b)) :
    Unserializable.asText (ofEntries whole entries) =
      Unserializable.asText (ofEntries whole' entries') := by
  induction h with
  | nil => rfl
  | @cons a b as bs hab _ ih =>
    have hfirst := hvalue a List.mem_cons_self b.2 hab.2
    have hrest := ih fun c hc => hvalue c (List.mem_cons_of_mem a hc)
    obtain ⟨key, value⟩ := a
    obtain ⟨key', value'⟩ := b
    by_cases htext : key.typeName = .str
    · cases key <;> cases htext
      cases hab.1
      rw [ofEntries, ofEntries, Unserializable.asText_bind, Unserializable.asText_bind, hfirst]
      congr 1
      funext item
      rw [Unserializable.asText_bind, Unserializable.asText_bind, hrest]
    · -- A key that is no string is to blame on the whole map.
      have hrefuse : ∀ {whole key value rest}, key.typeName ≠ .str →
          ofEntries whole ((key, value) :: rest) = .error ⟨whole⟩ := by
        intro whole key value rest hkey
        cases key <;> first | rfl | exact absurd rfl hkey
      rw [hrefuse htext, hrefuse (hab.1.typeName_eq ▸ htext)]
      exact Unserializable.asText_error hwhole

theorem ofValue_eq {v w : Value} (h : Value.Alike p v w) :
    Unserializable.asText (ofValue v) = Unserializable.asText (ofValue w) := by
  induction v generalizing w with
  | list items ih =>
    cases h with
    | list h =>
      rw [ofValue, ofValue, Unserializable.asText_map, Unserializable.asText_map,
        ofItems_eq h fun a ha b hab => ih a ha hab]
  | map entries ih =>
    have hwhole := h
    cases h with
    | map hkeys hvalues =>
      rw [ofValue, ofValue, Unserializable.asText_map, Unserializable.asText_map,
        ofEntries_eq hwhole (forall₂_pairs.mpr ⟨hkeys, hvalues⟩) fun a ha b hab => (ih a ha).2 hab]
  | expression | call | sequence =>
    have hrefused := @Unserializable.asText_error p Json _ _ h
    cases h
    exact hrefused
  | _ =>
    cases h
    rfl

end Json

end

end Deferral
