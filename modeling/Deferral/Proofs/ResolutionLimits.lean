import Deferral.Proofs.Grounded
import Deferral.Proofs.StrictEvaluation
import Mathlib.Data.Fintype.Card
import Mathlib.Data.Set.Finite.Basic

/-!
# The limits of resolution

A value of integers, names and expressions whose names never lead back to themselves can be written
out in full, with every name replaced by what it stands for (`Value.UnfoldsTo`).  Two numbers can be
read off: how deep its deferred values nest, and how many of them stand for one another in a row.
Resolution from some depth succeeds exactly if neither goes beyond the limit
(`Value.resolve_limits`).
-/

namespace Deferral

open Eval Relation

/-! ## 1. Values written out -/

inductive Unfolding where
  | scalar (n : Int64)
  /-- A name, and what it stands for. -/
  | named (next : Unfolding)
  | operation (operator : Operator) (left right : Unfolding)

namespace Unfolding

def value? : Unfolding → Option Int64
  | .scalar n => some n
  | .named next => next.value?
  | .operation operator left right =>
    match left.value?, right.value? with
    | some a, some b =>
      match Datum.combine? operator (.int a.toInt) (.int b.toInt) with
      | some (.int n) => some (Int64.ofInt n)
      | _ => none
    | _, _ => none

def target : Unfolding → Unfolding
  | .named next => next.target
  | u => u

/-- Whether no names are left out, so that only expressions nest. -/
def nameless : Unfolding → Bool
  | .scalar _ => true
  | .named _ => false
  | .operation _ left right => left.nameless && right.nameless

/-- How deep deferred values nest.  Names in a row take one level together, and so do an expression
and the names that lead to it. -/
def nest : Unfolding → Nat
  | .scalar _ => 0
  | .named next => max 1 next.nest
  | .operation _ left right => 1 + max left.nest right.nest

/-- How many steps lead to an integer: one for each name, and one for an expression at their end. -/
def layers : Unfolding → Nat
  | .scalar _ => 0
  | .named next => next.layers + 1
  | .operation .. => 1

def layersBelow : Unfolding → Nat
  | .scalar _ => 0
  | .named next => next.layersBelow
  | .operation _ left right =>
    max (max left.layers left.layersBelow) (max right.layers right.layersBelow)

def Fits (u : Unfolding) (room : Nat) : Prop :=
  u.nest ≤ room ∧ u.layers ≤ depthLimit ∧ u.layersBelow ≤ depthLimit

instance (u : Unfolding) (room : Nat) : Decidable (u.Fits room) :=
  inferInstanceAs (Decidable (_ ∧ _))

/-- Behind its names, a deferred value nests one level deeper than the operands found there. -/
theorem nest_named (next : Unfolding) : (Unfolding.named next).nest =
    match next.target with
    | .operation _ left right => 1 + max left.nest right.nest
    | _ => 1 := by
  induction next with
  | scalar n => rfl
  | named next ih => rw [nest, ih, target]; split <;> omega
  | operation operator left right =>
    show max 1 (1 + max left.nest right.nest) = 1 + max left.nest right.nest
    omega

theorem nest_iterate_named (count : Nat) (n : Int64) :
    (Unfolding.named^[count + 1] (.scalar n)).nest = 1 := by
  induction count with
  | zero => rfl
  | succ count ih => rw [Function.iterate_succ_apply', nest, ih, Nat.max_self]

theorem layers_iterate_named (count : Nat) (n : Int64) :
    (Unfolding.named^[count] (.scalar n)).layers = count := by
  induction count with
  | zero => rfl
  | succ count ih => rw [Function.iterate_succ_apply', layers, ih]

theorem layersBelow_iterate_named (count : Nat) (n : Int64) :
    (Unfolding.named^[count] (.scalar n)).layersBelow = 0 := by
  induction count with
  | zero => rfl
  | succ count ih => rw [Function.iterate_succ_apply', layersBelow, ih]

/-- Names in a row fit if there are no more of them than may stand in a row. -/
theorem fits_iterate_named (count : Nat) (n : Int64) :
    (Unfolding.named^[count] (.scalar n)).Fits depthLimit ↔ count ≤ depthLimit := by
  rw [Fits, layers_iterate_named, layersBelow_iterate_named]
  cases count with
  | zero => exact ⟨And.left ∘ And.right, fun h => ⟨Nat.zero_le _, h, Nat.zero_le _⟩⟩
  | succ count =>
    rw [nest_iterate_named]
    exact ⟨And.left ∘ And.right, fun h => ⟨by decide, h, Nat.zero_le _⟩⟩

/-- Without names, one step leads from every expression to its integer. -/
theorem layers_le_one {u : Unfolding} (h : u.nameless = true) :
    u.layers ≤ 1 ∧ u.layersBelow ≤ 1 := by
  induction u with
  | scalar n => exact ⟨Nat.zero_le _, Nat.zero_le _⟩
  | named next => cases h
  | operation operator left right ihleft ihright =>
    rw [nameless, Bool.and_eq_true] at h
    have hleft := ihleft h.1
    have hright := ihright h.2
    simp only [layers, layersBelow]
    omega

/-- Expressions without names fit if they nest no deeper than values may nest. -/
theorem fits_nameless {u : Unfolding} (h : u.nameless = true) :
    u.Fits depthLimit ↔ u.nest ≤ depthLimit := by
  obtain ⟨hlayers, hbelow⟩ := layers_le_one h
  have hlimit : 1 ≤ depthLimit := by decide
  exact ⟨And.left, fun hnest => ⟨hnest, hlayers.trans hlimit, hbelow.trans hlimit⟩⟩

end Unfolding

/-! ## 2. Names that lead to an end -/

namespace Value

inductive IsArithmetic : Value → Prop
  | int (n : Int64) : IsArithmetic (.int n)
  | symbol (env : EnvId) (name : String) : IsArithmetic (.symbol env name)
  | expression {node env operator left right} : IsArithmetic left → IsArithmetic right →
      IsArithmetic (.expression node env operator left right)

/-- A value of integers, symbols and expressions.  Every symbol that it reaches is bound to such a
value, in an environment that exists, and none of them reaches itself. -/
structure IsAcyclic (store : Store) (v : Value) : Prop where
  arithmetic : v.IsArithmetic
  bound (s : EnvId × String) : v.Reaches store s →
    ∃ w, store.visible? s.1 s.2 = some w ∧ w.IsArithmetic
  acyclic (s : EnvId × String) : v.Reaches store s → ¬ TransGen store.Depends s s

inductive UnfoldsTo (store : Store) : Value → Unfolding → Prop
  | int (n : Int64) : UnfoldsTo store (.int n) (.scalar n)
  | symbol {env name w next} : store.visible? env name = some w → UnfoldsTo store w next →
      UnfoldsTo store (.symbol env name) (.named next)
  | expression {node env operator left right l r} : UnfoldsTo store left l →
      UnfoldsTo store right r →
      UnfoldsTo store (.expression node env operator left right) (.operation operator l r)

variable {store : Store} {v : Value} {u u' : Unfolding}

theorem UnfoldsTo.unique (h : v.UnfoldsTo store u) (h' : v.UnfoldsTo store u') : u = u' := by
  induction h generalizing u' with
  | int n => cases h'; rfl
  | symbol hbound _ ih =>
    cases h' with
    | symbol hbound' h' =>
      rw [hbound, Option.some.injEq] at hbound'
      rw [ih (hbound' ▸ h')]
  | expression _ _ ihleft ihright =>
    cases h' with
    | expression hleft' hright' => rw [ihleft hleft', ihright hright']

theorem IsArithmetic.exists_unfolding (hv : v.IsArithmetic)
    (h : ∀ s, v.Needs s → ∃ u, (Value.symbol s.1 s.2).UnfoldsTo store u) :
    ∃ u, v.UnfoldsTo store u := by
  induction hv with
  | int n => exact ⟨_, .int n⟩
  | symbol env name => exact h _ (.symbol env name)
  | expression _ _ ihleft ihright =>
    obtain ⟨l, hl⟩ := ihleft fun s hs => h s (.left hs)
    obtain ⟨r, hr⟩ := ihright fun s hs => h s (.right hs)
    exact ⟨_, .expression hl hr⟩

end Value

/-! ## 3. Every acyclic value unfolds -/

/-- Finitely many symbols are bound in environments that exist. -/
theorem Store.finite_visible (store : Store) :
    {s : EnvId × String | ∃ w, store.visible? s.1 s.2 = some w}.Finite := by
  let symbols := store.environments.zipIdx.flatMap fun environment =>
    environment.1.bindings.map fun entry => (environment.2, entry.1)
  refine symbols.finite_toSet.subset ?_
  rintro ⟨env, name⟩ ⟨w, hw⟩
  obtain ⟨environment, hlive, hbound⟩ := Option.bind_eq_some_iff.mp hw
  have henv : store.environments[env]? = some environment :=
    (Option.filter_eq_some_iff.mp hlive).1
  show (env, name) ∈ symbols
  refine List.mem_flatMap.mpr ⟨(environment, env), ?_, ?_⟩
  · exact List.mk_mem_zipIdx_iff_getElem?.mpr henv
  · exact List.mem_map.mpr ⟨_, Bindings.mem_of_get? hbound, rfl⟩

/-- Among finitely many symbols without a cycle, a symbol that depends on another one comes after
it. -/
theorem Store.wellFounded_depends {store : Store} {symbols : Set (EnvId × String)}
    (hfinite : symbols.Finite) (hacyclic : ∀ s ∈ symbols, ¬ TransGen store.Depends s s) :
    WellFounded fun t s : symbols => store.Depends s t := by
  have : Finite symbols := hfinite
  let below (t s : symbols) : Prop := TransGen store.Depends s t
  have : IsTrans symbols below := ⟨fun _ _ _ hab hbc => TransGen.trans hbc hab⟩
  have : Std.Irrefl below := ⟨fun s => hacyclic s s.2⟩
  exact Subrelation.wf TransGen.single (Finite.wellFounded_of_trans_of_irrefl below)

namespace Value

variable {store : Store} {v : Value} {u : Unfolding}

theorem IsAcyclic.exists_unfolding (h : v.IsAcyclic store) : ∃ u, v.UnfoldsTo store u := by
  have hfinite : {s | v.Reaches store s}.Finite :=
    store.finite_visible.subset fun s hs => (h.bound s hs).imp fun _ hw => hw.1
  have hwf := Store.wellFounded_depends hfinite fun s hs => h.acyclic s hs
  -- A symbol unfolds after all those that its binding needs.
  have hsymbols (s : {s | v.Reaches store s}) :
      ∃ u, (Value.symbol s.1.1 s.1.2).UnfoldsTo store u := by
    induction s using hwf.induction with
    | _ s ih =>
      obtain ⟨w, hbound, hw⟩ := h.bound s s.2
      obtain ⟨first, hfirst, hpath⟩ := s.2
      obtain ⟨next, hnext⟩ := hw.exists_unfolding fun t ht =>
        have hdepends : store.Depends s t := ⟨w, Store.binding?_of_visible? hbound, ht⟩
        ih ⟨t, first, hfirst, hpath.tail hdepends⟩ hdepends
      exact ⟨_, .symbol hbound hnext⟩
  exact h.arithmetic.exists_unfolding fun s hs => hsymbols ⟨s, s, hs, .refl⟩

end Value

/-! ## 4. Resolution -/

structure Eval.GivesIf (fits : Prop) (n : Int64) (store : Store) (action : Eval Value) : Prop where
  gives : fits → action.Ends store (.ok (.int n)) store
  deep : ¬ fits → action.Ends store (.error .tooDeep) store

namespace Eval.GivesIf

variable {fits fits' : Prop} {n : Int64} {store : Store} {action : Eval Value}

theorem congr (h : action.GivesIf fits n store) (hiff : fits ↔ fits') :
    action.GivesIf fits' n store :=
  ⟨fun hfits => h.gives (hiff.mpr hfits), fun hdeep => h.deep (mt hiff.mp hdeep)⟩

/-- If either of two computations in a row is too deep, so is the whole. -/
theorem bind {a : Int64} {next : Value → Eval Value} (h : action.GivesIf fits a store)
    (hnext : (next (.int a)).GivesIf fits' n store) :
    (action >>= next).GivesIf (fits ∧ fits') n store := by
  refine ⟨fun hboth => (h.gives hboth.1).bind (hnext.gives hboth.2), fun hdeep => ?_⟩
  by_cases hfits : fits
  · exact (h.gives hfits).bind (hnext.deep fun hfits' => hdeep ⟨hfits, hfits'⟩)
  · exact (h.deep hfits).bind_error

theorem ends [Decidable fits] (h : action.GivesIf fits n store) :
    action.Ends store (if fits then .ok (.int n) else .error .tooDeep) store := by
  split
  · exact h.gives ‹_›
  · exact h.deep ‹_›

theorem ends_ok_iff (h : action.GivesIf fits n store) :
    action.Ends store (.ok (.int n)) store ↔ fits := by
  refine ⟨fun hends => ?_, h.gives⟩
  by_contra hdeep
  cases (hends.unique (h.deep hdeep)).1

end Eval.GivesIf

namespace Unfolding

variable {operator : Operator} {left right : Unfolding} {n : Int64}

theorem value?_operation (h : (operation operator left right).value? = some n) :
    ∃ a b, left.value? = some a ∧ right.value? = some b ∧
      operator.applyInt a b = .ok (.int n) := by
  rw [value?] at h
  split at h
  · rename_i a b hleft hright
    split at h
    · rename_i exact hexact
      obtain ⟨m, happly, hm⟩ := Operator.applyInt_eq hexact
      cases hm
      rw [Option.some.injEq, Int64.ofInt_toInt] at h
      exact ⟨a, b, hleft, hright, h ▸ happly⟩
    · cases h
  · cases h

def Unwinds (u : Unfolding) (room left : Nat) : Prop :=
  u.nest ≤ room + 1 ∧ u.layers ≤ left ∧ u.layersBelow ≤ depthLimit

theorem unwinds_named (next : Unfolding) (room left : Nat) :
    (Unfolding.named next).Unwinds room (left + 1) ↔ next.Unwinds room left := by
  simp only [Unwinds, nest, layers, layersBelow]
  omega

theorem unwinds_operation (operator : Operator) (left right : Unfolding) (room steps : Nat) :
    (operation operator left right).Unwinds room (steps + 1) ↔
      left.Fits room ∧ right.Fits room := by
  simp only [Unwinds, Fits, nest, layers, layersBelow]
  omega

end Unfolding

namespace Value

variable {store : Store} {v : Value} {u : Unfolding} {n : Int64} {patience room : Nat}

/-- A value with an unfolding is an integer, or it is deferred and no sequence. -/
theorem UnfoldsTo.int_or_deferred (h : v.UnfoldsTo store u) :
    (∃ n, v = .int n ∧ u = .scalar n) ∨
      v.isDeferred = true ∧ v.isSequence = false ∧ 0 < u.nest := by
  cases h with
  | int n => exact .inl ⟨n, rfl, rfl⟩
  | symbol => exact .inr ⟨rfl, rfl, by rw [Unfolding.nest]; omega⟩
  | expression => exact .inr ⟨rfl, rfl, by rw [Unfolding.nest]; omega⟩

theorem UnfoldsTo.resolve_of_unwind (h : v.UnfoldsTo store u) (hn : u.value? = some n)
    (hunwind : v.isDeferred = true → ∀ room left,
      (v.unwind ⟨resolve patience room, patience⟩ left).GivesIf (u.Unwinds room left) n store) :
    (v.resolve patience room).GivesIf (u.Fits room) n store := by
  obtain ⟨m, rfl, rfl⟩ | ⟨hdeferred, hsequence, hnest⟩ := h.int_or_deferred
  · cases hn
    have hends : ((Value.int n).resolve patience room).Ends store (.ok (.int n)) store := by
      cases room <;> rfl
    exact ⟨fun _ => hends, fun hdeep => absurd ⟨room.zero_le, Nat.zero_le _, Nat.zero_le _⟩ hdeep⟩
  · cases room with
    | zero =>
      -- Without room a deferred value is refused before anything is looked up.
      rw [resolve, resolveWith_deferred _ hdeferred hsequence]
      exact ⟨fun hfits => absurd hfits.1 (by omega), fun _ => ends_throw.mpr ⟨rfl, rfl⟩⟩
    | succ room =>
      rw [resolve, resolveWith_deferred _ hdeferred hsequence]
      have hrest : (resolve patience room (.int n)).GivesIf True n store :=
        ⟨fun _ => by cases room <;> rfl, fun hfalse => absurd trivial hfalse⟩
      exact ((hunwind hdeferred room depthLimit).bind hrest).congr (iff_of_eq (and_true _))

/-- One step is enough where it leads to an integer. -/
theorem unwind_forced {forcing : Forcing} {fits : Prop} {steps : Nat}
    (h : (v.forceOnce forcing).GivesIf fits n store) :
    (v.unwind forcing (steps + 1)).GivesIf fits n store := by
  rw [Value.unwind]
  exact ⟨fun hfits => (h.gives hfits).bind rfl, fun hdeep => (h.deep hdeep).bind_error⟩

/-- A deferred value unwinds to its integer if there are steps enough, and room for what is below
it. -/
theorem UnfoldsTo.unwind (h : v.UnfoldsTo store u) (hn : u.value? = some n)
    (hdeferred : v.isDeferred = true) (room steps : Nat) :
    (v.unwind ⟨resolve patience room, patience⟩ steps).GivesIf (u.Unwinds room steps) n store := by
  -- The induction is on what the value unfolds to: a name takes a step and leaves the room as it
  -- is, the operands of an expression are resolved on their own.
  induction h generalizing n room steps with
  | int => cases hdeferred
  | @symbol env name w next hbound hw ih =>
    cases steps with
    | zero => exact ⟨fun hsteps => absurd hsteps.2.1 (Nat.not_succ_le_zero _), fun _ => rfl⟩
    | succ steps =>
      have hstep : ((Value.symbol env name).forceOnce ⟨resolve patience room, patience⟩).Ends
          store (.ok w) store := forceOnce_symbol_ends.mpr ⟨hbound, rfl⟩
      rw [Value.unwind]
      have hfound : (if w.isDeferred && !w.isSequence then
          w.unwind ⟨resolve patience room, patience⟩ steps else return w).GivesIf
            (next.Unwinds room steps) n store := by
        obtain ⟨m, rfl, rfl⟩ | ⟨hwdeferred, hwsequence, -⟩ := hw.int_or_deferred
        · cases hn
          refine ⟨fun _ => rfl, fun hdeep => absurd ?_ hdeep⟩
          exact ⟨Nat.zero_le _, Nat.zero_le _, Nat.zero_le _⟩
        · simpa [hwdeferred, hwsequence] using ih hn hwdeferred room steps
      exact ⟨fun hfits => hstep.bind (hfound.gives ((Unfolding.unwinds_named ..).mp hfits)),
        fun hdeep => hstep.bind (hfound.deep (mt (Unfolding.unwinds_named ..).mpr hdeep))⟩
  | @expression node env operator left right l r hleft hright ihleft ihright =>
    cases steps with
    | zero => exact ⟨fun hsteps => absurd hsteps.2.1 (Nat.not_succ_le_zero 0), fun _ => rfl⟩
    | succ steps =>
      obtain ⟨a, b, ha, hb, happly⟩ := Unfolding.value?_operation hn
      have hfirst : (resolve patience room left).GivesIf (l.Fits room) a store :=
        hleft.resolve_of_unwind ha (ihleft ha)
      have hsecond : (resolve patience room right).GivesIf (r.Fits room) b store :=
        hright.resolve_of_unwind hb (ihright hb)
      have hcombined : (operator.apply env (.int a) (.int b)).GivesIf True n store := by
        refine ⟨fun _ => ?_, fun hfalse => absurd trivial hfalse⟩
        show (operator.apply env (.int a) (.int b)).Ends store (.ok (.int n)) store
        cases operator <;> exact ends_ofExcept.mpr ⟨happly.symm, rfl⟩
      have hforced : ((Value.expression node env operator left right).forceOnce
          ⟨resolve patience room, patience⟩).GivesIf (l.Fits room ∧ r.Fits room ∧ True) n store :=
        hfirst.bind (hsecond.bind hcombined)
      refine (unwind_forced hforced).congr ?_
      rw [Unfolding.unwinds_operation, and_true]

theorem UnfoldsTo.resolve (h : v.UnfoldsTo store u) (hn : u.value? = some n) :
    (v.resolve patience room).GivesIf (u.Fits room) n store :=
  h.resolve_of_unwind hn fun hdeferred => h.unwind hn hdeferred

/-- A value whose names lead to an end unfolds in one way, and where its unfolding has a value,
resolution at any depth gives that value if the unfolding stays within both limits; if not, it is
too deep.  From the outermost depth, expressions over integers resolve if at most `depthLimit` of
them nest, and names in a row do if there are at most that many. -/
theorem resolve_limits (h : v.IsAcyclic store) :
    ∃ u, v.UnfoldsTo store u ∧ (∀ other, v.UnfoldsTo store other → other = u) ∧
      ∀ n, u.value? = some n → ∀ patience,
        (∀ depth ≤ depthLimit, (v.resolve patience (depthLimit - depth)).Ends store
          (if depth + u.nest ≤ depthLimit ∧ u.layers ≤ depthLimit ∧ u.layersBelow ≤ depthLimit
            then .ok (.int n) else .error .tooDeep) store) ∧
        (u.nameless = true →
          ((v.resolve patience depthLimit).Ends store (.ok (.int n)) store ↔
            u.nest ≤ depthLimit)) ∧
        (∀ count m, u = Unfolding.named^[count] (.scalar m) →
          ((v.resolve patience depthLimit).Ends store (.ok (.int n)) store ↔
            count ≤ depthLimit)) := by
  obtain ⟨u, hu⟩ := h.exists_unfolding
  refine ⟨u, hu, fun other hother => hother.unique hu, fun n hn patience => ?_⟩
  have hresolve (room : Nat) : (v.resolve patience room).GivesIf (u.Fits room) n store :=
    hu.resolve hn
  refine ⟨fun depth hdepth => ?_, fun hnameless => ?_, fun count m hcount => ?_⟩
  · have hroom : u.Fits (depthLimit - depth) ↔
        depth + u.nest ≤ depthLimit ∧ u.layers ≤ depthLimit ∧ u.layersBelow ≤ depthLimit := by
      rw [Unfolding.Fits, Nat.le_sub_iff_add_le' hdepth]
    exact ((hresolve _).congr hroom).ends
  · rw [(hresolve _).ends_ok_iff, Unfolding.fits_nameless hnameless]
  · rw [(hresolve _).ends_ok_iff, hcount, Unfolding.fits_iterate_named]

/-- A product over a name for a name for a sum: two levels deep, so that there has to be room for
both of them. -/
theorem resolve_limits_aliased_sum :
    let store := Store.single
      [("x", .symbol 0 "y"), ("y", .expression 0 0 .add (.int 1) (.int 2))]
    let v := Value.expression 1 0 .multiply (.symbol 0 "x") (.int 4)
    v.IsAcyclic store ∧
      (v.resolve 0 (depthLimit - 254)).Ends store (.ok (.int 12)) store ∧
      (v.resolve 0 (depthLimit - 255)).Ends store (.error .tooDeep) store := by
  intro store v
  have hneeds (s) (hs : v.Needs s) : s = (0, "x") := by
    change (Value.expression 1 0 .multiply (.symbol 0 "x") (.int 4)).Needs s at hs
    cases hs with
    | left hs => cases hs; rfl
    | right hs => cases hs
  have hx (t) (ht : store.Depends (0, "x") t) : t = (0, "y") := by
    obtain ⟨_, hbound, ht⟩ := ht
    cases hbound
    cases ht
    rfl
  have hy (t) : ¬ store.Depends (0, "y") t := by
    rintro ⟨_, hbound, ht⟩
    cases hbound
    cases ht with
    | left ht => cases ht
    | right ht => cases ht
  have hreaches (s) (hs : v.Reaches store s) : s = (0, "x") ∨ s = (0, "y") := by
    obtain ⟨first, hfirst, hpath⟩ := hs
    rw [hneeds first hfirst] at hpath
    induction hpath with
    | refl => exact .inl rfl
    | tail _ hlast ih =>
      obtain rfl | rfl := ih
      · exact .inr (hx _ hlast)
      · exact absurd hlast (hy _)
  have hacyclic : v.IsAcyclic store := by
    refine ⟨.expression (.symbol 0 "x") (.int 4), fun s hs => ?_, fun s hs hcycle => ?_⟩
    · obtain rfl | rfl := hreaches s hs
      · exact ⟨_, rfl, .symbol 0 "y"⟩
      · exact ⟨_, rfl, .expression (.int 1) (.int 2)⟩
    · obtain ⟨t, hfirst, hrest⟩ := TransGen.head'_iff.mp hcycle
      obtain rfl | rfl := hreaches s hs
      · rw [hx t hfirst] at hrest
        obtain heq | ⟨t, hnext, -⟩ := ReflTransGen.cases_head hrest
        · exact absurd heq (by decide)
        · exact hy _ hnext
      · exact hy _ hfirst
  obtain ⟨u, -, hunique, hresolve⟩ := resolve_limits hacyclic
  have hu : v.UnfoldsTo store
      (.operation .multiply (.named (.named (.operation .add (.scalar 1) (.scalar 2))))
        (.scalar 4)) :=
    .expression (.symbol rfl (.symbol rfl (.expression (.int 1) (.int 2)))) (.int 4)
  obtain rfl := hunique _ hu
  obtain ⟨hdepths, -⟩ := hresolve 12 rfl 0
  exact ⟨hacyclic, hdepths 254 (by decide), hdepths 255 (by decide)⟩

end Value

end Deferral
