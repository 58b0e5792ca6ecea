import Deferral.Proofs.ForcingAlike
import Deferral.Proofs.Occurrence

/-!
# Construction

To evaluate an expression that calls no built-in function at once only builds a value.  Nothing is
forced, so the value does not depend on what is bound, nothing is written, and all that can go wrong
is an operator or a call on values that do not fit (`Tree.evaluate_defers`).
-/

namespace Deferral

open Eval

/-! ## 1. Expressions that only build -/

/-- An expression without calls that run at once: where a call names a built-in function, this is a
lazy one.  Any other name may be called, and any other expression. -/
inductive Tree.Defers : Tree → Prop
  | int (n : Int64) : Defers (.int n)
  | float (x : Double) : Defers (.float x)
  | text (s : String) : Defers (.text s)
  | name (s : String) : Defers (.name s)
  | list {items : List Tree} : (∀ item ∈ items, item.Defers) → Defers (.list items)
  | map {entries : List (Tree × Tree)} : (∀ entry ∈ entries, entry.1.Defers) →
      (∀ entry ∈ entries, entry.2.Defers) → Defers (.map entries)
  | negate {operand : Tree} : operand.Defers → Defers (.negate operand)
  | arithmetic {left right : Tree} (operator : Operator) : left.Defers → right.Defers →
      Defers (.arithmetic operator left right)
  | append {head tail : Tree} : head.Defers → tail.Defers → Defers (.append head tail)
  | call {target : Tree} {args : List Tree} {kwargs : List (String × Tree)} :
      (∀ name builtin, target = .name name → Builtin.ofName? name = some builtin →
        builtin.isLazy = true) →
      target.Defers → (∀ arg ∈ args, arg.Defers) → (∀ entry ∈ kwargs, entry.2.Defers) →
      Defers (.call target args kwargs)

/-! ## 2. Values that are no functions -/

section
variable {operator : Operator} {env : EnvId} {v w u : Value} {store after : Store}

theorem repeatItems_typeName {items : List Value} {count : Int64}
    (h : repeatItems items count = .ok u) : u.typeName = .list := by
  unfold repeatItems at h
  cases hn : repetitions count items.length with
  | error failure =>
    rw [hn] at h
    cases h
  | ok n =>
    rw [hn] at h
    cases h
    rfl

theorem Operator.compute_typeName (h : operator.compute v w = .ok u) : u.typeName ≠ .function := by
  unfold compute at h
  split at h
  case h_1 => simp [applyInt_typeName h]
  case h_5 | h_6 =>
    cases h
    simp [Value.typeName]
  case h_7 | h_8 => simp [repeatText_typeName h]
  case h_9 | h_10 => simp [repeatItems_typeName h]
  case h_11 => cases h
  all_goals simp [applyFloat_typeName h]

theorem Operator.combine_typeName (h : (operator.combine env v w).Ends store (.ok u) after) :
    u.typeName ≠ .function := by
  unfold combine at h
  split at h
  · simp only [expression, ends_bind_ok, ends_freshNode, ends_pure_ok] at h
    obtain ⟨_, _, -, rfl, -⟩ := h
    simp [Value.typeName]
  · unfold apply at h
    split at h
    · simp only [call, ends_bind_ok, ends_freshNode, ends_pure_ok] at h
      obtain ⟨_, _, -, rfl, -⟩ := h
      simp [Value.typeName]
    · rw [ends_ofExcept] at h
      exact compute_typeName h.1.symm

theorem Eval.call_typeName {args : List Value} {kwargs : List (String × Value)}
    (h : (call env v args kwargs).Ends store (.ok u) after) : u.typeName = .call := by
  simp only [call, ends_bind_ok, ends_freshNode, ends_pure_ok] at h
  obtain ⟨_, _, -, rfl, -⟩ := h
  rfl

theorem Eval.sequence_typeName (h : (sequence env v w).Ends store (.ok u) after) :
    u.typeName = .sequence := by
  simp only [sequence, ends_bind_ok, ends_freshNode, ends_pure_ok] at h
  obtain ⟨_, _, -, rfl, -⟩ := h
  rfl

/-- A name stands for a function only if it is that of a built-in one. -/
theorem readName_function {name : String} {f : Function} (h : readName env name = .function f) :
    ∃ builtin, Builtin.ofName? name = some builtin ∧ f = .ofBuiltin builtin := by
  obtain ⟨builtin, hname, heq⟩ | hnil | ⟨b, hbool⟩ | hsymbol := readName_cases env name
  · rw [h] at heq
    exact ⟨builtin, hname, Value.function.inj heq⟩
  · rw [h] at hnil
    cases hnil
  · rw [h] at hbool
    cases hbool
  · rw [h] at hsymbol
    cases hsymbol

end

/-! ## 3. Evaluation side by side -/

structure Tree.Builds (p : Pairing) (env : EnvId) (t : Tree) (v w : Value) : Prop where
  alike : Value.Alike p v w
  function : v.typeName = .function → ∃ name, t = .name name ∧ v = readName env name

theorem Tree.Builds.of_alike {p : Pairing} {env : EnvId} {t : Tree} {v w : Value}
    (h : Value.Alike p v w) (hv : v.typeName ≠ .function) : t.Builds p env v w :=
  ⟨h, fun hfunction => absurd hfunction hv⟩

section
variable {c : Coupling} {p : Pairing} [c.Numbers p] {env : EnvId} {v w : Value}

omit [c.Numbers p] in
theorem Eval.Lockstep.builds {t : Tree} {action action' : Eval Value}
    (h : action.Lockstep c (Value.Alike p) action')
    (hresult : ∀ store v after, action.Ends store (.ok v) after → v.typeName ≠ .function) :
    action.Lockstep c (t.Builds p env) action' :=
  (h.and hresult).imp fun _ _ hboth => .of_alike hboth.1 hboth.2

theorem callValue_lockstep {forcing forcing' : Forcing} {args args' : List Value}
    {kwargs kwargs' : List (String × Value)} (henv : p.environments env) (h : Value.Alike p v w)
    (hargs : List.Forall₂ (Value.Alike p) args args')
    (hkwargs : Value.Alike.Keywords p kwargs kwargs')
    (hlazy : ∀ builtin, v ≠ .function (.eager builtin)) :
    (callValue forcing env v args kwargs).Lockstep c
      (fun u u' => Value.Alike p u u' ∧ u.typeName = .call)
      (callValue forcing' env w args' kwargs') := by
  have hcall : ∀ {v w : Value}, Value.Alike p v w → (call env v args kwargs).Lockstep c
      (fun u u' => Value.Alike p u u' ∧ u.typeName = .call) (call env w args' kwargs') :=
    fun h => (lockstep_call henv h hargs hkwargs).and fun _ _ _ => call_typeName
  have hdeferred := hcall h
  have hmismatch := lockstep_mismatch (c := c)
    (P := fun u u' => Value.Alike p u u' ∧ u.typeName = .call) .notCallable h
  cases h with
  | function f =>
    cases f with
    | eager builtin => exact absurd rfl (hlazy builtin)
    | lazy builtin =>
      unfold callValue
      rw [hargs.length_eq]
      exact lockstep_bind ((builtin.validate_alike hkwargs args'.length).lockstep p) fun _ _ _ =>
        hcall (.function _)
  | symbol | expression | call | sequence => exact hdeferred
  | _ => exact hmismatch

/-- Nothing is forced, so the two runs may force in different ways. -/
theorem Tree.evaluate_lockstep {forcing forcing' : Forcing} {t : Tree} (h : t.Defers)
    (henv : p.environments env) (hsymbols : ∀ name, p.symbols env name) :
    (t.evaluate forcing env).Lockstep c (t.Builds p env) (t.evaluate forcing' env) := by
  induction h with
  | int n => exact lockstep_pure (.of_alike (.int n) (by simp [Value.typeName]))
  | float x => exact lockstep_pure (.of_alike (.float x) (by simp [Value.typeName]))
  | text s => exact lockstep_pure (.of_alike (.str s) (by simp [Value.typeName]))
  | name s => exact lockstep_pure ⟨readName_alike henv (hsymbols s), fun _ => ⟨s, rfl, rfl⟩⟩
  | @list items _ ih =>
    have hitems : List.Forall₂ (fun item item' => (item.evaluate forcing env).Lockstep c
        (Value.Alike p) (item'.evaluate forcing' env)) items items :=
      List.forall₂_same.mpr fun item hitem => (ih item hitem).imp fun _ _ h => h.alike
    rw [evaluate, evaluate, evaluateItems_eq_mapM, evaluateItems_eq_mapM]
    exact lockstep_bind (lockstep_mapM hitems) fun values values' hvalues =>
      lockstep_pure (.of_alike (.list hvalues) (by simp [Value.typeName]))
  | @map entries _ _ ihkeys ihvalues =>
    have hentries : List.Forall₂ (fun entry entry' => (evaluateEntry forcing env entry).Lockstep c
        (Value.Alike.Pairs p) (evaluateEntry forcing' env entry')) entries entries := by
      refine List.forall₂_same.mpr fun entry hentry => ?_
      refine lockstep_bind (ihkeys entry hentry) fun key key' hkey => ?_
      refine lockstep_bind (ihvalues entry hentry) fun value value' hvalue => ?_
      exact lockstep_pure ⟨hkey.alike, hvalue.alike⟩
    rw [evaluate, evaluate, evaluateEntries_eq_mapM, evaluateEntries_eq_mapM]
    exact lockstep_bind (lockstep_mapM hentries) fun found found' hfound =>
      lockstep_pure (.of_alike (Value.Alike.of_entries (Value.Alike.ofList hfound))
        (by simp [Value.typeName]))
  | negate _ ih =>
    refine lockstep_bind ih fun v v' hv => ?_
    exact (Operator.subtract.combine_lockstep henv (.int 0) hv.alike).builds fun _ _ _ =>
      Operator.combine_typeName
  | arithmetic operator _ _ ihleft ihright =>
    refine lockstep_bind ihleft fun v v' hv => lockstep_bind ihright fun w w' hw => ?_
    exact (operator.combine_lockstep henv hv.alike hw.alike).builds fun _ _ _ =>
      Operator.combine_typeName
  | append _ _ ihhead ihtail =>
    refine lockstep_bind ihhead fun v v' hv => lockstep_bind ihtail fun w w' hw => ?_
    exact (lockstep_sequence henv hv.alike hw.alike).builds fun _ _ _ hends => by
      simp [sequence_typeName hends]
  | @call target args kwargs hnames _ _ _ ihtarget ihargs ihkwargs =>
    have hargs : List.Forall₂ (fun arg arg' => (arg.evaluate forcing env).Lockstep c
        (Value.Alike p) (arg'.evaluate forcing' env)) args args :=
      List.forall₂_same.mpr fun arg harg => (ihargs arg harg).imp fun _ _ h => h.alike
    have hkwargs : List.Forall₂ (fun entry entry' => (evaluateKeyword forcing env entry).Lockstep c
        (fun a b => a.1 = b.1 ∧ Value.Alike p a.2 b.2) (evaluateKeyword forcing' env entry'))
        kwargs kwargs := by
      refine List.forall₂_same.mpr fun entry hentry => ?_
      exact lockstep_bind (ihkwargs entry hentry) fun _ _ hvalue =>
        lockstep_pure ⟨rfl, hvalue.alike⟩
    rw [evaluate, evaluate, evaluateItems_eq_mapM, evaluateKeywords_eq_mapM,
      evaluateItems_eq_mapM, evaluateKeywords_eq_mapM]
    refine lockstep_bind ihtarget fun v v' hv => ?_
    refine lockstep_bind (lockstep_mapM hargs) fun args args' hargs => ?_
    refine lockstep_bind (lockstep_mapM hkwargs) fun kwargs kwargs' hkwargs => ?_
    -- An eager function would have to come from a name, and such a name is not called.
    have hlazy : ∀ builtin, v ≠ .function (.eager builtin) := by
      rintro builtin rfl
      obtain ⟨name, rfl, hread⟩ := hv.function rfl
      obtain ⟨known, hknown, heq⟩ := readName_function hread.symm
      rw [Function.ofBuiltin, if_pos (hnames name known rfl hknown)] at heq
      cases heq
    exact (callValue_lockstep henv hv.alike hargs hkwargs hlazy).imp fun u u' hu =>
      .of_alike hu.1 (by simp [hu.2])

end

/-! ## 4. The theorem -/

def Pairing.unrelated (first second : Nat) : Pairing where
  first := first
  second := second
  old _ _ := False
  old_lt := nofun
  old_inj := nofun
  environments _ := True
  symbols _ _ := True

def Eval.Coupling.building (base base' : Store) : Coupling where
  stores store store' := ∃ made, store = { base with nextNode := base.nextNode + made } ∧
    store' = { base' with nextNode := base'.nextNode + made }
  failures := Failure.OfValues
  endless := False

instance (base base' : Store) : (Coupling.building base base').Numbers
    (.unrelated base.nextNode base'.nextNode) where
  freshNode := by
    refine lockstep_freshNode ?_
    rintro _ _ ⟨made, rfl, rfl⟩
    exact ⟨⟨made, rfl, rfl⟩, made + 1, rfl, rfl⟩
  failures _ h := h

/-- An expression that calls no built-in function at once always evaluates to an end, with the same
outcome on any two stores but for the numbers of the new nodes, and however values are forced.  Its
evaluation changes nothing but the number of the next node, and it fails only where values do not
fit. -/
theorem Tree.evaluate_defers {t : Tree} (h : t.Defers) (env : EnvId) (forcing forcing' : Forcing)
    (store store' : Store) :
    ∃ outcome made,
      (t.evaluate forcing env).Ends store outcome
        { store with nextNode := store.nextNode + made } ∧
      (t.evaluate forcing' env).Ends store'
        (outcome.map (Value.renumber (renumbering store.nextNode store'.nextNode)))
        { store' with nextNode := store'.nextNode + made } ∧
      ∀ failure, outcome = .error failure → failure.OfValues := by
  have hlockstep : (t.evaluate forcing env).Lockstep (.building store store')
      (t.Builds (.unrelated store.nextNode store'.nextNode) env) (t.evaluate forcing' env) :=
    evaluate_lockstep h trivial fun _ => trivial
  have hmeets := hlockstep store store' ⟨0, rfl, rfl⟩
  unfold Ends
  generalize (t.evaluate forcing env).run.run store = result,
    (t.evaluate forcing' env).run.run store' = result' at hmeets ⊢
  cases hmeets with
  | ok hbuilds hafter =>
    obtain ⟨made, rfl, rfl⟩ := hafter
    rw [← hbuilds.alike.renumber_eq fun _ _ hold => False.elim hold]
    exact ⟨_, made, rfl, rfl, fun failure heq => by cases heq⟩
  | error hfailure hafter =>
    obtain ⟨made, rfl, rfl⟩ := hafter
    refine ⟨_, made, rfl, rfl, fun failure heq => ?_⟩
    cases heq
    exact hfailure
  | endless hfalse => exact hfalse.elim

/-- Calls of a lazy function and of another name, a sum, a product and a sequence, in a store where
nothing is bound and in one where all of these names are. -/
theorem Tree.evaluate_defers_nested :
    let x := Value.symbol 0 "x"
    let t : Tree := .list [.call (.name "take") [.int 2, .call (.name "f") [.name "x"] []] [],
      .arithmetic .add (.int 1) (.negate (.name "x")),
      .map [(.text "k", .append (.name "x") (.name "None"))],
      .arithmetic .multiply (.int 6) (.int 7)]
    let built (n : NodeId) : Value := .list [
      .call (n + 1) 0 (.function (.eager .take)) [.int 2, .call n 0 (.symbol 0 "f") [x] []] [],
      .expression (n + 3) 0 .add (.int 1) (.expression (n + 2) 0 .subtract (.int 0) x),
      .map [(.str "k", .sequence (n + 4) 0 x .nil)], .int 42]
    let store := Store.single []
    let store' := { Store.single [("x", .nil), ("f", .int 7), ("take", .nil)] with nextNode := 9 }
    t.Defers ∧
      (t.evaluate ⟨fun _ => throw .tooDeep, 0⟩ 0).Ends store (.ok (built 0))
        { store with nextNode := 5 } ∧
      (t.evaluate (.top 1) 0).Ends store' (.ok (built 9)) { store' with nextNode := 14 } := by
  intro x t built store store'
  have hdefers : t.Defers := by
    have htake : Builtin.ofName? "take" = some .take := rfl
    have hf : Builtin.ofName? "f" = none := rfl
    -- The only built-in name that is called is that of a lazy function.
    have hinner : Tree.Defers (.call (.name "f") [.name "x"] []) := by
      refine .call (fun name builtin heq hbuiltin => ?_) (.name "f") (by simp [Defers.name])
        (by simp)
      cases heq
      rw [hf] at hbuiltin
      cases hbuiltin
    have houter : Tree.Defers
        (.call (.name "take") [.int 2, .call (.name "f") [.name "x"] []] []) := by
      refine .call (fun name builtin heq hbuiltin => ?_) (.name "take")
        (by simp [Defers.int, hinner]) (by simp)
      cases heq
      rw [htake] at hbuiltin
      cases hbuiltin
      rfl
    have hmap : Tree.Defers (.map [(.text "k", .append (.name "x") (.name "None"))]) :=
      .map (by simp [Defers.text]) (by simp [Defers.append, Defers.name])
    refine .list ?_
    simp only [List.forall_mem_cons, List.not_mem_nil, false_imp_iff, implies_true, and_true]
    exact ⟨houter, .arithmetic .add (.int 1) (.negate (.name "x")), hmap,
      .arithmetic .multiply (.int 6) (.int 7)⟩
  obtain ⟨outcome, made, hends, hends', -⟩ :=
    evaluate_defers hdefers 0 ⟨fun _ => throw .tooDeep, 0⟩ (.top 1) store store'
  have hrun : (t.evaluate ⟨fun _ => throw .tooDeep, 0⟩ 0).Ends store (.ok (built 0))
      { store with nextNode := 5 } := rfl
  obtain ⟨rfl, hafter⟩ := hends.unique hrun
  obtain rfl : made = 5 := by simpa [store, Store.single] using congrArg Store.nextNode hafter
  exact ⟨hdefers, hrun, hends'⟩

end Deferral
