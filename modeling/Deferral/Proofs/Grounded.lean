import Deferral.Proofs.Growth
import Mathlib.Logic.Relation

/-!
# The names under a value

Resolution that succeeds has looked up every name that the value needs, and every name that their
bindings need in turn.  It comes to an end, so these names are all bound in environments that exist,
and none of them needs itself: `Value.resolve_ok_reaches`.
-/

namespace Deferral

open Eval Relation

/-! ## 1. Needing a name -/

/-- The symbols that have to be looked up to resolve a value.  Those inside a sequence node are not
among them, since a sequence stays as it is. -/
inductive Value.Needs : Value → EnvId × String → Prop
  | symbol (env : EnvId) (name : String) : (Value.symbol env name).Needs (env, name)
  | item {items item s} : item ∈ items → item.Needs s → (Value.list items).Needs s
  | key {entries entry s} : entry ∈ entries → entry.1.Needs s → (Value.map entries).Needs s
  | value {entries entry s} : entry ∈ entries → entry.2.Needs s → (Value.map entries).Needs s
  | left {node env operator left right s} : left.Needs s →
      (Value.expression node env operator left right).Needs s
  | right {node env operator left right s} : right.Needs s →
      (Value.expression node env operator left right).Needs s
  | target {node env target args kwargs s} : target.Needs s →
      (Value.call node env target args kwargs).Needs s
  | arg {node env target args kwargs arg s} : arg ∈ args → arg.Needs s →
      (Value.call node env target args kwargs).Needs s
  | kwarg {node env target args kwargs entry s} : entry ∈ kwargs → entry.2.Needs s →
      (Value.call node env target args kwargs).Needs s

def Store.Depends (store : Store) (s t : EnvId × String) : Prop :=
  ∃ bound, store.binding? s.1 s.2 = some bound ∧ bound.Needs t

def Value.Reaches (store : Store) (v : Value) (t : EnvId × String) : Prop :=
  ∃ s, v.Needs s ∧ ReflTransGen store.Depends s t

/-! ## 2. Symbols that rest on bindings -/

/-- A symbol that is bound in an environment that exists, to a value that needs such symbols only.
There are no endless chains of symbols in this sense, so none needs itself. -/
inductive Store.Grounded (store : Store) : EnvId × String → Prop
  | intro {env name bound} : store.visible? env name = some bound →
      (∀ s, bound.Needs s → store.Grounded s) → store.Grounded (env, name)

def Value.Grounds (store : Store) (v : Value) : Prop := ∀ s, v.Needs s → store.Grounded s

namespace Store.Grounded

variable {store before after : Store} {s t : EnvId × String}

theorem of_grows (h : before.Grows after) (hs : after.Grounded s) : before.Grounded s := by
  induction hs with
  | intro hbound _ ih => exact .intro (h.visible? _ _ ▸ hbound) ih

theorem bound (h : store.Grounded s) : ∃ environment value,
    store.live? s.1 = some environment ∧ environment.bindings.get? s.2 = some value := by
  cases h with
  | intro hbound _ =>
    obtain ⟨environment, hlive, hvalue⟩ := Option.bind_eq_some_iff.mp hbound
    exact ⟨environment, _, hlive, hvalue⟩

theorem depends (h : store.Grounded s) (hst : store.Depends s t) : store.Grounded t := by
  cases h with
  | intro hbound hneeds =>
    obtain ⟨value, hvalue, ht⟩ := hst
    rw [binding?_of_visible? hbound, Option.some.injEq] at hvalue
    exact hneeds t (hvalue ▸ ht)

theorem reaches (h : store.Grounded s) (hst : ReflTransGen store.Depends s t) :
    store.Grounded t := by
  induction hst with
  | refl => exact h
  | tail _ hlast ih => exact ih.depends hlast

/-- A cycle would lead from a symbol to symbols that were shown to be on no cycle before. -/
theorem not_cyclic (h : store.Grounded s) : ¬ TransGen store.Depends s s := by
  induction h with
  | @intro env name value hbound _ ih =>
    intro hcycle
    -- The symbol after this one on the cycle is on it too, and it is grounded before this one.
    obtain ⟨t, hfirst, hrest⟩ := TransGen.head'_iff.mp hcycle
    obtain ⟨value', hvalue, ht⟩ := hfirst
    rw [binding?_of_visible? hbound, Option.some.injEq] at hvalue
    subst hvalue
    exact ih t ht (TransGen.tail' hrest ⟨value, binding?_of_visible? hbound, ht⟩)

end Store.Grounded

/-! ## 3. Resolution grounds what it resolves -/

section
variable {forcing : Forcing} {store after : Store}

def Forcing.Grounds (forcing : Forcing) : Prop :=
  ∀ v store w after, (forcing.force v).Ends store (.ok w) after → v.Grounds store

theorem Value.Grounds.of_grows {v : Value} {before : Store} (h : before.Grows after)
    (hv : v.Grounds after) : v.Grounds before :=
  fun s hs => (hv s hs).of_grows h

theorem Forcing.Keeps.grounds_mapM (hkeeps : forcing.Keeps Store.Grows)
    (hforcing : forcing.Grounds) {items found : List Value} {item : Value}
    (h : (items.mapM forcing.force).Ends store (.ok found) after) (hitem : item ∈ items) :
    item.Grounds store := by
  obtain ⟨before, _, _, hbefore, hrun⟩ := Ends.mapM_item hkeeps h hitem
  exact Value.Grounds.of_grows hbefore (hforcing _ _ _ _ hrun)

theorem Forcing.Keeps.grounds_keywords (hkeeps : forcing.Keeps Store.Grows)
    (hforcing : forcing.Grounds) {kwargs found : List (String × Value)} {entry : String × Value}
    (h : (forceKeywords forcing kwargs).Ends store (.ok found) after) (hentry : entry ∈ kwargs) :
    entry.2.Grounds store := by
  have hkeyword : ∀ other : String × Value,
      (do return (other.1, ← forcing.force other.2) : Eval (String × Value)).Keeps Store.Grows :=
    fun other => keeps_bind (hkeeps other.2) fun _ => keeps_pure _
  obtain ⟨before, _, _, hbefore, hrun⟩ := Ends.mapM_item hkeyword h hentry
  obtain ⟨_, _, hvalue, -⟩ := ends_bind_ok.mp hrun
  exact Value.Grounds.of_grows hbefore (hforcing _ _ _ _ hvalue)

/-- A step that succeeds has looked at all that the value needs, but for what it leads to. -/
theorem Value.forceOnce_grounds (hkeeps : forcing.Keeps Store.Grows) (hforcing : forcing.Grounds)
    {v w : Value} (h : (v.forceOnce forcing).Ends store (.ok w) after) (hw : w.Grounds after) :
    v.Grounds store := by
  have hgrows : store.Grows after := v.forceOnce_keeps hkeeps _ _ _ h
  cases v with
  | symbol env name =>
    -- The symbol rests on its binding, which is grounded in the same environments.
    have hbound : store.visible? env name = some w := (forceOnce_symbol_ends.mp h).1
    rintro s ⟨⟩
    exact .intro hbound (hw.of_grows hgrows)
  | expression node env operator left right =>
    rw [forceOnce] at h
    obtain ⟨first, between, hfirst, h⟩ := ends_bind_ok.mp h
    obtain ⟨second, _, hsecond, -⟩ := ends_bind_ok.mp h
    intro s hs
    -- The right operand is forced in the store that the left one leaves.
    cases hs with
    | left hs => exact hforcing _ _ _ _ hfirst s hs
    | right hs => exact (hforcing _ _ _ _ hsecond s hs).of_grows (hkeeps _ _ _ _ hfirst)
  | call node env target args kwargs =>
    rw [forceOnce] at h
    obtain ⟨function, afterTarget, htarget, h⟩ := ends_bind_ok.mp h
    obtain ⟨_, afterArgs, hargs, h⟩ := ends_bind_ok.mp h
    obtain ⟨_, _, hkwargs, -⟩ := ends_bind_ok.mp h
    have hgrowsTarget : store.Grows afterTarget := hkeeps _ _ _ _ htarget
    have hgrowsArgs : store.Grows afterArgs :=
      trans_of Store.Grows hgrowsTarget (keeps_mapM (fun arg _ => hkeeps arg) _ _ _ hargs)
    intro s hs
    cases hs with
    | target hs => exact hforcing _ _ _ _ htarget s hs
    | arg hmem hs => exact (hkeeps.grounds_mapM hforcing hargs hmem).of_grows hgrowsTarget s hs
    | kwarg hmem hs =>
      exact (hkeeps.grounds_keywords hforcing hkwargs hmem).of_grows hgrowsArgs s hs
  | _ =>
    change (pure _ : Eval Value).Ends store (.ok w) after at h
    rw [ends_pure_ok] at h
    rw [← h.1]
    exact hw.of_grows hgrows

theorem Value.unwind_grounds (hkeeps : forcing.Keeps Store.Grows) (hforcing : forcing.Grounds)
    {left : Nat} {v w : Value} (h : (v.unwind forcing left).Ends store (.ok w) after)
    (hw : w.Grounds after) : v.Grounds store := by
  induction left generalizing v store with
  | zero => simp [unwind] at h
  | succ left ih =>
    rw [unwind] at h
    obtain ⟨found, between, hfound, h⟩ := ends_bind_ok.mp h
    refine forceOnce_grounds hkeeps hforcing hfound ?_
    split at h
    · exact ih h
    · rw [ends_pure_ok] at h
      rw [← h.1, ← h.2]
      exact hw

end

section
variable {store after : Store}

theorem Value.resolveWith_grounds {deferred : Value → Eval Value}
    (hkeeps : ∀ v, (deferred v).Keeps Store.Grows)
    (hdeferred : ∀ v store w after, (deferred v).Ends store (.ok w) after → v.Grounds store)
    {v w : Value} (h : (v.resolveWith deferred).Ends store (.ok w) after) : v.Grounds store := by
  induction v generalizing store w after with
  | list items ih =>
    rw [resolveWith_list, map_eq_pure_bind] at h
    obtain ⟨found, _, hfound, -⟩ := ends_bind_ok.mp h
    -- An item is resolved in a store that the items before it lead to, so it is grounded there.
    intro s hs
    cases hs with
    | item hmem hs =>
      obtain ⟨before, _, _, hbefore, hrun⟩ :=
        Ends.mapM_item (fun item => item.resolveWith_keeps hkeeps) hfound hmem
      exact (ih _ hmem hrun).of_grows hbefore s hs
  | map entries ih =>
    rw [resolveWith_map, map_eq_pure_bind] at h
    obtain ⟨found, _, hfound, -⟩ := ends_bind_ok.mp h
    have hentry : ∀ entry, (resolveEntry deferred entry).Keeps Store.Grows := fun entry =>
      keeps_bind (entry.1.resolveWith_keeps hkeeps) fun _ =>
        keeps_bind (entry.2.resolveWith_keeps hkeeps) fun _ => keeps_pure _
    have hparts : ∀ entry ∈ entries, entry.1.Grounds store ∧ entry.2.Grounds store := by
      intro entry hmem
      obtain ⟨before, _, _, hbefore, hrun⟩ := Ends.mapM_item hentry hfound hmem
      obtain ⟨key, between, hkey, hrun⟩ := ends_bind_ok.mp hrun
      obtain ⟨value, _, hvalue, -⟩ := ends_bind_ok.mp hrun
      have hbetween : before.Grows between := entry.1.resolveWith_keeps hkeeps _ _ _ hkey
      exact ⟨((ih entry hmem).1 hkey).of_grows hbefore,
        ((ih entry hmem).2 hvalue).of_grows (trans_of Store.Grows hbefore hbetween)⟩
    intro s hs
    cases hs with
    | key hmem hs => exact (hparts _ hmem).1 s hs
    | value hmem hs => exact (hparts _ hmem).2 s hs
  | symbol => exact hdeferred _ _ _ _ h
  | expression => exact hdeferred _ _ _ _ h
  | call => exact hdeferred _ _ _ _ h
  | _ => rintro s ⟨⟩

theorem Value.resolve_grounds {patience room : Nat} {v w : Value}
    (h : (v.resolve patience room).Ends store (.ok w) after) : v.Grounds store := by
  induction room generalizing v w store after with
  | zero =>
    refine resolveWith_grounds (fun _ => keeps_throw _) (fun u before found between hu => ?_) h
    simp at hu
  | succ room ih =>
    rw [resolve] at h
    -- Operands are resolved with less room, and so is the value that the steps lead to.
    have hforcing : Forcing.Grounds ⟨resolve patience room, patience⟩ := fun _ _ _ _ => ih
    have hkeeps : Forcing.Keeps Store.Grows ⟨resolve patience room, patience⟩ :=
      resolve_keeps patience room
    refine resolveWith_grounds (fun u => ?_) (fun u before found between hu => ?_) h
    · exact keeps_bind (u.unwind_keeps hkeeps depthLimit) fun found => hkeeps found
    · obtain ⟨last, _, hlast, hfound⟩ := ends_bind_ok.mp hu
      exact unwind_grounds hkeeps hforcing hlast (ih hfound)

/-- Resolution gives a value only if every name that is needed, at once or through other names, is
bound in an environment that exists, and none of them needs itself. -/
theorem Value.resolve_ok_reaches {patience room : Nat} {v w : Value} {s : EnvId × String}
    (h : (v.resolve patience room).Ends store (.ok w) after) (hs : v.Reaches store s) :
    (∃ environment bound, store.live? s.1 = some environment ∧
      environment.bindings.get? s.2 = some bound) ∧ ¬ TransGen store.Depends s s := by
  obtain ⟨first, hfirst, hpath⟩ := hs
  have hgrounded : store.Grounded s := (resolve_grounds h first hfirst).reaches hpath
  exact ⟨hgrounded.bound, hgrounded.not_cyclic⟩

/-- A list whose item is an expression over a name: the name that this one stands for is reached. -/
theorem Value.resolve_ok_reaches_alias :
    let store := Store.single [("x", .symbol 0 "y"), ("y", .int 2)]
    let v := Value.list [.expression 0 0 .add (.symbol 0 "x") (.int 1)]
    (v.resolve 0 depthLimit).Ends store (.ok (.list [.int 3])) store ∧ v.Reaches store (0, "y") ∧
      (∃ environment bound, store.live? 0 = some environment ∧
        environment.bindings.get? "y" = some bound) ∧
      ¬ TransGen store.Depends (0, "y") (0, "y") := by
  intro store v
  have h : (v.resolve 0 depthLimit).Ends store (.ok (.list [.int 3])) store := rfl
  have hx : v.Needs (0, "x") := .item List.mem_cons_self (.left (.symbol 0 "x"))
  have hxy : store.Depends (0, "x") (0, "y") := ⟨.symbol 0 "y", rfl, .symbol 0 "y"⟩
  have hy : v.Reaches store (0, "y") := ⟨(0, "x"), hx, .single hxy⟩
  exact ⟨h, hy, resolve_ok_reaches h hy⟩

end

end Deferral
