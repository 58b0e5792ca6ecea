import Deferral.Proofs.InsertionOrder
import Deferral.Proofs.LateBinding
import Deferral.Proofs.LateKeys
import Deferral.Proofs.Rendering

/-!
# The text of resolved values

The text of a value is made part by part, so each deferred part is forced when its turn comes, while
resolution forces all of them before there is any text.  Forcing one part more or less often changes
nothing that another part shows, so both ways give the same text, as long as no two entries of a map
come to have one key (`Value.resolve_text`).  Where they do, resolution merges them, and the text
of the unresolved map still has both (`Value.resolve_text_merged`).
-/

namespace Deferral

open Eval

namespace Eval

variable {α β : Type} {store after : Store}

/-! ## 1. Growing bounds -/

/-- What ends under a bound ends in the same way under any larger one. -/
def Rises (f : Nat → Eval α) : Prop := ∀ m n, m ≤ n → (f m).Below (f n)

def ComesTo (f : Nat → Eval α) (store : Store) (a : α) (after : Store) : Prop :=
  ∃ bound, (f bound).Ends store (.ok a) after

/-- Two runs that end under two bounds end in the same way. -/
theorem Rises.unique {f : Nat → Eval α} (hf : Rises f) {m n : Nat} {first second : Except Failure α}
    {after' : Store} (hm : (f m).Ends store first after) (hn : (f n).Ends store second after') :
    first = second ∧ after = after' :=
  (hf m (max m n) (Nat.le_max_left m n) _ _ _ hm).unique
    (hf n (max m n) (Nat.le_max_right m n) _ _ _ hn)

theorem rises_pure (a : α) : Rises fun _ => pure a := fun _ _ _ => Below.refl _

theorem rises_bind {f : Nat → Eval α} {g : α → Nat → Eval β} (hf : Rises f)
    (hg : ∀ a, Rises (g a)) : Rises fun n => f n >>= (g · n) :=
  fun m n hle => below_bind (hf m n hle) fun a => hg a m n hle

theorem ComesTo.bind {f : Nat → Eval α} {g : α → Nat → Eval β} (hf : Rises f)
    (hg : ∀ a, Rises (g a)) {a : α} {b : β} {between : Store} (h : ComesTo f store a between)
    (h' : ComesTo (g a) between b after) : ComesTo (fun n => f n >>= (g · n)) store b after := by
  obtain ⟨m, hm⟩ := h
  obtain ⟨n, hn⟩ := h'
  exact ⟨max m n, (hf m _ (Nat.le_max_left m n) _ _ _ hm).bind
    (hg a n _ (Nat.le_max_right m n) _ _ _ hn)⟩

/-! ## 2. Computations with the same results -/

/-- Whatever the first computation gives from a store of one kind, the second one gives from every
store of another kind, and both lead to such stores again. -/
def Carries (C C' : Store → Prop) (f g : Nat → Eval α) : Prop :=
  ∀ store store' a after, C store → C' store' → ComesTo f store a after →
    C after ∧ ∃ after', C' after' ∧ ComesTo g store' a after'

structure SameResults (C C' : Store → Prop) (f g : Nat → Eval α) : Prop where
  rises : Rises f
  rises_other : Rises g
  carries : Carries C C' f g
  carries_back : Carries C' C g f

variable {C C' : Store → Prop}

theorem Carries.pure (a : α) : Carries C C' (fun _ => pure a) (fun _ => pure a) := by
  rintro store store' b after hstore hstore' ⟨n, hends⟩
  obtain ⟨rfl, rfl⟩ := ends_pure_ok.mp hends
  exact ⟨hstore, store', hstore', n, ends_pure_self _ _⟩

theorem Carries.bind {f f' : Nat → Eval α} {g g' : α → Nat → Eval β} (h : Carries C C' f f')
    (hnext : ∀ a, Carries C C' (g a) (g' a)) (hf' : Rises f') (hg' : ∀ a, Rises (g' a)) :
    Carries C C' (fun n => f n >>= (g · n)) (fun n => f' n >>= (g' · n)) := by
  rintro store store' b after hstore hstore' ⟨n, hends⟩
  obtain ⟨a, between, ha, hb⟩ := ends_bind_ok.mp hends
  obtain ⟨hbetween, between', hbetween', ha'⟩ := h _ _ _ _ hstore hstore' ⟨n, ha⟩
  obtain ⟨hafter, after', hafter', hb'⟩ := hnext a _ _ _ _ hbetween hbetween' ⟨n, hb⟩
  exact ⟨hafter, after', hafter', ha'.bind hf' hg' hb'⟩

namespace SameResults

theorem pure (a : α) : SameResults C C' (fun _ => pure a) (fun _ => pure a) :=
  ⟨rises_pure a, rises_pure a, .pure a, .pure a⟩

theorem bind {f f' : Nat → Eval α} {g g' : α → Nat → Eval β} (h : SameResults C C' f f')
    (hnext : ∀ a, SameResults C C' (g a) (g' a)) :
    SameResults C C' (fun n => f n >>= (g · n)) (fun n => f' n >>= (g' · n)) where
  rises := rises_bind h.rises fun a => (hnext a).rises
  rises_other := rises_bind h.rises_other fun a => (hnext a).rises_other
  carries :=
    h.carries.bind (fun a => (hnext a).carries) h.rises_other fun a => (hnext a).rises_other
  carries_back := h.carries_back.bind (fun a => (hnext a).carries_back) h.rises fun a =>
    (hnext a).rises

theorem mapM {ι κ : Type} {f : ι → Nat → Eval β} {f' : κ → Nat → Eval β} {items : List ι}
    {others : List κ}
    (h : List.Forall₂ (fun i k => SameResults C C' (f i) (f' k)) items others) :
    SameResults C C' (fun n => items.mapM (f · n)) (fun n => others.mapM (f' · n)) := by
  induction h with
  | nil => exact .pure []
  | cons hitem _ ih =>
    simp only [List.mapM_cons]
    exact hitem.bind fun b => ih.bind fun bs => .pure (b :: bs)

end SameResults

end Eval

/-! ## 3. Stores that forcing leads to -/

namespace Store.Reached

variable {α β : Type} {base store store' after : Store}

theorem refl (store : Store) : store.Reached store := ⟨refl_of Store.Follows store, fun _ => rfl⟩

theorem trans (h : base.Reached store) (h' : store.Reached after) : base.Reached after :=
  ⟨trans_of Store.Follows h.toFollows h'.toFollows, fun env => (h'.live? env).trans (h.live? env)⟩

theorem unbounded (h : base.Reached store) (hbase : base.Unbounded) : store.Unbounded :=
  fun env environment hlive => hbase env environment (h.live? env ▸ hlive)

theorem mapM {f : α → Eval β} {items : List α} {results : List β} (hbase : base.Unbounded)
    (hfollows : ∀ a, (f a).Keeps Store.Follows) (hsettled : ∀ a, (f a).Keeps Store.Settled)
    (hstore : base.Reached store) (h : (items.mapM f).Ends store (.ok results) after) :
    List.Forall₂ (fun a b => ∃ before between, base.Reached before ∧
      (f a).Ends before (.ok b) between ∧ between.Reached after) items results := by
  induction items generalizing store results with
  | nil =>
    rw [List.mapM_nil, ends_pure_ok] at h
    rw [h.1]
    exact .nil
  | cons item rest ih =>
    rw [List.mapM_cons] at h
    obtain ⟨b, between, hb, h⟩ := ends_bind_ok.mp h
    obtain ⟨others, last, hothers, h⟩ := ends_bind_ok.mp h
    obtain ⟨rfl, rfl⟩ := ends_pure_ok.mp h
    have hbetween : base.Reached between := hstore.ends hbase (hfollows item) (hsettled item) hb
    have hlast : between.Reached after := (refl between).ends (hbetween.unbounded hbase)
      (keeps_mapM fun a _ => hfollows a) (keeps_mapM fun a _ => hsettled a) hothers
    exact .cons ⟨store, between, hstore, hb, hlast⟩ (ih hbetween hothers)

/-- A computation that goes side by side with itself succeeds again, from any store that forcing
leads to. -/
theorem ends_again {P : α → α → Prop} {action : Eval α} {a : α} (hbase : base.Numbered)
    (hstore : base.Reached store) (hstore' : base.Reached store')
    (h : ∀ (c : Coupling) [c.Shows (.since base.nextNode store.nextNode store'.nextNode)],
      action.Lockstep c P action)
    (hends : action.Ends store (.ok a) after) :
    ∃ a' after', action.Ends store' (.ok a') after' ∧ P a a' := by
  let p := Pairing.since base.nextNode store.nextNode store'.nextNode
  have := Pairing.joint_shows (p := p) trivial store store'
  obtain ⟨_, after', hends', hsame, -⟩ :=
    (h (p.joint store store')).ends (hstore.joins hbase hstore') hends
  cases hsame with
  | @ok _ a' ha => exact ⟨a', after', hends', ha⟩

end Store.Reached

/-! ## 4. Text under growing patience -/

namespace Display

variable {forcing : Forcing} {v w : Value}

/-- What is not deferred is shown as it stands in a container. -/
theorem text_succ (h : v.isDeferred = false) (fuel : Nat) :
    text forcing (fuel + 1) v = v.displayWith (text forcing fuel) := by
  cases v with
  | symbol | expression | call | sequence => cases h
  | _ => simp [text, front, Value.isDeferred, Value.environment?]

theorem text_of_forced {fuel : Nat} {store between after : Store} {shown : String}
    (hdeferred : v.isDeferred = true) (hsequence : v.isSequence = false) (hw : w.Normal)
    (hforced : (forcing.force v).Ends store (.ok w) between)
    (h : (text forcing (fuel + 1) w).Ends between (.ok shown) after) :
    (text forcing (fuel + 1) v).Ends store (.ok shown) after := by
  rw [text, front_deferred _ _ hdeferred hsequence, bind_assoc]
  refine (ends_attempt.mpr ⟨_, rfl, hforced⟩).bind ?_
  cases hw <;> exact h

end Display

namespace Value

variable {room patience : Nat} {v w : Value} {store after : Store} {shown : String}

theorem forcing_below (room : Nat) {m n : Nat} (hle : m ≤ n) :
    Forcing.Below ⟨resolve m room, m⟩ ⟨resolve n room, n⟩ := ⟨resolve_below hle room, hle⟩

theorem resolve_rises (room : Nat) (v : Value) : Rises (resolve · room v) :=
  fun _ _ hle => resolve_below hle room v

def wholeText (room : Nat) (v : Value) (patience : Nat) : Eval String :=
  v.display ⟨resolve patience room, patience⟩

theorem wholeText_rises (room : Nat) (v : Value) : Rises (wholeText room v) :=
  fun _ _ hle => v.display_below (forcing_below room hle)

def partText (room : Nat) (v : Value) (patience : Nat) : Eval String :=
  v.displayWith (Display.text ⟨resolve patience room, patience⟩ patience)

theorem partText_rises (room : Nat) (v : Value) : Rises (partText room v) := fun _ _ hle =>
  displayWith_below (fun u => Display.text_below (forcing_below room hle) hle u) v

theorem partText_of_deferred (h : v.isDeferred = true) :
    partText room v = wholeText room v := by
  funext patience
  cases v <;> first | rfl | cases h

theorem comesTo_partText :
    ComesTo (partText room v) store shown after ↔ ComesTo (wholeText room v) store shown after := by
  cases hdeferred : v.isDeferred with
  | true => rw [partText_of_deferred hdeferred]
  | false =>
    constructor
    · rintro ⟨n, hends⟩
      refine ⟨n + 1, ?_⟩
      have hbelow := displayWith_below (fun u =>
        Display.text_below (forcing_below room (Nat.le_succ n)) (Nat.le_refl n) u) v
      change (Display.text _ (n + 1) v).Ends _ _ _
      rw [Display.text_succ hdeferred]
      exact hbelow _ _ _ hends
    · rintro ⟨n, hends⟩
      cases n with
      | zero => exact absurd hends ends_outOfFuel
      | succ n =>
        change (Display.text _ (n + 1) v).Ends _ _ _ at hends
        rw [Display.text_succ hdeferred] at hends
        refine ⟨n + 1, displayWith_below (fun u => ?_) v _ _ _ hends⟩
        exact Display.text_below (forcing_below room (Nat.le_refl _)) (Nat.le_succ n) u

def resolvedText (room : Nat) (v : Value) (patience : Nat) : Eval String := do
  let w ← v.resolve patience room
  w.wholeText room patience

section
variable {base store' : Store} (hbase : base.Numbered) (hv : v.OlderThan base.nextNode)
  (hstore : base.Reached store) (hstore' : base.Reached store')
include hbase hv hstore hstore'

/-- From any store that forcing leads to, the same is shown. -/
theorem wholeText_again (hends : (wholeText room v patience).Ends store (.ok shown) after) :
    ∃ after', (wholeText room v patience).Ends store' (.ok shown) after' := by
  obtain ⟨_, after', hends', rfl⟩ := hstore.ends_again hbase hstore' (P := Eq) (fun c _ =>
    display_lockstep (resolve_lockstep patience room fun hother => absurd trivial hother)
      (.since hstore hstore' hv)) hends
  exact ⟨after', hends'⟩

theorem resolve_again (hends : (v.resolve patience room).Ends store (.ok w) after) :
    ∃ w' after', (v.resolve patience room).Ends store' (.ok w') after' := by
  obtain ⟨w', after', hends', -⟩ := hstore.ends_again hbase hstore' (fun c _ =>
    (resolve_lockstep patience room fun hother => absurd trivial hother).force _ _
      (.since hstore hstore' hv)) hends
  exact ⟨w', after', hends'⟩

theorem resolvedText_again (hends : (resolvedText room v patience).Ends store (.ok shown) after) :
    ∃ after', (resolvedText room v patience).Ends store' (.ok shown) after' := by
  obtain ⟨_, after', hends', rfl⟩ := hstore.ends_again hbase hstore' (P := Eq) (fun c _ =>
    have hforcing := resolve_lockstep patience room fun hother => absurd trivial hother
    lockstep_bind (hforcing.force _ _ (.since hstore hstore' hv)) fun _ _ hw =>
      display_lockstep hforcing hw) hends
  exact ⟨after', hends'⟩

end

/-! ## 5. What a deferred value shows -/

theorem resolve_reached {base : Store} {outcome : Except Failure Value} (hsinks : base.Unbounded)
    (hstore : base.Reached store) (hends : (v.resolve patience room).Ends store outcome after) :
    base.Reached after :=
  hstore.ends hsinks (resolve_keeps patience room v) (resolve_keeps patience room v) hends

theorem wholeText_reached {base before : Store} (hsinks : base.Unbounded)
    (hbefore : base.Reached before)
    (h : ComesTo (wholeText room v) before shown after) :
    base.Reached after := by
  obtain ⟨n, h⟩ := h
  have hfollows : Forcing.Keeps Store.Follows ⟨resolve n room, n⟩ := resolve_keeps n room
  have hsettled : Forcing.Keeps Store.Settled ⟨resolve n room, n⟩ := resolve_keeps n room
  exact hbefore.ends hsinks (v.display_keeps hfollows) (v.display_keeps hsettled) h

section
variable {base before : Store} (hbase : base.Numbered) (hv : v.OlderThan base.nextNode)
  (hstore : base.Reached store) (hends : (v.resolve patience room).Ends store (.ok w) after)
include hbase hv hstore hends

/-- What a deferred value shows, what it stands for shows as well. -/
theorem wholeText_of_deferred (hdeferred : v.isDeferred = true) (hsequence : v.isSequence = false)
    (hbefore : base.Reached before) {last : Store}
    (h : ComesTo (wholeText room v) before shown last) :
    ∃ last', ComesTo (wholeText room w) after shown last' := by
  obtain ⟨n, h⟩ := h
  obtain ⟨result, between, hforced, hshown⟩ :=
    Display.text_forced (fun _ _ => resolve_normal) hdeferred hsequence h
  obtain ⟨w', _, hagain⟩ := resolve_again hbase hv hstore hbefore hends
  obtain ⟨rfl, rfl⟩ := (resolve_rises room v).unique hforced hagain
  have hboth : (resolvedText room v n).Ends before (.ok shown) last := hforced.bind hshown
  obtain ⟨last', hmoved⟩ := resolvedText_again hbase hv hbefore hstore hboth
  obtain ⟨_, _, hw, hshown'⟩ := ends_bind_ok.mp hmoved
  obtain ⟨heq, rfl⟩ := (resolve_rises room v).unique hw hends
  cases heq
  exact ⟨last', n, hshown'⟩

theorem wholeText_deferred (hdeferred : v.isDeferred = true) (hsequence : v.isSequence = false)
    (hbefore : base.Reached before) {last : Store}
    (h : ComesTo (wholeText room w) after shown last) :
    ∃ last', ComesTo (wholeText room v) before shown last' := by
  obtain ⟨m, h⟩ := h
  let n := max m patience
  have hw := resolve_rises room v patience (n + 1) (by omega) _ _ _ hends
  have hshown := wholeText_rises room w m (n + 1) (by omega) _ _ _ h
  have hboth : (resolvedText room v (n + 1)).Ends store (.ok shown) last := hw.bind hshown
  obtain ⟨last', hmoved⟩ := resolvedText_again hbase hv hstore hbefore hboth
  obtain ⟨_, _, hforced, hshown'⟩ := ends_bind_ok.mp hmoved
  exact ⟨last', n + 1, Display.text_of_forced hdeferred hsequence (resolve_normal hforced) hforced
    hshown'⟩

end

/-! ## 6. Containers -/

/-- No two entries of a map have become one in what a value has resolved to. -/
inductive KeepsEntries : Value → Value → Prop
  | list {items found : List Value} : List.Forall₂ KeepsEntries items found →
      KeepsEntries (.list items) (.list found)
  | map {entries found : List (Value × Value)} :
      List.Forall₂ KeepsEntries (entries.map Prod.fst) (found.map Prod.fst) →
      List.Forall₂ KeepsEntries (entries.map Prod.snd) (found.map Prod.snd) →
      KeepsEntries (.map entries) (.map found)
  | other {v w : Value} : v.typeName ≠ .list → v.typeName ≠ .map → KeepsEntries v w

theorem forall₂_and {α β : Type} {R S : α → β → Prop} {as : List α} {bs : List β}
    (h : List.Forall₂ R as bs) (h' : List.Forall₂ S as bs) :
    List.Forall₂ (fun a b => R a b ∧ S a b) as bs := by
  induction h with
  | nil => exact .nil
  | cons hab _ ih =>
    cases h' with
    | cons hab' hrest => exact .cons ⟨hab, hab'⟩ (ih hrest)

def entryText (room : Nat) (entry : Value × Value) (patience : Nat) : Eval String := do
  let key ← partText room entry.1 patience
  let value ← partText room entry.2 patience
  return key ++ ": " ++ value

theorem partText_list (room : Nat) (items : List Value) :
    partText room (.list items) = fun patience => do
      let texts ← items.mapM (partText room · patience)
      return "[" ++ ", ".intercalate texts ++ "]" := by
  funext patience
  rw [partText, displayWith, displayItems_eq_mapM]
  simp [partText]

theorem partText_map (room : Nat) (entries : List (Value × Value)) :
    partText room (.map entries) = fun patience => do
      let texts ← entries.mapM (entryText room · patience)
      return "\x7b" ++ ", ".intercalate texts ++ "\x7d" := by
  funext patience
  have hentry : (entryText room · patience) =
      displayEntry (Display.text ⟨resolve patience room, patience⟩ patience) := rfl
  rw [hentry, partText, displayWith, displayEntries_eq_mapM]
  simp

/-- Where a value shows by itself what another one does, it shows this in a container as well. -/
theorem partText_carries {first second : Store} (hfirst : first.Unbounded)
    (hsecond : second.Unbounded)
    (h : ∀ store store' shown after, first.Reached store → second.Reached store' →
      ComesTo (wholeText room v) store shown after →
      ∃ after', ComesTo (wholeText room w) store' shown after') :
    Carries first.Reached second.Reached (partText room v) (partText room w) := by
  intro store store' shown after hstore hstore' hshown
  rw [comesTo_partText] at hshown
  obtain ⟨after', hshown'⟩ := h store store' shown after hstore hstore' hshown
  exact ⟨wholeText_reached hfirst hstore hshown, after', wholeText_reached hsecond hstore' hshown',
    comesTo_partText.mpr hshown'⟩

theorem resolvePair_runs {base : Store} {entry pair : Value × Value} (hsinks : base.Unbounded)
    (hstore : base.Reached store)
    (h : (resolvePair patience room entry).Ends store (.ok pair) after) :
    ∃ between, (entry.1.resolve patience room).Ends store (.ok pair.1) between ∧
      base.Reached between ∧ (entry.2.resolve patience room).Ends between (.ok pair.2) after ∧
      between.Reached after := by
  obtain ⟨key, between, hkey, h⟩ := ends_bind_ok.mp h
  obtain ⟨value, _, hvalue, h⟩ := ends_bind_ok.mp h
  obtain ⟨rfl, rfl⟩ := ends_pure_ok.mp h
  have hbetween := resolve_reached hsinks hstore hkey
  exact ⟨between, hkey, hbetween, hvalue,
    resolve_reached (hbetween.unbounded hsinks) (.refl between) hvalue⟩

section
variable {base : Store} (hbase : base.Numbered) (hsinks : base.Unbounded)
include hbase hsinks

/-- A value shows the same again. -/
theorem partText_again (hv : v.OlderThan base.nextNode) {last : Store} (hlast : base.Reached last) :
    SameResults base.Reached last.Reached (partText room v) (partText room v) := by
  have hlastSinks : last.Unbounded := hlast.unbounded hsinks
  refine ⟨partText_rises room v, partText_rises room v, partText_carries hsinks hlastSinks ?_,
    partText_carries hlastSinks hsinks ?_⟩
  · rintro first second shown ended hfirst hsecond ⟨n, hshown⟩
    obtain ⟨ended', hshown'⟩ := wholeText_again hbase hv hfirst (hlast.trans hsecond) hshown
    exact ⟨ended', n, hshown'⟩
  · rintro first second shown ended hfirst hsecond ⟨n, hshown⟩
    obtain ⟨ended', hshown'⟩ := wholeText_again hbase hv (hlast.trans hfirst) hsecond hshown
    exact ⟨ended', n, hshown'⟩

/-- A deferred value shows what it stands for. -/
theorem partText_of_resolved (hdeferred : v.isDeferred = true) (hsequence : v.isSequence = false)
    (hv : v.OlderThan base.nextNode) (hstore : base.Reached store)
    (hends : (v.resolve patience room).Ends store (.ok w) after) {last : Store}
    (hlast : after.Reached last) :
    SameResults base.Reached last.Reached (partText room v) (partText room w) := by
  have hafter : base.Reached after := resolve_reached hsinks hstore hends
  have hnumbered : after.Numbered := hbase.of_follows hafter.toFollows
  have hw : w.OlderThan after.nextNode :=
    (resolve_makes patience room _ v hv _ _ _ hstore.nextNode
      (hbase.of_follows hstore.toFollows) hends).2.2 w rfl
  have hlastSinks : last.Unbounded := (hafter.trans hlast).unbounded hsinks
  refine ⟨partText_rises room v, partText_rises room w, partText_carries hsinks hlastSinks ?_,
    partText_carries hlastSinks hsinks ?_⟩
  · intro first second shown ended hfirst hsecond h
    obtain ⟨_, n, hshown⟩ :=
      wholeText_of_deferred hbase hv hstore hends hdeferred hsequence hfirst h
    obtain ⟨ended', hshown'⟩ :=
      wholeText_again hnumbered hw (.refl after) (hlast.trans hsecond) hshown
    exact ⟨ended', n, hshown'⟩
  · rintro first second shown ended hfirst hsecond ⟨n, hshown⟩
    obtain ⟨_, hshown'⟩ := wholeText_again hnumbered hw (hlast.trans hfirst) (.refl after) hshown
    exact wholeText_deferred hbase hv hstore hends hdeferred hsequence hsecond ⟨n, hshown'⟩

/-- What has been resolved shows the same, part by part, as what it was resolved from. -/
theorem partText_resolved (hv : v.OlderThan base.nextNode) (hstore : base.Reached store)
    (hends : (v.resolve patience room).Ends store (.ok w) after) (hkeeps : v.KeepsEntries w)
    {last : Store} (hlast : after.Reached last) :
    SameResults base.Reached last.Reached (partText room v) (partText room w) := by
  induction v generalizing w store after with
  | list items ih =>
    rw [resolve_list, map_eq_pure_bind] at hends
    obtain ⟨found, _, hfound, h⟩ := ends_bind_ok.mp hends
    obtain ⟨rfl, rfl⟩ := ends_pure_ok.mp h
    cases hkeeps with
    | other h => exact absurd rfl h
    | list hitems =>
      have hruns := hstore.mapM hsinks (resolve_keeps patience room) (resolve_keeps patience room)
        hfound
      have hparts : List.Forall₂ (fun item w => SameResults base.Reached last.Reached
          (partText room item) (partText room w)) items found := by
        refine forall₂_imp_of_mem (forall₂_and hruns hitems) fun item hitem w h => ?_
        obtain ⟨⟨before, between, hbefore, hends, hbetween⟩, hkeeps⟩ := h
        exact ih item hitem (hv.items item hitem) hbefore hends hkeeps (hbetween.trans hlast)
      rw [partText_list, partText_list]
      exact (SameResults.mapM hparts).bind fun texts => .pure _
  | map entries ih =>
    rw [resolve_map, map_eq_pure_bind] at hends
    obtain ⟨found, _, hfound, h⟩ := ends_bind_ok.mp hends
    obtain ⟨rfl, rfl⟩ := ends_pure_ok.mp h
    cases hkeeps with
    | other _ h => exact absurd rfl h
    | map hkeys hvalues =>
      have hall : Entries.ofList found = found := by
        refine Entries.ofList_eq_self_of_length ?_
        have hlength := hkeys.length_eq
        rw [List.length_map, List.length_map] at hlength
        exact hlength.symm.trans hfound.mapM_length.symm
      rw [hall] at hkeys hvalues
      have hruns := hstore.mapM hsinks resolvePair_keeps resolvePair_keeps hfound
      have hparts : List.Forall₂ (fun entry pair => SameResults base.Reached last.Reached
          (entryText room entry) (entryText room pair)) entries found := by
        refine forall₂_imp_of_mem (forall₂_and hruns (forall₂_pairs.mpr ⟨hkeys, hvalues⟩))
          fun entry hentry pair h => ?_
        obtain ⟨⟨before, between, hbefore, hends, hbetween⟩, hkeep, hkeep'⟩ := h
        obtain ⟨middle, hkey, hmiddle, hvalue, hended⟩ := resolvePair_runs hsinks hbefore hends
        obtain ⟨holdkey, holdvalue⟩ := hv.entry hentry
        have hvalueLast : between.Reached last := hbetween.trans hlast
        have hkeyText := (ih entry hentry).1 holdkey hbefore hkey hkeep (hended.trans hvalueLast)
        have hvalueText := (ih entry hentry).2 holdvalue hmiddle hvalue hkeep' hvalueLast
        exact hkeyText.bind fun key => hvalueText.bind fun value => .pure _
      rw [hall, partText_map, partText_map]
      exact (SameResults.mapM hparts).bind fun texts => .pure _
  | symbol | expression | call =>
    exact partText_of_resolved hbase hsinks rfl rfl hv hstore hends hlast
  | sequence =>
    rw [Normal.resolve_eq patience room (by constructor)] at hends
    obtain ⟨rfl, rfl⟩ := ends_pure_ok.mp hends
    exact partText_again hbase hsinks hv (hstore.trans hlast)
  | _ =>
    rw [Normal.resolve_eq patience room (by constructor)] at hends
    obtain ⟨rfl, rfl⟩ := ends_pure_ok.mp hends
    exact .pure _

end

/-! ## 7. Values by themselves -/

def HasText (room : Nat) (store : Store) (v : Value) (shown : String) : Prop :=
  ∃ patience after, (v.display ⟨resolve patience room, patience⟩).Ends store (.ok shown) after

theorem hasText_iff : v.HasText room store shown ↔
    ∃ after, ComesTo (partText room v) store shown after := by
  simp only [comesTo_partText]
  exact exists_comm

theorem HasText.unique {other : String} (h : v.HasText room store shown)
    (h' : v.HasText room store other) : shown = other := by
  obtain ⟨m, _, hm⟩ := h
  obtain ⟨n, _, hn⟩ := h'
  exact Except.ok.inj ((wholeText_rises room v).unique hm hn).1

/-- To resolve a value that is made of older nodes, in a store without bounded sinks, does not
change its text, unless it makes one entry of two entries of a map.  The value has a text in any
store that forcing leads to, before it is resolved or afterwards, if and only if what it resolves to
has one from then on, and the two texts are the same. -/
theorem resolve_text (patience room : Nat) (store after before later : Store) (v w : Value)
    (hstore : store.Numbered) (hv : v.OlderThan store.nextNode) (hsinks : store.Unbounded)
    (hends : (v.resolve patience room).Ends store (.ok w) after) (hkeeps : v.KeepsEntries w)
    (hbefore : store.Reached before) (hlater : after.Reached later) :
    (∀ shown, v.HasText room before shown ↔ w.HasText room later shown) ∧
    ∀ shown shown', v.HasText room before shown → w.HasText room later shown' →
      shown = shown' := by
  have hsame : SameResults store.Reached later.Reached (partText room v) (partText room w) :=
    partText_resolved hstore hsinks hv (.refl store) hends hkeeps hlater
  have hiff : ∀ shown, v.HasText room before shown ↔ w.HasText room later shown := by
    intro shown
    rw [hasText_iff, hasText_iff]
    constructor
    · rintro ⟨_, hshown⟩
      obtain ⟨-, last, -, hshown'⟩ := hsame.carries _ _ _ _ hbefore (.refl later) hshown
      exact ⟨last, hshown'⟩
    · rintro ⟨_, hshown⟩
      obtain ⟨-, last, -, hshown'⟩ := hsame.carries_back _ _ _ _ (.refl later) hbefore hshown
      exact ⟨last, hshown'⟩
  exact ⟨hiff, fun shown shown' h h' => ((hiff shown).mp h).unique h'⟩

/-- A map from a name to a sum of two sequences, which is made anew whenever it is forced. -/
theorem resolve_text_sum :
    let x := Value.symbol 0 "x"
    let s := Value.symbol 0 "s"
    let ones := Value.sequence 0 0 (.int 1) s
    let store : Store :=
      { Store.single [("x", .int 5), ("s", ones)] with nextNode := 2 }
    let v := Value.map [(x, .expression 1 0 .add s s), (.int 6, .list [x])]
    let twos := Value.sequence 4 0 (.int 2) (.call 3 0 (.function (.eager .concat)) [s, s] [])
    let w := Value.map [(.int 5, twos), (.int 6, .list [.int 5])]
    let after := { store with nextNode := 5 }
    store.Numbered ∧ v.OlderThan store.nextNode ∧ store.Unbounded ∧
      (v.resolve 0 depthLimit).Ends store (.ok w) after ∧ v.KeepsEntries w ∧
      w.HasText depthLimit after "\x7b5: Iter(2, ...), 6: [5]\x7d" := by
  intro x s ones store v twos w after
  have hnumbered : store.Numbered := Store.single_numbered (by
    simp only [List.forall_mem_cons, List.not_mem_nil, false_implies, implies_true, and_true]
    exact ⟨.int 5, .sequence 0 (by decide) (.int 1) (.symbol 0 "s")⟩)
  have hsum : (Value.expression 1 0 .add s s).OlderThan store.nextNode :=
    .expression 0 .add (by decide) (.symbol 0 "s") (.symbol 0 "s")
  have hlist : (Value.list [x]).OlderThan store.nextNode := .list (by simpa using .symbol 0 "x")
  have hv : v.OlderThan store.nextNode := by
    refine .map ?_ ?_
    all_goals
      simp only [List.forall_mem_cons, List.not_mem_nil, false_implies, implies_true, and_true]
    · exact ⟨.symbol 0 "x", .int 6⟩
    · exact ⟨hsum, hlist⟩
  have hsinks : store.Unbounded := Store.single_unbounded
  have hends : (v.resolve 0 depthLimit).Ends store (.ok w) after := rfl
  have hitems : (Value.list [x]).KeepsEntries (.list [.int 5]) :=
    .list (.cons (.other nofun nofun) .nil)
  have hkeeps : v.KeepsEntries w :=
    .map (.cons (.other nofun nofun) (.cons (.other nofun nofun) .nil))
      (.cons (.other nofun nofun) (.cons hitems .nil))
  have hshown : v.HasText depthLimit store "\x7b5: Iter(2, ...), 6: [5]\x7d" := ⟨4, _, rfl⟩
  refine ⟨hnumbered, hv, hsinks, hends, hkeeps, ?_⟩
  exact ((resolve_text 0 depthLimit store after store after v w hnumbered hv hsinks hends hkeeps
    (.refl store) (.refl after)).1 _).mp hshown

/-- A map with a key and a name for this key, which has one entry more before it is resolved. -/
theorem resolve_text_merged :
    let store := Store.single [("x", .int 5)]
    let v := Value.map [(.symbol 0 "x", .int 1), (.int 5, .int 2)]
    let w := Value.map [(.int 5, .int 2)]
    (∀ patience, (v.resolve patience depthLimit).Ends store (.ok w) store) ∧
      (∀ shown, v.HasText depthLimit store shown ↔ shown = "\x7b5: 1, 5: 2\x7d") ∧
      ∀ shown, w.HasText depthLimit store shown ↔ shown = "\x7b5: 2\x7d" := by
  intro store v w
  have hv : v.HasText depthLimit store "\x7b5: 1, 5: 2\x7d" := ⟨3, store, rfl⟩
  have hw : w.HasText depthLimit store "\x7b5: 2\x7d" := ⟨3, store, rfl⟩
  refine ⟨fun patience => rfl, fun shown => ⟨fun h => h.unique hv, ?_⟩,
    fun shown => ⟨fun h => h.unique hw, ?_⟩⟩
  · rintro rfl
    exact hv
  · rintro rfl
    exact hw

end Value

end Deferral
