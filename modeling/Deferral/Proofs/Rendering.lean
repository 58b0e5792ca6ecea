import Deferral.Proofs.Termination

/-!
# Showing values

Text is made of every value in which sequences do not begin with sequences for ever, whatever names
refer to: no failure and no endless sequence gets in the way, since a failure is shown and of a
sequence only the head is (`Value.display_ends`).

A sequence that begins with itself has no text.  Its head is forced without trouble, and gives the
sequence that was to be shown (`Value.display_self_head`).
-/

namespace Deferral

open Eval

/-! ## 1. What text is made of -/

namespace Display

variable {forcing : Forcing} {fuel : Nat} {store after : Store} {shown : String} {v : Value}

def textOfResult (forcing : Forcing) (fuel : Nat) : Except Failure Value → Eval String
  | .ok w => text forcing fuel w
  | .error failure => return failureText failure

theorem textOfResult_below {fuel' : Nat} (hfuel : fuel ≤ fuel') (result : Except Failure Value) :
    (textOfResult forcing fuel result).Below (textOfResult forcing fuel' result) := by
  cases result with
  | ok w => exact text_below ⟨fun _ => Below.refl _, Nat.le_refl _⟩ hfuel w
  | error failure => exact Below.refl _

theorem text_forced (hnormal : ∀ w between, (forcing.force v).Ends store (.ok w) between → w.Normal)
    (hdeferred : v.isDeferred = true) (hsequence : v.isSequence = false)
    (h : (text forcing fuel v).Ends store (.ok shown) after) :
    ∃ result between, (forcing.force v).Ends store result between ∧
      (textOfResult forcing fuel result).Ends between (.ok shown) after := by
  cases fuel with
  | zero => exact absurd h ends_outOfFuel
  | succ fuel =>
    rw [text, front_deferred _ _ hdeferred hsequence, bind_assoc] at h
    obtain ⟨result, between, hresult, h⟩ := ends_bind_ok.mp h
    obtain ⟨result, ⟨⟩, hforced⟩ := ends_attempt.mp hresult
    refine ⟨result, between, hforced, ?_⟩
    cases result with
    | error failure => exact h
    | ok w =>
      -- Nothing is left to force in a normal form, so it is shown as it would be by itself.
      cases hnormal w between hforced <;> exact h

/-- The text of a sequence shows what its head is forced to. -/
theorem text_sequence {node : NodeId} {env : EnvId} {head tail : Value}
    (h : (text forcing fuel (.sequence node env head tail)).Ends store (.ok shown) after) :
    ∃ result between part, (forcing.force head).Ends store result between ∧
      (textOfResult forcing fuel result).Ends between (.ok part) after ∧
      shown = "Iter(" ++ part ++ ", ...)" := by
  cases fuel with
  | zero => exact absurd h ends_outOfFuel
  | succ fuel =>
    have hfront : front forcing (·.displayWith (text forcing fuel)) (.sequence node env head tail) =
        attempt (forcing.force head) >>= fun result => match result with
          | .ok head => return .sequence head
          | .error failure => return .whole ("Iter(" ++ failureText failure ++ ", ...)") := rfl
    rw [text, hfront, bind_assoc] at h
    obtain ⟨result, between, hresult, h⟩ := ends_bind_ok.mp h
    obtain ⟨result, ⟨⟩, hforced⟩ := ends_attempt.mp hresult
    cases result with
    | error failure =>
      obtain ⟨rfl, rfl⟩ := ends_pure_ok.mp h
      exact ⟨.error failure, _, _, hforced, ends_pure_self _ _, rfl⟩
    | ok w =>
      have h : (text forcing fuel w >>= fun part => pure ("Iter(" ++ part ++ ", ...)")).Ends between
          (.ok shown) after := h
      obtain ⟨part, _, hpart, h⟩ := ends_bind_ok.mp h
      obtain ⟨rfl, rfl⟩ := ends_pure_ok.mp h
      have hpart := textOfResult_below (Nat.le_succ fuel) (.ok w) _ _ _ hpart
      exact ⟨.ok w, between, part, hforced, hpart, rfl⟩

end Display

/-! ## 2. When there is text -/

namespace Value

/-- A value has a text, and it is the text of what is forced for it: of the value itself, if it is
deferred, and of a sequence the head alone. -/
structure ShownAs (forcing : Forcing) (store : Store) (v : Value) (shown : String)
    (after : Store) : Prop where
  ends : (v.display forcing).Ends store (.ok shown) after
  forced : v.isDeferred = true → v.isSequence = false → ∃ result between,
    (forcing.force v).Ends store result between ∧
      (Display.textOfResult forcing forcing.patience result).Ends between (.ok shown) after
  head : ∀ node env head tail, v = .sequence node env head tail → ∃ result between part,
    (forcing.force head).Ends store result between ∧
      (Display.textOfResult forcing forcing.patience result).Ends between (.ok part) after ∧
      shown = "Iter(" ++ part ++ ", ...)"

theorem ShownAs.of_ends {patience room : Nat} {store after : Store} {v : Value} {shown : String}
    (h : (v.display ⟨resolve patience room, patience⟩).Ends store (.ok shown) after) :
    v.ShownAs ⟨resolve patience room, patience⟩ store shown after where
  ends := h
  forced hdeferred hsequence :=
    Display.text_forced (fun _ _ hends => resolve_normal hends) hdeferred hsequence h
  head := by
    rintro node env head tail rfl
    exact Display.text_sequence h

/-- There is text for a value, quoted or plain and on the console, if all elements of a sequence are
never asked for and no more than `n` sequences begin with one another.  It does not depend on the
patience, which is enough from `2 * n + 2` on. -/
theorem display_ends {store : Store} {v : Value} {n : Nat} (hlist : store.Avoids [.list] v)
    (hnests : store.Nests n v) (room : Nat) :
    (∃ shown after, ∀ patience, 2 * n + 2 ≤ patience →
      v.ShownAs ⟨resolve patience room, patience⟩ store shown after) ∧
    (∃ shown after, ∀ patience, 2 * n + 2 ≤ patience →
      (v.plainText ⟨resolve patience room, patience⟩).Ends store (.ok shown) after) ∧
    ∃ after, ∀ patience, 2 * n + 2 ≤ patience →
      (Display.present ⟨resolve patience room, patience⟩ patience v).Ends store (.ok ()) after := by
  let least := 2 * n + 2
  have hconfines : store.Confines [.list] n v := by
    refine ⟨hlist, fun m hm => ?_⟩
    rw [← ENat.natCast_inj.mp hm]
    exact hnests
  have hshow : Display.Affords [.list] n least := .inr ⟨n, rfl, le_rfl⟩
  have hforcing : Forcing.Finishes store [.list] n ⟨resolve least room, least⟩ :=
    resolve_finishes ⟨by simp, by simp⟩ hshow room
  have hrefl : store.Grows store := refl_of Store.Grows store
  -- What ends with the least patience that is enough ends in the same way with more.
  have hmore : ∀ patience, least ≤ patience →
      Forcing.Below ⟨resolve least room, least⟩ ⟨resolve patience room, patience⟩ :=
    fun patience hle => ⟨resolve_below hle room, hle⟩
  obtain ⟨shown, after, hdisplay, -⟩ :=
    Display.text_succeeds hforcing hconfines (.inl le_rfl) store hrefl
  refine ⟨⟨shown, after, fun patience hle => ?_⟩, ?_, ?_⟩
  · exact .of_ends (v.display_below (hmore patience hle) _ _ _ hdisplay)
  · by_cases hstr : ∃ s, v = .str s
    · obtain ⟨s, rfl⟩ := hstr
      exact ⟨s, store, fun _ _ => ends_pure_self s store⟩
    · have hplain : ∀ forcing, v.plainText forcing = v.display forcing := by
        intro forcing
        cases v <;> first | rfl | exact absurd ⟨_, rfl⟩ hstr
      refine ⟨shown, after, fun patience hle => ?_⟩
      rw [hplain]
      exact v.display_below (hmore patience hle) _ _ _ hdisplay
  · obtain ⟨_, after, hpresent, -⟩ :=
      Display.present_succeeds hforcing hconfines (.inl le_rfl) store hrefl
    exact ⟨after, fun patience hle =>
      Display.present_below (hmore patience hle) hle v _ _ _ hpresent⟩

/-- An endless sequence of sequences. -/
theorem display_ends_nested :
    let inner := Value.sequence 0 0 (.int 1) .nil
    let t := Value.symbol 0 "t"
    let store := Store.single [("t", .sequence 1 0 inner t)]
    store.Avoids [.list] t ∧ store.Nests 2 t ∧
      ∀ patience, 6 ≤ patience →
        (t.display (Forcing.top patience)).Ends store (.ok "Iter(Iter(1, ...), ...)") store := by
  intro inner t store
  have hvisible : store.visible? 0 "t" = some (.sequence 1 0 inner t) := rfl
  let values : List Value := [t, .sequence 1 0 inner t, inner, .int 1, .nil]
  have hclosed : ∀ u ∈ values, ∀ w ∈ store.parts u, w ∈ values := by
    simp [values, t, inner, Store.parts, hvisible]
  have havoids : store.Avoids [.list] t := .of_closed hclosed (by simp [values, t, inner]) (by
    simp [values])
  have hone : store.Nests 0 (.int 1) := .of_parts rfl (by simp [Store.parts])
  have hinner : store.Nests 1 inner := hone.sequence (.of_parts rfl (by simp [Store.parts]))
  have hnests : store.Nests 2 t := by
    refine .of_closed hclosed (fun node env head tail hmem => ?_) List.mem_cons_self
    have hhead : head = inner ∨ head = .int 1 := by
      simp [values, t, inner] at hmem ⊢
      tauto
    rcases hhead with rfl | rfl
    · exact hinner
    · exact hone.succ
  obtain ⟨shown, after, hends⟩ := (display_ends havoids hnests depthLimit).1
  have hrun : (t.display (Forcing.top 6)).Ends store (.ok "Iter(Iter(1, ...), ...)") store := rfl
  obtain ⟨heq, rfl⟩ := (hends 6 le_rfl).ends.unique hrun
  cases heq
  exact ⟨havoids, hnests, fun patience hle => (hends patience hle).ends⟩

end Value

/-! ## 3. A name without text -/

/-- Values have no text if what is left to show of one of them is always another one. -/
theorem Display.text_endless {forcing : Forcing} {store after : Store} {P : Value → Prop}
    {outcome : Except Failure String}
    (hfront : ∀ v, P v → ∃ w, P w ∧
      ∀ parts, (front forcing parts v).Ends store (.ok (.sequence w)) store)
    {v : Value} (hv : P v) (fuel : Nat) : ¬ (text forcing fuel v).Ends store outcome after := by
  induction fuel generalizing v outcome after with
  | zero => exact ends_outOfFuel
  | succ fuel ih =>
    obtain ⟨w, hw, hleft⟩ := hfront v hv
    rw [text, (hleft _).bind_iff]
    intro h
    rcases ends_bind.mp h with ⟨shown, between, hshown, -⟩ | ⟨failure, hfailure, -⟩
    · exact ih hw hshown
    · exact ih hw hfailure

/-- A script binds a name to a sequence that begins with what the name stands for.  However much
patience there is, the name has no text. -/
theorem Value.display_self_head :
    let s := Value.symbol 0 "s"
    let store := { Store.single [("s", .sequence 0 0 s .nil)] with nextNode := 1 }
    (∀ forcing, (Script.execute forcing 0 "s = s >> None").Ends (Store.single []) (.ok none)
      store) ∧
    store.Avoids [.list] s ∧
    ∀ patience outcome after, ¬ (s.display (Forcing.top patience)).Ends store outcome after := by
  intro s store
  let v := Value.sequence 0 0 s .nil
  refine ⟨fun forcing => ?_, ?_, fun patience outcome after => ?_⟩
  · let tokens : List PlacedToken :=
      [⟨1, .name "s"⟩, ⟨1, .assign⟩, ⟨1, .name "s"⟩, ⟨1, .append⟩, ⟨1, .name "None"⟩]
    have htokens : tokenize "s = s >> None" = .ok ⟨tokens, 1⟩ := by decide +kernel
    have hparse : parse "s = s >> None" =
        .ok [⟨1, some "s", .append (.name "s") (.name "None")⟩] := by
      rw [parse, htokens]
      rfl
    rw [Script.execute, Script.read, hparse]
    rfl
  · have hvisible : store.visible? 0 "s" = some v := rfl
    let values : List Value := [s, v, .nil]
    have hclosed : ∀ u ∈ values, ∀ w ∈ store.parts u, w ∈ values := by
      simp [values, s, v, Store.parts, hvisible]
    exact .of_closed hclosed (by simp [values, s, v]) List.mem_cons_self
  · have hforce : ((Forcing.top patience).force s).Ends store (.ok v) store := rfl
    have hhead : (Display.frontOfHead (Forcing.top patience) s).Ends store (.ok (.sequence v))
        store := (ends_attempt.mpr ⟨_, rfl, hforce⟩).bind (ends_pure_self _ _)
    refine Display.text_endless (P := fun u => u = s ∨ u = v) ?_ (.inl rfl) patience
    rintro u (rfl | rfl)
    · refine ⟨v, .inr rfl, fun parts => ?_⟩
      exact (ends_attempt.mpr ⟨_, rfl, hforce⟩).bind hhead
    · exact ⟨v, .inr rfl, fun parts => hhead⟩

end Deferral
