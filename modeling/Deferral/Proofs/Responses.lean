import Deferral.Proofs.NumberedSessions
import Deferral.Proofs.Output

/-!
# Answers of the console

To show a value never fails, since a failure is shown in its place (`Display.text_unfailing`).  So
the console goes on after every answer, and where no sink is bounded, an answer changes nothing but
the output: the numbers of the nodes that it took are free again (`Console.respond_unchanged`).
-/

namespace Deferral

open Eval

/-! ## 1. Computations that never fail -/

namespace Eval

variable {α β : Type}

def Unfailing (action : Eval α) : Prop :=
  ∀ store failure after, ¬ action.Ends store (.error failure) after

theorem unfailing_pure (a : α) : (pure a : Eval α).Unfailing := by
  intro store failure after h
  cases (ends_pure.mp h).1

theorem unfailing_outOfFuel : (outOfFuel : Eval α).Unfailing :=
  fun _ _ _ h => ends_outOfFuel h

theorem unfailing_modify (change : Store → Store) : (modify change : Eval PUnit).Unfailing := by
  intro store failure after h
  cases (ends_modify.mp h).1

theorem unfailing_attempt (action : Eval α) : (attempt action).Unfailing := by
  intro store failure after h
  obtain ⟨result, hfalse, -⟩ := ends_attempt.mp h
  cases hfalse

theorem unfailing_bind {action : Eval α} {next : α → Eval β} (h : action.Unfailing)
    (hnext : ∀ a, (next a).Unfailing) : (action >>= next).Unfailing := by
  intro store failure after hends
  rcases ends_bind.mp hends with ⟨a, between, -, hb⟩ | ⟨failure, hf, -⟩
  · exact hnext a _ _ _ hb
  · exact h _ _ _ hf

theorem unfailing_map {action : Eval α} (h : action.Unfailing) (f : α → β) :
    (f <$> action).Unfailing := by
  rw [map_eq_pure_bind]
  exact unfailing_bind h fun a => unfailing_pure (f a)

theorem unfailing_mapM {f : α → Eval β} {items : List α} (h : ∀ item ∈ items, (f item).Unfailing) :
    (items.mapM f).Unfailing := by
  induction items with
  | nil => exact unfailing_pure []
  | cons item rest ih =>
    rw [List.mapM_cons]
    have hrest := ih fun other hother => h other (List.mem_cons_of_mem item hother)
    exact unfailing_bind (h item List.mem_cons_self) fun _ =>
      unfailing_bind hrest fun _ => unfailing_pure _

end Eval

/-! ## 2. Text -/

variable {forcing : Forcing}

theorem Value.displayWith_unfailing {deferred : Value → Eval String}
    (hdeferred : ∀ v, (deferred v).Unfailing) (v : Value) : (v.displayWith deferred).Unfailing := by
  induction v with
  | list items ih =>
    rw [displayWith, displayItems_eq_mapM]
    exact unfailing_bind (unfailing_map (unfailing_mapM ih) _) fun _ => unfailing_pure _
  | map entries ih =>
    rw [displayWith, displayEntries_eq_mapM]
    have hentry : ∀ entry ∈ entries, (displayEntry deferred entry).Unfailing := by
      intro entry hentry
      exact unfailing_bind (ih entry hentry).1 fun _ =>
        unfailing_bind (ih entry hentry).2 fun _ => unfailing_pure _
    exact unfailing_bind (unfailing_map (unfailing_mapM hentry) _) fun _ => unfailing_pure _
  | symbol | expression | call | sequence => exact hdeferred _
  | _ => exact unfailing_pure _

namespace Display

theorem frontOfHead_unfailing (head : Value) : (frontOfHead forcing head).Unfailing := by
  apply unfailing_bind (unfailing_attempt _)
  intro result
  cases result <;> exact unfailing_pure _

theorem front_unfailing {text : Value → Eval String} (htext : ∀ v, (text v).Unfailing)
    (v : Value) : (front forcing text v).Unfailing := by
  have hshown : ∀ w, (text w >>= fun shown => (pure (.whole shown) : Eval Front)).Unfailing :=
    fun w => unfailing_bind (htext w) fun _ => unfailing_pure _
  unfold front
  split
  · exact frontOfHead_unfailing _
  · split
    · apply unfailing_bind (unfailing_attempt _)
      intro result
      split
      · exact unfailing_pure _
      · exact frontOfHead_unfailing _
      · exact hshown _
    · exact hshown _

theorem text_unfailing (fuel : Nat) (v : Value) : (text forcing fuel v).Unfailing := by
  induction fuel generalizing v with
  | zero => exact unfailing_outOfFuel
  | succ fuel ih =>
    rw [text]
    apply unfailing_bind (front_unfailing (fun w => w.displayWith_unfailing ih) v)
    intro front
    cases front with
    | whole shown => exact unfailing_pure shown
    | sequence head => exact unfailing_bind (ih head) fun _ => unfailing_pure _

theorem present_unfailing (fuel : Nat) (v : Value) : (present forcing fuel v).Unfailing := by
  induction fuel generalizing v with
  | zero => exact unfailing_outOfFuel
  | succ fuel ih =>
    rw [present]
    apply unfailing_bind (front_unfailing (fun w =>
      w.displayWith_unfailing (text_unfailing fuel)) v)
    intro front
    cases front with
    | whole shown => exact unfailing_modify _
    | sequence head =>
      exact unfailing_bind (unfailing_modify _) fun _ =>
        unfailing_bind (ih head) fun _ => unfailing_modify _

end Display

theorem Json.render_unfailing (v : Value) : (render forcing v).Unfailing := by
  apply unfailing_bind (unfailing_attempt _)
  intro result
  split
  · exact unfailing_pure _
  · split <;> exact unfailing_pure _

/-! ## 3. Environments with unbounded sinks -/

namespace Store

def Unbounded (store : Store) : Prop :=
  ∀ env environment, store.live? env = some environment → environment.room = none

theorem single_unbounded {bindings : Bindings} {next : NodeId} :
    Unbounded { single bindings with nextNode := next } := by
  intro env environment hlive
  cases env with
  | zero =>
    cases hlive
    rfl
  | succ env => simp [live?, single] at hlive

/-- If its sinks take all output, then the second store has the environments of the first one. -/
def Settled (before after : Store) : Prop :=
  before.Unbounded → ∀ env, after.live? env = before.live? env

theorem Unbounded.live?_printed {store : Store} (h : store.Unbounded) (env other : EnvId)
    (text : String) : (store.printed env text).live? other = store.live? other := by
  rw [Store.live?_printed]
  cases hlive : store.live? other with
  | none => rfl
  | some environment =>
    have hroom : roomAfter environment.room text = environment.room := by
      rw [h other environment hlive, roomAfter, Option.map_none]
    rw [Option.map_some, hroom, ite_self]

instance : IsPreorder Store Settled where
  refl _ _ _ := rfl
  trans a b c h h' hbounds := by
    have hab := h hbounds
    have hbounds' : b.Unbounded := fun env environment hlive =>
      hbounds env environment (hab env ▸ hlive)
    exact fun env => (h' hbounds' env).trans (hab env)

instance : Admits Settled where
  freshNode := by
    intro before outcome after h
    rw [(ends_freshNode.mp h).2]
    exact fun _ _ => rfl
  print := by
    intro env text before outcome after h hbounds
    cases hlive : before.live? env with
    | none =>
      rw [((print_ends_detached hlive).mp h).2]
      exact fun _ => rfl
    | some environment =>
      rw [((print_ends hlive).mp h).2]
      exact fun other => hbounds.live?_printed env other text

end Store

/-! ## 4. Answers -/

namespace Console

theorem say_settled (text : String) : (say text).Keeps Store.Settled :=
  keeps_modify fun _ _ _ => rfl

variable (options : Options)

theorem showValue_unfailing (v : Value) : (showValue options forcing v).Unfailing := by
  unfold showValue
  split
  · exact unfailing_pure none
  · split
    · apply unfailing_bind (Json.render_unfailing _)
      intro result
      cases result with
      | ok text => exact unfailing_bind (unfailing_modify _) fun _ => unfailing_pure none
      | error failure => exact unfailing_pure _
    · exact unfailing_bind (Display.present_unfailing _ _) fun _ =>
        unfailing_bind (unfailing_modify _) fun _ => unfailing_pure none

theorem showValue_settled (hkeeps : forcing.Keeps Store.Settled) (v : Value) :
    (showValue options forcing v).Keeps Store.Settled := by
  unfold showValue
  split
  · exact keeps_pure none
  · split
    · apply keeps_bind (Json.render_keeps hkeeps _)
      intro result
      cases result with
      | ok text => exact keeps_bind (say_settled _) fun _ => keeps_pure none
      | error failure => exact keeps_pure _
    · exact keeps_bind (Display.present_keeps hkeeps say_settled _ _) fun _ =>
        keeps_bind (say_settled _) fun _ => keeps_pure none

omit options in
/-- What an action without failures gives is given, and its new nodes are gone afterwards. -/
theorem withoutNodes_unchanged {α : Type} {action : Eval α} (hunfailing : action.Unfailing)
    (hsettled : action.Keeps Store.Settled) {store after : Store} {outcome : Except Failure α}
    (hstore : store.Unbounded) (h : (withoutNodes action).Ends store outcome after) :
    (∃ a, outcome = .ok a) ∧ after.nextNode = store.nextNode ∧
      ∀ env, after.live? env = store.live? env := by
  have hget : (get : Eval Store).Ends store (.ok store) store := rfl
  unfold withoutNodes at h
  rw [hget.bind_iff] at h
  rcases ends_bind.mp h with ⟨a, between, haction, h⟩ | ⟨failure, hfailure, -⟩
  · have hmodify : (modify fun changed => { changed with nextNode := store.nextNode } :
        Eval PUnit).Ends between (.ok ⟨⟩) { between with nextNode := store.nextNode } := rfl
    rw [hmodify.bind_iff, ends_pure] at h
    obtain ⟨rfl, rfl⟩ := h
    have hlive := hsettled _ _ _ haction hstore
    exact ⟨⟨a, rfl⟩, rfl, hlive⟩
  · exact absurd hfailure (hunfailing _ _ _)

/-- An answer is given in any case, and afterwards everything but the output is as it was. -/
theorem respond_unchanged (hkeeps : forcing.Keeps Store.Settled) {v : Value}
    {store after : Store} {outcome : Except Failure (Option String)} (hstore : store.Unbounded)
    (h : (respond options forcing v).Ends store outcome after) :
    (∃ message?, outcome = .ok message?) ∧ after.nextNode = store.nextNode ∧
      ∀ env, after.live? env = store.live? env := by
  refine withoutNodes_unchanged ?_ ?_ hstore h
  · apply unfailing_bind (unfailing_attempt _)
    intro result
    cases result with
    | ok forced => exact showValue_unfailing options forced
    | error failure => exact unfailing_pure _
  · apply keeps_bind (keeps_attempt (hkeeps v))
    intro result
    cases result with
    | ok forced => exact showValue_settled options hkeeps forced
    | error failure => exact keeps_pure _

end Console

end Deferral
