import Deferral.Proofs.NormalForm
import Deferral.Proofs.Occurrence

/-!
# One operation under two ways of forcing

An operation whose values are forced in one way does the same, step by step, as the operation whose
values are forced in another way: it takes numbers for new nodes, prints, looks at environments, and
forces the same values, each in its own way (`Eval.Together`).  So what the two ways of forcing have
in common is handed on to the operations.

All values that are met occur in the operands, so none of them has a function that the operands
avoid.  Failures are caught only where text is made, so they are caught only if a function that
makes text is not among those avoided.
-/

namespace Deferral

open Eval

def Display.Allowed (banned : List Builtin) : Prop :=
  ∃ builtin ∈ [Builtin.str, .repr, .print], builtin ∉ banned

theorem Store.Avoids.confines {base : Store} {banned : List Builtin} {v : Value}
    (h : base.Avoids banned v) : base.Confines banned ⊤ v :=
  ⟨h, fun n hn => absurd hn (ENat.top_ne_natCast n)⟩

namespace Eval

/-- Two computations that are put together in the same way, the one from values that are forced in
one way and the other from the same values forced in another way.  What both give for a part has a
property, as long as bindings are those of a given store. -/
inductive Together (base : Store) (banned : List Builtin) (force force' : Value → Eval Value) :
    {α : Type} → (α → Prop) → Eval α → Eval α → Prop
  | pure {α : Type} {P : α → Prop} {a : α} : P a → Together base banned force force' P
      (Pure.pure a) (Pure.pure a)
  | throw {α : Type} {P : α → Prop} (failure : Failure) : Together base banned force force' P
      (MonadExcept.throw failure : Eval α) (MonadExcept.throw failure)
  | outOfFuel {α : Type} {P : α → Prop} : Together base banned force force' P
      (Eval.outOfFuel : Eval α) Eval.outOfFuel
  | bind {α β : Type} {P : α → Prop} {Q : β → Prop} {action action' : Eval α}
      {next next' : α → Eval β} : Together base banned force force' P action action' →
      (∀ a, P a → Together base banned force force' Q (next a) (next' a)) →
      Together base banned force force' Q (action >>= next) (action' >>= next')
  | freshNode : Together base banned force force' (fun _ => True) Eval.freshNode Eval.freshNode
  | environment (env : EnvId) : Together base banned force force'
      (fun environment => ∀ name, environment.bindings.get? name = base.visible? env name)
      (Eval.environment env) (Eval.environment env)
  | attempt {α : Type} {P : α → Prop} {action action' : Eval α} : Display.Allowed banned →
      Together base banned force force' P action action' →
      Together base banned force force' (fun result => ∀ a, result = .ok a → P a)
        (Eval.attempt action) (Eval.attempt action')
  | print (env : EnvId) (text : String) : Display.Allowed banned →
      Together base banned force force' (fun _ => True) (Eval.print env text) (Eval.print env text)
  | force {v : Value} : base.Confines banned ⊤ v → Together base banned force force'
      (base.Confines banned ⊤) (force v) (force' v)

/-! ## 1. Ways to put computations together -/

namespace Together

variable {base : Store} {banned : List Builtin} {force force' : Value → Eval Value} {α β : Type}
  {P : α → Prop} {Q : β → Prop} {env : EnvId}

theorem imp {P' : α → Prop} {action action' : Eval α}
    (h : Together base banned force force' P action action') (himp : ∀ a, P a → P' a) :
    Together base banned force force' P' action action' := by
  have hpure : ∀ a, P a → Together base banned force force' P' (Pure.pure a) (Pure.pure a) :=
    fun a ha => .pure (himp a ha)
  simpa using bind h hpure

theorem ofExcept {result : Except Failure α} (h : ∀ a, result = .ok a → P a) :
    Together base banned force force' P (Eval.ofExcept result) (Eval.ofExcept result) := by
  cases result with
  | ok a => exact .pure (h a rfl)
  | error failure => exact .throw failure

theorem check {result : Except Failure α} {next next' : α → Eval β}
    (h : ∀ a, Together base banned force force' Q (next a) (next' a)) :
    Together base banned force force' Q (Eval.ofExcept result >>= next)
      (Eval.ofExcept result >>= next') :=
  .bind (ofExcept (P := fun _ => True) fun _ _ => trivial) fun a _ => h a

theorem mapM {f f' : α → Eval β} {items : List α}
    (h : ∀ item ∈ items, Together base banned force force' Q (f item) (f' item)) :
    Together base banned force force' (fun bs => ∀ b ∈ bs, Q b) (items.mapM f)
      (items.mapM f') := by
  induction items with
  | nil => exact .pure (by simp)
  | cons item rest ih =>
    rw [List.mapM_cons, List.mapM_cons]
    have hrest := ih fun other hother => h other (List.mem_cons_of_mem item hother)
    exact .bind (h item List.mem_cons_self) fun b hb =>
      .bind hrest fun bs hbs => .pure (List.forall_mem_cons.mpr ⟨hb, hbs⟩)

theorem call {target : Value} {args : List Value}
    (htarget : base.Confines banned ⊤ target) (hargs : ∀ arg ∈ args, base.Confines banned ⊤ arg) :
    Together base banned force force' (base.Confines banned ⊤) (Eval.call env target args [])
      (Eval.call env target args []) :=
  .bind .freshNode fun _ _ => .pure (.call htarget hargs)

theorem sequence {head tail : Value} (hhead : base.Confines banned ⊤ head)
    (htail : base.Confines banned ⊤ tail) :
    Together base banned force force' (base.Confines banned ⊤) (Eval.sequence env head tail)
      (Eval.sequence env head tail) :=
  .bind .freshNode fun _ _ => .pure (Store.Confines.sequence hhead (top_add (1 : ℕ∞) ▸ htail))

end Together

end Eval

/-! ## 2. Operators and sequences -/

variable {base : Store} {banned : List Builtin} {left right v : Value}

theorem Operator.apply_together {force force' : Value → Eval Value} (hconcat : .concat ∉ banned)
    (operator : Operator) (env : EnvId) (hleft : base.Confines banned ⊤ left)
    (hright : base.Confines banned ⊤ right) :
    Together base banned force force' (base.Confines banned ⊤) (operator.apply env left right)
      (operator.apply env left right) := by
  unfold Operator.apply
  split
  · exact .call (.function hconcat)
      (List.forall_mem_cons.mpr ⟨hleft, List.forall_mem_singleton.mpr hright⟩)
  · exact .ofExcept fun w hw => (Store.Confines.closed ..).compute hleft hright hw

namespace Sequence

theorem tail_together {force force' : Value → Eval Value} (hv : base.Confines banned ⊤ v) :
    Together base banned force force' (base.Confines banned ⊤) (tail v) (tail v) := by
  cases v with
  | sequence node env head tail => exact .pure hv.tail
  | _ => exact .throw _

end Sequence

section
variable {force force' : Value → Eval Value} {patience : Nat}

namespace Sequence

theorem head_together (hv : base.Confines banned ⊤ v) :
    Together base banned force force' (base.Confines banned ⊤) (head ⟨force, patience⟩ v)
      (head ⟨force', patience⟩ v) := by
  cases v with
  | sequence node env head tail => exact .force (hv.part (by simp [Store.parts]))
  | _ => exact .throw _

theorem next?_together {rest : Value} (hrest : base.Confines banned ⊤ rest) :
    Together base banned force force' (fun next => ∀ item following,
        next = some (item, following) →
          base.Confines banned ⊤ item ∧ base.Confines banned ⊤ following)
      (next? ⟨force, patience⟩ rest) (next? ⟨force', patience⟩ rest) := by
  refine .bind (.force hrest) fun found hfound => ?_
  cases found with
  | nil => exact .pure nofun
  | sequence node env head tail =>
    refine .bind (.force (hfound.part (by simp [Store.parts]))) fun item hitem => .pure ?_
    rintro _ _ ⟨⟩
    exact ⟨hitem, hfound.tail⟩
  | _ => exact .throw _

theorem takeItems_together (requested left : Nat) {found : List Value} {rest : Value}
    (hfound : ∀ item ∈ found, base.Confines banned ⊤ item)
    (hrest : base.Confines banned ⊤ rest) :
    Together base banned force force' (fun items => ∀ item ∈ items, base.Confines banned ⊤ item)
      (takeItems ⟨force, patience⟩ requested left found rest)
      (takeItems ⟨force', patience⟩ requested left found rest) := by
  induction left generalizing found rest with
  | zero => exact .pure fun item hitem => hfound item (List.mem_reverse.mp hitem)
  | succ left ih =>
    refine .bind (next?_together hrest) fun next hnext => ?_
    rcases next with _ | ⟨item, following⟩
    · exact .throw _
    · obtain ⟨hitem, hfollowing⟩ := hnext item following rfl
      exact ih (List.forall_mem_cons.mpr ⟨hitem, hfound⟩) hfollowing

theorem collectItems_together (fuel : Nat) {found : List Value} {rest : Value}
    (hfound : ∀ item ∈ found, base.Confines banned ⊤ item)
    (hrest : base.Confines banned ⊤ rest) :
    Together base banned force force' (fun items => ∀ item ∈ items, base.Confines banned ⊤ item)
      (collectItems ⟨force, patience⟩ fuel found rest)
      (collectItems ⟨force', patience⟩ fuel found rest) := by
  induction fuel generalizing found rest with
  | zero => exact .outOfFuel
  | succ fuel ih =>
    refine .bind (next?_together hrest) fun next hnext => ?_
    rcases next with _ | ⟨item, following⟩
    · exact .pure fun item hitem => hfound item (List.mem_reverse.mp hitem)
    · obtain ⟨hitem, hfollowing⟩ := hnext item following rfl
      exact ih (List.forall_mem_cons.mpr ⟨hitem, hfound⟩) hfollowing

theorem take_together (count : Nat) (hv : base.Confines banned ⊤ v) :
    Together base banned force force' (base.Confines banned ⊤) (take ⟨force, patience⟩ count v)
      (take ⟨force', patience⟩ count v) := by
  cases v with
  | list items =>
    unfold take
    dsimp only
    split
    · exact .throw _
    · exact .pure (.list fun item hitem => hv.part (List.mem_of_mem_take hitem))
  | sequence node env head tail =>
    exact .bind (takeItems_together count count (by simp) hv) fun items hitems =>
      .pure (.list hitems)
  | _ => exact .throw _

theorem collect_together (hv : base.Confines banned ⊤ v) :
    Together base banned force force' (base.Confines banned ⊤) (collect ⟨force, patience⟩ v)
      (collect ⟨force', patience⟩ v) := by
  cases v with
  | list items => exact .pure hv
  | sequence node env head tail =>
    exact .bind (collectItems_together patience (by simp) hv) fun items hitems =>
      .pure (.list hitems)
  | _ => exact .throw _

theorem concat_together (hconcat : .concat ∉ banned) (env : EnvId)
    (hleft : base.Confines banned ⊤ left) (hright : base.Confines banned ⊤ right) :
    Together base banned force force' (base.Confines banned ⊤)
      (concat ⟨force, patience⟩ env left right) (concat ⟨force', patience⟩ env left right) := by
  unfold concat
  split
  · exact .pure hleft
  · exact .pure hright
  · refine .bind (.force (hleft.part (by simp [Store.parts]))) fun first hfirst => ?_
    refine .bind (.force (hright.part (by simp [Store.parts]))) fun second hsecond => ?_
    refine .bind (Operator.add.apply_together hconcat env hfirst hsecond) fun sum hsum => ?_
    have htails := List.forall_mem_cons.mpr ⟨hleft.tail, List.forall_mem_singleton.mpr hright.tail⟩
    exact .bind (.call (.function hconcat) htails) fun rest hrest => .sequence hsum hrest
  · exact .throw _
  · exact .throw _

end Sequence

/-! ## 3. Text -/

theorem Value.displayWith_together {deferred deferred' : Value → Eval String}
    (hdeferred : ∀ u, base.Confines banned ⊤ u →
      Together base banned force force' (fun _ => True) (deferred u) (deferred' u))
    (hv : base.Confines banned ⊤ v) :
    Together base banned force force' (fun _ => True) (v.displayWith deferred)
      (v.displayWith deferred') := by
  induction v with
  | list items ih =>
    simp only [displayWith, displayItems_eq_mapM, map_eq_pure_bind]
    have hitems := Together.mapM fun item hitem => ih item hitem (hv.part hitem)
    refine .bind (P := fun _ => True) ?_ fun _ _ => .pure trivial
    exact .bind hitems fun _ _ => .pure trivial
  | map entries ih =>
    simp only [displayWith, displayEntries_eq_mapM, map_eq_pure_bind]
    have hentry : ∀ entry ∈ entries, Together base banned force force' (fun _ => True)
        (displayEntry deferred entry) (displayEntry deferred' entry) :=
      fun entry hentry => .bind ((ih entry hentry).1 (hv.key hentry)) fun _ _ =>
        .bind ((ih entry hentry).2 (hv.value hentry)) fun _ _ => .pure trivial
    refine .bind (P := fun _ => True) ?_ fun _ _ => .pure trivial
    exact .bind (.mapM hentry) fun _ _ => .pure trivial
  | symbol => exact hdeferred _ hv
  | expression => exact hdeferred _ hv
  | call => exact hdeferred _ hv
  | sequence => exact hdeferred _ hv
  | _ => exact .pure trivial

namespace Display

def Front.Confined (base : Store) (banned : List Builtin) : Front → Prop
  | .whole _ => True
  | .sequence head => base.Confines banned ⊤ head

section
variable (hshows : Allowed banned)
include hshows

theorem frontOfHead_together {head : Value} (hhead : base.Confines banned ⊤ head) :
    Together base banned force force' (Front.Confined base banned)
      (frontOfHead ⟨force, patience⟩ head) (frontOfHead ⟨force', patience⟩ head) := by
  refine .bind (.attempt hshows (.force hhead)) fun result hresult => ?_
  cases result with
  | error failure => exact .pure trivial
  | ok head => exact .pure (hresult head rfl)

theorem front_together {text text' : Value → Eval String}
    (htext : ∀ u, base.Confines banned ⊤ u →
      Together base banned force force' (fun _ => True) (text u) (text' u))
    (hv : base.Confines banned ⊤ v) :
    Together base banned force force' (Front.Confined base banned)
      (front ⟨force, patience⟩ text v) (front ⟨force', patience⟩ text' v) := by
  unfold front
  split
  · exact frontOfHead_together hshows (hv.part (by simp [Store.parts]))
  · split
    · refine .bind (.attempt hshows (.force hv)) fun result hresult => ?_
      rcases result with failure | w
      · exact .pure trivial
      · have hw := hresult w rfl
        cases w with
        | sequence node env head tail =>
          exact frontOfHead_together hshows (hw.part (by simp [Store.parts]))
        | _ => exact .bind (htext _ hw) fun _ _ => .pure trivial
    · exact .bind (htext _ hv) fun _ _ => .pure trivial

theorem text_together (fuel : Nat) (hv : base.Confines banned ⊤ v) :
    Together base banned force force' (fun _ => True) (text ⟨force, patience⟩ fuel v)
      (text ⟨force', patience⟩ fuel v) := by
  induction fuel generalizing v with
  | zero => exact .outOfFuel
  | succ fuel ih =>
    refine .bind (front_together hshows (fun u hu => ?_) hv) fun front hfront => ?_
    · exact u.displayWith_together (fun w hw => ih hw) hu
    · cases front with
      | whole shown => exact .pure trivial
      | sequence head => exact .bind (ih hfront) fun _ _ => .pure trivial

end

end Display

section
variable (hshows : Display.Allowed banned) (hv : base.Confines banned ⊤ v)
include hshows hv

theorem Value.display_together :
    Together base banned force force' (fun _ => True) (v.display ⟨force, patience⟩)
      (v.display ⟨force', patience⟩) :=
  Display.text_together hshows patience hv

theorem Value.plainText_together :
    Together base banned force force' (fun _ => True) (v.plainText ⟨force, patience⟩)
      (v.plainText ⟨force', patience⟩) := by
  cases v with
  | str s => exact .pure trivial
  | _ => exact display_together hshows hv

end

/-! ## 4. Built-in functions -/

variable (hconcat : .concat ∉ banned)

namespace Builtin

theorem printArguments_together (hprint : .print ∉ banned) (env : EnvId) {args : List Value}
    (kwargs : List (String × Value)) (hargs : ∀ arg ∈ args, base.Confines banned ⊤ arg) :
    Together base banned force force' (base.Confines banned ⊤)
      (printArguments ⟨force, patience⟩ env args kwargs)
      (printArguments ⟨force', patience⟩ env args kwargs) := by
  have hshows : Display.Allowed banned := ⟨.print, by simp, hprint⟩
  refine .check fun separator => .check fun terminator => ?_
  refine .bind (.environment env) fun environment _ => ?_
  refine .bind (.mapM (Q := fun _ => True) fun arg harg => ?_) fun texts _ => ?_
  · unfold printedText
    split
    · exact .pure trivial
    · exact Value.plainText_together hshows (hargs _ harg)
  · refine .bind (.print env _ hshows) fun _ _ => .pure ?_
    exact (Store.Confines.closed ..).scalar _ (by simp [Value.typeName])

include hconcat

theorem perform_together {builtin : Builtin} (hbuiltin : builtin ∉ banned) (env : EnvId)
    {args : List Value} (kwargs : List (String × Value))
    (hargs : ∀ arg ∈ args, base.Confines banned ⊤ arg) :
    Together base banned force force' (base.Confines banned ⊤)
      (builtin.perform ⟨force, patience⟩ env args kwargs)
      (builtin.perform ⟨force', patience⟩ env args kwargs) := by
  have hclosed := Store.Confines.closed base banned ⊤
  unfold perform
  split
  case h_1 count v =>
    exact .check fun n => Sequence.take_together n (hargs v (by simp))
  case h_2 v => exact Sequence.tail_together (hargs v (by simp))
  case h_3 v => exact Sequence.head_together (hargs v (by simp))
  case h_4 left right =>
    exact Sequence.concat_together hconcat env (hargs left (by simp)) (hargs right (by simp))
  case h_5 f =>
    have hf := (hargs (.function f) (by simp)).avoids f .refl
    exact .pure (.function hf)
  case h_6 v => exact .throw _
  case h_7 => exact printArguments_together hbuiltin env kwargs hargs
  case h_8 v =>
    have hshows : Display.Allowed banned := ⟨.str, by simp, hbuiltin⟩
    exact .bind (v.plainText_together hshows (hargs v (by simp))) fun _ _ =>
      .pure (hclosed.scalar _ (by simp [Value.typeName]))
  case h_9 v =>
    have hshows : Display.Allowed banned := ⟨.repr, by simp, hbuiltin⟩
    exact .bind (v.display_together hshows (hargs v (by simp))) fun _ _ =>
      .pure (hclosed.scalar _ (by simp [Value.typeName]))
  case h_10 v => exact .ofExcept fun w hw => hclosed.lengthOf hw
  case h_11 v => exact .ofExcept fun w hw => hclosed.absolute hw
  case h_12 => exact .ofExcept fun w hw => hclosed.extremum hargs hw
  case h_13 => exact .ofExcept fun w hw => hclosed.extremum hargs hw
  case h_14 v => exact .ofExcept fun w hw => hclosed.toInteger hw
  case h_15 v => exact .ofExcept fun w hw => hclosed.toFloat hw
  case h_16 v => exact Sequence.collect_together (hargs v (by simp))
  case h_17 v => exact .force (hargs v (by simp))
  case h_18 v => exact .pure (hclosed.scalar _ (by simp [Value.typeName]))
  case h_19 => exact .throw _

theorem run_together {builtin : Builtin} (hbuiltin : builtin ∉ banned) (env : EnvId)
    {args : List Value} (kwargs : List (String × Value))
    (hargs : ∀ arg ∈ args, base.Confines banned ⊤ arg) :
    Together base banned force force' (base.Confines banned ⊤)
      (builtin.run ⟨force, patience⟩ env args kwargs)
      (builtin.run ⟨force', patience⟩ env args kwargs) :=
  .check fun _ => perform_together hconcat hbuiltin env kwargs hargs

end Builtin

/-! ## 5. Resolution -/

include hconcat

theorem invoke_together (env : EnvId) {target : Value} {args : List Value}
    (kwargs : List (String × Value)) (htarget : base.Confines banned ⊤ target)
    (hargs : ∀ arg ∈ args, base.Confines banned ⊤ arg) :
    Together base banned force force' (base.Confines banned ⊤)
      (invoke ⟨force, patience⟩ env target args kwargs)
      (invoke ⟨force', patience⟩ env target args kwargs) := by
  cases target with
  | function f =>
    exact Builtin.run_together hconcat (htarget.avoids f .refl) env kwargs hargs
  | _ => exact .throw _

namespace Value

theorem forceOnce_together (hv : base.Confines banned ⊤ v) :
    Together base banned force force' (base.Confines banned ⊤) (v.forceOnce ⟨force, patience⟩)
      (v.forceOnce ⟨force', patience⟩) := by
  cases v with
  | symbol env name =>
    refine .bind (.environment env) fun environment hbindings => ?_
    cases hbound : environment.bindings.get? name with
    | none => exact .throw _
    | some bound =>
      have hpart : bound ∈ base.parts (.symbol env name) := by
        simp [Store.parts, ← hbindings name, hbound]
      exact .pure (hv.part hpart)
  | expression node env operator left right =>
    refine .bind (.force (hv.part (by simp [Store.parts]))) fun left hleft => ?_
    exact .bind (.force (hv.part (by simp [Store.parts]))) fun right hright =>
      operator.apply_together hconcat env hleft hright
  | call node env target args kwargs =>
    refine .bind (.force (hv.part (by simp [Store.parts]))) fun target htarget => ?_
    refine .bind (.mapM fun arg harg => .force (hv.part (by simp [Store.parts, harg])))
      fun args hargs => ?_
    have hkwargs : Together base banned force force' (fun _ => True)
        (forceKeywords ⟨force, patience⟩ kwargs) (forceKeywords ⟨force', patience⟩ kwargs) := by
      refine (Together.mapM (Q := fun _ => True) fun entry hentry => ?_).imp fun _ _ => trivial
      exact .bind (.force (hv.part (by simp [Store.parts, List.mem_map_of_mem hentry])))
        fun _ _ => .pure trivial
    refine .bind hkwargs fun kwargs _ => .bind (.environment env) fun _ _ => ?_
    exact invoke_together hconcat env kwargs htarget hargs
  | _ => exact .pure hv

/-- The steps in a row have the same limit. -/
theorem unwind_together (left : Nat) (hv : base.Confines banned ⊤ v) :
    Together base banned force force' (base.Confines banned ⊤)
      (v.unwind ⟨force, patience⟩ left) (v.unwind ⟨force', patience⟩ left) := by
  induction left generalizing v with
  | zero => exact .throw _
  | succ left ih =>
    refine .bind (forceOnce_together hconcat hv) fun w hw => ?_
    cases w.isDeferred && !w.isSequence with
    | true => exact ih hw
    | false => exact .pure hw

omit hconcat in
theorem resolveWith_together (deferred deferred' : Value → Eval Value)
    (hv : base.Confines banned ⊤ v) :
    Together base banned deferred deferred' (base.Confines banned ⊤) (v.resolveWith deferred)
      (v.resolveWith deferred') := by
  induction v with
  | list items ih =>
    simp only [resolveWith_list, map_eq_pure_bind]
    exact .bind (.mapM fun item hitem => ih item hitem (hv.part hitem)) fun found hfound =>
      .pure (.list hfound)
  | map entries ih =>
    simp only [resolveWith_map, map_eq_pure_bind]
    have hentry : ∀ entry ∈ entries, Together base banned deferred deferred'
        (fun entry => base.Confines banned ⊤ entry.1 ∧ base.Confines banned ⊤ entry.2)
        (resolveEntry deferred entry) (resolveEntry deferred' entry) :=
      fun entry hentry => .bind ((ih entry hentry).1 (hv.key hentry)) fun key hkey =>
        .bind ((ih entry hentry).2 (hv.value hentry)) fun value hvalue => .pure ⟨hkey, hvalue⟩
    refine .bind (.mapM hentry) fun found hfound => .pure ?_
    exact .map (fun entry hentry => (hfound entry (Entries.mem_of_mem_ofList hentry)).1)
      fun entry hentry => (hfound entry (Entries.mem_of_mem_ofList hentry)).2
  | symbol => exact .force hv
  | expression => exact .force hv
  | call => exact .force hv
  | _ => exact .pure hv

end Value

end

end Deferral
