import Deferral.Json
import Deferral.Proofs.Traversal

/-!
# What forcing is made of

Every operation that forces values is put together from few parts: it takes numbers for new nodes,
prints, looks at environments, and forces (`Eval.Composed`).  So what all of these parts have in
common, and what is handed on from the parts to the whole, holds of every operation.  How much room
is left in a sink is not looked at, except to print.
-/

namespace Deferral

namespace Eval

/-- A computation that is put together from those of a family, and from what the store does. -/
inductive Composed {ι β : Type} (part : ι → Eval β) : {α : Type} → Eval α → Prop
  | pure {α : Type} (a : α) : Composed part (Pure.pure a)
  | throw {α : Type} (failure : Failure) : Composed part (MonadExcept.throw failure : Eval α)
  | outOfFuel {α : Type} : Composed part (Eval.outOfFuel : Eval α)
  | bind {α γ : Type} {action : Eval α} {next : α → Eval γ} : Composed part action →
      (∀ a, Composed part (next a)) → Composed part (action >>= next)
  | attempt {α : Type} {action : Eval α} : Composed part action →
      Composed part (Eval.attempt action)
  | freshNode : Composed part Eval.freshNode
  | print (env : EnvId) (text : String) : Composed part (Eval.print env text)
  /-- What follows depends on an environment, but not on the room in its sink. -/
  | environment {γ : Type} (env : EnvId) {next : Environment → Eval γ} :
      (∀ environment room, next { environment with room := room } = next environment) →
      (∀ environment, Composed part (next environment)) →
      Composed part (Eval.environment env >>= next)
  | part (i : ι) : Composed part (part i)

def noParts : Empty → Eval Unit := Empty.elim

/-! ## 1. Ways to put computations together -/

namespace Composed

variable {ι β α γ : Type} {part : ι → Eval β}

theorem ofExcept (result : Except Failure α) : Composed part (Eval.ofExcept result) := by
  cases result with
  | ok a => exact .pure a
  | error failure => exact .throw failure

theorem mapM {f : α → Eval γ} {items : List α} (h : ∀ item ∈ items, Composed part (f item)) :
    Composed part (items.mapM f) := by
  induction items with
  | nil => exact .pure []
  | cons item rest ih =>
    rw [List.mapM_cons]
    have hrest := ih fun other hother => h other (List.mem_cons_of_mem item hother)
    exact .bind (h item List.mem_cons_self) fun b => .bind hrest fun bs => .pure (b :: bs)

theorem expression (env : EnvId) (operator : Operator) (left right : Value) :
    Composed part (Eval.expression env operator left right) :=
  .bind .freshNode fun _ => .pure _

theorem call (env : EnvId) (target : Value) (args : List Value) (kwargs : List (String × Value)) :
    Composed part (Eval.call env target args kwargs) :=
  .bind .freshNode fun _ => .pure _

theorem sequence (env : EnvId) (head tail : Value) :
    Composed part (Eval.sequence env head tail) :=
  .bind .freshNode fun _ => .pure _

/-- Parts may be put together themselves. -/
theorem trans {κ δ : Type} {other : κ → Eval δ} {action : Eval α} (h : Composed part action)
    (hparts : ∀ i, Composed other (part i)) : Composed other action := by
  induction h with
  | pure a => exact .pure a
  | throw failure => exact .throw failure
  | outOfFuel => exact .outOfFuel
  | bind _ _ ih ihnext => exact .bind ih ihnext
  | attempt _ ih => exact .attempt ih
  | freshNode => exact .freshNode
  | print env text => exact .print env text
  | environment env hroom _ ih => exact .environment env hroom ih
  | part i => exact hparts i

/-- What every part keeps within, and every change of the store, the whole keeps within. -/
theorem keeps {R : Store → Store → Prop} [Admits R] {action : Eval α} (h : Composed part action)
    (hparts : ∀ i, (part i).Keeps R) : action.Keeps R := by
  induction h with
  | pure a => exact keeps_pure a
  | throw failure => exact keeps_throw failure
  | outOfFuel => exact keeps_outOfFuel
  | bind _ _ ih ihnext => exact keeps_bind ih ihnext
  | attempt _ ih => exact keeps_attempt ih
  | freshNode => exact Admits.freshNode
  | print env text => exact Admits.print env text
  | environment env _ _ ih => exact keeps_bind (keeps_environment env) ih
  | part i => exact hparts i

theorem keeps_alone {R : Store → Store → Prop} [Admits R] {action : Eval α}
    (h : Composed noParts action) : action.Keeps R :=
  h.keeps nofun

end Composed

end Eval

open Eval

/-! ## 2. Operators and sequences -/

section
variable {ι β : Type} {part : ι → Eval β}

theorem Operator.apply_composed (operator : Operator) (env : EnvId) (left right : Value) :
    Composed part (operator.apply env left right) := by
  unfold Operator.apply
  split
  · exact .call env _ _ _
  · exact .ofExcept _

theorem Operator.combine_composed (operator : Operator) (env : EnvId) (left right : Value) :
    Composed part (operator.combine env left right) := by
  unfold Operator.combine
  split
  · exact .expression env operator left right
  · exact operator.apply_composed env left right

theorem Sequence.tail_composed (v : Value) : Composed part (tail v) := by
  cases v <;> first | exact .pure _ | exact .throw _

end

variable (forcing : Forcing)

namespace Sequence

theorem next?_composed (rest : Value) : Composed forcing.force (next? forcing rest) := by
  unfold next?
  refine .bind (.part rest) fun found => ?_
  split
  · exact .pure none
  · rename_i node env head tail
    exact .bind (.part head) fun item => .pure (some (item, tail))
  · exact .throw _

theorem takeItems_composed (requested left : Nat) (found : List Value) (rest : Value) :
    Composed forcing.force (takeItems forcing requested left found rest) := by
  induction left generalizing found rest with
  | zero => exact .pure found.reverse
  | succ left ih =>
    rw [takeItems]
    refine .bind (next?_composed forcing rest) fun next => ?_
    rcases next with _ | ⟨item, rest⟩
    · exact .throw _
    · exact ih (item :: found) rest

theorem collectItems_composed (fuel : Nat) (found : List Value) (rest : Value) :
    Composed forcing.force (collectItems forcing fuel found rest) := by
  induction fuel generalizing found rest with
  | zero => exact .outOfFuel
  | succ fuel ih =>
    rw [collectItems]
    refine .bind (next?_composed forcing rest) fun next => ?_
    rcases next with _ | ⟨item, rest⟩
    · exact .pure found.reverse
    · exact ih (item :: found) rest

theorem take_composed (count : Nat) (v : Value) :
    Composed forcing.force (take forcing count v) := by
  unfold take
  split
  · split
    · exact .throw _
    · exact .pure _
  · exact .bind (takeItems_composed forcing count count [] _) fun _ => .pure _
  · exact .throw _

theorem head_composed (v : Value) : Composed forcing.force (head forcing v) := by
  unfold head
  split
  · exact .part _
  · exact .throw _

theorem concat_composed (env : EnvId) (left right : Value) :
    Composed forcing.force (concat forcing env left right) := by
  unfold concat
  split
  · exact .pure _
  · exact .pure _
  · rename_i leftHead leftTail _ _ rightHead rightTail
    -- Both heads are forced and added; the tails wait in a call.
    refine .bind (.part leftHead) fun first => ?_
    refine .bind (.part rightHead) fun second => ?_
    refine .bind (Operator.add.apply_composed env first second) fun sum => ?_
    exact .bind (.call env _ _ _) fun rest => .sequence env sum rest
  · exact .throw _
  · exact .throw _

theorem collect_composed (v : Value) : Composed forcing.force (collect forcing v) := by
  unfold collect
  split
  · exact .pure _
  · exact .bind (collectItems_composed forcing _ [] _) fun _ => .pure _
  · exact .throw _

end Sequence

theorem Cursor.next_composed (cursor : Cursor) :
    Composed forcing.force (Cursor.next forcing cursor) := by
  unfold Cursor.next
  split
  · exact .pure _
  · refine .bind (.attempt (Sequence.next?_composed forcing _)) fun result => ?_
    rcases result with _ | _ | ⟨item, rest⟩ <;> exact .pure _

/-! ## 3. Text -/

theorem Value.displayWith_composed {ι β : Type} {part : ι → Eval β} {deferred : Value → Eval String}
    (hdeferred : ∀ v, Composed part (deferred v)) (v : Value) :
    Composed part (v.displayWith deferred) := by
  induction v with
  | list items ih =>
    rw [displayWith, displayItems_eq_mapM, map_eq_pure_bind]
    refine .bind ?_ fun _ => .pure _
    exact .bind (.mapM ih) fun _ => .pure _
  | map entries ih =>
    rw [displayWith, displayEntries_eq_mapM, map_eq_pure_bind]
    refine .bind ?_ fun _ => .pure _
    refine .bind (.mapM fun entry hentry => ?_) fun _ => .pure _
    exact .bind (ih entry hentry).1 fun _ => .bind (ih entry hentry).2 fun _ => .pure _
  | symbol => exact hdeferred _
  | expression => exact hdeferred _
  | call => exact hdeferred _
  | sequence => exact hdeferred _
  | _ => exact .pure _

namespace Display

theorem frontOfHead_composed (head : Value) :
    Composed forcing.force (frontOfHead forcing head) := by
  unfold frontOfHead
  refine .bind (.attempt (.part head)) fun result => ?_
  cases result <;> exact .pure _

theorem front_composed {text : Value → Eval String}
    (htext : ∀ v, Composed forcing.force (text v)) (v : Value) :
    Composed forcing.force (front forcing text v) := by
  unfold front
  split
  · exact frontOfHead_composed forcing _
  · split
    · refine .bind (.attempt (.part _)) fun result => ?_
      split
      · exact .pure _
      · exact frontOfHead_composed forcing _
      · exact .bind (htext _) fun _ => .pure _
    · exact .bind (htext _) fun _ => .pure _

theorem text_composed (fuel : Nat) (v : Value) :
    Composed forcing.force (text forcing fuel v) := by
  induction fuel generalizing v with
  | zero => exact .outOfFuel
  | succ fuel ih =>
    rw [text]
    -- The texts of the parts are made with less fuel.
    have hparts : ∀ w, Composed forcing.force (Value.displayWith (text forcing fuel) w) :=
      fun w => w.displayWith_composed ih
    refine .bind (front_composed forcing hparts v) fun front => ?_
    cases front with
    | whole shown => exact .pure shown
    | sequence head => exact .bind (ih head) fun _ => .pure _

end Display

theorem Value.display_composed (v : Value) : Composed forcing.force (v.display forcing) :=
  Display.text_composed forcing forcing.patience v

theorem Value.plainText_composed (v : Value) : Composed forcing.force (v.plainText forcing) := by
  unfold plainText
  split
  · exact .pure _
  · exact display_composed forcing _

theorem Json.render_composed (v : Value) : Composed forcing.force (render forcing v) := by
  unfold render
  refine .bind (.attempt (.part v)) fun result => ?_
  split
  · exact .pure _
  · split <;> exact .pure _

/-! ## 4. Built-in functions -/

namespace Builtin

theorem printedText_composed (reverse : Bool) (v : Value) :
    Composed forcing.force (printedText forcing reverse v) := by
  unfold printedText
  split
  · exact .pure _
  · exact Value.plainText_composed forcing _

theorem printArguments_composed (env : EnvId) (args : List Value)
    (kwargs : List (String × Value)) :
    Composed forcing.force (printArguments forcing env args kwargs) := by
  unfold printArguments
  refine .bind (.ofExcept _) fun separator => ?_
  refine .bind (.ofExcept _) fun terminator => ?_
  refine .environment env (fun _ _ => rfl) fun environment => ?_
  refine .bind (.mapM fun arg _ => printedText_composed forcing _ arg) fun texts => ?_
  exact .bind (.print env _) fun _ => .pure _

theorem perform_composed (env : EnvId) (builtin : Builtin) (args : List Value)
    (kwargs : List (String × Value)) :
    Composed forcing.force (builtin.perform forcing env args kwargs) := by
  unfold perform
  split
  -- Those that are not listed compute their result from forced arguments alone.
  case h_1 count v =>
    exact .bind (.ofExcept _) fun n => Sequence.take_composed forcing n v
  case h_2 v => exact Sequence.tail_composed v
  case h_3 v => exact Sequence.head_composed forcing v
  case h_4 left right => exact Sequence.concat_composed forcing env left right
  case h_5 f => exact .pure _
  case h_6 v => exact .throw _
  case h_7 => exact printArguments_composed forcing env args kwargs
  case h_8 v => exact .bind (v.plainText_composed forcing) fun _ => .pure _
  case h_9 v => exact .bind (v.display_composed forcing) fun _ => .pure _
  case h_16 v => exact Sequence.collect_composed forcing v
  case h_17 v => exact .part v
  case h_18 v => exact .pure _
  case h_19 => exact .throw _
  all_goals exact .ofExcept _

theorem run_composed (env : EnvId) (builtin : Builtin) (args : List Value)
    (kwargs : List (String × Value)) :
    Composed forcing.force (builtin.run forcing env args kwargs) :=
  .bind (.ofExcept _) fun _ => perform_composed forcing env builtin args kwargs

end Builtin

/-! ## 5. Resolution -/

theorem invoke_composed (env : EnvId) (target : Value) (args : List Value)
    (kwargs : List (String × Value)) :
    Composed forcing.force (invoke forcing env target args kwargs) := by
  unfold invoke
  split
  · exact Builtin.run_composed forcing env _ args kwargs
  · exact .throw _

theorem forceKeywords_composed (kwargs : List (String × Value)) :
    Composed forcing.force (forceKeywords forcing kwargs) :=
  .mapM fun entry _ => .bind (.part entry.2) fun _ => .pure _

theorem callValue_composed (env : EnvId) (target : Value) (args : List Value)
    (kwargs : List (String × Value)) :
    Composed forcing.force (callValue forcing env target args kwargs) := by
  unfold callValue
  split
  · exact .bind (.ofExcept _) fun _ => .call env _ args kwargs
  · split
    · refine .bind (.mapM fun arg _ => .part arg) fun args => ?_
      exact .bind (forceKeywords_composed forcing kwargs) fun kwargs =>
        Builtin.run_composed forcing env _ args kwargs
    · exact Builtin.run_composed forcing env _ args kwargs
  · split
    · exact .call env target args kwargs
    · exact .throw _

namespace Value

theorem forceOnce_composed (v : Value) : Composed forcing.force (v.forceOnce forcing) := by
  unfold forceOnce
  split
  · refine .environment _ (fun _ _ => rfl) fun environment => ?_
    split
    · exact .pure _
    · exact .throw _
  · exact .bind (.part _) fun left =>
      .bind (.part _) fun right => Operator.apply_composed _ _ left right
  · refine .bind (.part _) fun target => ?_
    refine .bind (.mapM fun arg _ => .part arg) fun args => ?_
    refine .bind (forceKeywords_composed forcing _) fun kwargs => ?_
    -- The environment is asked for only when everything has been forced.
    exact .environment _ (fun _ _ => rfl) fun _ => invoke_composed forcing _ target args kwargs
  · exact .pure _

theorem unwind_composed (left : Nat) (v : Value) :
    Composed forcing.force (v.unwind forcing left) := by
  induction left generalizing v with
  | zero => exact .throw _
  | succ left ih =>
    rw [unwind]
    refine .bind (v.forceOnce_composed forcing) fun w => ?_
    split
    · exact ih w
    · exact .pure w

theorem resolveWith_composed {ι β : Type} {part : ι → Eval β} {deferred : Value → Eval Value}
    (hdeferred : ∀ v, Composed part (deferred v)) (v : Value) :
    Composed part (v.resolveWith deferred) := by
  induction v with
  | list items ih =>
    rw [resolveWith_list, map_eq_pure_bind]
    exact .bind (.mapM ih) fun _ => .pure _
  | map entries ih =>
    rw [resolveWith_map, map_eq_pure_bind]
    refine .bind (.mapM fun entry hentry => ?_) fun _ => .pure _
    exact .bind (ih entry hentry).1 fun _ => .bind (ih entry hentry).2 fun _ => .pure _
  | symbol => exact hdeferred _
  | expression => exact hdeferred _
  | call => exact hdeferred _
  | _ => exact .pure _

/-- To resolve a value, nothing is needed but what the store does. -/
theorem resolve_composed (patience room : Nat) (v : Value) :
    Composed noParts (v.resolve patience room) := by
  induction room generalizing v with
  | zero => exact v.resolveWith_composed fun _ => .throw _
  | succ room ih =>
    rw [resolve]
    -- A step forces its operands with the room that is left, and so is what it leads to resolved.
    have hunwind (w : Value) :
        Composed noParts (w.unwind ⟨resolve patience room, patience⟩ depthLimit) :=
      (w.unwind_composed ⟨resolve patience room, patience⟩ depthLimit).trans ih
    exact v.resolveWith_composed fun w => .bind (hunwind w) ih

end Value

/-! ## 6. Expressions -/

theorem Tree.evaluate_composed (env : EnvId) (t : Tree) :
    Composed forcing.force (t.evaluate forcing env) := by
  induction t with
  | list items ih =>
    rw [evaluate, evaluateItems_eq_mapM]
    exact .bind (.mapM ih) fun _ => .pure _
  | map entries ih =>
    rw [evaluate, evaluateEntries_eq_mapM]
    refine .bind (.mapM fun entry hentry => ?_) fun _ => .pure _
    exact .bind (ih entry hentry).1 fun _ => .bind (ih entry hentry).2 fun _ => .pure _
  | negate operand ih =>
    exact .bind ih fun value => Operator.subtract.combine_composed env (.int 0) value
  | arithmetic operator left right ihleft ihright =>
    exact .bind ihleft fun left => .bind ihright fun right =>
      operator.combine_composed env left right
  | append head tail ihhead ihtail =>
    exact .bind ihhead fun head => .bind ihtail fun tail => .sequence env head tail
  | call target args kwargs ihtarget ihargs ihkwargs =>
    rw [evaluate, evaluateItems_eq_mapM, evaluateKeywords_eq_mapM]
    refine .bind ihtarget fun target => .bind (.mapM ihargs) fun args => ?_
    refine .bind (.mapM fun entry hentry => ?_) fun kwargs =>
      callValue_composed forcing env target args kwargs
    exact .bind (ihkwargs entry hentry) fun _ => .pure _
  | _ => exact .pure _

end Deferral
