import Deferral.Proofs.Composition

/-!
# What forcing does to the store

Whatever is forced, the store changes in two ways only: a new node takes a number, and something is
printed.  So a preorder on stores that contains these two changes contains every run of every
operation that forces values: `Value.resolve_keeps`, `Builtin.run_keeps`, `Value.display_keeps`,
`Tree.evaluate_keeps`.
-/

namespace Deferral

open Eval

variable {R : Store → Store → Prop}

def Forcing.Keeps (R : Store → Store → Prop) (forcing : Forcing) : Prop :=
  ∀ v, (forcing.force v).Keeps R

variable [Admits R] {forcing : Forcing}

/-! ## 1. What forces nothing -/

theorem Operator.combine_keeps (operator : Operator) (env : EnvId) (left right : Value) :
    (operator.combine env left right).Keeps R :=
  (operator.combine_composed env left right).keeps_alone

theorem Sequence.tail_keeps (v : Value) : (tail v).Keeps R := (tail_composed v).keeps_alone

/-- Resolution brings its own forcing. -/
theorem Value.resolve_keeps (patience room : Nat) (v : Value) :
    (v.resolve patience room).Keeps R :=
  (v.resolve_composed patience room).keeps_alone

theorem Value.resolveWith_keeps {deferred : Value → Eval Value}
    (hdeferred : ∀ v, (deferred v).Keeps R) (v : Value) : (v.resolveWith deferred).Keeps R :=
  (v.resolveWith_composed .part).keeps hdeferred

/-! ## 2. What forces its parts -/

section
variable (hforcing : forcing.Keeps R)
include hforcing

namespace Sequence

theorem take_keeps (count : Nat) (v : Value) : (take forcing count v).Keeps R :=
  (take_composed forcing count v).keeps hforcing

theorem head_keeps (v : Value) : (head forcing v).Keeps R :=
  (head_composed forcing v).keeps hforcing

theorem concat_keeps (env : EnvId) (left right : Value) :
    (concat forcing env left right).Keeps R :=
  (concat_composed forcing env left right).keeps hforcing

theorem collect_keeps (v : Value) : (collect forcing v).Keeps R :=
  (collect_composed forcing v).keeps hforcing

end Sequence

theorem Cursor.next_keeps (cursor : Cursor) : (Cursor.next forcing cursor).Keeps R :=
  (Cursor.next_composed forcing cursor).keeps hforcing

theorem Value.display_keeps (v : Value) : (v.display forcing).Keeps R :=
  (v.display_composed forcing).keeps hforcing

theorem Value.plainText_keeps (v : Value) : (v.plainText forcing).Keeps R :=
  (v.plainText_composed forcing).keeps hforcing

theorem Json.render_keeps (v : Value) : (render forcing v).Keeps R :=
  (render_composed forcing v).keeps hforcing

theorem Builtin.printedText_keeps (reverse : Bool) (v : Value) :
    (printedText forcing reverse v).Keeps R :=
  (printedText_composed forcing reverse v).keeps hforcing

theorem Builtin.run_keeps (env : EnvId) (builtin : Builtin) (args : List Value)
    (kwargs : List (String × Value)) : (builtin.run forcing env args kwargs).Keeps R :=
  (run_composed forcing env builtin args kwargs).keeps hforcing

theorem invoke_keeps (env : EnvId) (target : Value) (args : List Value)
    (kwargs : List (String × Value)) : (invoke forcing env target args kwargs).Keeps R :=
  (invoke_composed forcing env target args kwargs).keeps hforcing

theorem forceKeywords_keeps (kwargs : List (String × Value)) :
    (forceKeywords forcing kwargs).Keeps R :=
  (forceKeywords_composed forcing kwargs).keeps hforcing

theorem callValue_keeps (env : EnvId) (target : Value) (args : List Value)
    (kwargs : List (String × Value)) : (callValue forcing env target args kwargs).Keeps R :=
  (callValue_composed forcing env target args kwargs).keeps hforcing

theorem Value.forceOnce_keeps (v : Value) : (v.forceOnce forcing).Keeps R :=
  (v.forceOnce_composed forcing).keeps hforcing

theorem Value.unwind_keeps (left : Nat) (v : Value) : (v.unwind forcing left).Keeps R :=
  (v.unwind_composed forcing left).keeps hforcing

theorem Tree.evaluate_keeps (env : EnvId) (t : Tree) : (t.evaluate forcing env).Keeps R :=
  (t.evaluate_composed forcing env).keeps hforcing

/-! ## 3. The console -/

theorem Display.present_keeps (hshow : ∀ shown, (record (.shown shown)).Keeps R) (fuel : Nat)
    (v : Value) : (present forcing fuel v).Keeps R := by
  induction fuel generalizing v with
  | zero => exact keeps_outOfFuel
  | succ fuel ih =>
    rw [present]
    have hparts : ∀ w, Composed forcing.force (Value.displayWith (text forcing fuel) w) :=
      fun w => w.displayWith_composed (text_composed forcing fuel)
    refine keeps_bind ((front_composed forcing hparts v).keeps hforcing) fun front => ?_
    cases front with
    | whole shown => exact hshow shown
    | sequence head =>
      exact keeps_bind (hshow _) fun _ => keeps_bind (ih head) fun _ => hshow _

end

end Deferral
