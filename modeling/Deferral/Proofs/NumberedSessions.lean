import Deferral.Proofs.Numbering

/-!
# Sessions that number their nodes

Scripts and the console bind nothing but values of nodes that have been made.  So all nodes that
occur in what they give and bind have numbers below the next one (`Script.execute_numbers`,
`Console.run_numbers`), although the console takes numbers back after it has shown a value.
-/

namespace Deferral

open Eval

variable {first : NodeId} {forcing : Forcing}

/-! ## 1. Expressions and scripts -/

theorem readName_olderThan (env : EnvId) (name : String) (next : NodeId) :
    (readName env name).OlderThan next := by
  obtain ⟨builtin, -, heq⟩ | heq | ⟨b, heq⟩ | heq := readName_cases env name <;>
    rw [heq] <;> constructor

section
variable (hforcing : forcing.Makes) (hkeeps : forcing.Keeps Store.Follows)
include hforcing hkeeps

theorem callValue_makes (env : EnvId) {target : Value} {args : List Value}
    {kwargs : List (String × Value)} (htarget : target.OlderThan first)
    (hargs : ∀ arg ∈ args, arg.OlderThan first)
    (hkwargs : ∀ entry ∈ kwargs, entry.2.OlderThan first) :
    (callValue forcing env target args kwargs).Makes first Value.OlderThan := by
  unfold callValue
  split
  · exact makes_check fun _ => makes_call (.function _) hargs hkwargs
  · split
    · refine makes_bind (makes_mapM_force hforcing hargs) fun second hle args hargs => ?_
      have hkwargs : ∀ entry ∈ kwargs, entry.2.OlderThan second :=
        fun entry hentry => (hkwargs entry hentry).mono hle
      refine makes_bind (forceKeywords_makes hforcing hkwargs) fun _ hle' _ _ => ?_
      exact Builtin.run_makes hforcing hkeeps env _ fun arg harg => (hargs arg harg).mono hle'
    · exact Builtin.run_makes hforcing hkeeps env _ hargs
  · split
    · exact makes_call htarget hargs hkwargs
    · exact makes_throw _

theorem Tree.evaluate_makes (env : EnvId) (t : Tree) :
    (t.evaluate forcing env).Makes first Value.OlderThan := by
  induction t generalizing first with
  | int n => exact makes_value (.int n)
  | float x => exact makes_value (.float x)
  | text s => exact makes_value (.str s)
  | name s => exact makes_value (readName_olderThan env s first)
  | list items ih =>
    rw [evaluate, evaluateItems_eq_mapM]
    refine makes_bind (makes_values fun item hitem => ih item hitem) fun _ _ values hvalues => ?_
    exact makes_value (.list hvalues)
  | map entries ih =>
    rw [evaluate, evaluateEntries_eq_mapM]
    have hentry : ∀ entry ∈ entries, (evaluateEntry forcing env entry).Makes first
        fun next entry => entry.1.OlderThan next ∧ entry.2.OlderThan next := by
      intro entry hentry
      refine makes_bind (ih entry hentry).1 fun _ _ key hkey => ?_
      refine makes_bind (ih entry hentry).2 fun _ hle value hvalue => ?_
      exact makes_pure fun _ hle' => ⟨hkey.mono (hle.trans hle'), hvalue.mono hle'⟩
    exact makes_bind (makes_entries hentry) fun _ _ found hfound => makes_value (.ofList hfound)
  | negate operand ih =>
    exact makes_bind ih fun _ _ v hv => Operator.subtract.combine_makes env (.int 0) hv
  | arithmetic operator left right ihleft ihright =>
    refine makes_bind ihleft fun _ _ left hleft => makes_bind ihright fun _ hle right hright => ?_
    exact operator.combine_makes env (hleft.mono hle) hright
  | append head tail ihhead ihtail =>
    refine makes_bind ihhead fun _ _ head hhead => makes_bind ihtail fun _ hle tail htail => ?_
    exact makes_sequence (hhead.mono hle) htail
  | call target args kwargs ihtarget ihargs ihkwargs =>
    rw [evaluate, evaluateItems_eq_mapM, evaluateKeywords_eq_mapM]
    refine makes_bind ihtarget fun _ _ target htarget => ?_
    refine makes_bind (makes_values fun arg harg => ihargs arg harg) fun _ hle args hargs => ?_
    have hkeyword : ∀ entry ∈ kwargs, ∀ next, (evaluateKeyword forcing env entry).Makes next
        fun next entry => entry.2.OlderThan next := fun entry hentry next =>
      makes_bind (ihkwargs entry hentry) fun _ _ v hv => makes_pure fun _ hle => hv.mono hle
    refine makes_bind (makes_mapM (fun _ _ _ hle hv => hv.mono hle) fun entry hentry =>
      hkeyword entry hentry _) fun _ hle' kwargs hkwargs => ?_
    exact callValue_makes hforcing hkeeps env (htarget.mono (hle.trans hle'))
      (fun arg harg => (hargs arg harg).mono hle') hkwargs

end

/-- A value that has been made may be bound. -/
theorem makes_assignment (env : EnvId) (name : String) {v : Value} (hv : v.OlderThan first) :
    (modify (Store.bind env name v) : Eval PUnit).Makes first fun _ _ => True := by
  intro store outcome after hfirst hstore hends
  rw [(ends_modify.mp hends).2]
  refine ⟨le_rfl, fun other found bound hbound => ?_, fun _ _ => trivial⟩
  obtain hsame | ⟨-, -, hnew⟩ := store.binding?_bind_cases env name v other found
  · exact hstore other found bound (hsame ▸ hbound)
  · obtain rfl : v = bound := by simpa [hnew] using hbound
    exact hv.mono hfirst

section
variable (hforcing : forcing.Makes) (hkeeps : forcing.Keeps Store.Follows)
include hforcing hkeeps

theorem Statement.execute_makes (env : EnvId) (statement : Statement) :
    (statement.execute forcing env).Makes first
      fun next value? => ∀ v, value? = some v → v.OlderThan next := by
  refine makes_bind (statement.value.evaluate_makes hforcing hkeeps env) fun _ _ v hv => ?_
  split
  · exact makes_bind (makes_assignment env _ hv) fun _ _ _ _ =>
      makes_pure fun _ _ _ hnone => by cases hnone
  · refine makes_pure fun _ hle w hw => ?_
    cases hw
    exact hv.mono hle

namespace Script

theorem runAll_makes (env : EnvId) {last? : Option Value} (statements : List Statement)
    (hlast : ∀ v, last? = some v → v.OlderThan first) :
    (runAll forcing env last? statements).Makes first
      fun next value? => ∀ v, value? = some v → v.OlderThan next := by
  induction statements generalizing first last? with
  | nil => exact makes_pure fun _ hle v hv => (hlast v hv).mono hle
  | cons statement rest ih =>
    exact makes_bind (statement.execute_makes hforcing hkeeps env) fun _ _ _ hvalue => ih hvalue

omit hforcing hkeeps in
theorem read_makes (source : String) : (read source).Makes first fun _ _ => True := by
  unfold read
  split
  · exact makes_pure fun _ _ => trivial
  · exact makes_throw _

theorem execute_makes (env : EnvId) (source : String) :
    (execute forcing env source).Makes first
      fun next value? => ∀ v, value? = some v → v.OlderThan next :=
  makes_bind (read_makes source) fun _ _ statements _ =>
    runAll_makes hforcing hkeeps env statements fun _ hnone => by cases hnone

theorem evaluate_makes (env : EnvId) (source : String) :
    (evaluate forcing env source).Makes first Value.OlderThan := by
  refine makes_bind (read_makes source) fun _ _ statements _ => ?_
  split
  · exact Tree.evaluate_makes hforcing hkeeps env _
  · exact makes_throw _

end Script

end

/-! ## 2. The console -/

namespace Console

theorem say_follows (text : String) : (say text).Keeps Store.Follows :=
  keeps_modify fun _ => ⟨rfl, le_rfl⟩

/-- Giving numbers back leaves no fewer nodes than there were. -/
theorem withoutNodes_follows {α : Type} {action : Eval α} (h : action.Keeps Store.Follows) :
    (withoutNodes action).Keeps Store.Follows := by
  intro store outcome after hends
  have hget : (get : Eval Store).Ends store (.ok store) store := rfl
  unfold withoutNodes at hends
  rw [hget.bind_iff] at hends
  rcases ends_bind.mp hends with ⟨result, between, hresult, hends⟩ | ⟨failure, hfailure, -⟩
  · have hmodify : (modify fun changed => { changed with nextNode := store.nextNode } :
        Eval PUnit).Ends between (.ok ⟨⟩) { between with nextNode := store.nextNode } := rfl
    rw [hmodify.bind_iff, ends_pure] at hends
    rw [hends.2]
    exact ⟨(h _ _ _ hresult).bindings, le_rfl⟩
  · exact h _ _ _ hfailure

section
variable (hkeeps : forcing.Keeps Store.Follows) (options : Options)
include hkeeps

theorem showValue_follows (v : Value) : (showValue options forcing v).Keeps Store.Follows := by
  unfold showValue
  split
  · exact keeps_pure none
  · split
    · refine keeps_bind (Json.render_keeps hkeeps _) fun result => ?_
      cases result with
      | ok text => exact keeps_bind (say_follows _) fun _ => keeps_pure none
      | error failure => exact keeps_pure _
    · refine keeps_bind (Display.present_keeps hkeeps say_follows _ _) fun _ => ?_
      exact keeps_bind (say_follows _) fun _ => keeps_pure none

theorem respond_follows (v : Value) : (respond options forcing v).Keeps Store.Follows := by
  refine withoutNodes_follows (keeps_bind (keeps_attempt (hkeeps v)) fun result => ?_)
  cases result with
  | ok forced => exact showValue_follows hkeeps options forced
  | error failure => exact keeps_pure _

theorem runLine_makes (hforcing : forcing.Makes) (env : EnvId) (line : String) :
    (runLine options forcing env line).Makes first fun _ _ => True := by
  refine makes_bind (makes_attempt (Script.execute_makes hforcing hkeeps env line)) ?_
  intro _ _ result _
  split
  · exact makes_pure fun _ _ => trivial
  · exact makes_pure fun _ _ => trivial
  · exact (respond_follows hkeeps options _).makes

theorem turn_makes (hforcing : forcing.Makes) (env : EnvId) (line : List Char) :
    (turn options forcing env line).Makes first fun _ _ => True := by
  unfold turn
  dsimp only
  split
  · exact makes_pure fun _ _ => trivial
  · split
    · exact makes_pure fun _ _ => trivial
    · exact makes_bind (runLine_makes hkeeps options hforcing env _) fun _ _ _ _ =>
        makes_pure fun _ _ => trivial

theorem run_makes (hforcing : forcing.Makes) (env : EnvId) (lines : List (List Char)) :
    (run options forcing env lines).Makes first fun _ _ => True := by
  induction lines generalizing first with
  | nil => exact makes_bind (say_follows _).makes fun _ _ _ _ => makes_pure fun _ _ => trivial
  | cons line rest ih =>
    refine makes_bind (say_follows _).makes fun _ _ _ _ => ?_
    refine makes_bind (turn_makes hkeeps options hforcing env line) fun _ _ turn _ => ?_
    cases turn with
    | exit => exact makes_pure fun _ _ => trivial
    | next message? => exact makes_bind ih fun _ _ _ _ => makes_pure fun _ _ => trivial

end

end Console

/-! ## 3. What occurs has been made -/

namespace Store

theorem empty_numbered : empty.Numbered := by
  intro env name bound hbound
  simp [binding?, empty] at hbound

theorem Numbered.addEnvironment {store : Store} (h : store.Numbered) (reversePrint : Bool)
    (room : Option Nat) :
    (store.addEnvironment (.fresh reversePrint room)).2.Numbered := by
  intro env name bound hbound
  rw [binding?, Option.bind_eq_some_iff] at hbound
  obtain ⟨environment, henv, hbound⟩ := hbound
  rw [Store.addEnvironment, List.getElem?_append] at henv
  split at henv
  · exact h env name bound (by rw [binding?, henv, Option.bind_some, hbound])
  · have hnew : env - store.environments.length = 0 ∧ .fresh reversePrint room = environment := by
      simpa [List.getElem?_singleton] using henv
    rw [← hnew.2] at hbound
    cases hbound

/-- An environment that has ended still has its bindings, though they are not visible. -/
theorem Numbered.dropEnvironment {store : Store} (h : store.Numbered) (env : EnvId) :
    (store.dropEnvironment env).Numbered := by
  have hbindings : (store.dropEnvironment env).bindings = store.bindings := by
    refine List.ext_getElem? fun i => ?_
    simp only [bindings, Store.dropEnvironment, modifyEnvironment, List.getElem?_map,
      List.getElem?_modify]
    cases store.environments[i]? with
    | none => rfl
    | some environment => by_cases hi : env = i <;> simp [hi]
  exact h.of_follows ⟨hbindings, le_rfl⟩

end Store

variable {env : EnvId} {store after : Store}

/-- From a store where all that is bound has been made, the values that a script gives and binds
consist of nodes that have been made. -/
theorem Script.execute_numbers (patience : Nat) (source : String)
    {outcome : Except Failure (Option Value)} (hstore : store.Numbered)
    (h : (execute (.top patience) env source).Ends store outcome after) :
    (∀ v, outcome = .ok (some v) → after.Numbers v) ∧
      (∀ other name bound, after.binding? other name = some bound → after.Numbers bound) ∧
        after.Numbered := by
  have hforcing : (Forcing.top patience).Makes := Value.resolve_makes patience depthLimit
  have hkeeps : (Forcing.top patience).Keeps Store.Follows :=
    Value.resolve_keeps patience depthLimit
  obtain ⟨-, hafter, hvalue⟩ :=
    execute_makes hforcing hkeeps env source store outcome after (Nat.zero_le _) hstore h
  refine ⟨fun v hv => hafter.numbers (hvalue _ hv v rfl), fun other name bound hbound => ?_, hafter⟩
  exact hafter.numbers (hafter other name bound hbound)

/-- So does the value that a single expression gives. -/
theorem Script.evaluate_numbers (patience : Nat) (source : String) {v : Value}
    (hstore : store.Numbered)
    (h : (evaluate (.top patience) env source).Ends store (.ok v) after) : after.Numbers v := by
  have hforcing : (Forcing.top patience).Makes := Value.resolve_makes patience depthLimit
  have hkeeps : (Forcing.top patience).Keeps Store.Follows :=
    Value.resolve_keeps patience depthLimit
  obtain ⟨-, hafter, hvalue⟩ :=
    evaluate_makes hforcing hkeeps env source store (.ok v) after (Nat.zero_le _) hstore h
  exact hafter.numbers (hvalue v rfl)

/-- The same holds for a session with the console, which gives numbers of nodes back after it has
shown a value. -/
theorem Console.run_numbers (options : Options) (patience : Nat) (lines : List (List Char))
    {outcome : Except Failure (List String)} (hstore : store.Numbered)
    (h : (run options (.top patience) env lines).Ends store outcome after) :
    (∀ other name bound, after.binding? other name = some bound → after.Numbers bound) ∧
      after.Numbered := by
  have hforcing : (Forcing.top patience).Makes := Value.resolve_makes patience depthLimit
  have hkeeps : (Forcing.top patience).Keeps Store.Follows :=
    Value.resolve_keeps patience depthLimit
  obtain ⟨-, hafter, -⟩ :=
    run_makes hkeeps options hforcing env lines store outcome after (Nat.zero_le _) hstore h
  exact ⟨fun other name bound hbound => hafter.numbers (hafter other name bound hbound), hafter⟩

end Deferral
