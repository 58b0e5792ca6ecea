import Deferral.Proofs.Construction
import Deferral.Proofs.Footprint
import Deferral.Proofs.ParserSoundness
import Deferral.Proofs.ScriptAlike

/-!
# Scripts up to a failure

A fault in source text is found before anything runs, and nothing that runs finds one.  So a script
that fails otherwise has run up to the statement that fails, and what is bound then is what the
statements in front of it have bound (`Script.runs_to_failure`).
-/

namespace Deferral

open Eval

/-! ## 1. Faults in source text -/

def Eval.Coupling.itself : Coupling where
  stores := Eq
  failures failure := ∀ fault, failure ≠ .source fault
  endless := True

/-- Values with the same numbers are the same. -/
theorem Value.Alike.unrelated_self (v : Value) : Value.Alike (.unrelated 0 0) v v :=
  have hself : Store.empty.Holds v v := .refl
  .self (fun _ node _ _ => .inr ⟨node, by simp [Pairing.unrelated]⟩)
    (fun _ _ _ _ => trivial) (fun _ _ _ => trivial) hself

theorem Eval.lockstep_itself {α : Type} {P : α → α → Prop} {action : Eval α} (hP : ∀ a, P a a)
    (hfailure : ∀ store failure after, action.Ends store (.error failure) after →
      ∀ fault, failure ≠ .source fault) : action.Lockstep .itself P action := by
  rintro store _ rfl
  have hfailure := hfailure store
  unfold Ends at hfailure
  generalize action.run.run store = result at hfailure ⊢
  match result with
  | none => exact .endless trivial
  | some (.ok a, after) => exact .ok (hP a) rfl
  | some (.error failure, after) => exact .error (hfailure failure after rfl) rfl

instance : Coupling.itself.Shows (.unrelated 0 0) where
  freshNode := by
    apply lockstep_itself
    · exact fun node => .inr ⟨node, by simp [Pairing.unrelated]⟩
    · intro store failure after h
      cases (ends_freshNode.mp h).1
  failures _ h fault := by
    rintro rfl
    cases h
  anyFailure _ h := h
  endless := trivial
  environment env _ := by
    apply lockstep_itself
    · refine fun environment => ⟨fun _ => rfl, fun name _ => ?_⟩
      cases environment.bindings.get? name with
      | none => exact .none
      | some bound => exact .some (.unrelated_self bound)
    · intro store failure after h
      have hdetached := (ends_environment.mp h).1
      cases hlive : store.live? env <;> rw [hlive] at hdetached <;> cases hdetached
      nofun
  print env text text' _ hsame := by
    obtain rfl := hsame trivial
    apply lockstep_itself fun _ => rfl
    intro store failure after h
    cases hlive : store.live? env with
    | none =>
      cases ((print_ends_detached hlive).mp h).1
      nofun
    | some environment =>
      have hfull := ((print_ends hlive).mp h).1
      split at hfull <;> cases hfull
      nofun

/-- Source text is read before it is evaluated, and never again. -/
theorem Tree.evaluate_ne_source (patience room : Nat) (env : EnvId) (t : Tree)
    {store after : Store} {failure : Failure}
    (h : (t.evaluate ⟨Value.resolve patience room, patience⟩ env).Ends store (.error failure)
      after) (fault : SyntaxFailure) : failure ≠ .source fault := by
  have hforcing : Forcing.Lockstep .itself (.unrelated 0 0)
      ⟨Value.resolve patience room, patience⟩ :=
    Value.resolve_lockstep patience room fun hother => absurd trivial hother
  have henv : (Pairing.unrelated 0 0).environments env := trivial
  have hlockstep := hforcing.evaluate henv (fun _ => trivial) t
  -- Side by side with itself a run fails only in ways that the coupling admits.
  obtain ⟨outcome', after', -, hsame, -⟩ := hlockstep.ends rfl h
  cases hsame with
  | error hfailure => exact hfailure fault

/-! ## 2. Statements -/

namespace Statement

def settle (env : EnvId) (statement : Statement) (value : Value) (store : Store) : Store :=
  match statement.target with
  | some name => store.bind env name value
  | none => store

def result (statement : Statement) (value : Value) : Option Value :=
  match statement.target with
  | some _ => none
  | none => some value

def assign (statement : Statement) (value : Value) (bindings : Bindings) : Bindings :=
  match statement.target with
  | some name => bindings.insert name value
  | none => bindings

variable {forcing : Forcing} {env : EnvId} {statement : Statement} {store after : Store}

theorem execute_eq (forcing : Forcing) (env : EnvId) (statement : Statement) :
    statement.execute forcing env = do
      let value ← statement.value.evaluate forcing env
      modify (statement.settle env value)
      return statement.result value := by
  unfold execute settle result
  congr 1
  funext value
  cases statement.target with
  | none => rfl
  | some name => rfl

theorem execute_ends_ok {found : Option Value} :
    (statement.execute forcing env).Ends store (.ok found) after ↔
      ∃ value between, (statement.value.evaluate forcing env).Ends store (.ok value) between ∧
        found = statement.result value ∧ after = statement.settle env value between := by
  simp only [execute_eq, ends_bind_ok, ends_modify, ends_pure_ok]
  constructor
  · rintro ⟨value, between, hvalue, -, -, ⟨-, rfl⟩, rfl, rfl⟩
    exact ⟨value, between, hvalue, rfl, rfl⟩
  · rintro ⟨value, between, hvalue, rfl, rfl⟩
    exact ⟨value, between, hvalue, ⟨⟩, _, ⟨trivial, rfl⟩, rfl, rfl⟩

theorem execute_ends_error {failure : Failure} :
    (statement.execute forcing env).Ends store (.error failure) after ↔
      (statement.value.evaluate forcing env).Ends store (.error failure) after := by
  simp only [execute_eq, ends_bind, ends_modify, ends_pure]
  constructor
  · rintro (⟨value, between, -, hfalse⟩ | ⟨_, h, heq⟩)
    · simp at hfalse
    · cases heq
      exact h
  · exact fun h => .inr ⟨failure, h, rfl⟩

theorem settle_bindings (env : EnvId) (statement : Statement) (value : Value) (store : Store) :
    (statement.settle env value store).bindings =
      store.bindings.modify env (statement.assign value) := by
  unfold settle assign
  cases statement.target with
  | none => exact (List.modify_id ..).symm
  | some name => exact store.bindings_bind env name value

end Statement

/-! ## 3. Runs of statements -/

namespace Script

inductive Steps (forcing : Forcing) (env : EnvId) :
    Store → List (Statement × Value) → Store → Prop
  | nil {store : Store} : Steps forcing env store [] store
  | cons {statement : Statement} {value : Value} {done : List (Statement × Value)}
      {store between after : Store} :
      (statement.value.evaluate forcing env).Ends store (.ok value) between →
      Steps forcing env (statement.settle env value between) done after →
      Steps forcing env store ((statement, value) :: done) after

def lastResult (done : List (Statement × Value)) : Option Value :=
  done.getLast?.bind fun entry => entry.1.result entry.2

theorem lastResult_of_none (done : List (Statement × Value)) :
    (if done = [] then none else lastResult done) = lastResult done := by
  cases done <;> rfl

variable {forcing : Forcing} {env : EnvId} {store after : Store}

/-- A script runs up to its end, or to the first statement whose expression fails. -/
theorem runAll_ends {last : Option Value} {statements : List Statement}
    {outcome : Except Failure (Option Value)} :
    (runAll forcing env last statements).Ends store outcome after ↔
      ∃ done between, Steps forcing env store done between ∧
        ((statements = done.map Prod.fst ∧ after = between ∧
            outcome = .ok (if done = [] then last else lastResult done)) ∨
          ∃ failing rest failure, statements = done.map Prod.fst ++ failing :: rest ∧
            outcome = .error failure ∧
              (failing.value.evaluate forcing env).Ends between (.error failure) after) := by
  -- The first statement fails, or it settles the store and the value that the rest begins with.
  induction statements generalizing store last with
  | nil =>
    rw [runAll, ends_pure]
    constructor
    · rintro ⟨rfl, rfl⟩
      exact ⟨[], _, .nil, .inl ⟨rfl, rfl, rfl⟩⟩
    · rintro ⟨done, between, hsteps, ⟨hdone, rfl, rfl⟩ | ⟨_, _, _, hnil, -⟩⟩
      · obtain rfl := List.map_eq_nil_iff.mp hdone.symm
        cases hsteps
        exact ⟨rfl, rfl⟩
      · simp at hnil
  | cons statement rest ih =>
    rw [runAll, ends_bind]
    constructor
    · rintro (⟨found, between, hfound, hrest⟩ | ⟨failure, hfailure, rfl⟩)
      · obtain ⟨value, middle, hvalue, rfl, rfl⟩ := Statement.execute_ends_ok.mp hfound
        obtain ⟨done, last, hsteps, hend⟩ := ih.mp hrest
        refine ⟨(statement, value) :: done, last, .cons hvalue hsteps, ?_⟩
        rcases hend with ⟨rfl, rfl, rfl⟩ | ⟨failing, others, failure, rfl, rfl, hfailing⟩
        · refine .inl ⟨rfl, rfl, ?_⟩
          cases done <;> rfl
        · exact .inr ⟨failing, others, failure, rfl, rfl, hfailing⟩
      · exact ⟨[], store, .nil, .inr ⟨statement, rest, failure, rfl, rfl,
          Statement.execute_ends_error.mp hfailure⟩⟩
    · rintro ⟨done, between, hsteps, hend⟩
      cases hsteps with
      | nil =>
        rcases hend with ⟨hfalse, -⟩ | ⟨failing, others, failure, heq, rfl, hfailing⟩
        · cases hfalse
        · cases heq
          exact .inr ⟨failure, Statement.execute_ends_error.mpr hfailing, rfl⟩
      | @cons first value done _ middle _ hvalue hsteps =>
        have hfirst : statement = first := by
          rcases hend with ⟨heq, -⟩ | ⟨_, _, _, heq, -⟩ <;> exact (List.cons.inj heq).1
        subst hfirst
        refine .inl ⟨_, _, Statement.execute_ends_ok.mpr ⟨value, middle, hvalue, rfl, rfl⟩, ?_⟩
        refine ih.mpr ⟨done, between, hsteps, ?_⟩
        rcases hend with ⟨heq, rfl, rfl⟩ | ⟨failing, others, failure, heq, rfl, hfailing⟩
        · refine .inl ⟨(List.cons.inj heq).2, rfl, ?_⟩
          cases done <;> rfl
        · exact .inr ⟨failing, others, failure, (List.cons.inj heq).2, rfl, hfailing⟩

/-! ## 4. What is bound -/

def assigned (done : List (Statement × Value)) (bindings : Bindings) : Bindings :=
  done.foldl (fun found entry => entry.1.assign entry.2 found) bindings

theorem assigned_append (done later : List (Statement × Value)) (bindings : Bindings) :
    assigned (done ++ later) bindings = assigned later (assigned done bindings) :=
  List.foldl_append

theorem get?_assigned {done : List (Statement × Value)} {name : String}
    (h : ∀ entry ∈ done, entry.1.target ≠ some name) (bindings : Bindings) :
    (assigned done bindings).get? name = bindings.get? name := by
  induction done generalizing bindings with
  | nil => rfl
  | cons entry rest ih =>
    have hrest := ih fun other hother => h other (List.mem_cons_of_mem entry hother)
    have hentry := h entry List.mem_cons_self
    show (assigned rest (entry.1.assign entry.2 bindings)).get? name = _
    rw [hrest, Statement.assign]
    cases htarget : entry.1.target with
    | none => rfl
    | some other =>
      have hother : ¬ other = name := fun heq => hentry (heq ▸ htarget)
      simp [Bindings.get?_insert, hother]

theorem Steps.bindings (hkeeps : forcing.Keeps Store.OnlyPrints)
    {done : List (Statement × Value)} (h : Steps forcing env store done after) :
    after.bindings = store.bindings.modify env (assigned done) := by
  induction h with
  | nil => exact (List.modify_id ..).symm
  | @cons statement value done store between after hvalue _ ih =>
    have hbetween := (statement.value.evaluate_keeps hkeeps env _ _ _ hvalue).bindings
    rw [ih, Statement.settle_bindings, hbetween, List.modify_modify_eq]
    rfl

/-- What is bound after statements that have run, in words of the statements: nothing has changed
but the names that they assign, and such a name is bound to the value of the last assignment. -/
structure Leaves (env : EnvId) (store : Store) (done : List (Statement × Value)) (after : Store) :
    Prop where
  others : ∀ other, other ≠ env → after.bindings[other]? = store.bindings[other]?
  kept : ∀ name, (∀ entry ∈ done, entry.1.target ≠ some name) →
    after.binding? env name = store.binding? env name
  last : ∀ earlier statement value later name, done = earlier ++ (statement, value) :: later →
    statement.target = some name → (∀ entry ∈ later, entry.1.target ≠ some name) →
      env < store.environments.length → after.binding? env name = some value

theorem Leaves.of_bindings {done : List (Statement × Value)}
    (h : after.bindings = store.bindings.modify env (assigned done)) :
    Leaves env store done after where
  others other hother := by rw [h, List.getElem?_modify_ne _ _ hother.symm]
  kept name hname := by
    rw [Store.binding?_eq, Store.binding?_eq, h, List.getElem?_modify_eq]
    cases store.bindings[env]? with
    | none => rfl
    | some bindings => exact get?_assigned hname bindings
  last earlier statement value later name hdone htarget hlater henv := by
    have hbindings : store.bindings[env]? = some store.environments[env].bindings := by
      simp [Store.bindings, henv]
    rw [Store.binding?_eq, h, List.getElem?_modify_eq, hbindings]
    show (assigned done _).get? name = some value
    rw [hdone, assigned_append, show assigned ((statement, value) :: later) _ =
      assigned later (statement.assign value _) from rfl, get?_assigned hlater, Statement.assign,
      htarget]
    simp [Bindings.get?_insert]

/-! ## 5. The entry points -/

/-- Reading source text runs nothing. -/
theorem read_ends {source : String} {outcome : Except Failure (List Statement)} :
    (read source).Ends store outcome after ↔
      outcome = (parse source).mapError .source ∧ after = store := by
  unfold read
  cases parse source with
  | ok statements => exact ends_pure
  | error fault => exact ends_throw

section
variable {source : String}

theorem execute_ends_of_fault {fault : SyntaxFailure} (h : parse source = .error fault)
    {outcome : Except Failure (Option Value)} :
    (execute forcing env source).Ends store outcome after ↔
      outcome = .error (.source fault) ∧ after = store := by
  unfold execute
  rw [ends_bind]
  simp [read_ends, h, Except.mapError, and_comm]

theorem execute_ends_of_parse {statements : List Statement} (h : parse source = .ok statements)
    {outcome : Except Failure (Option Value)} :
    (execute forcing env source).Ends store outcome after ↔
      (runAll forcing env none statements).Ends store outcome after :=
  Ends.bind_iff (read_ends.mpr ⟨by rw [h]; rfl, rfl⟩)

/-- To evaluate a source text that is one bare expression is to execute it. -/
theorem evaluate_ends_of_single {line : Nat} {t : Tree} (h : parse source = .ok [⟨line, none, t⟩])
    {outcome : Except Failure Value} :
    (evaluate forcing env source).Ends store outcome after ↔
      (execute forcing env source).Ends store (outcome.map some) after := by
  have hread : (read source).Ends store (.ok [⟨line, none, t⟩]) store :=
    read_ends.mpr ⟨by rw [h]; rfl, rfl⟩
  have hstatement (found : Option Value) (store : Store) :
      runAll forcing env found [] = pure found := rfl
  rw [execute_ends_of_parse h]
  unfold evaluate
  rw [hread.bind_iff, runAll]
  show (t.evaluate forcing env).Ends store outcome after ↔ _
  cases outcome with
  | ok value =>
    show _ ↔ Ends _ store (.ok (some value)) after
    simp only [ends_bind_ok, Statement.execute_ends_ok, runAll, ends_pure_ok]
    constructor
    · exact fun hends => ⟨_, _, ⟨value, after, hends, rfl, rfl⟩, rfl, rfl⟩
    · rintro ⟨_, _, ⟨_, _, hends, rfl, rfl⟩, heq, rfl⟩
      cases heq
      exact hends
  | error failure =>
    show _ ↔ Ends _ store (.error failure) after
    rw [ends_bind]
    constructor
    · exact fun hends => .inr ⟨failure, Statement.execute_ends_error.mpr hends, rfl⟩
    · rintro (⟨_, _, -, hfalse⟩ | ⟨_, hends, heq⟩)
      · cases (ends_pure.mp hfalse).1
      · cases heq
        exact Statement.execute_ends_error.mp hends

theorem evaluate_ends_of_other (h : ∀ line t, parse source ≠ .ok [⟨line, none, t⟩])
    {outcome : Except Failure Value}
    (hrun : (evaluate forcing env source).Ends store outcome after) :
    (∃ fault, outcome = .error (.source fault)) ∧ after = store := by
  unfold evaluate at hrun
  rcases ends_bind.mp hrun with ⟨statements, between, hread, hends⟩ | ⟨failure, hread, rfl⟩
  · obtain ⟨hparse, rfl⟩ := read_ends.mp hread
    have hstatements : parse source = .ok statements := by
      cases hsource : parse source <;> rw [hsource] at hparse <;> cases hparse
      rfl
    split at hends
    · exact absurd hstatements (h _ _)
    · obtain ⟨rfl, rfl⟩ := ends_throw.mp hends
      exact ⟨⟨_, rfl⟩, rfl⟩
  · obtain ⟨hparse, rfl⟩ := read_ends.mp hread
    cases hsource : parse source <;> rw [hsource] at hparse <;> cases hparse
    exact ⟨⟨_, rfl⟩, rfl⟩

end

/-- Execution is all or nothing where source text is at fault, and goes up to the statement that
fails otherwise.

No expression fails with a fault in source text.  So an entry point that does has found it while it
read the text, and the store is what it was.  Else the script runs statement by statement: either to
its end, and then its value is that of its last statement if this is a bare expression, or up to the
first statement whose expression fails, which fails the script in the same way and binds nothing.
What is bound afterwards is what is bound in front of that statement. -/
theorem runs_to_failure (patience room : Nat) (env : EnvId) (source : String) (store : Store) :
    let forcing : Forcing := ⟨Value.resolve patience room, patience⟩
    (∀ (statement : Statement) (before after : Store) (fault : SyntaxFailure),
      ¬ (statement.execute forcing env).Ends before (.error (.source fault)) after) ∧
    (∀ fault after, (run forcing env source).Ends store (.error (.source fault)) after ∨
        (execute forcing env source).Ends store (.error (.source fault)) after ∨
        (evaluate forcing env source).Ends store (.error (.source fault)) after →
      after = store) ∧
    (∀ outcome after, (run forcing env source).Ends store outcome after ↔
      ∃ result, (execute forcing env source).Ends store result after ∧
        outcome = result.map fun _ => ()) ∧
    (∀ line t, parse source = .ok [⟨line, none, t⟩] → ∀ outcome after,
      (evaluate forcing env source).Ends store outcome after ↔
        (execute forcing env source).Ends store (outcome.map some) after) ∧
    ((∀ line t, parse source ≠ .ok [⟨line, none, t⟩]) → ∀ outcome after,
      (evaluate forcing env source).Ends store outcome after →
        ∃ fault, outcome = .error (.source fault)) ∧
    ∀ statements, parse source = .ok statements → ∀ outcome after,
      (execute forcing env source).Ends store outcome after ↔
        ∃ done between, Steps forcing env store done between ∧
          ((statements = done.map Prod.fst ∧ after = between ∧ outcome = .ok (lastResult done)) ∨
            ∃ failing rest failure, statements = done.map Prod.fst ++ failing :: rest ∧
              outcome = .error failure ∧
                (failing.value.evaluate forcing env).Ends between (.error failure) after) ∧
          after.bindings = between.bindings ∧ Leaves env store done after := by
  intro forcing
  have hkeeps : forcing.Keeps Store.OnlyPrints := fun v => v.resolve_keeps patience room
  have hstatement : ∀ (statement : Statement) (before after : Store) (fault : SyntaxFailure),
      ¬ (statement.execute forcing env).Ends before (.error (.source fault)) after := by
    intro statement before after fault h
    have hevaluate := Statement.execute_ends_error.mp h
    exact Tree.evaluate_ne_source patience room env statement.value hevaluate fault rfl
  have hexecute : ∀ fault after,
      (execute forcing env source).Ends store (.error (.source fault)) after → after = store := by
    intro fault after h
    cases hparse : parse source with
    | error found => exact ((execute_ends_of_fault hparse).mp h).2
    | ok statements =>
      obtain ⟨_, _, -, hend⟩ := runAll_ends.mp ((execute_ends_of_parse hparse).mp h)
      rcases hend with ⟨-, -, hok⟩ | ⟨failing, _, failure, -, heq, hfailing⟩
      · cases hok
      · cases heq
        exact absurd rfl (Tree.evaluate_ne_source patience room env failing.value hfailing fault)
  refine ⟨hstatement, ?_, fun _ _ => run_ends, fun _ _ h _ _ => evaluate_ends_of_single h,
    fun h _ _ hends => (evaluate_ends_of_other h hends).1, ?_⟩
  · rintro fault after (h | h | h)
    · obtain ⟨result, hresult, heq⟩ := run_ends.mp h
      cases result with
      | ok value => cases heq
      | error failure =>
        cases heq
        exact hexecute fault after hresult
    · exact hexecute fault after h
    · by_cases hsingle : ∃ line t, parse source = .ok [⟨line, none, t⟩]
      · obtain ⟨line, t, hparse⟩ := hsingle
        exact hexecute fault after ((evaluate_ends_of_single hparse).mp h)
      · have hother : ∀ line t, parse source ≠ .ok [⟨line, none, t⟩] :=
          fun line t hparse => hsingle ⟨line, t, hparse⟩
        exact (evaluate_ends_of_other hother h).2
  · intro statements hparse outcome after
    simp only [execute_ends_of_parse hparse, runAll_ends, lastResult_of_none]
    constructor
    · rintro ⟨done, between, hsteps, hend⟩
      have hbindings : after.bindings = between.bindings := by
        rcases hend with ⟨-, rfl, -⟩ | ⟨failing, _, _, -, -, hfailing⟩
        · rfl
        · exact (failing.value.evaluate_keeps hkeeps env _ _ _ hfailing).bindings
      refine ⟨done, between, hsteps, hend, hbindings, .of_bindings ?_⟩
      rw [hbindings, hsteps.bindings hkeeps]
    · rintro ⟨done, between, hsteps, hend, -, -⟩
      exact ⟨done, between, hsteps, hend⟩

/-- A script that divides by zero where it would bind a name again, after it has printed. -/
theorem runs_to_failure_division :
    let source := "x = 1\ny = x + z\nprint(x)\nx = \"a\"\ny = 1 / 0\nx = 2"
    let forcing : Forcing := ⟨Value.resolve 2 8, 2⟩
    let store := Store.single [("w", .nil)]
    ∃ after, (run forcing 0 source).Ends store
        (.error (.arithmetic (.divisionByZero 1 0))) after ∧
      after.bindings = [[("w", .nil), ("x", .str "a"),
        ("y", .expression 0 0 .add (.symbol 0 "x") (.symbol 0 "z"))]] ∧
      after.transcript = [.printed 0 "1\n".toUTF8] := by
  intro source forcing store
  have htokens : tokenize source = .ok ⟨[⟨1, .name "x"⟩, ⟨1, .assign⟩, ⟨1, .integer 1⟩,
      ⟨1, .separator⟩, ⟨2, .name "y"⟩, ⟨2, .assign⟩, ⟨2, .name "x"⟩, ⟨2, .plus⟩, ⟨2, .name "z"⟩,
      ⟨2, .separator⟩, ⟨3, .name "print"⟩, ⟨3, .openParen⟩, ⟨3, .name "x"⟩, ⟨3, .closeParen⟩,
      ⟨3, .separator⟩, ⟨4, .name "x"⟩, ⟨4, .assign⟩, ⟨4, .text "a"⟩, ⟨4, .separator⟩,
      ⟨5, .name "y"⟩, ⟨5, .assign⟩, ⟨5, .integer 1⟩, ⟨5, .slash⟩, ⟨5, .integer 0⟩,
      ⟨5, .separator⟩, ⟨6, .name "x"⟩, ⟨6, .assign⟩, ⟨6, .integer 2⟩], 6⟩ := by
    decide +kernel
  have hparse : parse source = .ok [⟨1, some "x", .int 1⟩,
      ⟨2, some "y", .arithmetic .add (.name "x") (.name "z")⟩,
      ⟨3, none, .call (.name "print") [.name "x"] []⟩, ⟨4, some "x", .text "a"⟩,
      ⟨5, some "y", .arithmetic .divide (.int 1) (.int 0)⟩, ⟨6, some "x", .int 2⟩] := by
    rw [parse_eq htokens]
    rfl
  obtain ⟨-, -, hrun, -⟩ := runs_to_failure 2 8 0 source store
  exact ⟨_, (hrun _ _).mpr ⟨_, (execute_ends_of_parse hparse).mpr rfl, rfl⟩, rfl, rfl⟩

end Script

end Deferral
