import Deferral.Proofs.Concatenation
import Deferral.Proofs.Responses
import Deferral.Proofs.ScriptRuns
import Deferral.Proofs.Trimming

/-!
# Sessions and scripts

The console takes one line at a time, cuts off its end, and forces and shows what it gives.  A
script is the same lines in one text, where nothing is forced to be shown.  Both bind the same
(`Console.run_mirrors`): the texts have the same statements, forcing binds nothing, and what showing
a value has made is gone afterwards.
-/

namespace Deferral

open Eval

/-! ## 1. Mirrored stores -/

theorem Store.live?_bind_of_ne (store : Store) {env other : EnvId} (h : env ≠ other)
    (name : String) (v : Value) : (store.bind env name v).live? other = store.live? other := by
  unfold Store.bind Store.modifyEnvironment Store.live?
  rw [List.getElem?_modify_ne _ _ h]

def Pairing.sessions (first second : Nat) : Pairing where
  first := first
  second := second
  old a b := a = b ∧ a < first ∧ b < second
  old_lt := fun _ _ hold => hold.2
  old_inj := fun _ _ _ _ ⟨heq, _⟩ ⟨heq', _⟩ => by rw [heq, heq']
  environments _ := True
  symbols _ _ := True
  sameOutput := False

structure Pairing.Twins (p : Pairing) (env : EnvId) (environment environment' : Environment) :
    Prop extends p.Sees env environment environment' where
  room : environment.room = none
  room' : environment'.room = none

/-- Two stores after the same steps from two others, but for their output: they have made as many
nodes, and their environments are twins. -/
structure Pairing.Mirrors (p : Pairing) (store store' : Store) : Prop where
  nextNode : ∃ made, store.nextNode = p.first + made ∧ store'.nextNode = p.second + made
  environments : ∀ env, Option.Rel (p.Twins env) (store.live? env) (store'.live? env)

def Pairing.mirroring (p : Pairing) : Coupling where
  stores := p.Mirrors
  failures _ := True
  endless := True

namespace Pairing.Mirrors

variable {p : Pairing} {store store' after after' : Store}

theorem congr (h : p.Mirrors store store') (hnode : after.nextNode = store.nextNode)
    (hnode' : after'.nextNode = store'.nextNode) (hlive : ∀ env, after.live? env = store.live? env)
    (hlive' : ∀ env, after'.live? env = store'.live? env) : p.Mirrors after after' where
  nextNode := by
    rw [hnode, hnode']
    exact h.nextNode
  environments env := by
    rw [hlive, hlive']
    exact h.environments env

theorem unbounded (h : p.Mirrors store store') : store.Unbounded ∧ store'.Unbounded := by
  constructor
  · intro env environment hlive
    obtain ⟨hnone, -⟩ | ⟨found, _, hfound, -, htwins⟩ := rel_cases (h.environments env)
    · rw [hnone] at hlive
      cases hlive
    · rw [hfound] at hlive
      cases hlive
      exact htwins.room
  · intro env environment hlive
    obtain ⟨-, hnone⟩ | ⟨_, found, -, hfound, htwins⟩ := rel_cases (h.environments env)
    · rw [hnone] at hlive
      cases hlive
    · rw [hfound] at hlive
      cases hlive
      exact htwins.room'

theorem printed (h : p.Mirrors store store') (env : EnvId) (text text' : String) :
    p.Mirrors (store.printed env text) (store'.printed env text') :=
  h.congr rfl rfl (fun other => h.unbounded.1.live?_printed env other text)
    fun other => h.unbounded.2.live?_printed env other text'

theorem bind (h : p.Mirrors store store') (env : EnvId) (name : String) {v w : Value}
    (hvalue : Value.Alike p v w) :
    p.Mirrors (store.bind env name v) (store'.bind env name w) where
  nextNode := h.nextNode
  environments other := by
    have hboth := h.environments other
    by_cases hother : env = other
    · subst hother
      rw [Store.live?_bind, Store.live?_bind]
      generalize store.live? env = x, store'.live? env = y at hboth ⊢
      cases hboth with
      | none => exact .none
      | some htwins =>
        refine .some ⟨⟨htwins.reversePrint, fun found hfound => ?_⟩, htwins.room, htwins.room'⟩
        dsimp only
        rw [Bindings.get?_insert, Bindings.get?_insert]
        split
        · exact .some hvalue
        · exact htwins.bindings found hfound
    · rwa [Store.live?_bind_of_ne _ hother, Store.live?_bind_of_ne _ hother]

theorem visible? (h : p.Mirrors store store') (env : EnvId) (name : String)
    (hname : p.symbols env name) :
    Option.Rel (Value.Alike p) (store.visible? env name) (store'.visible? env name) := by
  obtain ⟨hnone, hnone'⟩ | ⟨_, _, hlive, hlive', htwins⟩ := rel_cases (h.environments env)
  · rw [Store.visible?, Store.visible?, hnone, hnone']
    exact .none
  · rw [Store.visible?_of_live? hlive, Store.visible?_of_live? hlive']
    exact htwins.bindings name hname

end Pairing.Mirrors

instance (first second : Nat) :
    (Pairing.sessions first second).mirroring.Binds (.sessions first second) where
  freshNode := by
    refine lockstep_freshNode fun store store' h => ⟨h.nextNode, ?_, h.environments⟩
    obtain ⟨made, hnext, hnext'⟩ := h.nextNode
    exact ⟨made + 1, by rw [hnext, Nat.add_assoc], by rw [hnext', Nat.add_assoc]⟩
  failures _ _ := trivial
  anyFailure _ _ := trivial
  endless := trivial
  environment env _ :=
    lockstep_environment trivial (fun _ _ htwins => htwins.toSees) fun _ _ h => h.environments env
  print env text text' _ _ := by
    refine lockstep_of_ends fun store store' h => ?_
    obtain ⟨hnone, hnone'⟩ | ⟨_, _, hlive, hlive', htwins⟩ := rel_cases (h.environments env)
    · exact ⟨_, _, _, _, (print_ends_detached hnone).mpr ⟨rfl, rfl⟩,
        (print_ends_detached hnone').mpr ⟨rfl, rfl⟩, .error trivial, h⟩
    · refine ⟨_, _, _, _, (print_ends hlive).mpr ⟨rfl, rfl⟩, (print_ends hlive').mpr ⟨rfl, rfl⟩,
        ?_, h.printed env text text'⟩
      -- A sink without a bound refuses nothing.
      have htaken : ∀ text : String, ¬ (takenBytes none text).size < text.utf8ByteSize := by
        simp [takenBytes]
      rw [htwins.room, htwins.room', if_neg (htaken text), if_neg (htaken text')]
      exact .ok rfl
  bind env name v w _ hvalue := by
    refine lockstep_of_ends fun store store' h => ?_
    exact ⟨_, _, _, _, ends_modify.mpr ⟨rfl, rfl⟩, ends_modify.mpr ⟨rfl, rfl⟩, .ok rfl,
      h.bind env name hvalue⟩

theorem Store.mirrors {store store' : Store} (hnumbered : store.Numbered)
    (hnumbered' : store'.Numbered) (hbounds : store.Unbounded) (hbounds' : store'.Unbounded)
    (hlive : ∀ env, (store'.live? env).isSome = (store.live? env).isSome)
    (hvisible : ∀ env name, store'.visible? env name = store.visible? env name) :
    (Pairing.sessions store.nextNode store'.nextNode).Mirrors store store' where
  nextNode := ⟨0, rfl, rfl⟩
  environments env := by
    cases hfirst : store.live? env with
    | none =>
      have hnone := hlive env
      rw [hfirst, Option.isSome_none, Option.isSome_eq_false_iff,
        Option.isNone_iff_eq_none] at hnone
      rw [hnone]
      exact .none
    | some environment =>
      have hsome := hlive env
      rw [hfirst, Option.isSome_some] at hsome
      obtain ⟨environment', hsecond⟩ := Option.isSome_iff_exists.mp hsome
      rw [hsecond]
      refine .some ⟨⟨nofun, fun name _ => ?_⟩, hbounds env _ hfirst, hbounds' env _ hsecond⟩
      have hsame := hvisible env name
      rw [← visible?_of_live? hfirst, ← visible?_of_live? hsecond, hsame]
      cases hvalue : store.visible? env name with
      | none => exact .none
      | some v =>
        have hold := hnumbered env name v (binding?_of_visible? hvalue)
        have hold' := hnumbered' env name v (binding?_of_visible? (hsame.trans hvalue))
        -- What is bound is older than the store that has made fewer nodes.
        rcases Nat.le_total store.nextNode store'.nextNode with hle | hle
        · exact .some (.of_olderThan hold (fun _ hnode => .inl ⟨rfl, hnode, hnode.trans_le hle⟩)
            (fun _ => trivial) fun _ _ => trivial)
        · exact .some (.of_olderThan hold' (fun _ hnode => .inl ⟨rfl, hnode.trans_le hle, hnode⟩)
            (fun _ => trivial) fun _ _ => trivial)

/-! ## 2. Statements -/

theorem Statement.execute_of_content {forcing : Forcing} {env : EnvId}
    {statement statement' : Statement} (h : statement.content = statement'.content) :
    statement.execute forcing env = statement'.execute forcing env := by
  obtain ⟨htarget, hvalue⟩ := Prod.ext_iff.mp h
  change statement.target = statement'.target at htarget
  change statement.value = statement'.value at hvalue
  rw [Statement.execute, Statement.execute, htarget, hvalue]

namespace Script

variable {forcing : Forcing} {env : EnvId}

/-- It does not matter on which lines statements stand. -/
theorem runAll_of_content {statements statements' : List Statement}
    (h : statements.map Statement.content = statements'.map Statement.content)
    (last : Option Value) :
    runAll forcing env last statements = runAll forcing env last statements' := by
  induction statements generalizing statements' last with
  | nil =>
    obtain rfl := List.map_eq_nil_iff.mp h.symm
    rfl
  | cons statement rest ih =>
    cases statements' with
    | nil => cases h
    | cons statement' rest' =>
      obtain ⟨hfirst, hrest⟩ := List.cons.inj h
      rw [runAll, runAll, Statement.execute_of_content hfirst]
      exact bind_congr fun found => ih hrest found

theorem runAll_append (last : Option Value) (statements others : List Statement) :
    runAll forcing env last (statements ++ others) =
      runAll forcing env last statements >>= fun found => runAll forcing env found others := by
  induction statements generalizing last with
  | nil => exact (pure_bind _ _).symm
  | cons statement rest ih =>
    rw [List.cons_append, runAll, runAll, bind_assoc]
    exact bind_congr fun found => ih found

end Script

/-! ## 3. Lines -/

namespace Console

variable {forcing : Forcing} {env : EnvId} {options : Options} {store after : Store}

structure Readable (line : List Char) (statements : List Statement) : Prop where
  oneLine : '\n' ∉ line
  notExit : trimBlankEnd line ≠ ['e', 'x', 'i', 't']
  parsed : parse (String.ofList line) = .ok statements

theorem Readable.trimmed {line : List Char} {statements : List Statement}
    (h : Readable line statements) :
    parse (String.ofList (trimBlankEnd line)) = .ok statements :=
  parse_trimBlankEnd h.oneLine h.parsed

theorem Readable.of_blank {line : List Char} {statements : List Statement}
    (h : Readable line statements) (hblank : (trimBlankEnd line).all isBlank = true) :
    statements = [] := by
  have hbreak : '\n' ∉ trimBlankEnd line := by
    intro hmem
    rw [trimBlankEnd, List.mem_reverse] at hmem
    exact h.oneLine (List.mem_reverse.mp ((List.dropWhile_sublist _).subset hmem))
  have hskip : Lexer.skipBlanks (trimBlankEnd line) = [] := by
    rw [Lexer.skipBlanks, List.dropWhile_eq_nil_iff]
    intro c hc
    have hother : c ≠ '\n' := fun heq => hbreak (heq ▸ hc)
    simp [hother, List.all_eq_true.mp hblank c hc]
  have htokens : tokenize (String.ofList (trimBlankEnd line)) = .ok ⟨[], 1⟩ := by
    rw [tokenize, String.toList_ofList]
    exact Lexer.scanFrom_end (by rw [Lexer.skipGap, hskip]; rfl)
  have hparse := h.trimmed
  rw [parse_eq htokens] at hparse
  exact (Except.ok.inj hparse).symm

def Rests (before after : Store) : Prop :=
  after.nextNode = before.nextNode ∧ ∀ env, after.live? env = before.live? env

/-- To take a line is to run its statements.  What is shown afterwards only adds to the output. -/
theorem runLine_runs (hkeeps : forcing.Keeps Store.Settled) {line : String}
    {statements : List Statement} (hparse : parse line = .ok statements)
    {outcome : Except Failure (Option String)}
    (h : (runLine options forcing env line).Ends store outcome after) :
    ∃ result between, (Script.runAll forcing env none statements).Ends store result between ∧
      (between.Unbounded → (∃ message?, outcome = .ok message?) ∧ Rests between after) := by
  unfold runLine at h
  rcases ends_bind.mp h with ⟨result, between, hattempt, h⟩ | ⟨failure, hattempt, -⟩
  · obtain ⟨_, heq, hrun⟩ := ends_attempt.mp hattempt
    cases heq
    refine ⟨result, between, (Script.execute_ends_of_parse hparse).mp hrun, fun hbounds => ?_⟩
    match result with
    | .error failure =>
      obtain ⟨rfl, rfl⟩ := ends_pure.mp h
      exact ⟨⟨_, rfl⟩, rfl, fun _ => rfl⟩
    | .ok none =>
      obtain ⟨rfl, rfl⟩ := ends_pure.mp h
      exact ⟨⟨_, rfl⟩, rfl, fun _ => rfl⟩
    | .ok (some v) => exact respond_unchanged options hkeeps hbounds h
  · exact absurd hattempt (unfailing_attempt _ _ _ _)

theorem turn_runs (hkeeps : forcing.Keeps Store.Settled) {line : List Char}
    {statements : List Statement} {outcome : Except Failure Turn}
    (hline : Readable line statements)
    (h : (turn options forcing env line).Ends store outcome after) :
    ∃ result between, (Script.runAll forcing env none statements).Ends store result between ∧
      (between.Unbounded → (∃ message?, outcome = .ok (.next message?)) ∧ Rests between after) := by
  unfold turn at h
  dsimp only at h
  rw [if_neg hline.notExit] at h
  split at h
  · rename_i hblank
    obtain rfl := hline.of_blank hblank
    obtain ⟨rfl, rfl⟩ := ends_pure.mp h
    exact ⟨.ok none, _, ends_pure_self _ _, fun _ => ⟨⟨none, rfl⟩, rfl, fun _ => rfl⟩⟩
  · rcases ends_bind.mp h with ⟨message?, between, hmessage, h⟩ | ⟨failure, hfailure, rfl⟩
    · obtain ⟨rfl, rfl⟩ := ends_pure.mp h
      obtain ⟨result, middle, hrun, hrests⟩ := runLine_runs hkeeps hline.trimmed hmessage
      exact ⟨result, middle, hrun, fun hbounds => ⟨⟨message?, rfl⟩, (hrests hbounds).2⟩⟩
    · obtain ⟨result, middle, hrun, hrests⟩ := runLine_runs hkeeps hline.trimmed hfailure
      refine ⟨result, middle, hrun, fun hbounds => ?_⟩
      obtain ⟨⟨_, hfalse⟩, -⟩ := hrests hbounds
      cases hfalse

/-! ## 4. Sessions -/

def FailsAt (options : Options) (forcing : Forcing) (env : EnvId) (store : Store)
    (lines : List (List Char)) : Prop :=
  ∃ done line rest messages between failure after, lines = done ++ line :: rest ∧
    (run options forcing env done).Ends store (.ok messages) between ∧
      (Script.execute forcing env (String.ofList (trimBlankEnd line))).Ends between
        (.error failure) after

theorem FailsAt.cons {line : List Char} {lines : List (List Char)} {message? : Option String}
    {between : Store}
    (hturn : (say prompt >>= fun _ => turn options forcing env line).Ends store
      (.ok (.next message?)) between)
    (h : FailsAt options forcing env between lines) :
    FailsAt options forcing env store (line :: lines) := by
  obtain ⟨done, failing, rest, messages, middle, failure, after, rfl, hrun, hfailure⟩ := h
  refine ⟨line :: done, failing, rest, message?.toList ++ messages, middle, failure, after, rfl,
    ?_, hfailure⟩
  rw [run, ← bind_assoc]
  exact hturn.bind (hrun.bind (ends_pure_self _ _))

/-- The console and a script of its lines bind alike, or some statement fails in both of them. -/
theorem run_mirrors {p : Pairing} [p.mirroring.Binds p] (hforcing : forcing.Lockstep p.mirroring p)
    (hkeeps : forcing.Keeps Store.Settled) (henv : p.environments env)
    (hsymbols : ∀ name, p.symbols env name)
    {parts : List (List Char × List Statement)} (hparts : ∀ part ∈ parts, Readable part.1 part.2)
    {store' : Store} (hstores : p.Mirrors store store') (last : Option Value)
    {outcome : Except Failure (List String)}
    (h : (run options forcing env (parts.map Prod.fst)).Ends store outcome after) :
    ∃ result after', (Script.runAll forcing env last (parts.flatMap Prod.snd)).Ends store' result
        after' ∧
      ((∃ found, result = .ok found) ∧ p.Mirrors after after' ∨
        (∃ failure, result = .error failure) ∧
          FailsAt options forcing env store (parts.map Prod.fst)) := by
  induction parts generalizing store store' last outcome with
  | nil =>
    have hsay : (say prompt).Ends store (.ok ()) _ := ends_record.mpr ⟨rfl, rfl⟩
    rw [List.map_nil, run, hsay.bind_iff, ends_pure] at h
    obtain ⟨-, rfl⟩ := h
    exact ⟨.ok last, store', ends_pure_self _ _, .inl ⟨⟨last, rfl⟩,
      hstores.congr rfl rfl (fun _ => rfl) fun _ => rfl⟩⟩
  | cons part rest ih =>
    obtain ⟨line, statements⟩ := part
    have hline := hparts _ List.mem_cons_self
    have hrest := fun other hother => hparts other (List.mem_cons_of_mem _ hother)
    let shown : Store := { store with transcript := store.transcript ++ [.shown prompt] }
    have hsay : (say prompt).Ends store (.ok ()) shown := ends_record.mpr ⟨rfl, rfl⟩
    have hshown : p.Mirrors shown store' := hstores.congr rfl rfl (fun _ => rfl) fun _ => rfl
    rw [List.map_cons, run, hsay.bind_iff] at h
    rw [List.flatMap_cons, Script.runAll_append]
    -- The statements of the line run in both, whatever comes of the line then.
    have hstep : ∃ outcome between, (turn options forcing env line).Ends shown outcome between := by
      rcases ends_bind.mp h with ⟨_, _, hturn, -⟩ | ⟨_, hturn, -⟩ <;> exact ⟨_, _, hturn⟩
    obtain ⟨outcome', between, hturn⟩ := hstep
    obtain ⟨result, middle, hrun, hrests⟩ := turn_runs hkeeps hline hturn
    obtain ⟨result', middle', hrun', hsame, hmiddle⟩ :=
      (hforcing.runAll henv hsymbols statements none last).ends hshown hrun
    cases hsame with
    | @error failure _ =>
      refine ⟨.error failure, middle', hrun'.bind_error, .inr ⟨⟨failure, rfl⟩, ?_⟩⟩
      refine ⟨[], line, rest.map Prod.fst, [], shown, failure, middle, rfl, ?_, ?_⟩
      · exact hsay.bind (ends_pure_self _ _)
      · exact (Script.execute_ends_of_parse hline.trimmed).mpr hrun
    | @ok found found' _ =>
      obtain ⟨⟨message?, rfl⟩, hnode, hlive⟩ := hrests hmiddle.unbounded.1
      have hbetween : p.Mirrors between middle' := hmiddle.congr hnode rfl hlive fun _ => rfl
      rw [hturn.bind_iff] at h
      have hmore : ∃ outcome, (run options forcing env (rest.map Prod.fst)).Ends between outcome
          after := by
        rcases ends_bind.mp h with ⟨_, _, hmessages, hpure⟩ | ⟨_, hfailure, -⟩
        · obtain ⟨-, rfl⟩ := ends_pure.mp hpure
          exact ⟨_, hmessages⟩
        · exact ⟨_, hfailure⟩
      obtain ⟨_, hmore⟩ := hmore
      obtain ⟨final, after', hfinal, hend⟩ := ih hrest hbetween found' hmore
      refine ⟨final, after', hrun'.bind hfinal, ?_⟩
      rcases hend with hend | ⟨hfailure, hfails⟩
      · exact .inl hend
      · exact .inr ⟨hfailure, hfails.cons (hsay.bind hturn)⟩

theorem exists_parts {lines : List (List Char)}
    (h : ∀ line ∈ lines, ∃ statements, Readable line statements) :
    ∃ parts : List (List Char × List Statement), parts.map Prod.fst = lines ∧
      ∀ part ∈ parts, Readable part.1 part.2 := by
  induction lines with
  | nil => exact ⟨[], rfl, by simp⟩
  | cons line rest ih =>
    obtain ⟨statements, hline⟩ := h line List.mem_cons_self
    obtain ⟨parts, rfl, hparts⟩ := ih fun other hother => h other (List.mem_cons_of_mem _ hother)
    exact ⟨(line, statements) :: parts, rfl, List.forall_mem_cons.mpr ⟨hline, hparts⟩⟩

theorem parse_lines {parts : List (List Char × List Statement)}
    (hparts : ∀ part ∈ parts, Readable part.1 part.2) :
    ∃ found, parse ("\n".intercalate ((parts.map Prod.fst).map String.ofList)) = .ok found ∧
      found.map Statement.content = (parts.flatMap Prod.snd).map Statement.content := by
  let texts := parts.map fun part => (String.ofList part.1, part.2)
  have htexts : ∀ text ∈ texts, parse text.1 = .ok text.2 := by
    intro text htext
    obtain ⟨part, hpart, rfl⟩ := List.mem_map.mp htext
    exact (hparts part hpart).parsed
  obtain ⟨found, hparse, hcontent⟩ := parse_append_content htexts
  refine ⟨found, ?_, ?_⟩
  · rw [← hparse, List.map_map, List.map_map]
    rfl
  · rw [hcontent, List.flatMap_map, List.map_flatMap]

/-- A session binds what a script of its lines binds.

The two begin in stores where the same is bound and all sinks are unbounded; the stores may differ
in their output, in how they print integers, and in the number of the next node.  Each line can be
read by itself and is not `exit`, and no statement fails, in the session or in the script.  However
values are shown, and whether or not they can be, if the session ends then the script does, and then
the same is bound again but for the numbers of new nodes. -/
theorem run_binds (patience room : Nat) (hpatience : 0 < patience) (options : Options) (env : EnvId)
    (lines : List (List Char)) (hlines : ∀ line ∈ lines, ∃ statements, Readable line statements)
    (store store' : Store) (hnumbered : store.Numbered) (hnumbered' : store'.Numbered)
    (hbounds : store.Unbounded) (hbounds' : store'.Unbounded)
    (hlive : ∀ e, (store'.live? e).isSome = (store.live? e).isSome)
    (hvisible : ∀ e name, store'.visible? e name = store.visible? e name) :
    let forcing : Forcing := ⟨Value.resolve patience room, patience⟩
    let source := "\n".intercalate (lines.map String.ofList)
    ∀ outcome after, (run options forcing env lines).Ends store outcome after →
      (¬ FailsAt options forcing env store lines ∨
        ∀ failure after', ¬ (Script.run forcing env source).Ends store' (.error failure) after') →
      ∃ after', (Script.run forcing env source).Ends store' (.ok ()) after' ∧
        ∀ e name, after'.visible? e name = (after.visible? e name).map
          (Value.renumber (renumbering store.nextNode store'.nextNode)) := by
  intro forcing source outcome after hrun hsucceeds
  let p := Pairing.sessions store.nextNode store'.nextNode
  have hforcing : forcing.Lockstep p.mirroring p :=
    Value.resolve_lockstep patience room fun _ => Nat.pos_iff_ne_zero.mp hpatience
  have hkeeps : forcing.Keeps Store.Settled := fun v => v.resolve_keeps patience room
  obtain ⟨parts, rfl, hparts⟩ := exists_parts hlines
  obtain ⟨result, after', hresult, hend⟩ := run_mirrors hforcing hkeeps trivial (fun _ => trivial)
    hparts (Store.mirrors hnumbered hnumbered' hbounds hbounds' hlive hvisible) none hrun
  obtain ⟨found, hparse, hcontent⟩ := parse_lines hparts
  rw [← Script.runAll_of_content hcontent none] at hresult
  have hscript : (Script.run forcing env source).Ends store' (result.map fun _ => ()) after' :=
    Script.run_ends.mpr ⟨result, (Script.execute_ends_of_parse hparse).mpr hresult, rfl⟩
  rcases hend with ⟨⟨value?, rfl⟩, hmirrors⟩ | ⟨⟨failure, rfl⟩, hfails⟩
  · refine ⟨after', hscript, fun e name => ?_⟩
    have hbound := hmirrors.visible? e name trivial
    generalize after.visible? e name = x, after'.visible? e name = y at hbound ⊢
    cases hbound with
    | none => rfl
    | some halike => exact congrArg some (halike.renumber_eq fun _ _ hold => hold.1).symm
  · rcases hsucceeds with hsession | hscripted
    · exact absurd hfails hsession
    · exact absurd hscript (hscripted failure after')

/-- A session that shows lists and sequences and cannot show a name, and its script in a store where
more nodes have been made and integers are printed in reverse. -/
theorem run_binds_shown :
    let lines := ["x = [1, y] \t", "  ", "x", "s = x >> missing", " s # shown", "print(x, 12)",
      "missing", "y = s"].map String.toList
    let y := Value.sequence 1 0 (.int 7) .nil
    let store := { Store.single [("y", y)] with nextNode := 2 }
    let store' : Store :=
      { environments :=
          [{ bindings := [("y", y)], reversePrint := true, live := true, room := none }]
        nextNode := 5
        transcript := [.shown "> "] }
    let forcing : Forcing := ⟨Value.resolve 4 8, 4⟩
    ∃ messages after after', (run ⟨false⟩ forcing 0 lines).Ends store (.ok messages) after ∧
      messages = ["NameNotBound: name 'missing' is not defined"] ∧
      (after.visible? 0 "s").bind Value.node? = some 2 ∧
      (Script.run forcing 0 ("\n".intercalate (lines.map String.ofList))).Ends store' (.ok ())
        after' ∧
      ∀ e name, after'.visible? e name = (after.visible? e name).map
        (Value.renumber (renumbering 2 5)) := by
  intro lines y store store' forcing
  have hchecked : ∀ line ∈ lines, '\n' ∉ line ∧ trimBlankEnd line ≠ ['e', 'x', 'i', 't'] ∧
      (parse (String.ofList line)).toOption.isSome = true := by
    decide +kernel
  have hlines : ∀ line ∈ lines, ∃ statements, Readable line statements := by
    intro line hline
    obtain ⟨hbreak, hexit, hparse⟩ := hchecked line hline
    cases hresult : parse (String.ofList line) with
    | ok statements => exact ⟨statements, hbreak, hexit, hresult⟩
    | error fault =>
      rw [hresult] at hparse
      cases hparse
  have hnumbered : ∀ store : Store, store.bindings = [[("y", y)]] → 2 ≤ store.nextNode →
      store.Numbered := by
    intro store hbindings hnext env name bound hbound
    rw [Store.binding?_eq, hbindings] at hbound
    have hold : y.OlderThan store.nextNode := .sequence 0 hnext (.int 7) .nil
    match env with
    | 0 =>
      obtain ⟨-, rfl⟩ : "y" = name ∧ y = bound := by
        simpa [Bindings.get?] using hbound
      exact hold
    | _ + 1 => cases hbound
  have hbounds : ∀ store : Store, store.environments.map (·.room) = [none] → store.Unbounded := by
    intro store hroom env environment hlive
    have hfound := (Option.filter_eq_some_iff.mp hlive).1
    have hmem : environment.room ∈ store.environments.map (·.room) :=
      List.mem_map_of_mem (List.mem_of_getElem? hfound)
    rw [hroom] at hmem
    exact List.mem_singleton.mp hmem
  -- Both runs are computed, and so no statement fails.
  have hsession : ((run ⟨false⟩ forcing 0 lines).run.run store).map (fun result =>
      (result.1.toOption, (result.2.visible? 0 "s").bind Value.node?)) =
        some (some ["NameNotBound: name 'missing' is not defined"], some 2) := by
    decide +kernel
  have hscript : ((Script.run forcing 0 ("\n".intercalate (lines.map String.ofList))).run.run
      store').map (fun result => result.1.toOption.isSome) = some true := by
    decide +kernel
  obtain ⟨⟨outcome, after⟩, hrun, heq⟩ := Option.map_eq_some_iff.mp hsession
  obtain ⟨houtcome, hnode⟩ := Prod.ext_iff.mp heq
  obtain ⟨⟨result, final⟩, hfinal, hok⟩ := Option.map_eq_some_iff.mp hscript
  have hsucceeds : ∀ failure after', ¬ (Script.run forcing 0 ("\n".intercalate
      (lines.map String.ofList))).Ends store' (.error failure) after' := by
    intro failure after' hfailure
    obtain ⟨rfl, -⟩ := Ends.unique hfinal hfailure
    cases hok
  obtain ⟨after', hends, hvisible⟩ := run_binds 4 8 (by decide) ⟨false⟩ 0 lines hlines store store'
    (hnumbered store rfl (by decide)) (hnumbered store' rfl (by decide)) (hbounds store rfl)
    (hbounds store' rfl) (fun e => by cases e <;> rfl) (fun e name => by cases e <;> rfl) outcome
    after hrun (.inr hsucceeds)
  cases outcome with
  | error failure => cases houtcome
  | ok messages =>
    exact ⟨messages, after, after', hrun, Option.some.inj houtcome, hnode, hends, hvisible⟩

end Console

end Deferral
