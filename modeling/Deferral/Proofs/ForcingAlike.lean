import Deferral.Proofs.Alike

/-!
# Forcing alike values

Whatever is forced, the store answers in three ways only: it numbers a new node, it shows an
environment, and it takes output.  So two stores that answer alike run every operation on alike
values in lockstep, and it gives alike values: `Value.resolve_lockstep`, `Builtin.run_lockstep`,
`Value.display_lockstep`, `Json.render_lockstep`.  Where nobody asks for the same output, the two
environments may print integers in different ways.
-/

namespace Deferral

open Eval

/-! ## 1. Stores that answer alike -/

structure Pairing.Sees (p : Pairing) (env : EnvId) (environment environment' : Environment) :
    Prop where
  reversePrint : p.sameOutput → environment.reversePrint = environment'.reversePrint
  bindings : ∀ name, p.symbols env name → Option.Rel (Value.Alike p)
    (environment.bindings.get? name) (environment'.bindings.get? name)

namespace Eval.Coupling

class Numbers (c : Coupling) (p : Pairing) : Prop where
  freshNode : freshNode.Lockstep c p.nodes freshNode
  failures : ∀ failure : Failure, failure.OfValues → c.failures failure

/-- The environments of a pairing show the same and take the same output.  What runs there may fail
in any way but one: nothing is parsed. -/
class Shows (c : Coupling) (p : Pairing) : Prop extends c.Numbers p where
  anyFailure : ∀ failure : Failure, (∀ fault, failure ≠ .source fault) → c.failures failure
  endless : c.endless
  environment : ∀ env, p.environments env →
    (environment env).Lockstep c (p.Sees env) (environment env)
  print : ∀ env text text', p.environments env → (p.sameOutput → text = text') →
    (print env text).Lockstep c Eq (print env text')

end Eval.Coupling

theorem rel_cases {α β : Type} {R : α → β → Prop} {a? : Option α} {b? : Option β}
    (h : Option.Rel R a? b?) :
    (a? = none ∧ b? = none) ∨ ∃ a b, a? = some a ∧ b? = some b ∧ R a b := by
  cases h with
  | none => exact .inl ⟨rfl, rfl⟩
  | some hab => exact .inr ⟨_, _, rfl, rfl, hab⟩

section
variable {c : Coupling} {p : Pairing}

/-- Two runs that have made as many nodes number the next one alike. -/
theorem Eval.lockstep_freshNode
    (h : ∀ store store', c.stores store store' →
      (∃ made, store.nextNode = p.first + made ∧ store'.nextNode = p.second + made) ∧
        c.stores { store with nextNode := store.nextNode + 1 }
          { store' with nextNode := store'.nextNode + 1 }) :
    freshNode.Lockstep c p.nodes freshNode := by
  refine lockstep_of_ends fun store store' hstores => ?_
  obtain ⟨hmade, hnext⟩ := h store store' hstores
  exact ⟨_, _, _, _, ends_freshNode.mpr ⟨rfl, rfl⟩, ends_freshNode.mpr ⟨rfl, rfl⟩,
    .ok (.inr hmade), hnext⟩

theorem Eval.lockstep_environment {env : EnvId}
    {R : Environment → Environment → Prop} (hdetached : c.failures .detached)
    (hsees : ∀ environment environment', R environment environment' →
      p.Sees env environment environment')
    (h : ∀ store store', c.stores store store' →
      Option.Rel R (store.live? env) (store'.live? env)) :
    (environment env).Lockstep c (p.Sees env) (environment env) := by
  refine lockstep_of_ends fun store store' hstores => ?_
  refine ⟨_, _, _, _, ends_environment.mpr ⟨rfl, rfl⟩, ends_environment.mpr ⟨rfl, rfl⟩, ?_,
    hstores⟩
  obtain ⟨hnone, hnone'⟩ | ⟨_, _, hlive, hlive', hboth⟩ := rel_cases (h store store' hstores)
  · rw [hnone, hnone']
    exact .error hdetached
  · rw [hlive, hlive']
    exact .ok (hsees _ _ hboth)

end

section
variable {c : Coupling} {p : Pairing} [c.Numbers p] {env : EnvId} {v w v' w' : Value}

theorem Eval.lockstep_expression (henv : p.environments env) (operator : Operator)
    (hleft : Value.Alike p v v') (hright : Value.Alike p w w') :
    (expression env operator v w).Lockstep c (Value.Alike p) (expression env operator v' w') :=
  lockstep_bind Coupling.Numbers.freshNode fun _ _ hnode =>
    lockstep_pure (.expression operator hnode henv hleft hright)

theorem Eval.lockstep_call {args args' : List Value} {kwargs kwargs' : List (String × Value)}
    (henv : p.environments env) (htarget : Value.Alike p v v')
    (hargs : List.Forall₂ (Value.Alike p) args args')
    (hkwargs : Value.Alike.Keywords p kwargs kwargs') :
    (call env v args kwargs).Lockstep c (Value.Alike p) (call env v' args' kwargs') := by
  obtain ⟨hnames, hvalues⟩ := Value.Alike.keywords_iff.mp hkwargs
  exact lockstep_bind Coupling.Numbers.freshNode fun _ _ hnode =>
    lockstep_pure (.call hnode henv htarget hargs hnames hvalues)

theorem Eval.lockstep_sequence (henv : p.environments env) (hhead : Value.Alike p v v')
    (htail : Value.Alike p w w') :
    (sequence env v w).Lockstep c (Value.Alike p) (sequence env v' w') :=
  lockstep_bind Coupling.Numbers.freshNode fun _ _ hnode =>
    lockstep_pure (.sequence hnode henv hhead htail)

omit [c.Numbers p] in
theorem readName_alike (henv : p.environments env) {name : String} (hname : p.symbols env name) :
    Value.Alike p (readName env name) (readName env name) := by
  obtain ⟨builtin, -, heq⟩ | heq | ⟨b, heq⟩ | heq := readName_cases env name <;> rw [heq]
  · exact .function _
  · exact .nil
  · exact .bool b
  · exact .symbol henv hname

/-- What looks at values alone does so alike. -/
theorem Eval.Alike.lockstep {α β : Type} {P : α → β → Prop} {result : Except Failure α}
    {result' : Except Failure β} (h : Eval.Alike Failure.OfValues P result result') (p : Pairing)
    [c.Numbers p] : (ofExcept result).Lockstep c P (ofExcept result') := by
  cases h with
  | ok hab => exact lockstep_pure hab
  | error hf => exact lockstep_throw (Coupling.Numbers.failures p _ hf)

theorem Eval.lockstep_mismatch {α β : Type} {P : α → β → Prop} (cause : TypeName → Mismatch)
    (h : Value.Alike p v w) : (throw (.mismatch (cause v.typeName)) : Eval α).Lockstep c P
      (throw (.mismatch (cause w.typeName)) : Eval β) := by
  rw [h.typeName_eq]
  exact lockstep_throw (Coupling.Numbers.failures p _ (.mismatch _))

/-! ## 2. Operators and sequences -/

theorem Operator.apply_lockstep (operator : Operator) (henv : p.environments env)
    (hleft : Value.Alike p v v') (hright : Value.Alike p w w') :
    (operator.apply env v w).Lockstep c (Value.Alike p) (operator.apply env v' w') := by
  unfold apply
  rw [hleft.isSequence_eq, hright.isSequence_eq]
  split
  · exact lockstep_call henv (.function _) (.cons hleft (.cons hright .nil)) .nil
  · exact (Operator.compute_alike _ hleft hright).lockstep p

theorem Operator.combine_lockstep (operator : Operator) (henv : p.environments env)
    (hleft : Value.Alike p v v') (hright : Value.Alike p w w') :
    (operator.combine env v w).Lockstep c (Value.Alike p) (operator.combine env v' w') := by
  unfold combine
  rw [hleft.isDeferred_eq, hright.isDeferred_eq]
  split
  · exact lockstep_expression henv operator hleft hright
  · exact operator.apply_lockstep henv hleft hright

end

structure Forcing.Lockstep (c : Coupling) (p : Pairing) (forcing : Forcing) : Prop where
  force : ∀ v w, Value.Alike p v w → (forcing.force v).Lockstep c (Value.Alike p) (forcing.force w)
  /-- Integers are shown at once, so it does not matter in which way. -/
  patience : ¬ p.sameOutput → forcing.patience ≠ 0

section
variable {c : Coupling} {p : Pairing} [c.Shows p] {forcing : Forcing} {env : EnvId}
  {v w v' w' : Value}

namespace Sequence

theorem tail_lockstep (h : Value.Alike p v w) :
    (tail v).Lockstep c (Value.Alike p) (tail w) := by
  have hrefuse : (notSequence .tail v : Eval Value).Lockstep c (Value.Alike p)
      (notSequence .tail w) := lockstep_mismatch _ h
  cases h with
  | sequence _ _ _ htail => exact lockstep_pure htail
  | _ => exact hrefuse

variable (hforcing : forcing.Lockstep c p)
include hforcing

theorem head_lockstep (h : Value.Alike p v w) :
    (head forcing v).Lockstep c (Value.Alike p) (head forcing w) := by
  have hrefuse : (notSequence .head v : Eval Value).Lockstep c (Value.Alike p)
      (notSequence .head w) := lockstep_mismatch _ h
  cases h with
  | sequence _ _ hhead _ => exact hforcing.force _ _ hhead
  | _ => exact hrefuse

theorem next?_lockstep (h : Value.Alike p v w) :
    (next? forcing v).Lockstep c (Option.Rel (Value.Alike.Pairs p)) (next? forcing w) := by
  unfold next?
  refine lockstep_bind (hforcing.force v w h) fun found found' hfound => ?_
  have hrefuse : (throw (.mismatch (.brokenTail found.typeName)) :
      Eval (Option (Value × Value))).Lockstep c (Option.Rel (Value.Alike.Pairs p))
        (throw (.mismatch (.brokenTail found'.typeName))) := lockstep_mismatch _ hfound
  cases hfound with
  | nil => exact lockstep_pure .none
  | sequence _ _ hhead htail =>
    exact lockstep_bind (hforcing.force _ _ hhead) fun item item' hitem =>
      lockstep_pure (.some ⟨hitem, htail⟩)
  | _ => exact hrefuse

theorem takeItems_lockstep (requested left : Nat) {found found' : List Value}
    (hfound : List.Forall₂ (Value.Alike p) found found') (h : Value.Alike p v w) :
    (takeItems forcing requested left found v).Lockstep c (List.Forall₂ (Value.Alike p))
      (takeItems forcing requested left found' w) := by
  induction left generalizing found found' v w with
  | zero => exact lockstep_pure (List.rel_reverse hfound)
  | succ left ih =>
    rw [takeItems, takeItems, hfound.length_eq]
    refine lockstep_bind (next?_lockstep hforcing h) fun next next' hnext => ?_
    cases hnext with
    | none => exact lockstep_throw (Coupling.Shows.anyFailure p _ nofun)
    | some hnext => exact ih (.cons hnext.1 hfound) hnext.2

theorem collectItems_lockstep (fuel : Nat) {found found' : List Value}
    (hfound : List.Forall₂ (Value.Alike p) found found') (h : Value.Alike p v w) :
    (collectItems forcing fuel found v).Lockstep c (List.Forall₂ (Value.Alike p))
      (collectItems forcing fuel found' w) := by
  induction fuel generalizing found found' v w with
  | zero => exact lockstep_outOfFuel (Coupling.Shows.endless p)
  | succ fuel ih =>
    rw [collectItems, collectItems]
    refine lockstep_bind (next?_lockstep hforcing h) fun next next' hnext => ?_
    cases hnext with
    | none => exact lockstep_pure (List.rel_reverse hfound)
    | some hnext => exact ih (.cons hnext.1 hfound) hnext.2

theorem take_lockstep (count : Nat) (h : Value.Alike p v w) :
    (take forcing count v).Lockstep c (Value.Alike p) (take forcing count w) := by
  have hrefuse : (notSequence .take v : Eval Value).Lockstep c (Value.Alike p)
      (notSequence .take w) := lockstep_mismatch _ h
  have hwhole := h
  cases h with
  | list hitems =>
    rw [take, take, hitems.length_eq]
    split
    · exact lockstep_throw (Coupling.Shows.anyFailure p _ nofun)
    · exact lockstep_pure (.list (List.forall₂_take count hitems))
  | sequence =>
    exact lockstep_bind (takeItems_lockstep hforcing count count .nil hwhole) fun _ _ hitems =>
      lockstep_pure (.list hitems)
  | _ => exact hrefuse

theorem collect_lockstep (h : Value.Alike p v w) :
    (collect forcing v).Lockstep c (Value.Alike p) (collect forcing w) := by
  have hrefuse : (notSequence .list v : Eval Value).Lockstep c (Value.Alike p)
      (notSequence .list w) := lockstep_mismatch _ h
  have hwhole := h
  cases h with
  | list hitems => exact lockstep_pure (.list hitems)
  | sequence =>
    exact lockstep_bind (collectItems_lockstep hforcing _ .nil hwhole) fun _ _ hitems =>
      lockstep_pure (.list hitems)
  | _ => exact hrefuse

theorem concat_lockstep (henv : p.environments env) (hleft : Value.Alike p v v')
    (hright : Value.Alike p w w') :
    (concat forcing env v w).Lockstep c (Value.Alike p) (concat forcing env v' w') := by
  have hrefuse : ∀ {a b : Value}, Value.Alike p a b →
      (notSequence .concat a : Eval Value).Lockstep c (Value.Alike p) (notSequence .concat b) :=
    fun h => lockstep_mismatch _ h
  have hleftRefuse := hrefuse hleft
  have hrightRefuse := hrefuse hright
  cases hleft with
  | nil => cases hright <;> exact lockstep_pure .nil
  | sequence _ _ hleftHead hleftTail =>
    cases hright with
    | nil => exact lockstep_pure .nil
    | sequence _ _ hrightHead hrightTail =>
      -- Both heads are forced and added; the tails wait in a call.
      refine lockstep_bind (hforcing.force _ _ hleftHead) fun first first' hfirst => ?_
      refine lockstep_bind (hforcing.force _ _ hrightHead) fun second second' hsecond => ?_
      refine lockstep_bind (Operator.add.apply_lockstep henv hfirst hsecond) fun sum sum' hsum => ?_
      refine lockstep_bind (lockstep_call henv (.function _)
        (.cons hleftTail (.cons hrightTail .nil)) .nil) fun rest rest' hrest => ?_
      exact lockstep_sequence henv hsum hrest
    | _ => exact hrightRefuse
  | _ =>
    cases hright with
    | nil => exact lockstep_pure .nil
    | _ => exact hleftRefuse

end Sequence

/-! ## 3. Text -/

omit [c.Shows p] in
theorem Value.displayWith_lockstep {deferred : Value → Eval String}
    (hdeferred : ∀ v w, Value.Alike p v w → (deferred v).Lockstep c Eq (deferred w))
    (h : Value.Alike p v w) :
    (v.displayWith deferred).Lockstep c Eq (w.displayWith deferred) := by
  have htexts : ∀ {α : Type} {f : α → Eval String} {parts parts' : List α},
      List.Forall₂ (fun a b => (f a).Lockstep c Eq (f b)) parts parts' →
      ((fun texts => [].reverse ++ texts) <$> parts.mapM f).Lockstep c Eq
        ((fun texts => [].reverse ++ texts) <$> parts'.mapM f) := by
    intro α f parts parts' hparts
    refine lockstep_map (lockstep_mapM hparts) fun texts texts' htexts => ?_
    rw [List.forall₂_eq_eq_eq] at htexts
    rw [htexts]
  induction v generalizing w with
  | list items ih =>
    cases h with
    | list hitems =>
      rw [displayWith, displayWith, displayItems_eq_mapM, displayItems_eq_mapM]
      refine lockstep_bind (htexts (forall₂_imp_of_mem hitems fun a ha b hab => ih a ha hab))
        fun texts texts' heq => ?_
      rw [heq]
      exact lockstep_pure rfl
  | map entries ih =>
    cases h with
    | map hkeys hvalues =>
      rw [displayWith, displayWith, displayEntries_eq_mapM, displayEntries_eq_mapM]
      refine lockstep_bind (htexts (forall₂_imp_of_mem (forall₂_pairs.mpr ⟨hkeys, hvalues⟩)
        fun a ha b hab => ?_)) fun texts texts' heq => ?_
      · refine lockstep_bind ((ih a ha).1 hab.1) fun key key' hkey => ?_
        refine lockstep_bind ((ih a ha).2 hab.2) fun value value' hvalue => ?_
        rw [hkey, hvalue]
        exact lockstep_pure rfl
      · rw [heq]
        exact lockstep_pure rfl
  | symbol | expression | call | sequence =>
    have hpart := hdeferred _ _ h
    cases h
    exact hpart
  | _ =>
    cases h
    exact lockstep_pure rfl

inductive Display.Front.Alike (p : Pairing) : Front → Front → Prop
  | whole (text : String) : Alike p (.whole text) (.whole text)
  | sequence {head head' : Value} : Value.Alike p head head' →
      Alike p (.sequence head) (.sequence head')

section
variable (hforcing : forcing.Lockstep c p)
include hforcing

omit [c.Shows p] in
theorem Display.frontOfHead_lockstep (h : Value.Alike p v w) :
    (frontOfHead forcing v).Lockstep c (Front.Alike p) (frontOfHead forcing w) := by
  unfold frontOfHead
  refine lockstep_bind (lockstep_attempt (hforcing.force v w h)) fun result result' hresult => ?_
  cases hresult with
  | ok hhead => exact lockstep_pure (.sequence hhead)
  | error _ => exact lockstep_pure (.whole _)

omit [c.Shows p] in
theorem Display.front_lockstep {text : Value → Eval String}
    (htext : ∀ v w, Value.Alike p v w → (text v).Lockstep c Eq (text w))
    (h : Value.Alike p v w) :
    (front forcing text v).Lockstep c (Front.Alike p) (front forcing text w) := by
  have hshown : ∀ {v w : Value}, Value.Alike p v w →
      (text v >>= fun shown => (pure (.whole shown) : Eval Front)).Lockstep c (Front.Alike p)
        (text w >>= fun shown => (pure (.whole shown) : Eval Front)) := by
    intro v w h
    refine lockstep_bind (htext v w h) fun shown shown' heq => ?_
    rw [heq]
    exact lockstep_pure (.whole _)
  have hforced : ∀ result result', Eval.Alike c.failures (Value.Alike p) result result' →
      (frontOfForced forcing text result).Lockstep c (Front.Alike p)
        (frontOfForced forcing text result') := by
    intro result result' hresult
    cases hresult with
    | error _ => exact lockstep_pure (.whole _)
    | ok hfound =>
      -- A sequence may come of what is forced, and then its head is forced in turn.
      have hwhole := hshown hfound
      cases hfound with
      | sequence _ _ hhead _ => exact frontOfHead_lockstep hforcing hhead
      | _ => exact hwhole
  have hdeferred := lockstep_bind (lockstep_attempt (hforcing.force v w h)) hforced
  have hwhole := hshown h
  cases h with
  | sequence _ _ hhead _ => exact frontOfHead_lockstep hforcing hhead
  | symbol | expression | call => exact hdeferred
  | _ => exact hwhole

theorem Display.text_lockstep (fuel : Nat) (h : Value.Alike p v w) :
    (text forcing fuel v).Lockstep c Eq (text forcing fuel w) := by
  induction fuel generalizing v w with
  | zero => exact lockstep_outOfFuel (Coupling.Shows.endless p)
  | succ fuel ih =>
    rw [text, text]
    -- The texts of the parts are made with less fuel.
    have hparts : ∀ v w, Value.Alike p v w → (Value.displayWith (text forcing fuel) v).Lockstep c Eq
        (Value.displayWith (text forcing fuel) w) := fun v w h =>
      Value.displayWith_lockstep (fun _ _ => ih) h
    refine lockstep_bind (front_lockstep hforcing hparts h) fun front front' hfront => ?_
    cases hfront with
    | whole shown => exact lockstep_pure rfl
    | sequence hhead =>
      refine lockstep_bind (ih hhead) fun shown shown' heq => ?_
      rw [heq]
      exact lockstep_pure rfl

theorem Value.display_lockstep (h : Value.Alike p v w) :
    (v.display forcing).Lockstep c Eq (w.display forcing) :=
  Display.text_lockstep hforcing forcing.patience h

theorem Value.plainText_lockstep (h : Value.Alike p v w) :
    (v.plainText forcing).Lockstep c Eq (w.plainText forcing) := by
  have hdisplay := display_lockstep hforcing h
  cases h with
  | str s => exact lockstep_pure rfl
  | _ => exact hdisplay

/-! ## 4. Built-in functions -/

theorem Builtin.printedText_lockstep {reverse reverse' : Bool}
    (hreverse : p.sameOutput → reverse = reverse') (h : Value.Alike p v w) :
    (printedText forcing reverse v).Lockstep c (fun text text' => p.sameOutput → text = text')
      (printedText forcing reverse' w) := by
  have hplain : (v.plainText forcing).Lockstep c (fun text text' => p.sameOutput → text = text')
      (w.plainText forcing) := (v.plainText_lockstep hforcing h).imp fun _ _ heq _ => heq
  cases h with
  | int n =>
    by_cases hsame : reverse = reverse'
    · subst hsame
      cases reverse with
      | true => exact lockstep_pure fun _ => rfl
      | false => exact hplain
    · -- One of the two texts is reversed, and no text is asked for that takes patience.
      have hother : ¬ p.sameOutput := fun houtput => hsame (hreverse houtput)
      obtain ⟨fuel, hfuel⟩ := Nat.exists_eq_succ_of_ne_zero (hforcing.patience hother)
      have htext : (Value.int n).plainText forcing = pure (intText n) := by
        rw [Value.plainText, Value.display, hfuel]
        · rfl
        · nofun
      cases reverse <;> cases reverse' <;> first | exact absurd rfl hsame | skip
      · show ((Value.int n).plainText forcing).Lockstep c _ (pure _)
        rw [htext]
        exact lockstep_pure fun houtput => absurd houtput hother
      · show (pure _ : Eval String).Lockstep c _ ((Value.int n).plainText forcing)
        rw [htext]
        exact lockstep_pure fun houtput => absurd houtput hother
  | _ => exact hplain

section
variable {args args' : List Value} {kwargs kwargs' : List (String × Value)}
  (henv : p.environments env) (hargs : List.Forall₂ (Value.Alike p) args args')
  (hkwargs : Value.Alike.Keywords p kwargs kwargs')
include henv hargs hkwargs

theorem Builtin.printArguments_lockstep :
    (printArguments forcing env args kwargs).Lockstep c (Value.Alike p)
      (printArguments forcing env args' kwargs') := by
  unfold printArguments
  refine lockstep_bind ((keywordText_alike hkwargs "sep" " ").lockstep p) fun sep sep' hsep => ?_
  refine lockstep_bind ((keywordText_alike hkwargs "end" "\n").lockstep p) ?_
  intro last last' hlast
  refine lockstep_bind (Coupling.Shows.environment env henv) fun shown shown' hshown => ?_
  have htexts : (args.mapM (printedText forcing shown.reversePrint)).Lockstep c
      (List.Forall₂ fun text text' => p.sameOutput → text = text')
      (args'.mapM (printedText forcing shown'.reversePrint)) :=
    lockstep_mapM (forall₂_imp_of_mem hargs fun a _ b hab =>
      printedText_lockstep hforcing hshown.reversePrint hab)
  refine lockstep_bind htexts fun texts texts' htexts => ?_
  have hsame : p.sameOutput → texts = texts' := fun houtput =>
    List.forall₂_eq_eq_eq ▸ htexts.imp fun _ _ heq => heq houtput
  refine lockstep_bind (Coupling.Shows.print env _ _ henv fun houtput => ?_) fun _ _ _ =>
    lockstep_pure .nil
  rw [hsep, hlast, hsame houtput]

theorem Builtin.perform_lockstep (builtin : Builtin) :
    (builtin.perform forcing env args kwargs).Lockstep c (Value.Alike p)
      (builtin.perform forcing env args' kwargs') := by
  have hprint := printArguments_lockstep hforcing henv hargs hkwargs
  have hextremum (builtin : Builtin) (wanted : Ordering) :=
    (extremum_alike builtin wanted hargs).lockstep (c := c) p
  have hrefuse (builtin : Builtin) :
      (throw (.mismatch (.wrongCount builtin args.length)) : Eval Value).Lockstep c
        (Value.Alike p) (throw (.mismatch (.wrongCount builtin args'.length))) := by
    rw [hargs.length_eq]
    exact lockstep_throw (Coupling.Numbers.failures p _ (.mismatch _))
  -- What a function does depends on how many arguments there are: none, one, two or more.
  rcases hargs with _ | ⟨h, _ | ⟨h', _ | _⟩⟩
  · cases builtin with
    | print => exact hprint
    | min => exact hextremum .min .lt
    | max => exact hextremum .max .gt
    | _ => exact hrefuse _
  · cases builtin with
    | print => exact hprint
    | min => exact hextremum .min .lt
    | max => exact hextremum .max .gt
    | tail => exact Sequence.tail_lockstep h
    | head => exact Sequence.head_lockstep hforcing h
    | lazy =>
      have hmismatch := lockstep_mismatch (c := c) (P := Value.Alike p) .notCallable h
      cases h with
      | function f => exact lockstep_pure (.function _)
      | _ => exact hmismatch
    | str =>
      refine lockstep_bind (Value.plainText_lockstep hforcing h) fun text text' heq => ?_
      rw [heq]
      exact lockstep_pure (.str _)
    | repr =>
      refine lockstep_bind (Value.display_lockstep hforcing h) fun text text' heq => ?_
      rw [heq]
      exact lockstep_pure (.str _)
    | len => exact (lengthOf_alike h).lockstep p
    | abs => exact (absolute_alike h).lockstep p
    | int => exact (toInteger_alike h).lockstep p
    | float => exact (toFloat_alike h).lockstep p
    | list => exact Sequence.collect_lockstep hforcing h
    | resolve => exact hforcing.force _ _ h
    | quote =>
      refine lockstep_pure ?_
      rw [h.quoted_eq]
      exact .str _
    | _ => exact hrefuse _
  · cases builtin with
    | print => exact hprint
    | min => exact hextremum .min .lt
    | max => exact hextremum .max .gt
    | take =>
      refine lockstep_bind ((countOf_alike h).lockstep p) fun count count' heq => ?_
      rw [heq]
      exact Sequence.take_lockstep hforcing count' h'
    | concat => exact Sequence.concat_lockstep hforcing henv h h'
    | lazy => cases h <;> exact hrefuse .lazy
    | _ => exact hrefuse _
  · cases builtin with
    | print => exact hprint
    | min => exact hextremum .min .lt
    | max => exact hextremum .max .gt
    | lazy => cases h <;> exact hrefuse .lazy
    | _ => exact hrefuse _

theorem Builtin.run_lockstep (builtin : Builtin) :
    (builtin.run forcing env args kwargs).Lockstep c (Value.Alike p)
      (builtin.run forcing env args' kwargs') := by
  unfold run
  rw [hargs.length_eq]
  exact lockstep_bind ((validate_alike hkwargs builtin args'.length).lockstep p) fun _ _ _ =>
    perform_lockstep hforcing henv hargs hkwargs builtin

/-! ## 5. Resolution -/

theorem invoke_lockstep (h : Value.Alike p v w) :
    (invoke forcing env v args kwargs).Lockstep c (Value.Alike p)
      (invoke forcing env w args' kwargs') := by
  have hmismatch := lockstep_mismatch (c := c) (P := Value.Alike p) .notCallable h
  cases h with
  | function f => exact Builtin.run_lockstep hforcing henv hargs hkwargs f.builtin
  | _ => exact hmismatch

end

omit [c.Shows p] in
theorem forceKeywords_lockstep {kwargs kwargs' : List (String × Value)}
    (hkwargs : Value.Alike.Keywords p kwargs kwargs') :
    (forceKeywords forcing kwargs).Lockstep c (Value.Alike.Keywords p)
      (forceKeywords forcing kwargs') := by
  refine lockstep_mapM (forall₂_imp_of_mem hkwargs fun a _ b hab => ?_)
  exact lockstep_bind (hforcing.force _ _ hab.2) fun _ _ hvalue => lockstep_pure ⟨hab.1, hvalue⟩

theorem Value.forceOnce_lockstep (h : Value.Alike p v w) :
    (v.forceOnce forcing).Lockstep c (Value.Alike p) (w.forceOnce forcing) := by
  have hself := h
  cases h with
  | symbol henv hname =>
    refine lockstep_bind (Coupling.Shows.environment _ henv) fun shown shown' hshown => ?_
    have hbound := hshown.bindings _ hname
    generalize shown.bindings.get? _ = x, shown'.bindings.get? _ = y at hbound ⊢
    cases hbound with
    | none => exact lockstep_throw (Coupling.Shows.anyFailure p _ nofun)
    | some hvalue => exact lockstep_pure hvalue
  | expression operator _ henv hleft hright =>
    refine lockstep_bind (hforcing.force _ _ hleft) fun left left' hleft => ?_
    refine lockstep_bind (hforcing.force _ _ hright) fun right right' hright => ?_
    exact operator.apply_lockstep henv hleft hright
  | call _ henv htarget hargs hnames hvalues =>
    have hkwargs := Value.Alike.keywords_iff.mpr ⟨hnames, hvalues⟩
    refine lockstep_bind (hforcing.force _ _ htarget) fun target target' htarget => ?_
    refine lockstep_bind (lockstep_mapM (forall₂_imp_of_mem hargs fun a _ b hab =>
      hforcing.force a b hab)) fun args args' hargs => ?_
    refine lockstep_bind (forceKeywords_lockstep hforcing hkwargs) fun kwargs kwargs' hkwargs => ?_
    -- The environment is asked for only when everything has been forced.
    exact lockstep_bind (Coupling.Shows.environment _ henv) fun _ _ _ =>
      invoke_lockstep hforcing henv hargs hkwargs htarget
  | _ => exact lockstep_pure hself

theorem Value.unwind_lockstep (left : Nat) (h : Value.Alike p v w) :
    (v.unwind forcing left).Lockstep c (Value.Alike p) (w.unwind forcing left) := by
  induction left generalizing v w with
  | zero => exact lockstep_throw (Coupling.Shows.anyFailure p _ nofun)
  | succ left ih =>
    rw [unwind, unwind]
    refine lockstep_bind (forceOnce_lockstep hforcing h) fun found found' hfound => ?_
    rw [hfound.isDeferred_eq, hfound.isSequence_eq]
    split
    · exact ih hfound
    · exact lockstep_pure hfound

end

omit [c.Shows p] in
theorem Value.resolveWith_lockstep {deferred : Value → Eval Value}
    (hdeferred : ∀ v w, Value.Alike p v w →
      (deferred v).Lockstep c (Value.Alike p) (deferred w)) (h : Value.Alike p v w) :
    (v.resolveWith deferred).Lockstep c (Value.Alike p) (w.resolveWith deferred) := by
  induction v generalizing w with
  | list items ih =>
    cases h with
    | list hitems =>
      rw [resolveWith_list, resolveWith_list]
      exact lockstep_map (lockstep_mapM (forall₂_imp_of_mem hitems fun a ha b hab =>
        ih a ha hab)) fun _ _ hfound => .list hfound
  | map entries ih =>
    cases h with
    | map hkeys hvalues =>
      rw [resolveWith_map, resolveWith_map]
      refine lockstep_map (lockstep_mapM (forall₂_imp_of_mem (forall₂_pairs.mpr ⟨hkeys, hvalues⟩)
        fun a ha b hab => ?_)) fun _ _ hfound =>
        Value.Alike.of_entries (Value.Alike.ofList hfound)
      exact lockstep_bind ((ih a ha).1 hab.1) fun _ _ hkey =>
        lockstep_bind ((ih a ha).2 hab.2) fun _ _ hvalue => lockstep_pure ⟨hkey, hvalue⟩
  | symbol | expression | call =>
    have hpart := hdeferred _ _ h
    cases h
    exact hpart
  | _ =>
    have hself := h
    cases h
    exact lockstep_pure hself

theorem Value.resolve_lockstep (patience room : Nat) (hpatience : ¬ p.sameOutput → patience ≠ 0) :
    Forcing.Lockstep c p ⟨Value.resolve patience room, patience⟩ := by
  induction room with
  | zero =>
    refine ⟨fun v w h => ?_, hpatience⟩
    exact resolveWith_lockstep (fun _ _ _ =>
      lockstep_throw (Coupling.Shows.anyFailure p _ nofun)) h
  | succ room ih =>
    -- A step forces its operands with the room that is left, and so is what it leads to resolved.
    refine ⟨fun v w h => ?_, hpatience⟩
    exact resolveWith_lockstep (fun _ _ h =>
      lockstep_bind (unwind_lockstep ih depthLimit h) fun _ _ hfound => ih.force _ _ hfound) h

/-! ## 6. JSON -/

omit [c.Shows p] in
theorem Json.render_lockstep (hforcing : forcing.Lockstep c p) (h : Value.Alike p v w) :
    (render forcing v).Lockstep c
      (fun text text' => text.mapError ExportFailure.message = text'.mapError ExportFailure.message)
      (render forcing w) := by
  refine lockstep_bind (lockstep_attempt (hforcing.force v w h)) fun result result' hresult => ?_
  cases hresult with
  | error _ => exact lockstep_pure rfl
  | @ok found found' hfound =>
    have hform := ofValue_eq hfound
    dsimp only
    generalize ofValue found = form, ofValue found' = form' at hform ⊢
    cases form with
    | error failure =>
      cases form' with
      | error failure' =>
        have hcause : failure.message = failure'.message := Except.error.inj hform
        exact lockstep_pure
          (congrArg (fun cause => Except.error ("JSON serialization failed: " ++ cause)) hcause)
      | ok json => cases hform
    | ok json =>
      cases form' with
      | error failure => cases hform
      | ok json' =>
        cases hform
        exact lockstep_pure rfl

end

end Deferral
