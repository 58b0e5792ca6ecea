import Deferral.Proofs.ForcingAlike
import Deferral.Proofs.Numbering

/-!
# The footprint of a value

Forcing a value reads nothing but its footprint: what the symbols stand for that occur in the value,
in the bindings of these, and so on, and the options of the environments that all these were made
in.  From two stores that agree on the footprint, whatever else is bound in them, everything that
forces the value does the same (`Value.resolve_footprint`).  The nodes that occur in the footprint
have to be made already, as they are wherever a script or the console leads
(`Script.execute_numbers`, `Console.run_numbers`).
-/

namespace Deferral

open Eval Relation

/-! ## 1. Agreement -/

namespace Store

def options? (store : Store) (env : EnvId) : Option (Bool × Option Nat) :=
  (store.live? env).map fun environment => (environment.reversePrint, environment.room)

/-- The second store has the bindings and the environments of the first one, as far as a value leads
to them. -/
structure AgreesOn (store store' : Store) (v : Value) : Prop where
  bindings : ∀ env name, store.Holds v (.symbol env name) →
    store'.visible? env name = store.visible? env name
  environments : ∀ u env, store.Holds v u → u.environment? = some env →
    store'.options? env = store.options? env

variable {store store' : Store} {u v : Value}

theorem AgreesOn.parts (h : store.AgreesOn store' v) (hu : store.Holds v u) :
    store'.parts u = store.parts u := by
  cases u with
  | symbol env name => rw [Store.parts, Store.parts, h.bindings env name hu]
  | _ => rfl

theorem AgreesOn.holds (h : store.AgreesOn store' v) (hu : store.Holds v u) :
    store'.Holds v u := by
  induction hu with
  | refl => exact .refl
  | tail hbefore hpart ih => exact ih.tail (h.parts hbefore ▸ hpart)

end Store

/-! ## 2. The two runs -/

def Store.pairing (store store' : Store) (v : Value) : Pairing where
  first := store.nextNode
  second := store'.nextNode
  old a b := a = b ∧ a < store.nextNode ∧ a < store'.nextNode
  old_lt := fun _ _ ⟨heq, hfirst, hsecond⟩ => ⟨hfirst, heq ▸ hsecond⟩
  old_inj := fun _ _ _ _ ⟨heq, _⟩ ⟨heq', _⟩ => by rw [heq, heq']
  environments env := ∃ u, store.Holds v u ∧ u.environment? = some env
  symbols env name := store.Holds v (.symbol env name)

theorem Value.Alike.self {p : Pairing} {store : Store} {u v : Value}
    (hnodes : ∀ u node, store.Holds v u → u.node? = some node → p.nodes node node)
    (henvironments : ∀ u env, store.Holds v u → u.environment? = some env → p.environments env)
    (hsymbols : ∀ env name, store.Holds v (.symbol env name) → p.symbols env name)
    (hu : store.Holds v u) : Value.Alike p u u := by
  have hall {us : List Value} (hus : ∀ u ∈ us, Value.Alike p u u) :
      List.Forall₂ (Value.Alike p) us us := List.forall₂_same.mpr hus
  induction u with
  | list items ih => exact .list (hall fun item hitem => ih item hitem (hu.tail hitem))
  | map entries ih =>
    refine .map (hall fun key hkey => ?_) (hall fun value hvalue => ?_)
    · obtain ⟨entry, hentry, rfl⟩ := List.mem_map.mp hkey
      exact (ih entry hentry).1 (hu.tail (List.mem_append_left _ hkey))
    · obtain ⟨entry, hentry, rfl⟩ := List.mem_map.mp hvalue
      exact (ih entry hentry).2 (hu.tail (List.mem_append_right _ hvalue))
  | symbol env name => exact .symbol (henvironments _ _ hu rfl) (hsymbols _ _ hu)
  | expression node env operator left right ihleft ihright =>
    exact .expression operator (hnodes _ _ hu rfl) (henvironments _ _ hu rfl)
      (ihleft (hu.tail List.mem_cons_self))
      (ihright (hu.tail (List.mem_cons_of_mem _ List.mem_cons_self)))
  | call node env target args kwargs ihtarget ihargs ihkwargs =>
    refine .call (hnodes _ _ hu rfl) (henvironments _ _ hu rfl)
      (ihtarget (hu.tail List.mem_cons_self)) (hall fun arg harg => ?_) rfl
      (hall fun value hvalue => ?_)
    · exact ihargs arg harg (hu.tail (List.mem_cons_of_mem _ (List.mem_append_left _ harg)))
    · obtain ⟨entry, hentry, rfl⟩ := List.mem_map.mp hvalue
      exact ihkwargs entry hentry
        (hu.tail (List.mem_cons_of_mem _ (List.mem_append_right _ hvalue)))
  | sequence node env head tail ihhead ihtail =>
    exact .sequence (hnodes _ _ hu rfl) (henvironments _ _ hu rfl)
      (ihhead (hu.tail List.mem_cons_self))
      (ihtail (hu.tail (List.mem_cons_of_mem _ List.mem_cons_self)))
  | _ => constructor

/-- A value of nodes that belong to both runs is like itself, if any environment and any name may
occur. -/
theorem Value.Alike.of_olderThan {p : Pairing} {next : NodeId} {v : Value} (h : v.OlderThan next)
    (hnodes : ∀ node < next, p.nodes node node) (henvironments : ∀ env, p.environments env)
    (hsymbols : ∀ env name, p.symbols env name) : Value.Alike p v v := by
  have hnumbered : Store.Numbered { Store.empty with nextNode := next } := by
    intro env name bound hbound
    simp [Store.binding?, Store.empty] at hbound
  exact .self (fun u node hu hnode => hnodes node ((hnumbered.holds h hu).node hnode))
    (fun _ env _ _ => henvironments env) (fun env name _ => hsymbols env name) .refl

theorem Store.AgreesOn.alike {store store' : Store} {u v : Value} (h : store.AgreesOn store' v)
    (hnodes : store.Numbers v) (hnodes' : store'.Numbers v) (hu : store.Holds v u) :
    Value.Alike (store.pairing store' v) u u :=
  .self (fun u node hu hnode =>
    .inl ⟨rfl, hnodes u node hu hnode, hnodes' u node (h.holds hu) hnode⟩)
    (fun u _ hu henv => ⟨u, hu, henv⟩) (fun _ _ hu => hu) hu

structure Pairing.Matches (p : Pairing) (env : EnvId) (environment environment' : Environment) :
    Prop extends p.Sees env environment environment' where
  room : environment.room = environment'.room

structure Pairing.Joins (p : Pairing) (base base' store store' : Store) : Prop where
  nextNode : ∃ made, store.nextNode = p.first + made ∧ store'.nextNode = p.second + made
  environments : ∀ env, p.environments env →
    Option.Rel (p.Matches env) (store.live? env) (store'.live? env)
  transcript : ∃ chunks, store.transcript = base.transcript ++ chunks ∧
    store'.transcript = base'.transcript ++ chunks

def Pairing.joint (p : Pairing) (base base' : Store) : Coupling where
  stores := p.Joins base base'
  failures _ := True
  endless := True

namespace Pairing.Joins

variable {p : Pairing} {base base' store store' : Store}

theorem print {env : EnvId} {environment environment' : Environment} (text : String)
    (h : p.Joins base base' store store') (hlive : store.live? env = some environment)
    (hlive' : store'.live? env = some environment') (hroom : environment.room = environment'.room) :
    p.Joins base base' (store.printed env text) (store'.printed env text) where
  nextNode := h.nextNode
  environments other hother := by
    have hbefore := h.environments other hother
    rw [Store.live?_printed, Store.live?_printed]
    generalize store.live? other = x, store'.live? other = y at hbefore ⊢
    cases hbefore with
    | none => exact .none
    | some hmatch =>
      refine .some ?_
      split
      · exact ⟨⟨hmatch.reversePrint, hmatch.bindings⟩, congrArg (roomAfter · text) hmatch.room⟩
      · exact hmatch
  transcript := by
    obtain ⟨chunks, hbefore, hbefore'⟩ := h.transcript
    rw [Store.printed_of_live hlive, Store.printed_of_live hlive', hroom]
    dsimp only
    rw [hbefore, hbefore', List.append_assoc, List.append_assoc]
    exact ⟨_, rfl, rfl⟩

end Pairing.Joins

/-- Joined stores answer alike, and take the same output. -/
theorem Pairing.joint_shows {p : Pairing} (hsame : p.sameOutput) (base base' : Store) :
    (p.joint base base').Shows p where
  freshNode := by
    refine lockstep_freshNode fun store store' h => ⟨h.nextNode, ?_, h.environments, h.transcript⟩
    obtain ⟨made, hnext, hnext'⟩ := h.nextNode
    exact ⟨made + 1, by rw [hnext, Nat.add_assoc], by rw [hnext', Nat.add_assoc]⟩
  failures _ _ := trivial
  anyFailure _ _ := trivial
  endless := trivial
  environment env henv :=
    lockstep_environment trivial (fun _ _ hmatch => hmatch.toSees) fun _ _ h =>
      h.environments env henv
  print env text text' henv houtput := by
    obtain rfl := houtput hsame
    refine lockstep_of_ends fun store store' h => ?_
    obtain ⟨hnone, hnone'⟩ | ⟨_, _, hlive, hlive', hmatch⟩ := rel_cases (h.environments env henv)
    · exact ⟨_, _, _, _, (print_ends_detached hnone).mpr ⟨rfl, rfl⟩,
        (print_ends_detached hnone').mpr ⟨rfl, rfl⟩, .error trivial, h⟩
    · refine ⟨_, _, _, _, (print_ends hlive).mpr ⟨rfl, rfl⟩, (print_ends hlive').mpr ⟨rfl, rfl⟩,
        ?_, h.print text hlive hlive' hmatch.room⟩
      -- Both sinks have the same room, so both refuse the text or neither does.
      rw [hmatch.room]
      split
      · exact .error trivial
      · exact .ok rfl

instance (store store' base base' : Store) (v : Value) :
    ((store.pairing store' v).joint base base').Shows (store.pairing store' v) :=
  Pairing.joint_shows trivial base base'

/-- Stores that agree on the footprint can be the first ones of two runs. -/
theorem Store.AgreesOn.joins {store store' : Store} {v : Value} (h : store.AgreesOn store' v)
    (hnodes : store.Numbers v) (hnodes' : store'.Numbers v) :
    (store.pairing store' v).Joins store store' store store' where
  nextNode := ⟨0, rfl, rfl⟩
  environments := by
    rintro env ⟨u, hu, henv⟩
    have hoptions := h.environments u env hu henv
    have hsees : ∀ environment environment', store.live? env = some environment →
        store'.live? env = some environment' → ∀ name, store.Holds v (.symbol env name) →
          Option.Rel (Value.Alike (store.pairing store' v)) (environment.bindings.get? name)
            (environment'.bindings.get? name) := by
      intro environment environment' hlive hlive' name hname
      have hvisible := h.bindings env name hname
      rw [Store.visible?_of_live? hlive, Store.visible?_of_live? hlive'] at hvisible
      rw [hvisible]
      cases hbound : environment.bindings.get? name with
      | none => exact .none
      | some bound =>
        have hpart : bound ∈ store.parts (.symbol env name) := by
          simp [Store.parts, Store.visible?, hlive, hbound]
        exact .some (h.alike hnodes hnodes' (hname.tail hpart))
    unfold Store.options? at hoptions
    cases hlive : store.live? env with
    | none =>
      rw [hlive, Option.map_none, Option.map_eq_none_iff] at hoptions
      rw [hoptions]
      exact .none
    | some environment =>
      rw [hlive, Option.map_some, Option.map_eq_some_iff] at hoptions
      obtain ⟨environment', hlive', heq⟩ := hoptions
      obtain ⟨hreverse, hroom⟩ := Prod.ext_iff.mp heq
      rw [hlive']
      exact .some ⟨⟨fun _ => hreverse.symm, hsees _ _ hlive hlive'⟩, hroom.symm⟩
  transcript := ⟨[], (List.append_nil _).symm, (List.append_nil _).symm⟩

/-! ## 3. The theorem -/

/-- A computation does the same from two stores: it ends from both of them or from none, it fails in
the same way or its results differ by a renaming only, and it adds the same output. -/
structure Eval.SameFrom {α : Type} (action : Eval α) (store store' : Store) (rename : α → α) :
    Prop where
  forth : ∀ outcome after, action.Ends store outcome after → ∃ after' chunks,
    action.Ends store' (outcome.map rename) after' ∧
      after.transcript = store.transcript ++ chunks ∧
        after'.transcript = store'.transcript ++ chunks
  back : ∀ outcome' after', action.Ends store' outcome' after' → ∃ outcome after,
    action.Ends store outcome after

theorem Eval.Lockstep.sameFrom {α : Type} {action : Eval α} {p : Pairing} {P : α → α → Prop}
    {rename : α → α} {store store' : Store} (h : action.Lockstep (p.joint store store') P action)
    (hstores : p.Joins store store' store store') (hrename : ∀ a b, P a b → rename a = b) :
    action.SameFrom store store' rename where
  forth outcome after hends := by
    obtain ⟨outcome', after', hends', hsame, hafter⟩ := h.ends hstores hends
    obtain ⟨chunks, htranscript, htranscript'⟩ := hafter.transcript
    have houtcome : outcome.map rename = outcome' := by
      cases hsame with
      | ok hab => exact congrArg Except.ok (hrename _ _ hab)
      | error _ => rfl
    exact ⟨after', chunks, houtcome ▸ hends', htranscript, htranscript'⟩
  back outcome' after' hends' := h.ends_symm hstores hends'

/-- All that forces a value does the same from two stores that agree on what the value leads to, but
for the numbers of the nodes that it makes. -/
theorem Value.resolve_footprint (patience room : Nat) (store store' : Store) (v : Value)
    (hagrees : store.AgreesOn store' v) (hnodes : store.Numbers v) (hnodes' : store'.Numbers v) :
    let forcing : Forcing := ⟨Value.resolve patience room, patience⟩
    let rename := Value.renumber (renumbering store.nextNode store'.nextNode)
    (v.resolve patience room).SameFrom store store' rename ∧
      (v.display forcing).SameFrom store store' id ∧
      (v.plainText forcing).SameFrom store store' id ∧
      (∀ count, (Sequence.take forcing count v).SameFrom store store' rename) ∧
      (Sequence.collect forcing v).SameFrom store store' rename ∧
      (Sequence.head forcing v).SameFrom store store' rename ∧
      (Sequence.tail v).SameFrom store store' rename ∧
      ((·.mapError Json.ExportFailure.message) <$> Json.render forcing v).SameFrom store store'
        id := by
  intro forcing rename
  have hstores := hagrees.joins hnodes hnodes'
  have hself := hagrees.alike hnodes hnodes' .refl
  have hforcing : forcing.Lockstep ((store.pairing store' v).joint store store')
      (store.pairing store' v) :=
    Value.resolve_lockstep patience room fun hother => absurd trivial hother
  have hold : ∀ a b, (store.pairing store' v).old a b → a = b := fun _ _ hold => hold.1
  have hrename : ∀ a b, Value.Alike (store.pairing store' v) a b → rename a = b :=
    fun a b hab => hab.renumber_eq hold
  refine ⟨(hforcing.force v v hself).sameFrom hstores hrename,
    (v.display_lockstep hforcing hself).sameFrom hstores fun _ _ heq => heq,
    (v.plainText_lockstep hforcing hself).sameFrom hstores fun _ _ heq => heq,
    fun count => (Sequence.take_lockstep hforcing count hself).sameFrom hstores hrename,
    (Sequence.collect_lockstep hforcing hself).sameFrom hstores hrename,
    (Sequence.head_lockstep hforcing hself).sameFrom hstores hrename,
    (Sequence.tail_lockstep hself).sameFrom hstores hrename, ?_⟩
  exact (lockstep_map (Json.render_lockstep hforcing hself) fun _ _ heq => heq).sameFrom hstores
    fun _ _ heq => heq

/-- A list that prints and then adds an endless sequence to itself, in two stores where another name
is bound to something else, nodes have been made, and another environment is gone. -/
theorem Value.resolve_footprint_sum :
    let s := Value.symbol 0 "s"
    let ones := Value.sequence 0 0 (.int 1) s
    let v := Value.list [.call 1 0 (.function (.eager .print)) [.str "x"] [],
      .expression 2 0 .add s s]
    let twos (node : NodeId) := Value.sequence (node + 1) 0 (.int 2)
      (.call node 0 (.function (.eager .concat)) [s, s] [])
    let store : Store := { Store.single [("s", ones), ("t", .int 7)] with nextNode := 3 }
    let gone : Environment := { Environment.fresh false none with live := false }
    let store' : Store :=
      { environments := (Store.single [("t", .symbol 1 "u"), ("s", ones)]).environments ++ [gone]
        nextNode := 9
        transcript := [.shown "> "] }
    (store.AgreesOn store' v ∧ store.Numbers v ∧ store'.Numbers v) ∧
      (∃ after, (v.resolve 0 depthLimit).Ends store (.ok (.list [.nil, twos 4])) after ∧
        after.transcript = [.printed 0 "x\n".toUTF8]) ∧
      ∃ after', (v.resolve 0 depthLimit).Ends store' (.ok (.list [.nil, twos 10])) after' ∧
        after'.transcript = [.shown "> ", .printed 0 "x\n".toUTF8] := by
  intro s ones v twos store gone store'
  have hvisible : store.visible? 0 "s" = some ones := rfl
  have hvisible' : store'.visible? 0 "s" = some ones := rfl
  let values : List Value := [v, .call 1 0 (.function (.eager .print)) [.str "x"] [],
    .function (.eager .print), .str "x", .expression 2 0 .add s s, s, ones, .int 1]
  have hclosed : ∀ u ∈ values, ∀ w ∈ store.parts u, w ∈ values := by
    simp [values, v, s, ones, Store.parts, hvisible]
  have hclosed' : ∀ u ∈ values, ∀ w ∈ store'.parts u, w ∈ values := by
    simp [values, v, s, ones, Store.parts, hvisible']
  have hagrees : store.AgreesOn store' v := by
    refine ⟨fun env name h => ?_, fun u env h henv => ?_⟩
    · have hmem := h.mem_of_closed hclosed List.mem_cons_self
      obtain ⟨rfl, rfl⟩ : env = 0 ∧ name = "s" := by simpa [values, v, s, ones] using hmem
      exact hvisible'.trans hvisible.symm
    · have hmem := h.mem_of_closed hclosed List.mem_cons_self
      have henvs : ∀ u ∈ values, ∀ env, u.environment? = some env → env = 0 := by
        simp [values, v, s, ones, environment?]
      rw [henvs u hmem env henv]
      rfl
  have hold : ∀ u ∈ values, ∀ node, u.node? = some node → node < 3 := by
    simp [values, v, s, ones, node?]
  have hnodes : store.Numbers v := fun u node h hnode =>
    hold u (h.mem_of_closed hclosed List.mem_cons_self) node hnode
  have hnodes' : store'.Numbers v := fun u node h hnode =>
    (hold u (h.mem_of_closed hclosed' List.mem_cons_self) node hnode).trans (by decide)
  have hrun : ∃ after, (v.resolve 0 depthLimit).Ends store (.ok (.list [.nil, twos 4])) after ∧
      after.transcript = [.printed 0 "x\n".toUTF8] := ⟨_, rfl, rfl⟩
  refine ⟨⟨hagrees, hnodes, hnodes'⟩, hrun, ?_⟩
  obtain ⟨after, hends, htranscript⟩ := hrun
  obtain ⟨hsame, -⟩ := resolve_footprint 0 depthLimit store store' v hagrees hnodes hnodes'
  obtain ⟨after', chunks, hends', hbefore, hafter'⟩ := hsame.forth _ _ hends
  refine ⟨after', hends', ?_⟩
  rw [hafter', show chunks = [.printed 0 "x\n".toUTF8] from hbefore.symm.trans htranscript]
  rfl

end Deferral
