import Deferral.Proofs.Merging
import Deferral.Proofs.Relocation

/-!
# Keys that are resolved late

A map is built from entries whose keys may be deferred, so entries are merged twice: those with one
key as it is written, and those with one key when it has been resolved.  The entries that are lost
at first are not resolved at all, so other nodes are made than if all of them were resolved
(`Value.ResolvesAlong.relocation`).  The map that comes out has the keys of the map of all resolved
entries, in their order.  Its values may be others, since an entry takes the place of an earlier one
with the same written key (`Value.resolve_ofList`, `Value.resolve_ofList_differs`).
-/

namespace Deferral

open Eval

/-! ## 1. Entries -/

namespace Value

def resolvePair (patience room : Nat) (entry : Value × Value) : Eval (Value × Value) := do
  return (← entry.1.resolve patience room, ← entry.2.resolve patience room)

variable {patience room : Nat}

theorem resolve_map (patience room : Nat) (entries : Entries) :
    (Value.map entries).resolve patience room =
      (fun found => .map (Entries.ofList found)) <$> entries.mapM (resolvePair patience room) := by
  cases room <;> exact resolveWith_map _ entries

theorem resolvePair_keeps {R : Store → Store → Prop} [Admits R] (entry : Value × Value) :
    (resolvePair patience room entry).Keeps R :=
  keeps_bind (resolve_keeps patience room _) fun _ =>
    keeps_bind (resolve_keeps patience room _) fun _ => keeps_pure _

theorem resolvePair_makes {first : NodeId} {entry : Value × Value} (hkey : entry.1.OlderThan first)
    (hvalue : entry.2.OlderThan first) : (resolvePair patience room entry).Makes first
      fun next pair => pair.1.OlderThan next ∧ pair.2.OlderThan next :=
  makes_bind (resolve_makes patience room first _ hkey) fun _ hle _ hkey =>
    makes_bind (resolve_makes patience room _ _ (hvalue.mono hle)) fun _ hle' _ hvalue =>
      makes_pure fun _ hle'' => ⟨hkey.mono (hle'.trans hle''), hvalue.mono hle''⟩

/-- From two stores that forcing leads to, an entry resolves to the same but for its new nodes. -/
theorem resolvePair_moves {base store store' after : Store} {entry pair : Value × Value}
    (hbase : base.Numbered) (hkey : entry.1.OlderThan base.nextNode)
    (hvalue : entry.2.OlderThan base.nextNode) (hstore : base.Reached store)
    (hstore' : base.Reached store')
    (hends : (resolvePair patience room entry).Ends store (.ok pair) after) :
    ∃ pair' after', (resolvePair patience room entry).Ends store' (.ok pair') after' ∧
      Alike.Pairs (.since base.nextNode store.nextNode store'.nextNode) pair pair' ∧
        ∃ made, after.nextNode = store.nextNode + made ∧
          after'.nextNode = store'.nextNode + made := by
  let p := Pairing.since base.nextNode store.nextNode store'.nextNode
  have := Pairing.joint_shows (p := p) trivial store store'
  have hforcing : Forcing.Lockstep (p.joint store store') p ⟨resolve patience room, patience⟩ :=
    resolve_lockstep patience room fun hother => absurd trivial hother
  have hlockstep : (resolvePair patience room entry).Lockstep (p.joint store store')
      (Alike.Pairs p) (resolvePair patience room entry) :=
    lockstep_bind (hforcing.force _ _ (.since hstore hstore' hkey)) fun _ _ hkey =>
      lockstep_bind (hforcing.force _ _ (.since hstore hstore' hvalue)) fun _ _ hvalue =>
        lockstep_pure ⟨hkey, hvalue⟩
  obtain ⟨outcome, after', hends', hsame, hafter⟩ :=
    hlockstep.ends (hstore.joins hbase hstore') hends
  cases hsame with
  | @ok _ pair' hpair => exact ⟨pair', after', hends', hpair, hafter.nextNode⟩

end Value

/-! ## 2. Loops over entries -/

namespace Value

structure ResolvesAlong (patience room : Nat) (base : Store) (entries resolved : Entries)
    (stores : Nat → Store) : Prop where
  length : resolved.length = entries.length
  zero : stores 0 = base
  reached : ∀ i, base.Reached (stores i)
  mono : Monotone fun i => (stores i).nextNode
  run : ∀ i < entries.length, (resolvePair patience room (entries.nth i)).Ends (stores i)
    (.ok (resolved.nth i)) (stores (i + 1))

variable {patience room : Nat} {base : Store} {entries resolved found : Entries}
  {stores stores' : Nat → Store} {numbers : List Nat}

theorem exists_resolvesAlong {after : Store} (hsinks : base.Unbounded)
    (h : (entries.mapM (resolvePair patience room)).Ends base (.ok resolved) after) :
    ∃ stores, ResolvesAlong patience room base entries resolved stores := by
  obtain ⟨stores, hzero, hend, hruns⟩ := h.mapM_stores
  have hlength : resolved.length = entries.length := h.mapM_length
  have hrun : ∀ i < entries.length, (resolvePair patience room (entries.nth i)).Ends (stores i)
      (.ok (resolved.nth i)) (stores (i + 1)) := fun i hi =>
    hruns i _ _ (Entries.getElem?_eq_nth hi) (Entries.getElem?_eq_nth (hlength ▸ hi))
  have hstays : ∀ i, ¬ i < entries.length → stores (i + 1) = stores i := fun i hi =>
    (hend (i + 1) (by omega)).trans (hend i (by omega)).symm
  have hfollows : ∀ entry, (resolvePair patience room entry).Keeps Store.Follows :=
    resolvePair_keeps
  refine ⟨stores, hlength, hzero, fun i => ?_, monotone_nat_of_le_succ fun i => ?_, hrun⟩
  · induction i with
    | zero => exact hzero ▸ ⟨refl_of Store.Follows _, fun _ => rfl⟩
    | succ i ih =>
      by_cases hi : i < entries.length
      · exact ih.ends hsinks (hfollows _) (resolvePair_keeps _) (hrun i hi)
      · exact hstays i hi ▸ ih
  · by_cases hi : i < entries.length
    · exact (hfollows _ _ _ _ (hrun i hi)).nextNode
    · rw [hstays i hi]

namespace ResolvesAlong

section
variable (hbase : base.Numbered) (hentries : (Value.map entries).OlderThan base.nextNode)
  (h : ResolvesAlong patience room base entries resolved stores)
include hbase hentries h

theorem olderThan {i : Nat} (hi : i < entries.length) :
    (resolved.nth i).1.OlderThan (stores (i + 1)).nextNode ∧
      (resolved.nth i).2.OlderThan (stores (i + 1)).nextNode := by
  obtain ⟨hkey, hvalue⟩ := hentries.entry (Entries.nth_mem hi)
  have hnumbered : (stores i).Numbered := hbase.of_follows (h.reached i).toFollows
  obtain ⟨-, -, hpair⟩ := resolvePair_makes hkey hvalue _ _ _ (h.reached i).nextNode hnumbered
    (h.run i hi)
  exact hpair _ rfl

theorem moves {i : Nat} (hi : i < entries.length) {before : Store} (hbefore : base.Reached before) :
    ∃ pair between, (resolvePair patience room (entries.nth i)).Ends before (.ok pair) between ∧
      Alike.Pairs (.since base.nextNode (stores i).nextNode before.nextNode) (resolved.nth i)
        pair ∧
      ∃ made, (stores (i + 1)).nextNode = (stores i).nextNode + made ∧
        between.nextNode = before.nextNode + made := by
  obtain ⟨hkey, hvalue⟩ := hentries.entry (Entries.nth_mem hi)
  exact resolvePair_moves hbase hkey hvalue (h.reached i) hbefore (h.run i hi)

variable (hlt : ∀ i ∈ numbers, i < entries.length)
include hlt

/-- Some of the entries resolve again, one after the other, in any order. -/
theorem repeats (hsinks : base.Unbounded) : ∃ found last,
    ((numbers.map entries.nth).mapM (resolvePair patience room)).Ends base (.ok found) last := by
  refine exists_mapM_ends (C := base.Reached) (h.zero ▸ h.reached 0) ?_
  intro entry hentry before hbefore
  obtain ⟨i, hi, rfl⟩ := List.mem_map.mp hentry
  obtain ⟨pair, between, hends, -⟩ := h.moves hbase hentries (hlt i hi) hbefore
  exact ⟨pair, between, hends,
    hbefore.ends hsinks (resolvePair_keeps _) (resolvePair_keeps _) hends⟩

variable (h' : ResolvesAlong patience room base (numbers.map entries.nth) found stores')
include h'

/-- A step that is repeated gives the same but for its new nodes, and makes as many of them. -/
theorem repeated {k i : Nat} (hk : numbers[k]? = some i) :
    Alike.Pairs (.since base.nextNode (stores i).nextNode (stores' k).nextNode) (resolved.nth i)
        (found.nth k) ∧
      ∃ made, (stores (i + 1)).nextNode = (stores i).nextNode + made ∧
        (stores' (k + 1)).nextNode = (stores' k).nextNode + made := by
  have hlength : k < (numbers.map entries.nth).length := by
    rw [List.length_map]
    exact (List.getElem?_eq_some_iff.mp hk).1
  have hrun := h'.run k hlength
  rw [Entries.nth_map hk] at hrun
  obtain ⟨pair, between, hends, hmoved⟩ :=
    h.moves hbase hentries (hlt i (List.mem_of_getElem? hk)) (h'.reached k)
  -- The entry has one run from the store that the second loop has come to.
  obtain ⟨heq, rfl⟩ := hends.unique hrun
  cases heq
  exact hmoved

/-- The nodes that two loops make, the second one over some of the entries of the first. -/
def relocation (hnodup : numbers.Nodup) : Relocation where
  base := base.nextNode
  first i := (stores i).nextNode
  second k := (stores' k).nextNode
  count := entries.length
  repeated := numbers
  first_mono := h.mono
  second_mono := h'.mono
  first_zero := by rw [h.zero]
  second_zero := by rw [h'.zero]
  repeated_lt := hlt
  repeated_nodup := hnodup
  made _ _ hk := (h.repeated hbase hentries hlt h' hk).2

theorem relocation_alike (hnodup : numbers.Nodup) :
    Alike.Entries (h.relocation hbase hentries hlt h' hnodup).pairing (numbers.map resolved.nth)
      found := by
  have hlength : (numbers.map resolved.nth).length = found.length := by
    rw [h'.length, List.length_map, List.length_map]
  refine List.forall₂_iff_get.mpr ⟨hlength, fun k hk hk' => ?_⟩
  rw [List.length_map] at hk
  have hi : numbers[k]? = some numbers[k] := List.getElem?_eq_getElem hk
  obtain ⟨⟨hkey, hvalue⟩, -⟩ := h.repeated hbase hentries hlt h' hi
  obtain ⟨holdkey, holdvalue⟩ := h.olderThan hbase hentries (hlt _ (List.getElem_mem hk))
  rw [List.get_eq_getElem, List.getElem_map, List.get_eq_getElem,
    Entries.getElem_eq_nth hk']
  exact ⟨Relocation.alike hi hkey holdkey, Relocation.alike hi hvalue holdvalue⟩

end

end ResolvesAlong

/-! ## 3. Maps -/

/-- A map of deferred entries resolves to the map of those resolved entries that were not lost
before, up to the numbers of new nodes.  If keys that are equal as they are written resolve to equal
keys, then it has the keys of the map of all resolved entries, in the same order.  Of the entries
with one resolved key it has the last one with that written key which is seen last for the first
time, so it is the map of all resolved entries if the last entry with each key has that written
key. -/
theorem resolve_ofList (patience room : Nat) (store after : Store) (entries resolved : Entries)
    (hstore : store.Numbered) (hentries : (Value.map entries).OlderThan store.nextNode)
    (hsinks : store.Unbounded)
    (hresolved : (entries.mapM (resolvePair patience room)).Ends store (.ok resolved) after) :
    let found := Entries.ofList (Entries.leftOf entries resolved)
    (∃ (rename : NodeId → NodeId) (last : Store),
      ((Value.map (Entries.ofList entries)).resolve patience room).Ends store
        (.ok ((Value.map found).renumber rename)) last ∧
      Function.Injective rename ∧ ∀ node < store.nextNode, rename node = node) ∧
    ((∀ i j, entries.SameKey i j → resolved.SameKey i j) →
      found.SameKeys (Entries.ofList resolved) ∧
      (∀ entry, entry ∈ found ↔ ∃ j, resolved[j]? = some entry ∧ entries.LastOfKey j ∧
        ∀ i, resolved.SameKey i j → Entries.NoLater entries.SameKey i j) ∧
      ((∀ j, resolved.LastOfKey j →
          ∀ i, resolved.SameKey i j → Entries.NoLater entries.SameKey i j) →
        found = Entries.ofList resolved)) := by
  intro found
  have hlength : resolved.length = entries.length := hresolved.mapM_length
  have hsame := entries.sameKey_equivalence
  -- The numbers of the entries that are left before anything is resolved.
  let numbers := Entries.order entries.SameKey resolved.length
  have hnumbers : Entries.ofList entries = numbers.map entries.nth := by
    rw [Entries.ofList_eq_order, ← hlength]
  have hlt : ∀ i ∈ numbers, i < entries.length := fun i hi => hlength ▸ Entries.lt_of_mem_order hi
  have hnodup : numbers.Nodup := (Entries.order_distinct hsame _).imp fun hne heq => hne (.inl heq)
  obtain ⟨stores, hfirst⟩ := exists_resolvesAlong hsinks hresolved
  obtain ⟨results, last, hends⟩ := hfirst.repeats hstore hentries hlt hsinks
  obtain ⟨stores', hsecond⟩ := exists_resolvesAlong hsinks hends
  let r := hfirst.relocation hstore hentries hlt hsecond hnodup
  have halike := hfirst.relocation_alike hstore hentries hlt hsecond hnodup
  have hmoves : ∀ a b, r.Moves a b → b < r.second r.repeated.length := fun _ _ h => h.lt.2
  obtain ⟨rename, hinjective, hrename⟩ := r.pairing.exists_renaming rfl hmoves
  have hresult : (Value.map found).renumber rename = .map (Entries.ofList results) :=
    (Alike.of_entries (Alike.ofList halike)).renumber_eq_of_nodes hrename
  refine ⟨⟨rename, last, ?_, hinjective, fun node hnode => ?_⟩, fun hkeys =>
    ⟨?_, fun entry => ⟨fun hentry => ?_, ?_⟩, Entries.ofList_order_eq hsame hkeys⟩⟩
  · show (resolve patience room _).Ends store (.ok ((Value.map found).renumber rename)) last
    rw [hresult, resolve_map, hnumbers, map_eq_pure_bind]
    exact hends.bind (ends_pure_self _ _)
  · exact hrename node node (.inl (.inl ⟨rfl, hnode⟩))
  · have hagree := Entries.ofList_order_sameKeys hkeys (Nat.le_refl resolved.length)
    rwa [List.take_length] at hagree
  · obtain ⟨j, hj, rfl, hlast, hlate⟩ := Entries.exists_of_mem_ofList_order hsame hkeys hentry
    refine ⟨j, Entries.getElem?_eq_nth hj, fun m hjm hm => ?_, hlate⟩
    exact hlast m (hlength ▸ hm.lt (by omega)) hjm hm
  · rintro ⟨j, hentry, hlast, hlate⟩
    obtain ⟨hj, -⟩ := List.getElem?_eq_some_iff.mp hentry
    obtain rfl := Option.some.inj ((Entries.getElem?_eq_nth hj).symm.trans hentry)
    exact Entries.mem_ofList_order hsame hj (fun m _ => hlast m) hlate

/-- Two names for 5, in turn, and a sequence that is made anew for each of two entries.  The first
of these entries is lost before anything is resolved, so the other one makes the first nodes. -/
theorem resolve_ofList_names :
    let x := Value.symbol 0 "x"
    let y := Value.symbol 0 "y"
    let s := Value.symbol 0 "s"
    let ones := Value.sequence 0 0 (.int 1) s
    let sum (node : NodeId) : Value := .expression node 0 .add s s
    let twos (node : NodeId) : Value := .sequence (node + 1) 0 (.int 2)
      (.call node 0 (.function (.eager .concat)) [s, s] [])
    let store : Store :=
      { Store.single [("x", .int 5), ("y", .int 5), ("s", ones)] with nextNode := 3 }
    let entries : Entries := [(y, sum 1), (x, .int 2), (y, .int 3), (x, sum 2)]
    let resolved : Entries :=
      [(.int 5, twos 4), (.int 5, .int 2), (.int 5, .int 3), (.int 5, twos 7)]
    ((store.Numbered ∧ (Value.map entries).OlderThan store.nextNode ∧ store.Unbounded) ∧
      (∃ after, (entries.mapM (resolvePair 0 depthLimit)).Ends store (.ok resolved) after) ∧
      ∀ i j, entries.SameKey i j → resolved.SameKey i j) ∧
    ∃ rename last, Function.Injective rename ∧ (∀ node < 3, rename node = node) ∧
      ((Value.map (Entries.ofList entries)).resolve 0 depthLimit).Ends store
        (.ok ((Value.map [(.int 5, twos 7)]).renumber rename)) last := by
  intro x y s ones sum twos store entries resolved
  have hnumbered : store.Numbered := Store.single_numbered (by
    simp only [List.forall_mem_cons, List.not_mem_nil, false_implies, implies_true, and_true]
    exact ⟨.int 5, .int 5, .sequence 0 (by decide) (.int 1) (.symbol 0 "s")⟩)
  have hsum : ∀ node < 3, (sum node).OlderThan store.nextNode := fun node hnode =>
    .expression 0 .add hnode (.symbol 0 "s") (.symbol 0 "s")
  have hentries : (Value.map entries).OlderThan store.nextNode := by
    refine .map ?_ ?_
    all_goals
      simp only [entries, List.forall_mem_cons, List.not_mem_nil, false_implies, implies_true,
        and_true]
    · exact ⟨.symbol 0 "y", .symbol 0 "x", .symbol 0 "y", .symbol 0 "x"⟩
    · exact ⟨hsum 1 (by decide), .int 2, .int 3, hsum 2 (by decide)⟩
  have hsinks : store.Unbounded := Store.single_unbounded
  have hresolved : ∃ after,
      (entries.mapM (resolvePair 0 depthLimit)).Ends store (.ok resolved) after := ⟨_, rfl⟩
  have hall : ∀ i < 4, ∀ j < 4, resolved.SameKey i j := by decide +kernel
  have hkeys : ∀ i j, entries.SameKey i j → resolved.SameKey i j := by
    intro i j h
    by_cases hij : i = j
    · exact .inl hij
    · exact hall i (h.lt hij) j ((entries.sameKey_equivalence.symm h).lt (Ne.symm hij))
  refine ⟨⟨⟨hnumbered, hentries, hsinks⟩, hresolved, hkeys⟩, ?_⟩
  obtain ⟨after, hends⟩ := hresolved
  obtain ⟨⟨rename, last, hfound, hinjective, hold⟩, hmerged⟩ :=
    resolve_ofList 0 depthLimit store after entries resolved hnumbered hentries hsinks hends
  obtain ⟨-, -, heq⟩ := hmerged hkeys
  have hlate : ∀ j, resolved.LastOfKey j → ∀ i, resolved.SameKey i j →
      Entries.NoLater entries.SameKey i j := by
    intro j hlast i h
    by_cases hij : i = j
    · exact hij ▸ fun l hl => ⟨l, Nat.le_refl l, hl⟩
    · have hi : i < 4 := h.lt hij
      have hj : j < 4 := (resolved.sameKey_equivalence.symm h).lt (Ne.symm hij)
      by_cases hj3 : j = 3
      · subst hj3
        -- Both names stand in front of the last entry, and `y` stands first.
        intro l hl
        have hname : ∀ i < 3, entries.SameKey 0 i ∨ entries.SameKey 1 i := by decide +kernel
        rcases hname i (by omega) with hy | hx
        · exact ⟨0, Nat.zero_le l, hy⟩
        · have hfirst : ¬ entries.SameKey 0 3 := by decide +kernel
          have hl0 : l ≠ 0 := fun hl0 => hfirst (hl0 ▸ hl)
          exact ⟨1, Nat.pos_of_ne_zero hl0, hx⟩
      · exact absurd (hall 3 (by decide) j hj) (hlast 3 (by omega))
  rw [heq hlate] at hfound
  exact ⟨rename, last, hinjective, hold, hfound⟩

/-- The map of the resolved entries may be another one: an entry takes the place of an earlier one
with its name, in front of an entry whose key the name stands for; or two entries have one name for
a NaN; or an entry that is lost would have filled the sink. -/
theorem resolve_ofList_differs :
    let x := Value.symbol 0 "x"
    let nan := Value.float ⟨0x7ff8000000000000⟩
    let printing (node : NodeId) (s : String) : Value :=
      .call node 0 (.function (.eager .print)) [.str s] []
    let shown : Value :=
      .call 3 0 (.function (.eager .str)) [.sequence 2 0 (printing 1 "b") .nil] []
    let bounded : Store :=
      { environments := [Environment.fresh false (some 2)], nextNode := 4, transcript := [] }
    let differs (store : Store) (entries resolved : Entries) : Prop :=
      (∃ after, (entries.mapM (resolvePair 4 depthLimit)).Ends store (.ok resolved) after) ∧
        ∀ last, ¬ ((Value.map (Entries.ofList entries)).resolve 4 depthLimit).Ends store
          (.ok (.map (Entries.ofList resolved))) last
    differs (Store.single [("x", .int 5)]) [(x, .int 1), (.int 5, .int 2), (x, .int 3)]
        [(.int 5, .int 1), (.int 5, .int 2), (.int 5, .int 3)] ∧
      differs (Store.single [("x", nan)]) [(x, .int 1), (x, .int 2)]
        [(nan, .int 1), (nan, .int 2)] ∧
      differs bounded [(.str "a", printing 0 "a"), (.str "b", shown), (.str "a", .int 1)]
        [(.str "a", .nil), (.str "b", .str "Iter(<IOError: sink is full>, ...)"),
          (.str "a", .int 1)] := by
  intro x nan printing shown bounded differs
  have hdiffers : ∀ {store after after' : Store} {entries resolved : Entries} {found : Value},
      (entries.mapM (resolvePair 4 depthLimit)).Ends store (.ok resolved) after →
      ((Value.map (Entries.ofList entries)).resolve 4 depthLimit).Ends store (.ok found) after' →
      found ≠ .map (Entries.ofList resolved) → differs store entries resolved :=
    fun hresolved hfound hne =>
      ⟨⟨_, hresolved⟩, fun _ hends => hne (Except.ok.inj (hfound.unique hends).1)⟩
  refine ⟨hdiffers rfl rfl ?_, hdiffers rfl rfl ?_, hdiffers rfl rfl ?_⟩
  · exact fun h => absurd (congrArg Value.quoted h) (by decide +kernel)
  · exact fun h => absurd (congrArg Value.quoted h) (by decide +kernel)
  · exact fun h => absurd (congrArg Value.quoted h) (by decide +kernel)

end Value

end Deferral

