import Deferral.Proofs.CallRoutes
import Deferral.Proofs.Iteration

/-!
# Chains of known elements

In a chain of sequence nodes whose heads are in normal form nothing is left to be forced but the
end of the chain.  If that is `None`, then the chain and the list of its heads are interchangeable,
however long it is (`Sequence.chain_interchangeable`).  If it is a name that the chain itself is
bound to, then the heads come round again and again, and each round gives back the depth that the
name has taken (`Sequence.cycle_elements`).
-/

namespace Deferral

open Eval

namespace Sequence

variable {patience room : Nat} {links : List ((NodeId × EnvId) × Value)} {tail : Value}

/-! ## 1. Elements at no cost in depth -/

theorem next?_nil (patience room : Nat) :
    next? ⟨Value.resolve patience room, patience⟩ .nil = pure none := by
  show Value.nil.resolve patience room >>= _ = _
  rw [Value.Normal.nil.resolve_eq, pure_bind]

/-- A node whose head is in normal form gives its head, at any depth. -/
theorem next?_node {head : Value} (hhead : head.Normal) (patience room : Nat) (node : NodeId)
    (env : EnvId) (tail : Value) :
    next? ⟨Value.resolve patience room, patience⟩ (.sequence node env head tail) =
      pure (some (head, tail)) := by
  show (Value.sequence node env head tail).resolve patience room >>= _ = _
  rw [(Value.Normal.sequence node env head tail).resolve_eq, pure_bind]
  show head.resolve patience room >>= _ = _
  rw [hhead.resolve_eq, pure_bind]

theorem resolve_of_forceOnce {store after : Store} {v w : Value} (hdeferred : v.isDeferred = true)
    (hsequence : v.isSequence = false) (hw : w.Normal)
    (hstep : (v.forceOnce ⟨Value.resolve patience room, patience⟩).Ends store (.ok w) after) :
    (v.resolve patience (room + 1)).Ends store (.ok w) after := by
  have hlast : (w.isDeferred && !w.isSequence) = false := by cases hw <;> rfl
  have hsteps : (v.unwind ⟨Value.resolve patience room, patience⟩ (255 + 1)).Ends store (.ok w)
      after := by
    apply hstep.bind
    rw [hlast]
    exact ends_pure_self _ _
  rw [Value.resolve, Value.resolveWith_deferred _ hdeferred hsequence]
  apply hsteps.bind
  rw [hw.resolve_eq]
  exact ends_pure_self _ _

theorem isSequence_chain (hne : links ≠ []) : (chain links tail).isSequence := by
  cases links with
  | nil => exact absurd rfl hne
  | cons link links => rfl

theorem normal_of_isSequence {v : Value} (hv : v.isSequence) : v.Normal := by
  cases v with
  | sequence => exact .sequence _ _ _ _
  | _ => cases hv

/-! ## 2. Chains that end -/

theorem takeItems_ended (hheads : ∀ link ∈ links, link.2.Normal) (requested left : Nat)
    (found : List Value) :
    takeItems ⟨Value.resolve patience room, patience⟩ requested left found (chain links .nil) =
      if links.length < left then throw (.exhausted requested (found.length + links.length))
      else pure (found.reverse ++ (links.map Prod.snd).take left) := by
  -- Each round takes one link away and adds its head to what has been found.
  induction links generalizing left found with
  | nil =>
    cases left with
    | zero => simp [takeItems]
    | succ left =>
      rw [takeItems, chain, next?_nil, pure_bind]
      simp
  | cons link links ih =>
    obtain ⟨⟨node, env⟩, head⟩ := link
    obtain ⟨hhead, hrest⟩ := List.forall_mem_cons.mp hheads
    cases left with
    | zero => simp [takeItems]
    | succ left =>
      rw [takeItems, chain, next?_node hhead, pure_bind]
      dsimp only
      rw [ih hrest left (head :: found), List.length_cons, List.length_cons,
        Nat.add_right_comm found.length 1, Nat.add_assoc]
      simp

theorem collectItems_ended (hheads : ∀ link ∈ links, link.2.Normal) {fuel : Nat}
    (hfuel : links.length < fuel) (found : List Value) :
    collectItems ⟨Value.resolve patience room, patience⟩ fuel found (chain links .nil) =
      pure (found.reverse ++ links.map Prod.snd) := by
  induction links generalizing fuel found with
  | nil =>
    obtain ⟨fuel, rfl⟩ := Nat.exists_eq_succ_of_ne_zero (by omega : fuel ≠ 0)
    rw [collectItems, chain, next?_nil, pure_bind]
    simp
  | cons link links ih =>
    obtain ⟨⟨node, env⟩, head⟩ := link
    obtain ⟨hhead, hrest⟩ := List.forall_mem_cons.mp hheads
    obtain ⟨fuel, rfl⟩ := Nat.exists_eq_succ_of_ne_zero (by omega : fuel ≠ 0)
    rw [collectItems, chain, next?_node hhead, pure_bind]
    dsimp only
    rw [ih hrest (Nat.lt_of_succ_lt_succ hfuel) (head :: found)]
    simp

/-- A chain that ends and the list of its heads are interchangeable, if resolution leaves the heads
as they are.  All of it is collected into the list, and what is taken of one is taken of the other,
or is missing from both.  It does not matter how long the chain is, nor how deep it is followed:
where there is no room for a deferred value, the chain is followed all the same. -/
theorem chain_interchangeable {patience room : Nat} {links : List ((NodeId × EnvId) × Value)}
    (hne : links ≠ []) (hfixed : ∀ link ∈ links, ∃ store after,
      (link.2.resolve patience room).Ends store (.ok link.2) after) :
    let forcing : Forcing := ⟨Value.resolve patience room, patience⟩
    let xs := links.map Prod.snd
    let s := chain links .nil
    (xs.length < patience → collect forcing s = pure (.list xs)) ∧
    ∀ n, take forcing n s = take forcing n (.list xs) ∧
      take forcing n s = if xs.length < n then throw (.exhausted n xs.length)
        else pure (.list (xs.take n)) := by
  intro forcing xs s
  have hheads : ∀ link ∈ links, link.2.Normal := by
    intro link hlink
    obtain ⟨store, after, hresolve⟩ := hfixed link hlink
    exact Value.resolve_normal hresolve
  have hlength : xs.length = links.length := List.length_map Prod.snd
  have hs : s.isSequence := isSequence_chain hne
  have htake : ∀ n, take forcing n s = if xs.length < n then throw (.exhausted n xs.length)
      else pure (.list (xs.take n)) := by
    intro n
    rw [take_eq hs, takeItems_ended hheads, hlength]
    by_cases hshort : links.length < n
    · rw [if_pos hshort, if_pos hshort, List.length_nil, Nat.zero_add]
      rfl
    · rw [if_neg hshort, if_neg hshort, pure_bind]
      rfl
  constructor
  · intro hpatience
    rw [collect_eq hs, collectItems_ended hheads (hlength ▸ hpatience), pure_bind]
    rfl
  · intro n
    refine ⟨?_, htake n⟩
    rw [htake n]
    rfl

/-- A chain longer than deferred values may nest, followed where nothing deferred can be forced. -/
theorem chain_interchangeable_long :
    let links : List ((NodeId × EnvId) × Value) := List.replicate 300 ((0, 0), .int 1)
    let ones : List Value := List.replicate 300 (.int 1)
    let forcing : Forcing := ⟨Value.resolve 301 0, 301⟩
    let s := chain links .nil
    (links ≠ [] ∧ ∀ link ∈ links, ∃ store after,
        (link.2.resolve 301 0).Ends store (.ok link.2) after) ∧
      depthLimit < ones.length ∧ collect forcing s = pure (.list ones) ∧
      take forcing 300 s = pure (.list ones) ∧
      take forcing 301 s = throw (.exhausted 301 300) := by
  intro links ones forcing s
  have hne : links ≠ [] := List.cons_ne_nil _ _
  have hfixed : ∀ link ∈ links, ∃ store after,
      (link.2.resolve 301 0).Ends store (.ok link.2) after := by
    intro link hlink
    rw [List.eq_of_mem_replicate hlink]
    exact ⟨Store.empty, Store.empty, rfl⟩
  have hones : links.map Prod.snd = ones := List.map_replicate
  have hlength : ones.length = 300 := List.length_replicate
  obtain ⟨hcollect, htake⟩ := chain_interchangeable hne hfixed
  rw [hones, hlength] at hcollect
  simp only [hones, hlength] at htake
  refine ⟨⟨hne, hfixed⟩, by rw [hlength]; decide, hcollect (by decide), ?_, ?_⟩
  · rw [(htake 300).2, if_neg (by decide), List.take_of_length_le (Nat.le_of_eq hlength)]
  · rw [(htake 301).2, if_pos (by decide)]

/-! ## 3. Chains that lead back to their beginning -/

def around (xs : List Value) (hpos : 0 < xs.length) (n : Nat) : List Value :=
  List.ofFn fun i : Fin n => xs.get ⟨i.val % xs.length, Nat.mod_lt _ hpos⟩

section
variable {xs : List Value} (hpos : 0 < xs.length) (n : Nat)

theorem length_around : (around xs hpos n).length = n := List.length_ofFn

theorem getElem?_around {i : Nat} (hi : i < n) :
    (around xs hpos n)[i]? = xs[i % xs.length]? := by
  simp [around, hi, Nat.mod_lt i hpos]

theorem mem_of_mem_around {item : Value} (h : item ∈ around xs hpos n) : item ∈ xs := by
  obtain ⟨i, rfl⟩ := List.mem_ofFn.mp h
  exact List.getElem_mem _

end

section
variable {store : Store} {env : EnvId} {name : String}

theorem resolve_bound {v : Value} (hv : v.isSequence) (hbound : store.visible? env name = some v)
    (patience room : Nat) :
    ((Value.symbol env name).resolve patience (room + 1)).Ends store (.ok v) store := by
  apply resolve_of_forceOnce rfl rfl (normal_of_isSequence hv)
  exact Value.forceOnce_symbol_ends.mpr ⟨hbound, rfl⟩

/-- What is left of a sequence may as well be forced before it is followed. -/
theorem next?_forced {forcing : Forcing} {rest found : Value} {between after : Store}
    {outcome : Except Failure (Option (Value × Value))}
    (h : (forcing.force rest).Ends store (.ok found) between)
    (hfound : forcing.force found = pure found) :
    (next? forcing rest).Ends store outcome after ↔
      (next? forcing found).Ends between outcome after := by
  rw [next?, h.bind_iff]
  conv_rhs => rw [next?, hfound, pure_bind]

section
variable (hheads : ∀ link ∈ links, link.2.Normal) (hne : links ≠ [])
  (hbound : store.visible? env name = some (chain links (.symbol env name)))
include hheads hne hbound

/-- A step round the cycle: what is left begins with the link of some number, or it is the name,
which stands for all links.  The element is that of the link, and what comes behind it is left. -/
theorem next?_cycle (patience room : Nat) {i : Nat} (hi : i ≤ links.length) :
    ∃ item, (links.map Prod.snd)[i % links.length]? = some item ∧
      (next? ⟨Value.resolve patience (room + 1), patience⟩
        (chain (links.drop i) (.symbol env name))).Ends store
          (.ok (some (item, chain (links.drop (i % links.length + 1)) (.symbol env name))))
          store := by
  have hpos : 0 < links.length := List.length_pos_iff.mpr hne
  have hlink : ∀ j < links.length, ∃ item, (links.map Prod.snd)[j]? = some item ∧
      next? ⟨Value.resolve patience (room + 1), patience⟩
        (chain (links.drop j) (.symbol env name)) =
          pure (some (item, chain (links.drop (j + 1)) (.symbol env name))) := by
    intro j hj
    refine ⟨links[j].2, by simp [hj], ?_⟩
    rw [List.drop_eq_getElem_cons hj, chain, next?_node (hheads _ (List.getElem_mem hj))]
  by_cases hlast : i < links.length
  · rw [Nat.mod_eq_of_lt hlast]
    obtain ⟨item, hitem, hnext⟩ := hlink i hlast
    exact ⟨item, hitem, hnext ▸ ends_pure_self _ _⟩
  · -- The chain has come to its name, which is forced and gives the first link.
    obtain rfl : i = links.length := by omega
    obtain ⟨item, hitem, hnext⟩ := hlink 0 hpos
    rw [Nat.mod_self, List.drop_length]
    refine ⟨item, hitem, ?_⟩
    have hsequence : (chain links (.symbol env name)).isSequence := isSequence_chain hne
    apply (next?_forced (resolve_bound hsequence hbound patience room)
      ((normal_of_isSequence hsequence).resolve_eq _ _)).mpr
    exact hnext ▸ ends_pure_self _ _

/-- A run round the cycle, from any place in it. -/
theorem yields_cycle (patience room : Nat) {i : Nat} (hi : i ≤ links.length) {items : List Value}
    (hitems : ∀ j < items.length, items[j]? = (links.map Prod.snd)[(i + j) % links.length]?) :
    ∃ remaining, Yields ⟨Value.resolve patience (room + 1), patience⟩ store
      (chain (links.drop i) (.symbol env name)) items remaining store := by
  induction items generalizing i with
  | nil => exact ⟨_, .nil _ _⟩
  | cons first items ih =>
    have hpos : 0 < links.length := List.length_pos_iff.mpr hne
    obtain ⟨item, hitem, hnext⟩ := next?_cycle hheads hne hbound patience room hi
    have hfirst : some first = some item := by
      rw [← hitem, ← List.getElem?_cons_zero, hitems 0 (Nat.succ_pos _), Nat.add_zero]
    cases hfirst
    obtain ⟨remaining, hyields⟩ := ih (i := i % links.length + 1) (Nat.mod_lt i hpos) (by
      intro j hj
      rw [← List.getElem?_cons_succ, hitems (j + 1) (Nat.succ_lt_succ hj), Nat.add_assoc,
        Nat.mod_add_mod, Nat.add_comm 1 j])
    exact ⟨remaining, .cons hnext hyields⟩

/-- From the beginning and from the name the same elements come round. -/
theorem yields_around (patience room n : Nat) (hpos : 0 < (links.map Prod.snd).length) :
    (∃ remaining, Yields ⟨Value.resolve patience (room + 1), patience⟩ store
      (chain links (.symbol env name)) (around (links.map Prod.snd) hpos n) remaining store) ∧
    ∃ remaining, Yields ⟨Value.resolve patience (room + 1), patience⟩ store
      (.symbol env name) (around (links.map Prod.snd) hpos n) remaining store := by
  have hitems : ∀ i, (links.length ∣ i) → ∀ j < (around (links.map Prod.snd) hpos n).length,
      (around (links.map Prod.snd) hpos n)[j]? =
        (links.map Prod.snd)[(i + j) % links.length]? := by
    rintro _ ⟨m, rfl⟩ j hj
    rw [length_around] at hj
    rw [getElem?_around hpos n hj, List.length_map, Nat.mul_add_mod]
  have hlast := yields_cycle hheads hne hbound patience room (Nat.le_refl _)
    (hitems links.length (Nat.dvd_refl _))
  rw [List.drop_length] at hlast
  exact ⟨yields_cycle hheads hne hbound patience room (Nat.zero_le _) (hitems 0 (Nat.dvd_zero _)),
    hlast⟩

theorem take_around (patience room n : Nat) (hpos : 0 < (links.map Prod.snd).length) :
    (take ⟨Value.resolve patience (room + 1), patience⟩ n (chain links (.symbol env name))).Ends
      store (.ok (.list (around (links.map Prod.snd) hpos n))) store := by
  obtain ⟨⟨remaining, hyields⟩, -⟩ := yields_around hheads hne hbound patience room n hpos
  have htake := hyields.take (isSequence_chain hne)
  rw [length_around] at htake
  exact htake

end

end

/-! ## 4. Taking through the built-in function -/

section
variable {forcing : Forcing} {store between after : Store} {env : EnvId} {count : Int64}
  {v w : Value}

theorem run_take (hcount : 0 ≤ count) (forcing : Forcing) (env : EnvId) (w : Value) :
    Builtin.take.run forcing env [.int count, w] [] = take forcing count.toInt.toNat w := by
  show Eval.ofExcept (Builtin.countOf (.int count)) >>= _ = _
  rw [Builtin.countOf, if_pos hcount]
  rfl

theorem forced_arguments (hint : forcing.force (.int count) = pure (.int count))
    (hv : (forcing.force v).Ends store (.ok w) between) :
    ([Value.int count, v].mapM forcing.force).Ends store (.ok [.int count, w]) between := by
  rw [List.mapM_cons, List.mapM_cons, List.mapM_nil, hint, pure_bind, bind_assoc]
  exact hv.bind (ends_pure_self _ _)

theorem call_take (hcount : 0 ≤ count) (hint : forcing.force (.int count) = pure (.int count))
    (hv : (forcing.force v).Ends store (.ok w) between) {outcome : Except Failure Value}
    (h : (take forcing count.toInt.toNat w).Ends between outcome after) :
    (callValue forcing env (.function (.eager .take)) [.int count, v] []).Ends store outcome
      after := by
  apply (forced_arguments hint hv).bind
  show (Builtin.take.run forcing env [.int count, w] []).Ends between outcome after
  rw [run_take hcount]
  exact h

theorem resolve_take_call {patience room : Nat} (hcount : 0 ≤ count)
    (hlive : (between.live? env).isSome)
    (hv : (v.resolve patience room).Ends store (.ok w) between) {items : List Value}
    (h : (take ⟨Value.resolve patience room, patience⟩ count.toInt.toNat w).Ends between
      (.ok (.list items)) after) (hitems : (Value.list items).Normal) (node : NodeId) :
    ((Value.call node env (.function (.eager .take)) [.int count, v] []).resolve patience
      (room + 1)).Ends store (.ok (.list items)) after := by
  obtain ⟨environment, hfound⟩ := Option.isSome_iff_exists.mp hlive
  have hfunction : ((Value.function (.eager .take)).resolve patience room).Ends store
      (.ok (.function (.eager .take))) store := by
    rw [(Value.Normal.function _).resolve_eq]
    exact ends_pure_self _ _
  apply resolve_of_forceOnce rfl rfl hitems
  apply (Value.forceOnce_call_ends hfunction).mpr
  apply (forced_arguments ((Value.Normal.int count).resolve_eq patience room) hv).bind
  apply (ends_pure_self [] between).bind
  apply (ends_environment_ok.mpr ⟨hfound, rfl⟩).bind
  rw [run_take hcount]
  exact h

end

/-- A name that is bound to a chain of elements that goes on with the name itself.  However many
elements are asked for, they are there, and come round again after each length of the chain: those
that are taken from the chain, or by the built-in function from the name, called at once or later,
and those that a cursor finds one after the other.  Nothing of the depth is used up on the way. -/
theorem cycle_elements {patience room : Nat} {links : List ((NodeId × EnvId) × Value)}
    {store : Store} {env : EnvId} {name : String} (hne : links ≠ [])
    (hfixed : ∀ link ∈ links, ∃ before after,
      (link.2.resolve patience (room + 1)).Ends before (.ok link.2) after)
    (hname : reserved? name = none)
    (hbound : store.visible? env name = some (chain links (.symbol env name))) (n : Nat) :
    let forcing : Forcing := ⟨Value.resolve patience (room + 1), patience⟩
    let outside : Forcing := ⟨Value.resolve patience (room + 2), patience⟩
    let s := chain links (.symbol env name)
    ∃ items : List Value, items.length = n ∧
      (∀ i < n, items[i]? = (links.map Prod.snd)[i % links.length]?) ∧
      (take forcing n s).Ends store (.ok (.list items)) store ∧
      (∀ rest ∈ [s, readName env name],
        ((Cursor.start rest).nexts forcing n).Ends store
          (.ok (items.map fun item => .ok (some item))) store) ∧
      ∀ count : Int64, count.toInt = n →
        (callValue forcing env (.function (.eager .take)) [.int count, readName env name] []).Ends
          store (.ok (.list items)) store ∧
        (do
          let deferred ← callValue outside env (readName env "take")
            [.int count, readName env name] []
          outside.force deferred).Ends store (.ok (.list items))
            { store with nextNode := store.nextNode + 1 } := by
  intro forcing outside s
  have hheads : ∀ link ∈ links, link.2.Normal := by
    intro link hlink
    obtain ⟨before, after, hresolve⟩ := hfixed link hlink
    exact Value.resolve_normal hresolve
  have hread : readName env name = .symbol env name := by rw [readName, hname, Option.getD_none]
  have hs : s.isSequence := isSequence_chain hne
  have hforced := resolve_bound hs hbound patience room
  have hpos : 0 < (links.map Prod.snd).length := by
    rw [List.length_map]
    exact List.length_pos_iff.mpr hne
  let items := around (links.map Prod.snd) hpos n
  have hlength : items.length = n := length_around hpos n
  have hnormal : (Value.list items).Normal := by
    apply Value.Normal.list
    intro item hitem
    obtain ⟨link, hlink, rfl⟩ := List.mem_map.mp (mem_of_mem_around hpos n hitem)
    exact hheads link hlink
  have htake := take_around hheads hne hbound patience room n hpos
  refine ⟨items, hlength, ?_, htake, ?_, ?_⟩
  · intro i hi
    have hitem := getElem?_around hpos n hi
    rwa [List.length_map] at hitem
  · obtain ⟨⟨remaining, hchain⟩, remaining', hsymbol⟩ :=
      yields_around hheads hne hbound patience room n hpos
    rw [hread]
    intro rest hrest
    rcases List.mem_cons.mp hrest with rfl | hrest
    · exact Cursor.nexts_ends.mpr (.inl ⟨items, remaining, hlength, hchain, rfl⟩)
    · obtain rfl := List.mem_singleton.mp hrest
      exact Cursor.nexts_ends.mpr (.inl ⟨items, remaining', hlength, hsymbol, rfl⟩)
  · intro count hcount
    have hnonneg : 0 ≤ count := by
      apply Int64.le_iff_toInt_le.mpr
      rw [hcount]
      exact Int.natCast_nonneg n
    have hn : count.toInt.toNat = n := by rw [hcount, Int.toNat_natCast]
    rw [hread]
    constructor
    · apply call_take hnonneg ((Value.Normal.int count).resolve_eq _ _)
        (resolve_bound (isSequence_chain hne) hbound patience room)
      exact hn ▸ htake
    · show (Eval.call env (.function (.eager .take)) [.int count, .symbol env name] [] >>=
        outside.force).Ends store (.ok (.list items)) _
      apply ends_call_bind.mpr
      -- Making the call has only taken a number, so the name is bound as before.
      let made : Store := { store with nextNode := store.nextNode + 1 }
      have hmade : made.visible? env name = some s := hbound
      have hagain := take_around hheads hne hmade patience room n hpos
      exact resolve_take_call hnonneg (Store.live?_of_visible? hmade)
        (resolve_bound (isSequence_chain hne) hmade patience room) (hn ▸ hagain) hnormal _

/-- Two elements that alternate, far beyond the limit on depth. -/
theorem cycle_elements_alternating :
    let links : List ((NodeId × EnvId) × Value) := [((1, 0), .int 1), ((0, 0), .str "b")]
    let s := chain links (.symbol 0 "s")
    let store := Store.single [("s", s)]
    (links ≠ [] ∧ (∀ link ∈ links, ∃ before after,
        (link.2.resolve 0 255).Ends before (.ok link.2) after) ∧
      reserved? "s" = none ∧ store.visible? 0 "s" = some s) ∧
    ∃ items : List Value, items.length = 1000 ∧ items[999]? = some (.str "b") ∧
      (take ⟨Value.resolve 0 255, 0⟩ 1000 s).Ends store (.ok (.list items)) store ∧
      (callValue ⟨Value.resolve 0 255, 0⟩ 0 (.function (.eager .take))
        [.int 1000, readName 0 "s"] []).Ends store (.ok (.list items)) store := by
  intro links s store
  have hne : links ≠ [] := List.cons_ne_nil _ _
  have hfixed : ∀ link ∈ links, ∃ before after,
      (link.2.resolve 0 255).Ends before (.ok link.2) after := by
    intro link hlink
    simp only [links, List.mem_cons, List.not_mem_nil, or_false] at hlink
    obtain rfl | rfl := hlink
    · exact ⟨store, store, rfl⟩
    · exact ⟨store, store, rfl⟩
  have hname : reserved? "s" = none := rfl
  have hbound : store.visible? 0 "s" = some s := rfl
  obtain ⟨items, hlength, hitems, htake, -, hcalls⟩ :=
    cycle_elements hne hfixed hname hbound 1000
  refine ⟨⟨hne, hfixed, hname, hbound⟩, items, hlength, ?_, htake, (hcalls 1000 (by decide)).1⟩
  rw [hitems 999 (by decide)]
  simp [links]

end Sequence

end Deferral
