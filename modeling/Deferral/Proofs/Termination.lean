import Deferral.Proofs.Approximation
import Deferral.Proofs.NormalForm
import Deferral.Proofs.Occurrence

/-!
# Computations that end

Resolution ends on every store, whatever names refer to, as long as nothing is called that asks for
all elements of a sequence or for the text of a value (`Value.resolve_ends`).  Only these two have
no limit of their own.  Everything else is bounded: how deep deferred values nest, how many stand in
a row, how many parts a value has, and how many elements are taken of a sequence.

Text is covered as far as patience lasts: where sequences begin with sequences only so often in a
row, there is an amount of it that is enough (`Display.text_succeeds`).
-/

namespace Deferral

open Eval

/-! ## 1. Ending -/

namespace Eval

variable {α β : Type} {base : Store} {P : α → Prop} {Q : β → Prop}

/-- In all stores that forcing leads to from a given one, the computation comes to an end, and what
it gives, if it does not fail, has a property. -/
def Finishes (base : Store) (P : α → Prop) (action : Eval α) : Prop :=
  ∀ store, base.Grows store → ∃ outcome after,
    action.Ends store outcome after ∧ base.Grows after ∧ ∀ a, outcome = .ok a → P a

def Succeeds (base : Store) (P : α → Prop) (action : Eval α) : Prop :=
  ∀ store, base.Grows store → ∃ a after,
    action.Ends store (.ok a) after ∧ base.Grows after ∧ P a

theorem Succeeds.finishes {action : Eval α} (h : action.Succeeds base P) :
    action.Finishes base P := by
  intro store hstore
  obtain ⟨a, after, hends, hafter, ha⟩ := h store hstore
  refine ⟨.ok a, after, hends, hafter, fun b hb => ?_⟩
  cases hb
  exact ha

theorem Finishes.imp {P' : α → Prop} {action : Eval α} (h : action.Finishes base P)
    (himp : ∀ a, P a → P' a) : action.Finishes base P' := by
  intro store hstore
  obtain ⟨outcome, after, hends, hafter, ha⟩ := h store hstore
  exact ⟨outcome, after, hends, hafter, fun a hok => himp a (ha a hok)⟩

theorem succeeds_pure {a : α} (h : P a) : (pure a : Eval α).Succeeds base P :=
  fun store hstore => ⟨a, store, ends_pure_self a store, hstore, h⟩

theorem succeeds_bind {action : Eval α} {next : α → Eval β} (h : action.Succeeds base P)
    (hnext : ∀ a, P a → (next a).Succeeds base Q) : (action >>= next).Succeeds base Q := by
  intro store hstore
  obtain ⟨a, between, ha, hbetween, hp⟩ := h store hstore
  obtain ⟨b, after, hb, hafter, hq⟩ := hnext a hp between hbetween
  exact ⟨b, after, ha.bind hb, hafter, hq⟩

theorem succeeds_mapM {f : α → Eval β} {items : List α}
    (h : ∀ item ∈ items, (f item).Succeeds base Q) :
    (items.mapM f).Succeeds base fun bs => ∀ b ∈ bs, Q b := by
  induction items with
  | nil => exact succeeds_pure (by simp)
  | cons item rest ih =>
    rw [List.mapM_cons]
    have hrest := ih fun other hother => h other (List.mem_cons_of_mem item hother)
    exact succeeds_bind (h item List.mem_cons_self) fun b hb =>
      succeeds_bind hrest fun bs hbs => succeeds_pure (List.forall_mem_cons.mpr ⟨hb, hbs⟩)

theorem succeeds_attempt {action : Eval α} (h : action.Finishes base P) :
    (attempt action).Succeeds base fun result => ∀ a, result = .ok a → P a := by
  intro store hstore
  obtain ⟨outcome, after, hends, hafter, ha⟩ := h store hstore
  exact ⟨outcome, after, ends_attempt.mpr ⟨outcome, rfl, hends⟩, hafter, ha⟩

theorem succeeds_modify {change : Store → Store} (h : ∀ store : Store, store.Grows (change store)) :
    (modify change : Eval PUnit).Succeeds base fun _ => True := by
  intro store hstore
  have hchange : base.Grows (change store) := trans_of Store.Grows hstore (h store)
  exact ⟨⟨⟩, change store, ends_modify.mpr ⟨rfl, rfl⟩, hchange, trivial⟩

theorem succeeds_record (chunk : Chunk) : (record chunk).Succeeds base fun _ => True :=
  succeeds_modify fun _ => ⟨rfl, List.prefix_append _ _⟩

theorem succeeds_freshNode : freshNode.Succeeds base fun _ => True := by
  intro store hstore
  have hends : freshNode.Ends store (.ok store.nextNode)
      { store with nextNode := store.nextNode + 1 } := rfl
  have hgrows : store.Grows _ := Admits.freshNode _ _ _ hends
  exact ⟨store.nextNode, _, hends, trans_of Store.Grows hstore hgrows, trivial⟩

theorem finishes_pure {a : α} (h : P a) : (pure a : Eval α).Finishes base P :=
  (succeeds_pure h).finishes

theorem finishes_throw (failure : Failure) : (throw failure : Eval α).Finishes base P :=
  fun store hstore => ⟨_, store, ends_throw.mpr ⟨rfl, rfl⟩, hstore, nofun⟩

theorem finishes_bind {action : Eval α} {next : α → Eval β} (h : action.Finishes base P)
    (hnext : ∀ a, P a → (next a).Finishes base Q) : (action >>= next).Finishes base Q := by
  intro store hstore
  obtain ⟨outcome, between, hends, hbetween, hp⟩ := h store hstore
  cases outcome with
  | error failure => exact ⟨_, between, hends.bind_error, hbetween, nofun⟩
  | ok a =>
    obtain ⟨result, after, hresult, hafter, hq⟩ := hnext a (hp a rfl) between hbetween
    exact ⟨result, after, hends.bind hresult, hafter, hq⟩

theorem finishes_ofExcept {result : Except Failure α} (h : ∀ a, result = .ok a → P a) :
    (ofExcept result).Finishes base P :=
  fun store hstore => ⟨result, store, ends_ofExcept.mpr ⟨rfl, rfl⟩, hstore, h⟩

/-- A check gives nothing but leave to go on. -/
theorem finishes_check {result : Except Failure α} {next : α → Eval β}
    (h : ∀ a, (next a).Finishes base Q) : (ofExcept result >>= next).Finishes base Q := by
  have hcheck : (ofExcept result).Finishes base fun _ => True :=
    finishes_ofExcept fun _ _ => trivial
  exact finishes_bind hcheck fun a _ => h a

theorem finishes_environment (env : EnvId) :
    (environment env).Finishes base fun environment =>
      ∀ name, environment.bindings.get? name = base.visible? env name := by
  intro store hstore
  refine ⟨_, store, ends_environment.mpr ⟨rfl, rfl⟩, hstore, fun environment hok name => ?_⟩
  obtain ⟨hlive, -⟩ := ends_environment_ok.mp (ends_environment.mpr ⟨hok.symm, rfl⟩)
  rw [← hstore.visible?, Store.visible?_of_live? hlive]

theorem finishes_mapM {f : α → Eval β} {items : List α}
    (h : ∀ item ∈ items, (f item).Finishes base Q) :
    (items.mapM f).Finishes base fun bs => ∀ b ∈ bs, Q b := by
  induction items with
  | nil => exact finishes_pure (by simp)
  | cons item rest ih =>
    rw [List.mapM_cons]
    have hrest := ih fun other hother => h other (List.mem_cons_of_mem item hother)
    exact finishes_bind (h item List.mem_cons_self) fun b hb =>
      finishes_bind hrest fun bs hbs => finishes_pure (List.forall_mem_cons.mpr ⟨hb, hbs⟩)

theorem finishes_print (env : EnvId) (text : String) :
    (print env text).Finishes base fun _ => True := by
  unfold Eval.print
  apply finishes_bind (finishes_environment env)
  intro environment _
  have hrefuse : ∀ refused : Prop, [Decidable refused] →
      (if refused then throw Failure.sinkFull else pure () : Eval Unit).Finishes base
        fun _ => True := by
    intro refused _
    split
    · exact finishes_throw _
    · exact finishes_pure trivial
  split
  · split
    · exact (succeeds_record _).finishes
    · exact finishes_pure trivial
  · dsimp only
    split
    · apply finishes_bind (succeeds_record _).finishes
      intro _ _
      refine finishes_bind (P := fun _ => True) ?_ fun _ _ => hrefuse _
      exact (succeeds_modify fun store => Store.Grows.modifyRoom store env _).finishes
    · exact hrefuse _

end Eval

/-! ## 2. Operators and sequences -/

variable {base : Store} {banned : List Builtin} {level : ℕ∞} {forcing : Forcing}

def Forcing.Finishes (base : Store) (banned : List Builtin) (level : ℕ∞) (forcing : Forcing) :
    Prop :=
  ∀ lower ≤ level, ∀ v, base.Confines banned lower v →
    (forcing.force v).Finishes base fun w => w.Normal ∧ base.Confines banned lower w

theorem Forcing.Finishes.force (hforcing : forcing.Finishes base banned level) {v : Value}
    (hv : base.Confines banned level v) :
    (forcing.force v).Finishes base (base.Confines banned level) :=
  (hforcing level le_rfl v hv).imp fun _ hw => hw.2

theorem Operator.apply_finishes (hconcat : .concat ∉ banned) (operator : Operator) (env : EnvId)
    {left right : Value} (hleft : base.Confines banned level left)
    (hright : base.Confines banned level right) :
    (operator.apply env left right).Finishes base (base.Confines banned level) := by
  unfold Operator.apply
  split
  · have hcall : ∀ node, base.Confines banned level
        (.call node env (.function (.eager .concat)) [left, right] []) := by
      intro node
      refine .call (.function hconcat) fun arg harg => ?_
      have harg : arg = left ∨ arg = right := by simpa using harg
      rcases harg with rfl | rfl
      · exact hleft
      · exact hright
    exact (succeeds_bind succeeds_freshNode fun node _ => succeeds_pure (hcall node)).finishes
  · exact finishes_ofExcept fun w hw => (Store.Confines.closed ..).compute hleft hright hw

namespace Sequence

theorem tail_finishes {v : Value} (hv : base.Confines banned level v) :
    (tail v).Finishes base (base.Confines banned level) := by
  cases v with
  | sequence node env head tail => exact finishes_pure hv.tail
  | _ => exact finishes_throw _

section
variable (hforcing : forcing.Finishes base banned level)
include hforcing

theorem force_head_finishes {node : NodeId} {env : EnvId} {head tail : Value}
    (hv : base.Confines banned level (.sequence node env head tail)) :
    ∃ lower, level = lower + 1 ∧
      (forcing.force head).Finishes base fun w => w.Normal ∧ base.Confines banned lower w := by
  obtain ⟨lower, rfl, hhead⟩ := hv.head
  exact ⟨lower, rfl, hforcing lower le_self_add head hhead⟩

theorem head_finishes {v : Value} (hv : base.Confines banned level v) :
    (head forcing v).Finishes base (base.Confines banned level) := by
  cases v with
  | sequence node env head tail =>
    obtain ⟨lower, rfl, hhead⟩ := force_head_finishes hforcing hv
    exact hhead.imp fun w hw => hw.2.mono le_self_add
  | _ => exact finishes_throw _

theorem next?_finishes {rest : Value} (hrest : base.Confines banned level rest) :
    (next? forcing rest).Finishes base fun next => ∀ item following,
      next = some (item, following) →
        base.Confines banned level item ∧ base.Confines banned level following := by
  unfold next?
  apply finishes_bind (hforcing.force hrest)
  intro found hfound
  cases found with
  | nil => exact finishes_pure nofun
  | sequence node env head tail =>
    have hhead := head_finishes hforcing hfound
    refine finishes_bind hhead fun item hitem => finishes_pure ?_
    rintro _ _ ⟨⟩
    exact ⟨hitem, hfound.tail⟩
  | _ => exact finishes_throw _

theorem takeItems_finishes (requested left : Nat) {found : List Value} {rest : Value}
    (hfound : ∀ item ∈ found, base.Confines banned level item)
    (hrest : base.Confines banned level rest) :
    (takeItems forcing requested left found rest).Finishes base
      fun items => ∀ item ∈ items, base.Confines banned level item := by
  -- The induction is on the elements that are still missing, whatever the tails lead to.
  induction left generalizing found rest with
  | zero => exact finishes_pure fun item hitem => hfound item (List.mem_reverse.mp hitem)
  | succ left ih =>
    refine finishes_bind (next?_finishes hforcing hrest) fun next hnext => ?_
    rcases next with _ | ⟨item, following⟩
    · exact finishes_throw _
    · obtain ⟨hitem, hfollowing⟩ := hnext item following rfl
      exact ih (List.forall_mem_cons.mpr ⟨hitem, hfound⟩) hfollowing

theorem take_finishes (count : Nat) {v : Value} (hv : base.Confines banned level v) :
    (take forcing count v).Finishes base (base.Confines banned level) := by
  cases v with
  | list items =>
    unfold take
    dsimp only
    split
    · exact finishes_throw _
    · have hitems : ∀ item ∈ items.take count, base.Confines banned level item :=
        fun item hitem => hv.part (List.mem_of_mem_take hitem)
      exact finishes_pure (.list hitems)
  | sequence node env head tail =>
    exact finishes_bind (takeItems_finishes hforcing count count (by simp) hv) fun items hitems =>
      finishes_pure (.list hitems)
  | _ => exact finishes_throw _

theorem concat_finishes (hconcat : .concat ∉ banned) (env : EnvId) {left right : Value}
    (hleft : base.Confines banned level left) (hright : base.Confines banned level right) :
    (concat forcing env left right).Finishes base (base.Confines banned level) := by
  unfold concat
  split
  · exact finishes_pure hleft
  · exact finishes_pure hright
  · obtain ⟨lower, rfl, hfirst⟩ := force_head_finishes hforcing hleft
    obtain ⟨lower', heq, hsecond⟩ := force_head_finishes hforcing hright
    obtain rfl : lower = lower' := by simpa using heq
    -- The sum of the heads stays on their level, so the new sequence is on that of the old ones.
    refine finishes_bind hfirst fun first hfirst => finishes_bind hsecond fun second hsecond => ?_
    apply finishes_bind (Operator.add.apply_finishes hconcat env hfirst.2 hsecond.2)
    intro sum hsum
    refine Succeeds.finishes ?_
    have htails := List.forall_mem_cons.mpr ⟨hleft.tail, List.forall_mem_singleton.mpr hright.tail⟩
    refine succeeds_bind (P := base.Confines banned (lower + 1)) ?_ fun rest hrest => ?_
    · exact succeeds_bind succeeds_freshNode fun node _ =>
        succeeds_pure (.call (.function hconcat) htails)
    · exact succeeds_bind succeeds_freshNode fun node _ => succeeds_pure (.sequence hsum hrest)
  · exact finishes_throw _
  · exact finishes_throw _

end

end Sequence

/-! ## 3. Text -/

/-- The text of a value is made if that of its deferred parts is.  The property of values that this
rests on has to pass from a container to what it contains. -/
theorem Value.displayWith_succeeds {deferred : Value → Eval String} {P : Value → Prop}
    (hlist : ∀ items, P (.list items) → ∀ item ∈ items, P item)
    (hmap : ∀ entries, P (.map entries) → ∀ entry ∈ entries, P entry.1 ∧ P entry.2)
    (hdeferred : ∀ u, u.isDeferred = true → P u → (deferred u).Succeeds base fun _ => True)
    {v : Value} (hv : P v) : (v.displayWith deferred).Succeeds base fun _ => True := by
  induction v with
  | list items ih =>
    rw [displayWith, displayItems_eq_mapM, map_eq_pure_bind]
    have hitems := succeeds_mapM fun item hitem => ih item hitem (hlist items hv item hitem)
    refine succeeds_bind (P := fun _ => True) ?_ fun _ _ => succeeds_pure trivial
    exact succeeds_bind hitems fun _ _ => succeeds_pure trivial
  | map entries ih =>
    rw [displayWith, displayEntries_eq_mapM, map_eq_pure_bind]
    have hentry : ∀ entry ∈ entries,
        (displayEntry deferred entry).Succeeds base fun _ => True := by
      intro entry hentry
      have hparts := hmap entries hv entry hentry
      exact succeeds_bind ((ih entry hentry).1 hparts.1) fun _ _ =>
        succeeds_bind ((ih entry hentry).2 hparts.2) fun _ _ => succeeds_pure trivial
    refine succeeds_bind (P := fun _ => True) ?_ fun _ _ => succeeds_pure trivial
    exact succeeds_bind (succeeds_mapM hentry) fun _ _ => succeeds_pure trivial
  | symbol => exact hdeferred _ rfl hv
  | expression => exact hdeferred _ rfl hv
  | call => exact hdeferred _ rfl hv
  | sequence => exact hdeferred _ rfl hv
  | _ => exact succeeds_pure trivial

/-- The deferred parts of a normal form are sequences. -/
theorem Value.Normal.displayWith_succeeds {deferred : Value → Eval String} {w : Value}
    (hnormal : w.Normal) (hw : base.Confines banned level w)
    (hdeferred : ∀ node env head tail,
      base.Confines banned level (.sequence node env head tail) →
        (deferred (.sequence node env head tail)).Succeeds base fun _ => True) :
    (w.displayWith deferred).Succeeds base fun _ => True := by
  have hsequences : ∀ u : Value, u.isDeferred = true →
      u.Normal ∧ base.Confines banned level u → (deferred u).Succeeds base fun _ => True := by
    rintro u hu ⟨hnormal, hconfines⟩
    cases hnormal with
    | sequence => exact hdeferred _ _ _ _ hconfines
    | _ => cases hu
  refine Value.displayWith_succeeds ?_ ?_ hsequences ⟨hnormal, hw⟩
  · rintro items ⟨⟨⟩, hitems⟩ item hitem
    rename_i hall
    exact ⟨hall item hitem, hitems.part hitem⟩
  · rintro entries ⟨⟨⟩, hentries⟩ entry hentry
    rename_i hkeys hvalues _
    exact ⟨⟨hkeys entry hentry, hentries.key hentry⟩,
      ⟨hvalues entry hentry, hentries.value hentry⟩⟩

theorem Forcing.Finishes.mono {lower : ℕ∞} (hforcing : forcing.Finishes base banned level)
    (hle : lower ≤ level) : forcing.Finishes base banned lower :=
  fun least hleast v hv => hforcing least (hleast.trans hle) v hv

namespace Display

/-- How much fuel is enough to show a value in which up to `n` sequences begin with one another.
Forcing takes one step to a normal form, and showing the head of a sequence takes two. -/
def Enough (fuel n : Nat) (v : Value) : Prop :=
  2 * n + 2 ≤ fuel ∨ (v.isDeferred = true ∨ v.Normal) ∧ 2 * n + 1 ≤ fuel ∨
    v.isSequence = true ∧ 2 * n ≤ fuel

variable {n fuel : Nat} {v : Value}

theorem Enough.head {head : Value} (h : Enough (fuel + 1) (n + 1) v) (hhead : head.Normal) :
    Enough fuel n head := by
  refine .inr (.inl ⟨.inr hhead, ?_⟩)
  rcases h with h | ⟨-, h⟩ | ⟨-, h⟩ <;> omega

theorem Enough.sequence_part (h : Enough (fuel + 1) n v) (hv : v.isSequence = false) :
    2 * n ≤ fuel := by
  rcases h with h | ⟨-, h⟩ | ⟨h, -⟩
  · omega
  · omega
  · rw [hv] at h
    cases h

theorem Enough.part (h : Enough (fuel + 1) n v) (hv : v.isDeferred = false) :
    v.Normal ∨ 2 * n + 1 ≤ fuel := by
  rcases h with h | ⟨hdeferred | hnormal, -⟩ | ⟨h, -⟩
  · exact .inr (by omega)
  · rw [hv] at hdeferred
    cases hdeferred
  · exact .inl hnormal
  · cases v with
    | sequence => cases hv
    | _ => cases h

def Front.Lowers (base : Store) (banned : List Builtin) (n : Nat) : Front → Prop
  | .whole _ => True
  | .sequence head => head.Normal ∧ ∃ m, n = m + 1 ∧ base.Confines banned m head

theorem frontOfHead_succeeds (hforcing : forcing.Finishes base banned n) {node : NodeId}
    {env : EnvId} {head tail : Value} (hv : base.Confines banned n (.sequence node env head tail)) :
    (frontOfHead forcing head).Succeeds base (Front.Lowers base banned n) := by
  obtain ⟨lower, heq, hhead⟩ := Sequence.force_head_finishes hforcing hv
  apply succeeds_bind (succeeds_attempt hhead)
  intro result hresult
  cases result with
  | error failure => exact succeeds_pure trivial
  | ok forced =>
    obtain ⟨hnormal, hforced⟩ := hresult forced rfl
    cases lower using ENat.recTopCoe with
    | top => exact absurd heq (ENat.natCast_ne_top n)
    | coe m => exact succeeds_pure ⟨hnormal, m, by exact_mod_cast heq, hforced⟩

/-- Only a value that is no sequence is shown as a whole, after it has been forced if it is
deferred. -/
theorem front_succeeds (hforcing : forcing.Finishes base banned n)
    (hv : base.Confines banned n v) {text : Value → Eval String}
    (htext : v.isSequence = false → ∀ w, base.Confines banned n w →
      w.Normal ∧ w.isSequence = false ∨ w = v ∧ v.isDeferred = false →
      (text w).Succeeds base fun _ => True) :
    (front forcing text v).Succeeds base (Front.Lowers base banned n) := by
  have hwhole : ∀ {w}, (text w).Succeeds base (fun _ => True) →
      (text w >>= fun shown => pure (Front.whole shown)).Succeeds base
        (Front.Lowers base banned n) :=
    fun h => succeeds_bind h fun _ _ => succeeds_pure trivial
  unfold front
  split
  · exact frontOfHead_succeeds hforcing hv
  · rename_i hsequence
    have hsequence : v.isSequence = false := by
      cases v <;> first | rfl | exact absurd rfl (hsequence _ _ _ _)
    split
    · apply succeeds_bind (succeeds_attempt (hforcing _ le_rfl _ hv))
      intro result hresult
      split
      · exact succeeds_pure trivial
      · exact frontOfHead_succeeds hforcing (hresult _ rfl).2
      · rename_i w hw
        have hw : w.isSequence = false := by
          cases w <;> first | rfl | exact absurd rfl (hw _ _ _ _)
        obtain ⟨hnormal, hconfines⟩ := hresult _ rfl
        exact hwhole (htext hsequence _ hconfines (.inl ⟨hnormal, hw⟩))
    · rename_i hdeferred
      exact hwhole (htext hsequence _ hv (.inr ⟨rfl, by simpa using hdeferred⟩))

/-- With enough fuel for the whole there is enough for the parts that are shown of it. -/
theorem front_text_succeeds (hforcing : forcing.Finishes base banned n)
    (hparts : ∀ u, base.Confines banned n u → Enough fuel n u →
      (text forcing fuel u).Succeeds base fun _ => True)
    (hv : base.Confines banned n v) (henough : Enough (fuel + 1) n v) :
    (front forcing (·.displayWith (text forcing fuel)) v).Succeeds base
      (Front.Lowers base banned n) := by
  apply front_succeeds hforcing hv
  intro hsequence w hw hcase
  have hnormal : w.Normal → (w.displayWith (text forcing fuel)).Succeeds base fun _ => True := by
    intro hnormal
    have hfuel : 2 * n ≤ fuel := henough.sequence_part hsequence
    exact hnormal.displayWith_succeeds hw fun node env head tail hconfines =>
      hparts _ hconfines (.inr (.inr ⟨rfl, hfuel⟩))
  rcases hcase with ⟨hw, -⟩ | ⟨rfl, hdeferred⟩
  · exact hnormal hw
  · rcases henough.part hdeferred with hw | hfuel
    · exact hnormal hw
    · exact Value.displayWith_succeeds (P := base.Confines banned n)
        (fun items hitems item hitem => hitems.part hitem)
        (fun entries hentries entry hentry => ⟨hentries.key hentry, hentries.value hentry⟩)
        (fun u hu hconfines => hparts u hconfines (.inr (.inl ⟨.inl hu, hfuel⟩))) hw

theorem text_succeeds (hforcing : forcing.Finishes base banned n)
    (hv : base.Confines banned n v) (henough : Enough fuel n v) :
    (text forcing fuel v).Succeeds base fun _ => True := by
  induction fuel generalizing n v with
  | zero =>
    -- Without fuel nothing can be shown, and a sequence needs a level of its own.
    rcases henough with h | ⟨-, h⟩ | ⟨h, hn⟩
    · omega
    · omega
    · obtain rfl : n = 0 := by omega
      cases v with
      | sequence node env head tail => exact absurd .refl (hv.nests 0 rfl node env head tail)
      | _ => cases h
  | succ fuel ih =>
    have hparts := fun u hu henough => ih (v := u) hforcing hu henough
    apply succeeds_bind (front_text_succeeds hforcing hparts hv henough)
    intro front hfront
    cases front with
    | whole shown => exact succeeds_pure trivial
    | sequence head =>
      obtain ⟨hnormal, m, rfl, hhead⟩ := hfront
      have hlower := hforcing.mono (Nat.cast_le.mpr (Nat.le_succ m))
      have htext := ih hlower hhead (henough.head hnormal)
      exact succeeds_bind htext fun _ _ => succeeds_pure trivial

theorem present_succeeds (hforcing : forcing.Finishes base banned n)
    (hv : base.Confines banned n v) (henough : Enough fuel n v) :
    (present forcing fuel v).Succeeds base fun _ => True := by
  induction fuel generalizing n v with
  | zero =>
    have htext := text_succeeds hforcing hv henough
    -- What holds of the text without fuel cannot be true.
    obtain ⟨_, _, hends, -⟩ := htext base (refl_of Store.Grows base)
    exact absurd hends ends_outOfFuel
  | succ fuel ih =>
    have hparts : ∀ u, base.Confines banned n u → Enough fuel n u →
        (text forcing fuel u).Succeeds base fun _ => True :=
      fun u hu henough => text_succeeds hforcing hu henough
    apply succeeds_bind (front_text_succeeds hforcing hparts hv henough)
    intro front hfront
    cases front with
    | whole shown => exact succeeds_record _
    | sequence head =>
      obtain ⟨hnormal, m, rfl, hhead⟩ := hfront
      have hlower := hforcing.mono (Nat.cast_le.mpr (Nat.le_succ m))
      have hpresent := ih hlower hhead (henough.head hnormal)
      apply succeeds_bind (succeeds_record _)
      intro _ _
      exact succeeds_bind hpresent fun _ _ => succeeds_record _

end Display

/-- Either nothing is called that shows a value, or sequences begin with one another only so often
and the patience is enough to show that. -/
def Display.Affords (banned : List Builtin) (level : ℕ∞) (patience : Nat) : Prop :=
  (∀ builtin ∈ [Builtin.str, .repr, .print], builtin ∈ banned) ∨
    ∃ n : Nat, level = n ∧ 2 * n + 2 ≤ patience

theorem Display.Affords.mono {lower : ℕ∞} {patience : Nat} (h : Affords banned level patience)
    (hle : lower ≤ level) : Affords banned lower patience := by
  rcases h with h | ⟨n, rfl, hn⟩
  · exact .inl h
  · obtain ⟨m, rfl, hm⟩ := ENat.le_natCast_iff.mp hle
    exact .inr ⟨m, rfl, by omega⟩

section
variable (hforcing : forcing.Finishes base banned level)
  (hshow : Display.Affords banned level forcing.patience) {builtin : Builtin}
  (hbuiltin : builtin ∉ banned) {v : Value} (hv : base.Confines banned level v)

include hforcing hshow hbuiltin hv

theorem Value.display_finishes (hshows : builtin ∈ [Builtin.str, .repr, .print]) :
    (v.display forcing).Finishes base fun _ => True := by
  rcases hshow with hbanned | ⟨n, rfl, hn⟩
  · exact absurd (hbanned builtin hshows) hbuiltin
  · exact (Display.text_succeeds hforcing hv (.inl hn)).finishes

theorem Value.plainText_finishes (hshows : builtin ∈ [Builtin.str, .repr, .print]) :
    (v.plainText forcing).Finishes base fun _ => True := by
  unfold plainText
  split
  · exact finishes_pure trivial
  · exact display_finishes hforcing hshow hbuiltin hv hshows

end

/-! ## 4. Built-in functions -/

structure Admissible (banned : List Builtin) : Prop where
  concat : .concat ∉ banned
  list : .list ∈ banned

section
variable (hbanned : Admissible banned) (hforcing : forcing.Finishes base banned level)
  (hshow : Display.Affords banned level forcing.patience)

include hforcing hshow

theorem Builtin.printArguments_finishes (hprint : .print ∉ banned) (env : EnvId)
    {args : List Value} (kwargs : List (String × Value))
    (hargs : ∀ arg ∈ args, base.Confines banned level arg) :
    (printArguments forcing env args kwargs).Finishes base (base.Confines banned level) := by
  apply finishes_check
  intro separator
  apply finishes_check
  intro terminator
  apply finishes_bind (finishes_environment env)
  intro environment _
  have htexts : (args.mapM (printedText forcing environment.reversePrint)).Finishes base
      fun _ => True := by
    refine (finishes_mapM (Q := fun _ => True) fun arg harg => ?_).imp fun _ _ => trivial
    unfold printedText
    split
    · exact finishes_pure trivial
    · exact Value.plainText_finishes hforcing hshow hprint (hargs _ harg) (by simp)
  apply finishes_bind htexts
  intro texts _
  apply finishes_bind (finishes_print env _)
  intro _ _
  exact finishes_pure ((Store.Confines.closed ..).scalar _ (by simp [Value.typeName]))

include hbanned

theorem Builtin.perform_finishes {builtin : Builtin} (hbuiltin : builtin ∉ banned) (env : EnvId)
    {args : List Value} (kwargs : List (String × Value))
    (hargs : ∀ arg ∈ args, base.Confines banned level arg) :
    (builtin.perform forcing env args kwargs).Finishes base (base.Confines banned level) := by
  have hclosed := Store.Confines.closed base banned level
  unfold perform
  split
  case h_1 count v =>
    exact finishes_check fun n => Sequence.take_finishes hforcing n (hargs v (by simp))
  case h_2 v => exact Sequence.tail_finishes (hargs v (by simp))
  case h_3 v => exact Sequence.head_finishes hforcing (hargs v (by simp))
  case h_4 left right =>
    exact Sequence.concat_finishes hforcing hbanned.concat env (hargs left (by simp))
      (hargs right (by simp))
  case h_5 f =>
    -- The function itself occurs already, in its other form.
    have hf := (hargs (.function f) (by simp)).avoids f .refl
    exact finishes_pure (.function hf)
  case h_6 v => exact finishes_throw _
  case h_7 => exact printArguments_finishes hforcing hshow hbuiltin env kwargs hargs
  case h_8 v =>
    have htext := v.plainText_finishes hforcing hshow hbuiltin (hargs v (by simp)) (by simp)
    exact finishes_bind htext fun _ _ => finishes_pure (hclosed.scalar _ (by simp [Value.typeName]))
  case h_9 v =>
    have htext := v.display_finishes hforcing hshow hbuiltin (hargs v (by simp)) (by simp)
    exact finishes_bind htext fun _ _ => finishes_pure (hclosed.scalar _ (by simp [Value.typeName]))
  case h_10 v => exact finishes_ofExcept fun w hw => hclosed.lengthOf hw
  case h_11 v => exact finishes_ofExcept fun w hw => hclosed.absolute hw
  case h_12 => exact finishes_ofExcept fun w hw => hclosed.extremum hargs hw
  case h_13 => exact finishes_ofExcept fun w hw => hclosed.extremum hargs hw
  case h_14 v => exact finishes_ofExcept fun w hw => hclosed.toInteger hw
  case h_15 v => exact finishes_ofExcept fun w hw => hclosed.toFloat hw
  case h_16 v => exact absurd hbanned.list hbuiltin
  case h_17 v => exact hforcing.force (hargs v (by simp))
  case h_18 v => exact finishes_pure (hclosed.scalar _ (by simp [Value.typeName]))
  case h_19 => exact finishes_throw _

theorem Builtin.run_finishes {builtin : Builtin} (hbuiltin : builtin ∉ banned) (env : EnvId)
    {args : List Value} (kwargs : List (String × Value))
    (hargs : ∀ arg ∈ args, base.Confines banned level arg) :
    (builtin.run forcing env args kwargs).Finishes base (base.Confines banned level) :=
  finishes_check fun _ => perform_finishes hbanned hforcing hshow hbuiltin env kwargs hargs

/-! ## 5. Resolution -/

theorem invoke_finishes (env : EnvId) {target : Value} {args : List Value}
    (kwargs : List (String × Value)) (htarget : base.Confines banned level target)
    (hargs : ∀ arg ∈ args, base.Confines banned level arg) :
    (invoke forcing env target args kwargs).Finishes base (base.Confines banned level) := by
  cases target with
  | function f =>
    have hf : f.builtin ∉ banned := htarget.avoids f .refl
    exact Builtin.run_finishes hbanned hforcing hshow hf env kwargs hargs
  | _ => exact finishes_throw _

theorem Value.forceOnce_finishes {v : Value} (hv : base.Confines banned level v) :
    (v.forceOnce forcing).Finishes base (base.Confines banned level) := by
  cases v with
  | symbol env name =>
    apply finishes_bind (finishes_environment env)
    intro environment hbindings
    cases hbound : environment.bindings.get? name with
    | none => exact finishes_throw _
    | some bound =>
      have hpart : bound ∈ base.parts (.symbol env name) := by
        simp [Store.parts, ← hbindings name, hbound]
      exact finishes_pure (hv.part hpart)
  | expression node env operator left right =>
    have hleft := hforcing.force (hv.part (u := left) (by simp [Store.parts]))
    have hright := hforcing.force (hv.part (u := right) (by simp [Store.parts]))
    exact finishes_bind hleft fun left hleft => finishes_bind hright fun right hright =>
      operator.apply_finishes hbanned.concat env hleft hright
  | call node env target args kwargs =>
    have htarget := hforcing.force (hv.part (u := target) (by simp [Store.parts]))
    have hargs : (args.mapM forcing.force).Finishes base
        fun forced => ∀ w ∈ forced, base.Confines banned level w :=
      finishes_mapM fun arg harg =>
        hforcing.force (hv.part (u := arg) (by simp [Store.parts, harg]))
    have hkwargs : (forceKeywords forcing kwargs).Finishes base fun _ => True := by
      refine (finishes_mapM (Q := fun _ => True) fun entry hentry => ?_).imp fun _ _ => trivial
      have hvalue := hforcing.force (hv.part (u := entry.2)
        (by simp [Store.parts, List.mem_map_of_mem hentry]))
      exact finishes_bind hvalue fun _ _ => finishes_pure trivial
    refine finishes_bind htarget fun target htarget => finishes_bind hargs fun args hargs => ?_
    apply finishes_bind hkwargs
    intro kwargs _
    exact finishes_bind (finishes_environment env) fun _ _ =>
      invoke_finishes hbanned hforcing hshow env kwargs htarget hargs
  | _ => exact finishes_pure hv

/-- The steps in a row end because their number has a limit. -/
theorem Value.unwind_finishes (left : Nat) {v : Value} (hv : base.Confines banned level v) :
    (v.unwind forcing left).Finishes base (base.Confines banned level) := by
  induction left generalizing v with
  | zero => exact finishes_throw _
  | succ left ih =>
    apply finishes_bind (forceOnce_finishes hbanned hforcing hshow hv)
    intro w hw
    split
    · exact ih hw
    · exact finishes_pure hw

end

namespace Value

theorem resolveWith_finishes {deferred : Value → Eval Value}
    (hdeferred : ∀ u, base.Confines banned level u →
      (deferred u).Finishes base (base.Confines banned level))
    {v : Value} (hv : base.Confines banned level v) :
    (v.resolveWith deferred).Finishes base (base.Confines banned level) := by
  induction v with
  | list items ih =>
    rw [resolveWith_list, map_eq_pure_bind]
    exact finishes_bind (finishes_mapM fun item hitem => ih item hitem (hv.part hitem))
      fun found hfound => finishes_pure (.list hfound)
  | map entries ih =>
    rw [resolveWith_map, map_eq_pure_bind]
    have hentry : ∀ entry ∈ entries, (resolveEntry deferred entry).Finishes base
        fun entry => base.Confines banned level entry.1 ∧ base.Confines banned level entry.2 :=
      fun entry hentry => finishes_bind ((ih entry hentry).1 (hv.key hentry)) fun key hkey =>
        finishes_bind ((ih entry hentry).2 (hv.value hentry)) fun value hvalue =>
          finishes_pure ⟨hkey, hvalue⟩
    refine finishes_bind (finishes_mapM hentry) fun found hfound => finishes_pure ?_
    exact .map (fun entry hentry => (hfound entry (Entries.mem_of_mem_ofList hentry)).1)
      fun entry hentry => (hfound entry (Entries.mem_of_mem_ofList hentry)).2
  | symbol => exact hdeferred _ hv
  | expression => exact hdeferred _ hv
  | call => exact hdeferred _ hv
  | _ => exact finishes_pure hv

/-- What resolution gives is in normal form, whatever else is known of it. -/
theorem finishes_normal {P : Value → Prop} {patience room : Nat} {v : Value}
    (h : (v.resolve patience room).Finishes base P) :
    (v.resolve patience room).Finishes base fun w => w.Normal ∧ P w := by
  intro store hstore
  obtain ⟨outcome, after, hends, hafter, ha⟩ := h store hstore
  refine ⟨outcome, after, hends, hafter, ?_⟩
  rintro w rfl
  exact ⟨resolve_normal hends, ha w rfl⟩

/-- Resolution ends on all levels that can be shown. -/
theorem resolve_finishes (hbanned : Admissible banned) {patience : Nat}
    (hshow : Display.Affords banned level patience) (room : Nat) :
    Forcing.Finishes base banned level ⟨resolve patience room, patience⟩ := by
  induction room with
  | zero =>
    intro lower _ v hv
    exact finishes_normal (resolveWith_finishes (fun _ _ => finishes_throw _) hv)
  | succ room ih =>
    intro lower hle v hv
    -- A step forces its operands with the room that is left.
    have hforcing := ih.mono hle
    have hdeferred : ∀ u, base.Confines banned lower u →
        (u.unwind ⟨resolve patience room, patience⟩ depthLimit >>= resolve patience room).Finishes
          base (base.Confines banned lower) := by
      intro u hu
      have hsteps := unwind_finishes hbanned hforcing (hshow.mono hle) depthLimit hu
      exact finishes_bind hsteps fun found hfound => hforcing.force hfound
    exact finishes_normal (resolveWith_finishes hdeferred hv)

/-- Resolution comes to an end, with one outcome whatever the patience is, if no function occurs
that asks for all elements of a sequence or for the text of a value.  Names may refer to themselves,
and sequences may be endless. -/
theorem resolve_ends {store : Store} {v : Value}
    (h : store.Avoids [.list, .str, .repr, .print] v) (room : Nat) :
    ∃ outcome after, ∀ patience, (v.resolve patience room).Ends store outcome after := by
  let banned : List Builtin := [.list, .str, .repr, .print]
  have hconfines : store.Confines banned ⊤ v :=
    ⟨h, fun n hn => absurd hn (ENat.top_ne_natCast n)⟩
  have hshow : Display.Affords banned ⊤ 0 := .inl (by simp [banned])
  have hbanned : Admissible banned := ⟨by simp [banned], by simp [banned]⟩
  have hforcing : Forcing.Finishes store banned ⊤ ⟨resolve 0 room, 0⟩ :=
    resolve_finishes hbanned hshow room
  obtain ⟨outcome, after, hends, -⟩ :=
    hforcing ⊤ le_rfl v hconfines store (refl_of Store.Grows store)
  exact ⟨outcome, after, fun patience =>
    resolve_below (Nat.zero_le patience) room v store outcome after hends⟩

/-- Two elements of the endless sequence whose tail is the sum of the sequence with itself. -/
theorem resolve_ends_doubling :
    let s := Value.symbol 0 "s"
    let store := Store.single [("s", .sequence 0 0 (.int 1) (.expression 1 0 .add s s))]
    let v := Value.call 2 0 (.function (.eager .take)) [.int 2, s] []
    store.Avoids [.list, .str, .repr, .print] v ∧
      ∀ patience, (v.resolve patience depthLimit).Ends store (.ok (.list [.int 1, .int 2]))
        { store with nextNode := 3 } := by
  intro s store v
  have havoids : store.Avoids [.list, .str, .repr, .print] v := by
    have hvisible : store.visible? 0 "s" =
      some (.sequence 0 0 (.int 1) (.expression 1 0 .add s s)) := rfl
    let values : List Value := [v, .function (.eager .take), .int 2, s,
      .sequence 0 0 (.int 1) (.expression 1 0 .add s s), .int 1, .expression 1 0 .add s s]
    have hclosed : ∀ u ∈ values, ∀ w ∈ store.parts u, w ∈ values := by
      simp [values, v, s, Store.parts, hvisible]
    exact .of_closed hclosed (by simp [values, v, s, Function.builtin]) List.mem_cons_self
  obtain ⟨outcome, after, hends⟩ := resolve_ends havoids depthLimit
  have hrun : (v.resolve 0 depthLimit).Ends store (.ok (.list [.int 1, .int 2]))
      { store with nextNode := 3 } := rfl
  obtain ⟨rfl, rfl⟩ := (hends 0).unique hrun
  exact ⟨havoids, hends⟩

end Value

end Deferral
