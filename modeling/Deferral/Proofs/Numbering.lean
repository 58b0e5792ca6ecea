import Deferral.Proofs.Occurrence
import Deferral.Proofs.ReadOnly

/-!
# The numbers of nodes

A node gets the next number when it is made, so all nodes that occur in a value have been made
before.  The invariant of this is that whatever is bound consists of nodes with numbers below the
next one (`Store.Numbered`).  Everything that forces values keeps it, and gives values of such nodes
again (`Value.resolve_makes`).
-/

namespace Deferral

open Eval

/-! ## 1. Values of nodes that have been made -/

def Value.node? : Value → Option NodeId
  | .expression node .. => some node
  | .call node .. => some node
  | .sequence node .. => some node
  | _ => none

/-- All nodes that occur in a value, or in a binding that is reached from it, have been made. -/
def Store.Numbers (store : Store) (v : Value) : Prop :=
  ∀ u node, store.Holds v u → u.node? = some node → node < store.nextNode

namespace Value

inductive OlderThan (next : NodeId) : Value → Prop
  | nil : OlderThan next .nil
  | bool (b : Bool) : OlderThan next (.bool b)
  | int (n : Int64) : OlderThan next (.int n)
  | float (x : Double) : OlderThan next (.float x)
  | str (s : String) : OlderThan next (.str s)
  | list {items : List Value} : (∀ item ∈ items, OlderThan next item) →
      OlderThan next (.list items)
  | map {entries : List (Value × Value)} : (∀ entry ∈ entries, OlderThan next entry.1) →
      (∀ entry ∈ entries, OlderThan next entry.2) → OlderThan next (.map entries)
  | function (f : Function) : OlderThan next (.function f)
  | symbol (env : EnvId) (name : String) : OlderThan next (.symbol env name)
  | expression {node : NodeId} {left right : Value} (env : EnvId) (operator : Operator) :
      node < next → OlderThan next left → OlderThan next right →
      OlderThan next (.expression node env operator left right)
  | call {node : NodeId} {target : Value} {args : List Value} {kwargs : List (String × Value)}
      (env : EnvId) : node < next → OlderThan next target → (∀ arg ∈ args, OlderThan next arg) →
      (∀ entry ∈ kwargs, OlderThan next entry.2) →
      OlderThan next (.call node env target args kwargs)
  | sequence {node : NodeId} {head tail : Value} (env : EnvId) : node < next →
      OlderThan next head → OlderThan next tail → OlderThan next (.sequence node env head tail)

variable {next later : NodeId} {v : Value}

namespace OlderThan

theorem mono (h : v.OlderThan next) (hle : next ≤ later) : v.OlderThan later := by
  induction h with
  | list _ ih => exact .list ih
  | map _ _ ihkeys ihvalues => exact .map ihkeys ihvalues
  | expression env operator hnode _ _ ihleft ihright =>
    exact .expression env operator (hnode.trans_le hle) ihleft ihright
  | call env hnode _ _ _ ihtarget ihargs ihkwargs =>
    exact .call env (hnode.trans_le hle) ihtarget ihargs ihkwargs
  | sequence env hnode _ _ ihhead ihtail =>
    exact .sequence env (hnode.trans_le hle) ihhead ihtail
  | _ => constructor

theorem node (h : v.OlderThan next) {node : NodeId} (hnode : v.node? = some node) :
    node < next := by
  cases h with
  | expression _ _ hlt | call _ hlt | sequence _ hlt =>
    cases hnode
    exact hlt
  | _ => cases hnode

theorem items {items : List Value} (h : (Value.list items).OlderThan next) :
    ∀ item ∈ items, item.OlderThan next := by
  cases h with
  | list hitems => exact hitems

theorem entry {entries : List (Value × Value)} (h : (Value.map entries).OlderThan next)
    {entry : Value × Value} (hentry : entry ∈ entries) :
    entry.1.OlderThan next ∧ entry.2.OlderThan next := by
  cases h with
  | map hkeys hvalues => exact ⟨hkeys entry hentry, hvalues entry hentry⟩

theorem ofList {entries : List (Value × Value)}
    (h : ∀ entry ∈ entries, entry.1.OlderThan next ∧ entry.2.OlderThan next) :
    (Value.map (Entries.ofList entries)).OlderThan next :=
  .map (fun entry hentry => (h entry (Entries.mem_of_mem_ofList hentry)).1)
    fun entry hentry => (h entry (Entries.mem_of_mem_ofList hentry)).2

theorem head {node : NodeId} {env : EnvId} {head tail : Value}
    (h : (Value.sequence node env head tail).OlderThan next) : head.OlderThan next := by
  cases h with
  | sequence _ _ hhead _ => exact hhead

theorem tail {node : NodeId} {env : EnvId} {head tail : Value}
    (h : (Value.sequence node env head tail).OlderThan next) : tail.OlderThan next := by
  cases h with
  | sequence _ _ _ htail => exact htail

theorem closed (next : NodeId) : Closed (OlderThan next) where
  scalar v h := by
    cases v <;> first | (constructor; done) | simp [typeName] at h
  list _ := ⟨items, list⟩

end OlderThan

end Value

namespace Store

def Numbered (store : Store) : Prop :=
  ∀ env name bound, store.binding? env name = some bound → bound.OlderThan store.nextNode

structure Follows (before after : Store) : Prop where
  bindings : after.bindings = before.bindings
  nextNode : before.nextNode ≤ after.nextNode

variable {before after store : Store}

theorem Numbered.of_follows (h : before.Numbered) (hafter : before.Follows after) :
    after.Numbered := by
  intro env name bound hbound
  rw [binding?_eq, hafter.bindings, ← binding?_eq] at hbound
  exact (h env name bound hbound).mono hafter.nextNode

theorem single_numbered {bindings : Bindings} {next : NodeId}
    (h : ∀ entry ∈ bindings, entry.2.OlderThan next) :
    Numbered { single bindings with nextNode := next } := by
  intro env name bound hbound
  cases env with
  | zero => exact h _ (Bindings.mem_of_get? hbound)
  | succ env => simp [binding?, single] at hbound

instance : IsPreorder Store Follows where
  refl _ := ⟨rfl, le_rfl⟩
  trans _ _ _ h h' := ⟨h'.bindings.trans h.bindings, h.nextNode.trans h'.nextNode⟩

instance : Admits Follows where
  freshNode := by
    intro before outcome after h
    rw [(ends_freshNode.mp h).2]
    exact ⟨rfl, Nat.le_succ _⟩
  print := by
    intro env text before outcome after h
    cases hlive : before.live? env with
    | none =>
      rw [((print_ends_detached hlive).mp h).2]
      exact refl_of Follows before
    | some environment =>
      rw [((print_ends hlive).mp h).2]
      exact ⟨(OnlyPrints.printed before env text).bindings, le_rfl⟩

/-- What a value leads to is made of nodes that have been made. -/
theorem Numbered.holds (h : store.Numbered) {u v : Value} (hv : v.OlderThan store.nextNode)
    (hu : store.Holds v u) : u.OlderThan store.nextNode := by
  induction hu with
  | refl => exact hv
  | @tail w u _ hpart hw =>
    cases hw with
    | list hitems => exact hitems u hpart
    | map hkeys hvalues =>
      rcases List.mem_append.mp hpart with hpart | hpart
      · obtain ⟨entry, hentry, rfl⟩ := List.mem_map.mp hpart
        exact hkeys entry hentry
      · obtain ⟨entry, hentry, rfl⟩ := List.mem_map.mp hpart
        exact hvalues entry hentry
    | symbol env name =>
      have hbound : store.visible? env name = some u := by simpa [parts] using hpart
      exact h env name u (binding?_of_visible? hbound)
    | expression _ _ _ hleft hright | sequence _ _ hleft hright =>
      obtain rfl | rfl := by simpa [parts] using hpart
      · exact hleft
      · exact hright
    | call _ _ htarget hargs hkwargs =>
      rcases List.mem_cons.mp hpart with rfl | hpart
      · exact htarget
      · rcases List.mem_append.mp hpart with hpart | hpart
        · exact hargs u hpart
        · obtain ⟨entry, hentry, rfl⟩ := List.mem_map.mp hpart
          exact hkwargs entry hentry
    | _ => cases hpart

theorem Numbered.numbers (h : store.Numbered) {v : Value} (hv : v.OlderThan store.nextNode) :
    store.Numbers v :=
  fun _ _ hu hnode => (h.holds hv hu).node hnode

end Store

/-! ## 2. Runs that make nodes -/

namespace Eval

variable {α β : Type} {first later : NodeId} {P : NodeId → α → Prop} {Q : NodeId → β → Prop}

/-- From a numbered store with at least so many nodes, every run leads to a numbered store with no
fewer nodes, and what it gives has a property that may depend on how many nodes there are then. -/
def Makes (first : NodeId) (P : NodeId → α → Prop) (action : Eval α) : Prop :=
  ∀ store outcome after, first ≤ store.nextNode → store.Numbered →
    action.Ends store outcome after → store.nextNode ≤ after.nextNode ∧ after.Numbered ∧
      ∀ a, outcome = .ok a → P after.nextNode a

theorem Makes.of_le {action : Eval α} (h : action.Makes first P) (hle : first ≤ later) :
    action.Makes later P :=
  fun store outcome after hfirst => h store outcome after (hle.trans hfirst)

theorem Keeps.makes {action : Eval α} (h : action.Keeps Store.Follows) :
    action.Makes first fun _ _ => True := by
  intro store outcome after _ hstore hends
  have hafter := h store outcome after hends
  exact ⟨hafter.nextNode, hstore.of_follows hafter, fun _ _ => trivial⟩

theorem makes_pure {a : α} (h : ∀ next, first ≤ next → P next a) :
    (pure a : Eval α).Makes first P := by
  intro store outcome after hfirst hstore hends
  obtain ⟨rfl, rfl⟩ := ends_pure.mp hends
  refine ⟨le_rfl, hstore, fun b hb => ?_⟩
  cases hb
  exact h _ hfirst

theorem makes_value {v : Value} (h : v.OlderThan first) :
    (pure v : Eval Value).Makes first Value.OlderThan :=
  makes_pure fun _ hle => h.mono hle

theorem makes_throw (failure : Failure) : (throw failure : Eval α).Makes first P := by
  intro store outcome after _ hstore hends
  obtain ⟨rfl, rfl⟩ := ends_throw.mp hends
  exact ⟨le_rfl, hstore, fun _ hok => by cases hok⟩

theorem makes_outOfFuel : (outOfFuel : Eval α).Makes first P :=
  fun _ _ _ _ _ hends => absurd hends ends_outOfFuel

theorem makes_ofExcept {result : Except Failure α}
    (h : ∀ a, result = .ok a → ∀ next, first ≤ next → P next a) :
    (ofExcept result).Makes first P := by
  cases result with
  | ok a => exact makes_pure (h a rfl)
  | error failure => exact makes_throw failure

theorem makes_bind {action : Eval α} {next : α → Eval β} (h : action.Makes first P)
    (hnext : ∀ later, first ≤ later → ∀ a, P later a → (next a).Makes later Q) :
    (action >>= next).Makes first Q := by
  intro store outcome after hfirst hstore hends
  rcases ends_bind.mp hends with ⟨a, between, ha, hb⟩ | ⟨failure, hf, rfl⟩
  · obtain ⟨hle, hbetween, hp⟩ := h _ _ _ hfirst hstore ha
    obtain ⟨hle', hafter, hq⟩ :=
      hnext _ (hfirst.trans hle) a (hp a rfl) _ _ _ le_rfl hbetween hb
    exact ⟨hle.trans hle', hafter, hq⟩
  · obtain ⟨hle, hafter, -⟩ := h _ _ _ hfirst hstore hf
    exact ⟨hle, hafter, fun _ hok => by cases hok⟩

theorem makes_check {result : Except Failure α} {next : α → Eval β}
    (h : ∀ a, (next a).Makes first Q) : (ofExcept result >>= next).Makes first Q := by
  have hcheck : (ofExcept result).Makes first fun _ _ => True :=
    makes_ofExcept fun _ _ _ _ => trivial
  exact makes_bind hcheck fun _ hle a _ => (h a).of_le hle

theorem makes_attempt {action : Eval α} (h : action.Makes first P) :
    (attempt action).Makes first fun next result => ∀ a, result = .ok a → P next a := by
  intro store outcome after hfirst hstore hends
  obtain ⟨result, rfl, hresult⟩ := ends_attempt.mp hends
  obtain ⟨hle, hafter, hp⟩ := h _ _ _ hfirst hstore hresult
  refine ⟨hle, hafter, fun b hb => ?_⟩
  cases hb
  exact hp

/-- The results of a loop are still what they were when the later ones have been made. -/
theorem makes_mapM {f : α → Eval β} {items : List α}
    (hmono : ∀ b next later, next ≤ later → Q next b → Q later b)
    (h : ∀ item ∈ items, (f item).Makes first Q) :
    (items.mapM f).Makes first fun next bs => ∀ b ∈ bs, Q next b := by
  induction items generalizing first with
  | nil => exact makes_pure (by simp)
  | cons item rest ih =>
    rw [List.mapM_cons]
    have hrest := ih fun other hother => h other (List.mem_cons_of_mem item hother)
    refine makes_bind (h item List.mem_cons_self) fun _ hle b hb => ?_
    refine makes_bind (hrest.of_le hle) fun _ hle' bs hbs => makes_pure fun _ hle'' => ?_
    exact List.forall_mem_cons.mpr ⟨hmono b _ _ (hle'.trans hle'') hb,
      fun c hc => hmono c _ _ hle'' (hbs c hc)⟩

theorem makes_values {f : α → Eval Value} {items : List α}
    (h : ∀ item ∈ items, (f item).Makes first Value.OlderThan) :
    (items.mapM f).Makes first fun next values => ∀ v ∈ values, v.OlderThan next :=
  makes_mapM (fun _ _ _ hle hv => hv.mono hle) h

theorem makes_entries {f : α → Eval (Value × Value)} {items : List α}
    (h : ∀ item ∈ items, (f item).Makes first
      fun next entry => entry.1.OlderThan next ∧ entry.2.OlderThan next) :
    (items.mapM f).Makes first fun next entries =>
      ∀ entry ∈ entries, entry.1.OlderThan next ∧ entry.2.OlderThan next :=
  makes_mapM (fun _ _ _ hle hv => ⟨hv.1.mono hle, hv.2.mono hle⟩) h

theorem makes_environment (env : EnvId) :
    (environment env).Makes first fun next environment =>
      ∀ name bound, environment.bindings.get? name = some bound → bound.OlderThan next := by
  intro store outcome after _ hstore hends
  obtain rfl : after = store := (ends_environment.mp hends).2
  refine ⟨le_rfl, hstore, ?_⟩
  rintro environment rfl name bound hbound
  have hvisible : after.visible? env name = some bound := by
    rw [Store.visible?_of_live? (ends_environment_ok.mp hends).1, hbound]
  exact hstore env name bound (Store.binding?_of_visible? hvisible)

theorem makes_freshNode :
    freshNode.Makes first fun next node => first ≤ node ∧ node < next := by
  intro store outcome after hfirst hstore hends
  obtain ⟨rfl, rfl⟩ := ends_freshNode.mp hends
  have hfollows : store.Follows { store with nextNode := store.nextNode + 1 } :=
    ⟨rfl, Nat.le_succ _⟩
  refine ⟨hfollows.nextNode, hstore.of_follows hfollows, fun node hnode => ?_⟩
  cases hnode
  exact ⟨hfirst, Nat.lt_succ_self _⟩

section
variable {env : EnvId} {left right target : Value} {args : List Value}
  {kwargs : List (String × Value)}

theorem makes_expression (operator : Operator) (hleft : left.OlderThan first)
    (hright : right.OlderThan first) :
    (expression env operator left right).Makes first Value.OlderThan :=
  makes_bind makes_freshNode fun _ hle _ hnode =>
    makes_value (.expression env operator hnode.2 (hleft.mono hle) (hright.mono hle))

theorem makes_call (htarget : target.OlderThan first) (hargs : ∀ arg ∈ args, arg.OlderThan first)
    (hkwargs : ∀ entry ∈ kwargs, entry.2.OlderThan first) :
    (call env target args kwargs).Makes first Value.OlderThan :=
  makes_bind makes_freshNode fun _ hle _ hnode =>
    makes_value (.call env hnode.2 (htarget.mono hle) (fun arg harg => (hargs arg harg).mono hle)
      fun entry hentry => (hkwargs entry hentry).mono hle)

theorem makes_sequence (hhead : left.OlderThan first) (htail : right.OlderThan first) :
    (sequence env left right).Makes first Value.OlderThan :=
  makes_bind makes_freshNode fun _ hle _ hnode =>
    makes_value (.sequence env hnode.2 (hhead.mono hle) (htail.mono hle))

end

end Eval

/-! ## 3. Operators and sequences -/

variable {first : NodeId} {forcing : Forcing}

def Forcing.Makes (forcing : Forcing) : Prop :=
  ∀ next v, v.OlderThan next → (forcing.force v).Makes next Value.OlderThan

section
variable {left right : Value}

theorem Operator.apply_makes (operator : Operator) (env : EnvId) (hleft : left.OlderThan first)
    (hright : right.OlderThan first) :
    (operator.apply env left right).Makes first Value.OlderThan := by
  unfold Operator.apply
  split
  · exact makes_call (.function _) (by simp [hleft, hright]) (by simp)
  · refine makes_ofExcept fun w hw _ hle => ?_
    exact ((Value.OlderThan.closed first).compute hleft hright hw).mono hle

theorem Operator.combine_makes (operator : Operator) (env : EnvId) (hleft : left.OlderThan first)
    (hright : right.OlderThan first) :
    (operator.combine env left right).Makes first Value.OlderThan := by
  unfold Operator.combine
  split
  · exact makes_expression operator hleft hright
  · exact operator.apply_makes env hleft hright

end

namespace Sequence

variable {v rest : Value}

theorem tail_makes (hv : v.OlderThan first) : (tail v).Makes first Value.OlderThan := by
  cases v with
  | sequence => exact makes_value hv.tail
  | _ => exact makes_throw _

section
variable (hforcing : forcing.Makes)
include hforcing

theorem next?_makes (hrest : rest.OlderThan first) :
    (next? forcing rest).Makes first fun next found => ∀ item following,
      found = some (item, following) → item.OlderThan next ∧ following.OlderThan next := by
  unfold next?
  refine makes_bind (hforcing first rest hrest) fun next _ found hfound => ?_
  cases found with
  | nil => exact makes_pure fun _ _ _ _ hnone => by cases hnone
  | sequence node env head tail =>
    refine makes_bind (hforcing next head hfound.head) fun _ hle item hitem => ?_
    refine makes_pure fun _ hle' _ _ hsome => ?_
    cases hsome
    exact ⟨hitem.mono hle', hfound.tail.mono (hle.trans hle')⟩
  | _ => exact makes_throw _

theorem takeItems_makes (requested left : Nat) {found : List Value}
    (hfound : ∀ item ∈ found, item.OlderThan first) (hrest : rest.OlderThan first) :
    (takeItems forcing requested left found rest).Makes first
      fun next items => ∀ item ∈ items, item.OlderThan next := by
  induction left generalizing first found rest with
  | zero =>
    exact makes_pure fun _ hle item hitem => (hfound item (List.mem_reverse.mp hitem)).mono hle
  | succ left ih =>
    refine makes_bind (next?_makes hforcing hrest) fun _ hle next hnext => ?_
    rcases next with _ | ⟨item, following⟩
    · exact makes_throw _
    · obtain ⟨hitem, hfollowing⟩ := hnext item following rfl
      refine ih (List.forall_mem_cons.mpr ⟨hitem, fun other hother => ?_⟩) hfollowing
      exact (hfound other hother).mono hle

theorem collectItems_makes (fuel : Nat) {found : List Value}
    (hfound : ∀ item ∈ found, item.OlderThan first) (hrest : rest.OlderThan first) :
    (collectItems forcing fuel found rest).Makes first
      fun next items => ∀ item ∈ items, item.OlderThan next := by
  induction fuel generalizing first found rest with
  | zero => exact makes_outOfFuel
  | succ fuel ih =>
    refine makes_bind (next?_makes hforcing hrest) fun _ hle next hnext => ?_
    rcases next with _ | ⟨item, following⟩
    · refine makes_pure fun _ hle' item hitem => ?_
      exact (hfound item (List.mem_reverse.mp hitem)).mono (hle.trans hle')
    · obtain ⟨hitem, hfollowing⟩ := hnext item following rfl
      refine ih (List.forall_mem_cons.mpr ⟨hitem, fun other hother => ?_⟩) hfollowing
      exact (hfound other hother).mono hle

theorem take_makes (count : Nat) (hv : v.OlderThan first) :
    (take forcing count v).Makes first Value.OlderThan := by
  cases v with
  | list items =>
    unfold take
    dsimp only
    split
    · exact makes_throw _
    · exact makes_value (.list fun item hitem => hv.items item (List.mem_of_mem_take hitem))
  | sequence node env head tail =>
    refine makes_bind (takeItems_makes hforcing count count (by simp) hv) fun _ _ items hitems => ?_
    exact makes_value (.list hitems)
  | _ => exact makes_throw _

theorem collect_makes (hv : v.OlderThan first) :
    (collect forcing v).Makes first Value.OlderThan := by
  cases v with
  | list items => exact makes_value hv
  | sequence node env head tail =>
    have hitems := collectItems_makes hforcing forcing.patience (List.forall_mem_nil _) hv
    exact makes_bind hitems fun _ _ items hitems => makes_value (.list hitems)
  | _ => exact makes_throw _

theorem head_makes (hv : v.OlderThan first) : (head forcing v).Makes first Value.OlderThan := by
  cases v with
  | sequence node env head tail => exact hforcing first head hv.head
  | _ => exact makes_throw _

theorem concat_makes (env : EnvId) {left right : Value} (hleft : left.OlderThan first)
    (hright : right.OlderThan first) :
    (concat forcing env left right).Makes first Value.OlderThan := by
  unfold concat
  split
  · exact makes_value .nil
  · exact makes_value .nil
  · -- The tails are as old as ever when the heads have been forced and added.
    refine makes_bind (hforcing first _ hleft.head) fun second hsecond _ hleft' => ?_
    have hhead := hright.head.mono hsecond
    refine makes_bind (hforcing second _ hhead) fun third hthird _ hright' => ?_
    refine makes_bind (Operator.add.apply_makes env (hleft'.mono hthird) hright') ?_
    intro fourth hfourth sum hsum
    have hle := (hsecond.trans hthird).trans hfourth
    refine makes_bind (makes_call (.function _) ?_ (by simp)) fun _ hle' _ hrest =>
      makes_sequence (hsum.mono hle') hrest
    simp [hleft.tail.mono hle, hright.tail.mono hle]
  · exact makes_throw _
  · exact makes_throw _

end

end Sequence

/-! ## 4. Built-in functions and resolution -/

section
variable (hforcing : forcing.Makes) (hkeeps : forcing.Keeps Store.Follows) {args : List Value}
  {kwargs : List (String × Value)}

include hforcing

theorem makes_mapM_force (hargs : ∀ arg ∈ args, arg.OlderThan first) :
    (args.mapM forcing.force).Makes first fun next values => ∀ v ∈ values, v.OlderThan next :=
  makes_values fun arg harg => hforcing first arg (hargs arg harg)

theorem forceKeywords_makes (hkwargs : ∀ entry ∈ kwargs, entry.2.OlderThan first) :
    (forceKeywords forcing kwargs).Makes first
      fun next found => ∀ entry ∈ found, entry.2.OlderThan next := by
  refine makes_mapM (Q := fun next (entry : String × Value) => entry.2.OlderThan next)
    (fun _ _ _ hle hv => hv.mono hle) fun entry hentry => ?_
  refine makes_bind (hforcing first entry.2 (hkwargs entry hentry)) fun _ _ v hv => ?_
  exact makes_pure fun _ hle => hv.mono hle

omit hforcing
include hkeeps

theorem Builtin.printArguments_makes (env : EnvId) :
    (printArguments forcing env args kwargs).Makes first Value.OlderThan := by
  refine makes_check fun separator => makes_check fun terminator => ?_
  refine makes_bind (keeps_environment env).makes fun _ _ environment _ => ?_
  have htexts : (args.mapM (printedText forcing environment.reversePrint)).Keeps Store.Follows :=
    keeps_mapM fun arg _ => printedText_keeps hkeeps _ arg
  refine makes_bind htexts.makes fun _ _ texts _ => ?_
  exact makes_bind (Admits.print env _).makes fun _ _ _ _ => makes_value .nil

include hforcing

theorem Builtin.perform_makes (env : EnvId) (builtin : Builtin)
    (hargs : ∀ arg ∈ args, arg.OlderThan first) :
    (builtin.perform forcing env args kwargs).Makes first Value.OlderThan := by
  have hclosed := Value.OlderThan.closed first
  have hcomputed : ∀ result : Except Failure Value, (∀ w, result = .ok w → w.OlderThan first) →
      (ofExcept result).Makes first Value.OlderThan :=
    fun result h => makes_ofExcept fun w hw _ hle => (h w hw).mono hle
  unfold perform
  split
  case h_1 count v =>
    exact makes_check fun n => Sequence.take_makes hforcing n (hargs v (by simp))
  case h_2 v => exact Sequence.tail_makes (hargs v (by simp))
  case h_3 v => exact Sequence.head_makes hforcing (hargs v (by simp))
  case h_4 left right =>
    exact Sequence.concat_makes hforcing env (hargs left (by simp)) (hargs right (by simp))
  case h_5 f => exact makes_value (.function _)
  case h_6 v => exact makes_throw _
  case h_7 => exact printArguments_makes hkeeps env
  case h_8 v =>
    exact makes_bind (v.plainText_keeps hkeeps).makes fun _ _ _ _ => makes_value (.str _)
  case h_9 v =>
    exact makes_bind (v.display_keeps hkeeps).makes fun _ _ _ _ => makes_value (.str _)
  case h_10 v => exact hcomputed _ fun w hw => hclosed.lengthOf hw
  case h_11 v => exact hcomputed _ fun w hw => hclosed.absolute hw
  case h_12 => exact hcomputed _ fun w hw => hclosed.extremum hargs hw
  case h_13 => exact hcomputed _ fun w hw => hclosed.extremum hargs hw
  case h_14 v => exact hcomputed _ fun w hw => hclosed.toInteger hw
  case h_15 v => exact hcomputed _ fun w hw => hclosed.toFloat hw
  case h_16 v => exact Sequence.collect_makes hforcing (hargs v (by simp))
  case h_17 v => exact hforcing first v (hargs v (by simp))
  case h_18 v => exact makes_value (.str _)
  case h_19 => exact makes_throw _

theorem Builtin.run_makes (env : EnvId) (builtin : Builtin)
    (hargs : ∀ arg ∈ args, arg.OlderThan first) :
    (builtin.run forcing env args kwargs).Makes first Value.OlderThan :=
  makes_check fun _ => perform_makes hforcing hkeeps env builtin hargs

theorem invoke_makes (env : EnvId) (target : Value) (hargs : ∀ arg ∈ args, arg.OlderThan first) :
    (invoke forcing env target args kwargs).Makes first Value.OlderThan := by
  unfold invoke
  split
  · exact Builtin.run_makes hforcing hkeeps env _ hargs
  · exact makes_throw _

theorem Value.forceOnce_makes {v : Value} (hv : v.OlderThan first) :
    (v.forceOnce forcing).Makes first Value.OlderThan := by
  cases hv with
  | symbol env name =>
    refine makes_bind (makes_environment env) fun _ _ environment hbindings => ?_
    cases hbound : environment.bindings.get? name with
    | none => exact makes_throw _
    | some bound => exact makes_value (hbindings name bound hbound)
  | @expression _ left right env operator _ hleft hright =>
    refine makes_bind (hforcing first left hleft) fun second hle left hleft => ?_
    refine makes_bind (hforcing second right (hright.mono hle)) fun _ hle' right hright => ?_
    exact operator.apply_makes env (hleft.mono hle') hright
  | @call _ target args kwargs env _ htarget hargs hkwargs =>
    refine makes_bind (hforcing first target htarget) fun second hsecond target _ => ?_
    have hargs : ∀ arg ∈ args, arg.OlderThan second :=
      fun arg harg => (hargs arg harg).mono hsecond
    refine makes_bind (makes_mapM_force hforcing hargs) fun third hthird args hargs => ?_
    have hkwargs : ∀ entry ∈ kwargs, entry.2.OlderThan third :=
      fun entry hentry => (hkwargs entry hentry).mono (hsecond.trans hthird)
    refine makes_bind (forceKeywords_makes hforcing hkwargs) fun _ hle kwargs _ => ?_
    refine makes_bind (keeps_environment env).makes fun _ hle' _ _ => ?_
    exact invoke_makes hforcing hkeeps env target fun arg harg =>
      (hargs arg harg).mono (hle.trans hle')
  | list hitems => exact makes_value (.list hitems)
  | map hkeys hvalues => exact makes_value (.map hkeys hvalues)
  | sequence env hnode hhead htail => exact makes_value (.sequence env hnode hhead htail)
  | _ => exact makes_value (by constructor)

theorem Value.unwind_makes (left : Nat) {v : Value} (hv : v.OlderThan first) :
    (v.unwind forcing left).Makes first Value.OlderThan := by
  induction left generalizing first v with
  | zero => exact makes_throw _
  | succ left ih =>
    refine makes_bind (v.forceOnce_makes hforcing hkeeps hv) fun _ _ w hw => ?_
    split
    · exact ih hw
    · exact makes_value hw

end

namespace Value

theorem resolveWith_makes {deferred : Value → Eval Value}
    (hdeferred : ∀ next u, u.OlderThan next → (deferred u).Makes next OlderThan) {v : Value}
    (hv : v.OlderThan first) : (v.resolveWith deferred).Makes first OlderThan := by
  induction v generalizing first with
  | list items ih =>
    rw [resolveWith_list, map_eq_pure_bind]
    refine makes_bind (makes_values fun item hitem => ih item hitem (hv.items item hitem)) ?_
    exact fun _ _ found hfound => makes_value (.list hfound)
  | map entries ih =>
    rw [resolveWith_map, map_eq_pure_bind]
    have hentry : ∀ entry ∈ entries, (resolveEntry deferred entry).Makes first
        fun next entry => entry.1.OlderThan next ∧ entry.2.OlderThan next := by
      intro entry hentry
      obtain ⟨hkey, hvalue⟩ := hv.entry hentry
      refine makes_bind ((ih entry hentry).1 hkey) fun _ hle key hkey => ?_
      refine makes_bind ((ih entry hentry).2 (hvalue.mono hle)) fun _ hle' value hvalue => ?_
      exact makes_pure fun _ hle'' => ⟨hkey.mono (hle'.trans hle''), hvalue.mono hle''⟩
    exact makes_bind (makes_entries hentry) fun _ _ found hfound => makes_value (.ofList hfound)
  | symbol => exact hdeferred first _ hv
  | expression => exact hdeferred first _ hv
  | call => exact hdeferred first _ hv
  | _ => exact makes_value hv

theorem resolve_makes (patience room : Nat) : Forcing.Makes ⟨resolve patience room, patience⟩ := by
  induction room with
  | zero => exact fun next v hv => resolveWith_makes (fun _ _ _ => makes_throw _) hv
  | succ room ih =>
    have hkeeps : Forcing.Keeps Store.Follows ⟨resolve patience room, patience⟩ :=
      resolve_keeps patience room
    intro next v hv
    refine resolveWith_makes (fun next u hu => ?_) hv
    exact makes_bind (u.unwind_makes ih hkeeps depthLimit hu) fun later _ found hfound =>
      ih later found hfound

end Value

end Deferral
