import Deferral.Proofs.Alike
import Deferral.Proofs.NormalForm
import Deferral.Proofs.SourceReading

/-!
# Data as source text

The text of a value without deferred parts is source text for the value.  It is the text of a tree
that the value is written as (`Value.WrittenAs`), so it is parsed as that tree, and the tree is
evaluated by itself: its names are constants, which no binding hides, and nothing in it forces,
binds or prints anything.  So the value comes back, with the entries of its maps in their order, in
whatever environment (`Value.evaluate_quoted`).
-/

namespace Deferral

open Eval

/-! ## 1. Data -/

/-- Values without deferred parts, functions and floats.  The keys of a map differ, and strings have
no characters but those with a short form between quotes. -/
inductive Value.IsData : Value → Prop
  | nil : IsData .nil
  | bool (b : Bool) : IsData (.bool b)
  | int (n : Int64) : IsData (.int n)
  | str {s : String} : (∀ c ∈ s.toList, Lexer.hasShortForm c = true) → IsData (.str s)
  | list {items : List Value} : (∀ item ∈ items, IsData item) → IsData (.list items)
  | map {entries : List (Value × Value)} : (∀ entry ∈ entries, IsData entry.1) →
      (∀ entry ∈ entries, IsData entry.2) → Entries.Distinct entries → IsData (.map entries)

mutual

def Value.nesting : Value → Nat
  | .list items => nestingOfItems items + 1
  | .map entries => nestingOfEntries entries + 1
  | _ => 0

def Value.nestingOfItems : List Value → Nat
  | [] => 0
  | item :: rest => max item.nesting (nestingOfItems rest)

def Value.nestingOfEntries : List (Value × Value) → Nat
  | [] => 0
  | (key, value) :: rest => max (max key.nesting value.nesting) (nestingOfEntries rest)

end

namespace Value

structure WrittenAs (v : Value) (t : Tree) : Prop where
  writable : t.Writable
  source_eq : t.source = v.quoted
  room_le : t.room ≤ v.nesting
  evaluate_eq : ∀ (forcing : Forcing) (env : EnvId), t.evaluate forcing env = pure v

theorem isName_constant {name : String} (h : name ∈ ["None", "True", "False"]) :
    Lexer.IsName name := by
  revert name
  decide +kernel

/-! ## 2. Each value is written as a tree -/

theorem nestingOfItems_le_iff {items : List Value} {n : Nat} :
    nestingOfItems items ≤ n ↔ ∀ item ∈ items, item.nesting ≤ n := by
  induction items with
  | nil => simp [nestingOfItems]
  | cons item rest ih => simp [nestingOfItems, ih]

theorem nestingOfEntries_le_iff {entries : List (Value × Value)} {n : Nat} :
    nestingOfEntries entries ≤ n ↔
      ∀ entry ∈ entries, entry.1.nesting ≤ n ∧ entry.2.nesting ≤ n := by
  induction entries with
  | nil => simp [nestingOfEntries]
  | cons entry rest ih => simp only [nestingOfEntries, Nat.max_le, ih, List.forall_mem_cons]

theorem writtenAs_list {items : List Value} {literal : Value → Tree}
    (h : ∀ item ∈ items, item.WrittenAs (literal item)) :
    (Value.list items).WrittenAs (.list (items.map literal)) where
  writable := .list (by simpa using fun item hmem => (h item hmem).writable)
  source_eq := by
    have htexts : (items.map literal).map Tree.source = items.map quoted := by
      rw [List.map_map]
      exact List.map_congr_left fun item hmem => (h item hmem).source_eq
    rw [Tree.source, quoted, Tree.sourceItems_eq_map, htexts, quotedItems_eq]
    rfl
  room_le := by
    rw [Tree.room, nesting, Tree.roomOfItems_le_iff, List.forall_mem_map]
    exact fun item hmem => Nat.succ_le_succ (Nat.le_trans (h item hmem).room_le
      (nestingOfItems_le_iff.mp (Nat.le_refl _) item hmem))
  evaluate_eq forcing env := by
    have hitems : items.mapM (Tree.evaluate forcing env ∘ literal) = pure items :=
      mapM_eq_pure fun item hmem => (h item hmem).evaluate_eq forcing env
    rw [Tree.evaluate, Tree.evaluateItems_eq_mapM, List.mapM_map, hitems, pure_bind]

theorem writtenAs_map {entries : List (Value × Value)} {key value : Value × Value → Tree}
    (hkeys : ∀ entry ∈ entries, entry.1.WrittenAs (key entry))
    (hvalues : ∀ entry ∈ entries, entry.2.WrittenAs (value entry))
    (hdistinct : Entries.Distinct entries) :
    (Value.map entries).WrittenAs (.map (entries.map fun entry => (key entry, value entry))) where
  writable := by
    refine .map ?_ ?_
    · intro pair hmem
      obtain ⟨entry, hentry, rfl⟩ := List.mem_map.mp hmem
      exact (hkeys entry hentry).writable
    · intro pair hmem
      obtain ⟨entry, hentry, rfl⟩ := List.mem_map.mp hmem
      exact (hvalues entry hentry).writable
  source_eq := by
    have htexts : (entries.map fun entry => (key entry, value entry)).map
        (fun pair => pair.1.source ++ ": " ++ pair.2.source) =
        entries.map fun entry => entry.1.quoted ++ ": " ++ entry.2.quoted := by
      rw [List.map_map]
      refine List.map_congr_left fun entry hmem => ?_
      rw [Function.comp_apply, (hkeys entry hmem).source_eq, (hvalues entry hmem).source_eq]
    rw [Tree.source, quoted, Tree.sourceEntries_eq_map, htexts, quotedEntries_eq]
    rfl
  room_le := by
    rw [Tree.room, nesting, Tree.roomOfEntries_le_iff, List.forall_mem_map]
    intro entry hmem
    have hnesting := nestingOfEntries_le_iff.mp (Nat.le_refl _) entry hmem
    exact ⟨Nat.succ_le_succ (Nat.le_trans (hkeys entry hmem).room_le hnesting.1),
      Nat.succ_le_succ (Nat.le_trans (hvalues entry hmem).room_le hnesting.2)⟩
  evaluate_eq forcing env := by
    have hentries : entries.mapM (Tree.evaluateEntry forcing env ∘
        fun entry => (key entry, value entry)) = pure entries := by
      refine mapM_eq_pure fun entry hmem => ?_
      rw [Function.comp_apply, Tree.evaluateEntry, (hkeys entry hmem).evaluate_eq,
        (hvalues entry hmem).evaluate_eq]
      simp only [pure_bind]
    -- The keys differ, so putting the entries in one by one gives them all in their order.
    rw [Tree.evaluate, Tree.evaluateEntries_eq_mapM, List.mapM_map, hentries, pure_bind,
      Entries.ofList_eq_self hdistinct]

theorem IsData.writtenAs {v : Value} (h : v.IsData) : ∃ t, v.WrittenAs t := by
  induction h with
  | nil =>
    have hname : Lexer.IsName "None" := isName_constant (by simp)
    exact ⟨.name "None", .name hname, rfl, Nat.le_refl _, fun _ _ => rfl⟩
  | bool b =>
    refine ⟨.name (boolText b), .name (isName_constant ?_), rfl, Nat.le_refl _, fun _ _ => ?_⟩
    · cases b <;> simp [boolText]
    · cases b <;> rfl
  | int n => exact ⟨.int n, .int n, rfl, Nat.le_refl _, fun _ _ => rfl⟩
  | @str s h => exact ⟨.text s, .text h, rfl, Nat.le_refl _, fun _ _ => rfl⟩
  | @list items _ ih =>
    have : Nonempty Tree := ⟨.list []⟩
    choose! literal hliteral using ih
    exact ⟨_, writtenAs_list hliteral⟩
  | @map entries _ _ hdistinct ihkeys ihvalues =>
    have : Nonempty Tree := ⟨.list []⟩
    choose! key hkeys using ihkeys
    choose! value hvalues using ihvalues
    exact ⟨_, writtenAs_map hkeys hvalues hdistinct⟩

/-! ## 3. Nothing is left to force -/

theorem IsData.displayWith_eq {v : Value} (deferred : Value → Eval String) (h : v.IsData) :
    v.displayWith deferred = pure v.quoted := by
  induction h with
  | @list items _ ih =>
    rw [displayWith, displayItems_eq_mapM, mapM_eq_pure_map ih, map_pure, pure_bind, quoted,
      quotedItems_eq]
  | @map entries _ _ _ ihkeys ihvalues =>
    have hentry : ∀ entry ∈ entries, displayEntry deferred entry =
        pure (entry.1.quoted ++ ": " ++ entry.2.quoted) := by
      intro entry hmem
      rw [displayEntry, ihkeys entry hmem, ihvalues entry hmem]
      simp only [pure_bind]
    rw [displayWith, displayEntries_eq_mapM, mapM_eq_pure_map hentry, map_pure, pure_bind, quoted,
      quotedEntries_eq]
  | _ => rfl

theorem IsData.display_eq {v : Value} {forcing : Forcing} (h : v.IsData)
    (hpatience : 0 < forcing.patience) : v.display forcing = pure v.quoted := by
  obtain ⟨patience, hsucc⟩ := Nat.exists_eq_succ_of_ne_zero (Nat.ne_of_gt hpatience)
  have hfront : Display.front forcing (·.displayWith (Display.text forcing patience)) v =
      (do return .whole (← v.displayWith (Display.text forcing patience))) := by
    cases h <;> rfl
  rw [display, hsucc, Display.text, hfront, h.displayWith_eq]
  simp only [pure_bind]

/-- The quoted text of data is the text of a statement that is one bare expression. -/
theorem WrittenAs.parse_eq {v : Value} {t : Tree} (h : v.WrittenAs t)
    (hnesting : v.nesting < nestingLimit) : parse v.quoted = .ok [⟨1, none, t⟩] := by
  have hwritable : (⟨1, none, t⟩ : Statement).Writable := ⟨nofun, h.writable⟩
  have hroom := h.room_le
  rw [← h.source_eq]
  exact (hwritable.parse_cases rfl).resolve_right fun ⟨hdeep, _⟩ => by
    dsimp only at hdeep
    omega

/-- The text of data is source text for it.

With its parts forced or without, data has the same text, and to evaluate this text is to give the
data: in every environment, whatever is bound there, no name in it stands for anything else, and
nothing is computed, bound or printed on the way. -/
theorem evaluate_quoted {v : Value} {forcing : Forcing} (h : v.IsData) (hnesting : v.nesting ≤ 150)
    (hpatience : 0 < forcing.patience) (env : EnvId) :
    v.display forcing = pure v.quoted ∧ Script.evaluate forcing env v.quoted = pure v := by
  refine ⟨h.display_eq hpatience, ?_⟩
  obtain ⟨t, ht⟩ := h.writtenAs
  have hparse := ht.parse_eq (Nat.lt_of_le_of_lt hnesting (by decide))
  rw [Script.evaluate, Script.read, hparse]
  simp only [pure_bind]
  exact ht.evaluate_eq forcing env

/-- A map with keys of three types, one of them a map, the least integer, and strings with marks of
the language in them. -/
theorem evaluate_quoted_keys :
    let key : Value := .map [(.str "#\"[\\]", .nil)]
    let v : Value := .map [(key, .list [.int Int64.minValue, .list [], .bool true]),
      (.bool false, .map []), (.str "None", .str "it's\n\x00")]
    v.IsData ∧ v.nesting ≤ 150 ∧
      v.quoted = "\x7b\x7b\"#\\\"[\\\\]\": None\x7d: [-9223372036854775808, [], True], " ++
        "False: \x7b\x7d, \"None\": \"it's\\n\\0\"\x7d" ∧
      ∀ env, v.display (Forcing.top 1) = pure v.quoted ∧
        Script.evaluate (Forcing.top 1) env v.quoted = pure v := by
  intro key v
  have hmark : (Value.str "#\"[\\]").IsData := .str (List.all_eq_true.mp (by decide +kernel))
  have hkey : key.IsData := .map (by simpa using hmark) (by simpa using .nil)
    (List.pairwise_singleton _ _)
  have hlist : (Value.list [.int Int64.minValue, .list [], .bool true]).IsData :=
    .list (by simpa using ⟨.int _, .list (by simp), .bool true⟩)
  have hempty : (Value.map []).IsData := .map (by simp) (by simp) List.Pairwise.nil
  have hname : (Value.str "None").IsData := .str (List.all_eq_true.mp (by decide +kernel))
  have htext : (Value.str "it's\n\x00").IsData := .str (List.all_eq_true.mp (by decide +kernel))
  have hv : v.IsData := .map (by simpa using ⟨hkey, .bool false, hname⟩)
    (by simpa using ⟨hlist, hempty, htext⟩) (by simp [Entries.Distinct, key]; decide +kernel)
  have hnesting : v.nesting ≤ 150 := by decide +kernel
  exact ⟨hv, hnesting, by decide +kernel, evaluate_quoted hv hnesting Nat.one_pos⟩

end Value

end Deferral
