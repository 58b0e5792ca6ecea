import Deferral.Proofs.Alike
import Deferral.Proofs.NormalForm
import Deferral.Proofs.ParserSoundness
import Mathlib.Data.List.Perm.Basic
import Mathlib.Data.String.Basic

/-!
# The JSON forms of values

A value has a JSON form if it is made of scalars, lists and maps whose keys are strings, without
infinite floats and NaNs.  Nothing is lost in it but the order in which the entries of a map stand:
two values with one form differ in nothing else (`Json.ofValue_faithful`).
-/

namespace Deferral

namespace Value

/-! ## 1. What has a form, and what is lost in it -/

/-- Values without functions and deferred parts whose floats are finite, and the keys of whose maps
are strings. -/
inductive HasForm : Value → Prop
  | nil : HasForm .nil
  | bool (b : Bool) : HasForm (.bool b)
  | int (n : Int64) : HasForm (.int n)
  | float {x : Double} : x.isFinite = true → HasForm (.float x)
  | str (s : String) : HasForm (.str s)
  | list {items : List Value} : (∀ item ∈ items, HasForm item) → HasForm (.list items)
  | map {entries : List (Value × Value)} : (∀ entry ∈ entries, ∃ name, entry.1 = .str name) →
      (∀ entry ∈ entries, HasForm entry.2) → HasForm (.map entries)

/-- No map has two equal keys, however deep it stands in lists and maps. -/
inductive Keyed : Value → Prop
  | list {items : List Value} : (∀ item ∈ items, Keyed item) → Keyed (.list items)
  | map {entries : List (Value × Value)} : (∀ entry ∈ entries, Keyed entry.1) →
      (∀ entry ∈ entries, Keyed entry.2) → Entries.Distinct entries → Keyed (.map entries)
  | other {v : Value} : v.typeName ≠ .list → v.typeName ≠ .map → Keyed v

/-- The same value, but for the order of the entries of its maps. -/
inductive Rearranged : Value → Value → Prop
  | refl (v : Value) : Rearranged v v
  | list {items others : List Value} : List.Forall₂ Rearranged items others →
      Rearranged (.list items) (.list others)
  | map {entries between others : List (Value × Value)} : entries.Perm between →
      between.map Prod.fst = others.map Prod.fst →
      List.Forall₂ Rearranged (between.map Prod.snd) (others.map Prod.snd) →
      Rearranged (.map entries) (.map others)

theorem Keyed.of_list {items : List Value} (h : (Value.list items).Keyed) :
    ∀ item ∈ items, item.Keyed := by
  cases h with
  | list hitems => exact hitems
  | other hlist => exact absurd rfl hlist

variable {entries : List (Value × Value)}

theorem Keyed.values (h : (Value.map entries).Keyed) : ∀ entry ∈ entries, entry.2.Keyed := by
  cases h with
  | map _ hvalues => exact hvalues
  | other _ hmap => exact absurd rfl hmap

theorem Keyed.distinct (h : (Value.map entries).Keyed) : Entries.Distinct entries := by
  cases h with
  | map _ _ hdistinct => exact hdistinct
  | other _ hmap => exact absurd rfl hmap

end Value

abbrev KeyedValue := { v : Value // v.Keyed }

namespace KeyedValue

def list (items : List KeyedValue) : KeyedValue where
  val := .list (items.map Subtype.val)
  property := .list (List.forall_mem_map.mpr fun item _ => item.property)

def map (entries : List (KeyedValue × KeyedValue)) : KeyedValue where
  val := .map (Entries.ofList (entries.map fun entry => (entry.1.val, entry.2.val)))
  property := by
    have hparts : ∀ entry ∈ entries.map fun entry => (entry.1.val, entry.2.val),
        entry.1.Keyed ∧ entry.2.Keyed :=
      List.forall_mem_map.mpr fun entry _ => ⟨entry.1.property, entry.2.property⟩
    exact .map (fun entry hmem => (hparts entry (Entries.mem_of_mem_ofList hmem)).1)
      (fun entry hmem => (hparts entry (Entries.mem_of_mem_ofList hmem)).2)
      (Entries.distinct_ofList _)

def ofNormal (v : Value) (h : v.Normal) : KeyedValue where
  val := v
  property := by
    induction h with
    | list _ ih => exact .list ih
    | map _ _ hdistinct ihkeys ihvalues => exact .map ihkeys ihvalues hdistinct
    | _ => exact .other nofun nofun

end KeyedValue

namespace Json

open Deferral.Parser (bind_eq_ok map_eq_ok)

section
variable {α β γ : Type} {R : α → β → Prop} {S : γ → β → Prop} {T : α → γ → Prop}

theorem exists_forall₂_iff {as : List α} :
    (∃ bs, List.Forall₂ R as bs) ↔ ∀ a ∈ as, ∃ b, R a b := by
  induction as with
  | nil => simp
  | cons a as ih => simp [List.forall₂_cons_left_iff, ← ih]

theorem forall₂_join {as : List α} {bs : List β} {cs : List γ} (hab : List.Forall₂ R as bs)
    (hcb : List.Forall₂ S cs bs)
    (hjoin : ∀ a ∈ as, ∀ b ∈ bs, ∀ c ∈ cs, R a b → S c b → T a c) : List.Forall₂ T as cs := by
  induction hab generalizing cs with
  | nil =>
    cases hcb
    exact .nil
  | @cons a b as bs hab _ ih =>
    cases hcb with
    | @cons c _ cs _ hcb hrest =>
      have hlast := ih hrest fun a ha b hb c hc =>
        hjoin a (List.mem_cons_of_mem _ ha) b (List.mem_cons_of_mem _ hb) c
          (List.mem_cons_of_mem _ hc)
      exact .cons (hjoin a List.mem_cons_self b List.mem_cons_self c List.mem_cons_self hab hcb)
        hlast

end

/-! ## 2. The forms of items and entries -/

def IsField (entry : Value × Value) (field : String × Json) : Prop :=
  entry.1 = .str field.1 ∧ ofValue entry.2 = .ok field.2

theorem ofItems_eq_ok_iff {items : List Value} {forms : List Json} :
    ofItems items = .ok forms ↔
      List.Forall₂ (fun item form => ofValue item = .ok form) items forms := by
  induction items generalizing forms with
  | nil => simp [ofItems, eq_comm]
  | cons item rest ih =>
    simp only [ofItems, bind_eq_ok, ih, List.forall₂_cons_left_iff]
    constructor
    · rintro ⟨form, hform, rest, hrest, heq⟩
      cases heq
      exact ⟨form, rest, hform, hrest, rfl⟩
    · rintro ⟨form, rest, hform, hrest, rfl⟩
      exact ⟨form, hform, rest, hrest, rfl⟩

theorem ofEntries_eq_ok_iff {whole : Value} {entries : List (Value × Value)}
    {fields : List (String × Json)} :
    ofEntries whole entries = .ok fields ↔ List.Forall₂ IsField entries fields := by
  induction entries generalizing fields with
  | nil => simp [ofEntries, eq_comm]
  | cons entry rest ih =>
    obtain ⟨key, value⟩ := entry
    cases key with
    | str name =>
      simp only [ofEntries, bind_eq_ok, ih, List.forall₂_cons_left_iff]
      constructor
      · rintro ⟨form, hform, rest, hrest, heq⟩
        cases heq
        exact ⟨(name, form), rest, ⟨rfl, hform⟩, hrest, rfl⟩
      · rintro ⟨⟨name, form⟩, rest, ⟨hname, hform⟩, hrest, rfl⟩
        cases hname
        exact ⟨form, hform, rest, hrest, rfl⟩
    | _ =>
      -- No field has a key of another type.
      simp [ofEntries, List.forall₂_cons_left_iff, IsField]

theorem ofValue_list_eq_ok_iff {items : List Value} {j : Json} :
    ofValue (.list items) = .ok j ↔
      ∃ forms, List.Forall₂ (fun item form => ofValue item = .ok form) items forms ∧
        .array forms = j := by
  rw [ofValue, map_eq_ok]
  simp only [ofItems_eq_ok_iff]

theorem ofValue_map_eq_ok_iff {entries : List (Value × Value)} {j : Json} :
    ofValue (.map entries) = .ok j ↔
      ∃ fields, List.Forall₂ IsField entries fields ∧ ofFields fields = j := by
  rw [ofValue, map_eq_ok]
  simp only [ofEntries_eq_ok_iff]

/-- The values with a form are those made of what has one. -/
theorem exists_ofValue_iff (v : Value) : (∃ j, ofValue v = .ok j) ↔ v.HasForm := by
  induction v with
  | nil => exact ⟨fun _ => .nil, fun _ => ⟨_, rfl⟩⟩
  | bool b => exact ⟨fun _ => .bool b, fun _ => ⟨_, rfl⟩⟩
  | int n => exact ⟨fun _ => .int n, fun _ => ⟨_, rfl⟩⟩
  | str s => exact ⟨fun _ => .str s, fun _ => ⟨_, rfl⟩⟩
  | float x =>
    rw [ofValue]
    by_cases hfinite : x.isFinite = true
    · rw [if_pos hfinite]
      exact ⟨fun _ => .float hfinite, fun _ => ⟨_, rfl⟩⟩
    · rw [if_neg hfinite]
      refine ⟨by simp, fun h => ?_⟩
      cases h with
      | float hx => exact absurd hx hfinite
  | list items ih =>
    have hforms : (∃ j, ofValue (.list items) = .ok j) ↔
        ∀ item ∈ items, ∃ form, ofValue item = .ok form := by
      rw [← exists_forall₂_iff]
      simp [ofValue_list_eq_ok_iff]
    rw [hforms]
    constructor
    · exact fun h => .list fun item hmem => (ih item hmem).mp (h item hmem)
    · rintro (_ | _ | _ | _ | _ | hitems) item hmem
      exact (ih item hmem).mpr (hitems item hmem)
  | map entries ih =>
    have hforms : (∃ j, ofValue (.map entries) = .ok j) ↔
        ∀ entry ∈ entries, ∃ field, IsField entry field := by
      rw [← exists_forall₂_iff]
      simp [ofValue_map_eq_ok_iff]
    rw [hforms]
    constructor
    · intro h
      refine .map (fun entry hmem => ?_) fun entry hmem => ?_
      · obtain ⟨⟨name, form⟩, hname, -⟩ := h entry hmem
        exact ⟨name, hname⟩
      · obtain ⟨⟨name, form⟩, -, hform⟩ := h entry hmem
        exact (ih entry hmem).2.mp ⟨form, hform⟩
    · rintro (_ | _ | _ | _ | _ | _ | ⟨hkeys, hvalues⟩) entry hmem
      obtain ⟨name, hname⟩ := hkeys entry hmem
      obtain ⟨form, hform⟩ := (ih entry hmem).2.mpr (hvalues entry hmem)
      exact ⟨(name, form), hname, hform⟩
  | _ =>
    constructor
    · rintro ⟨form, h⟩
      cases h
    · intro h
      cases h

/-! ## 3. The fields of an object -/

abbrev Sorted (fields : List (String × Json)) : Prop := fields.Pairwise fun a b => a.1 < b.1

theorem insertField_perm {name : String} (value : Json) {fields : List (String × Json)}
    (h : ∀ field ∈ fields, field.1 ≠ name) :
    (insertField name value fields).Perm ((name, value) :: fields) := by
  induction fields with
  | nil => exact .refl _
  | cons first rest ih =>
    obtain ⟨known, old⟩ := first
    obtain ⟨hfirst, hrest⟩ := List.forall_mem_cons.mp h
    rw [insertField]
    split
    · exact .refl _
    · rw [if_neg (Ne.symm hfirst)]
      exact ((ih hrest).cons _).trans (.swap _ _ _)

theorem insertField_sorted {name : String} (value : Json) {fields : List (String × Json)}
    (h : ∀ field ∈ fields, field.1 ≠ name) (hsorted : Sorted fields) :
    Sorted (insertField name value fields) := by
  induction fields with
  | nil => exact List.pairwise_singleton _ _
  | cons first rest ih =>
    obtain ⟨known, old⟩ := first
    obtain ⟨hfirst, hrest⟩ := List.forall_mem_cons.mp h
    obtain ⟨hbelow, hsortedRest⟩ := List.pairwise_cons.mp hsorted
    rw [insertField]
    by_cases hbefore : name < known
    · rw [if_pos hbefore]
      refine List.pairwise_cons.mpr ⟨List.forall_mem_cons.mpr ⟨hbefore, ?_⟩, hsorted⟩
      exact fun field hmem => lt_trans hbefore (hbelow field hmem)
    · rw [if_neg hbefore, if_neg (Ne.symm hfirst)]
      refine List.pairwise_cons.mpr ⟨fun field hmem => ?_, ih hrest hsortedRest⟩
      rcases List.mem_cons.mp ((insertField_perm value hrest).mem_iff.mp hmem) with rfl | hmem
      · exact lt_of_le_of_ne (not_lt.mp hbefore) hfirst
      · exact hbelow field hmem

theorem foldl_insertField {fields done : List (String × Json)}
    (h : (done ++ fields).Pairwise fun a b => a.1 ≠ b.1) (hsorted : Sorted done) :
    let all := fields.foldl (fun found field => insertField field.1 field.2 found) done
    all.Perm (done ++ fields) ∧ Sorted all := by
  induction fields generalizing done with
  | nil => exact ⟨by simp, hsorted⟩
  | cons field rest ih =>
    have hnew : ∀ known ∈ done, known.1 ≠ field.1 := fun known hknown =>
      (List.pairwise_append.mp h).2.2 known hknown field List.mem_cons_self
    have hperm : (insertField field.1 field.2 done ++ rest).Perm (done ++ field :: rest) :=
      ((insertField_perm field.2 hnew).append_right rest).trans List.perm_middle.symm
    have hdiffer := hperm.symm.pairwise h fun h => h.symm
    obtain ⟨hall, hsortedAll⟩ := ih hdiffer (insertField_sorted field.2 hnew hsorted)
    exact ⟨hall.trans hperm, hsortedAll⟩

theorem exists_ofFields {fields : List (String × Json)}
    (h : fields.Pairwise fun a b => a.1 ≠ b.1) :
    ∃ all, ofFields fields = .object all ∧ all.Perm fields ∧ Sorted all := by
  have hdiffer : (([] : List (String × Json)) ++ fields).Pairwise fun a b => a.1 ≠ b.1 := h
  obtain ⟨hperm, hsorted⟩ := foldl_insertField hdiffer .nil
  exact ⟨_, rfl, hperm, hsorted⟩

theorem ofFields_eq_iff {fields others : List (String × Json)}
    (h : fields.Pairwise fun a b => a.1 ≠ b.1) (h' : others.Pairwise fun a b => a.1 ≠ b.1) :
    ofFields fields = ofFields others ↔ fields.Perm others := by
  obtain ⟨all, hall, hperm, hsorted⟩ := exists_ofFields h
  obtain ⟨all', hall', hperm', hsorted'⟩ := exists_ofFields h'
  rw [hall, hall', object.injEq]
  constructor
  · rintro rfl
    exact hperm.symm.trans hperm'
  · intro hfields
    refine (hperm.trans (hfields.trans hperm'.symm)).eq_of_pairwise ?_ hsorted hsorted'
    exact fun a b _ _ hab hba => absurd hab (lt_asymm hba)

theorem keys_eq {entries : List (Value × Value)} {fields : List (String × Json)}
    (h : List.Forall₂ IsField entries fields) :
    entries.map Prod.fst = fields.map (Value.str ·.1) := by
  rw [← List.forall₂_eq_eq_eq, List.forall₂_map_left_iff, List.forall₂_map_right_iff]
  exact h.imp fun _ _ hfield => hfield.1

theorem names_differ {entries : List (Value × Value)} {fields : List (String × Json)}
    (hdistinct : Entries.Distinct entries) (h : List.Forall₂ IsField entries fields) :
    fields.Pairwise fun a b => a.1 ≠ b.1 := by
  have hpairs : (entries.map Prod.fst).Pairwise fun a b => (a == b) = false :=
    List.pairwise_map.mpr hdistinct
  rw [keys_eq h, List.pairwise_map] at hpairs
  refine hpairs.imp fun {a b} hne heq => ?_
  have hself : (Value.str a.1 == Value.str b.1) = true := by
    rw [heq]
    exact beq_self_eq_true b.1
  rw [hself] at hne
  cases hne

/-! ## 4. Values with one form -/

def typeName : Json → TypeName
  | .null => .nil
  | .bool _ => .bool
  | .int _ => .int
  | .float _ => .float
  | .str _ => .str
  | .array _ => .list
  | .object _ => .map

theorem typeName_of_ofValue {v : Value} {j : Json} (h : ofValue v = .ok j) :
    v.typeName = j.typeName := by
  cases v with
  | float x =>
    rw [ofValue] at h
    split at h <;> cases h
    rfl
  | list items =>
    obtain ⟨_, -, rfl⟩ := ofValue_list_eq_ok_iff.mp h
    rfl
  | map entries =>
    obtain ⟨_, -, rfl⟩ := ofValue_map_eq_ok_iff.mp h
    rfl
  | _ => cases h <;> rfl

/-- Values with one form have one type. -/
theorem typeName_eq {v w : Value} {j : Json} (h : ofValue v = .ok j) (h' : ofValue w = .ok j) :
    v.typeName = w.typeName :=
  (typeName_of_ofValue h).trans (typeName_of_ofValue h').symm

theorem rearranged_of_ofValue_eq (v w : KeyedValue) {j : Json} (h : ofValue v = .ok j)
    (h' : ofValue w = .ok j) : v.val.Rearranged w := by
  obtain ⟨v, hv⟩ := v
  obtain ⟨w, hw⟩ := w
  dsimp only at h h' ⊢
  induction v generalizing w j with
  | nil | bool | int | str =>
    cases w <;> cases typeName_eq h h'
    cases h
    cases h'
    exact .refl _
  | float x =>
    cases w <;> cases typeName_eq h h'
    rw [ofValue] at h h'
    split at h <;> cases h
    split at h' <;> cases h'
    exact .refl _
  | list items ih =>
    cases w <;> cases typeName_eq h h'
    obtain ⟨forms, hforms, rfl⟩ := ofValue_list_eq_ok_iff.mp h
    obtain ⟨_, hothers, heq⟩ := ofValue_list_eq_ok_iff.mp h'
    cases heq
    refine .list (forall₂_join hforms hothers fun item hitem form _ other hother hi ho => ?_)
    exact ih item hitem (hv.of_list item hitem) hi other (hw.of_list other hother) ho
  | map entries ih =>
    cases w <;> cases typeName_eq h h'
    obtain ⟨fields, hfields, hj⟩ := ofValue_map_eq_ok_iff.mp h
    obtain ⟨fields', hothers, hj'⟩ := ofValue_map_eq_ok_iff.mp h'
    have hperm : fields.Perm fields' :=
      (ofFields_eq_iff (names_differ hv.distinct hfields) (names_differ hw.distinct hothers)).mp
        (hj.trans hj'.symm)
    -- The entries are brought into the order of the other ones.
    have hmoved : Relation.Comp (List.Forall₂ IsField) List.Perm entries fields' :=
      ⟨fields, hfields, hperm⟩
    rw [List.forall₂_comp_perm_eq_perm_comp_forall₂] at hmoved
    obtain ⟨between, hbetween, hforms⟩ := hmoved
    refine .map hbetween ((keys_eq hforms).trans (keys_eq hothers).symm) ?_
    rw [List.forall₂_map_left_iff, List.forall₂_map_right_iff]
    refine forall₂_join hforms hothers fun entry hentry _ _ other hother he ho => ?_
    have hmem := hbetween.mem_iff.mpr hentry
    exact (ih entry hmem).2 (hv.values entry hmem) he.2 other.2 (hw.values other hother) ho.2
  | _ => cases h

theorem ofValue_rearranged (v : KeyedValue) {w : Value} {j : Json} (h : ofValue v = .ok j)
    (hvw : v.val.Rearranged w) : ofValue w = .ok j := by
  obtain ⟨v, hv⟩ := v
  dsimp only at h hvw
  induction v generalizing w j with
  | list items ih =>
    cases hvw with
    | refl => exact h
    | @list _ others hitems =>
      obtain ⟨forms, hforms, rfl⟩ := ofValue_list_eq_ok_iff.mp h
      refine ofValue_list_eq_ok_iff.mpr ⟨forms, ?_, rfl⟩
      refine forall₂_join hitems.flip hforms.flip fun other _ item hitem form _ hr hi => ?_
      exact ih item hitem (hv.of_list item hitem) hi hr
  | map entries ih =>
    cases hvw with
    | refl => exact h
    | @map _ between others hbetween hkeys hvalues =>
      obtain ⟨fields, hfields, rfl⟩ := ofValue_map_eq_ok_iff.mp h
      obtain ⟨fields', hforms, hperm⟩ := List.perm_comp_forall₂ hbetween.symm hfields
      have hpairs : List.Forall₂ (fun a b => a.1 = b.1 ∧ a.2.Rearranged b.2) between others :=
        forall₂_pairs.mpr ⟨List.forall₂_eq_eq_eq ▸ hkeys, hvalues⟩
      have hothers : List.Forall₂ IsField others fields' := by
        refine forall₂_join hpairs.flip hforms.flip fun other _ entry hentry field _ hr he => ?_
        have hmem := hbetween.mem_iff.mpr hentry
        exact ⟨hr.1.symm.trans he.1, (ih entry hmem).2 (hv.values entry hmem) he.2 hr.2⟩
      have hdiffer := names_differ hv.distinct hfields
      have hdiffer' := hperm.symm.pairwise hdiffer fun h => h.symm
      exact ofValue_map_eq_ok_iff.mpr
        ⟨fields', hothers, (ofFields_eq_iff hdiffer' hdiffer).mpr hperm⟩
  | _ =>
    cases hvw
    exact h

/-- What has a JSON form, and what the form keeps.  The values with a form are those made of nil,
truth values, integers, finite floats, strings, lists and maps whose keys are strings.  Where the
keys of every map differ, as they do in what is built by insertion (`KeyedValue.map`) and in what
resolution gives (`KeyedValue.ofNormal`), nothing is lost but the order: two values have one form if
and only if they differ only in how the entries of their maps stand, and the object that a map
becomes has a field for each entry. -/
theorem ofValue_faithful :
    (∀ v, (∃ j, ofValue v = .ok j) ↔ v.HasForm) ∧
    (∀ (v w : KeyedValue) (j : Json), ofValue v = .ok j →
      (ofValue w = .ok j ↔ v.val.Rearranged w)) ∧
    ∀ (v : KeyedValue) (entries : List (Value × Value)), v.val = .map entries → ∀ j,
      ofValue v = .ok j → ∃ fields, j = .object fields ∧ fields.length = entries.length := by
  refine ⟨exists_ofValue_iff, fun v w j h => ?_, ?_⟩
  · exact ⟨rearranged_of_ofValue_eq v w h, ofValue_rearranged v h⟩
  · rintro ⟨_, hkeyed⟩ entries rfl j h
    obtain ⟨fields, hfields, rfl⟩ := ofValue_map_eq_ok_iff.mp h
    obtain ⟨all, hall, hperm, -⟩ := exists_ofFields (names_differ hkeyed.distinct hfields)
    exact ⟨all, hall, hperm.length_eq.trans hfields.length_eq.symm⟩

theorem ofValue_faithful_swapped :
    let v := Value.map [(.str "a", .int 1), (.str "b", .list [.nil])]
    let w := Value.map [(.str "b", .list [.nil]), (.str "a", .int 1)]
    let j := object [("a", .int 1), ("b", .array [.null])]
    v.Keyed ∧ w.Keyed ∧ ofValue v = .ok j ∧ ofValue w = .ok j ∧ v.Rearranged w := by
  let nil : KeyedValue := ⟨.nil, .other nofun nofun⟩
  let int : KeyedValue := ⟨.int 1, .other nofun nofun⟩
  let str (s : String) : KeyedValue := ⟨.str s, .other nofun nofun⟩
  let v : KeyedValue := .map [(str "a", int), (str "b", .list [nil])]
  let w : KeyedValue := .map [(str "b", .list [nil]), (str "a", int)]
  exact ⟨v.property, w.property, rfl, rfl, (ofValue_faithful.2.1 v w _ rfl).mp rfl⟩

end Json

end Deferral
