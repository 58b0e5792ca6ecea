import Deferral.Proofs.Scanning

/-!
# Brackets in balance

The tokens of what a parser reads close every bracket that they open, and no other, so as many
brackets are open after them as before (`parse_balanced`).
-/

namespace Deferral

def Balanced (list : List PlacedToken) : Prop := ∀ depth, depthAfterAll depth list = depth

theorem depthAfterAll_cons (depth : Nat) (placed : PlacedToken) (list : List PlacedToken) :
    depthAfterAll depth (placed :: list) =
      depthAfterAll (placed.token.depthAfter depth) list := rfl

theorem depthAfterAll_append (depth : Nat) (list others : List PlacedToken) :
    depthAfterAll depth (list ++ others) = depthAfterAll (depthAfterAll depth list) others :=
  List.foldl_append

def Token.isBracket : Token → Bool
  | .openParen | .openBracket | .openBrace | .closeParen | .closeBracket | .closeBrace => true
  | _ => false

namespace Balanced

variable {ts us : List PlacedToken} {placed : PlacedToken}

theorem nil : Balanced [] := fun _ => rfl

theorem append (h : Balanced ts) (h' : Balanced us) : Balanced (ts ++ us) := by
  intro depth
  rw [depthAfterAll_append, h, h']

theorem cons (hplaced : placed.token.isBracket = false) (h : Balanced ts) :
    Balanced (placed :: ts) := by
  intro depth
  have hsame : placed.token.depthAfter depth = depth := by
    cases htoken : placed.token <;> first | rfl | simp [Token.isBracket, htoken] at hplaced
  rw [depthAfterAll_cons, hsame, h]

/-- What is balanced stays so between an opening and a closing bracket. -/
theorem bracket {line line' : Nat} {opening closing : Token}
    (hopen : ∀ depth, opening.depthAfter depth = depth + 1)
    (hclose : ∀ depth, closing.depthAfter depth = depth - 1) (h : Balanced ts) :
    Balanced (⟨line, opening⟩ :: (ts ++ [⟨line', closing⟩])) := by
  intro depth
  rw [depthAfterAll_cons, depthAfterAll_append, hopen, h]
  exact hclose (depth + 1)

end Balanced

namespace Parser

open Grammar

/-! ## 1. Phrases -/

def Even {α : Type} (used : List PlacedToken) (_ : α) : Prop := Balanced used

variable {used : List PlacedToken}

theorem commas_balanced {α : Type} {item : List PlacedToken → α → Prop} {found : List α}
    (hitem : ∀ ts a, item ts a → Balanced ts) (h : Commas item used found) : Balanced used := by
  induction h with
  | nil => exact .nil
  | last ha => exact hitem _ _ ha
  | cons ha _ ih => exact (hitem _ _ ha).append (ih.cons rfl)

theorem entry_balanced {found : Tree × Tree} (h : Entry Even used found) : Balanced used := by
  obtain ⟨hkey, hvalue⟩ := h
  exact Balanced.append hkey (Balanced.cons rfl hvalue)

theorem keyword_balanced {found : String × Tree} (h : Keyword Even used found) :
    Balanced used := by
  obtain ⟨hvalue⟩ := h
  exact Balanced.cons rfl (Balanced.cons rfl hvalue)

theorem arguments_balanced {args : List Tree} {kwargs : List (String × Tree)}
    (h : Arguments Even used args kwargs) : Balanced used := by
  induction h with
  | keywords hkwargs _ => exact commas_balanced (fun _ _ => keyword_balanced) hkwargs
  | last harg => exact harg
  | cons harg _ ih => exact Balanced.append harg (ih.cons rfl)

theorem primary_balanced {t : Tree} (h : Primary Even used t) : Balanced used := by
  cases h with
  | parens ht => exact Balanced.bracket (fun _ => rfl) (fun _ => rfl) ht
  | list hitems =>
    exact (commas_balanced (fun _ _ h => h) hitems).bracket (fun _ => rfl) (fun _ => rfl)
  | map hentries =>
    exact (commas_balanced (fun _ _ => entry_balanced) hentries).bracket
      (fun _ => rfl) (fun _ => rfl)
  | _ => exact Balanced.nil.cons rfl

theorem postfixed_balanced {t : Tree} (h : Postfixed Even used t) : Balanced used := by
  induction h with
  | primary h => exact primary_balanced h
  | call _ hargs ih =>
    exact ih.append ((arguments_balanced hargs).bracket (fun _ => rfl) (fun _ => rfl))

theorem unary_balanced {t : Tree} (h : Unary Even used t) : Balanced used := by
  induction h with
  | literal => exact (Balanced.nil.cons rfl).cons rfl
  | negate _ _ ih => exact ih.cons rfl
  | postfixed h => exact postfixed_balanced h

theorem chain_balanced {operator? : Token → Option Operator}
    {operand : List PlacedToken → Tree → Prop} {t : Tree}
    (hmark : ∀ token operator, operator? token = some operator → token.isBracket = false)
    (hoperand : ∀ ts t, operand ts t → Balanced ts) (h : Chain operator? operand used t) :
    Balanced used := by
  induction h with
  | operand h => exact hoperand _ _ h
  | step _ hoperator hright ih =>
    exact ih.append ((hoperand _ _ hright).cons (hmark _ _ hoperator))

/-! ## 2. Expressions and statements -/

theorem expression_balanced (fuel room : Nat) : Reads (expression fuel room) Even := by
  induction fuel generalizing room with
  | zero =>
    intro tokens t rest h
    cases h
  | succ fuel ih =>
    intro tokens t rest h
    cases room with
    | zero => cases h
    | succ room =>
      rw [expression, bind_eq_ok] at h
      obtain ⟨⟨head, after⟩, hhead, h⟩ := h
      have hproduct : ∀ room, Reads (product (expression fuel) room)
          (Chain productOperator? (Unary Even)) := level_reads (unary_reads ih)
      obtain ⟨used, rfl, hused⟩ := level_reads hproduct room _ _ _ hhead
      have hbalanced : Balanced used := by
        refine chain_balanced ?_ (fun _ _ => chain_balanced ?_ fun _ _ => unary_balanced) hused
        · intro token operator hmark
          cases token <;> first | rfl | cases hmark
        · intro token operator hmark
          cases token <;> first | rfl | cases hmark
      dsimp only at h
      split at h
      · rename_i line others
        rw [bind_eq_ok] at h
        obtain ⟨⟨tail, last⟩, htail, h⟩ := h
        cases h
        obtain ⟨more, rfl, hmore⟩ := ih room _ _ _ htail
        exact ⟨used ++ ⟨line, .append⟩ :: more, by simp,
          hbalanced.append (Balanced.cons rfl hmore)⟩
      · cases h
        exact ⟨used, rfl, hbalanced⟩

theorem statement_balanced (line : Nat) : Reads (statement line) Even := by
  intro tokens s rest h
  unfold statement at h
  split at h
  all_goals
    rw [map_eq_ok] at h
    obtain ⟨⟨value, last⟩, hvalue, h⟩ := h
    cases h
    obtain ⟨used, rfl, hused⟩ := expression_balanced _ _ _ _ _ hvalue
  · exact ⟨_ :: _ :: used, rfl, Balanced.cons rfl (Balanced.cons rfl hused)⟩
  · exact ⟨used, rfl, hused⟩

theorem blank_balanced {ts : List PlacedToken} (h : Blank ts) : Balanced ts := by
  induction ts with
  | nil => exact .nil
  | cons placed rest ih =>
    have hplaced : placed.token.isBracket = false := by
      rw [h placed List.mem_cons_self]
      rfl
    exact (ih fun other hother => h other (List.mem_cons_of_mem placed hother)).cons hplaced

theorem statements_balanced {fuel : Nat} {tokens : List PlacedToken} {found : List Statement}
    (hfuel : tokens.length ≤ fuel) (h : statements fuel tokens = .ok found) : Balanced tokens := by
  induction fuel generalizing tokens found with
  | zero =>
    obtain rfl := List.length_eq_zero_iff.mp (Nat.le_zero.mp hfuel)
    exact .nil
  | succ fuel ih =>
    have hblank := blank_balanced (blank_takeWhile tokens)
    have hsplit : tokens.takeWhile _ ++ tokens.dropWhile _ = tokens :=
      List.takeWhile_append_dropWhile (p := fun placed => placed.token = .separator)
    have hle := (tokens.dropWhile_suffix fun placed => placed.token = .separator).length_le
    rw [statements] at h
    rw [← hsplit]
    refine hblank.append ?_
    split at h
    · rename_i hnone
      rw [hnone]
      exact .nil
    · rename_i first others hfirst
      rw [hfirst] at hle ⊢
      rw [bind_eq_ok] at h
      obtain ⟨⟨s, rest⟩, hs, h⟩ := h
      obtain ⟨used, heq, hused⟩ := statement_balanced _ _ _ _ hs
      obtain ⟨phrase, heq', hphrase⟩ := statement_reads hs
      obtain ⟨start, more, rfl, -⟩ := hphrase.begins
      rw [heq', List.length_append, List.length_cons] at hle
      rw [heq]
      refine hused.append ?_
      dsimp only at h
      split at h
      · exact .nil
      · rw [bind_eq_ok] at h
        obtain ⟨following, hfollowing, -⟩ := h
        exact ih (by omega) hfollowing
      · cases h

end Parser

/-- A text that is parsed closes all of its brackets. -/
theorem parse_balanced {source : String} {tokens : Tokens} {found : List Statement}
    (htokens : tokenize source = .ok tokens) (h : parse source = .ok found) :
    Balanced tokens.list := by
  rw [parse_eq htokens] at h
  split at h
  · exact Parser.statements_balanced (Nat.le_refl _) ‹_›
  · cases h

end Deferral
