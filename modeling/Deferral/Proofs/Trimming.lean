import Deferral.Proofs.Scanning
import Mathlib.Data.List.Induction

/-!
# White space at the end of a text

No token ends in white space, and none can do without the characters in front of it.  So a text
without the white space at its end has the tokens that it has with it (`tokenize_trimBlankEnd`),
unless line breaks are cut off, which separate statements.
-/

namespace Deferral

/-! ## 1. White space -/

def Ranges.codes (ranges : Ranges) : List Nat :=
  ranges.flatMap fun range => List.range' range.1 (range.2 + 1 - range.1)

theorem Ranges.mem_codes {ranges : Ranges} {n : Nat} (h : ranges.contains n = true) :
    n ∈ ranges.codes := by
  induction ranges with
  | nil => cases h
  | cons range rest ih =>
    obtain ⟨first, last⟩ := range
    rw [codes, List.flatMap_cons, List.mem_append]
    rw [Ranges.contains] at h
    split at h
    · cases h
    · rcases Bool.or_eq_true_iff.mp h with hle | hrest
      · left
        rw [List.mem_range'_1]
        have hle := of_decide_eq_true hle
        omega
      · exact .inr (ih hrest)

theorem forall_blank {P : Char → Prop} (h : ∀ n ∈ blankRanges.codes, P (Char.ofNat n))
    {b : Char} (hb : isBlank b = true) : P b := by
  have hcode := h b.toNat (Ranges.mem_codes hb)
  rwa [Char.ofNat_toNat] at hcode

/-- White space is no part of a number, a name, or a mark, and nothing stands for it after a
backslash. -/
theorem blank_apart {b : Char} (hb : isBlank b = true) :
    isDigit b = false ∧ Lexer.isNameChar b = false ∧ Lexer.escapedChar? b = none ∧
      b ≠ '.' ∧ b ≠ '>' ∧ b ≠ '#' ∧ b ≠ '\\' ∧ b ≠ '"' ∧ b ≠ '\'' :=
  forall_blank (P := fun b => isDigit b = false ∧ Lexer.isNameChar b = false ∧
    Lexer.escapedChar? b = none ∧ b ≠ '.' ∧ b ≠ '>' ∧ b ≠ '#' ∧ b ≠ '\\' ∧ b ≠ '"' ∧ b ≠ '\'')
    (by decide +kernel) hb

namespace Lexer

/-! ## 2. One token -/

section
variable {p : Char → Bool} {b : Char} (hp : p b = false)
include hp

theorem takeWhile_append_blank (cs : List Char) : (cs ++ [b]).takeWhile p = cs.takeWhile p := by
  induction cs with
  | nil => simp [hp]
  | cons c cs ih => by_cases hc : p c <;> simp [hc, ih]

theorem dropWhile_append_blank (cs : List Char) :
    (cs ++ [b]).dropWhile p = cs.dropWhile p ++ [b] := by
  induction cs with
  | nil => simp [hp]
  | cons c cs ih => by_cases hc : p c <;> simp [hc, ih]

end

def Spares {α : Type} (read : List Char → Except SyntaxFault (α × List Char)) : Prop :=
  ∀ b, isBlank b = true → ∀ cs a after, read (cs ++ [b]) = .ok (a, after) →
    ∃ rest, after = rest ++ [b] ∧ read cs = .ok (a, rest)

theorem readNumber_spares {c : Char} (hc : isDigit c = true) :
    Spares fun rest => readNumber (c :: rest) := by
  intro b hb cs token after h
  obtain ⟨hdigit, -, -, hpoint, -⟩ := blank_apart hb
  simp only [readNumber, List.takeWhile_cons, List.dropWhile_cons, hc, if_true,
    takeWhile_append_blank hdigit, dropWhile_append_blank hdigit] at h ⊢
  generalize cs.dropWhile isDigit = rest at h ⊢
  by_cases hfraction : ∃ part, rest = '.' :: part
  · obtain ⟨part, rfl⟩ := hfraction
    simp only [List.cons_append, takeWhile_append_blank hdigit, dropWhile_append_blank hdigit] at h
    cases h
    exact ⟨_, rfl, rfl⟩
  · -- What follows a number without a point is no point either.
    have hother : ∀ part, rest ++ [b] ≠ '.' :: part := by
      intro part heq
      cases rest with
      | nil => exact hpoint (List.cons.inj heq).1
      | cons first rest => exact hfraction ⟨rest, by rw [(List.cons.inj heq).1]⟩
    split at h
    · rename_i part heq
      exact absurd heq (hother part)
    · split at h
      · cases h
        refine ⟨rest, rfl, ?_⟩
        split
        · exact absurd ⟨_, rfl⟩ hfraction
        · rfl
      · cases h

theorem readText_spares {quote : Char} (hquote : quote = '"' ∨ quote = '\'') :
    Spares (readText quote) := by
  intro b hb cs found after h
  obtain ⟨-, -, hescaped, -, -, -, hbackslash, hdouble, hsingle⟩ := blank_apart hb
  have hclosing : b ≠ quote := by
    rcases hquote with rfl | rfl
    · exact hdouble
    · exact hsingle
  fun_induction readText quote cs generalizing found with
  | case1 =>
    -- There is no closing quote.
    rw [List.nil_append, readText.eq_def] at h
    simp only [if_neg hbackslash, if_neg hclosing, readText] at h
    split at h <;> cases h
  | case2 =>
    rw [List.cons_append, List.nil_append, readText, hescaped] at h
    cases h
  | case3 mark rest hmark =>
    rw [List.cons_append, List.cons_append, readText, hmark] at h
    cases h
  | case4 mark rest c hc ih =>
    rw [List.cons_append, List.cons_append, readText, hc] at h
    obtain ⟨⟨found', after'⟩, hread, heq⟩ := Parser.map_eq_ok.mp h
    cases heq
    obtain ⟨rest', rfl, hrest⟩ := ih found' hread
    exact ⟨rest', rfl, by rw [hrest]; rfl⟩
  | case5 rest hescape =>
    rw [List.cons_append, readText.eq_def] at h
    simp only [hescape, if_false, if_true] at h
    cases h
  | case6 rest hescape hbreak =>
    rw [List.cons_append, readText.eq_def] at h
    simp only [hescape, hbreak, if_false, if_true] at h
    cases h
    exact ⟨rest, rfl, rfl⟩
  | case7 c rest hescape hbreak hother ih =>
    rw [List.cons_append, readText.eq_def] at h
    simp only [hescape, hbreak, hother, if_false] at h
    obtain ⟨⟨found', after'⟩, hread, heq⟩ := Parser.map_eq_ok.mp h
    cases heq
    obtain ⟨rest', rfl, hrest⟩ := ih found' hread
    exact ⟨rest', rfl, by rw [hrest]; rfl⟩

theorem readMark_spares (c : Char) : Spares (readMark c) := by
  intro b hb cs token after h
  obtain ⟨-, -, -, -, hangle, -⟩ := blank_apart hb
  unfold readMark at h ⊢
  split at h
  · rename_i rest heq
    cases cs with
    | nil => exact absurd (List.cons.inj heq).1 hangle
    | cons first cs =>
      obtain ⟨rfl, rfl⟩ := List.cons.inj heq
      cases h
      exact ⟨cs, rfl, rfl⟩
  · rename_i hmark
    split at h
    · rename_i found htoken
      cases h
      refine ⟨cs, rfl, ?_⟩
      split
      · cases htoken
      · rw [htoken]
    · cases h

theorem readToken_spares (c : Char) : Spares (readToken c) := by
  intro b hb cs token after h
  unfold readToken at h ⊢
  split at h
  · rename_i hdigit
    simp only [if_pos hdigit]
    exact readNumber_spares hdigit b hb cs token after h
  · rename_i hdigit
    simp only [if_neg hdigit]
    split at h
    · rename_i hquote
      obtain ⟨⟨found, after'⟩, hread, heq⟩ := Parser.map_eq_ok.mp h
      cases heq
      obtain ⟨rest, rfl, hrest⟩ := readText_spares hquote b hb cs found after hread
      refine ⟨rest, rfl, ?_⟩
      rw [if_pos hquote, hrest]
      rfl
    · rename_i hquote
      simp only [if_neg hquote]
      split at h
      · rename_i hname
        obtain ⟨-, hblank, -⟩ := blank_apart hb
        rw [takeWhile_append_blank hblank, dropWhile_append_blank hblank] at h
        cases h
        exact ⟨_, rfl, by rw [if_pos hname]⟩
      · rename_i hname
        simp only [if_neg hname]
        exact readMark_spares c b hb cs token after h

/-! ## 3. All tokens -/

/-- White space at the end belongs to the gap if there is no token after the gap. -/
theorem skipGap_append_blank {b : Char} (hb : isBlank b = true) (hbreak : b ≠ '\n')
    (cs : List Char) :
    skipGap (cs ++ [b]) = if skipGap cs = [] then [] else skipGap cs ++ [b] := by
  obtain ⟨-, -, -, -, -, hcomment, -⟩ := blank_apart hb
  have hgap : (b != '\n' && isBlank b) = true := by simp [hb, hbreak]
  have hskip : ∀ cs : List Char, skipBlanks (cs ++ [b]) =
      if skipBlanks cs = [] then [] else skipBlanks cs ++ [b] := by
    intro cs
    unfold skipBlanks
    rw [List.dropWhile_append]
    simp only [List.isEmpty_iff, List.dropWhile_cons, hgap, if_true, List.dropWhile_nil]
  unfold skipGap
  rw [hskip]
  cases hblanks : skipBlanks cs with
  | nil => rfl
  | cons c rest =>
    rw [if_neg (List.cons_ne_nil c rest), List.cons_append]
    by_cases hc : c = '#'
    · subst hc
      show (rest ++ [b]).dropWhile (· != '\n') = if rest.dropWhile (· != '\n') = [] then [] else
        rest.dropWhile (· != '\n') ++ [b]
      rw [List.dropWhile_append]
      simp [hbreak]
    · have hother : ∀ rest, skipComment (c :: rest) = c :: rest := by
        intro rest
        unfold skipComment
        split
        · rename_i heq
          exact absurd (List.cons.inj heq).1 hc
        · rfl
      rw [hother, hother, if_neg (List.cons_ne_nil c rest), List.cons_append]

theorem scanFrom_append_blank {b : Char} (hb : isBlank b = true) (hbreak : b ≠ '\n')
    {line depth : Nat} {cs : List Char} {tokens : Tokens}
    (h : scanFrom line depth (cs ++ [b]) = .ok tokens) : scanFrom line depth cs = .ok tokens := by
  refine scanFrom_induction (motive := fun line depth whole tokens =>
    ∀ cs, whole = cs ++ [b] → scanFrom line depth cs = .ok tokens) ?_ ?_ ?_ h cs rfl
  · rintro line depth _ hgap cs rfl
    rw [skipGap_append_blank hb hbreak] at hgap
    split at hgap
    · rename_i hnil
      exact scanFrom_end hnil
    · exact absurd hgap (by simp)
  · rintro line depth _ rest tokens hgap - ih cs rfl
    rw [skipGap_append_blank hb hbreak] at hgap
    split at hgap
    · cases hgap
    · cases hcs : skipGap cs with
      | nil => contradiction
      | cons c rest' =>
        rw [hcs] at hgap
        obtain ⟨rfl, rfl⟩ := List.cons.inj hgap
        rw [scanFrom_break hcs, ih rest' rfl]
        rfl
  · rintro line depth _ c rest token after tokens hgap hc hread - ih cs rfl
    rw [skipGap_append_blank hb hbreak] at hgap
    split at hgap
    · cases hgap
    · cases hcs : skipGap cs with
      | nil => contradiction
      | cons c' rest' =>
        rw [hcs] at hgap
        obtain ⟨rfl, rfl⟩ := List.cons.inj hgap
        obtain ⟨after', rfl, hread'⟩ := readToken_spares c' b hb rest' token after hread
        rw [scanFrom_token hcs hc, hread']
        dsimp only
        rw [ih after' rfl]
        rfl

end Lexer

theorem trimBlankEnd_append (cs : List Char) (c : Char) :
    trimBlankEnd (cs ++ [c]) = if isBlank c then trimBlankEnd cs else cs ++ [c] := by
  unfold trimBlankEnd
  rw [List.reverse_append, List.reverse_singleton, List.singleton_append, List.dropWhile_cons]
  split <;> simp

/-- A line without the white space at its end has the same tokens. -/
theorem tokenize_trimBlankEnd {cs : List Char} (hcs : '\n' ∉ cs) {tokens : Tokens}
    (h : tokenize (String.ofList cs) = .ok tokens) :
    tokenize (String.ofList (trimBlankEnd cs)) = .ok tokens := by
  unfold tokenize at h ⊢
  rw [String.toList_ofList] at h ⊢
  change Lexer.scanFrom 1 0 cs = .ok tokens at h
  change Lexer.scanFrom 1 0 (trimBlankEnd cs) = .ok tokens
  -- One character after the other is taken from the end.
  induction cs using List.reverseRecOn with
  | nil => exact h
  | append_singleton cs c ih =>
    rw [trimBlankEnd_append]
    split
    · rename_i hc
      have hbreak : c ≠ '\n' := by
        rintro rfl
        exact hcs (by simp)
      exact ih (fun hmem => hcs (List.mem_append_left _ hmem))
        (Lexer.scanFrom_append_blank hc hbreak h)
    · exact h

theorem parse_trimBlankEnd {cs : List Char} (hcs : '\n' ∉ cs) {statements : List Statement}
    (h : parse (String.ofList cs) = .ok statements) :
    parse (String.ofList (trimBlankEnd cs)) = .ok statements := by
  cases htokens : tokenize (String.ofList cs) with
  | error fault =>
    rw [parse, htokens] at h
    cases h
  | ok tokens =>
    rw [parse_eq htokens] at h
    rw [parse_eq (tokenize_trimBlankEnd hcs htokens), h]

end Deferral
