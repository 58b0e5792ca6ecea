import Deferral.Proofs.ParserSoundness

/-!
# Texts that are scanned in pieces

No token and no comment goes on after the end of its line.  So the tokens of a text are those of a
text in front of one of its line breaks, and then those of what follows, which is scanned with the
brackets that are open there (`Lexer.scanFrom_append`).  Where the text begins only adds to the
lines of its tokens (`Lexer.scanFrom_shift`).
-/

namespace Deferral

/-! ## 1. Tokens further down -/

def PlacedToken.shift (n : Nat) (placed : PlacedToken) : PlacedToken :=
  ⟨placed.line + n, placed.token⟩

@[simp] theorem PlacedToken.shift_token (n : Nat) (placed : PlacedToken) :
    (placed.shift n).token = placed.token := rfl

def Tokens.shift (n : Nat) (tokens : Tokens) : Tokens :=
  ⟨tokens.list.map (.shift n), tokens.lastLine + n⟩

def Tokens.prepend (list : List PlacedToken) (following : Tokens) : Tokens :=
  ⟨list ++ following.list, following.lastLine⟩

def depthAfterAll (depth : Nat) (list : List PlacedToken) : Nat :=
  list.foldl (fun depth placed => placed.token.depthAfter depth) depth

namespace Lexer

/-! ## 2. Up to a line break -/

theorem dropWhile_append_break {p : Char → Bool} (hp : p '\n' = false) (cs more : List Char) :
    (cs ++ '\n' :: more).dropWhile p = cs.dropWhile p ++ '\n' :: more := by
  induction cs with
  | nil => simp [hp]
  | cons c cs ih => by_cases hc : p c <;> simp [hc, ih]

theorem takeWhile_append_break {p : Char → Bool} (hp : p '\n' = false) (cs more : List Char) :
    (cs ++ '\n' :: more).takeWhile p = cs.takeWhile p := by
  induction cs with
  | nil => simp [hp]
  | cons c cs ih => by_cases hc : p c <;> simp [hc, ih]

theorem dropWhile_used {p : Char → Bool} (hp : p '\n' = false) (cs : List Char) :
    ∃ used, cs = used ++ cs.dropWhile p ∧ '\n' ∉ used := by
  refine ⟨cs.takeWhile p, List.takeWhile_append_dropWhile.symm, fun hmem => ?_⟩
  rw [List.mem_takeWhile_imp hmem] at hp
  cases hp

theorem skipComment_append (cs more : List Char) :
    skipComment (cs ++ '\n' :: more) = skipComment cs ++ '\n' :: more := by
  unfold skipComment
  split
  · rename_i heq
    cases cs with
    | nil => cases heq
    | cons c cs =>
      cases heq
      exact dropWhile_append_break (by decide) cs more
  · rename_i hcomment
    split
    · exact absurd rfl (hcomment _)
    · rfl

theorem skipGap_append (cs more : List Char) :
    skipGap (cs ++ '\n' :: more) = skipGap cs ++ '\n' :: more := by
  rw [skipGap, skipBlanks, dropWhile_append_break (by decide), skipComment_append]
  rfl

theorem skipGap_used (cs : List Char) : ∃ used, cs = used ++ skipGap cs ∧ '\n' ∉ used := by
  obtain ⟨blanks, heq, hblanks⟩ :=
    dropWhile_used (p := fun c => c != '\n' && isBlank c) (by decide) cs
  change cs = blanks ++ skipBlanks cs at heq
  rw [skipGap]
  generalize skipBlanks cs = rest at heq
  unfold skipComment
  split
  · rename_i rest
    obtain ⟨comment, hrest, hcomment⟩ := dropWhile_used (p := (· != '\n')) (by decide) rest
    refine ⟨blanks ++ '#' :: comment, ?_, by simp [hblanks, hcomment]⟩
    rw [heq, List.append_assoc, List.cons_append, ← hrest]
  · exact ⟨blanks, heq, hblanks⟩

/-! ## 3. One token -/

/-- A reader that only looks at its line: it takes no line break, and what stands after the next one
does not matter to it. -/
def InLine {α : Type} (read : List Char → Except SyntaxFault (α × List Char)) : Prop :=
  ∀ cs a after, read cs = .ok (a, after) → (∃ used, cs = used ++ after ∧ '\n' ∉ used) ∧
    ∀ more, read (cs ++ '\n' :: more) = .ok (a, after ++ '\n' :: more)

theorem readNumber_inLine {c : Char} (hc : isDigit c = true) :
    InLine fun rest => readNumber (c :: rest) := by
  intro rest token after h
  have hdigit : isDigit '\n' = false := by decide
  simp only [readNumber, List.takeWhile_cons, List.dropWhile_cons, hc, if_true] at h ⊢
  obtain ⟨whole, hwhole, hfree⟩ := dropWhile_used hdigit rest
  simp only [takeWhile_append_break hdigit, dropWhile_append_break hdigit]
  split at h
  · rename_i part heq
    cases h
    obtain ⟨digits, hpart, hdigits⟩ := dropWhile_used hdigit part
    refine ⟨⟨whole ++ '.' :: digits, ?_, by simp [hfree, hdigits]⟩, fun more => ?_⟩
    · rw [hwhole, heq, List.append_assoc, List.cons_append, ← hpart]
    · rw [heq]
      simp only [List.cons_append, takeWhile_append_break hdigit, dropWhile_append_break hdigit]
  · rename_i hpoint
    split at h
    · rename_i n hn
      cases h
      refine ⟨⟨whole, hwhole, hfree⟩, fun more => ?_⟩
      split
      -- The break is not a point.
      · rename_i heq
        cases hrest : rest.dropWhile isDigit with
        | nil =>
          rw [hrest] at heq
          cases heq
        | cons c' rest' =>
          rw [hrest] at heq
          cases heq
          exact absurd hrest (hpoint rest')
      · rfl
    · cases h

theorem readText_inLine (quote : Char) : InLine (readText quote) := by
  intro cs found after h
  fun_induction readText quote cs generalizing found with
  | case1 | case2 | case3 | case5 => cases h
  | case4 mark rest c hc ih =>
    obtain ⟨⟨found', after'⟩, hread, heq⟩ := Parser.map_eq_ok.mp h
    cases heq
    obtain ⟨⟨used, rfl, hused⟩, hmore⟩ := ih found' hread
    refine ⟨⟨'\\' :: mark :: used, rfl, ?_⟩, fun more => ?_⟩
    · have hmark : mark ≠ '\n' := by
        rintro rfl
        cases hc
      simp [hused, hmark.symm]
    · rw [List.cons_append, List.cons_append, readText, hc]
      dsimp only
      rw [hmore more]
      rfl
  | case6 rest hescape hbreak =>
    cases h
    refine ⟨⟨[quote], rfl, by simpa using Ne.symm hbreak⟩, fun more => ?_⟩
    rw [List.cons_append, readText.eq_def]
    simp only [hescape, hbreak, if_false, if_true]
  | case7 c rest hescape hbreak hquote ih =>
    obtain ⟨⟨found', after'⟩, hread, heq⟩ := Parser.map_eq_ok.mp h
    cases heq
    obtain ⟨⟨used, rfl, hused⟩, hmore⟩ := ih found' hread
    refine ⟨⟨c :: used, rfl, by simp [hused, Ne.symm hbreak]⟩, fun more => ?_⟩
    rw [List.cons_append, readText.eq_def]
    simp only [hescape, hbreak, hquote, if_false]
    rw [hmore more]
    rfl

theorem readMark_inLine (c : Char) : InLine (readMark c) := by
  intro rest token after h
  unfold readMark at h
  split at h
  · cases h
    exact ⟨⟨['>'], rfl, by decide⟩, fun more => rfl⟩
  · rename_i hmark
    split at h
    · rename_i token' htoken
      cases h
      refine ⟨⟨[], rfl, List.not_mem_nil⟩, fun more => ?_⟩
      unfold readMark
      split
      -- One angle bracket is no token.
      · cases htoken
      · rw [htoken]
    · cases h

theorem readToken_inLine (c : Char) : InLine (readToken c) := by
  intro rest token after h
  unfold readToken at h ⊢
  split at h
  · rename_i hdigit
    simp only [if_pos hdigit]
    exact readNumber_inLine hdigit rest token after h
  · rename_i hdigit
    simp only [if_neg hdigit]
    split at h
    · rename_i hquote
      obtain ⟨⟨found, after'⟩, hread, heq⟩ := Parser.map_eq_ok.mp h
      cases heq
      obtain ⟨hused, hmore⟩ := readText_inLine c rest found after hread
      refine ⟨hused, fun more => ?_⟩
      rw [if_pos hquote, hmore more]
      rfl
    · rename_i hquote
      simp only [if_neg hquote]
      split at h
      · rename_i hname
        cases h
        have hbreak : isNameChar '\n' = false := by decide +kernel
        refine ⟨dropWhile_used hbreak rest, fun more => ?_⟩
        rw [if_pos hname, takeWhile_append_break hbreak, dropWhile_append_break hbreak]
      · rename_i hname
        simp only [if_neg hname]
        exact readMark_inLine c rest token after h

/-! ## 4. All tokens -/

def scanFrom (line depth : Nat) (cs : List Char) : Except SyntaxFailure Tokens :=
  scan cs.length line depth cs

theorem skipGap_length_le (cs : List Char) : (skipGap cs).length ≤ cs.length := by
  obtain ⟨used, heq, -⟩ := skipGap_used cs
  rw [congrArg List.length heq, List.length_append]
  exact Nat.le_add_left _ _

theorem readToken_length_le {c : Char} {rest after : List Char} {token : Token}
    (h : readToken c rest = .ok (token, after)) : after.length ≤ rest.length := by
  obtain ⟨⟨used, rfl, -⟩, -⟩ := readToken_inLine c rest token after h
  rw [List.length_append]
  exact Nat.le_add_left _ _

/-- More fuel than characters changes nothing. -/
theorem scan_eq_scanFrom {fuel line depth : Nat} {cs : List Char} (hfuel : cs.length ≤ fuel) :
    scan fuel line depth cs = scanFrom line depth cs := by
  -- By induction on the fuel of either side: each round leaves fewer characters than it found.
  have hsame : ∀ (m n line depth : Nat) (cs : List Char), cs.length ≤ m → cs.length ≤ n →
      scan m line depth cs = scan n line depth cs := by
    intro m
    induction m with
    | zero =>
      intro n line depth cs hm hn
      obtain rfl := List.length_eq_zero_iff.mp (Nat.le_zero.mp hm)
      cases n <;> rfl
    | succ m ih =>
      intro n line depth cs hm hn
      cases n with
      | zero =>
        obtain rfl := List.length_eq_zero_iff.mp (Nat.le_zero.mp hn)
        rfl
      | succ n =>
        have hgap := skipGap_length_le cs
        rw [scan, scan]
        split
        · rfl
        · rename_i rest heq
          rw [heq, List.length_cons] at hgap
          rw [ih n (line + 1) depth rest (by omega) (by omega)]
        · rename_i c rest _ heq
          rw [heq, List.length_cons] at hgap
          split
          · rfl
          · rename_i token after hread
            have hlength := readToken_length_le hread
            rw [ih n line _ after (by omega) (by omega)]
  exact hsame _ _ line depth cs hfuel (Nat.le_refl _)

section
variable {line depth : Nat} {cs rest : List Char}

theorem scanFrom_end (h : skipGap cs = []) : scanFrom line depth cs = .ok ⟨[], line⟩ := by
  rw [← scan_eq_scanFrom (Nat.le_succ _), scan, h]

theorem scanFrom_break (h : skipGap cs = '\n' :: rest) :
    scanFrom line depth cs = (scanFrom (line + 1) depth rest).map fun following =>
      if depth = 0 then following.cons ⟨line, .separator⟩ else following := by
  have hlength := skipGap_length_le cs
  rw [h, List.length_cons] at hlength
  rw [← scan_eq_scanFrom (Nat.le_succ _), scan, h]
  change (scan cs.length (line + 1) depth rest).map _ = _
  rw [scan_eq_scanFrom (by omega)]

theorem scanFrom_token {c : Char} (h : skipGap cs = c :: rest) (hc : c ≠ '\n') :
    scanFrom line depth cs =
      match readToken c rest with
      | .error fault => .error ⟨line, fault⟩
      | .ok (token, after) =>
        (scanFrom line (token.depthAfter depth) after).map (·.cons ⟨line, token⟩) := by
  have hlength := skipGap_length_le cs
  rw [h, List.length_cons] at hlength
  rw [← scan_eq_scanFrom (Nat.le_succ _), scan, h]
  split
  · contradiction
  · rename_i heq
    exact absurd (List.head_eq_of_cons_eq heq) hc
  · rename_i heq
    cases heq
    cases hread : readToken c rest with
    | error fault => rfl
    | ok result =>
      obtain ⟨token, after⟩ := result
      have hafter := readToken_length_le hread
      dsimp only
      rw [scan_eq_scanFrom (by omega)]

end

/-- How a text that has tokens begins: it ends after its gap, or there is a line break or a token
and the rest of the text. -/
theorem scanFrom_induction {motive : Nat → Nat → List Char → Tokens → Prop}
    (nil : ∀ line depth cs, skipGap cs = [] → motive line depth cs ⟨[], line⟩)
    (lineBreak : ∀ line depth cs rest tokens, skipGap cs = '\n' :: rest →
      scanFrom (line + 1) depth rest = .ok tokens → motive (line + 1) depth rest tokens →
        motive line depth cs (if depth = 0 then tokens.cons ⟨line, .separator⟩ else tokens))
    (token : ∀ line depth cs c rest token after tokens, skipGap cs = c :: rest → c ≠ '\n' →
      readToken c rest = .ok (token, after) →
      scanFrom line (token.depthAfter depth) after = .ok tokens →
      motive line (token.depthAfter depth) after tokens →
        motive line depth cs (tokens.cons ⟨line, token⟩))
    {line depth : Nat} {cs : List Char} {tokens : Tokens}
    (h : scanFrom line depth cs = .ok tokens) : motive line depth cs tokens := by
  induction hsize : cs.length using Nat.strong_induction_on generalizing line depth cs tokens with
  | _ size ih =>
    have hlength := skipGap_length_le cs
    cases hgap : skipGap cs with
    | nil =>
      rw [scanFrom_end hgap] at h
      cases h
      exact nil line depth cs hgap
    | cons c rest =>
      rw [hgap, List.length_cons] at hlength
      by_cases hc : c = '\n'
      · subst hc
        rw [scanFrom_break hgap] at h
        obtain ⟨following, hfollowing, rfl⟩ := Parser.map_eq_ok.mp h
        exact lineBreak line depth cs rest following hgap hfollowing
          (ih rest.length (by omega) hfollowing rfl)
      · rw [scanFrom_token hgap hc] at h
        split at h
        · cases h
        · rename_i found after hread
          obtain ⟨following, hfollowing, rfl⟩ := Parser.map_eq_ok.mp h
          have hafter := readToken_length_le hread
          exact token line depth cs c rest found after following hgap hc hread hfollowing
            (ih after.length (by omega) hfollowing rfl)

section
variable {line depth : Nat} {cs : List Char} {tokens : Tokens}

theorem scanFrom_append (h : scanFrom line depth cs = .ok tokens) (more : List Char) :
    scanFrom line depth (cs ++ '\n' :: more) =
      (scanFrom tokens.lastLine (depthAfterAll depth tokens.list) ('\n' :: more)).map
        (.prepend tokens.list) := by
  refine scanFrom_induction (motive := fun line depth cs tokens =>
    scanFrom line depth (cs ++ '\n' :: more) =
      (scanFrom tokens.lastLine (depthAfterAll depth tokens.list) ('\n' :: more)).map
        (.prepend tokens.list)) ?_ ?_ ?_ h
  · intro line depth cs hgap
    have hnext : skipGap (cs ++ '\n' :: more) = '\n' :: more := by
      rw [skipGap_append, hgap]
      rfl
    have hbreak : skipGap ('\n' :: more) = '\n' :: more := skipGap_append [] more
    rw [scanFrom_break hnext]
    change _ = (scanFrom line depth ('\n' :: more)).map _
    rw [scanFrom_break hbreak]
    cases scanFrom (line + 1) depth more <;> rfl
  · intro line depth cs rest following hgap _ ih
    have hnext : skipGap (cs ++ '\n' :: more) = '\n' :: (rest ++ '\n' :: more) := by
      rw [skipGap_append, hgap, List.cons_append]
    rw [scanFrom_break hnext, ih]
    -- The separator of the break leaves as many brackets open as there were.
    by_cases hdepth : depth = 0
    · subst hdepth
      simp only [if_true]
      change _ = (scanFrom following.lastLine (depthAfterAll 0 following.list) _).map _
      cases scanFrom following.lastLine (depthAfterAll 0 following.list) ('\n' :: more) <;> rfl
    · simp only [if_neg hdepth]
      cases scanFrom following.lastLine (depthAfterAll depth following.list) ('\n' :: more) <;> rfl
  · intro line depth cs c rest token after following hgap hc hread _ ih
    have hnext : skipGap (cs ++ '\n' :: more) = c :: (rest ++ '\n' :: more) := by
      rw [skipGap_append, hgap, List.cons_append]
    obtain ⟨-, hmore⟩ := readToken_inLine c rest token after hread
    rw [scanFrom_token hnext hc, hmore more]
    dsimp only
    rw [ih]
    change _ = (scanFrom following.lastLine
      (depthAfterAll (token.depthAfter depth) following.list) _).map _
    cases scanFrom following.lastLine _ ('\n' :: more) <;> rfl

/-- Every line break of a text is counted. -/
theorem scanFrom_lastLine (h : scanFrom line depth cs = .ok tokens) :
    tokens.lastLine = line + cs.count '\n' := by
  have hcount : ∀ cs : List Char, cs.count '\n' = (skipGap cs).count '\n' := by
    intro cs
    obtain ⟨used, heq, hused⟩ := skipGap_used cs
    rw [congrArg (List.count '\n') heq, List.count_append, List.count_eq_zero.mpr hused,
      Nat.zero_add]
  refine scanFrom_induction (motive := fun line _ cs tokens =>
    tokens.lastLine = line + cs.count '\n') ?_ ?_ ?_ h
  · intro line depth cs hgap
    rw [hcount, hgap]
    rfl
  · intro line depth cs rest following hgap _ ih
    have hsame : (if depth = 0 then following.cons ⟨line, .separator⟩ else following).lastLine =
        following.lastLine := by
      split <;> rfl
    rw [hsame, ih, hcount cs, hgap, List.count_cons_self]
    omega
  · intro line depth cs c rest token after following hgap hc hread _ ih
    obtain ⟨⟨used, rfl, hused⟩, -⟩ := readToken_inLine c rest token after hread
    change following.lastLine = _
    rw [ih, hcount cs, hgap, List.count_cons_of_ne hc, List.count_append,
      List.count_eq_zero.mpr hused, Nat.zero_add]

theorem scanFrom_shift (h : scanFrom line depth cs = .ok tokens) (n : Nat) :
    scanFrom (line + n) depth cs = .ok (tokens.shift n) := by
  refine scanFrom_induction (motive := fun line depth cs tokens =>
    scanFrom (line + n) depth cs = .ok (tokens.shift n)) ?_ ?_ ?_ h
  · intro line depth cs hgap
    exact scanFrom_end hgap
  · intro line depth cs rest following hgap _ ih
    rw [scanFrom_break hgap, Nat.add_right_comm, ih]
    by_cases hdepth : depth = 0
    · rw [if_pos hdepth]
      simp only [hdepth, if_true]
      rfl
    · rw [if_neg hdepth]
      simp only [hdepth, if_false]
      rfl
  · intro line depth cs c rest token after following hgap hc hread _ ih
    rw [scanFrom_token hgap hc, hread]
    dsimp only
    rw [ih]
    rfl

end

end Lexer

theorem tokenize_append {first second : String} {tokens others : Tokens}
    (h : tokenize first = .ok tokens) (h' : tokenize second = .ok others)
    (hdepth : depthAfterAll 0 tokens.list = 0) :
    let n := 1 + first.toList.count '\n'
    tokenize (first ++ "\n" ++ second) =
      .ok (((others.shift n).cons ⟨n, .separator⟩).prepend tokens.list) := by
  intro n
  have hlist : (first ++ "\n" ++ second).toList = first.toList ++ '\n' :: second.toList := by
    simp
  have hlast : tokens.lastLine = n := Lexer.scanFrom_lastLine h
  have hbreak : Lexer.skipGap ('\n' :: second.toList) = '\n' :: second.toList :=
    Lexer.skipGap_append [] second.toList
  have hothers : Lexer.scanFrom (n + 1) 0 second.toList = .ok (others.shift n) := by
    rw [Nat.add_comm n 1]
    exact Lexer.scanFrom_shift h' n
  unfold tokenize
  rw [hlist]
  change Lexer.scanFrom 1 0 _ = _
  rw [Lexer.scanFrom_append h, hlast, hdepth, Lexer.scanFrom_break hbreak, hothers]
  rfl

end Deferral
