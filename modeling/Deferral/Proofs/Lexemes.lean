import Deferral.Proofs.SourceTokens

/-!
# Lexemes

A source text that has tokens is gap, lexeme, gap, lexeme and so on up to a last gap, with one
lexeme for each token (`tokenize_splits`).  A gap holds nothing that matters, a lexeme is read as
its token without the text around it, and the lines of tokens are those of their lexemes.
-/

namespace Deferral

/-! ## 1. Gaps and lexemes -/

/-- White space, comments, and line breaks inside brackets, with the text that comes after them.  A
comment goes on to the next line break or to the end of the text. -/
inductive Gap (depth : Nat) : (gap after : List Char) → Prop
  | nil {after} : Gap depth [] after
  | blank {c gap after} : isBlank c = true → c ≠ '\n' → Gap depth gap after →
      Gap depth (c :: gap) after
  | lineBreak {gap after} : 0 < depth → Gap depth gap after → Gap depth ('\n' :: gap) after
  | comment {text gap after} : '\n' ∉ text → (∀ c ∈ (gap ++ after).head?, c = '\n') →
      Gap depth gap after → Gap depth ('#' :: (text ++ gap)) after

theorem Gap.blanks {depth : Nat} {blanks gap after : List Char}
    (hblanks : ∀ c ∈ blanks, (c != '\n' && isBlank c) = true) (h : Gap depth gap after) :
    Gap depth (blanks ++ gap) after := by
  induction blanks with
  | nil => exact h
  | cons c blanks ih =>
    obtain ⟨hc, hrest⟩ := List.forall_mem_cons.mp hblanks
    rw [Bool.and_eq_true, bne_iff_ne] at hc
    exact .blank hc.2 hc.1 (ih hrest)

def BeginsWithQuote (cs : List Char) : Prop := ∃ c ∈ cs.head?, c = '"' ∨ c = '\''

/-- The characters of a token: a line break outside all brackets, or part of a line that is this
token by itself.  Tokens in quotes are strings, and no others are. -/
inductive IsLexeme (depth : Nat) (lexeme : List Char) (token : Token) : Prop
  | lineBreak : depth = 0 → lexeme = ['\n'] → token = .separator → IsLexeme depth lexeme token
  | word : '\n' ∉ lexeme → tokenize (String.ofList lexeme) = .ok ⟨[⟨1, token⟩], 1⟩ →
      (BeginsWithQuote lexeme ↔ ∃ s, token = .text s) → IsLexeme depth lexeme token

structure Piece where
  lexeme : List Char
  placed : PlacedToken
  gap : List Char

def Piece.textOf (pieces : List Piece) : List Char :=
  pieces.flatMap fun piece => piece.lexeme ++ piece.gap

/-- A source text and its tokens, split into a first gap and pieces. -/
structure Splits (source : List Char) (tokens : Tokens) (gap : List Char)
    (pieces : List Piece) : Prop where
  source_eq : source = gap ++ Piece.textOf pieces
  tokens_eq : tokens.list = pieces.map Piece.placed
  lastLine : tokens.lastLine = 1 + source.count '\n'
  firstGap : Gap 0 gap (Piece.textOf pieces)
  piece : ∀ before piece after, pieces = before ++ piece :: after →
    let depth := depthAfterAll 0 (before.map Piece.placed)
    piece.placed.line = 1 + (gap ++ Piece.textOf before).count '\n' ∧
      IsLexeme depth piece.lexeme piece.placed.token ∧
      Gap (piece.placed.token.depthAfter depth) piece.gap (Piece.textOf after)
  /-- No token is on a line above the one before it, or below the last line. -/
  ordered : tokens.list.Pairwise (fun a b => a.line ≤ b.line) ∧
    ∀ placed ∈ tokens.list, placed.line ≤ tokens.lastLine

namespace Lexer

/-! ## 2. Without the text behind -/

def ReadsAlone {α : Type} (read : List Char → Except SyntaxFault (α × List Char)) : Prop :=
  ∀ cs a after, read cs = .ok (a, after) → ∃ used, cs = used ++ after ∧ read used = .ok (a, [])

theorem takeWhile_alone (p : Char → Bool) (cs : List Char) :
    (cs.takeWhile p).takeWhile p = cs.takeWhile p ∧ (cs.takeWhile p).dropWhile p = [] := by
  have halone : (cs.takeWhile p ++ []).takeWhile p = cs.takeWhile p ∧
      (cs.takeWhile p ++ []).dropWhile p = [] :=
    run_append (fun _ hc => List.mem_takeWhile_imp hc) (by simp)
  rwa [List.append_nil] at halone

theorem readNumber_alone {c : Char} (hc : isDigit c = true) :
    ReadsAlone fun rest => readNumber (c :: rest) := by
  intro rest token after h
  simp only [readNumber, List.takeWhile_cons, List.dropWhile_cons, hc, if_true] at h ⊢
  have hrest : rest = rest.takeWhile isDigit ++ rest.dropWhile isDigit :=
    List.takeWhile_append_dropWhile.symm
  split at h
  · rename_i part heq
    cases h
    have hpart : part = part.takeWhile isDigit ++ part.dropWhile isDigit :=
      List.takeWhile_append_dropWhile.symm
    -- The digits in front of the point end there.
    have hstop : ∀ c ∈ ('.' :: part.takeWhile isDigit).head?, isDigit c = false := by
      rintro c ⟨⟩
      decide
    obtain ⟨hwhole, hpoint⟩ :=
      run_append (fun _ hd => List.mem_takeWhile_imp (l := rest) hd) hstop
    obtain ⟨hdigits, hend⟩ := takeWhile_alone isDigit part
    refine ⟨rest.takeWhile isDigit ++ '.' :: part.takeWhile isDigit, ?_, ?_⟩
    · rw [List.append_assoc, List.cons_append, ← hpart, ← heq]
      exact hrest
    · rw [hwhole, hpoint]
      simp only [hdigits, hend]
  · split at h
    · rename_i n hn
      cases h
      obtain ⟨hwhole, hend⟩ := takeWhile_alone isDigit rest
      refine ⟨rest.takeWhile isDigit, hrest, ?_⟩
      rw [hwhole, hend]
      simp only [hn]
    · cases h

theorem readText_alone (quote : Char) : ReadsAlone (readText quote) := by
  intro cs found after h
  fun_induction readText quote cs generalizing found with
  | case1 | case2 | case3 | case5 => cases h
  | case4 mark rest c hc ih =>
    obtain ⟨⟨found', after'⟩, hread, heq⟩ := Parser.map_eq_ok.mp h
    cases heq
    obtain ⟨used, rfl, halone⟩ := ih found' hread
    refine ⟨'\\' :: mark :: used, rfl, ?_⟩
    rw [readText, hc]
    dsimp only
    rw [halone]
    rfl
  | case6 rest hescape hbreak =>
    cases h
    refine ⟨[quote], rfl, ?_⟩
    rw [readText.eq_def]
    simp only [hescape, hbreak, if_false, if_true]
  | case7 c rest hescape hbreak hquote ih =>
    obtain ⟨⟨found', after'⟩, hread, heq⟩ := Parser.map_eq_ok.mp h
    cases heq
    obtain ⟨used, rfl, halone⟩ := ih found' hread
    refine ⟨c :: used, rfl, ?_⟩
    rw [readText.eq_def]
    simp only [hescape, hbreak, hquote, if_false]
    rw [halone]
    rfl

theorem readMark_alone (c : Char) : ReadsAlone (readMark c) := by
  intro rest token after h
  unfold readMark at h
  split at h
  · cases h
    exact ⟨['>'], rfl, rfl⟩
  · split at h
    · rename_i token' htoken
      cases h
      refine ⟨[], rfl, ?_⟩
      rw [readMark, htoken]
      rintro rest' - heq
      cases heq
    · cases h

theorem readToken_alone (c : Char) : ReadsAlone (readToken c) := by
  intro rest token after h
  unfold readToken at h ⊢
  split at h
  · rename_i hdigit
    simp only [if_pos hdigit]
    exact readNumber_alone hdigit rest token after h
  · rename_i hdigit
    simp only [if_neg hdigit]
    split at h
    · rename_i hquote
      obtain ⟨⟨found, after'⟩, hread, heq⟩ := Parser.map_eq_ok.mp h
      cases heq
      obtain ⟨used, hused, halone⟩ := readText_alone c rest found after hread
      refine ⟨used, hused, ?_⟩
      rw [if_pos hquote, halone]
      rfl
    · rename_i hquote
      simp only [if_neg hquote]
      split at h
      · rename_i hname
        cases h
        obtain ⟨hword, hend⟩ := takeWhile_alone isNameChar rest
        refine ⟨rest.takeWhile isNameChar, List.takeWhile_append_dropWhile.symm, ?_⟩
        rw [if_pos hname, hword, hend]
      · rename_i hname
        simp only [if_neg hname]
        exact readMark_alone c rest token after h

/-! ## 3. Gaps -/

theorem dropWhile_head? (p : Char → Bool) (cs : List Char) :
    ∀ c ∈ (cs.dropWhile p).head?, p c = false := by
  intro c hc
  have hstop := List.head?_dropWhile_not p cs
  rw [Option.mem_def.mp hc] at hstop
  exact hstop

/-- A token begins neither with a blank nor with a comment. -/
theorem blank_comment_of_skipGap {cs rest : List Char} {c : Char} (h : skipGap cs = c :: rest)
    (hc : c ≠ '\n') : isBlank c = false ∧ c ≠ '#' := by
  unfold skipGap skipComment at h
  split at h
  -- A comment stops at a line break only.
  · have hstop := dropWhile_head? (· != '\n') _ c (by rw [h]; rfl)
    exact absurd (by simpa using hstop) hc
  · rename_i hcomment
    have hstop : (c != '\n' && isBlank c) = false :=
      dropWhile_head? _ cs c (by rw [← skipBlanks, h]; rfl)
    refine ⟨by simpa [hc] using hstop, ?_⟩
    rintro rfl
    exact hcomment rest h

theorem skipGap_gap (cs : List Char) : ∃ used, cs = used ++ skipGap cs ∧ '\n' ∉ used ∧
    ∀ depth gap after, skipGap cs = gap ++ after → Gap depth gap after →
      Gap depth (used ++ gap) after := by
  have hblanks : ∀ c ∈ cs.takeWhile (fun c => c != '\n' && isBlank c),
      (c != '\n' && isBlank c) = true := fun c hc =>
    List.mem_takeWhile_imp (p := fun c => c != '\n' && isBlank c) hc
  have hbreak : '\n' ∉ cs.takeWhile fun c => c != '\n' && isBlank c :=
    fun hmem => absurd (hblanks _ hmem) (by decide)
  have hcs : cs = cs.takeWhile (fun c => c != '\n' && isBlank c) ++ skipBlanks cs :=
    List.takeWhile_append_dropWhile.symm
  generalize cs.takeWhile (fun c => c != '\n' && isBlank c) = blanks at hblanks hbreak hcs
  rw [skipGap]
  generalize skipBlanks cs = found at hcs
  unfold skipComment
  split
  · rename_i rest
    obtain ⟨text, hrest, htext⟩ := dropWhile_used (p := (· != '\n')) (by decide) rest
    refine ⟨blanks ++ '#' :: text, ?_, by simp [hbreak, htext], fun depth gap after hgap h => ?_⟩
    · rw [hcs, List.append_assoc, List.cons_append, ← hrest]
    · rw [List.append_assoc]
      refine .blanks hblanks (.comment htext (fun c hc => ?_) h)
      rw [← hgap] at hc
      simpa using dropWhile_head? _ rest c hc
  · exact ⟨blanks, hcs, hbreak, fun depth gap after _ h => .blanks hblanks h⟩

/-! ## 4. One lexeme -/

theorem readToken_text_iff {c : Char} {rest after : List Char} {token : Token}
    (h : readToken c rest = .ok (token, after)) :
    (c = '"' ∨ c = '\'') ↔ ∃ s, token = .text s := by
  have hother : hasText token = false → ¬ ∃ s, token = .text s := by
    rintro htext ⟨s, rfl⟩
    cases htext
  unfold readToken at h
  split at h
  · rename_i hdigit
    have hquote : ¬ (c = '"' ∨ c = '\'') := by
      rintro (rfl | rfl) <;> exact absurd hdigit (by decide)
    exact iff_of_false hquote (hother (readNumber_hasText h))
  · split at h
    · rename_i hquote
      obtain ⟨⟨found, after'⟩, -, heq⟩ := Parser.map_eq_ok.mp h
      cases heq
      exact iff_of_true hquote ⟨_, rfl⟩
    · rename_i hquote
      split at h
      · cases h
        exact iff_of_false hquote (by simp)
      · exact iff_of_false hquote (hother (readMark_hasText h))

/-- A token without the text around it is read as this token. -/
theorem isLexeme_of_read {cs : List Char} {c : Char} {rest used after : List Char} {token : Token}
    (depth : Nat) (hgap : skipGap cs = c :: rest) (hc : c ≠ '\n')
    (hread : readToken c rest = .ok (token, after)) (hrest : rest = used ++ after) :
    IsLexeme depth (c :: used) token := by
  obtain ⟨⟨inLine, hinLine, hfree⟩, -⟩ := readToken_inLine c rest token after hread
  obtain ⟨alone, halone, hreadAlone⟩ := readToken_alone c rest token after hread
  -- What the reader took is one text, whatever is known of it.
  obtain rfl := List.append_cancel_right (hinLine.symm.trans hrest)
  obtain rfl := List.append_cancel_right (halone.symm.trans hrest)
  obtain ⟨hblank, hcomment⟩ := blank_comment_of_skipGap hgap hc
  refine .word (by simp [hfree, hc.symm]) ?_ ?_
  · unfold tokenize
    rw [String.toList_ofList]
    change scanFrom 1 0 (c :: alone) = _
    rw [scanFrom_token (skipGap_cons hblank hcomment alone) hc, hreadAlone]
    rfl
  · simpa [BeginsWithQuote] using readToken_text_iff hread

/-! ## 5. All lexemes -/

inductive Follows : (line depth : Nat) → List Char → List Piece → Prop
  | last {line depth gap} : Gap depth gap [] → Follows line depth gap []
  | piece {line depth gap piece pieces} :
      Gap depth gap (piece.lexeme ++ (piece.gap ++ Piece.textOf pieces)) →
      piece.placed.line = line + gap.count '\n' →
      IsLexeme depth piece.lexeme piece.placed.token →
      Follows (line + gap.count '\n' + piece.lexeme.count '\n')
        (piece.placed.token.depthAfter depth) piece.gap pieces →
      Follows line depth gap (piece :: pieces)

theorem textOf_cons (piece : Piece) (pieces : List Piece) :
    Piece.textOf (piece :: pieces) = piece.lexeme ++ (piece.gap ++ Piece.textOf pieces) := by
  rw [Piece.textOf, List.flatMap_cons, List.append_assoc]
  rfl

namespace Follows

variable {line line' depth : Nat} {gap used : List Char} {pieces : List Piece}

theorem gap_textOf (h : Follows line depth gap pieces) : Gap depth gap (Piece.textOf pieces) := by
  cases h with
  | last h => exact h
  | piece h => rwa [textOf_cons]

/-- Where the first gap begins further up, nothing changes but the gap. -/
theorem extend (h : Follows line depth gap pieces) (hline : line = line' + used.count '\n')
    (hused : Gap depth (used ++ gap) (Piece.textOf pieces)) :
    Follows line' depth (used ++ gap) pieces := by
  subst hline
  cases h with
  | last h => exact .last hused
  | piece hgap hplaced hlexeme hrest =>
    rw [textOf_cons] at hused
    have hcount : line' + used.count '\n' + gap.count '\n' = line' + (used ++ gap).count '\n' := by
      rw [List.count_append, Nat.add_assoc]
    rw [hcount] at hplaced hrest
    exact .piece hused hplaced hlexeme hrest

/-- A piece among others: its line and the brackets that are open come from all that stands in
front of it. -/
theorem piece_of_append {before after : List Piece} {piece : Piece}
    (h : Follows line depth gap (before ++ piece :: after)) :
    let here := depthAfterAll depth (before.map Piece.placed)
    piece.placed.line = line + (gap ++ Piece.textOf before).count '\n' ∧
      IsLexeme here piece.lexeme piece.placed.token ∧
      Gap (piece.placed.token.depthAfter here) piece.gap (Piece.textOf after) := by
  induction before generalizing line depth gap with
  | nil =>
    cases h with
    | piece _ hplaced hlexeme hrest =>
      refine ⟨?_, hlexeme, hrest.gap_textOf⟩
      simpa [Piece.textOf] using hplaced
  | cons first before ih =>
    cases h with
    | piece _ _ _ hrest =>
      obtain ⟨hplaced, hlexeme, hgap⟩ := ih hrest
      refine ⟨?_, hlexeme, hgap⟩
      rw [hplaced, textOf_cons]
      simp only [List.count_append]
      omega

theorem ordered (h : Follows line depth gap pieces) :
    (pieces.map Piece.placed).Pairwise (fun a b => a.line ≤ b.line) ∧
      ∀ placed ∈ pieces.map Piece.placed, line ≤ placed.line ∧
        placed.line ≤ line + (gap ++ Piece.textOf pieces).count '\n' := by
  induction h with
  | last => simp
  | @piece line depth gap piece pieces _ hplaced _ _ ih =>
    obtain ⟨hpairs, hbounds⟩ := ih
    rw [List.map_cons, List.pairwise_cons, textOf_cons]
    simp only [List.count_append] at hbounds ⊢
    refine ⟨⟨fun placed hmem => ?_, hpairs⟩, fun placed hmem => ?_⟩
    · have hbound := hbounds placed hmem
      omega
    · obtain rfl | hmem := List.mem_cons.mp hmem
      · omega
      · have hbound := hbounds placed hmem
        omega

end Follows

theorem exists_follows {line depth : Nat} {cs : List Char} {tokens : Tokens}
    (h : scanFrom line depth cs = .ok tokens) :
    ∃ gap pieces, cs = gap ++ Piece.textOf pieces ∧ tokens.list = pieces.map Piece.placed ∧
      Follows line depth gap pieces := by
  refine scanFrom_induction (motive := fun line depth cs tokens =>
    ∃ gap pieces, cs = gap ++ Piece.textOf pieces ∧ tokens.list = pieces.map Piece.placed ∧
      Follows line depth gap pieces) ?_ ?_ ?_ h
  · intro line depth cs hend
    obtain ⟨used, hcs, -, hgap⟩ := skipGap_gap cs
    rw [hend] at hcs
    refine ⟨used ++ [], [], by simpa [Piece.textOf] using hcs, rfl, .last (hgap _ _ _ ?_ .nil)⟩
    rw [hend]
    rfl
  · intro line depth cs rest following hbreak _ ih
    obtain ⟨gap, pieces, rfl, hlist, hpieces⟩ := ih
    obtain ⟨used, hcs, hfree, hgap⟩ := skipGap_gap cs
    have hcount : used.count '\n' = 0 := List.count_eq_zero.mpr hfree
    rw [hbreak] at hcs
    by_cases hdepth : depth = 0
    -- Outside all brackets the break is a lexeme.
    · subst hdepth
      refine ⟨used ++ [], ⟨['\n'], ⟨line, .separator⟩, gap⟩ :: pieces, ?_, ?_, ?_⟩
      · simpa [textOf_cons] using hcs
      · rw [if_pos rfl, List.map_cons, ← hlist]
        rfl
      · refine .piece (hgap _ _ _ hbreak .nil) ?_ (.lineBreak rfl rfl rfl) ?_
        · rw [List.append_nil, hcount]
          rfl
        · rw [List.append_nil, hcount]
          exact hpieces
    -- Inside brackets it belongs to the gap.
    · refine ⟨used ++ '\n' :: gap, pieces, ?_, ?_, ?_⟩
      · rw [List.append_assoc]
        exact hcs
      · rw [if_neg hdepth]
        exact hlist
      · have hfirst : Gap depth (used ++ '\n' :: gap) (Piece.textOf pieces) :=
          hgap _ _ _ hbreak (.lineBreak (Nat.pos_of_ne_zero hdepth) hpieces.gap_textOf)
        rw [List.append_cons] at hfirst ⊢
        exact hpieces.extend (by simp [hcount]) hfirst
  · intro line depth cs c rest token after following htoken hc hread _ ih
    obtain ⟨gap, pieces, hafter, hlist, hpieces⟩ := ih
    obtain ⟨used, hcs, hfree, hgap⟩ := skipGap_gap cs
    obtain ⟨⟨taken, hrest, htaken⟩, -⟩ := readToken_inLine c rest token after hread
    have hcount : used.count '\n' = 0 := List.count_eq_zero.mpr hfree
    have hlexeme : (c :: taken).count '\n' = 0 := List.count_eq_zero.mpr (by simp [htaken, hc.symm])
    have hword : IsLexeme depth (c :: taken) token :=
      isLexeme_of_read depth htoken hc hread hrest
    rw [htoken] at hcs
    refine ⟨used ++ [], ⟨c :: taken, ⟨line, token⟩, gap⟩ :: pieces, ?_, ?_, ?_⟩
    · rw [textOf_cons, ← hafter, hcs, hrest]
      simp
    · rw [List.map_cons, ← hlist]
      rfl
    · refine .piece (hgap _ _ _ ?_ .nil) ?_ hword ?_
      · rw [htoken, hrest, hafter]
        rfl
      · rw [List.append_nil, hcount]
        rfl
      · rw [List.append_nil, hcount, hlexeme]
        exact hpieces

end Lexer

/-- A text that has tokens loses nothing to them: gaps hold blanks, comments and the line breaks
inside brackets, every lexeme is read as its token without the text around it, and the line of a
token is one more than the number of breaks in front of its lexeme. -/
theorem tokenize_splits {source : String} {tokens : Tokens} (h : tokenize source = .ok tokens) :
    ∃ gap pieces, Splits source.toList tokens gap pieces := by
  have hscan : Lexer.scanFrom 1 0 source.toList = .ok tokens := h
  obtain ⟨gap, pieces, hsource, htokens, hpieces⟩ := Lexer.exists_follows hscan
  have hlast : tokens.lastLine = 1 + source.toList.count '\n' := Lexer.scanFrom_lastLine hscan
  obtain ⟨hpairs, hbounds⟩ := hpieces.ordered
  refine ⟨gap, pieces, hsource, htokens, hlast, hpieces.gap_textOf, ?_, ?_⟩
  · intro before piece after heq
    exact (heq ▸ hpieces).piece_of_append
  · rw [htokens, hlast, hsource]
    exact ⟨hpairs, fun placed hmem => (hbounds placed hmem).2⟩

/-- Three lines: a line break in brackets behind a comment, another one that ends a statement, and
a string with the sign of a comment, a bracket and an escaped break in it. -/
theorem tokenize_splits_brackets :
    let source := "[x, # one\n2]\n'# (\\n'"
    let tokens : Tokens := ⟨[⟨1, .openBracket⟩, ⟨1, .name "x"⟩, ⟨1, .comma⟩, ⟨2, .integer 2⟩,
      ⟨2, .closeBracket⟩, ⟨2, .separator⟩, ⟨3, .text "# (\n"⟩], 3⟩
    tokenize source = .ok tokens ∧ ∃ gap pieces, Splits source.toList tokens gap pieces := by
  intro source tokens
  have h : tokenize source = .ok tokens := by decide +kernel
  exact ⟨h, tokenize_splits h⟩

end Deferral
