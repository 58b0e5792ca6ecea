import Deferral.Proofs.Lexemes

/-!
# String literals

Every string has literals with either quote.  A backslash, the quote itself and a line break are
written by their escapes; any other character stands for itself, or is written by its escape if it
has one (`Literal.write`).  A literal is read as its string in front of any text, and whatever is
read as a string is one of its literals (`tokenize_literal`).
-/

namespace Deferral

namespace Literal

/-! ## 1. Literals -/

def mark? : Char → Option Char
  | '\n' => some 'n'
  | '\t' => some 't'
  | '\r' => some 'r'
  | '\x00' => some '0'
  | '\\' => some '\\'
  | '"' => some '"'
  | '\'' => some '\''
  | _ => none

def isPlain (quote c : Char) : Bool := c != '\\' && c != quote && c != '\n'

structure Part where
  char : Char
  escaped : Bool

def Part.write (quote : Char) (part : Part) : List Char :=
  match mark? part.char with
  | some mark => if part.escaped || !isPlain quote part.char then ['\\', mark] else [part.char]
  | none => [part.char]

def write (quote : Char) (parts : List Part) : List Char :=
  quote :: (parts.flatMap (Part.write quote) ++ [quote])

def IsQuote (c : Char) : Prop := c = '"' ∨ c = '\''

/-- The literals of a string: either quote will do, and every choice of what to escape. -/
def IsFor (s : String) (text : List Char) : Prop :=
  ∃ quote parts, IsQuote quote ∧ parts.map Part.char = s.toList ∧ text = write quote parts

theorem escapedChar?_eq_some {mark c : Char} :
    Lexer.escapedChar? mark = some c ↔ mark? c = some mark := by
  constructor
  · intro h
    unfold Lexer.escapedChar? at h
    split at h <;> cases h <;> rfl
  · intro h
    unfold mark? at h
    split at h <;> cases h <;> rfl

variable {quote c : Char}

theorem isPlain_iff : isPlain quote c = true ↔ c ≠ '\\' ∧ c ≠ quote ∧ c ≠ '\n' := by
  simp [isPlain, and_assoc]

theorem isPlain_of_mark? (hquote : IsQuote quote) (h : mark? c = none) :
    isPlain quote c = true := by
  rw [isPlain_iff]
  refine ⟨?_, ?_, ?_⟩
  · rintro rfl
    cases h
  · rintro rfl
    rcases hquote with rfl | rfl <;> cases h
  · rintro rfl
    cases h

theorem Part.write_cases (hquote : IsQuote quote) (part : Part) :
    (∃ mark, Lexer.escapedChar? mark = some part.char ∧ part.write quote = ['\\', mark]) ∨
      isPlain quote part.char = true ∧ part.write quote = [part.char] := by
  unfold Part.write
  cases hmark : mark? part.char with
  | none => exact .inr ⟨isPlain_of_mark? hquote hmark, rfl⟩
  | some mark =>
    dsimp only
    split
    · exact .inl ⟨mark, escapedChar?_eq_some.mpr hmark, rfl⟩
    · rename_i hplain
      have hplain : part.escaped = false ∧ isPlain quote part.char = true := by simpa using hplain
      exact .inr ⟨hplain.2, rfl⟩

end Literal

namespace Lexer

open Literal

variable {quote : Char}

/-! ## 2. What is read between quotes -/

theorem readText_write (hquote : IsQuote quote) (parts : List Part) (rest : List Char) :
    readText quote (parts.flatMap (Part.write quote) ++ quote :: rest) =
      .ok (parts.map Part.char, rest) := by
  induction parts with
  | nil =>
    have hbackslash : quote ≠ '\\' := by rcases hquote with rfl | rfl <;> decide
    have hbreak : quote ≠ '\n' := by rcases hquote with rfl | rfl <;> decide
    simp [readText.eq_def quote (quote :: rest), hbackslash, hbreak]
  | cons part parts ih =>
    rw [List.flatMap_cons, List.append_assoc]
    rcases part.write_cases hquote with ⟨mark, hmark, hwrite⟩ | ⟨hplain, hwrite⟩
    · rw [hwrite, List.cons_append, List.cons_append, List.nil_append, readText]
      simp only [if_true, hmark, ih]
      rfl
    · obtain ⟨hbackslash, hclosing, hbreak⟩ := isPlain_iff.mp hplain
      rw [hwrite, List.cons_append, List.nil_append, readText.eq_def]
      simp only [hbackslash, hclosing, hbreak, if_false, ih]
      rfl

theorem exists_write_of_readText {cs found after : List Char}
    (h : readText quote cs = .ok (found, after)) :
    ∃ parts : List Part, parts.map Part.char = found ∧
      cs = parts.flatMap (Part.write quote) ++ quote :: after := by
  fun_induction readText quote cs generalizing found with
  | case1 | case2 | case3 | case5 => cases h
  | case4 mark rest c hc ih =>
    obtain ⟨⟨found', after'⟩, hread, heq⟩ := Parser.map_eq_ok.mp h
    cases heq
    obtain ⟨parts, rfl, rfl⟩ := ih hread
    refine ⟨⟨c, true⟩ :: parts, rfl, ?_⟩
    have hwrite : Part.write quote ⟨c, true⟩ = ['\\', mark] := by
      simp [Part.write, escapedChar?_eq_some.mp hc]
    rw [List.flatMap_cons, hwrite]
    rfl
  | case6 rest =>
    cases h
    exact ⟨[], rfl, rfl⟩
  | case7 c rest hbackslash hbreak hclosing ih =>
    obtain ⟨⟨found', after'⟩, hread, heq⟩ := Parser.map_eq_ok.mp h
    cases heq
    obtain ⟨parts, rfl, rfl⟩ := ih hread
    refine ⟨⟨c, false⟩ :: parts, rfl, ?_⟩
    have hplain : isPlain quote c = true := isPlain_iff.mpr ⟨hbackslash, hclosing, hbreak⟩
    have hwrite : Part.write quote ⟨c, false⟩ = [c] := by
      unfold Part.write
      split <;> simp [hplain]
    rw [List.flatMap_cons, hwrite]
    rfl

/-! ## 3. One token -/

/-- A token that begins with a quote is read like the text behind it. -/
theorem readToken_quote (hquote : IsQuote quote) (rest : List Char) :
    readToken quote rest =
      (readText quote rest).map fun (cs, rest) => (.text (String.ofList cs), rest) := by
  rcases hquote with rfl | rfl <;> rfl

/-- What is read as a string is one of its literals, and each of them is read. -/
theorem readToken_literal_iff {c : Char} {rest after : List Char} {s : String} :
    readToken c rest = .ok (.text s, after) ↔
      ∃ text, IsFor s text ∧ c :: rest = text ++ after := by
  constructor
  · intro h
    have hquote : IsQuote c := (readToken_text_iff h).mpr ⟨s, rfl⟩
    rw [readToken_quote hquote] at h
    obtain ⟨⟨found, after'⟩, hread, heq⟩ := Parser.map_eq_ok.mp h
    cases heq
    obtain ⟨parts, hparts, hrest⟩ := exists_write_of_readText hread
    refine ⟨write c parts, ⟨c, parts, hquote, by simpa using hparts, rfl⟩, ?_⟩
    simp [write, hrest]
  · rintro ⟨_, ⟨quote, parts, hquote, hparts, rfl⟩, heq⟩
    have hrest : c = quote ∧ rest = parts.flatMap (Part.write quote) ++ quote :: after := by
      simpa [write] using heq
    obtain ⟨rfl, rfl⟩ := hrest
    rw [readToken_quote hquote, readText_write hquote, hparts]
    simp [Except.map]

/-! ## 4. A literal among other tokens -/

theorem scanFrom_literal {s : String} {text : List Char} (h : IsFor s text)
    (line depth : Nat) (rest : List Char) :
    scanFrom line depth (text ++ rest) =
      (scanFrom line depth rest).map (·.cons ⟨line, .text s⟩) := by
  have hliteral := h
  obtain ⟨quote, parts, hquote, -, rfl⟩ := h
  have hbreak : quote ≠ '\n' := by rcases hquote with rfl | rfl <;> decide
  have hgap : ∀ cs, skipGap (quote :: cs) = quote :: cs := by
    rcases hquote with rfl | rfl <;> exact skipGap_cons (by decide +kernel) (by decide)
  have hread : readToken quote (parts.flatMap (Part.write quote) ++ [quote] ++ rest) =
      .ok (.text s, rest) := readToken_literal_iff.mpr ⟨_, hliteral, rfl⟩
  rw [write, List.cons_append, scanFrom_token (hgap _) hbreak, hread]
  rfl

theorem exists_literal_of_mem {line depth : Nat} {cs : List Char} {tokens : Tokens}
    (h : scanFrom line depth cs = .ok tokens) {placed : PlacedToken} (hmem : placed ∈ tokens.list)
    {s : String} (htext : placed.token = .text s) :
    ∃ before text after, cs = before ++ text ++ after ∧ IsFor s text ∧
      placed.line = line + before.count '\n' := by
  refine scanFrom_induction (motive := fun line depth cs tokens => placed ∈ tokens.list →
    ∃ before text after, cs = before ++ text ++ after ∧ IsFor s text ∧
      placed.line = line + before.count '\n') ?_ ?_ ?_ h hmem
  · intro line depth cs hend hmem
    cases hmem
  · intro line depth cs rest following hbreak _ ih hmem
    have hrest : placed ∈ following.list := by
      by_cases hdepth : depth = 0
      · rw [if_pos hdepth] at hmem
        -- The separator of the break is no string.
        rcases List.mem_cons.mp hmem with rfl | hrest
        · cases htext
        · exact hrest
      · rwa [if_neg hdepth] at hmem
    obtain ⟨before, text, after, rfl, hliteral, hline⟩ := ih hrest
    obtain ⟨used, hcs, hused⟩ := skipGap_used cs
    rw [hbreak] at hcs
    refine ⟨used ++ '\n' :: before, text, after, by simp [hcs], hliteral, ?_⟩
    rw [hline, List.count_append, List.count_eq_zero.mpr hused, List.count_cons_self]
    omega
  · intro line depth cs c rest token following tokens hgap hc hread _ ih hmem
    obtain ⟨used, hcs, hused⟩ := skipGap_used cs
    rw [hgap] at hcs
    rcases List.mem_cons.mp hmem with rfl | hrest
    · obtain rfl : token = .text s := htext
      obtain ⟨text, hliteral, heq⟩ := readToken_literal_iff.mp hread
      refine ⟨used, text, following, by rw [hcs, heq, List.append_assoc], hliteral, ?_⟩
      rw [List.count_eq_zero.mpr hused]
      rfl
    · obtain ⟨before, text, after, rfl, hliteral, hline⟩ := ih hrest
      obtain ⟨⟨taken, rfl, htaken⟩, -⟩ := readToken_inLine c rest token _ hread
      refine ⟨used ++ c :: taken ++ before, text, after, by simp [hcs], hliteral, ?_⟩
      have hfree : (used ++ c :: taken).count '\n' = 0 := by
        rw [List.count_eq_zero]
        simp [hused, htaken, hc.symm]
      rw [hline, List.count_append, hfree, Nat.zero_add]

end Lexer

/-- The literals of a string, with either quote and whatever is escaped in them, are what is read as
the string.  In front of any text a literal is read to its end and no further, as one token that
stands on the line where the literal begins and ends; alone it is the only token.  And wherever a
string is among the tokens of a text, one of its literals stands there. -/
theorem tokenize_literal (s : String) :
    (∀ c rest after, Lexer.readToken c rest = .ok (.text s, after) ↔
      ∃ text, Literal.IsFor s text ∧ c :: rest = text ++ after) ∧
    (∀ text, Literal.IsFor s text →
      (∀ line depth rest, Lexer.scanFrom line depth (text ++ rest) =
        (Lexer.scanFrom line depth rest).map (·.cons ⟨line, .text s⟩)) ∧
      tokenize (String.ofList text) = .ok ⟨[⟨1, .text s⟩], 1⟩) ∧
    ∀ source tokens placed, tokenize source = .ok tokens → placed ∈ tokens.list →
      placed.token = .text s →
      ∃ before text after, source.toList = before ++ text ++ after ∧ Literal.IsFor s text ∧
        placed.line = 1 + before.count '\n' := by
  refine ⟨fun c rest after => Lexer.readToken_literal_iff, fun text h => ?_, ?_⟩
  · have hscan := Lexer.scanFrom_literal h
    refine ⟨hscan, ?_⟩
    have halone := hscan 1 0 []
    rw [List.append_nil] at halone
    unfold tokenize
    rw [String.toList_ofList]
    exact halone
  · intro source tokens placed htokens hmem htext
    exact Lexer.exists_literal_of_mem htokens hmem htext

/-- A backslash, the quote, the other quote with and without its escape, and a letter. -/
theorem tokenize_literal_quotes :
    Literal.IsFor "\\'\"\"é" "'\\\\\\'\\\"\"é'".toList ∧
      tokenize "'\\\\\\'\\\"\"é'" = .ok ⟨[⟨1, .text "\\'\"\"é"⟩], 1⟩ := by
  have hliteral : Literal.IsFor "\\'\"\"é" "'\\\\\\'\\\"\"é'".toList :=
    ⟨'\'', [⟨'\\', false⟩, ⟨'\'', false⟩, ⟨'"', true⟩, ⟨'"', false⟩, ⟨'é', true⟩], .inr rfl,
      by decide +kernel, by decide +kernel⟩
  have htokens := ((tokenize_literal "\\'\"\"é").2.1 _ hliteral).2
  rw [String.ofList_toList] at htokens
  exact ⟨hliteral, htokens⟩

end Deferral
