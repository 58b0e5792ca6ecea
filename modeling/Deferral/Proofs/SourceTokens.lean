import Deferral.Proofs.Balance
import Deferral.Proofs.Trimming
import Mathlib.Data.List.Forall2

/-!
# The tokens of written expressions

The text that is written for an expression is scanned piece by piece: each of its words is read back
as one token, whatever stands in front of it, if what follows does not go on with the word
(`Lexer.Spells`).  So the text of an expression has the tokens that its tree says (`Tree.tokens`),
with nothing else between them (`tokenize_source`).

Some trees have no such text.  Their names are no names, their strings hold characters for which the
lexer knows no escape, or a minus sign in them would be read as part of something else
(`Tree.Writable`).
-/

namespace Deferral

namespace Lexer

variable {line : Nat} {more : List Char}

/-! ## 1. Pieces of a text -/

def ReadsAs (line : Nat) (cs : List Char) (list : List PlacedToken) (more : List Char) : Prop :=
  ∀ depth, scanFrom line depth (cs ++ more) =
    (scanFrom line (depthAfterAll depth list) more).map (.prepend list)

def EndsWord (more : List Char) : Prop :=
  ∀ c ∈ more.head?, isNameChar c = false ∧ isDigit c = false ∧ c ≠ '.'

/-- Some characters are read as some tokens wherever the last word of them ends. -/
def Spells (line : Nat) (cs : List Char) (list : List PlacedToken) : Prop :=
  ∀ more, EndsWord more → ReadsAs line cs list more

theorem endsWord_nil : EndsWord [] := by simp [EndsWord]

/-- The characters that follow a word where an expression is written. -/
theorem endsWord_cons {c : Char} (h : c ∈ [' ', ',', ':', '=', '(', ')', ']', '\x7d'])
    (rest : List Char) : EndsWord (c :: rest) := by
  have hmarks : [' ', ',', ':', '=', '(', ')', ']', '\x7d'].all (fun c =>
      !isNameChar c && !isDigit c && c != '.') = true := by
    decide +kernel
  intro c' hmem
  obtain rfl := Option.some.inj hmem
  simpa [and_assoc] using List.all_eq_true.mp hmarks c h

theorem run_append {p : Char → Bool} {cs : List Char} (hcs : ∀ c ∈ cs, p c = true)
    (hmore : ∀ c ∈ more.head?, p c = false) :
    (cs ++ more).takeWhile p = cs ∧ (cs ++ more).dropWhile p = more := by
  rw [List.takeWhile_append_of_pos hcs, List.dropWhile_append_of_pos hcs]
  cases more with
  | nil => simp
  | cons c rest =>
    have hc : p c = false := hmore c rfl
    simp [hc]

namespace ReadsAs

variable {cs others : List Char} {list list' : List PlacedToken}

theorem append (h : ReadsAs line cs list (others ++ more)) (h' : ReadsAs line others list' more) :
    ReadsAs line (cs ++ others) (list ++ list') more := by
  intro depth
  rw [List.append_assoc, h, h', depthAfterAll_append]
  cases scanFrom line (depthAfterAll (depthAfterAll depth list) list') more with
  | error failure => rfl
  | ok tokens => simp [Except.map, Tokens.prepend]

theorem token {c : Char} {rest : List Char} {token : Token}
    (hgap : skipGap (c :: (rest ++ more)) = c :: (rest ++ more)) (hc : c ≠ '\n')
    (hread : readToken c (rest ++ more) = .ok (token, more)) :
    ReadsAs line (c :: rest) [⟨line, token⟩] more := by
  intro depth
  rw [List.cons_append, scanFrom_token hgap hc, hread]
  rfl

end ReadsAs

theorem skipGap_cons {c : Char} (hblank : isBlank c = false) (hcomment : c ≠ '#')
    (rest : List Char) : skipGap (c :: rest) = c :: rest := by
  have hblanks : skipBlanks (c :: rest) = c :: rest := by simp [skipBlanks, hblank]
  rw [skipGap, hblanks, skipComment]
  intro rest' heq
  exact hcomment (List.head_eq_of_cons_eq heq)

/-- A word is read that begins with a character of a kind to which no blank belongs. -/
theorem readsAs_word {p : Char → Bool} (hblanks : ∀ b, isBlank b = true → p b = false)
    (hcomment : p '#' = false) {c : Char} {rest : List Char} {token : Token} (hc : p c = true)
    (hread : readToken c (rest ++ more) = .ok (token, more)) :
    ReadsAs line (c :: rest) [⟨line, token⟩] more := by
  have hne : ∀ d, p d = false → c ≠ d := by
    rintro d hd rfl
    rw [hc] at hd
    cases hd
  have hblank : isBlank c = false := by
    by_contra hblank
    exact hne c (hblanks c (eq_true_of_ne_false hblank)) rfl
  exact .token (skipGap_cons hblank (hne '#' hcomment) _) (hne '\n' (hblanks '\n' rfl)) hread

/-! ## 2. Single words -/

theorem readsAs_blank (line : Nat) (more : List Char) : ReadsAs line [' '] [] more := by
  intro depth
  have hgap : skipGap (' ' :: more) = skipGap more := rfl
  have hscan : scanFrom line depth (' ' :: more) = scanFrom line depth more := by
    cases hmore : skipGap more with
    | nil => rw [scanFrom_end (hgap.trans hmore), scanFrom_end hmore]
    | cons c rest =>
      by_cases hc : c = '\n'
      · subst hc
        rw [scanFrom_break (hgap.trans hmore), scanFrom_break hmore]
      · rw [scanFrom_token (hgap.trans hmore) hc, scanFrom_token hmore hc]
  rw [List.singleton_append, hscan]
  show _ = (scanFrom line depth more).map _
  cases scanFrom line depth more <;> rfl

theorem readsAs_mark {c : Char} {token : Token}
    (h : (c, token) ∈ [('+', Token.plus), ('-', .minus), ('*', .star), ('/', .slash),
      ('=', .assign), (',', .comma), (':', .colon), ('(', .openParen), (')', .closeParen),
      ('[', .openBracket), (']', .closeBracket), ('\x7b', .openBrace), ('\x7d', .closeBrace)])
    (line : Nat) (more : List Char) : ReadsAs line [c] [⟨line, token⟩] more := by
  have happly : ∀ (c : Char) (token : Token), isBlank c = false → c ≠ '#' → c ≠ '\n' →
      readToken c more = .ok (token, more) → ReadsAs line [c] [⟨line, token⟩] more :=
    fun c token hblank hcomment hbreak hread =>
      .token (skipGap_cons hblank hcomment more) hbreak hread
  simp only [List.mem_cons, Prod.mk.injEq, List.not_mem_nil, or_false] at h
  rcases h with ⟨rfl, rfl⟩ | ⟨rfl, rfl⟩ | ⟨rfl, rfl⟩ | ⟨rfl, rfl⟩ | ⟨rfl, rfl⟩ | ⟨rfl, rfl⟩ |
    ⟨rfl, rfl⟩ | ⟨rfl, rfl⟩ | ⟨rfl, rfl⟩ | ⟨rfl, rfl⟩ | ⟨rfl, rfl⟩ | ⟨rfl, rfl⟩ | ⟨rfl, rfl⟩ <;>
    exact happly _ _ (by decide) (by decide) (by decide) rfl

theorem readsAs_append (line : Nat) (more : List Char) :
    ReadsAs line ['>', '>'] [⟨line, .append⟩] more :=
  .token (skipGap_cons (by decide) (by decide) _) (by decide) rfl

/-! ### Names -/

def IsName (s : String) : Prop := tokenize s = .ok ⟨[⟨1, .name s⟩], 1⟩

instance (s : String) : Decidable (IsName s) := inferInstanceAs (Decidable (_ = _))

def hasText : Token → Bool
  | .name _ | .text _ => true
  | _ => false

theorem readNumber_hasText {cs after : List Char} {token : Token}
    (h : readNumber cs = .ok (token, after)) : hasText token = false := by
  simp only [readNumber] at h
  split at h
  · cases h
    rfl
  · split at h
    · cases h
      rfl
    · cases h

theorem readMark_hasText {c : Char} {rest after : List Char} {token : Token}
    (h : readMark c rest = .ok (token, after)) : hasText token = false := by
  unfold readMark at h
  split at h
  · cases h
    rfl
  · split at h
    · rename_i found hfound
      cases h
      revert hfound
      unfold markToken?
      split <;> simp +contextual [hasText, eq_comm]
    · cases h

/-- Only a letter or an underscore begins a name, and it goes on as long as it can. -/
theorem readToken_name {c : Char} {rest after : List Char} {s : String}
    (h : readToken c rest = .ok (.name s, after)) :
    isNameStart c = true ∧ isDigit c = false ∧ ¬ (c = '"' ∨ c = '\'') ∧
      s.toList = c :: rest.takeWhile isNameChar := by
  unfold readToken at h
  split at h
  · cases readNumber_hasText h
  · rename_i hdigit
    split at h
    · obtain ⟨found, -, heq⟩ := Parser.map_eq_ok.mp h
      cases heq
    · rename_i hquote
      split at h
      · rename_i hname
        cases h
        exact ⟨hname, eq_false_of_ne_true hdigit, hquote, String.toList_ofList⟩
      · cases readMark_hasText h

theorem IsName.toList {s : String} (h : IsName s) :
    ∃ c rest, s.toList = c :: rest ∧ isNameStart c = true ∧ isDigit c = false ∧
      ¬ (c = '"' ∨ c = '\'') ∧ ∀ d ∈ rest, isNameChar d = true := by
  have hscan : scanFrom 1 0 s.toList = .ok ⟨[⟨1, .name s⟩], 1⟩ := h
  obtain ⟨used, hused, -⟩ := skipGap_used s.toList
  cases hgap : skipGap s.toList with
  | nil =>
    rw [scanFrom_end hgap] at hscan
    cases hscan
  | cons c rest =>
    by_cases hc : c = '\n'
    · subst hc
      rw [scanFrom_break hgap] at hscan
      obtain ⟨following, -, heq⟩ := Parser.map_eq_ok.mp hscan
      cases heq
    · rw [scanFrom_token hgap hc] at hscan
      split at hscan
      · cases hscan
      · rename_i token after hread
        obtain ⟨following, -, heq⟩ := Parser.map_eq_ok.mp hscan
        have hfirst : (⟨1, token⟩ : PlacedToken) = ⟨1, .name s⟩ :=
          List.head_eq_of_cons_eq (congrArg Tokens.list heq)
        cases hfirst
        obtain ⟨hstart, hdigit, hquote, hs⟩ := readToken_name hread
        -- The name is all of the text, so nothing stands in front of it or behind it.
        have hlength := congrArg List.length (hused.symm.trans hs)
        rw [hgap, List.length_append, List.length_cons, List.length_cons] at hlength
        have htake : (rest.takeWhile isNameChar).length ≤ rest.length :=
          (List.takeWhile_prefix _).length_le
        have hall : rest.takeWhile isNameChar = rest :=
          (List.takeWhile_prefix _).eq_of_length (by omega)
        exact ⟨c, rest, by rw [hs, hall], hstart, hdigit, hquote,
          List.takeWhile_eq_self_iff.mp hall⟩

theorem isNameChar_of_start {c : Char} (h : isNameStart c = true) : isNameChar c = true := by
  unfold isNameStart at h
  unfold isNameChar
  rcases Bool.or_eq_true_iff.mp h with h | h <;> simp [h]

theorem spells_name {s : String} (h : IsName s) (line : Nat) :
    Spells line s.toList [⟨line, .name s⟩] := by
  intro more hmore
  obtain ⟨c, rest, hs, hstart, hdigit, hquote, hrest⟩ := h.toList
  have hchar : isNameChar c = true := isNameChar_of_start hstart
  have hrun := run_append hrest fun d hd => (hmore d hd).1
  rw [hs]
  refine readsAs_word (fun b hb => (blank_apart hb).2.1) (by decide +kernel) hchar ?_
  rw [readToken, if_neg (by simp [hdigit]), if_neg hquote, if_pos hstart, hrun.1, hrun.2, ← hs,
    String.ofList_toList]

/-! ### Numbers -/

theorem isDigit_of_mem_toDigits {n : Nat} {c : Char} (h : c ∈ Nat.toDigits 10 n) :
    isDigit c = true := by
  have hdigit := Nat.isDigit_of_mem_toDigits (by decide) (by decide) h
  simpa [isDigit, Char.isDigit, Char.le_def] using hdigit

theorem digitsBelow?_toDigits {bound n : Nat} (h : n < bound) :
    digitsBelow? bound 0 (Nat.toDigits 10 n) = some n := by
  have hvalue : (Nat.toDigits 10 n).foldl pushDigit 0 = n := by
    have hdigits := Nat.ofDigitChars_ten_toDigits (n := n)
    rwa [Nat.ofDigitChars_eq_foldl] at hdigits
  rw [digitsBelow?_eq _ (Nat.zero_lt_of_lt h), hvalue, if_pos h]

theorem spells_integer {n : Nat} (hn : n < UInt64.size) (line : Nat) :
    Spells line (Nat.toDigits 10 n) [⟨line, .integer n⟩] := by
  intro more hmore
  have hdigits : ∀ c ∈ Nat.toDigits 10 n, isDigit c = true := fun c hc =>
    isDigit_of_mem_toDigits hc
  have hrun := run_append hdigits fun c hc => (hmore c hc).2.1
  have hread : readNumber (Nat.toDigits 10 n ++ more) = .ok (.integer n, more) := by
    rw [readNumber, hrun.1, hrun.2, digitsBelow?_toDigits hn]
    split
    -- A point would go on with the number.
    · exact absurd rfl (hmore '.' rfl).2.2
    · rfl
  cases htext : Nat.toDigits 10 n with
  | nil => exact absurd htext Nat.toDigits_ne_nil
  | cons c rest =>
    have hc : isDigit c = true := hdigits c (htext ▸ List.mem_cons_self)
    refine readsAs_word (fun b hb => (blank_apart hb).1) (by decide) hc ?_
    rw [readToken, if_pos hc, ← List.cons_append, ← htext, hread]

def intTokens (line : Nat) (n : Int64) : List PlacedToken :=
  match n.toInt with
  | .ofNat m => [⟨line, .integer m⟩]
  | .negSucc m => [⟨line, .minus⟩, ⟨line, .integer (m + 1)⟩]

theorem spells_int (n : Int64) (line : Nat) :
    Spells line (intText n).toList (intTokens line n) := by
  intro more hmore
  have hle := n.le_toInt
  have hlt := n.toInt_lt
  unfold intText intTokens
  cases hn : n.toInt with
  | ofNat m =>
    rw [hn] at hlt
    have hm : m < UInt64.size := by
      change (m : Int) < _ at hlt
      simp [UInt64.size]
      omega
    have htext : (toString (Int.ofNat m)).toList = Nat.toDigits 10 m := Nat.toList_repr
    rw [htext]
    exact spells_integer hm line more hmore
  | negSucc m =>
    rw [hn] at hle
    have hm : m + 1 < UInt64.size := by
      simp [UInt64.size]
      omega
    have htext : (toString (Int.negSucc m)).toList = ['-'] ++ Nat.toDigits 10 (m + 1) := by
      show ("-" ++ (m + 1).repr).toList = _
      rw [String.toList_append, Nat.toList_repr]
      rfl
    rw [htext]
    exact (readsAs_mark (by simp) line _).append (spells_integer hm line more hmore)

/-! ### Strings -/

def hasShortForm (c : Char) : Bool :=
  c ∈ ['\x00', '\t', '\n', '\r', '"', '\\'] || showsItself c

theorem readText_escapeChar {c : Char} (h : hasShortForm c = true) (rest : List Char) :
    readText '"' (escapeChar c ++ rest) =
      (readText '"' rest).map fun (cs, rest) => (c :: cs, rest) := by
  unfold escapeChar
  split
  iterate 6 rfl
  -- None of the six, so the character shows itself, and the lexer takes it as it is.
  · rename_i hzero htab hbreak hreturn hquote hbackslash
    have hnone : c ∉ ['\x00', '\t', '\n', '\r', '"', '\\'] := by
      simp only [List.mem_cons, List.not_mem_nil, or_false, not_or]
      exact ⟨hzero, htab, hbreak, hreturn, hquote, hbackslash⟩
    have hshows : showsItself c = true := by
      simpa only [hasShortForm, hnone, decide_false, Bool.false_or] using h
    rw [if_pos hshows, List.singleton_append, readText.eq_def]
    dsimp only
    rw [if_neg hbackslash, if_neg hbreak, if_neg hquote]

theorem readText_quoted {cs : List Char} (h : ∀ c ∈ cs, hasShortForm c = true)
    (more : List Char) : readText '"' (cs.flatMap escapeChar ++ '"' :: more) = .ok (cs, more) := by
  induction cs with
  | nil => simp [readText.eq_def ('"')]
  | cons c cs ih =>
    obtain ⟨hc, hcs⟩ := List.forall_mem_cons.mp h
    rw [List.flatMap_cons, List.append_assoc, readText_escapeChar hc, ih hcs]
    rfl

theorem spells_text {s : String} (h : ∀ c ∈ s.toList, hasShortForm c = true) (line : Nat) :
    Spells line (quoteText s).toList [⟨line, .text s⟩] := by
  intro more _
  rw [quoteText, String.toList_ofList, List.cons_append]
  refine .token (skipGap_cons (by decide) (by decide) _) (by decide) ?_
  have hread : readText '"' (s.toList.flatMap escapeChar ++ ['"'] ++ more) =
      .ok (s.toList, more) := by
    rw [List.append_assoc, List.singleton_append, readText_quoted h]
  rw [readToken, if_neg (by decide), if_pos (.inl rfl), hread]
  show Except.ok (Token.text (String.ofList s.toList), more) = _
  rw [String.ofList_toList]

/-! ## 3. Words in a row -/

/-- Two pieces with a sign between them, which ends the word in front of it. -/
theorem Spells.join {cs sign others : List Char} {list marks list' : List PlacedToken}
    (h : Spells line cs list) (hends : ∀ more, EndsWord (sign ++ more))
    (hsign : ∀ more, ReadsAs line sign marks more) (h' : Spells line others list') :
    Spells line (cs ++ (sign ++ others)) (list ++ (marks ++ list')) := by
  intro more hmore
  refine (h _ ?_).append ((hsign _).append (h' more hmore))
  rw [List.append_assoc]
  exact hends _

theorem Spells.between {c d : Char} {opening closing : Token} {cs : List Char}
    {list : List PlacedToken}
    (h : (c, opening, d, closing) ∈ [('(', Token.openParen, ')', Token.closeParen),
      ('[', .openBracket, ']', .closeBracket), ('\x7b', .openBrace, '\x7d', .closeBrace)])
    (hinner : Spells line cs list) :
    Spells line (c :: (cs ++ [d])) (⟨line, opening⟩ :: (list ++ [⟨line, closing⟩])) := by
  intro more _
  have hmarks : ∀ {c d : Char} {opening closing : Token},
      (∀ more, ReadsAs line [c] [⟨line, opening⟩] more) → EndsWord (d :: more) →
      ReadsAs line [d] [⟨line, closing⟩] more →
      ReadsAs line (c :: (cs ++ [d])) (⟨line, opening⟩ :: (list ++ [⟨line, closing⟩])) more :=
    fun hopen hends hclose => (hopen _).append ((hinner _ hends).append hclose)
  simp only [List.mem_cons, Prod.mk.injEq, List.not_mem_nil, or_false] at h
  rcases h with ⟨rfl, rfl, rfl, rfl⟩ | ⟨rfl, rfl, rfl, rfl⟩ | ⟨rfl, rfl, rfl, rfl⟩ <;>
    exact hmarks (readsAs_mark (by simp) line) (endsWord_cons (by simp) more)
      (readsAs_mark (by simp) line more)

theorem readsAs_spaced {sign : List Char} {marks : List PlacedToken}
    (hsign : ∀ more, ReadsAs line sign marks more) (more : List Char) :
    ReadsAs line (' ' :: (sign ++ [' '])) marks more := by
  have hbehind : ReadsAs line (sign ++ [' ']) (marks ++ []) more :=
    (hsign _).append (readsAs_blank line more)
  rw [List.append_nil] at hbehind
  exact (readsAs_blank line _).append hbehind

theorem spells_commas {texts : List (List Char)} {lists : List (List PlacedToken)}
    (h : List.Forall₂ (Spells line) texts lists) :
    Spells line ([',', ' '].intercalate texts) ([⟨line, .comma⟩].intercalate lists) := by
  induction h with
  | nil =>
    intro more _ depth
    show scanFrom line depth more = (scanFrom line depth more).map _
    cases scanFrom line depth more <;> rfl
  | @cons text list texts lists hfirst hrest ih =>
    cases hrest with
    | nil => rwa [List.intercalate_singleton, List.intercalate_singleton]
    | cons hnext hrest =>
      rw [List.intercalate_cons_cons, List.intercalate_cons_cons, List.append_assoc,
        List.append_assoc]
      exact hfirst.join (fun _ => endsWord_cons (by simp) _)
        (fun more => (readsAs_mark (by simp) line _).append (readsAs_blank line more)) ih

end Lexer

/-! ## 4. Expressions -/

def Operator.token : Operator → Token
  | .add => .plus
  | .subtract => .minus
  | .multiply => .star
  | .divide => .slash

mutual

def Tree.tokens (line : Nat) : Tree → List PlacedToken
  | .int n => Lexer.intTokens line n
  | .float x => [⟨line, .float x⟩]
  | .text s => [⟨line, .text s⟩]
  | .name s => [⟨line, .name s⟩]
  | .list items =>
    ⟨line, .openBracket⟩ ::
      ([⟨line, .comma⟩].intercalate (tokensOfItems line items) ++ [⟨line, .closeBracket⟩])
  | .map entries =>
    ⟨line, .openBrace⟩ ::
      ([⟨line, .comma⟩].intercalate (tokensOfEntries line entries) ++ [⟨line, .closeBrace⟩])
  | .negate operand => ⟨line, .minus⟩ :: operand.tokens line
  | .arithmetic operator left right =>
    ⟨line, .openParen⟩ ::
      (left.tokens line ++ ⟨line, operator.token⟩ :: right.tokens line ++ [⟨line, .closeParen⟩])
  | .append head tail =>
    ⟨line, .openParen⟩ ::
      (head.tokens line ++ ⟨line, .append⟩ :: tail.tokens line ++ [⟨line, .closeParen⟩])
  | .call target args kwargs =>
    target.tokens line ++ ⟨line, .openParen⟩ ::
      ([⟨line, .comma⟩].intercalate (tokensOfItems line args ++ tokensOfKeywords line kwargs) ++
        [⟨line, .closeParen⟩])

def Tree.tokensOfItems (line : Nat) : List Tree → List (List PlacedToken)
  | [] => []
  | item :: rest => item.tokens line :: tokensOfItems line rest

def Tree.tokensOfEntries (line : Nat) : List (Tree × Tree) → List (List PlacedToken)
  | [] => []
  | (key, value) :: rest =>
    (key.tokens line ++ ⟨line, .colon⟩ :: value.tokens line) :: tokensOfEntries line rest

def Tree.tokensOfKeywords (line : Nat) : List (String × Tree) → List (List PlacedToken)
  | [] => []
  | (key, value) :: rest =>
    (⟨line, .name key⟩ :: ⟨line, .assign⟩ :: value.tokens line) :: tokensOfKeywords line rest

end

namespace Tree

/-- Whether a call can be written behind an expression.  Behind an integer or a negation the call
would come before the minus sign. -/
def takesCall : Tree → Bool
  | .int _ | .negate _ => false
  | _ => true

/-- Whether a minus sign can be written in front of an expression.  In front of the digits of an
integer it would be part of the literal. -/
def takesMinus : Tree → Bool
  | .int n => n < 0
  | _ => true

/-- Trees that have source text: names are names, strings have no characters but those with a short
form, and every sign and keyword can be told from what stands beside it. -/
inductive Writable : Tree → Prop
  | int (n : Int64) : Writable (.int n)
  | text {s : String} : (∀ c ∈ s.toList, Lexer.hasShortForm c = true) → Writable (.text s)
  | name {s : String} : Lexer.IsName s → Writable (.name s)
  | list {items : List Tree} : (∀ item ∈ items, Writable item) → Writable (.list items)
  | map {entries : List (Tree × Tree)} : (∀ entry ∈ entries, Writable entry.1) →
      (∀ entry ∈ entries, Writable entry.2) → Writable (.map entries)
  | negate {operand : Tree} : Writable operand → operand.takesMinus = true →
      Writable (.negate operand)
  | arithmetic (operator : Operator) {left right : Tree} : Writable left → Writable right →
      Writable (.arithmetic operator left right)
  | append {head tail : Tree} : Writable head → Writable tail → Writable (.append head tail)
  | call {target : Tree} {args : List Tree} {kwargs : List (String × Tree)} : Writable target →
      target.takesCall = true → (∀ arg ∈ args, Writable arg) →
      (∀ entry ∈ kwargs, Lexer.IsName entry.1) → (∀ entry ∈ kwargs, Writable entry.2) →
      (kwargs.map (·.1)).Nodup → Writable (.call target args kwargs)

theorem sourceItems_eq_map (items : List Tree) : sourceItems items = items.map source := by
  induction items with
  | nil => rfl
  | cons item rest ih => rw [sourceItems, ih, List.map_cons]

theorem sourceEntries_eq_map (entries : List (Tree × Tree)) :
    sourceEntries entries =
      entries.map fun entry => entry.1.source ++ ": " ++ entry.2.source := by
  induction entries with
  | nil => rfl
  | cons entry rest ih => rw [sourceEntries, ih, List.map_cons]

theorem sourceKeywords_eq_map (kwargs : List (String × Tree)) :
    sourceKeywords kwargs = kwargs.map fun entry => entry.1 ++ "=" ++ entry.2.source := by
  induction kwargs with
  | nil => rfl
  | cons entry rest ih => rw [sourceKeywords, ih, List.map_cons]

variable {line : Nat}

theorem tokensOfItems_eq_map (items : List Tree) :
    tokensOfItems line items = items.map (tokens line) := by
  induction items with
  | nil => rfl
  | cons item rest ih => rw [tokensOfItems, ih, List.map_cons]

theorem tokensOfEntries_eq_map (entries : List (Tree × Tree)) :
    tokensOfEntries line entries =
      entries.map fun entry => entry.1.tokens line ++ ⟨line, .colon⟩ :: entry.2.tokens line := by
  induction entries with
  | nil => rfl
  | cons entry rest ih => rw [tokensOfEntries, ih, List.map_cons]

theorem tokensOfKeywords_eq_map (kwargs : List (String × Tree)) :
    tokensOfKeywords line kwargs =
      kwargs.map fun entry => ⟨line, .name entry.1⟩ :: ⟨line, .assign⟩ :: entry.2.tokens line := by
  induction kwargs with
  | nil => rfl
  | cons entry rest ih => rw [tokensOfKeywords, ih, List.map_cons]

/-! ### The text of an expression, in characters -/

theorem toList_source_list (items : List Tree) : (Tree.list items).source.toList =
    '[' :: ([',', ' '].intercalate (items.map fun item => item.source.toList) ++ [']']) := by
  simp [source, sourceItems_eq_map, String.toList_intercalate, Function.comp_def]

theorem toList_source_map (entries : List (Tree × Tree)) : (Tree.map entries).source.toList =
    '\x7b' :: ([',', ' '].intercalate (entries.map fun entry =>
      entry.1.source.toList ++ ([':', ' '] ++ entry.2.source.toList)) ++ ['\x7d']) := by
  simp [source, sourceEntries_eq_map, String.toList_intercalate, Function.comp_def]

theorem toList_source_arithmetic (operator : Operator) (left right : Tree) :
    (Tree.arithmetic operator left right).source.toList =
      '(' :: (left.source.toList ++
        (' ' :: (operator.symbol.toList ++ [' ']) ++ right.source.toList) ++ [')']) := by
  simp [source]

theorem toList_source_append (head tail : Tree) : (Tree.append head tail).source.toList =
    '(' :: (head.source.toList ++ (' ' :: (['>', '>'] ++ [' ']) ++ tail.source.toList) ++
      [')']) := by
  simp [source]

theorem toList_source_call (target : Tree) (args : List Tree) (kwargs : List (String × Tree)) :
    (Tree.call target args kwargs).source.toList = target.source.toList ++
      '(' :: ([',', ' '].intercalate (args.map (fun arg => arg.source.toList) ++
        kwargs.map fun entry => entry.1.toList ++ (['='] ++ entry.2.source.toList)) ++ [')']) := by
  simp [source, sourceItems_eq_map, sourceKeywords_eq_map, String.toList_intercalate,
    Function.comp_def]

/-! ### Its tokens -/

theorem spells_operator (operator : Operator) (more : List Char) :
    Lexer.ReadsAs line operator.symbol.toList [⟨line, operator.token⟩] more := by
  cases operator with
  | add => exact Lexer.readsAs_mark (c := '+') (by simp [Operator.token]) line more
  | subtract => exact Lexer.readsAs_mark (c := '-') (by simp [Operator.token]) line more
  | multiply => exact Lexer.readsAs_mark (c := '*') (by simp [Operator.token]) line more
  | divide => exact Lexer.readsAs_mark (c := '/') (by simp [Operator.token]) line more

/-- The text of a tree has the tokens of the tree. -/
theorem Writable.spells {t : Tree} (h : t.Writable) :
    Lexer.Spells line t.source.toList (t.tokens line) := by
  -- What is true of each of some parts is true of their texts and tokens side by side.
  have hparts : ∀ {α : Type} {parts : List α} {text : α → List Char}
      {list : α → List PlacedToken},
      (∀ part ∈ parts, Lexer.Spells line (text part) (list part)) →
      List.Forall₂ (Lexer.Spells line) (parts.map text) (parts.map list) := by
    intro α parts text list h
    rw [List.forall₂_map_left_iff, List.forall₂_map_right_iff]
    exact List.forall₂_same.mpr h
  induction h with
  | int n => exact Lexer.spells_int n line
  | text h => exact Lexer.spells_text h line
  | name h => exact Lexer.spells_name h line
  | list _ ih =>
    rw [toList_source_list, tokens, tokensOfItems_eq_map]
    exact (Lexer.spells_commas (hparts ih)).between (by simp)
  | @map entries _ _ ihkeys ihvalues =>
    rw [toList_source_map, tokens, tokensOfEntries_eq_map]
    refine (Lexer.spells_commas (hparts fun entry hmem => ?_)).between (by simp)
    exact (ihkeys entry hmem).join (fun _ => Lexer.endsWord_cons (by simp) _)
      (fun more => (Lexer.readsAs_mark (by simp) line _).append (Lexer.readsAs_blank line more))
      (ihvalues entry hmem)
  | @negate operand _ _ ih =>
    have htext : (Tree.negate operand).source.toList = ['-'] ++ operand.source.toList := by
      simp [source]
    rw [htext, tokens]
    intro more hmore
    exact (Lexer.readsAs_mark (by simp) line _).append (ih more hmore)
  | arithmetic operator _ _ ihleft ihright =>
    rw [toList_source_arithmetic, tokens]
    exact (ihleft.join (fun _ => Lexer.endsWord_cons (by simp) _)
      (Lexer.readsAs_spaced (spells_operator operator)) ihright).between (by simp)
  | append _ _ ihhead ihtail =>
    rw [toList_source_append, tokens]
    exact (ihhead.join (fun _ => Lexer.endsWord_cons (by simp) _)
      (Lexer.readsAs_spaced (Lexer.readsAs_append line)) ihtail).between (by simp)
  | @call target args kwargs _ _ _ hnames _ _ ihtarget ihargs ihkwargs =>
    rw [toList_source_call, tokens, tokensOfItems_eq_map, tokensOfKeywords_eq_map]
    have hkwargs : ∀ entry ∈ kwargs, Lexer.Spells line
        (entry.1.toList ++ (['='] ++ entry.2.source.toList))
        (⟨line, .name entry.1⟩ :: ⟨line, .assign⟩ :: entry.2.tokens line) := fun entry hmem =>
      (Lexer.spells_name (hnames entry hmem) line).join (fun _ => Lexer.endsWord_cons (by simp) _)
        (Lexer.readsAs_mark (by simp) line) (ihkwargs entry hmem)
    have hinner := Lexer.spells_commas (List.rel_append (hparts ihargs) (hparts hkwargs))
    intro more hmore
    exact (ihtarget _ (Lexer.endsWord_cons (by simp) _)).append
      (hinner.between (by simp) more hmore)

end Tree

/-- Text that is spelled by tokens has these tokens. -/
theorem Lexer.Spells.tokenize {source : String} {list : List PlacedToken}
    (h : Lexer.Spells 1 source.toList list) : tokenize source = .ok ⟨list, 1⟩ := by
  have hscan := h [] Lexer.endsWord_nil 0
  have hend : ∀ depth, Lexer.scanFrom 1 depth [] = .ok ⟨[], 1⟩ := fun _ => rfl
  rw [List.append_nil, hend] at hscan
  change Lexer.scanFrom 1 0 source.toList = _
  rw [hscan]
  simp [Except.map, Tokens.prepend]

/-! ## 5. Statements -/

namespace Statement

def tokens (statement : Statement) : List PlacedToken :=
  match statement.target with
  | some name =>
    ⟨statement.line, .name name⟩ :: ⟨statement.line, .assign⟩ ::
      statement.value.tokens statement.line
  | none => statement.value.tokens statement.line

structure Writable (statement : Statement) : Prop where
  target : ∀ name ∈ statement.target, Lexer.IsName name
  value : statement.value.Writable

theorem Writable.tokenize {statement : Statement} (h : statement.Writable)
    (hline : statement.line = 1) : tokenize statement.source = .ok ⟨statement.tokens, 1⟩ := by
  apply Lexer.Spells.tokenize
  rw [source, tokens, hline]
  cases htarget : statement.target with
  | none => exact h.value.spells
  | some name =>
    have htext : (name ++ " = " ++ statement.value.source).toList =
        name.toList ++ (' ' :: (['='] ++ [' ']) ++ statement.value.source.toList) := by
      simp
    have hname := Lexer.spells_name (h.target name htarget) 1
    rw [htext]
    exact hname.join (fun _ => Lexer.endsWord_cons (by simp) _)
      (Lexer.readsAs_spaced (Lexer.readsAs_mark (by simp) 1)) h.value.spells

end Statement

end Deferral
