import Deferral.Proofs.Balance
import Deferral.Proofs.ParserCompleteness

/-!
# Programs that are put together

A program and another one below it make a program, whose statements are those of both
(`parse_append`).  What is open, unfinished or nested at the end of the first one would show in the
second, so nothing is.

A parser that succeeds has no use for what follows its tokens, as long as that begins with the end
of a statement (`Moves`).
-/

namespace Deferral

def Statement.shift (n : Nat) (statement : Statement) : Statement :=
  { statement with line := statement.line + n }

namespace Parser

open Grammar

/-! ## 1. Tokens in front of others -/

def moved (n : Nat) (us ts : List PlacedToken) : List PlacedToken := ts.map (.shift n) ++ us

variable {n : Nat} {us : List PlacedToken}

@[simp] theorem moved_nil : moved n us [] = us := rfl

@[simp] theorem moved_cons (line : Nat) (token : Token) (ts : List PlacedToken) :
    moved n us (⟨line, token⟩ :: ts) = ⟨line + n, token⟩ :: moved n us ts := rfl

theorem length_moved (ts : List PlacedToken) : (moved n us ts).length = ts.length + us.length := by
  rw [moved, List.length_append, List.length_map]

/-- Whatever a parser reads, another one reads from the moved tokens. -/
def Moves {α : Type} (n : Nat) (us : List PlacedToken)
    (parser parser' : List PlacedToken → Except Halt (Parsed α)) : Prop :=
  ∀ tokens a rest, parser tokens = .ok (a, rest) →
    parser' (moved n us tokens) = .ok (a, moved n us rest)

section
variable (hus : AtBreak us) {tokens rest : List PlacedToken}
include hus

/-- What begins with the end of a statement begins with no other token. -/
theorem moved_ne_cons (token : Token) (htoken : token ≠ .separator)
    (h : ∀ line rest, tokens ≠ ⟨line, token⟩ :: rest) (line : Nat) (rest : List PlacedToken) :
    moved n us tokens ≠ ⟨line, token⟩ :: rest := by
  intro heq
  -- The token would be one of those that have been moved, or the first of the others.
  cases tokens with
  | nil =>
    rw [moved_nil] at heq
    have hhead : us.head? = some ⟨line, token⟩ := by
      rw [heq]
      rfl
    exact htoken (hus _ hhead)
  | cons first others =>
    rw [show first = ⟨first.line, first.token⟩ from rfl, moved_cons, List.cons.injEq,
      PlacedToken.mk.injEq] at heq
    exact h first.line others (by rw [← heq.1.2])

theorem moved_not_assignment
    (h : ∀ line s line' rest, tokens ≠ ⟨line, .name s⟩ :: ⟨line', .assign⟩ :: rest)
    (line : Nat) (s : String) (line' : Nat) (rest : List PlacedToken) :
    moved n us tokens ≠ ⟨line, .name s⟩ :: ⟨line', .assign⟩ :: rest := by
  intro heq
  cases tokens with
  | nil =>
    have hnil : ∀ line rest, ([] : List PlacedToken) ≠ ⟨line, .name s⟩ :: rest := nofun
    exact moved_ne_cons hus (.name s) (by simp) hnil _ _ heq
  | cons placed others =>
    obtain ⟨first, token⟩ := placed
    rw [moved_cons, List.cons.injEq, PlacedToken.mk.injEq] at heq
    obtain ⟨⟨-, rfl⟩, hothers⟩ := heq
    exact moved_ne_cons hus .assign (by decide)
      (fun line' rest heq => h first s line' rest (by rw [heq])) _ _ hothers

end

/-! ## 2. Lists between brackets -/

theorem expect_moves (wanted : Token) : Moves n us (expect wanted) (expect wanted) := by
  intro tokens u rest h
  obtain ⟨line, rfl⟩ := expect_eq_ok.mp h
  exact expect_eq_ok.mpr ⟨line + n, rfl⟩

theorem separated_moves {α : Type} (close : Token) (hclose : close ≠ .comma) (last : α)
    {more more' : List PlacedToken → Except Halt (Parsed α)} (hmore : Moves n us more more') :
    Moves n us (separated close last more) (separated close last more') := by
  intro tokens a rest h
  rcases separated_ok h with ⟨line, others, rfl, hothers⟩ | ⟨line, rfl, rfl⟩
  · exact hmore _ _ _ hothers
  · rw [moved_cons, separated]
    · simp [expect, Except.map]
    · intro line' others heq
      cases heq
      exact hclose rfl

section
variable (hus : AtBreak us)
include hus

theorem commas_moves {α : Type} (close : Token) (hcomma : close ≠ .comma)
    (hseparator : close ≠ .separator) {item item' : List PlacedToken → Except Halt (Parsed α)}
    (hitem : Moves n us item item') {fuel fuel' : Nat} (hfuel : fuel ≤ fuel') :
    Moves n us (commas close item fuel) (commas close item' fuel') := by
  induction fuel generalizing fuel' with
  | zero => exact fun _ _ _ h => nomatch h
  | succ fuel ih =>
    obtain ⟨fuel', rfl⟩ : ∃ k, fuel' = k + 1 := ⟨fuel' - 1, by omega⟩
    intro tokens found rest h
    by_cases hclose : ∃ line others, tokens = ⟨line, close⟩ :: others
    · obtain ⟨line, others, rfl⟩ := hclose
      rw [commas_close] at h
      cases h
      exact commas_close close item' fuel' (line + n) _
    · have hopen : ∀ line others, tokens ≠ ⟨line, close⟩ :: others :=
        fun line others heq => hclose ⟨line, others, heq⟩
      rw [commas_item hopen, bind_eq_ok] at h
      obtain ⟨⟨a, after⟩, ha, h⟩ := h
      obtain ⟨⟨more, last⟩, hmore, h⟩ := bind_eq_ok.mp h
      cases h
      have hnext := separated_moves close hcomma [] (ih (Nat.le_of_succ_le_succ hfuel)) _ _ _ hmore
      rw [commas_item (moved_ne_cons hus close hseparator hopen), bind_eq_ok]
      exact ⟨_, hitem _ _ _ ha, bind_eq_ok.mpr ⟨_, hnext, rfl⟩⟩

end

theorem entry_moves {nested nested' : Subparser} (hnested : Moves n us nested nested') :
    Moves n us (entry nested) (entry nested') := by
  intro tokens found rest h
  obtain ⟨⟨key, afterKey⟩, hkey, h⟩ := bind_eq_ok.mp h
  obtain ⟨⟨u, afterColon⟩, hcolon, h⟩ := bind_eq_ok.mp h
  obtain ⟨⟨value, last⟩, hvalue, h⟩ := bind_eq_ok.mp h
  cases h
  exact bind_eq_ok.mpr ⟨_, hnested _ _ _ hkey, bind_eq_ok.mpr ⟨_, expect_moves .colon _ _ _ hcolon,
    bind_eq_ok.mpr ⟨_, hnested _ _ _ hvalue, rfl⟩⟩⟩

section
variable (hus : AtBreak us)
include hus

theorem arguments_moves {nested nested' : Subparser} (hnested : Moves n us nested nested')
    {fuel fuel' : Nat} (hfuel : fuel ≤ fuel') (seen : List String) :
    Moves n us (arguments nested fuel seen) (arguments nested' fuel' seen) := by
  induction fuel generalizing fuel' seen with
  | zero => exact fun _ _ _ h => nomatch h
  | succ fuel ih =>
    obtain ⟨fuel', rfl⟩ : ∃ k, fuel' = k + 1 := ⟨fuel' - 1, by omega⟩
    have hle : fuel ≤ fuel' := Nat.le_of_succ_le_succ hfuel
    intro tokens found rest h
    generalize hsize : fuel + 1 = size at h
    fun_cases arguments nested size seen tokens with
    | case1 => cases hsize
    | case2 =>
      cases h
      rfl
    | case3 _ _ line key next others hseen =>
      rw [arguments, if_pos hseen] at h
      cases h
    | case4 _ _ line key next others hnew =>
      obtain rfl := Nat.succ.inj hsize
      rw [arguments, if_neg hnew, bind_eq_ok] at h
      obtain ⟨⟨value, after⟩, hvalue, h⟩ := h
      rw [bind_eq_ok] at h
      obtain ⟨⟨⟨args, kwargs⟩, last⟩, hmore, h⟩ := h
      cases h
      rw [moved_cons, moved_cons, arguments, if_neg hnew, bind_eq_ok]
      exact ⟨_, hnested _ _ _ hvalue, bind_eq_ok.mpr
        ⟨_, separated_moves .closeParen (by decide) _ (ih hle (key :: seen)) _ _ _ hmore, rfl⟩⟩
    | case5 _ _ _ hclose hkeyword =>
      obtain rfl := Nat.succ.inj hsize
      rw [arguments, bind_eq_ok] at h
      · obtain ⟨⟨arg, after⟩, harg, h⟩ := h
        dsimp only at h
        split at h
        · cases h
        · rename_i hseen
          rw [bind_eq_ok] at h
          obtain ⟨⟨⟨args, kwargs⟩, last⟩, hmore, h⟩ := h
          cases h
          rw [arguments, bind_eq_ok]
          · refine ⟨_, hnested _ _ _ harg, ?_⟩
            dsimp only
            rw [if_neg hseen, bind_eq_ok]
            exact ⟨_, separated_moves .closeParen (by decide) _ (ih hle seen) _ _ _ hmore, rfl⟩
          · exact moved_ne_cons hus .closeParen (by decide) hclose
          · exact moved_not_assignment hus hkeyword
      · exact hclose
      · exact hkeyword

end

/-! ## 3. Expressions -/

section
variable (hus : AtBreak us) {nested nested' : Nested}
  (hnested : ∀ room, Moves n us (nested room) (nested' room))
include hus hnested

theorem primary_moves (room : Nat) : Moves n us (primary nested room) (primary nested' room) := by
  intro tokens t rest h
  have hfuel (others : List PlacedToken) : others.length + 1 ≤ (moved n us others).length + 1 := by
    rw [length_moved]
    omega
  unfold primary at h
  split at h
  · obtain ⟨k, hk, rfl, rfl⟩ := integer_ok h
    simp only [moved_cons, primary, integer, hk]
  · cases h
    rfl
  · cases h
    rfl
  · cases h
    rfl
  · rw [bind_eq_ok] at h
    obtain ⟨⟨value, after⟩, hvalue, h⟩ := h
    rw [bind_eq_ok] at h
    obtain ⟨⟨u, last⟩, hclose, h⟩ := h
    cases h
    rw [moved_cons, primary, bind_eq_ok]
    exact ⟨_, hnested room _ _ _ hvalue,
      bind_eq_ok.mpr ⟨_, expect_moves .closeParen _ _ _ hclose, rfl⟩⟩
  · rename_i others
    rw [items_eq_commas, map_eq_ok] at h
    obtain ⟨⟨found, last⟩, hfound, h⟩ := h
    cases h
    rw [moved_cons, primary, items_eq_commas, map_eq_ok]
    have hmoves := commas_moves hus .closeBracket (by decide) (by decide) (hnested room)
      (hfuel others)
    exact ⟨_, hmoves _ _ _ hfound, rfl⟩
  · rename_i others
    rw [entries_eq_commas, map_eq_ok] at h
    obtain ⟨⟨found, last⟩, hfound, h⟩ := h
    cases h
    rw [moved_cons, primary, entries_eq_commas, map_eq_ok]
    have hmoves := commas_moves hus .closeBrace (by decide) (by decide)
      (entry_moves (hnested room)) (hfuel others)
    exact ⟨_, hmoves _ _ _ hfound, rfl⟩
  · cases h

theorem calls_moves (room : Nat) (target : Tree) :
    Moves n us (calls nested room target) (calls nested' room target) := by
  intro tokens t rest h
  fun_induction calls nested room target tokens with
  | case1 => cases h
  | case2 room target line others ih =>
    rw [bind_eq_ok] at h
    obtain ⟨⟨⟨args, kwargs⟩, after⟩, hargs, h⟩ := h
    rw [moved_cons, calls, bind_eq_ok]
    have hfuel : others.length + 1 ≤ (moved n us others).length + 1 := by
      rw [length_moved]
      omega
    exact ⟨_, arguments_moves hus (hnested room) hfuel [] _ _ _ hargs, ih args kwargs after h⟩
  | case3 room target tokens hzero hsucc =>
    have hopen : ∀ line others, tokens ≠ ⟨line, .openParen⟩ :: others := by
      rintro line others rfl
      cases room with
      | zero => exact hzero line others rfl rfl
      | succ room => exact hsucc room line others rfl rfl
    have hmoved := moved_ne_cons (n := n) hus .openParen (by decide) hopen
    cases h
    rw [calls]
    · exact fun line others _ => hmoved line others
    · exact fun _ line others _ => hmoved line others

theorem postfixed_moves (room : Nat) :
    Moves n us (postfixed nested room) (postfixed nested' room) := by
  intro tokens t rest h
  rw [postfixed, bind_eq_ok] at h
  obtain ⟨⟨target, after⟩, htarget, h⟩ := h
  rw [postfixed, bind_eq_ok]
  exact ⟨_, primary_moves hus hnested room _ _ _ htarget,
    calls_moves hus hnested room target _ _ _ h⟩

theorem unary_moves (room : Nat) : Moves n us (unary nested room) (unary nested' room) := by
  intro tokens t rest h
  fun_induction unary nested room tokens generalizing t with
  | case1 =>
    obtain ⟨k, hk, rfl, rfl⟩ := integer_ok h
    rw [moved_cons, moved_cons, unary, integer, hk]
  | case2 => cases h
  | case3 room line others hinteger ih =>
    rw [map_eq_ok] at h
    obtain ⟨⟨operand, after⟩, hoperand, h⟩ := h
    cases h
    have hmoved : ∀ line k rest, moved n us others ≠ ⟨line, .integer k⟩ :: rest := fun line k =>
      moved_ne_cons hus (.integer k) (by simp) (fun line' => hinteger line' k) line
    rw [moved_cons, unary, map_eq_ok]
    · exact ⟨_, ih _ hoperand, rfl⟩
    · exact hmoved
  | case4 room tokens _ hzero hsucc =>
    have hminus : ∀ line others, tokens ≠ ⟨line, .minus⟩ :: others := by
      rintro line others rfl
      cases room with
      | zero => exact hzero line others rfl rfl
      | succ room => exact hsucc room line others rfl rfl
    have hmoved := moved_ne_cons (n := n) hus .minus (by decide) hminus
    rw [unary]
    · exact postfixed_moves hus hnested room _ _ _ h
    · exact fun line _ _ _ => hmoved line _
    · exact fun line others _ => hmoved line others
    · exact fun _ line others _ => hmoved line others

end

section
variable (hus : AtBreak us) {operator? : Token → Option Operator}
  (hseparator : operator? .separator = none) {operand operand' : Nested}
  (hoperand : ∀ room, Moves n us (operand room) (operand' room))
include hus hseparator hoperand

theorem chain_moves (room : Nat) (left : Tree) :
    Moves n us (chain operator? operand room left) (chain operator? operand' room left) := by
  intro tokens t rest h
  fun_induction chain operator? operand room left tokens with
  | case1 room left mark others hmark =>
    change chain operator? operand' room left (mark.shift n :: moved n us others) = _
    rw [chain.eq_def]
    simp only [PlacedToken.shift_token, hmark]
    cases h
    rfl
  | case2 => cases h
  | case3 left mark others operator room hmark ih =>
    rw [bind_eq_ok] at h
    obtain ⟨⟨right, after⟩, hright, h⟩ := h
    change chain operator? operand' (room + 1) left (mark.shift n :: moved n us others) = _
    rw [chain_succ room left _ (show operator? (mark.shift n).token = some operator from hmark),
      bind_eq_ok]
    exact ⟨_, hoperand room _ _ _ hright, ih right after h⟩
  | case4 room left =>
    cases h
    rw [moved_nil]
    cases hfirst : us with
    | nil => rw [chain]
    | cons mark others =>
      have hmark : mark.token = .separator := hus mark (by rw [hfirst]; rfl)
      rw [chain.eq_def]
      simp only [hmark, hseparator]

theorem level_moves (room : Nat) :
    Moves n us
      (fun tokens => do
        let (left, rest) ← operand room tokens
        chain operator? operand room left rest)
      (fun tokens => do
        let (left, rest) ← operand' room tokens
        chain operator? operand' room left rest) := by
  intro tokens t rest h
  dsimp only at h ⊢
  rw [bind_eq_ok] at h
  obtain ⟨⟨left, after⟩, hleft, h⟩ := h
  exact bind_eq_ok.mpr ⟨_, hoperand room _ _ _ hleft,
    chain_moves hus hseparator hoperand room left _ _ _ h⟩

end

theorem expression_moves (hus : AtBreak us) (fuel room : Nat) :
    Moves n us (expression fuel room) (expression fuel room) := by
  induction fuel generalizing room with
  | zero => exact fun _ _ _ h => nomatch h
  | succ fuel ih =>
    intro tokens t rest h
    cases room with
    | zero => cases h
    | succ room =>
      rw [expression, bind_eq_ok] at h
      obtain ⟨⟨head, after⟩, hhead, h⟩ := h
      have hproduct : ∀ room, Moves n us (product (expression fuel) room)
          (product (expression fuel) room) := level_moves hus rfl (unary_moves hus ih)
      have hsum := level_moves hus rfl hproduct room _ _ _ hhead
      rw [expression, bind_eq_ok]
      refine ⟨_, hsum, ?_⟩
      dsimp only at h ⊢
      split at h
      · rename_i line others
        rw [bind_eq_ok] at h
        obtain ⟨⟨tail, last⟩, htail, h⟩ := h
        cases h
        exact bind_eq_ok.mpr ⟨_, ih room _ _ _ htail, rfl⟩
      · rename_i happend
        cases h
        have hmoved := moved_ne_cons (n := n) hus .append (by decide) happend
        split
        · exact absurd ‹_› (hmoved _ _)
        · rfl

/-! ## 4. Statements -/

theorem statement_moves (hus : AtBreak us) {line : Nat} {tokens rest : List PlacedToken}
    {s : Statement} (h : statement line tokens = .ok (s, rest)) :
    statement (line + n) (moved n us tokens) = .ok (s.shift n, moved n us rest) := by
  unfold statement at h
  split at h
  · rw [map_eq_ok] at h
    obtain ⟨⟨value, last⟩, hvalue, h⟩ := h
    cases h
    rw [moved_cons, moved_cons, statement, map_eq_ok]
    exact ⟨_, expression_moves hus _ _ _ _ _ hvalue, rfl⟩
  · rename_i hassign
    rw [map_eq_ok] at h
    obtain ⟨⟨value, last⟩, hvalue, h⟩ := h
    cases h
    rw [statement, map_eq_ok]
    · exact ⟨_, expression_moves hus _ _ _ _ _ hvalue, rfl⟩
    · exact moved_not_assignment hus hassign

/-- Separators in front of the statements do not matter. -/
theorem statements_blank {ts : List PlacedToken} (hblank : Blank ts) (fuel : Nat)
    (us : List PlacedToken) : statements fuel (ts ++ us) = statements fuel us := by
  cases fuel with
  | zero => rfl
  | succ fuel =>
    rw [statements, statements, List.dropWhile_append_of_pos]
    exact fun placed hmem => decide_eq_true (hblank placed hmem)

/-- Where there is no separator in front of a statement, the others are read after it. -/
theorem statements_first {fuel : Nat} {first : PlacedToken} {ts rest : List PlacedToken}
    {s : Statement} (hfirst : first.token ≠ .separator)
    (hs : statement first.line (first :: ts) = .ok (s, rest)) (hrest : AtBreak rest) :
    statements (fuel + 1) (first :: ts) = (statements fuel rest).map (s :: ·) := by
  rw [statements, List.dropWhile_cons_of_neg (by simpa using hfirst)]
  dsimp only
  rw [hs]
  cases rest with
  | nil =>
    have hnone : statements fuel [] = .ok [] := by cases fuel <;> rfl
    rw [hnone]
    rfl
  | cons mark more =>
    obtain ⟨line, token⟩ := mark
    obtain rfl : token = .separator := hrest _ rfl
    change (statements fuel _ >>= fun following => .ok (s :: following)) = _
    cases statements fuel (⟨line, .separator⟩ :: more) <;> rfl

theorem statements_first_ok {fuel : Nat} {first : PlacedToken} {ts : List PlacedToken}
    {found : List Statement} (hfirst : first.token ≠ .separator)
    (h : statements (fuel + 1) (first :: ts) = .ok found) :
    ∃ s rest others, statement first.line (first :: ts) = .ok (s, rest) ∧ AtBreak rest ∧
      rest.length ≤ ts.length ∧ statements fuel rest = .ok others ∧ found = s :: others := by
  have hok := h
  rw [statements, List.dropWhile_cons_of_neg (by simpa using hfirst), bind_eq_ok] at h
  obtain ⟨⟨s, rest⟩, hs, h⟩ := h
  have hrest : AtBreak rest := by
    intro placed hmem
    dsimp only at h
    split at h
    · cases hmem
    · cases hmem
      rfl
    · cases h
  -- A statement has a first token, so what follows it is no longer than the tokens after that.
  obtain ⟨used, heq, hused⟩ := statement_reads hs
  obtain ⟨start, more, rfl, -⟩ := hused.begins
  have hlength := congrArg List.length heq
  rw [List.length_append, List.length_cons, List.length_cons] at hlength
  rw [statements_first hfirst hs hrest] at hok
  obtain ⟨others, hothers, rfl⟩ := map_eq_ok.mp hok
  exact ⟨s, rest, others, hs, hrest, by omega, hothers, rfl⟩

theorem exists_blank_split (tokens : List PlacedToken) : ∃ blank rest, tokens = blank ++ rest ∧
    Blank blank ∧ ∀ first ∈ rest.head?, first.token ≠ .separator := by
  refine ⟨_, _, List.takeWhile_append_dropWhile.symm, blank_takeWhile tokens, ?_⟩
  intro first hfirst
  have hhead := List.head?_dropWhile_not (fun placed => placed.token = .separator) tokens
  rw [Option.mem_def.mp hfirst] at hhead
  simpa using hhead

theorem statements_moved_blank {blank : List PlacedToken} (hblank : Blank blank) (fuel : Nat)
    (rest : List PlacedToken) :
    statements fuel (moved n us (blank ++ rest)) = statements fuel (moved n us rest) := by
  have hblank' : Blank (blank.map (.shift n)) := by
    intro placed hmem
    obtain ⟨other, hother, rfl⟩ := List.mem_map.mp hmem
    exact hblank other hother
  rw [moved, List.map_append, List.append_assoc, statements_blank hblank']
  rfl

theorem atBreak_moved (hus : AtBreak us) {after : List PlacedToken} (hafter : AtBreak after) :
    AtBreak (moved n us after) := by
  cases after with
  | nil => exact hus
  | cons mark more =>
    intro placed hmem
    obtain rfl := Option.some.inj hmem
    exact hafter mark rfl

/-- The statements in front of others, if it does not matter how much fuel is left for these. -/
theorem statements_moved (hus : AtBreak us) {others : List Statement}
    (hothers : ∀ fuel, us.length ≤ fuel → statements fuel us = .ok others) {fuel fuel' : Nat}
    {tokens : List PlacedToken} {found : List Statement} (hfuel : tokens.length ≤ fuel)
    (h : statements fuel tokens = .ok found) (hfuel' : (moved n us tokens).length ≤ fuel') :
    statements fuel' (moved n us tokens) = .ok (found.map (.shift n) ++ others) := by
  rw [length_moved] at hfuel'
  induction fuel generalizing fuel' tokens found with
  | zero =>
    obtain rfl := List.length_eq_zero_iff.mp (Nat.le_zero.mp hfuel)
    cases h
    exact hothers fuel' (by omega)
  | succ fuel ih =>
    -- First the separators in front of the first statement, and then that statement.
    obtain ⟨blank, rest, rfl, hblank, hrest⟩ := exists_blank_split tokens
    rw [List.length_append] at hfuel hfuel'
    rw [statements_blank hblank] at h
    rw [statements_moved_blank hblank]
    cases rest with
    | nil =>
      cases h
      exact hothers fuel' (by omega)
    | cons first ts =>
      have hfirst : first.token ≠ .separator := hrest first rfl
      obtain ⟨s, after, following, hs, hafter, hle, hfollowing, rfl⟩ :=
        statements_first_ok hfirst h
      rw [List.length_cons] at hfuel hfuel'
      obtain ⟨fuel', rfl⟩ : ∃ k, fuel' = k + 1 := ⟨fuel' - 1, by omega⟩
      have hs' : statement (first.shift n).line (first.shift n :: moved n us ts) =
          .ok (s.shift n, moved n us after) := statement_moves hus hs
      have hfirst' : (first.shift n).token ≠ .separator := hfirst
      change statements (fuel' + 1) (first.shift n :: moved n us ts) = _
      rw [statements_first hfirst' hs' (atBreak_moved hus hafter),
        ih (by omega) hfollowing (by omega)]
      rfl

end Parser

theorem parse_ok {source : String} {found : List Statement} (h : parse source = .ok found) :
    ∃ tokens, tokenize source = .ok tokens ∧
      Parser.statements tokens.list.length tokens.list = .ok found := by
  obtain ⟨tokens, htokens, -⟩ := Parser.bind_eq_ok.mp h
  rw [parse_eq htokens] at h
  split at h
  · rename_i hok
    cases h
    exact ⟨tokens, htokens, hok⟩
  · cases h

open Grammar in
theorem parse_append {first second : String} {found others : List Statement}
    (h : parse first = .ok found) (h' : parse second = .ok others) :
    parse (first ++ "\n" ++ second) =
      .ok (found ++ others.map (.shift (1 + first.toList.count '\n'))) := by
  generalize hn : 1 + first.toList.count '\n' = n
  obtain ⟨tokens, htokens, hfound⟩ := parse_ok h
  obtain ⟨tokens', htokens', hothers⟩ := parse_ok h'
  have hdepth : depthAfterAll 0 tokens.list = 0 := parse_balanced htokens h 0
  have hnil : AtBreak [] := fun _ hmem => nomatch hmem
  have hnone : ∀ fuel, ([] : List PlacedToken).length ≤ fuel →
      Parser.statements fuel [] = .ok [] := fun fuel _ => by cases fuel <;> rfl
  -- The second program has nothing after it, and the first one the break and the second program.
  let below := Parser.moved n [] tokens'.list
  let after : List PlacedToken := ⟨n, .separator⟩ :: below
  have hafter : ∀ fuel, after.length ≤ fuel →
      Parser.statements fuel after = .ok (others.map (.shift n)) := by
    intro fuel hfuel
    have hseparator : Blank [⟨n, .separator⟩] := by simp [Blank]
    have hbelow := Parser.statements_moved hnil hnone (Nat.le_refl _) hothers
      (Nat.le_of_succ_le hfuel)
    rw [List.append_nil] at hbelow
    exact (Parser.statements_blank hseparator fuel below).trans hbelow
  have hbreak : AtBreak after := by simp [AtBreak, after]
  have hall := Parser.statements_moved (n := 0) hbreak hafter (Nat.le_refl _) hfound
    (Nat.le_refl _)
  have hjoined := tokenize_append htokens htokens' hdepth
  have hlist : Parser.moved 0 after tokens.list =
      (((tokens'.shift n).cons ⟨n, .separator⟩).prepend tokens.list).list := by
    have hsame : tokens.list.map (PlacedToken.shift 0) = tokens.list := List.map_id' _
    simp [Parser.moved, hsame, after, below, Tokens.prepend, Tokens.cons, Tokens.shift]
  have hsame : found.map (Statement.shift 0) = found := List.map_id' _
  rw [hn] at hjoined
  rw [hlist, hsame] at hall
  rw [parse_eq hjoined, hall]

/-! ## 5. Any number of programs -/

def Statement.content (statement : Statement) : Option String × Tree :=
  (statement.target, statement.value)

theorem parse_append_all {parts : List (String × List Statement)} {first : String}
    {found : List Statement} (hfirst : parse first = .ok found)
    (h : ∀ part ∈ parts, parse part.1 = .ok part.2) :
    ∃ all, parse ("\n".intercalate (first :: parts.map (·.1))) = .ok all ∧
      all.map Statement.content = found.map Statement.content ++
        parts.flatMap fun part => part.2.map Statement.content := by
  induction parts generalizing first found with
  | nil => exact ⟨found, hfirst, by simp⟩
  | cons second rest ih =>
    have hjoined := parse_append hfirst (h second List.mem_cons_self)
    obtain ⟨all, hparse, hcontent⟩ := ih hjoined fun part hpart =>
      h part (List.mem_cons_of_mem second hpart)
    refine ⟨all, hparse, ?_⟩
    have hshift (n : Nat) : Statement.content ∘ Statement.shift n = Statement.content := rfl
    rw [hcontent, List.map_append, List.map_map, hshift, List.append_assoc, List.flatMap_cons]

theorem parse_append_content {parts : List (String × List Statement)}
    (h : ∀ part ∈ parts, parse part.1 = .ok part.2) :
    ∃ found, parse ("\n".intercalate (parts.map (·.1))) = .ok found ∧
      found.map Statement.content = parts.flatMap fun part => part.2.map Statement.content := by
  cases parts with
  | nil => exact ⟨[], rfl, rfl⟩
  | cons first rest =>
    obtain ⟨all, hparse, hcontent⟩ := parse_append_all (h first List.mem_cons_self)
      fun part hpart => h part (List.mem_cons_of_mem first hpart)
    exact ⟨all, hparse, by rw [hcontent, List.flatMap_cons]⟩

/-- Parsing respects the concatenation of programs by lines: the statements of the second program
follow those of the first one, further down by the lines of that.  So programs in any number, joined
by line breaks, are a program with the statements of all of them. -/
theorem parse_joined :
    (∀ first second found others, parse first = .ok found → parse second = .ok others →
      parse (first ++ "\n" ++ second) =
        .ok (found ++ others.map (.shift (1 + first.toList.count '\n')))) ∧
    ∀ parts : List (String × List Statement), (∀ part ∈ parts, parse part.1 = .ok part.2) →
      ∃ found, parse ("\n".intercalate (parts.map (·.1))) = .ok found ∧
        found.map Statement.content = parts.flatMap fun part => part.2.map Statement.content :=
  ⟨fun _ _ _ _ h h' => parse_append h h', fun _ h => parse_append_content h⟩

/-- A program that ends in a comment with brackets, after a list over two lines. -/
theorem parse_joined_comment :
    let first := "x = [1,\n2] # ((\""
    let second := "\ny; 3"
    let found : List Statement := [⟨1, some "x", .list [.int 1, .int 2]⟩]
    let others : List Statement := [⟨2, none, .name "y"⟩, ⟨2, none, .int 3⟩]
    parse first = .ok found ∧ parse second = .ok others ∧
      parse (first ++ "\n" ++ second) =
        .ok (found ++ [⟨4, none, .name "y"⟩, ⟨4, none, .int 3⟩]) := by
  intro first second found others
  have htokens : tokenize first = .ok ⟨[⟨1, .name "x"⟩, ⟨1, .assign⟩, ⟨1, .openBracket⟩,
      ⟨1, .integer 1⟩, ⟨1, .comma⟩, ⟨2, .integer 2⟩, ⟨2, .closeBracket⟩], 2⟩ := by
    decide +kernel
  have htokens' : tokenize second = .ok ⟨[⟨1, .separator⟩, ⟨2, .name "y"⟩, ⟨2, .separator⟩,
      ⟨2, .integer 3⟩], 2⟩ := by
    decide +kernel
  have hfirst : parse first = .ok found := by
    rw [parse_eq htokens]
    rfl
  have hsecond : parse second = .ok others := by
    rw [parse_eq htokens']
    rfl
  have hcount : first.toList.count '\n' = 1 := by decide +kernel
  have hjoined := parse_joined.1 first second found others hfirst hsecond
  rw [hcount] at hjoined
  exact ⟨hfirst, hsecond, hjoined⟩

end Deferral
