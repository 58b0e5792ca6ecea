import Deferral.Proofs.Grammar
import Mathlib.Data.List.TakeWhile

/-!
# What the parsers accept

A parser that succeeds has read a phrase of the grammar from the front of its tokens, and the tokens
after that phrase are the rest that it gives (`Reads`).  There is one lemma for each parser, and
each of them only needs to know what the parsers that it calls read.
-/

namespace Deferral

namespace Parser

open Grammar

/-! ## 1. Successful runs -/

theorem bind_eq_ok {ε α β : Type} {x : Except ε α} {f : α → Except ε β} {b : β} :
    (x >>= f) = .ok b ↔ ∃ a, x = .ok a ∧ f a = .ok b := by
  cases x <;> simp [bind, Except.bind]

theorem map_eq_ok {ε α β : Type} {x : Except ε α} {f : α → β} {b : β} :
    x.map f = .ok b ↔ ∃ a, x = .ok a ∧ f a = b := by
  cases x <;> simp [Except.map]

/-- Whenever a parser succeeds, what it has read is a phrase that stands for its result. -/
def Reads {α : Type} (parser : List PlacedToken → Except Halt (Parsed α))
    (phrase : List PlacedToken → α → Prop) : Prop :=
  ∀ tokens a rest, parser tokens = .ok (a, rest) → ∃ used, tokens = used ++ rest ∧ phrase used a

theorem expect_eq_ok {wanted : Token} {tokens rest : List PlacedToken} {u : Unit} :
    expect wanted tokens = .ok (u, rest) ↔ ∃ line, tokens = ⟨line, wanted⟩ :: rest := by
  cases tokens with
  | nil => simp [expect, unexpected]
  | cons placed others =>
    obtain ⟨line, token⟩ := placed
    by_cases htoken : token = wanted <;> simp [expect, unexpected, htoken, eq_comm]

theorem separated_ok {α : Type} {close : Token} {last a : α}
    {more : List PlacedToken → Except Halt (Parsed α)} {tokens rest : List PlacedToken}
    (h : separated close last more tokens = .ok (a, rest)) :
    (∃ line us, tokens = ⟨line, .comma⟩ :: us ∧ more us = .ok (a, rest)) ∨
      ∃ line, tokens = ⟨line, close⟩ :: rest ∧ a = last := by
  unfold separated at h
  split at h
  · exact .inl ⟨_, _, rfl, h⟩
  · obtain ⟨⟨u, after⟩, hclose, hlast⟩ := map_eq_ok.mp h
    obtain ⟨line, rfl⟩ := expect_eq_ok.mp hclose
    cases hlast
    exact .inr ⟨line, rfl, rfl⟩

/-! ## 2. Lists between brackets -/

def commas {α : Type} (close : Token) (item : List PlacedToken → Except Halt (Parsed α)) :
    (fuel : Nat) → List PlacedToken → Except Halt (Parsed (List α))
  | 0, tokens => unexpected .expression tokens
  | fuel + 1, tokens =>
    match expect close tokens with
    | .ok (_, rest) => .ok ([], rest)
    | .error _ => do
      let (a, rest) ← item tokens
      let (more, rest) ← separated close [] (commas close item fuel) rest
      return (a :: more, rest)

def entry (nested : Subparser) (tokens : List PlacedToken) :
    Except Halt (Parsed (Tree × Tree)) := do
  let (key, rest) ← nested tokens
  let (_, rest) ← expect .colon rest
  let (value, rest) ← nested rest
  return ((key, value), rest)

theorem commas_close {α : Type} (close : Token) (item : List PlacedToken → Except Halt (Parsed α))
    (fuel line : Nat) (rest : List PlacedToken) :
    commas close item (fuel + 1) (⟨line, close⟩ :: rest) = .ok ([], rest) := by
  simp [commas, expect]

theorem commas_item {α : Type} {close : Token} {tokens : List PlacedToken}
    (hclose : ∀ line rest, tokens ≠ ⟨line, close⟩ :: rest)
    (item : List PlacedToken → Except Halt (Parsed α)) (fuel : Nat) :
    commas close item (fuel + 1) tokens = (do
      let (a, rest) ← item tokens
      let (more, rest) ← separated close [] (commas close item fuel) rest
      return (a :: more, rest)) := by
  rw [commas]
  split
  · rename_i hok
    obtain ⟨line, rfl⟩ := expect_eq_ok.mp hok
    exact absurd rfl (hclose line _)
  · rfl

theorem items_eq_commas (nested : Subparser) (fuel : Nat) :
    items nested fuel = commas .closeBracket nested fuel := by
  induction fuel with
  | zero => rfl
  | succ fuel ih =>
    funext tokens
    by_cases hclose : ∃ line rest, tokens = ⟨line, .closeBracket⟩ :: rest
    · obtain ⟨line, rest, rfl⟩ := hclose
      rw [items, commas_close]
    · have hitem : ∀ line rest, tokens ≠ ⟨line, .closeBracket⟩ :: rest :=
        fun line rest h => hclose ⟨line, rest, h⟩
      -- The match of this parser only gives its last branch to tokens that are not closed.
      rw [items, ih, commas_item hitem]
      exact hitem

theorem entries_eq_commas (nested : Subparser) (fuel : Nat) :
    entries nested fuel = commas .closeBrace (entry nested) fuel := by
  induction fuel with
  | zero => rfl
  | succ fuel ih =>
    funext tokens
    by_cases hclose : ∃ line rest, tokens = ⟨line, .closeBrace⟩ :: rest
    · obtain ⟨line, rest, rfl⟩ := hclose
      rw [entries, commas_close]
    · have hitem : ∀ line rest, tokens ≠ ⟨line, .closeBrace⟩ :: rest :=
        fun line rest h => hclose ⟨line, rest, h⟩
      rw [entries, ih, commas_item hitem]
      · simp [entry]
      · exact hitem

variable {nested : Subparser} {phrase : List PlacedToken → Tree → Prop}

theorem commas_reads {α : Type} {close : Token}
    {item : List PlacedToken → Except Halt (Parsed α)} {phrase : List PlacedToken → α → Prop}
    (hitem : Reads item phrase) {fuel : Nat} {tokens rest : List PlacedToken} {found : List α}
    (h : commas close item fuel tokens = .ok (found, rest)) :
    ∃ used line, tokens = used ++ ⟨line, close⟩ :: rest ∧ Commas phrase used found := by
  induction fuel generalizing tokens found with
  | zero => cases h
  | succ fuel ih =>
    rw [commas] at h
    split at h
    · rename_i hok
      obtain ⟨line, rfl⟩ := expect_eq_ok.mp hok
      cases h
      exact ⟨[], line, rfl, .nil⟩
    · obtain ⟨⟨a, after⟩, ha, h⟩ := bind_eq_ok.mp h
      obtain ⟨⟨more, last⟩, hmore, h⟩ := bind_eq_ok.mp h
      cases h
      obtain ⟨used, rfl, hused⟩ := hitem _ _ _ ha
      rcases separated_ok hmore with ⟨line, us, rfl, hmore⟩ | ⟨line, rfl, rfl⟩
      · obtain ⟨others, line', rfl, hothers⟩ := ih hmore
        exact ⟨used ++ ⟨line, .comma⟩ :: others, line', by simp, .cons hused hothers⟩
      · exact ⟨used, line, rfl, .last hused⟩

theorem entry_reads (hnested : Reads nested phrase) : Reads (entry nested) (Entry phrase) := by
  intro tokens a rest h
  obtain ⟨⟨key, afterKey⟩, hkey, h⟩ := bind_eq_ok.mp h
  obtain ⟨⟨u, afterColon⟩, hcolon, h⟩ := bind_eq_ok.mp h
  obtain ⟨⟨value, last⟩, hvalue, h⟩ := bind_eq_ok.mp h
  cases h
  obtain ⟨used, rfl, hused⟩ := hnested _ _ _ hkey
  obtain ⟨line, rfl⟩ := expect_eq_ok.mp hcolon
  obtain ⟨others, rfl, hothers⟩ := hnested _ _ _ hvalue
  exact ⟨used ++ ⟨line, .colon⟩ :: others, by simp, .mk hused hothers⟩

/-- The keywords of a call are new ones, and nothing positional follows a keyword. -/
theorem arguments_reads (hnested : Reads nested phrase) {fuel : Nat} {seen : List String}
    {tokens rest : List PlacedToken} {args : List Tree} {kwargs : List (String × Tree)}
    (h : arguments nested fuel seen tokens = .ok ((args, kwargs), rest)) :
    ∃ used line, tokens = used ++ ⟨line, .closeParen⟩ :: rest ∧ Arguments phrase used args kwargs ∧
      (∀ key ∈ kwargs.map (·.1), key ∉ seen) ∧ (seen ≠ [] → args = []) := by
  -- By induction on the fuel, with the branches of the parser at each step.  What the names seen so
  -- far allow goes through the induction with the phrase: a keyword puts its own name among them.
  induction fuel generalizing seen tokens args kwargs with
  | zero => cases h
  | succ fuel ih =>
    generalize hfuel : fuel + 1 = size at h
    fun_cases arguments nested size seen tokens with
    | case1 => cases hfuel
    | case2 =>
      cases h
      exact ⟨[], _, rfl, .keywords .nil .nil, by simp, fun _ => rfl⟩
    | case3 _ _ line key next others hseen =>
      rw [arguments, if_pos hseen] at h
      cases h
    | case4 _ _ line key next others hnew =>
      obtain rfl := Nat.succ.inj hfuel
      rw [arguments, if_neg hnew, bind_eq_ok] at h
      obtain ⟨⟨value, after⟩, hvalue, h⟩ := h
      rw [bind_eq_ok] at h
      obtain ⟨⟨⟨none, more⟩, last⟩, hmore, h⟩ := h
      cases h
      obtain ⟨used, rfl, hused⟩ := hnested _ _ _ hvalue
      rcases separated_ok hmore with ⟨comma, us, rfl, hmore⟩ | ⟨close, rfl, hlast⟩
      · obtain ⟨others, close, rfl, hothers, hnames, hargs⟩ := ih hmore
        -- A name has been seen, so what follows are keywords only.
        obtain rfl := hargs (List.cons_ne_nil _ _)
        cases hothers with
        | keywords hcommas hnodup =>
          have hkey : key ∉ more.map (·.1) := fun hmem => hnames _ hmem List.mem_cons_self
          refine ⟨_ :: _ :: (used ++ ⟨comma, .comma⟩ :: others), close, by simp; exact ⟨rfl, rfl⟩,
            .keywords (.cons (.mk hused) hcommas) (List.nodup_cons.mpr ⟨hkey, hnodup⟩), ?_,
            fun _ => rfl⟩
          rw [List.map_cons, List.forall_mem_cons]
          exact ⟨hnew, fun name hname hseen => hnames name hname (List.mem_cons_of_mem _ hseen)⟩
      · cases hlast
        refine ⟨_ :: _ :: used, close, rfl, .keywords (.last (.mk hused)) ?_, ?_, fun _ => rfl⟩
        · exact List.nodup_cons.mpr ⟨List.not_mem_nil, .nil⟩
        · rw [List.map_singleton, List.forall_mem_singleton]
          exact hnew
    | case5 _ _ _ hclose hkeyword =>
      obtain rfl := Nat.succ.inj hfuel
      rw [arguments, bind_eq_ok] at h
      · obtain ⟨⟨arg, after⟩, harg, h⟩ := h
        dsimp only at h
        split at h
        · cases h
        · rename_i hseen
          obtain rfl := not_not.mp hseen
          rw [bind_eq_ok] at h
          obtain ⟨⟨⟨others, more⟩, last⟩, hmore, h⟩ := h
          cases h
          obtain ⟨used, rfl, hused⟩ := hnested _ _ _ harg
          rcases separated_ok hmore with ⟨comma, us, rfl, hmore⟩ | ⟨close, rfl, hlast⟩
          · obtain ⟨others, close, rfl, hothers, hnames, -⟩ := ih hmore
            exact ⟨used ++ ⟨comma, .comma⟩ :: others, close, by simp, .cons hused hothers, hnames,
              fun hne => absurd rfl hne⟩
          · cases hlast
            exact ⟨used, close, rfl, .last hused, by simp, fun hne => absurd rfl hne⟩
      · exact hclose
      · exact hkeyword

/-! ## 3. Expressions -/

theorem integer_ok {negative : Bool} {n : Nat} {tokens rest after : List PlacedToken} {t : Tree}
    (h : integer negative n tokens rest = .ok (t, after)) :
    ∃ k, int64? (if negative then -(n : Int) else n) = some k ∧ t = .int k ∧ after = rest := by
  unfold integer at h
  split at h
  · rename_i k hk
    cases h
    exact ⟨k, hk, rfl, rfl⟩
  · cases h

section
variable {nested : Nested} {phrase : List PlacedToken → Tree → Prop}
  (hnested : ∀ room, Reads (nested room) phrase)
include hnested

theorem primary_reads (room : Nat) : Reads (primary nested room) (Primary phrase) := by
  intro tokens t rest h
  unfold primary at h
  split at h
  · obtain ⟨k, hk, rfl, rfl⟩ := integer_ok h
    exact ⟨[_], rfl, .integer hk⟩
  · cases h
    exact ⟨[_], rfl, .float _ _⟩
  · cases h
    exact ⟨[_], rfl, .text _ _⟩
  · cases h
    exact ⟨[_], rfl, .name _ _⟩
  · rename_i line others
    rw [bind_eq_ok] at h
    obtain ⟨⟨value, after⟩, hvalue, h⟩ := h
    rw [bind_eq_ok] at h
    obtain ⟨⟨u, last⟩, hclose, h⟩ := h
    cases h
    obtain ⟨used, rfl, hused⟩ := hnested room _ _ _ hvalue
    obtain ⟨close, rfl⟩ := expect_eq_ok.mp hclose
    exact ⟨⟨line, .openParen⟩ :: (used ++ [⟨close, .closeParen⟩]), by simp, .parens hused⟩
  · rename_i line others
    rw [items_eq_commas, map_eq_ok] at h
    obtain ⟨⟨found, last⟩, hfound, h⟩ := h
    cases h
    obtain ⟨used, close, rfl, hused⟩ := commas_reads (hnested room) hfound
    exact ⟨⟨line, .openBracket⟩ :: (used ++ [⟨close, .closeBracket⟩]), by simp, .list hused⟩
  · rename_i line others
    rw [entries_eq_commas, map_eq_ok] at h
    obtain ⟨⟨found, last⟩, hfound, h⟩ := h
    cases h
    obtain ⟨used, close, rfl, hused⟩ := commas_reads (entry_reads (hnested room)) hfound
    exact ⟨⟨line, .openBrace⟩ :: (used ++ [⟨close, .closeBrace⟩]), by simp, .map hused⟩
  · cases h

/-- What has been read so far and the calls on it make one phrase. -/
theorem calls_reads {room : Nat} {target t : Tree} {ts tokens rest : List PlacedToken}
    (htarget : Postfixed phrase ts target)
    (h : calls nested room target tokens = .ok (t, rest)) :
    ∃ used, tokens = used ++ rest ∧ Postfixed phrase (ts ++ used) t := by
  fun_induction calls nested room target tokens generalizing ts with
  | case1 => cases h
  | case2 room target line others ih =>
    rw [bind_eq_ok] at h
    obtain ⟨⟨⟨args, kwargs⟩, after⟩, hargs, h⟩ := h
    obtain ⟨used, close, rfl, hused, -⟩ := arguments_reads (hnested room) hargs
    obtain ⟨more, rfl, hmore⟩ := ih _ _ _ (.call htarget hused) h
    exact ⟨⟨line, .openParen⟩ :: (used ++ ⟨close, .closeParen⟩ :: more), by simp,
      by simpa using hmore⟩
  | case3 =>
    cases h
    exact ⟨[], rfl, by rwa [List.append_nil]⟩

theorem postfixed_reads (room : Nat) : Reads (postfixed nested room) (Postfixed phrase) := by
  intro tokens t rest h
  rw [postfixed, bind_eq_ok] at h
  obtain ⟨⟨target, after⟩, htarget, h⟩ := h
  obtain ⟨used, rfl, hused⟩ := primary_reads hnested room _ _ _ htarget
  obtain ⟨others, rfl, hothers⟩ := calls_reads hnested (.primary hused) h
  exact ⟨used ++ others, by simp, hothers⟩

theorem unary_reads (room : Nat) : Reads (unary nested room) (Unary phrase) := by
  intro tokens t rest h
  fun_induction unary nested room tokens generalizing t with
  | case1 =>
    obtain ⟨k, hk, rfl, rfl⟩ := integer_ok h
    exact ⟨[_, _], rfl, .literal hk⟩
  | case2 => cases h
  | case3 room line others hinteger ih =>
    rw [map_eq_ok] at h
    obtain ⟨⟨operand, after⟩, hoperand, h⟩ := h
    cases h
    obtain ⟨used, rfl, hused⟩ := ih _ hoperand
    -- An integer at the front of the operand would be the next token.
    refine ⟨⟨line, .minus⟩ :: used, rfl, .negate hused fun line' n more heq => ?_⟩
    exact hinteger line' n (more ++ rest) (by rw [heq, List.cons_append])
  | case4 =>
    obtain ⟨used, rfl, hused⟩ := postfixed_reads hnested _ _ _ _ h
    exact ⟨used, rfl, .postfixed hused⟩

end

/-- What has been read so far and the operators after it make one phrase. -/
theorem chain_reads {operator? : Token → Option Operator} {operand : Nested}
    {phrase : List PlacedToken → Tree → Prop} (hoperand : ∀ room, Reads (operand room) phrase)
    {room : Nat} {left t : Tree} {ts tokens rest : List PlacedToken}
    (hleft : Chain operator? phrase ts left)
    (h : chain operator? operand room left tokens = .ok (t, rest)) :
    ∃ used, tokens = used ++ rest ∧ Chain operator? phrase (ts ++ used) t := by
  fun_induction chain operator? operand room left tokens generalizing ts with
  | case1 | case4 =>
    cases h
    exact ⟨[], rfl, by rwa [List.append_nil]⟩
  | case2 => cases h
  | case3 left mark others operator room hmark ih =>
    rw [bind_eq_ok] at h
    obtain ⟨⟨right, after⟩, hright, h⟩ := h
    obtain ⟨used, rfl, hused⟩ := hoperand room _ _ _ hright
    obtain ⟨more, rfl, hmore⟩ := ih _ _ (.step hleft hmark hused) h
    exact ⟨mark :: (used ++ more), by simp, by simpa using hmore⟩

theorem level_reads {operator? : Token → Option Operator} {operand : Nested}
    {phrase : List PlacedToken → Tree → Prop} (hoperand : ∀ room, Reads (operand room) phrase)
    (room : Nat) :
    Reads (fun tokens => do
      let (left, rest) ← operand room tokens
      chain operator? operand room left rest) (Chain operator? phrase) := by
  intro tokens t rest h
  dsimp only at h
  rw [bind_eq_ok] at h
  obtain ⟨⟨left, after⟩, hleft, h⟩ := h
  obtain ⟨used, rfl, hused⟩ := hoperand room _ _ _ hleft
  obtain ⟨others, rfl, hothers⟩ := chain_reads hoperand (.operand hused) h
  exact ⟨used ++ others, by simp, hothers⟩

theorem expression_reads (fuel room : Nat) : Reads (expression fuel room) Expression := by
  induction fuel generalizing room with
  | zero =>
    intro tokens t rest h
    cases h
  | succ fuel ih =>
    intro tokens t rest h
    cases room with
    | zero => cases h
    | succ room =>
      rw [expression, bind_eq_ok] at h
      obtain ⟨⟨head, after⟩, hhead, h⟩ := h
      have hproduct : ∀ room, Reads (product (expression fuel) room)
          (Chain productOperator? (Unary Expression)) := level_reads (unary_reads ih)
      obtain ⟨used, rfl, hused⟩ := level_reads hproduct room _ _ _ hhead
      dsimp only at h
      split at h
      · rename_i line others
        rw [bind_eq_ok] at h
        obtain ⟨⟨tail, last⟩, htail, h⟩ := h
        cases h
        obtain ⟨more, rfl, hmore⟩ := ih room _ _ _ htail
        exact ⟨used ++ ⟨line, .append⟩ :: more, by simp, .append hused hmore⟩
      · cases h
        exact ⟨used, rfl, .sum hused⟩

/-! ## 4. Statements -/

theorem statement_reads {first : PlacedToken} {others rest : List PlacedToken} {s : Statement}
    (h : statement first.line (first :: others) = .ok (s, rest)) :
    ∃ used, first :: others = used ++ rest ∧ Sentence used s := by
  unfold statement at h
  split at h
  · rename_i target line next after heq
    rw [map_eq_ok] at h
    obtain ⟨⟨value, last⟩, hvalue, h⟩ := h
    cases h
    cases heq
    obtain ⟨used, rfl, hused⟩ := expression_reads _ _ _ _ _ hvalue
    exact ⟨_ :: _ :: used, rfl, .assign hused⟩
  · rw [map_eq_ok] at h
    obtain ⟨⟨value, last⟩, hvalue, h⟩ := h
    cases h
    obtain ⟨used, heq, hused⟩ := expression_reads _ _ _ _ _ hvalue
    -- An expression has a first token, and its line is that of the statement.
    obtain ⟨start, more, rfl, -⟩ := hused.starts
    cases heq
    exact ⟨first :: more, rfl, .bare hused⟩

theorem blank_takeWhile (tokens : List PlacedToken) :
    Blank (tokens.takeWhile fun placed => placed.token = .separator) := by
  intro placed hmem
  simpa using List.mem_takeWhile_imp hmem

theorem statements_reads {fuel : Nat} {tokens : List PlacedToken} {found : List Statement}
    (hfuel : tokens.length ≤ fuel) (h : statements fuel tokens = .ok found) :
    Program tokens found := by
  induction fuel generalizing tokens found with
  | zero =>
    obtain rfl := List.length_eq_zero_iff.mp (Nat.le_zero.mp hfuel)
    cases h
    exact .blank (blank_takeWhile [])
  | succ fuel ih =>
    have hblank := blank_takeWhile tokens
    have hsplit : tokens.takeWhile _ ++ tokens.dropWhile _ = tokens :=
      List.takeWhile_append_dropWhile (p := fun placed => placed.token = .separator)
    rw [statements] at h
    split at h
    · rename_i hnone
      cases h
      rw [hnone, List.append_nil] at hsplit
      exact .blank (hsplit ▸ hblank)
    · rename_i first others hfirst
      rw [bind_eq_ok] at h
      obtain ⟨⟨s, rest⟩, hs, h⟩ := h
      obtain ⟨used, heq, hused⟩ := statement_reads hs
      rw [hfirst, heq] at hsplit
      dsimp only at h
      split at h
      · cases h
        rw [List.append_nil] at hsplit
        exact hsplit ▸ .last hblank hused
      · rename_i line more
        rw [bind_eq_ok] at h
        obtain ⟨following, hfollowing, h⟩ := h
        cases h
        -- A sentence has a token, so what follows it is shorter than all of the tokens.
        have hpos : 0 < used.length := by cases hused <;> exact Nat.succ_pos _
        have hlength := congrArg List.length hsplit
        rw [List.length_append, List.length_append] at hlength
        have hmore := ih (by omega) hfollowing
        rw [← hsplit, ← List.append_assoc]
        exact .cons hblank hused hmore
      · cases h

end Parser

theorem parse_eq {source : String} {tokens : Tokens} (htokens : tokenize source = .ok tokens) :
    parse source =
      match Parser.statements tokens.list.length tokens.list with
      | .ok found => .ok found
      | .error halt =>
        .error ⟨(halt.rest.head?.map (·.line)).getD tokens.lastLine, halt.fault⟩ := by
  rw [parse, htokens]
  rfl

/-- What is parsed is a program of the grammar. -/
theorem parse_program {source : String} {tokens : Tokens} {found : List Statement}
    (htokens : tokenize source = .ok tokens) (h : parse source = .ok found) :
    Grammar.Program tokens.list found := by
  rw [parse_eq htokens] at h
  split at h
  · cases h
    exact Parser.statements_reads (Nat.le_refl _) ‹_›
  · cases h

end Deferral
