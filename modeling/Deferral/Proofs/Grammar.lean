import Deferral.Syntax.Parser
import Mathlib.Tactic.Common

/-!
# The grammar

The grammar of source texts over their tokens, one relation for each nonterminal.  A relation holds
of the tokens of a phrase and of what they stand for, and the tokens of a phrase are those of its
parts and its marks in their order, so none of them is lost, used twice or moved.  Lines of tokens
play no role, but for the line on which a statement begins.

The relations below `Expression` are given the one for nested expressions as a parameter, as the
parsers are.
-/

namespace Deferral.Grammar

/-! ## 1. Phrases -/

inductive Commas {α : Type} (item : List PlacedToken → α → Prop) :
    List PlacedToken → List α → Prop
  | nil : Commas item [] []
  | last {ts a} : item ts a → Commas item ts [a]
  | cons {ts us a as line} : item ts a → Commas item us as →
      Commas item (ts ++ ⟨line, .comma⟩ :: us) (a :: as)

section
variable (nested : List PlacedToken → Tree → Prop)

inductive Entry : List PlacedToken → Tree × Tree → Prop
  | mk {ts us key value line} : nested ts key → nested us value →
      Entry (ts ++ ⟨line, .colon⟩ :: us) (key, value)

inductive Keyword : List PlacedToken → String × Tree → Prop
  | mk {ts key value line line'} : nested ts value →
      Keyword (⟨line, .name key⟩ :: ⟨line', .assign⟩ :: ts) (key, value)

inductive Arguments : List PlacedToken → List Tree → List (String × Tree) → Prop
  | keywords {ts kwargs} : Commas (Keyword nested) ts kwargs → (kwargs.map (·.1)).Nodup →
      Arguments ts [] kwargs
  | last {ts arg} : nested ts arg → Arguments ts [arg] []
  | cons {ts us arg args kwargs line} : nested ts arg → Arguments us args kwargs →
      Arguments (ts ++ ⟨line, .comma⟩ :: us) (arg :: args) kwargs

inductive Primary : List PlacedToken → Tree → Prop
  | integer {n line k} : int64? (n : Nat) = some k → Primary [⟨line, .integer n⟩] (.int k)
  | float (line x) : Primary [⟨line, .float x⟩] (.float x)
  | text (line s) : Primary [⟨line, .text s⟩] (.text s)
  | name (line s) : Primary [⟨line, .name s⟩] (.name s)
  | parens {ts t line line'} : nested ts t →
      Primary (⟨line, .openParen⟩ :: (ts ++ [⟨line', .closeParen⟩])) t
  | list {ts items line line'} : Commas nested ts items →
      Primary (⟨line, .openBracket⟩ :: (ts ++ [⟨line', .closeBracket⟩])) (.list items)
  | map {ts entries line line'} : Commas (Entry nested) ts entries →
      Primary (⟨line, .openBrace⟩ :: (ts ++ [⟨line', .closeBrace⟩])) (.map entries)

inductive Postfixed : List PlacedToken → Tree → Prop
  | primary {ts t} : Primary nested ts t → Postfixed ts t
  | call {ts us target args kwargs line line'} : Postfixed ts target →
      Arguments nested us args kwargs →
      Postfixed (ts ++ ⟨line, .openParen⟩ :: (us ++ [⟨line', .closeParen⟩]))
        (.call target args kwargs)

/-- A negation or a call.  A minus in front of an integer makes a literal with it. -/
inductive Unary : List PlacedToken → Tree → Prop
  | literal {n line line' k} : int64? (-(n : Nat)) = some k →
      Unary [⟨line, .minus⟩, ⟨line', .integer n⟩] (.int k)
  | negate {ts t line} : Unary ts t → (∀ line n rest, ts ≠ ⟨line, .integer n⟩ :: rest) →
      Unary (⟨line, .minus⟩ :: ts) (.negate t)
  | postfixed {ts t} : Postfixed nested ts t → Unary ts t

end

inductive Chain (operator? : Token → Option Operator) (operand : List PlacedToken → Tree → Prop) :
    List PlacedToken → Tree → Prop
  | operand {ts t} : operand ts t → Chain operator? operand ts t
  | step {ts us left right mark operator} : Chain operator? operand ts left →
      operator? (mark : PlacedToken).token = some operator → operand us right →
      Chain operator? operand (ts ++ mark :: us) (.arithmetic operator left right)

inductive Expression : List PlacedToken → Tree → Prop
  | sum {ts t} :
      Chain Parser.sumOperator? (Chain Parser.productOperator? (Unary Expression)) ts t →
      Expression ts t
  | append {ts us head tail line} :
      Chain Parser.sumOperator? (Chain Parser.productOperator? (Unary Expression)) ts head →
      Expression us tail → Expression (ts ++ ⟨line, .append⟩ :: us) (.append head tail)

/-- An assignment or a bare expression, with the line of its first token. -/
inductive Sentence : List PlacedToken → Statement → Prop
  | assign {ts t line line' target} : Expression ts t →
      Sentence (⟨line, .name target⟩ :: ⟨line', .assign⟩ :: ts) ⟨line, some target, t⟩
  | bare {first ts t} : Expression (first :: ts) t → Sentence (first :: ts) ⟨first.line, none, t⟩

def Blank (ts : List PlacedToken) : Prop := ∀ placed ∈ ts, placed.token = .separator

/-- A source text: statements with separators between them.  There may also be separators in front
of the first one and after the last one. -/
inductive Program : List PlacedToken → List Statement → Prop
  | blank {ts} : Blank ts → Program ts []
  | last {ts us s} : Blank ts → Sentence us s → Program (ts ++ us) [s]
  | cons {ts us vs s rest line} : Blank ts → Sentence us s →
      Program (⟨line, .separator⟩ :: vs) rest →
      Program (ts ++ us ++ ⟨line, .separator⟩ :: vs) (s :: rest)

inductive Separated : List PlacedToken → List Statement → Prop
  | last {ts s} : Sentence ts s → Separated ts [s]
  | cons {ts us vs s rest} : Sentence ts s → Blank us → us ≠ [] → Separated vs rest →
      Separated (ts ++ us ++ vs) (s :: rest)

/-! ## 2. How phrases begin -/

def beginsExpression : Token → Bool
  | .integer _ | .float _ | .text _ | .name _ => true
  | .minus | .openParen | .openBracket | .openBrace => true
  | _ => false

/-- The first of the tokens can begin an expression, and it is not the target of an assignment. -/
def Starts (ts : List PlacedToken) : Prop :=
  ∃ first rest, ts = first :: rest ∧ beginsExpression first.token ∧
    ((∃ s, first.token = .name s) → ∀ second ∈ rest.head?, second.token ≠ .assign)

theorem Starts.append {ts us : List PlacedToken} {mark : PlacedToken} (h : Starts ts)
    (hmark : mark.token ≠ .assign) : Starts (ts ++ mark :: us) := by
  obtain ⟨first, rest, rfl, hbegins, hname⟩ := h
  -- Only a phrase of one token has the mark as its second one.
  refine ⟨first, rest ++ mark :: us, rfl, hbegins, fun hs second hsecond => ?_⟩
  cases rest with
  | nil =>
    obtain rfl := Option.some.inj hsecond
    exact hmark
  | cons next rest => exact hname hs second hsecond

theorem Starts.ne_cons {ts : List PlacedToken} {token : Token} (h : Starts ts)
    (htoken : beginsExpression token = false) (line : Nat) (rest : List PlacedToken) :
    ts ≠ ⟨line, token⟩ :: rest := by
  rintro rfl
  obtain ⟨first, others, heq, hbegins, -⟩ := h
  cases heq
  rw [htoken] at hbegins
  cases hbegins

theorem Starts.not_assignment {ts : List PlacedToken} (h : Starts ts) (line : Nat) (s : String)
    (line' : Nat) (rest : List PlacedToken) :
    ts ≠ ⟨line, .name s⟩ :: ⟨line', .assign⟩ :: rest := by
  rintro rfl
  obtain ⟨first, others, heq, -, hname⟩ := h
  cases heq
  exact hname ⟨s, rfl⟩ _ rfl rfl

theorem Starts.length_pos {ts : List PlacedToken} (h : Starts ts) : 0 < ts.length := by
  obtain ⟨first, rest, rfl, -⟩ := h
  exact Nat.succ_pos rest.length

section
variable {nested : List PlacedToken → Tree → Prop} {ts : List PlacedToken} {t : Tree}

theorem Primary.starts (h : Primary nested ts t) : Starts ts := by
  cases h with
  -- A name is alone in its primary, so no equals sign follows it there.
  | integer | float | text | name => exact ⟨_, [], rfl, rfl, fun _ _ hsecond => nomatch hsecond⟩
  | parens | list | map => exact ⟨_, _, rfl, rfl, fun ⟨_, hs⟩ => nomatch hs⟩

theorem Postfixed.starts (h : Postfixed nested ts t) : Starts ts := by
  induction h with
  | primary h => exact h.starts
  | call _ _ ih => exact ih.append (by simp)

theorem Postfixed.ne_minus (h : Postfixed nested ts t) (line : Nat) (rest : List PlacedToken) :
    ts ≠ ⟨line, .minus⟩ :: rest := by
  induction h generalizing rest with
  | primary h => cases h <;> simp
  | @call ts us target args kwargs line' close htarget _ ih =>
    obtain ⟨first, others, rfl, -⟩ := htarget.starts
    intro heq
    cases heq
    exact ih others rfl

theorem Unary.starts (h : Unary nested ts t) : Starts ts := by
  cases h with
  | literal | negate => exact ⟨_, _, rfl, rfl, fun ⟨_, hs⟩ => nomatch hs⟩
  | postfixed h => exact h.starts

theorem Chain.starts {operator? : Token → Option Operator}
    {operand : List PlacedToken → Tree → Prop} (h : Chain operator? operand ts t)
    (hassign : operator? .assign = none) (hoperand : ∀ ts t, operand ts t → Starts ts) :
    Starts ts := by
  induction h with
  | operand h => exact hoperand _ _ h
  | step _ hmark _ ih =>
    refine ih.append fun heq => ?_
    rw [heq, hassign] at hmark
    cases hmark

theorem Expression.starts (h : Expression ts t) : Starts ts := by
  have hsum : ∀ ts t,
      Chain Parser.sumOperator? (Chain Parser.productOperator? (Unary Expression)) ts t →
      Starts ts :=
    fun _ _ h => h.starts rfl fun _ _ h => h.starts rfl fun _ _ h => h.starts
  cases h with
  | sum h => exact hsum _ _ h
  | append h => exact (hsum _ _ h).append (by simp)

/-- A sentence does not begin with a separator. -/
theorem Sentence.begins {s : Statement} (h : Sentence ts s) :
    ∃ first rest, ts = first :: rest ∧ beginsExpression first.token := by
  cases h with
  | assign => exact ⟨_, _, rfl, rfl⟩
  | bare h =>
    obtain ⟨first, rest, heq, hbegins, -⟩ := h.starts
    exact ⟨first, rest, heq, hbegins⟩

theorem Separated.begins {statements : List Statement} (h : Separated ts statements) :
    ∃ first rest, ts = first :: rest ∧ beginsExpression first.token := by
  cases h with
  | last hs => exact hs.begins
  | cons hs =>
    obtain ⟨first, rest, rfl, hbegins⟩ := hs.begins
    exact ⟨first, _, rfl, hbegins⟩

end

end Deferral.Grammar
