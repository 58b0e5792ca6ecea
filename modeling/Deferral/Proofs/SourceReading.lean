import Deferral.Proofs.ParserCompleteness
import Deferral.Proofs.SourceTokens
import Deferral.Proofs.Traversal
import Deferral.Proofs.TreeHeight

/-!
# Reading written statements

The tokens of a tree are parsed back into the tree, in front of anything that does not go on with
them, if there is room for it (`Tree.Writable.parses`).  How much room the text of a tree takes can
be read off the tree (`Tree.room`): brackets take one level each, and so does every sign and every
call, but a call keeps the levels of the calls on its target.  A tree of some height takes no more
than a square of it.

So a statement that has source text is what is parsed from that text, or the text nests too deeply,
which it does not do up to a height of fifteen (`Statement.parse_source`).
-/

namespace Deferral

open Deferral.Parser

/-! ## 1. The room that a text takes -/

def Tree.callDepth : Tree → Nat
  | .call target _ _ => target.callDepth + 1
  | _ => 0

mutual

/-- How many levels of room the parser takes for the text of an expression, besides the one that
every expression takes. -/
def Tree.room : Tree → Nat
  | .int _ | .float _ | .text _ | .name _ => 0
  | .list items => roomOfItems items
  | .map entries => roomOfEntries entries
  | .negate operand => operand.room + 1
  | .arithmetic _ left right => max left.room (right.room + 1) + 1
  | .append head tail => max head.room (tail.room + 1) + 1
  | .call target args kwargs =>
    max target.room (target.callDepth + 1 + max (roomOfItems args) (roomOfKeywords kwargs))

def Tree.roomOfItems : List Tree → Nat
  | [] => 0
  | item :: rest => max (item.room + 1) (roomOfItems rest)

def Tree.roomOfEntries : List (Tree × Tree) → Nat
  | [] => 0
  | (key, value) :: rest => max (max (key.room + 1) (value.room + 1)) (roomOfEntries rest)

def Tree.roomOfKeywords : List (String × Tree) → Nat
  | [] => 0
  | (_, value) :: rest => max (value.room + 1) (roomOfKeywords rest)

end

namespace Tree

variable {items : List Tree} {entries : List (Tree × Tree)} {kwargs : List (String × Tree)}
  {n : Nat}

theorem roomOfItems_le_iff : roomOfItems items ≤ n ↔ ∀ item ∈ items, item.room + 1 ≤ n := by
  induction items with
  | nil => simp [roomOfItems]
  | cons item rest ih => simp [roomOfItems, ih]

theorem roomOfEntries_le_iff : roomOfEntries entries ≤ n ↔
    ∀ entry ∈ entries, entry.1.room + 1 ≤ n ∧ entry.2.room + 1 ≤ n := by
  induction entries with
  | nil => simp [roomOfEntries]
  | cons entry rest ih => simp only [roomOfEntries, Nat.max_le, ih, List.forall_mem_cons]

theorem roomOfKeywords_le_iff :
    roomOfKeywords kwargs ≤ n ↔ ∀ entry ∈ kwargs, entry.2.room + 1 ≤ n := by
  induction kwargs with
  | nil => simp [roomOfKeywords]
  | cons entry rest ih => simp only [roomOfKeywords, Nat.max_le, ih, List.forall_mem_cons]

theorem heightItems_le_iff : heightItems items ≤ n ↔ ∀ item ∈ items, item.height ≤ n := by
  induction items with
  | nil => simp [heightItems]
  | cons item rest ih => simp [heightItems, ih]

theorem heightEntries_le_iff : heightEntries entries ≤ n ↔
    ∀ entry ∈ entries, entry.1.height ≤ n ∧ entry.2.height ≤ n := by
  induction entries with
  | nil => simp [heightEntries]
  | cons entry rest ih => simp only [heightEntries, Nat.max_le, ih, List.forall_mem_cons]

theorem heightKeywords_le_iff :
    heightKeywords kwargs ≤ n ↔ ∀ entry ∈ kwargs, entry.2.height ≤ n := by
  induction kwargs with
  | nil => simp [heightKeywords]
  | cons entry rest ih => simp only [heightKeywords, Nat.max_le, ih, List.forall_mem_cons]

theorem callDepth_le_height (t : Tree) : t.callDepth ≤ t.height := by
  induction t with
  | call target args kwargs ih =>
    rw [callDepth, height]
    omega
  | _ => exact Nat.zero_le _

def roomOfHeight : Nat → Nat
  | 0 => 0
  | n + 1 => roomOfHeight n + n + 2

theorem roomOfHeight_mono {m n : Nat} (h : m ≤ n) : roomOfHeight m ≤ roomOfHeight n := by
  induction h with
  | refl => exact Nat.le_refl _
  | step _ ih =>
    rw [roomOfHeight]
    omega

/-- A call may be the last of as many calls as the tree is high, and its arguments, which are less
high, come after the levels of all of them. -/
theorem room_le (t : Tree) : t.room ≤ roomOfHeight t.height := by
  -- A part that is no higher than all parts are takes no more room than trees of that height.
  have hpart : ∀ {part : Tree} {n : Nat}, part.room ≤ roomOfHeight part.height →
      part.height ≤ n → part.room + 1 ≤ roomOfHeight n + 1 := fun hroom hheight =>
    Nat.succ_le_succ (Nat.le_trans hroom (roomOfHeight_mono hheight))
  induction t with
  | int | float | text | name => exact Nat.zero_le _
  | list items ih =>
    have hitems : roomOfItems items ≤ roomOfHeight (heightItems items) + 1 :=
      roomOfItems_le_iff.mpr fun item hmem =>
        hpart (ih item hmem) (heightItems_le_iff.mp (Nat.le_refl _) item hmem)
    rw [room, height, roomOfHeight]
    omega
  | map entries ih =>
    have hentries : roomOfEntries entries ≤ roomOfHeight (heightEntries entries) + 1 := by
      refine roomOfEntries_le_iff.mpr fun entry hmem => ?_
      have hheight := heightEntries_le_iff.mp (Nat.le_refl _) entry hmem
      exact ⟨hpart (ih entry hmem).1 hheight.1, hpart (ih entry hmem).2 hheight.2⟩
    rw [room, height, roomOfHeight]
    omega
  | negate operand ih =>
    rw [room, height, roomOfHeight]
    omega
  | arithmetic _ left right ihleft ihright | append left right ihleft ihright =>
    have hleft := hpart ihleft (Nat.le_max_left left.height right.height)
    have hright := hpart ihright (Nat.le_max_right left.height right.height)
    rw [room, height, roomOfHeight]
    omega
  | call target args kwargs ih ihargs ihkwargs =>
    have hdepth := target.callDepth_le_height
    rw [room, height]
    generalize hn : max target.height (max (heightItems args) (heightKeywords kwargs)) = n
    have htarget := hpart ih (show target.height ≤ n by omega)
    have hargs : roomOfItems args ≤ roomOfHeight n + 1 :=
      roomOfItems_le_iff.mpr fun arg hmem =>
        hpart (ihargs arg hmem) (heightItems_le_iff.mp (by omega) arg hmem)
    have hkwargs : roomOfKeywords kwargs ≤ roomOfHeight n + 1 :=
      roomOfKeywords_le_iff.mpr fun entry hmem =>
        hpart (ihkwargs entry hmem) (heightKeywords_le_iff.mp (by omega) entry hmem)
    rw [roomOfHeight]
    omega

end Tree

/-! ## 2. Expressions of a single operator -/

namespace Parser

section
variable {nested : Nested} {room : Nat} {tokens rest : List PlacedToken} {t : Tree} {excuse : Prop}

theorem product_of_unary (h : Accepts (unary nested room tokens) t rest excuse)
    (hrest : Stops 3 rest) : Accepts (product nested room tokens) t rest excuse :=
  h.bind (.inl (chain_stops productOperator?_strength room t hrest))

theorem sum_of_product (h : Accepts (product nested room tokens) t rest excuse)
    (hrest : Stops 2 rest) : Accepts (sum nested room tokens) t rest excuse :=
  h.bind (.inl (chain_stops sumOperator?_strength room t hrest))

/-- Without fuel or room nothing is parsed, and every expression needs some of both. -/
theorem expression_of_succ {n : Nat}
    (h : ∀ fuel room, Accepts (expression (fuel + 1) (room + 1) tokens) t rest
      (Short (fuel + 1) (room + 1) (n + 1))) (fuel room : Nat) :
    Accepts (expression fuel room tokens) t rest (Short fuel room (n + 1)) := by
  cases fuel with
  | zero => exact .inr ⟨.inl (Nat.succ_pos n), _, rfl⟩
  | succ fuel =>
    cases room with
    | zero => exact .inr ⟨.inr (Nat.succ_pos n), _, rfl⟩
    | succ room => exact h fuel room

theorem chain_single {operator? : Token → Option Operator} {operand : Nested} {level : Nat}
    (hlevel : ∀ token operator, operator? token = some operator → strength token = level)
    {mark : PlacedToken} {operator : Operator} (hmark : operator? mark.token = some operator)
    (left : Tree) {right : Tree} (hzero : room = 0 → excuse)
    (hright : ∀ less, room = less + 1 → Accepts (operand less tokens) right rest excuse)
    (hrest : Stops level rest) :
    Accepts (chain operator? operand room left (mark :: tokens)) (.arithmetic operator left right)
      rest excuse := by
  cases room with
  | zero => exact .inr ⟨hzero rfl, _, chain_zero left tokens hmark⟩
  | succ less =>
    rw [chain_succ less left tokens hmark]
    exact (hright less rfl).bind (.inl (chain_stops hlevel less _ hrest))

theorem sum_of_operands {line : Nat} (operator : Operator) {left right : Tree}
    {ts us : List PlacedToken} (hzero : room = 0 → excuse)
    (hleft : ∀ rest, Stops 4 rest → Accepts (unary nested room (ts ++ rest)) left rest excuse)
    (hright : ∀ less, room = less + 1 →
      Accepts (unary nested less (us ++ rest)) right rest excuse)
    (hrest : Stops 2 rest) :
    Accepts (sum nested room (ts ++ ⟨line, operator.token⟩ :: (us ++ rest)))
      (.arithmetic operator left right) rest excuse := by
  have hthree : Stops 3 rest := hrest.mono (by decide)
  -- A sign of the tighter level is met after the left operand, and one of the other level after
  -- the product that is only the left operand.
  have htight : productOperator? operator.token = some operator →
      Accepts (sum nested room (ts ++ ⟨line, operator.token⟩ :: (us ++ rest)))
        (.arithmetic operator left right) rest excuse := by
    intro hmark
    have hstops : Stops 4 (⟨line, operator.token⟩ :: (us ++ rest)) :=
      stops_cons (by simp [productOperator?_strength _ _ hmark])
    exact sum_of_product ((hleft _ hstops).bind
      (chain_single productOperator?_strength hmark left hzero hright hthree)) hrest
  have hloose : sumOperator? operator.token = some operator →
      Accepts (sum nested room (ts ++ ⟨line, operator.token⟩ :: (us ++ rest)))
        (.arithmetic operator left right) rest excuse := by
    intro hmark
    have hstops : ∀ level, 2 < level →
        Stops level (⟨line, operator.token⟩ :: (us ++ rest)) := fun level hlevel =>
      stops_cons (by rwa [sumOperator?_strength _ _ hmark])
    exact (product_of_unary (hleft _ (hstops 4 (by decide))) (hstops 3 (by decide))).bind
      (chain_single sumOperator?_strength hmark left hzero
        (fun less hless => product_of_unary (hright less hless) hthree) hrest)
  cases operator with
  | add | subtract => exact hloose rfl
  | multiply | divide => exact htight rfl

end

end Parser

/-! ## 3. How the text of an expression begins -/

namespace Tree

open Grammar

variable {line : Nat}

structure Opens (line : Nat) (t : Tree) (token : Token) (rest : List PlacedToken) : Prop where
  tokens_eq : t.tokens line = ⟨line, token⟩ :: rest
  begins : beginsExpression token = true
  ne_minus : t.takesCall = true → token ≠ .minus
  ne_integer : t.takesMinus = true → ∀ n, token ≠ .integer n
  ne_assign : (∃ s, token = .name s) → ∀ placed ∈ rest.head?, placed.token ≠ .assign

theorem Opens.starts {t : Tree} {token : Token} {rest : List PlacedToken}
    (h : t.Opens line token rest) : Starts (t.tokens line) :=
  ⟨_, rest, h.tokens_eq, h.begins, h.ne_assign⟩

theorem takesMinus_of_takesCall {t : Tree} (h : t.takesCall = true) : t.takesMinus = true := by
  cases t <;> first | rfl | cases h

theorem Writable.opens {t : Tree} (h : t.Writable) (line : Nat) :
    ∃ token rest, t.Opens line token rest := by
  induction h with
  | int n =>
    cases hn : n.toInt with
    | ofNat m =>
      -- Digits open the text of an integer that no minus sign can be put in front of.
      have hsign : ¬ n < 0 := by
        rw [Int64.lt_iff_toInt_lt, hn]
        exact Int.not_lt.mpr (Int.natCast_nonneg m)
      refine ⟨.integer m, [], by rw [tokens, Lexer.intTokens, hn], rfl, by simp, ?_, by simp⟩
      intro htakes
      exact absurd (of_decide_eq_true htakes) hsign
    | negSucc m =>
      exact ⟨.minus, [⟨line, .integer (m + 1)⟩], by rw [tokens, Lexer.intTokens, hn], rfl,
        by simp [takesCall], by simp, by simp⟩
  | @text s => exact ⟨.text s, [], rfl, rfl, by simp, by simp, by simp⟩
  | @name s => exact ⟨.name s, [], rfl, rfl, by simp, by simp, by simp⟩
  | list => exact ⟨.openBracket, _, by rw [tokens], rfl, by simp, by simp, by simp⟩
  | map => exact ⟨.openBrace, _, by rw [tokens], rfl, by simp, by simp, by simp⟩
  | negate => exact ⟨.minus, _, by rw [tokens], rfl, by simp [takesCall], by simp, by simp⟩
  | arithmetic | append => exact ⟨.openParen, _, by rw [tokens], rfl, by simp, by simp, by simp⟩
  | @call target args kwargs _ htakes _ _ _ _ ih =>
    obtain ⟨token, rest, hopens⟩ := ih
    refine ⟨token, _, by rw [tokens, hopens.tokens_eq, List.cons_append], hopens.begins,
      fun _ => hopens.ne_minus htakes,
      fun _ => hopens.ne_integer (takesMinus_of_takesCall htakes), fun hname placed hmem => ?_⟩
    cases rest with
    | nil =>
      obtain rfl := Option.some.inj hmem
      simp
    | cons second rest => exact hopens.ne_assign hname placed hmem

/-! ## 4. Expressions are parsed back -/

/-- The tokens of a tree are read as the target of the calls that follow: the parser comes to these
calls with the tree, and has lost the levels of the calls that are part of the tree. -/
def ReadsTarget (line : Nat) (t : Tree) : Prop :=
  ∀ {fuel room : Nat} {rest : List PlacedToken} {u : Tree} {after : List PlacedToken}
    {excuse : Prop}, (Short fuel room t.room → excuse) →
    (∀ left, room = left + t.callDepth →
      Accepts (calls (expression fuel) left t rest) u after excuse) →
    Accepts (postfixed (expression fuel) room (t.tokens line ++ rest)) u after excuse

/-- With enough room the tokens of a tree are parsed as the tree, as a negation or a call, and as
the target of more calls, if it can be one. -/
structure Parses (line : Nat) (t : Tree) : Prop where
  unary_accepts : ∀ (fuel room : Nat) (rest : List PlacedToken), Stops 4 rest →
    Accepts (unary (expression fuel) room (t.tokens line ++ rest)) t rest (Short fuel room t.room)
  target : t.takesCall = true → t.ReadsTarget line

structure Fits (line n : Nat) (ts : List PlacedToken) (t : Tree) : Prop where
  eq_tokens : ts = t.tokens line
  parses : t.Parses line
  starts : Starts ts
  room_lt : t.room < n

variable {t : Tree} {fuel room : Nat} {rest : List PlacedToken}

theorem Parses.expression_accepts (h : t.Parses line) (hrest : Stops 1 rest) :
    Accepts (expression fuel room (t.tokens line ++ rest)) t rest
      (Short fuel room (t.room + 1)) := by
  refine expression_of_succ (fun fuel room => ?_) fuel room
  have hunary : Accepts (unary (expression fuel) room (t.tokens line ++ rest)) t rest
      (Short (fuel + 1) (room + 1) (t.room + 1)) :=
    (h.unary_accepts fuel room rest (hrest.mono (by decide))).mono fun hshort =>
      hshort.mono (by omega) (by omega)
  have hproduct := product_of_unary hunary (hrest.mono (by decide))
  exact expression_of_sum (sum_of_product hproduct (hrest.mono (by decide))) hrest

theorem Fits.expression_accepts {n : Nat} {ts : List PlacedToken} (h : Fits line n ts t)
    (hrest : Stops 1 rest) :
    Accepts (expression fuel room (ts ++ rest)) t rest (Short fuel room n) := by
  have hroom := h.room_lt
  rw [h.eq_tokens]
  exact (h.parses.expression_accepts hrest).mono fun hshort => hshort.mono (by omega) (by omega)

/-- What does not begin with a minus is read as the target of no more calls. -/
theorem Parses.of_target (hwritable : t.Writable) (htakes : t.takesCall = true)
    (h : t.ReadsTarget line) : t.Parses line := by
  refine ⟨fun fuel room rest hrest => ?_, fun _ => h⟩
  obtain ⟨token, others, hopens⟩ := hwritable.opens line
  have hminus : ∀ place more, t.tokens line ++ rest ≠ ⟨place, .minus⟩ :: more := by
    intro place more heq
    rw [hopens.tokens_eq] at heq
    cases heq
    exact hopens.ne_minus htakes rfl
  rw [unary_eq_postfixed hminus]
  exact h id fun left _ => .inl (calls_stops left t hrest)

theorem Parses.of_primary (hwritable : t.Writable) (htakes : t.takesCall = true)
    (hdepth : t.callDepth = 0)
    (h : ∀ (fuel room : Nat) (rest : List PlacedToken),
      Accepts (primary (expression fuel) room (t.tokens line ++ rest)) t rest
        (Short fuel room t.room)) : t.Parses line := by
  refine .of_target hwritable htakes ?_
  intro fuel room rest u after excuse himp hcalls
  exact ((h fuel room rest).mono himp).bind (hcalls room (by rw [hdepth]; rfl))

/-! ### Lists between brackets -/

theorem commas_of_forall {α : Type} {phrase : List PlacedToken → α → Prop}
    {list : α → List PlacedToken} {parts : List α} (h : ∀ part ∈ parts, phrase (list part) part) :
    Commas phrase ([⟨line, .comma⟩].intercalate (parts.map list)) parts := by
  induction parts with
  | nil => exact .nil
  | cons part rest ih =>
    obtain ⟨hpart, hrest⟩ := List.forall_mem_cons.mp h
    cases rest with
    | nil =>
      rw [List.map_singleton, List.intercalate_singleton]
      exact .last hpart
    | cons next rest =>
      rw [List.map_cons, List.map_cons, List.intercalate_cons_cons, List.append_assoc]
      exact .cons hpart (ih hrest)

theorem arguments_of_forall {phrase : List PlacedToken → Tree → Prop} {args : List Tree}
    {kwargs : List (String × Tree)} (hargs : ∀ arg ∈ args, phrase (arg.tokens line) arg)
    (hkwargs : ∀ entry ∈ kwargs, phrase (entry.2.tokens line) entry.2)
    (hnodup : (kwargs.map (·.1)).Nodup) :
    Arguments phrase
      ([⟨line, .comma⟩].intercalate (tokensOfItems line args ++ tokensOfKeywords line kwargs))
      args kwargs := by
  have hkeywords : Commas (Keyword phrase)
      ([⟨line, .comma⟩].intercalate (tokensOfKeywords line kwargs)) kwargs := by
    rw [tokensOfKeywords_eq_map]
    exact commas_of_forall fun entry hmem => .mk (hkwargs entry hmem)
  induction args with
  | nil => exact .keywords hkeywords hnodup
  | cons arg rest ih =>
    obtain ⟨harg, hrest⟩ := List.forall_mem_cons.mp hargs
    have hmore := ih hrest
    rw [tokensOfItems, List.cons_append]
    -- The last argument has no comma behind it.
    by_cases hnil : tokensOfItems line rest ++ tokensOfKeywords line kwargs = []
    · obtain ⟨hitems, hkeys⟩ := List.append_eq_nil_iff.mp hnil
      rw [tokensOfItems_eq_map, List.map_eq_nil_iff] at hitems
      rw [tokensOfKeywords_eq_map, List.map_eq_nil_iff] at hkeys
      subst hitems hkeys
      rw [tokensOfItems, tokensOfKeywords, List.append_nil, List.intercalate_singleton]
      exact .last harg
    · rw [List.intercalate_cons_of_ne_nil hnil, List.append_assoc]
      exact .cons harg hmore

variable {n : Nat} {ts : List PlacedToken}

/-- The brackets around some tokens leave more tokens than are between them. -/
theorem length_lt_bracketed (mark : PlacedToken) (rest : List PlacedToken) :
    ts.length < (ts ++ mark :: rest).length + 1 := by
  rw [List.length_append]
  omega

theorem items_accepts {items : List Tree} (h : Commas (Fits line n) ts items) :
    Accepts (primary (expression fuel) room
      (⟨line, .openBracket⟩ :: (ts ++ [⟨line, .closeBracket⟩]) ++ rest)) (.list items) rest
      (Short fuel room n) := by
  have hitem : ∀ us item more, Fits line n us item → us.length ≤ ts.length → Stops 1 more →
      Accepts (expression fuel room (us ++ more)) item more (Short fuel room n) :=
    fun us item more h _ hmore => h.expression_accepts hmore
  have haccepts := commas_complete hitem (fun _ _ hitem => hitem.starts) (.inl rfl) h
    (Nat.le_refl _) (length_lt_bracketed ⟨line, .closeBracket⟩ rest) line rest
  rw [List.cons_append, List.append_assoc, List.singleton_append, primary, items_eq_commas]
  exact haccepts.map _ rfl

theorem entries_accepts {entries : List (Tree × Tree)}
    (h : Commas (Entry (Fits line n)) ts entries) :
    Accepts (primary (expression fuel) room
      (⟨line, .openBrace⟩ :: (ts ++ [⟨line, .closeBrace⟩]) ++ rest)) (.map entries) rest
      (Short fuel room n) := by
  have hstarts : ∀ us found, Entry (Fits line n) us found → Starts us := by
    rintro us _ ⟨hkey, -⟩
    exact hkey.starts.append (by simp)
  have hentry : ∀ us found more, Entry (Fits line n) us found → us.length ≤ ts.length →
      Stops 1 more → Accepts (entry (expression fuel room) (us ++ more)) found more
        (Short fuel room n) := fun us found more h hbound hmore =>
    entry_complete (fun _ _ _ hpart _ hrest => Fits.expression_accepts hpart hrest) h hbound hmore
  have haccepts := commas_complete hentry hstarts (.inr rfl) h (Nat.le_refl _)
    (length_lt_bracketed ⟨line, .closeBrace⟩ rest) line rest
  rw [List.cons_append, List.append_assoc, List.singleton_append, primary, entries_eq_commas]
  exact haccepts.map _ rfl

/-- A call is read after its target, with one level of room less than the calls before it left. -/
theorem call_readsTarget {target : Tree} {args : List Tree} {kwargs : List (String × Tree)}
    (htarget : target.ReadsTarget line)
    (h : Arguments (Fits line (max (roomOfItems args) (roomOfKeywords kwargs)))
      ([⟨line, .comma⟩].intercalate (tokensOfItems line args ++ tokensOfKeywords line kwargs))
      args kwargs) : (Tree.call target args kwargs).ReadsTarget line := by
  intro fuel room rest u after excuse himp hcalls
  rw [Tree.room] at himp
  rw [callDepth] at hcalls
  rw [tokens, List.append_assoc, List.cons_append, List.append_assoc, List.singleton_append]
  -- Of the arguments only their tokens and the room for all of them matter from here on.
  generalize hn : max (roomOfItems args) (roomOfKeywords kwargs) = n at h himp
  generalize [(⟨line, .comma⟩ : PlacedToken)].intercalate _ = ts at h ⊢
  refine htarget (fun hshort => himp (hshort.mono (by omega) (by omega))) fun left hleft => ?_
  cases left with
  | zero => exact .inr ⟨himp (.inr (by omega)), _, rfl⟩
  | succ left =>
    have haccepts : Accepts (arguments (expression fuel left)
        ((ts ++ ⟨line, .closeParen⟩ :: rest).length + 1) []
        (ts ++ ⟨line, .closeParen⟩ :: rest)) (args, kwargs) rest (Short fuel left n) :=
      arguments_complete (fun _ _ _ harg _ hrest => Fits.expression_accepts harg hrest)
        (fun _ _ harg => harg.starts) h (Nat.le_refl _) (length_lt_bracketed _ rest) line rest
    rw [calls]
    refine (haccepts.mono fun hshort => himp (hshort.mono ?_ ?_)).bind (hcalls left ?_) <;> omega

/-! ### Operators -/

theorem parens_accepts
    (h : Accepts (expression fuel room (ts ++ ⟨line, .closeParen⟩ :: rest)) t
      (⟨line, .closeParen⟩ :: rest) (Short fuel room n)) :
    Accepts (primary (expression fuel) room
      (⟨line, .openParen⟩ :: (ts ++ [⟨line, .closeParen⟩]) ++ rest)) t rest
      (Short fuel room n) := by
  rw [List.cons_append, List.append_assoc, List.singleton_append, primary]
  exact h.bind ((expect_accepts .closeParen line rest).bind (.inl rfl))

variable {left right : Tree}

theorem arithmetic_accepts (operator : Operator) (hleft : left.Parses line)
    (hright : right.Parses line) (hrest : Stops 1 rest) :
    Accepts (expression fuel room
      (left.tokens line ++ ⟨line, operator.token⟩ :: right.tokens line ++ rest))
      (.arithmetic operator left right) rest
      (Short fuel room (max left.room (right.room + 1) + 1)) := by
  refine expression_of_succ (fun fuel room => ?_) fuel room
  rw [List.append_assoc, List.cons_append]
  refine expression_of_sum (sum_of_operands operator ?_ ?_ ?_ (hrest.mono (by decide))) hrest
  -- The sign itself takes a level, and the right operand has that level less.
  · rintro rfl
    exact .inr (by omega)
  · intro more hmore
    exact (hleft.unary_accepts fuel room more hmore).mono fun hshort =>
      hshort.mono (by omega) (by omega)
  · rintro less rfl
    exact (hright.unary_accepts fuel less rest (hrest.mono (by decide))).mono fun hshort =>
      hshort.mono (by omega) (by omega)

theorem append_accepts (hleft : left.Parses line) (hright : right.Parses line)
    (hrest : Stops 1 rest) :
    Accepts (expression fuel room
      (left.tokens line ++ ⟨line, .append⟩ :: right.tokens line ++ rest)) (.append left right) rest
      (Short fuel room (max left.room (right.room + 1) + 1)) := by
  refine expression_of_succ (fun fuel room => ?_) fuel room
  let more := (⟨line, .append⟩ : PlacedToken) :: (right.tokens line ++ rest)
  have hmore : ∀ level, 1 < level → Stops level more := fun _ hlevel => stops_cons hlevel
  have hproduct := product_of_unary
    (hleft.unary_accepts fuel room more (hmore 4 (by decide))) (hmore 3 (by decide))
  have hhead := sum_of_product hproduct (hmore 2 (by decide))
  have htail : Accepts (expression fuel room (right.tokens line ++ rest)) right rest
      (Short fuel room (right.room + 1)) := hright.expression_accepts hrest
  rw [List.append_assoc, List.cons_append, expression]
  refine (hhead.mono fun hshort => hshort.mono (by omega) (by omega)).bind ?_
  exact (htail.mono fun hshort => hshort.mono (by omega) (by omega)).bind (.inl rfl)

/-! ### All expressions -/

theorem int64?_toInt (n : Int64) : int64? n.toInt = some n := by
  have hmin : Int64.minValue.toInt = -2 ^ 63 := rfl
  have hmax : Int64.maxValue.toInt = 2 ^ 63 - 1 := rfl
  have hle := n.le_toInt
  have hlt := n.toInt_lt
  rw [int64?, if_pos (by omega), Int64.ofInt_toInt]

theorem integer_accepts {n : Int64} {negative : Bool} {m : Nat}
    (h : (if negative then -(m : Int) else m) = n.toInt) (tokens : List PlacedToken) :
    integer negative m tokens rest = .ok (.int n, rest) := by
  rw [integer, h, int64?_toInt]

theorem parses_int (n : Int64) : (Tree.int n).Parses line := by
  refine ⟨fun fuel room rest hrest => .inl ?_, by simp [takesCall]⟩
  rw [tokens, Lexer.intTokens]
  cases hn : n.toInt with
  | ofNat m =>
    show unary (expression fuel) room (⟨line, .integer m⟩ :: rest) = _
    rw [unary_eq_postfixed (by simp), postfixed, primary,
      integer_accepts (show _ = n.toInt by rw [hn]; rfl)]
    exact calls_stops room (.int n) hrest
  | negSucc m =>
    show unary (expression fuel) room
      (⟨line, .minus⟩ :: ⟨line, .integer (m + 1)⟩ :: rest) = _
    rw [unary, integer_accepts (show _ = n.toInt by rw [hn]; rfl)]

/-- The tokens of a tree that has source text are parsed back into the tree. -/
theorem Writable.parses {t : Tree} (h : t.Writable) : t.Parses line := by
  -- Parts of a tree that are parsed back fit in with more room than any of them takes.
  have hfits : ∀ {part : Tree} {n : Nat}, part.Writable → part.Parses line → part.room + 1 ≤ n →
      Fits line n (part.tokens line) part := by
    intro part n hpart hparses hroom
    obtain ⟨token, rest, hopens⟩ := hpart.opens line
    exact ⟨rfl, hparses, hopens.starts, hroom⟩
  induction h with
  | int n => exact parses_int n
  | text h => exact .of_primary (.text h) rfl rfl fun fuel room rest => .inl rfl
  | name h => exact .of_primary (.name h) rfl rfl fun fuel room rest => .inl rfl
  | @list items hitems ih =>
    refine .of_primary (.list hitems) rfl rfl fun fuel room rest => ?_
    rw [tokens, tokensOfItems_eq_map]
    exact items_accepts (commas_of_forall fun item hmem =>
      hfits (hitems item hmem) (ih item hmem)
        (roomOfItems_le_iff.mp (Nat.le_refl _) item hmem))
  | @map entries hkeys hvalues ihkeys ihvalues =>
    refine .of_primary (.map hkeys hvalues) rfl rfl fun fuel room rest => ?_
    rw [tokens, tokensOfEntries_eq_map]
    refine entries_accepts (commas_of_forall fun entry hmem => ?_)
    have hroom := roomOfEntries_le_iff.mp (Nat.le_refl _) entry hmem
    exact .mk (hfits (hkeys entry hmem) (ihkeys entry hmem) hroom.1)
      (hfits (hvalues entry hmem) (ihvalues entry hmem) hroom.2)
  | @negate operand hoperand htakes ih =>
    obtain ⟨token, others, hopens⟩ := hoperand.opens line
    refine ⟨fun fuel room rest hrest => ?_, by simp [takesCall]⟩
    -- In front of digits the minus would be read as the sign of a literal.
    have hinteger : ∀ place n more, operand.tokens line ++ rest ≠ ⟨place, .integer n⟩ :: more := by
      intro place n more heq
      rw [hopens.tokens_eq] at heq
      cases heq
      exact hopens.ne_integer htakes n rfl
    rw [tokens, List.cons_append]
    cases room with
    | zero =>
      rw [unary]
      · exact .inr ⟨.inr (Nat.succ_pos _), _, rfl⟩
      · exact hinteger
    | succ room =>
      rw [unary]
      · have haccepts := ih.unary_accepts fuel room rest hrest
        rw [Tree.room]
        exact (haccepts.mono fun hshort => hshort.mono (by omega) (by omega)).map _ rfl
      · exact hinteger
  | arithmetic operator hleft hright ihleft ihright =>
    refine .of_primary (.arithmetic operator hleft hright) rfl rfl fun fuel room rest => ?_
    exact parens_accepts (arithmetic_accepts operator ihleft ihright (stops_cons Nat.one_pos))
  | append hleft hright ihleft ihright =>
    refine .of_primary (.append hleft hright) rfl rfl fun fuel room rest => ?_
    exact parens_accepts (append_accepts ihleft ihright (stops_cons Nat.one_pos))
  | @call target args kwargs htarget htakes hargs hnames hkwargs hnodup ih ihargs ihkwargs =>
    have harguments : Arguments (Fits line (max (roomOfItems args) (roomOfKeywords kwargs)))
        ([⟨line, .comma⟩].intercalate (tokensOfItems line args ++ tokensOfKeywords line kwargs))
        args kwargs :=
      arguments_of_forall
        (fun arg hmem => hfits (hargs arg hmem) (ihargs arg hmem)
          (roomOfItems_le_iff.mp (Nat.le_max_left _ _) arg hmem))
        (fun entry hmem => hfits (hkwargs entry hmem) (ihkwargs entry hmem)
          (roomOfKeywords_le_iff.mp (Nat.le_max_right _ _) entry hmem))
        hnodup
    exact .of_target (.call htarget htakes hargs hnames hkwargs hnodup) rfl
      (call_readsTarget (ih.target htakes) harguments)

end Tree

/-! ## 5. Statements -/

namespace Statement

open Grammar

variable {s : Statement}

theorem Writable.opens (h : s.Writable) :
    ∃ token rest, s.tokens = ⟨s.line, token⟩ :: rest ∧ beginsExpression token = true := by
  rw [tokens]
  cases s.target with
  | some name => exact ⟨.name name, _, rfl, rfl⟩
  | none =>
    obtain ⟨token, rest, hopens⟩ := h.value.opens s.line
    exact ⟨token, rest, hopens.tokens_eq, hopens.begins⟩

theorem Writable.statement_accepts (h : s.Writable) :
    Accepts (statement s.line s.tokens) s []
      (Short nestingLimit nestingLimit (s.value.room + 1)) := by
  have hvalue : Accepts (expression nestingLimit nestingLimit (s.value.tokens s.line ++ []))
      s.value [] (Short nestingLimit nestingLimit (s.value.room + 1)) :=
    h.value.parses.expression_accepts (by simp [Stops])
  rw [List.append_nil] at hvalue
  obtain ⟨line, target, value⟩ := s
  rw [tokens]
  cases target with
  | some name => exact hvalue.map _ rfl
  | none =>
    obtain ⟨token, rest, hopens⟩ := h.value.opens line
    dsimp only
    rw [statement]
    · exact hvalue.map _ rfl
    · exact hopens.starts.not_assignment

/-- The tokens of one statement are parsed as that statement, or there is no room for them. -/
theorem Writable.statements_accept (h : s.Writable) :
    statements s.tokens.length s.tokens = .ok [s] ∨
      nestingLimit < s.value.room + 1 ∧
        ∃ rest, statements s.tokens.length s.tokens = .error ⟨.nestedTooDeeply, rest⟩ := by
  obtain ⟨token, rest, htokens, hbegins⟩ := h.opens
  have haccepts := h.statement_accepts
  have hseparator : token ≠ .separator := by
    rintro rfl
    cases hbegins
  have hdrop : s.tokens.dropWhile (fun placed => placed.token = .separator) = s.tokens := by
    rw [htokens, List.dropWhile_cons_of_neg (by simpa using hseparator)]
  have hlength : s.tokens.length = rest.length + 1 := by rw [htokens, List.length_cons]
  rw [hlength, statements, hdrop, htokens]
  rw [htokens] at haccepts
  dsimp only
  rcases haccepts with hok | ⟨hshort, halt, hdeep⟩
  · rw [hok]
    exact .inl rfl
  · rw [hdeep]
    exact .inr ⟨hshort.elim id id, halt, rfl⟩

theorem Writable.parse_cases (h : s.Writable) (hline : s.line = 1) :
    parse s.source = .ok [s] ∨ nestingLimit < s.value.room + 1 ∧
      ∃ line, parse s.source = .error ⟨line, .nestedTooDeeply⟩ := by
  rw [parse_eq (h.tokenize hline)]
  rcases h.statements_accept with hok | ⟨hroom, rest, hdeep⟩
  · rw [hok]
    exact .inl rfl
  · rw [hdeep]
    exact .inr ⟨hroom, _, rfl⟩

end Statement

/-- What is parsed from the text of a statement is that statement and no other, or the text nests
too deeply, which it does not if its tree is no higher than fifteen.

The text of a tree has the tokens of the tree, whatever stands around it: a word ends where a mark
or a blank follows.  By induction on the tree its tokens are parsed back into it: every operator is
in parentheses, so nothing but the calls on a target and the sign in front of an operand is left to
the strength of the tokens, and there a tree that would be read in another way is none that has
source text.  On the way the parser takes the room of the tree, so it refuses the text only if that
is more than there is. -/
theorem Statement.parse_source {s : Statement} (h : s.Writable) (hline : s.line = 1) :
    (parse s.source = .ok [s] ∨ ∃ line, parse s.source = .error ⟨line, .nestedTooDeeply⟩) ∧
      (s.value.height ≤ 15 → parse s.source = .ok [s]) := by
  have hparse := h.parse_cases hline
  refine ⟨hparse.imp_right And.right, fun hheight => hparse.resolve_right fun ⟨hroom, _⟩ => ?_⟩
  have hle : s.value.room ≤ Tree.roomOfHeight 15 :=
    Nat.le_trans s.value.room_le (Tree.roomOfHeight_mono hheight)
  have hlimit : Tree.roomOfHeight 15 + 1 ≤ nestingLimit := by decide
  omega

/-- Signs in a row, calls in a row, the least integer, and a string that needs escapes. -/
theorem Statement.parse_source_signs :
    let key := Tree.text "\x00\t\"'é\\\n\r"
    let call := Tree.call (.call (.name "f") [.negate (.name "x")]
      [("k", .list [.int Int64.minValue, .map [(key, .append (.name "s") (.list []))]])]) [] []
    let value := Tree.arithmetic .subtract (.negate call)
      (.arithmetic .multiply (.int (-3)) (.negate (.int (-5))))
    let s : Statement := ⟨1, some "y", value⟩
    s.Writable ∧ s.value.height = 8 ∧
      s.source = "y = (-f(-x, k=[-9223372036854775808, \x7b\"\\0\\t\\\"'é\\\\\\n\\r\": " ++
        "(s >> [])\x7d])() - (-3 * --5))" ∧
      parse s.source = .ok [s] := by
  intro key call value s
  have hname : ∀ name ∈ ["f", "x", "k", "s", "y"], Lexer.IsName name := by decide +kernel
  have hkey : key.Writable := .text (List.all_eq_true.mp (by decide +kernel))
  have hpart : (Tree.append (.name "s") (.list [])).Writable :=
    .append (.name (hname _ (by simp))) (.list (by simp))
  have hmap : (Tree.map [(key, .append (.name "s") (.list []))]).Writable :=
    .map (by simpa using hkey) (by simpa using hpart)
  have hlist : (Tree.list [.int Int64.minValue,
      .map [(key, .append (.name "s") (.list []))]]).Writable :=
    .list (by simpa using ⟨.int _, hmap⟩)
  have hcall : call.Writable :=
    .call (.call (.name (hname _ (by simp))) rfl
      (by simpa using .negate (.name (hname _ (by simp))) rfl)
      (by simpa using hname _ (by simp)) (by simpa using hlist) (by simp))
      rfl (by simp) (by simp) (by simp) (by simp)
  have hvalue : value.Writable :=
    .arithmetic _ (.negate hcall rfl) (.arithmetic _ (.int _) (.negate (.int _) (by decide)))
  have hs : s.Writable := ⟨by simpa [s] using hname _ (by simp), hvalue⟩
  have hheight : s.value.height = 8 := by decide +kernel
  exact ⟨hs, hheight, by decide +kernel, (s.parse_source hs rfl).2 (by omega)⟩

end Deferral
