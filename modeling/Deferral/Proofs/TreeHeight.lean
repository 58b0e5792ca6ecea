import Deferral.Proofs.ParserSoundness
import Mathlib.Tactic.Ring

/-!
# How high parsed trees are

The limit on nesting counts levels while a text is parsed, and a chain gives its levels back when it
ends.  A chain that has ended can become the left operand of another one, so the trees are higher
than the limit says: in a row of products that begins a row of sums, each row may use the room of
the whole.  Every kind of chain does so at most once between two brackets, so with as many brackets
as there is room the height is still bounded, by a square and not by the limit
(`parse_height`, `parse_height_above_limit`).
-/

namespace Deferral

/-! ## 1. Height -/

mutual

def Tree.height : Tree → Nat
  | .int _ | .float _ | .text _ | .name _ => 0
  | .list items => heightItems items + 1
  | .map entries => heightEntries entries + 1
  | .negate operand => operand.height + 1
  | .arithmetic _ left right => max left.height right.height + 1
  | .append head tail => max head.height tail.height + 1
  | .call target args kwargs =>
    max target.height (max (heightItems args) (heightKeywords kwargs)) + 1

def Tree.heightItems : List Tree → Nat
  | [] => 0
  | item :: rest => max item.height (heightItems rest)

def Tree.heightEntries : List (Tree × Tree) → Nat
  | [] => 0
  | (key, value) :: rest => max (max key.height value.height) (heightEntries rest)

def Tree.heightKeywords : List (String × Tree) → Nat
  | [] => 0
  | (_, value) :: rest => max value.height (heightKeywords rest)

end

namespace Parser

open Grammar

def Bounded (n : Nat) (parser : Subparser) : Prop :=
  ∀ tokens t rest, parser tokens = .ok (t, rest) → t.height ≤ n

theorem Bounded.mono {n m : Nat} {parser : Subparser} (h : Bounded n parser) (hnm : n ≤ m) :
    Bounded m parser :=
  fun tokens t rest hok => Nat.le_trans (h tokens t rest hok) hnm

def Low (n : Nat) (_ : List PlacedToken) (t : Tree) : Prop := t.height ≤ n

theorem Bounded.reads {n : Nat} {parser : Subparser} {phrase : List PlacedToken → Tree → Prop}
    (h : Bounded n parser) (hreads : Reads parser phrase) : Reads parser (Low n) := by
  intro tokens t rest hok
  obtain ⟨used, heq, -⟩ := hreads tokens t rest hok
  exact ⟨used, heq, h tokens t rest hok⟩

/-! ## 2. Lists between brackets -/

variable {n : Nat}

theorem heightItems_le {used : List PlacedToken} {items : List Tree}
    (h : Commas (Low n) used items) : Tree.heightItems items ≤ n := by
  induction h with
  | nil => exact Nat.zero_le n
  | last hitem => exact Nat.max_le.mpr ⟨hitem, Nat.zero_le n⟩
  | cons hitem _ ih => exact Nat.max_le.mpr ⟨hitem, ih⟩

theorem heightEntries_le {used : List PlacedToken} {entries : List (Tree × Tree)}
    (h : Commas (Entry (Low n)) used entries) : Tree.heightEntries entries ≤ n := by
  induction h with
  | nil => exact Nat.zero_le n
  | last hentry =>
    obtain ⟨hkey, hvalue⟩ := hentry
    exact Nat.max_le.mpr ⟨Nat.max_le.mpr ⟨hkey, hvalue⟩, Nat.zero_le n⟩
  | cons hentry _ ih =>
    obtain ⟨hkey, hvalue⟩ := hentry
    exact Nat.max_le.mpr ⟨Nat.max_le.mpr ⟨hkey, hvalue⟩, ih⟩

theorem heightKeywords_le {used : List PlacedToken} {kwargs : List (String × Tree)}
    (h : Commas (Keyword (Low n)) used kwargs) : Tree.heightKeywords kwargs ≤ n := by
  induction h with
  | nil => exact Nat.zero_le n
  | last hkeyword =>
    obtain ⟨hvalue⟩ := hkeyword
    exact Nat.max_le.mpr ⟨hvalue, Nat.zero_le n⟩
  | cons hkeyword _ ih =>
    obtain ⟨hvalue⟩ := hkeyword
    exact Nat.max_le.mpr ⟨hvalue, ih⟩

theorem heightArguments_le {used : List PlacedToken} {args : List Tree}
    {kwargs : List (String × Tree)} (h : Arguments (Low n) used args kwargs) :
    max (Tree.heightItems args) (Tree.heightKeywords kwargs) ≤ n := by
  induction h with
  | keywords hkwargs _ => exact Nat.max_le.mpr ⟨Nat.zero_le n, heightKeywords_le hkwargs⟩
  | last harg => exact Nat.max_le.mpr ⟨Nat.max_le.mpr ⟨harg, Nat.zero_le n⟩, Nat.zero_le n⟩
  | cons harg _ ih =>
    obtain ⟨hargs, hkwargs⟩ := Nat.max_le.mp ih
    exact Nat.max_le.mpr ⟨Nat.max_le.mpr ⟨harg, hargs⟩, hkwargs⟩

/-! ## 3. Expressions

The parsers of this part are given room for nesting, and with less room they give lower trees. -/

section
variable {nested : Nested} {phrase : List PlacedToken → Tree → Prop} {room : Nat}
  (hreads : ∀ room, Reads (nested room) phrase)
include hreads

theorem primary_bounded (hnested : Bounded n (nested room)) :
    Bounded (n + 1) (primary nested room) := by
  intro tokens t rest h
  -- What is nested in a primary has all the room of the primary.
  have hroom : ∀ room' : Nat, Reads ((fun _ => nested room : Nested) room') (Low n) :=
    fun _ => hnested.reads (hreads room)
  obtain ⟨used, -, hprimary⟩ := primary_reads hroom room tokens t rest h
  cases hprimary with
  | parens ht => exact Nat.le_succ_of_le ht
  | list hitems => exact Nat.succ_le_succ (heightItems_le hitems)
  | map hentries => exact Nat.succ_le_succ (heightEntries_le hentries)
  | _ => exact Nat.zero_le _

/-- Every call on a target is one level more. -/
theorem calls_height {target t : Tree} {tokens rest : List PlacedToken}
    (hnested : ∀ room' ≤ room, Bounded n (nested room')) (htarget : target.height ≤ n)
    (h : calls nested room target tokens = .ok (t, rest)) : t.height ≤ n + room := by
  fun_induction calls nested room target tokens generalizing n with
  | case1 => cases h
  | case2 room target line others ih =>
    rw [bind_eq_ok] at h
    obtain ⟨⟨⟨args, kwargs⟩, after⟩, hargs, h⟩ := h
    have hroom : Bounded n (nested room) := hnested room (Nat.le_succ room)
    obtain ⟨used, close, -, hused, -⟩ := arguments_reads (hroom.reads (hreads room)) hargs
    have hcall : (Tree.call target args kwargs).height ≤ n + 1 :=
      Nat.succ_le_succ (Nat.max_le.mpr ⟨htarget, heightArguments_le hused⟩)
    have hless : ∀ room' ≤ room, Bounded (n + 1) (nested room') := fun room' hle =>
      (hnested room' (Nat.le_succ_of_le hle)).mono (Nat.le_succ n)
    have ht : t.height ≤ n + 1 + room := ih args kwargs after hless hcall h
    omega
  | case3 =>
    cases h
    exact Nat.le_add_right_of_le htarget

theorem postfixed_bounded (hnested : ∀ room' ≤ room, Bounded n (nested room')) :
    Bounded (n + 1 + room) (postfixed nested room) := by
  intro tokens t rest h
  rw [postfixed, bind_eq_ok] at h
  obtain ⟨⟨target, after⟩, htarget, h⟩ := h
  have hheight : target.height ≤ n + 1 :=
    primary_bounded hreads (hnested room (Nat.le_refl room)) _ _ _ htarget
  exact calls_height hreads (fun room' hle => (hnested room' hle).mono (Nat.le_succ n)) hheight h

theorem unary_bounded (hnested : ∀ room' ≤ room, Bounded n (nested room')) :
    Bounded (n + 1 + room) (unary nested room) := by
  intro tokens t rest h
  fun_induction unary nested room tokens generalizing t with
  | case1 =>
    obtain ⟨k, -, rfl, -⟩ := integer_ok h
    exact Nat.zero_le _
  | case2 => cases h
  | case3 room line others _ ih =>
    rw [map_eq_ok] at h
    obtain ⟨⟨operand, after⟩, hoperand, h⟩ := h
    cases h
    have hheight := ih (fun room' hle => hnested room' (Nat.le_succ_of_le hle)) _ hoperand
    exact Nat.succ_le_succ hheight
  | case4 => exact postfixed_bounded hreads hnested _ _ _ h

end

/-- Every operator of a chain is one level more, whatever the chain begins with. -/
theorem chain_height {operator? : Token → Option Operator} {operand : Nested} {room : Nat}
    {left t : Tree} {tokens rest : List PlacedToken}
    (hoperand : ∀ room' ≤ room, Bounded n (operand room')) (hleft : left.height ≤ n)
    (h : chain operator? operand room left tokens = .ok (t, rest)) : t.height ≤ n + room := by
  fun_induction chain operator? operand room left tokens generalizing n with
  | case1 | case4 =>
    cases h
    exact Nat.le_add_right_of_le hleft
  | case2 => cases h
  | case3 left mark others operator room hmark ih =>
    rw [bind_eq_ok] at h
    obtain ⟨⟨right, after⟩, hright, h⟩ := h
    have hheight : right.height ≤ n := hoperand room (Nat.le_succ room) _ _ _ hright
    have hstep : (Tree.arithmetic operator left right).height ≤ n + 1 :=
      Nat.succ_le_succ (Nat.max_le.mpr ⟨hleft, hheight⟩)
    have hless : ∀ room' ≤ room, Bounded (n + 1) (operand room') := fun room' hle =>
      (hoperand room' (Nat.le_succ_of_le hle)).mono (Nat.le_succ n)
    have ht : t.height ≤ n + 1 + room := ih right after hless hstep h
    omega

theorem level_bounded {operator? : Token → Option Operator} {operand : Nested} {room : Nat}
    (hoperand : ∀ room' ≤ room, Bounded n (operand room')) :
    Bounded (n + room) (fun tokens => do
      let (left, rest) ← operand room tokens
      chain operator? operand room left rest) := by
  intro tokens t rest h
  dsimp only at h
  rw [bind_eq_ok] at h
  obtain ⟨⟨left, after⟩, hleft, h⟩ := h
  exact chain_height hoperand (hoperand room (Nat.le_refl room) _ _ _ hleft) h

def heightBound (room : Nat) : Nat := room * (3 * room + 1) / 2

theorem heightBound_succ (room : Nat) :
    heightBound (room + 1) = heightBound room + (3 * room + 2) := by
  have hsplit : (room + 1) * (3 * (room + 1) + 1) =
      room * (3 * room + 1) + 2 * (3 * room + 2) := by ring
  rw [heightBound, heightBound, hsplit, Nat.add_mul_div_left _ _ (by decide)]

theorem heightBound_mono {room room' : Nat} (h : room' ≤ room) :
    heightBound room' ≤ heightBound room := by
  induction h with
  | refl => exact Nat.le_refl _
  | step _ ih =>
    rw [heightBound_succ]
    omega

/-- One level of nesting allows a chain of each kind, one on top of the other. -/
theorem expression_bounded (fuel room : Nat) :
    Bounded (heightBound room) (expression fuel room) := by
  induction fuel generalizing room with
  | zero =>
    intro tokens t rest h
    cases h
  | succ fuel ih =>
    intro tokens t rest h
    cases room with
    | zero => cases h
    | succ room =>
      rw [expression, bind_eq_ok] at h
      obtain ⟨⟨head, after⟩, hhead, h⟩ := h
      have hunary : ∀ room' ≤ room,
          Bounded (heightBound room + 1 + room) (unary (expression fuel) room') := by
        intro room' hle
        refine (unary_bounded (expression_reads fuel) fun room'' hle' => ?_).mono
          (Nat.add_le_add_left hle _)
        exact (ih room'').mono (heightBound_mono (Nat.le_trans hle' hle))
      have hproduct : ∀ room' ≤ room,
          Bounded (heightBound room + 1 + room + room) (product (expression fuel) room') := by
        intro room' hle
        refine Bounded.mono ?_ (Nat.add_le_add_left hle _)
        exact level_bounded fun room'' hle' => hunary room'' (Nat.le_trans hle' hle)
      have hheight : head.height ≤ heightBound room + 1 + room + room + room :=
        level_bounded hproduct _ _ _ hhead
      rw [heightBound_succ]
      dsimp only at h
      split at h
      · rw [bind_eq_ok] at h
        obtain ⟨⟨tail, last⟩, htail, h⟩ := h
        cases h
        have hlow : tail.height ≤ heightBound room := ih room _ _ _ htail
        have hmax : max head.height tail.height ≤ heightBound room + (3 * room + 1) := by omega
        exact Nat.succ_le_succ hmax
      · cases h
        omega

/-! ## 4. Statements -/

theorem statement_height {line : Nat} {tokens rest : List PlacedToken} {s : Statement}
    (h : statement line tokens = .ok (s, rest)) : s.value.height ≤ heightBound nestingLimit := by
  unfold statement at h
  split at h
  all_goals
    rw [map_eq_ok] at h
    obtain ⟨⟨value, after⟩, hvalue, h⟩ := h
    cases h
    exact expression_bounded _ _ _ _ _ hvalue

theorem statements_height {fuel : Nat} {tokens : List PlacedToken} {found : List Statement}
    (h : statements fuel tokens = .ok found) :
    ∀ s ∈ found, s.value.height ≤ heightBound nestingLimit := by
  induction fuel generalizing tokens found with
  | zero =>
    cases h
    simp
  | succ fuel ih =>
    rw [statements] at h
    split at h
    · cases h
      simp
    · rw [bind_eq_ok] at h
      obtain ⟨⟨s, rest⟩, hs, h⟩ := h
      have hheight : s.value.height ≤ heightBound nestingLimit := statement_height hs
      dsimp only at h
      split at h
      · cases h
        simpa using hheight
      · rw [bind_eq_ok] at h
        obtain ⟨following, hfollowing, h⟩ := h
        cases h
        exact List.forall_mem_cons.mpr ⟨hheight, ih hfollowing⟩
      · cases h

end Parser

/-- The height of a tree that the parser gives is bounded by a square of the limit on nesting. -/
theorem parse_height {source : String} {found : List Statement} {s : Statement}
    (h : parse source = .ok found) (hs : s ∈ found) :
    s.value.height ≤ nestingLimit * (3 * nestingLimit + 1) / 2 := by
  rw [parse, Parser.bind_eq_ok] at h
  obtain ⟨tokens, -, h⟩ := h
  split at h
  · rename_i hok
    cases h
    exact Parser.statements_height hok s hs
  · cases h

/-- A negation of calls in front of a sequence: the height of the tree is four. -/
theorem parse_height_calls :
    let tree := Tree.append (.negate (.call (.call (.name "f") [.name "x"] []) [.int 1] []))
      (.list [.int 2])
    parse "-f(x)(1) >> [2]" = .ok [⟨1, none, tree⟩] ∧ tree.height = 4 ∧
      tree.height ≤ nestingLimit * (3 * nestingLimit + 1) / 2 := by
  intro tree
  let tokens : List PlacedToken :=
    [⟨1, .minus⟩, ⟨1, .name "f"⟩, ⟨1, .openParen⟩, ⟨1, .name "x"⟩, ⟨1, .closeParen⟩,
      ⟨1, .openParen⟩, ⟨1, .integer 1⟩, ⟨1, .closeParen⟩, ⟨1, .append⟩, ⟨1, .openBracket⟩,
      ⟨1, .integer 2⟩, ⟨1, .closeBracket⟩]
  have htokens : tokenize "-f(x)(1) >> [2]" = .ok ⟨tokens, 1⟩ := by decide +kernel
  have hparse : parse "-f(x)(1) >> [2]" = .ok [⟨1, none, tree⟩] := by
    rw [parse_eq htokens]
    rfl
  have hheight : tree.height = 4 := by
    simp [tree, Tree.height, Tree.heightItems, Tree.heightKeywords]
  exact ⟨hparse, hheight, parse_height hparse List.mem_cons_self⟩

/-! ## 5. A tree above the limit -/

def Tokens.minuses (line k : Nat) (following : Tokens) : Tokens :=
  ⟨List.replicate k ⟨line, .minus⟩ ++ following.list, following.lastLine⟩

theorem Lexer.scan_token {fuel line depth : Nat} {cs rest after : List Char} {c : Char}
    {token : Token} (hgap : skipGap cs = c :: rest) (hbreak : c ≠ '\n')
    (hread : readToken c rest = .ok (token, after)) :
    scan (fuel + 1) line depth cs =
      (scan fuel line (token.depthAfter depth) after).map (·.cons ⟨line, token⟩) := by
  rw [scan, hgap]
  split
  · contradiction
  · rename_i heq
    exact absurd (List.head_eq_of_cons_eq heq) hbreak
  · rename_i heq
    cases heq
    rw [hread]

theorem Lexer.scan_minuses (k fuel line depth : Nat) (cs : List Char) :
    scan (fuel + k) line depth (List.replicate k '-' ++ cs) =
      (scan fuel line depth cs).map (Tokens.minuses line k) := by
  induction k with
  | zero =>
    change scan fuel line depth cs = _
    cases scan fuel line depth cs <;> rfl
  | succ k ih =>
    have hread : ∀ rest, readToken '-' rest = .ok (.minus, rest) := fun rest => rfl
    have hdepth : Token.minus.depthAfter depth = depth := rfl
    rw [List.replicate_succ, List.cons_append, ← Nat.add_assoc,
      scan_token rfl (by decide) (hread _), hdepth, ih]
    cases scan fuel line depth cs <;> rfl

theorem Parser.unary_minuses (nested : Nested) (k room line : Nat) {tokens : List PlacedToken}
    (htokens : ∀ line n rest, tokens ≠ ⟨line, .integer n⟩ :: rest) :
    unary nested (room + k) (List.replicate k ⟨line, .minus⟩ ++ tokens) =
      (unary nested room tokens).map fun found => (Tree.negate^[k] found.1, found.2) := by
  induction k with
  | zero =>
    change unary nested room tokens = _
    cases unary nested room tokens <;> rfl
  | succ k ih =>
    rw [List.replicate_succ, List.cons_append, ← Nat.add_assoc, unary, ih]
    · cases unary nested room tokens with
      | ok found => simp [Except.map, Function.iterate_succ_apply']
      | error halt => rfl
    · -- After a minus comes another one, or what is negated.
      cases k with
      | zero => exact htokens
      | succ k =>
        rintro line n rest ⟨⟩

theorem Parser.statements_minus {fuel line : Nat} {rest : List PlacedToken} {t : Tree}
    (h : expression nestingLimit nestingLimit (⟨line, .minus⟩ :: rest) = .ok (t, [])) :
    statements (fuel + 1) (⟨line, .minus⟩ :: rest) = .ok [⟨line, none, t⟩] := by
  have hstatement : statement line (⟨line, .minus⟩ :: rest) = .ok (⟨line, none, t⟩, []) := by
    change (expression nestingLimit nestingLimit _).map _ = _
    rw [h]
    rfl
  change (statement line (⟨line, .minus⟩ :: rest) >>= _) = _
  rw [hstatement]
  rfl

theorem Tree.height_negate_iterate (k : Nat) (t : Tree) :
    (Tree.negate^[k] t).height = t.height + k := by
  induction k with
  | zero => rfl
  | succ k ih => rw [Function.iterate_succ_apply', Tree.height, ih, Nat.add_assoc]

/-- A negation, a product and a sum, each on top of the one before: none of them is deeper than the
limit while it is read, and all of them together are. -/
theorem parse_height_above_limit :
    ∃ t, parse (String.ofList (List.replicate 199 '-' ++ ['x', '*', '1', '+', '1'])) =
        .ok [⟨1, none, t⟩] ∧ t.height = nestingLimit + 1 := by
  let operand : List PlacedToken :=
    [⟨1, .name "x"⟩, ⟨1, .star⟩, ⟨1, .integer 1⟩, ⟨1, .plus⟩, ⟨1, .integer 1⟩]
  have hscan : Lexer.scan 5 1 0 ['x', '*', '1', '+', '1'] = .ok ⟨operand, 1⟩ := by
    decide +kernel
  have htokens : tokenize (String.ofList (List.replicate 199 '-' ++ ['x', '*', '1', '+', '1'])) =
      .ok ⟨List.replicate 199 ⟨1, .minus⟩ ++ operand, 1⟩ := by
    rw [tokenize, String.toList_ofList, List.length_append, List.length_replicate, Nat.add_comm,
      Lexer.scan_minuses]
    change (Lexer.scan 5 1 0 _).map _ = _
    rw [hscan]
    rfl
  obtain ⟨negated, hnegated⟩ : ∃ t, t = Tree.negate^[199] (.name "x") := ⟨_, rfl⟩
  let tree := Tree.arithmetic .add (.arithmetic .multiply negated (.int 1)) (.int 1)
  have hunary : ∀ nested : Parser.Nested, Parser.unary nested (0 + 199)
      (List.replicate 199 ⟨1, .minus⟩ ++ operand) = .ok (negated, operand.tail) := by
    intro nested
    rw [hnegated]
    exact Parser.unary_minuses nested 199 0 1 (by simp [operand])
  have htree : Parser.expression nestingLimit nestingLimit
      (List.replicate 199 ⟨1, .minus⟩ ++ operand) = .ok (tree, []) := by
    rw [nestingLimit, Parser.expression, Parser.sum, Parser.product, hunary]
    rfl
  refine ⟨tree, ?_, ?_⟩
  · rw [parse_eq htokens]
    dsimp only
    rw [List.replicate_succ, List.cons_append] at htree ⊢
    rw [List.length_cons, Parser.statements_minus htree]
  · have hheight : negated.height = 199 := by
      rw [hnegated, Tree.height_negate_iterate, Tree.height]
    simp [tree, Tree.height, hheight, nestingLimit]

end Deferral
