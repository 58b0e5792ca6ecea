import Deferral.Proofs.ParserSoundness

/-!
# What the parsers do not miss

A parser that is given a phrase of the grammar, and after it tokens that do not continue the phrase,
gets through to those tokens, or it refuses to nest any deeper (`Accepts`).  It has an excuse for
that: it was given fewer levels of room than the phrase has tokens.  With room for all tokens there
is no excuse, so the phrase and its tree are the only ones, whatever the limit on nesting.
-/

namespace Deferral

namespace Parser

open Grammar

/-! ## 1. Getting through a phrase -/

/-- A run of a parser gives a result, or it refuses to nest any deeper and has an excuse. -/
def Accepts {α : Type} (run : Except Halt (Parsed α)) (a : α) (rest : List PlacedToken)
    (excuse : Prop) : Prop :=
  run = .ok (a, rest) ∨ excuse ∧ ∃ tokens, run = .error ⟨.nestedTooDeeply, tokens⟩

namespace Accepts

variable {α β : Type} {a : α} {b : β} {rest after : List PlacedToken} {excuse excuse' : Prop}

theorem mono {run : Except Halt (Parsed α)} (h : Accepts run a rest excuse)
    (himp : excuse → excuse') : Accepts run a rest excuse' :=
  h.imp_right fun ⟨he, hdeep⟩ => ⟨himp he, hdeep⟩

theorem bind {run : Except Halt (Parsed α)} {next : Parsed α → Except Halt (Parsed β)}
    (h : Accepts run a rest excuse) (hnext : Accepts (next (a, rest)) b after excuse) :
    Accepts (run >>= next) b after excuse := by
  rcases h with rfl | ⟨he, tokens, rfl⟩
  · exact hnext
  · exact .inr ⟨he, tokens, rfl⟩

theorem map {run : Except Halt (Parsed α)} (h : Accepts run a rest excuse)
    (f : Parsed α → Parsed β) (hf : f (a, rest) = (b, after)) :
    Accepts (run.map f) b after excuse := by
  rcases h with rfl | ⟨he, tokens, rfl⟩
  · exact .inl (congrArg Except.ok hf)
  · exact .inr ⟨he, tokens, rfl⟩

end Accepts

def strength : Token → Nat
  | .openParen => 4
  | .star | .slash => 3
  | .plus | .minus => 2
  | .append => 1
  | _ => 0

/-- Tokens that do not continue a phrase of a level: the first of them binds less tightly. -/
def Stops (level : Nat) (rest : List PlacedToken) : Prop :=
  ∀ placed ∈ rest.head?, strength placed.token < level

theorem stops_cons {level line : Nat} {token : Token} {rest : List PlacedToken}
    (h : strength token < level) : Stops level (⟨line, token⟩ :: rest) := by
  intro placed hmem
  obtain rfl := Option.some.inj hmem
  exact h

theorem Stops.mono {level level' : Nat} {rest : List PlacedToken} (h : Stops level rest)
    (hle : level ≤ level') : Stops level' rest :=
  fun placed hmem => Nat.lt_of_lt_of_le (h placed hmem) hle

def Short (fuel room size : Nat) : Prop := fuel < size ∨ room < size

theorem Short.mono {fuel room size fuel' room' size' : Nat} (h : Short fuel room size)
    (hfuel : fuel' + size ≤ fuel + size') (hroom : room' + size ≤ room + size') :
    Short fuel' room' size' := by
  unfold Short at *
  omega

/-! ## 2. Lists between brackets -/

theorem expect_accepts {excuse : Prop} (wanted : Token) (line : Nat) (rest : List PlacedToken) :
    Accepts (expect wanted (⟨line, wanted⟩ :: rest)) () rest excuse :=
  .inl (expect_eq_ok.mpr ⟨line, rfl⟩)

theorem separated_accepts {α : Type} {excuse : Prop} {close : Token} (hclose : close ≠ .comma)
    (last : α) (more : List PlacedToken → Except Halt (Parsed α)) (line : Nat)
    (rest : List PlacedToken) :
    Accepts (separated close last more (⟨line, close⟩ :: rest)) last rest excuse := by
  refine .inl ?_
  unfold separated
  split
  · rename_i heq
    cases heq
    exact absurd rfl hclose
  · simp [expect, Except.map]

theorem commas_complete {α : Type} {close : Token}
    {item : List PlacedToken → Except Halt (Parsed α)} {phrase : List PlacedToken → α → Prop}
    {excuse : Prop} {bound : Nat}
    (hitem : ∀ ts a rest, phrase ts a → ts.length ≤ bound → Stops 1 rest →
      Accepts (item (ts ++ rest)) a rest excuse)
    (hstarts : ∀ ts a, phrase ts a → Starts ts)
    (hclose : close = .closeBracket ∨ close = .closeBrace) {ts : List PlacedToken} {found : List α}
    (h : Commas phrase ts found) (hbound : ts.length ≤ bound) {size : Nat}
    (hsize : ts.length < size) (line : Nat) (rest : List PlacedToken) :
    Accepts (commas close item size (ts ++ ⟨line, close⟩ :: rest)) found rest excuse := by
  have hcomma : close ≠ .comma := by rcases hclose with rfl | rfl <;> simp
  have hassign : close ≠ .assign := by rcases hclose with rfl | rfl <;> simp
  have hbegins : beginsExpression close = false := by rcases hclose with rfl | rfl <;> rfl
  have hstops : strength close < 1 := by rcases hclose with rfl | rfl <;> exact Nat.one_pos
  induction h generalizing size with
  | nil =>
    obtain ⟨size, rfl⟩ := Nat.exists_eq_succ_of_ne_zero (Nat.ne_zero_of_lt hsize)
    exact .inl (commas_close close item size line rest)
  | @last ts a ha =>
    obtain ⟨size, rfl⟩ := Nat.exists_eq_succ_of_ne_zero (Nat.ne_zero_of_lt hsize)
    rw [commas_item (((hstarts ts a ha).append hassign).ne_cons hbegins)]
    refine (hitem ts a _ ha hbound (stops_cons hstops)).bind ?_
    exact (separated_accepts hcomma [] _ line rest).bind (.inl rfl)
  | @cons ts us a as comma ha _ ih =>
    -- The item and the comma leave less than the size for the other items.
    rw [List.length_append, List.length_cons] at hsize hbound
    obtain ⟨size, rfl⟩ := Nat.exists_eq_succ_of_ne_zero (Nat.ne_zero_of_lt hsize)
    have hstart : Starts (ts ++ ⟨comma, .comma⟩ :: (us ++ ⟨line, close⟩ :: rest)) :=
      (hstarts ts a ha).append (by simp)
    have hmore : Accepts (commas close item size (us ++ ⟨line, close⟩ :: rest)) as rest excuse :=
      ih (by omega) (by omega)
    rw [List.append_assoc, List.cons_append, commas_item (hstart.ne_cons hbegins)]
    refine (hitem ts a _ ha (by omega) (stops_cons (by exact Nat.one_pos))).bind ?_
    exact Accepts.bind hmore (.inl rfl)

section
variable {nested : Subparser} {phrase : List PlacedToken → Tree → Prop} {excuse : Prop}
  {bound : Nat}
  (hnested : ∀ ts t rest, phrase ts t → ts.length ≤ bound → Stops 1 rest →
    Accepts (nested (ts ++ rest)) t rest excuse)
  (hstarts : ∀ ts t, phrase ts t → Starts ts)
include hnested

theorem entry_complete {ts rest : List PlacedToken} {found : Tree × Tree}
    (h : Entry phrase ts found) (hbound : ts.length ≤ bound) (hrest : Stops 1 rest) :
    Accepts (entry nested (ts ++ rest)) found rest excuse := by
  cases h with
  | @mk ts us key value colon hkey hvalue =>
    rw [List.length_append, List.length_cons] at hbound
    rw [List.append_assoc, List.cons_append]
    have hsecond := hnested us value rest hvalue (by omega) hrest
    refine (hnested ts key _ hkey (by omega) (stops_cons (by exact Nat.one_pos))).bind ?_
    refine (expect_accepts .colon colon (us ++ rest)).bind ?_
    exact Accepts.bind hsecond (.inl rfl)

theorem keywords_complete {ts : List PlacedToken} {kwargs : List (String × Tree)}
    (h : Commas (Keyword phrase) ts kwargs) (hbound : ts.length ≤ bound) {size : Nat}
    (hsize : ts.length < size) {seen : List String} (hnodup : (kwargs.map (·.1)).Nodup)
    (hseen : ∀ key ∈ kwargs.map (·.1), key ∉ seen) (line : Nat) (rest : List PlacedToken) :
    Accepts (arguments nested size seen (ts ++ ⟨line, .closeParen⟩ :: rest)) ([], kwargs) rest
      excuse := by
  have hclose : Token.closeParen ≠ .comma := by simp
  induction h generalizing size seen with
  | nil =>
    obtain ⟨size, rfl⟩ := Nat.exists_eq_succ_of_ne_zero (Nat.ne_zero_of_lt hsize)
    exact .inl rfl
  | @last ts entry hentry =>
    cases hentry with
    | @mk ts key value _ _ hvalue =>
      rw [List.length_cons, List.length_cons] at hsize hbound
      obtain ⟨size, rfl⟩ := Nat.exists_eq_succ_of_ne_zero (Nat.ne_zero_of_lt hsize)
      have hnew : key ∉ seen := hseen key List.mem_cons_self
      rw [List.cons_append, List.cons_append, arguments, if_neg hnew]
      refine (hnested ts value _ hvalue (by omega) (stops_cons (by exact Nat.one_pos))).bind ?_
      exact (separated_accepts hclose ([], []) _ line rest).bind (.inl rfl)
  | @cons ts us entry kwargs comma hentry _ ih =>
    cases hentry with
    | @mk ts key value _ _ hvalue =>
      rw [List.length_append, List.length_cons, List.length_cons, List.length_cons] at hsize hbound
      obtain ⟨size, rfl⟩ := Nat.exists_eq_succ_of_ne_zero (Nat.ne_zero_of_lt hsize)
      have hnew : key ∉ seen := hseen key List.mem_cons_self
      -- The keywords after this one have other names than it, and none of those seen before it.
      obtain ⟨hkey, hnodup⟩ := List.nodup_cons.mp hnodup
      have hmore : Accepts (arguments nested size (key :: seen) (us ++ ⟨line, .closeParen⟩ :: rest))
          ([], kwargs) rest excuse := by
        refine ih (by omega) (by omega) hnodup fun name hname hmem => ?_
        rcases List.mem_cons.mp hmem with rfl | hmem
        · exact hkey hname
        · exact hseen name (List.mem_cons_of_mem key hname) hmem
      rw [List.append_assoc, List.cons_append, List.cons_append, List.cons_append, arguments,
        if_neg hnew]
      refine (hnested ts value _ hvalue (by omega) (stops_cons (by exact Nat.one_pos))).bind ?_
      exact Accepts.bind hmore (.inl rfl)

include hstarts in
theorem arguments_complete {ts : List PlacedToken} {args : List Tree}
    {kwargs : List (String × Tree)} (h : Arguments phrase ts args kwargs)
    (hbound : ts.length ≤ bound) {size : Nat} (hsize : ts.length < size) (line : Nat)
    (rest : List PlacedToken) :
    Accepts (arguments nested size [] (ts ++ ⟨line, .closeParen⟩ :: rest)) (args, kwargs) rest
      excuse := by
  have hclose : Token.closeParen ≠ .comma := by simp
  induction h generalizing size with
  | keywords h hnodup =>
    exact keywords_complete hnested h hbound hsize hnodup (fun _ _ => List.not_mem_nil) line rest
  | @last ts arg harg =>
    obtain ⟨size, rfl⟩ := Nat.exists_eq_succ_of_ne_zero (Nat.ne_zero_of_lt hsize)
    have hstart : Starts (ts ++ ⟨line, .closeParen⟩ :: rest) :=
      (hstarts ts arg harg).append (by simp)
    -- Neither the closing parenthesis nor a keyword is at the front of a positional argument.
    rw [arguments]
    · refine (hnested ts arg _ harg hbound (stops_cons (by exact Nat.one_pos))).bind ?_
      exact (separated_accepts hclose ([], []) _ line rest).bind (.inl rfl)
    · exact hstart.ne_cons rfl
    · exact hstart.not_assignment
  | @cons ts us arg args kwargs comma harg _ ih =>
    rw [List.length_append, List.length_cons] at hsize hbound
    obtain ⟨size, rfl⟩ := Nat.exists_eq_succ_of_ne_zero (Nat.ne_zero_of_lt hsize)
    have hmore : Accepts (arguments nested size [] (us ++ ⟨line, .closeParen⟩ :: rest))
        (args, kwargs) rest excuse :=
      ih (by omega) (by omega)
    have hstart : Starts (ts ++ ⟨comma, .comma⟩ :: (us ++ ⟨line, .closeParen⟩ :: rest)) :=
      (hstarts ts arg harg).append (by simp)
    rw [List.append_assoc, List.cons_append, arguments]
    · refine (hnested ts arg _ harg (by omega) (stops_cons (by exact Nat.one_pos))).bind ?_
      exact Accepts.bind hmore (.inl rfl)
    · exact hstart.ne_cons rfl
    · exact hstart.not_assignment

end

/-! ## 3. Expressions -/

section
variable {nested : Nested} {phrase : List PlacedToken → Tree → Prop} {fuel : Nat}
  (hnested : ∀ room ts t rest, phrase ts t → Stops 1 rest →
    Accepts (nested room (ts ++ rest)) t rest (Short fuel room (ts.length + 1)))
  (hstarts : ∀ ts t, phrase ts t → Starts ts)
include hnested

/-- Nested expressions of bounded length have one excuse for all of them. -/
theorem nested_bounded (room bound : Nat) (ts : List PlacedToken) (t : Tree)
    (rest : List PlacedToken) (h : phrase ts t) (hbound : ts.length ≤ bound)
    (hrest : Stops 1 rest) :
    Accepts (nested room (ts ++ rest)) t rest (Short fuel room (bound + 1)) :=
  (hnested room ts t rest h hrest).mono fun hshort => hshort.mono (by omega) (by omega)

include hstarts

theorem primary_complete (room : Nat) {ts : List PlacedToken} {t : Tree} (h : Primary phrase ts t)
    (rest : List PlacedToken) :
    Accepts (primary nested room (ts ++ rest)) t rest (Short fuel room ts.length) := by
  -- Both brackets count, so what is between them has two tokens to spare.
  have hlength : ∀ (ts : List PlacedToken) (first last : PlacedToken),
      (first :: (ts ++ [last])).length = ts.length + 1 + 1 := by simp
  have hsize : ∀ (ts : List PlacedToken) (last : PlacedToken),
      ts.length < (ts ++ last :: rest).length + 1 := by
    intro ts last
    rw [List.length_append]
    omega
  cases h with
  | @integer n line k hk =>
    refine .inl ?_
    rw [List.singleton_append, primary, integer]
    simp [hk]
  | float | text | name => exact .inl rfl
  | @parens ts t line close ht =>
    have haccepts := nested_bounded hnested room (ts.length + 1) ts t
      (⟨close, .closeParen⟩ :: rest) ht (Nat.le_succ _) (stops_cons Nat.one_pos)
    rw [hlength, List.cons_append, List.append_assoc, List.singleton_append, primary]
    exact haccepts.bind ((expect_accepts .closeParen close rest).bind (.inl rfl))
  | @list ts items line close hitems =>
    have haccepts := commas_complete (nested_bounded hnested room (ts.length + 1)) hstarts
      (.inl rfl) hitems (Nat.le_succ _) (hsize ts ⟨close, .closeBracket⟩) close rest
    rw [hlength, List.cons_append, List.append_assoc, List.singleton_append, primary,
      items_eq_commas]
    exact haccepts.map _ rfl
  | @map ts entries line close hentries =>
    have hentry : ∀ us entry, Entry phrase us entry → Starts us := by
      rintro us _ ⟨hkey, -⟩
      exact (hstarts _ _ hkey).append (by simp)
    have haccepts := commas_complete
      (fun us a more => entry_complete (nested_bounded hnested room (ts.length + 1))) hentry
      (.inr rfl) hentries (Nat.le_succ _) (hsize ts ⟨close, .closeBrace⟩) close rest
    rw [hlength, List.cons_append, List.append_assoc, List.singleton_append, primary,
      entries_eq_commas]
    exact haccepts.map _ rfl

/-- A parser has come as far as some phrase and goes on with less room, by less than the tokens of
the phrase, or it refuses to nest any deeper. -/
def Passes (run : Except Halt (Parsed Tree)) (next : Nat → Except Halt (Parsed Tree))
    (fuel room size : Nat) : Prop :=
  (∃ left, left ≤ room ∧ room < left + size ∧ run = next left) ∨
    Short fuel room size ∧ ∃ tokens, run = .error ⟨.nestedTooDeeply, tokens⟩

theorem postfixed_passes (room : Nat) {ts : List PlacedToken} {t : Tree}
    (h : Postfixed phrase ts t) (rest : List PlacedToken) :
    Passes (postfixed nested room (ts ++ rest)) (fun left => calls nested left t rest) fuel room
      ts.length := by
  induction h generalizing rest with
  | @primary ts t h =>
    rcases primary_complete hnested hstarts room h rest with hrun | ⟨hshort, tokens, hdeep⟩
    · refine .inl ⟨room, Nat.le_refl room, Nat.lt_add_of_pos_right h.starts.length_pos, ?_⟩
      rw [postfixed, hrun]
      rfl
    · refine .inr ⟨hshort, tokens, ?_⟩
      rw [postfixed, hdeep]
      rfl
  | @call ts us target args kwargs line close _ hargs ih =>
    rw [List.append_assoc, List.cons_append, List.append_assoc, List.singleton_append,
      List.length_append, List.length_cons, List.length_append, List.length_singleton]
    rcases ih (⟨line, .openParen⟩ :: (us ++ ⟨close, .closeParen⟩ :: rest)) with
      ⟨left, hle, hlt, hrun⟩ | ⟨hshort, hdeep⟩
    · rw [hrun]
      -- The call takes one level of room, and it has two parentheses to pay for it.
      cases left with
      | zero => exact .inr ⟨.inr (by omega), _, rfl⟩
      | succ left =>
        dsimp only
        rw [calls]
        have hsize : us.length < (us ++ ⟨close, .closeParen⟩ :: rest).length + 1 := by
          rw [List.length_append]
          omega
        have haccepts := arguments_complete (nested_bounded hnested left us.length) hstarts hargs
          (Nat.le_refl us.length) hsize close rest
        rcases haccepts with hok | ⟨hshort, tokens, hdeep⟩
        · rw [hok]
          exact .inl ⟨left, by omega, by omega, rfl⟩
        · rw [hdeep]
          exact .inr ⟨hshort.mono (by omega) (by omega), tokens, rfl⟩
    · exact .inr ⟨hshort.mono (by omega) (by omega), hdeep⟩

omit hnested hstarts in
theorem calls_stops (room : Nat) (target : Tree) {rest : List PlacedToken} (h : Stops 4 rest) :
    calls nested room target rest = .ok (target, rest) := by
  fun_cases calls nested room target rest with
  | case1 => exact absurd (h _ rfl) (Nat.lt_irrefl 4)
  | case2 => exact absurd (h _ rfl) (Nat.lt_irrefl 4)
  | case3 => rfl

omit hnested hstarts in
theorem unary_eq_postfixed {room : Nat} {tokens : List PlacedToken}
    (h : ∀ line more, tokens ≠ ⟨line, .minus⟩ :: more) :
    unary nested room tokens = postfixed nested room tokens := by
  rw [unary]
  · exact fun line line' n more => h line _
  · exact fun line more _ => h line more
  · exact fun room line more _ => h line more

theorem postfixed_complete (room : Nat) {ts : List PlacedToken} {t : Tree}
    (h : Postfixed phrase ts t) {rest : List PlacedToken} (hrest : Stops 4 rest) :
    Accepts (postfixed nested room (ts ++ rest)) t rest (Short fuel room ts.length) := by
  rcases postfixed_passes hnested hstarts room h rest with ⟨left, -, -, hrun⟩ | hdeep
  · exact .inl (hrun.trans (calls_stops left t hrest))
  · exact .inr hdeep

theorem unary_complete (room : Nat) {ts : List PlacedToken} {t : Tree} (h : Unary phrase ts t)
    {rest : List PlacedToken} (hrest : Stops 4 rest) :
    Accepts (unary nested room (ts ++ rest)) t rest (Short fuel room ts.length) := by
  induction h generalizing room with
  | @literal n line line' k hk =>
    refine .inl ?_
    rw [List.cons_append, List.singleton_append, unary, integer]
    simp [hk]
  | @negate ts t line ht hinteger ih =>
    have hnext : ∀ line' n more, ts ++ rest ≠ ⟨line', .integer n⟩ :: more := by
      obtain ⟨first, others, rfl, -⟩ := ht.starts
      intro line' n more heq
      cases heq
      exact hinteger line' n others rfl
    rw [List.cons_append, List.length_cons]
    cases room with
    | zero =>
      rw [unary]
      · exact .inr ⟨.inr (Nat.succ_pos _), _, rfl⟩
      · exact hnext
    | succ room =>
      rw [unary]
      · exact ((ih room).mono fun hshort => hshort.mono (by omega) (by omega)).map _ rfl
      · exact hnext
  | @postfixed ts t ht =>
    -- No call begins with a minus, so the last branch of the parser is the one taken.
    have hminus : ∀ line more, ts ++ rest ≠ ⟨line, .minus⟩ :: more := by
      obtain ⟨first, others, rfl, -⟩ := ht.starts
      intro line more heq
      cases heq
      exact ht.ne_minus line others rfl
    rw [unary_eq_postfixed hminus]
    exact postfixed_complete hnested hstarts room ht hrest

end

section
variable {operator? : Token → Option Operator} {operand : Nested}
  {phrase : List PlacedToken → Tree → Prop} {fuel level : Nat}
  (hoperand : ∀ room ts t rest, phrase ts t → Stops (level + 1) rest →
    Accepts (operand room (ts ++ rest)) t rest (Short fuel room ts.length))
  (hstarts : ∀ ts t, phrase ts t → Starts ts)
  (hlevel : ∀ token operator, operator? token = some operator → strength token = level)

theorem chain_zero (left : Tree) (rest : List PlacedToken) {mark : PlacedToken}
    {operator : Operator} (hmark : operator? mark.token = some operator) :
    chain operator? operand 0 left (mark :: rest) = tooDeep rest := by
  rw [chain.eq_def]
  simp only [hmark]

theorem chain_succ (room : Nat) (left : Tree) (rest : List PlacedToken) {mark : PlacedToken}
    {operator : Operator} (hmark : operator? mark.token = some operator) :
    chain operator? operand (room + 1) left (mark :: rest) = (do
      let (right, rest) ← operand room rest
      chain operator? operand room (.arithmetic operator left right) rest) := by
  rw [chain.eq_def]
  simp only [hmark]

include hlevel

theorem chain_stops (room : Nat) (t : Tree) {rest : List PlacedToken} (hrest : Stops level rest) :
    chain operator? operand room t rest = .ok (t, rest) := by
  cases rest with
  | nil => rw [chain]
  | cons mark rest =>
    have hnone : operator? mark.token = none := by
      rw [Option.eq_none_iff_forall_ne_some]
      intro operator hmark
      exact Nat.ne_of_lt (hrest mark rfl) (hlevel _ _ hmark)
    simp only [chain, hnone]

include hoperand hstarts

theorem level_passes (room : Nat) {ts : List PlacedToken} {t : Tree}
    (h : Chain operator? phrase ts t) {rest : List PlacedToken} (hrest : Stops (level + 1) rest) :
    Passes (do
      let (left, rest) ← operand room (ts ++ rest)
      chain operator? operand room left rest) (fun left => chain operator? operand left t rest)
      fuel room ts.length := by
  induction h generalizing rest with
  | @operand ts t h =>
    rcases hoperand room ts t rest h hrest with hrun | ⟨hshort, tokens, hdeep⟩
    · refine .inl ⟨room, Nat.le_refl room, ?_, ?_⟩
      · exact Nat.lt_add_of_pos_right (hstarts ts t h).length_pos
      · rw [hrun]
        rfl
    · rw [hdeep]
      exact .inr ⟨hshort, tokens, rfl⟩
  | @step ts us t right mark operator _ hmark hright ih =>
    have hnext : Stops (level + 1) (mark :: (us ++ rest)) :=
      stops_cons (Nat.lt_succ_of_le (Nat.le_of_eq (hlevel _ _ hmark)))
    rw [List.append_assoc, List.cons_append, List.length_append, List.length_cons]
    rcases ih hnext with ⟨left, hle, hlt, hrun⟩ | ⟨hshort, hdeep⟩
    · rw [hrun]
      -- The operator takes one level of room, if there is one.
      cases left with
      | zero =>
        exact .inr ⟨.inr (by omega), _, chain_zero t _ hmark⟩
      | succ left =>
        dsimp only
        rw [chain_succ left t _ hmark]
        rcases hoperand left us right rest hright hrest with hok | ⟨hshort, tokens, hdeep⟩
        · rw [hok]
          exact .inl ⟨left, by omega, by omega, rfl⟩
        · rw [hdeep]
          exact .inr ⟨hshort.mono (by omega) (by omega), tokens, rfl⟩
    · exact .inr ⟨hshort.mono (by omega) (by omega), hdeep⟩

theorem level_complete (room : Nat) {ts : List PlacedToken} {t : Tree}
    (h : Chain operator? phrase ts t) {rest : List PlacedToken} (hrest : Stops level rest) :
    Accepts (do
      let (left, rest) ← operand room (ts ++ rest)
      chain operator? operand room left rest) t rest (Short fuel room ts.length) := by
  rcases level_passes hoperand hstarts hlevel room h (hrest.mono (Nat.le_succ level)) with
    ⟨left, -, -, hrun⟩ | hdeep
  · exact .inl (hrun.trans (chain_stops hlevel left t hrest))
  · exact .inr hdeep

end

theorem productOperator?_strength (token : Token) (operator : Operator)
    (h : productOperator? token = some operator) : strength token = 3 := by
  cases token <;> first | rfl | cases h

theorem sumOperator?_strength (token : Token) (operator : Operator)
    (h : sumOperator? token = some operator) : strength token = 2 := by
  cases token <;> first | rfl | cases h

/-- A sum is an expression, unless an append follows. -/
theorem expression_of_sum {fuel room : Nat} {tokens rest : List PlacedToken} {t : Tree}
    {excuse : Prop} (h : Accepts (sum (expression fuel) room tokens) t rest excuse)
    (hrest : Stops 1 rest) :
    Accepts (expression (fuel + 1) (room + 1) tokens) t rest excuse := by
  rw [expression]
  refine h.bind ?_
  dsimp only
  split
  -- What follows would have to be an append, which continues an expression.
  · exact absurd (hrest _ rfl) (Nat.lt_irrefl 1)
  · exact .inl rfl

/-- With one unit of fuel and one level of room for each token, and one more of them, an expression
is never refused. -/
theorem expression_complete {fuel room : Nat} {ts : List PlacedToken} {t : Tree}
    (h : Expression ts t) {rest : List PlacedToken} (hrest : Stops 1 rest) :
    Accepts (expression fuel room (ts ++ rest)) t rest (Short fuel room (ts.length + 1)) := by
  induction fuel generalizing room ts t rest with
  | zero => exact .inr ⟨.inl (Nat.succ_pos _), _, rfl⟩
  | succ fuel ih =>
    cases room with
    | zero => exact .inr ⟨.inr (Nat.succ_pos _), _, rfl⟩
    | succ room =>
      -- Level by level, tightest first.  None of them nests: only this parser lowers the fuel.
      have hunary : ∀ room us u more, Unary Expression us u → Stops (3 + 1) more →
          Accepts (unary (expression fuel) room (us ++ more)) u more
            (Short fuel room us.length) :=
        fun room us u more h hmore => unary_complete
          (fun room us u more h hmore => ih h hmore) (fun _ _ h => h.starts) room h hmore
      have hproduct : ∀ room us u more, Chain productOperator? (Unary Expression) us u →
          Stops (2 + 1) more → Accepts (product (expression fuel) room (us ++ more)) u more
            (Short fuel room us.length) :=
        fun room us u more h hmore => level_complete hunary (fun _ _ h => h.starts)
          productOperator?_strength room h hmore
      have hsum : ∀ us u more,
          Chain sumOperator? (Chain productOperator? (Unary Expression)) us u →
          Stops 2 more → Accepts (sum (expression fuel) room (us ++ more)) u more
            (Short fuel room us.length) :=
        fun us u more h hmore => level_complete hproduct
          (fun _ _ h => h.starts rfl fun _ _ h => h.starts) sumOperator?_strength room h hmore
      cases h with
      | sum h =>
        have haccepts := hsum ts t rest h (hrest.mono (by omega))
        exact expression_of_sum
          (haccepts.mono fun hshort => hshort.mono (by omega) (by omega)) hrest
      | @append ts us head tail line hhead htail =>
        rw [expression, List.append_assoc, List.cons_append, List.length_append, List.length_cons]
        have hfirst := hsum ts head (⟨line, .append⟩ :: (us ++ rest)) hhead
          (stops_cons (by exact Nat.one_lt_two))
        have hsecond : Accepts (expression fuel room (us ++ rest)) tail rest
            (Short fuel room (us.length + 1)) := ih htail hrest
        refine (hfirst.mono fun hshort => hshort.mono (by omega) (by omega)).bind ?_
        exact (hsecond.mono fun hshort => hshort.mono (by omega) (by omega)).bind (.inl rfl)

end Parser

namespace Grammar

open Deferral.Parser

/-! ## 4. Trees are unique -/

/-- Wherever an expression begins, only one can be read up to tokens that do not continue it. -/
theorem Expression.unique {ts ts' rest rest' : List PlacedToken} {t t' : Tree}
    (h : Expression ts t) (h' : Expression ts' t') (hrest : Stops 1 rest) (hrest' : Stops 1 rest')
    (heq : ts ++ rest = ts' ++ rest') : t = t' ∧ rest = rest' := by
  -- Fuel and room for both of them leave neither with an excuse.
  let size := ts.length + ts'.length + 1
  have hrun : expression size size (ts ++ rest) = .ok (t, rest) :=
    (expression_complete h hrest).resolve_right fun ⟨hshort, _⟩ => by
      unfold Short at hshort
      omega
  have hrun' : expression size size (ts' ++ rest') = .ok (t', rest') :=
    (expression_complete h' hrest').resolve_right fun ⟨hshort, _⟩ => by
      unfold Short at hshort
      omega
  rw [← heq, hrun] at hrun'
  cases hrun'
  exact ⟨rfl, rfl⟩

def AtBreak (rest : List PlacedToken) : Prop := ∀ placed ∈ rest.head?, placed.token = .separator

theorem AtBreak.stops {rest : List PlacedToken} (h : AtBreak rest) : Stops 1 rest := by
  intro placed hmem
  rw [h placed hmem]
  exact Nat.one_pos

theorem Starts.append_break {ts rest : List PlacedToken} (h : Starts ts) (hrest : AtBreak rest) :
    Starts (ts ++ rest) := by
  cases rest with
  | nil => rwa [List.append_nil]
  | cons mark rest =>
    refine h.append ?_
    rw [hrest mark rfl]
    simp

theorem Sentence.unique {ts ts' rest rest' : List PlacedToken} {s s' : Statement}
    (h : Sentence ts s) (h' : Sentence ts' s') (hrest : AtBreak rest) (hrest' : AtBreak rest')
    (heq : ts ++ rest = ts' ++ rest') : s = s' ∧ rest = rest' := by
  cases h with
  | assign h =>
    cases h' with
    | assign h' =>
      simp only [List.cons_append, List.cons.injEq, PlacedToken.mk.injEq, Token.name.injEq] at heq
      obtain ⟨⟨rfl, rfl⟩, -, heq⟩ := heq
      obtain ⟨rfl, rfl⟩ := h.unique h' hrest.stops hrest'.stops heq
      exact ⟨rfl, rfl⟩
    -- An expression whose first token is a name has no equals sign as its second one.
    | bare h' => exact absurd heq.symm ((h'.starts.append_break hrest').not_assignment _ _ _ _)
  | bare h =>
    cases h' with
    | assign h' => exact absurd heq ((h.starts.append_break hrest).not_assignment _ _ _ _)
    | bare h' =>
      obtain ⟨rfl, rfl⟩ := h.unique h' hrest.stops hrest'.stops heq
      rw [List.cons_append, List.cons_append, List.cons.injEq] at heq
      exact ⟨by rw [heq.1], rfl⟩

/-- After the separators in front of it, a program is at its end or at its first statement. -/
theorem Program.split {tokens : List PlacedToken} {found : List Statement}
    (h : Program tokens found) :
    (tokens.dropWhile (fun placed => placed.token = .separator) = [] ∧ found = []) ∨
      ∃ us rest s others,
        tokens.dropWhile (fun placed => placed.token = .separator) = us ++ rest ∧
        Sentence us s ∧ AtBreak rest ∧ Program rest others ∧ found = s :: others := by
  have hdrop : ∀ {ts us rest : List PlacedToken} {s : Statement}, Blank ts → Sentence us s →
      (ts ++ (us ++ rest)).dropWhile (fun placed => placed.token = .separator) = us ++ rest := by
    intro ts us rest s hblank hs
    obtain ⟨first, others, rfl, hbegins⟩ := hs.begins
    rw [List.dropWhile_append_of_pos (by simpa [Blank] using hblank), List.cons_append,
      List.dropWhile_cons_of_neg]
    intro hseparator
    rw [of_decide_eq_true hseparator] at hbegins
    cases hbegins
  cases h with
  | blank h =>
    refine .inl ⟨List.dropWhile_eq_nil_iff.mpr fun placed hmem => ?_, rfl⟩
    exact decide_eq_true (h placed hmem)
  | @last ts us s hblank hs =>
    refine .inr ⟨us, [], s, [], ?_, hs, by simp [AtBreak], .blank (by simp [Blank]), rfl⟩
    have heq := @hdrop ts us [] s hblank hs
    rwa [List.append_nil] at heq ⊢
  | @cons ts us vs s rest line hblank hs hrest =>
    refine .inr ⟨us, ⟨line, .separator⟩ :: vs, s, rest, ?_, hs, by simp [AtBreak], hrest, rfl⟩
    rw [List.append_assoc]
    exact hdrop hblank hs

theorem Program.nil {found : List Statement} (h : Program [] found) : found = [] := by
  rcases h.split with ⟨-, rfl⟩ | ⟨us, rest, s, others, heq, hs, -, -, -⟩
  · rfl
  · obtain ⟨first, more, rfl, -⟩ := hs.begins
    cases heq

theorem Program.unique {tokens : List PlacedToken} {found found' : List Statement}
    (h : Program tokens found) (h' : Program tokens found') : found = found' := by
  -- By induction on the number of tokens: the statements after the first one are a program too.
  induction hsize : tokens.length using Nat.strong_induction_on
    generalizing tokens found found' with
  | _ size ih =>
    have hle := (tokens.dropWhile_suffix fun placed => placed.token = .separator).length_le
    rcases h.split with ⟨hnone, rfl⟩ | ⟨us, rest, s, others, heq, hs, hrest, hothers, rfl⟩
    · rcases h'.split with ⟨-, rfl⟩ | ⟨us', rest', s', others', heq', hs', -, -, rfl⟩
      · rfl
      · obtain ⟨first, more, rfl, -⟩ := hs'.begins
        rw [hnone] at heq'
        cases heq'
    · obtain ⟨first, more, rfl, -⟩ := hs.begins
      rcases h'.split with ⟨hnone, -⟩ | ⟨us', rest', s', others', heq', hs', hrest', hothers', rfl⟩
      · rw [hnone] at heq
        cases heq
      · obtain ⟨rfl, rfl⟩ := hs.unique hs' hrest hrest' (heq.symm.trans heq')
        rw [heq, List.cons_append, List.length_cons, List.length_append] at hle
        rw [ih rest.length (by omega) hothers hothers' rfl]

end Grammar

/-! ## 5. Programs -/

namespace Parser

open Grammar

theorem statement_complete {first : PlacedToken} {ts rest : List PlacedToken} {s : Statement}
    (h : Sentence (first :: ts) s) (hrest : AtBreak rest) :
    Accepts (statement first.line (first :: (ts ++ rest))) s rest True := by
  cases h with
  | assign h =>
    exact ((expression_complete h hrest.stops).mono fun _ => trivial).map _ rfl
  | bare h =>
    have hstart : Starts (first :: (ts ++ rest)) := h.starts.append_break hrest
    rw [statement]
    · exact ((expression_complete h hrest.stops).mono fun _ => trivial).map _ rfl
    · exact hstart.not_assignment

theorem statements_complete {fuel : Nat} {tokens : List PlacedToken} {found : List Statement}
    (h : Program tokens found) (hfuel : tokens.length ≤ fuel) :
    statements fuel tokens = .ok found ∨
      ∃ rest, statements fuel tokens = .error ⟨.nestedTooDeeply, rest⟩ := by
  induction fuel generalizing tokens found with
  | zero =>
    obtain rfl := List.length_eq_zero_iff.mp (Nat.le_zero.mp hfuel)
    rw [h.nil]
    exact .inl rfl
  | succ fuel ih =>
    have hle := (tokens.dropWhile_suffix fun placed => placed.token = .separator).length_le
    rw [statements]
    rcases h.split with ⟨hnone, rfl⟩ | ⟨us, rest, s, others, heq, hs, hrest, hothers, rfl⟩
    · rw [hnone]
      exact .inl rfl
    · obtain ⟨first, more, rfl, -⟩ := hs.begins
      rw [heq, List.cons_append, List.length_cons, List.length_append] at hle
      rw [heq, List.cons_append]
      dsimp only
      rcases statement_complete hs hrest with hok | ⟨-, tokens, hdeep⟩
      · rw [hok]
        cases rest with
        | nil =>
          rw [hothers.nil]
          exact .inl rfl
        | cons mark rest =>
          obtain ⟨line, token⟩ := mark
          obtain rfl : token = .separator := hrest _ rfl
          rcases ih hothers (by omega) with hmore | ⟨tokens, hdeep⟩
          · refine .inl ?_
            change (statements fuel _ >>= _) = _
            rw [hmore]
            rfl
          · refine .inr ⟨tokens, ?_⟩
            change (statements fuel _ >>= _) = _
            rw [hdeep]
            rfl
      · rw [hdeep]
        exact .inr ⟨tokens, rfl⟩

end Parser

/-- The parser accepts exactly the programs of the grammar, but for those that nest too deeply, and
what it gives is the only reading of their tokens. -/
theorem parse_exact {source : String} {tokens : Tokens} (htokens : tokenize source = .ok tokens) :
    (∀ found, parse source = .ok found → Grammar.Program tokens.list found) ∧
    (∀ found, Grammar.Program tokens.list found →
      parse source = .ok found ∨ ∃ line, parse source = .error ⟨line, .nestedTooDeeply⟩) ∧
    ∀ found found', Grammar.Program tokens.list found → Grammar.Program tokens.list found' →
      found = found' := by
  refine ⟨fun found h => parse_program htokens h, fun found h => ?_, fun _ _ h h' => h.unique h'⟩
  rw [parse_eq htokens]
  rcases Parser.statements_complete h (Nat.le_refl _) with hok | ⟨rest, hdeep⟩
  · rw [hok]
    exact .inl rfl
  · rw [hdeep]
    exact .inr ⟨_, rfl⟩

/-- Calls in a row, a keyword, a comma at the end of a list and a minus in front of a literal. -/
theorem parse_exact_calls :
    let tree := Tree.append (.arithmetic .subtract
      (.call (.call (.name "f") [.name "x"] [("k", .list [.int 1])]) [] [])
      (.arithmetic .multiply (.int (-3)) (.name "y"))) (.name "s")
    ∃ tokens, tokenize "f(x, k=[1,])() - -3 * y >> s" = .ok tokens ∧
      Grammar.Program tokens.list [⟨1, none, tree⟩] ∧
      ∀ found, Grammar.Program tokens.list found → found = [⟨1, none, tree⟩] := by
  intro tree
  let tokens : List PlacedToken :=
    [⟨1, .name "f"⟩, ⟨1, .openParen⟩, ⟨1, .name "x"⟩, ⟨1, .comma⟩, ⟨1, .name "k"⟩, ⟨1, .assign⟩,
      ⟨1, .openBracket⟩, ⟨1, .integer 1⟩, ⟨1, .comma⟩, ⟨1, .closeBracket⟩, ⟨1, .closeParen⟩,
      ⟨1, .openParen⟩, ⟨1, .closeParen⟩, ⟨1, .minus⟩, ⟨1, .minus⟩, ⟨1, .integer 3⟩, ⟨1, .star⟩,
      ⟨1, .name "y"⟩, ⟨1, .append⟩, ⟨1, .name "s"⟩]
  have htokens : tokenize "f(x, k=[1,])() - -3 * y >> s" = .ok ⟨tokens, 1⟩ := by decide +kernel
  have hparse : parse "f(x, k=[1,])() - -3 * y >> s" = .ok [⟨1, none, tree⟩] := by
    rw [parse_eq htokens]
    rfl
  have hprogram : Grammar.Program tokens [⟨1, none, tree⟩] := (parse_exact htokens).1 _ hparse
  exact ⟨⟨tokens, 1⟩, htokens, hprogram, fun found h => (parse_exact htokens).2.2 _ _ h hprogram⟩

/-- Separators in front of the first statement and after the last one are no fault. -/
theorem parse_outer_separators :
    ∃ tokens found, tokenize ";x;" = .ok tokens ∧ parse ";x;" = .ok found ∧
      ∀ statements, ¬ Grammar.Separated tokens.list statements := by
  have htokens : tokenize ";x;" =
      .ok ⟨[⟨1, .separator⟩, ⟨1, .name "x"⟩, ⟨1, .separator⟩], 1⟩ := by
    decide +kernel
  have hparse : parse ";x;" = .ok [⟨1, none, .name "x"⟩] := by
    rw [parse_eq htokens]
    rfl
  refine ⟨_, _, htokens, hparse, fun statements h => ?_⟩
  obtain ⟨first, rest, heq, hbegins⟩ := h.begins
  cases heq
  cases hbegins

end Deferral
