import ScopeScript.Proofs.Meaning
import ScopeScript.Proofs.Shapes
import ScopeScript.Proofs.Tokens

/-!
# Which alternative is taken

An expression, an operand and an operator are ordered choices between rules, so that a text is read
by one of them only if the earlier ones fail on it. The first word of the text decides most of it:
eleven kinds of expression open with a reserved word of their own (`Rule.opening`), and a text that
begins with no letter has no first word at all.

* `Rule.reads_opened`, `Rule.reads_assigned`, `Rule.reads_braced` and `Rule.reads_computed`: what is
  read as an expression that opens with a word, as an assignment, as a block, and as a computation.
* `Rule.fails_factor` and `Rule.fails_expr`: characters with which no operand and no expression
  begins. So nothing is skipped in front of an expression that is read.
* `Rule.reads_operator` and `Rule.fails_operator`: operators in front of a parenthesis.
-/

namespace ScopeScript

open Pattern

section Choice

variable {s r : Rule} {cs rest : List Char} {Ps : List (Tree → Prop)}

/-- The rules that are choices between other rules. -/
def Rule.choices : List Rule := [expr, prefixOp, infixOp, relOp, factor, constant]

theorem Rule.body_of_choice (hs : s ∈ choices) : s.body = firstOf (s.leaves.map .rule) := by
  simp only [choices, List.mem_cons, List.not_mem_nil, or_false] at hs
  rcases hs with rfl | rfl | rfl | rfl | rfl | rfl <;> rfl

theorem Rule.silent_of_choice :
    ∀ s ∈ choices, s.isSilent = true ∧ s.isAtomic = false ∧ s.leaves ≠ [] := by decide

/-- A choice takes the first rule that does not fail. -/
theorem Rule.reads_choice (hs : s ∈ choices) (hr : r ∈ s.leaves)
    (hbefore : ∀ q ∈ s.leaves.takeWhile (· != r), (Pattern.rule q).Fails false (cs ++ rest))
    (h : (Pattern.rule r).Reads false cs rest Ps) : (Pattern.rule s).Reads false cs rest Ps := by
  obtain ⟨hsilent, hatomic, -⟩ := silent_of_choice s hs
  refine .silent hsilent ?_
  obtain ⟨before, after, hsplit, hnew⟩ := List.eq_append_cons_of_mem hr
  have htaken : s.leaves.takeWhile (· != r) = before := by
    have hne : ∀ q ∈ before, (q != r) = true :=
      fun q hq => bne_iff_ne.mpr fun heq => hnew (heq ▸ hq)
    rw [hsplit, List.takeWhile_append_of_pos hne, List.takeWhile_cons, bne_self_eq_false]
    exact List.append_nil _
  rw [htaken] at hbefore
  rw [hatomic, body_of_choice hs, hsplit, List.map_append, List.map_cons]
  refine .firstOf (fun p hp => ?_) h
  obtain ⟨q, hq, rfl⟩ := List.mem_map.mp hp
  exact hbefore q hq

theorem Rule.fails_choice (hs : s ∈ choices)
    (h : ∀ q ∈ s.leaves, (Pattern.rule q).Fails false rest) :
    (Pattern.rule s).Fails false rest := by
  obtain ⟨-, hatomic, hne⟩ := silent_of_choice s hs
  refine .rule ?_
  rw [hatomic, body_of_choice hs]
  refine .firstOf (by simpa using hne) fun p hp => ?_
  obtain ⟨q, hq, rfl⟩ := List.mem_map.mp hp
  exact h q hq

end Choice

/-! ### Operators -/

/-- The text of the rules for operators. -/
def Rule.symbol : Rule → List Char
  | add => ['+']
  | sub => ['-']
  | or => ['|']
  | mul => ['*']
  | div => ['/']
  | and => ['&']
  | modulo => ['%', '%']
  | pow => ['^']
  | le => ['<', '=']
  | lt => ['<']
  | ge => ['>', '=']
  | gt => ['>']
  | eq => ['=', '=']
  | ne => ['!', '=']
  | not => ['!']
  | _ => []

section Operators

variable {s r : Rule} {rest : List Char}

theorem Rule.body_of_operator (hs : s ∈ [infixOp, relOp, prefixOp]) (hr : r ∈ s.leaves) :
    r.body = .text r.symbol := by
  simp only [List.mem_cons, List.not_mem_nil, or_false] at hs
  rcases hs with rfl | rfl | rfl <;>
    simp only [leaves, List.mem_cons, List.not_mem_nil, or_false] at hr
  · rcases hr with rfl | rfl | rfl | rfl | rfl | rfl | rfl | rfl <;> rfl
  · rcases hr with rfl | rfl | rfl | rfl | rfl | rfl <;> rfl
  · rw [hr]
    rfl

theorem Rule.plain_of_operator : ∀ s ∈ [infixOp, relOp, prefixOp], s ∈ choices ∧
    ∀ r ∈ s.leaves, r.isSilent = false ∧ r.isAtomic = false := by decide

/-- The symbols that are tried before another one are not at the start of it, not even with the
parenthesis that follows. -/
theorem Rule.symbol_before : ∀ s ∈ [infixOp, relOp, prefixOp], ∀ r ∈ s.leaves,
    ∀ q ∈ s.leaves.takeWhile (· != r), ¬q.symbol <+: r.symbol ++ ['('] ∧
      q.symbol.length ≤ (r.symbol ++ ['(']).length := by decide

/-- An operator in front of a parenthesis is read. -/
theorem Rule.reads_operator (hs : s ∈ [infixOp, relOp, prefixOp]) (hr : r ∈ s.leaves)
    (rest : List Char) :
    (Pattern.rule s).Reads false r.symbol ('(' :: rest) [Tree.IsNode r []] := by
  obtain ⟨hchoice, hplain⟩ := plain_of_operator s hs
  refine reads_choice hchoice hr (fun q hq => ?_) ?_
  · obtain ⟨hnot, hlength⟩ := symbol_before s hs r hr q hq
    refine .rule ?_
    rw [body_of_operator hs (List.takeWhile_subset _ hq)]
    refine .text fun hprefix => hnot ?_
    have hopen : r.symbol ++ ['('] <+: r.symbol ++ '(' :: rest := ⟨rest, by simp⟩
    exact List.prefix_of_prefix_length_le hprefix hopen hlength
  · obtain ⟨hsilent, hatomic⟩ := hplain r hr
    refine .node hsilent hatomic ?_
    rw [body_of_operator hs hr]
    exact .text _ _

theorem Rule.fails_operator (hs : s ∈ [infixOp, relOp, prefixOp])
    (h : ∀ c ∈ rest.head?, ∀ r ∈ s.leaves, r.symbol.head? ≠ some c) :
    (Pattern.rule s).Fails false rest := by
  obtain ⟨hchoice, -⟩ := plain_of_operator s hs
  refine fails_choice hchoice fun r hr => .rule ?_
  rw [body_of_operator hs hr]
  refine .text fun ⟨tail, htail⟩ => ?_
  have hne : ∀ s ∈ [infixOp, relOp, prefixOp], ∀ r ∈ s.leaves, r.symbol ≠ [] := by decide
  cases hsymbol : r.symbol with
  | nil => exact hne s hs r hr hsymbol
  | cons c symbol =>
    refine h c ?_ r hr (by rw [hsymbol]; rfl)
    rw [← htail, hsymbol]
    rfl

end Operators

/-! ### Texts without a first word -/

section NoLetter

variable {text rest : List Char}

/-- The text does not begin with a letter or an underscore. -/
def NoLetter (text : List Char) : Prop := ∀ c ∈ text.head?, (c.isAlpha || c == '_') = false

theorem noLetter_cons {c : Char} (h : (c.isAlpha || c == '_') = false) (rest : List Char) :
    NoLetter (c :: rest) := by
  rintro d ⟨⟩
  exact h

theorem NoLetter.not_word (h : NoLetter text) :
    isName (firstWord text) = false ∧ firstWord text ∉ keywords := by
  have hletter : ∀ w ∈ keywords, w.head?.any (fun c => c.isAlpha || c == '_') = true := by decide
  have hhead : ∀ c ∈ (firstWord text).head?, (c.isAlpha || c == '_') = false := by
    intro c hc
    refine h c ?_
    cases text with
    | nil => cases hc
    | cons d text =>
      rw [firstWord, List.takeWhile_cons] at hc
      split at hc
      · exact hc
      · cases hc
  constructor
  · cases hw : firstWord text with
    | nil => rfl
    | cons c w => simp only [isName, hhead c (by rw [hw]; rfl), Bool.false_and]
  · intro hw
    obtain ⟨c, hc, halpha⟩ := (Option.any_eq_true _ _).mp (hletter _ hw)
    rw [hhead c hc] at halpha
    cases halpha

theorem NoLetter.not_truthWord (h : NoLetter text) : firstWord text ∉ truthWords :=
  fun hw => h.not_word.2 (truthWords_subset_keywords hw)

theorem NoLetter.fails_ident (h : NoLetter text) : (Pattern.rule .ident).Fails false text :=
  Rule.fails_ident h.not_word.1

end NoLetter

/-! ### Operands -/

section Factor

variable {r : Rule} {text cs rest : List Char} {Ps : List (Tree → Prop)}

/-- The characters with which operands begin. -/
def startsFactor (c : Char) : Bool := startsNumber c || isWordChar c || c == '"' || c == '('

theorem isSkipped_of_startsFactor {c : Char} (h : startsFactor c = true) : isSkipped c = false := by
  by_contra hskipped
  simp only [isSkipped, Bool.not_eq_false, List.contains_cons, List.contains_nil, Bool.or_false,
    Bool.or_eq_true, beq_iff_eq] at hskipped
  rcases hskipped with rfl | rfl | rfl | rfl | rfl <;> cases h

theorem noLetter_of_startsFactor (h : ∀ c ∈ text.head?, startsFactor c = false) :
    NoLetter text := by
  intro c hc
  have hword := h c hc
  simp only [startsFactor, isWordChar, Char.isAlphanum, Bool.or_eq_false_iff] at hword ⊢
  exact ⟨hword.1.1.2.1.1, hword.1.1.2.2⟩

/-- An operand takes the first rule that does not fail. -/
theorem Rule.reads_factor (hr : r ∈ factor.leaves)
    (hbefore : ∀ q ∈ factor.leaves.takeWhile (· != r), (Pattern.rule q).Fails false (cs ++ rest))
    (h : (Pattern.rule r).Reads false cs rest Ps) : (Pattern.rule .factor).Reads false cs rest Ps :=
  reads_choice (by decide) hr hbefore h

theorem Rule.fails_constant (hnumber : ∀ c ∈ text.head?, startsNumber c = false ∧ c ≠ '"')
    (hword : firstWord text ∉ truthWords) :
    ∀ q ∈ constant.leaves, (Pattern.rule q).Fails false text := by
  obtain ⟨hfloat, hint⟩ := fails_number fun c hc => (hnumber c hc).1
  have hstring : (Pattern.rule .string).Fails false text :=
    fails_string fun hc => (hnumber '"' hc).2 rfl
  simp only [leaves, List.forall_mem_cons]
  exact ⟨hfloat, hint, hstring, fails_boolean hword, List.forall_mem_nil _⟩

theorem Rule.fails_factor (h : ∀ c ∈ text.head?, startsFactor c = false) :
    (Pattern.rule .factor).Fails false text := by
  have hhead : ∀ c ∈ text.head?,
      ((startsNumber c = false ∧ isWordChar c = false) ∧ c ≠ '"') ∧ c ≠ '(' := by
    intro c hc
    simpa [startsFactor] using h c hc
  have hletter : NoLetter text := noLetter_of_startsFactor h
  have hconstant :=
    fails_constant (fun c hc => ⟨(hhead c hc).1.1.1, (hhead c hc).1.2⟩) hletter.not_truthWord
  refine fails_choice (by decide) fun q hq => ?_
  change q ∈ constant.leaves ++ [call, singleElement, ident, grouped] at hq
  rcases List.mem_append.mp hq with hq | hq
  · exact hconstant q hq
  · simp only [List.mem_cons, List.not_mem_nil, or_false] at hq
    rcases hq with rfl | rfl | rfl | rfl
    · exact .rule (.seq_left hletter.fails_ident)
    · exact .rule (.seq_left hletter.fails_ident)
    · exact hletter.fails_ident
    · exact .rule (.seq_left (.char fun hc => (hhead '(' hc).2 rfl))

/-- The first character of an operand that is read. -/
theorem Rule.head_factor (h : (Pattern.rule .factor).Reads false cs rest Ps) :
    ∃ c ∈ (cs ++ rest).head?, startsFactor c = true := by
  by_contra hnone
  push Not at hnone
  exact (fails_factor fun c hc => Bool.eq_false_iff.mpr (hnone c hc)).not_reads h

end Factor

/-! ### Expressions -/

section Expressions

variable {r : Rule} {k text cs rest : List Char} {Ps : List (Tree → Prop)} {P : Tree → Prop}

/-- The reserved word with which an expression opens. -/
def Rule.opening : Rule → Option (List Char)
  | ifExpr => some ['i', 'f']
  | whileExpr => some ['w', 'h', 'i', 'l', 'e']
  | forExpr => some ['f', 'o', 'r']
  | functionDef => some ['f', 'u', 'n', 'c', 't', 'i', 'o', 'n']
  | quitExpr => some ['q', 'u', 'i', 't']
  | printExpr => some ['p', 'r', 'i', 'n', 't']
  | catExpr => some ['c', 'a', 't']
  | readExpr => some ['r', 'e', 'a', 'd']
  | listExpr => some ['l', 'i', 's', 't']
  | breakExpr => some ['b', 'r', 'e', 'a', 'k']
  | nextExpr => some ['n', 'e', 'x', 't']
  | _ => none

/-- The words with which expressions open. -/
def openings : List (List Char) := Rule.expr.leaves.filterMap Rule.opening

theorem Rule.mem_openings (hr : r ∈ expr.leaves) (hk : r.opening = some k) : k ∈ openings :=
  List.mem_filterMap.mpr ⟨r, hr, hk⟩

theorem openings_subset_keywords : openings ⊆ keywords := by decide

theorem NoLetter.not_opening {text : List Char} (h : NoLetter text) : firstWord text ∉ openings :=
  fun hw => h.not_word.2 (openings_subset_keywords hw)

theorem Rule.fails_opened (hr : r.opening = some k) (hw : firstWord text ≠ k) :
    (Pattern.rule r).Fails false text := by
  cases r <;> cases hr
  case breakExpr | nextExpr => exact .rule (.rule (.word (by decide) hw))
  all_goals exact .rule (.seq_left (.rule (.word (by decide) hw)))

theorem Rule.fails_assignment (hw : isName (firstWord text) = false) :
    (Pattern.rule .assignment).Fails false text :=
  .rule (.seq_left (fails_ident hw))

theorem Rule.fails_compound (h : text.head? ≠ some '\x7b') :
    (Pattern.rule .compound).Fails false text :=
  .rule (.seq_left (.char h))

/-- An expression takes the first rule that does not fail. -/
theorem Rule.reads_expr (hr : r ∈ expr.leaves)
    (hopening : ∀ q ∈ expr.leaves.takeWhile (· != r), q.opening ≠ some (firstWord (cs ++ rest)))
    (hassign : r ≠ assignment → (Pattern.rule .assignment).Fails false (cs ++ rest))
    (hbrace : r ≠ compound → (cs ++ rest).head? ≠ some '\x7b')
    (h : (Pattern.rule r).Reads false cs rest Ps) :
    (Pattern.rule .expr).Reads false cs rest Ps := by
  have hkinds : ∀ r ∈ expr.leaves, ∀ q ∈ expr.leaves.takeWhile (· != r), r ≠ q ∧
      (q.opening = none → q = assignment ∨ q = compound) := by decide
  refine reads_choice (by decide) hr (fun q hq => ?_) h
  obtain ⟨hne, hkind⟩ := hkinds r hr q hq
  cases hq' : q.opening with
  | some k =>
    refine fails_opened hq' fun heq => hopening q hq ?_
    rw [hq', heq]
  | none =>
    rcases hkind hq' with rfl | rfl
    · exact hassign hne
    · exact fails_compound (hbrace hne)

/-- The text is read as an expression, and nothing is skipped in front of it. -/
structure ReadsExpr (cs rest : List Char) (P : Tree → Prop) : Prop where
  tight : Tight false (cs ++ rest)
  reads : (Pattern.rule .expr).Reads false cs rest [P]

theorem tight_of_firstWord (hw : firstWord text ≠ []) : Tight false text := by
  obtain ⟨w, rest, rfl, hall, hrest⟩ := exists_firstWord text
  rw [firstWord_append hall hrest] at hw
  exact tight_word hall hw rest

theorem Rule.reads_opened (hr : r.opening = some k) (hw : firstWord (cs ++ rest) = k)
    (h : (Pattern.rule r).Reads false cs rest [P]) : ReadsExpr cs rest P := by
  have hmem : r ∈ expr.leaves := by
    cases r <;> cases hr <;> decide
  have hdistinct : ∀ r ∈ expr.leaves, ∀ q ∈ expr.leaves.takeWhile (· != r), ∀ k ∈ r.opening,
      q.opening ≠ some k := by decide
  have hwords : ∀ r ∈ expr.leaves, ∀ k ∈ r.opening, isName k = false ∧ k ≠ [] := by decide
  obtain ⟨hname, hne⟩ := hwords r hmem k hr
  subst hw
  refine ⟨tight_of_firstWord hne, ?_⟩
  refine reads_expr hmem (fun q hq => hdistinct r hmem q hq _ hr)
    (fun _ => fails_assignment hname) ?_ h
  intro _ hhead
  refine hne (firstWord_of_noWord fun c hc => ?_)
  cases hhead.symm.trans hc
  rfl

theorem Rule.reads_assigned (hw : isName (firstWord (cs ++ rest)) = true)
    (h : (Pattern.rule .assignment).Reads false cs rest [P]) : ReadsExpr cs rest P := by
  have hne : firstWord (cs ++ rest) ≠ [] := by
    intro hnil
    rw [hnil] at hw
    cases hw
  refine ⟨tight_of_firstWord hne, ?_⟩
  refine reads_expr (by decide) (fun q hq heq => ?_) (absurd rfl) (fun _ hhead => ?_) h
  · exact isName_not_keyword hw
      (openings_subset_keywords (mem_openings (List.takeWhile_subset _ hq) heq))
  · have hletter : NoLetter (cs ++ rest) := by
      intro c hc
      cases hhead.symm.trans hc
      rfl
    rw [hletter.not_word.1] at hw
    cases hw

theorem Rule.reads_braced (h : (Pattern.rule .compound).Reads false ('\x7b' :: cs) rest [P]) :
    ReadsExpr ('\x7b' :: cs) rest P := by
  have hletter : NoLetter ('\x7b' :: cs ++ rest) := noLetter_cons rfl _
  refine ⟨tight_cons rfl _, ?_⟩
  refine reads_expr (by decide) (fun q hq heq => ?_) (fun _ => fails_assignment hletter.not_word.1)
    (absurd rfl) h
  exact hletter.not_opening (mem_openings (List.takeWhile_subset _ hq) heq)

theorem Rule.reads_computed (hw : firstWord (cs ++ rest) ∉ openings)
    (hassign : (Pattern.rule .assignment).Fails false (cs ++ rest))
    (hhead : ∀ c ∈ (cs ++ rest).head?, startsFactor c = true ∨ c = '!')
    (h : (Pattern.rule .arith).Reads false cs rest [P]) : ReadsExpr cs rest P := by
  refine ⟨tight_of_head fun c hc => ?_, reads_expr (by decide) (fun q hq heq => hw ?_)
    (fun _ => hassign) ?_ h⟩
  · rcases hhead c hc with hfactor | rfl
    · exact isSkipped_of_startsFactor hfactor
    · rfl
  · exact mem_openings (List.takeWhile_subset _ hq) heq
  · intro _ hbrace
    rcases hhead _ hbrace with h | h <;> cases h

/-- The characters with which no expression begins. -/
theorem Rule.fails_expr (h : ∀ c ∈ text.head?, startsFactor c = false ∧
    isSkipped c = false ∧ c ≠ '!' ∧ c ≠ '\x7b') :
    (Pattern.rule .expr).Fails false text := by
  have hletter : NoLetter text := noLetter_of_startsFactor fun c hc => (h c hc).1
  have hkinds : ∀ q ∈ expr.leaves, q.opening = none → q = assignment ∨ q = compound ∨
      q = arith := by decide
  refine fails_choice (by decide) fun q hq => ?_
  cases hopening : q.opening with
  | some k =>
    exact fails_opened hopening fun heq =>
      hletter.not_opening (heq ▸ mem_openings hq hopening)
  | none =>
    rcases hkinds q hq hopening with rfl | rfl | rfl
    · exact fails_assignment hletter.not_word.1
    · exact fails_compound fun hc => (h _ hc).2.2.2 rfl
    · have hbang : (Pattern.rule .prefixOp).Fails false text := by
        refine fails_operator (by decide) fun c hc r hr hsymbol => (h c hc).2.2.1 ?_
        cases List.mem_singleton.mp hr
        exact (Option.some.inj hsymbol).symm
      have htight : Tight false text := tight_of_head fun c hc => (h c hc).2.1
      have hsimple : (Pattern.rule .simple).Fails false text :=
        .rule (.after (.never hbang) htight (.seq_left (fails_factor fun c hc => (h c hc).1)))
      exact .rule (.seq_left hsimple)

end Expressions

end ScopeScript
