import ScopeScript.Proofs.Phrases

/-!
# Constants are read back

A constant that is written down is read as that constant, in front of anything that can follow it.

* `readInt?_signedDigits`: the decimal digits of a word are read as that word.
* `Rule.accepts_float_iff`: the texts of the rule for numbers with a point. How such a number is
  written is left open; `Literal.IsWritten` says that it is written as a text of this rule which
  reads back.
* `Literal.readsExpr_render` and `Literal.reads_render`: a constant as an expression, and in a list.
-/

namespace ScopeScript

open Pattern

/-! ### Integers -/

/-- An integer is written as an optional sign and digits. -/
theorem exists_signedDigits_eq (n : Int) : ∃ sign ∈ [[], ['+'], ['-']],
    signedDigits n = sign ++ Nat.toDigits 10 n.natAbs ∧ (sign = ['-'] ↔ n < 0) := by
  unfold signedDigits
  split
  · rename_i hn
    exact ⟨['-'], by decide, rfl, by simpa using hn⟩
  · rename_i hn
    exact ⟨[], by decide, rfl, by simpa using hn⟩

theorem isIntText_signedDigits (n : Int) : IsIntText (signedDigits n) := by
  obtain ⟨sign, hsign, heq, -⟩ := exists_signedDigits_eq n
  exact ⟨sign, hsign, _, isNumeral_toDigits _, heq⟩

theorem splitSign_signedDigits (n : Int) :
    splitSign (signedDigits n) = (decide (n < 0), Nat.toDigits 10 n.natAbs) := by
  obtain ⟨sign, hsign, heq, hminus⟩ := exists_signedDigits_eq n
  rw [heq, splitSign_append hsign (isNumeral_head (isNumeral_toDigits _))]
  have hsame : (sign == ['-']) = decide (n < 0) :=
    Bool.eq_iff_iff.mpr (by rw [beq_iff_eq, decide_eq_true_eq, hminus])
  rw [hsame]

theorem signedValue_signedDigits (n : Int) : signedValue (signedDigits n) = n := by
  simp only [signedValue, splitSign_signedDigits, digitsValue_toDigits, decide_eq_true_eq]
  split <;> omega

theorem fitsWord_toInt (n : Int64) : fitsWord n.toInt = true := by
  have hlow := n.le_toInt
  have hhigh := n.toInt_lt
  have hhalf : (halfWordSize : Int) = 2 ^ 63 := rfl
  simp only [fitsWord, hhalf, Bool.and_eq_true, decide_eq_true_eq]
  exact ⟨hlow, hhigh⟩

/-- **The digits of a word are read as that word.** -/
theorem readInt?_signedDigits (n : Int64) : readInt? (signedDigits n.toInt) = some n := by
  rw [readInt?_eq_some_iff, signedValue_signedDigits, splitSign_signedDigits]
  exact ⟨isNumeral_toDigits _, fitsWord_toInt n, n.ofInt_toInt.symm⟩

/-! ### Numbers with a point -/

/-- The rule matches the text as a whole. -/
def Rule.Accepts (r : Rule) (cs : List Char) : Prop :=
  ∃ next ts, r.matchStart cs = .ok (next, ts) ∧ next.rest = []

theorem Rule.accepts_float_iff {cs : List Char} : Rule.float.Accepts cs ↔ IsFloatText cs := by
  constructor
  · rintro ⟨next, ts, hmatch, hend⟩
    have hderives := derives_of_matchStart hmatch
    have hmatches := hderives.isMatch
    obtain ⟨ds, hspans⟩ := hderives.spans
    have htext : cs = ds := by simpa [hend, Cursor.atStart] using hspans.rest
    subst htext
    cases hderives with
    | bare hbare _ => cases hbare
    | node _ _ =>
      have hfloat := (hmatches _ (List.mem_singleton_self _)).lexeme_float rfl
      have hlexeme : Rule.lexeme .float (.atStart cs) next = cs := by
        rw [Rule.lexeme, if_pos (show Rule.float.isAtomic = true from rfl), hspans.takeBytes]
      exact hlexeme ▸ hfloat
  · intro h
    have hreads : (Pattern.rule .float).Reads false cs [] [Tree.IsToken .float cs] :=
      reads_float h (by rintro _ ⟨⟩)
    obtain ⟨ts, hscan, -⟩ := hreads 0
    rw [List.append_nil] at hscan
    exact ⟨_, ts, matchStart_of_scan hscan, rfl⟩

/-! ### What is written for a constant -/

/-- A number with a point is written as a text of its rule that reads back. -/
def Literal.IsWritten (floatText : Float → List Char) : Literal → Prop
  | float x => Rule.float.Accepts (floatText x) ∧ readFloat? (floatText x) = some x
  | _ => True

/-- The characters that end a constant, a name and an expression. -/
def isCloser (c : Char) : Bool := [')', ';', ','].contains c

/-- The text ends a constant, a name and an expression. -/
def Closes (rest : List Char) : Prop := ∀ c ∈ rest.head?, isCloser c = true

theorem closes_cons {c : Char} (h : isCloser c = true) (rest : List Char) : Closes (c :: rest) := by
  rintro d ⟨⟩
  exact h

section Closes

variable {rest : List Char}

/-- What holds of the three characters holds of what follows. -/
theorem Closes.all {P : Char → Bool} (h : Closes rest) (hP : [')', ';', ','].all P = true) :
    ∀ c ∈ rest.head?, P c = true :=
  fun c hc => List.all_eq_true.mp hP c (List.contains_iff_mem.mp (h c hc))

theorem Closes.inert (h : Closes rest) : Inert rest := by
  have hclosers : [')', ';', ','].all (fun c => !isSkipped c && !startsOperator c) = true := by
    decide
  intro c hc
  simpa using h.all hclosers c hc

theorem Closes.noWord (h : Closes rest) : NoWord rest := by
  have hclosers : [')', ';', ','].all (fun c => !isWordChar c) = true := by decide
  intro c hc
  simpa using h.all hclosers c hc

theorem Closes.noDigit (h : Closes rest) : NoDigit rest := by
  have hclosers : [')', ';', ','].all (fun c => !c.isDigit) = true := by decide
  intro c hc
  simpa using h.all hclosers c hc

theorem Closes.ne {c : Char} (h : Closes rest) (hc : isCloser c = false) : rest.head? ≠ some c := by
  intro hhead
  rw [h c hhead] at hc
  cases hc

end Closes

/-! ### Reading constants -/

section Literals

variable {v : Literal} {floatText : Float → List Char} {cs rest : List Char}

/-- The constant is read from the tree, by itself and as an operand. -/
def Tree.IsConstant (v : Literal) (t : Tree) : Prop :=
  Literal.ofTree t = .ok v ∧ ∀ s, t.IsOperand (.literal s v)

theorem Tree.IsToken.isConstant {r : Rule} {t : Tree} (h : t.IsToken r cs)
    (hr : r ∈ Rule.constant.leaves)
    (hread : ∀ span, Literal.ofTree (.node r span cs []) = .ok v) : t.IsConstant v := by
  obtain ⟨span, rfl⟩ := h
  exact ⟨hread span, IsToken.denotes_literal ⟨span, rfl⟩ hr (hread span)⟩

/-- A constant is read by the first of the rules for constants that does not fail, and it begins
with no word that could mean something else. -/
structure Literal.ReadsAs (v : Literal) (r : Rule) (cs rest : List Char) : Prop where
  mem : r ∈ Rule.constant.leaves
  before : ∀ q ∈ Rule.constant.leaves.takeWhile (· != r), (Pattern.rule q).Fails false (cs ++ rest)
  reads : (Pattern.rule r).Reads false cs rest [Tree.IsConstant v]
  not_name : isName (firstWord (cs ++ rest)) = false
  not_opening : firstWord (cs ++ rest) ∉ openings

theorem Rule.noLetter_of_number {r : Rule} {Ps : List (Tree → Prop)} (hr : r = .int ∨ r = .float)
    (h : (Pattern.rule r).Reads false cs rest Ps) : NoLetter (cs ++ rest) := by
  have hsome : ∃ c ∈ (cs ++ rest).head?, startsNumber c = true := by
    by_contra hnone
    push Not at hnone
    obtain ⟨hfloat, hint⟩ := fails_number fun c hc => Bool.eq_false_iff.mpr (hnone c hc)
    rcases hr with rfl | rfl
    · exact hint.not_reads h
    · exact hfloat.not_reads h
  obtain ⟨c, hc, hstarts⟩ := hsome
  intro d hd
  cases hc.symm.trans hd
  by_contra hletter
  rw [(startsNumber_of_isAlpha ((Bool.not_eq_false _).mp hletter)).1] at hstarts
  cases hstarts

theorem Literal.readsAs_int (n : Int64) (hrest : Closes rest) :
    (Literal.int n).ReadsAs .int (signedDigits n.toInt) rest := by
  have htext := isIntText_signedDigits n.toInt
  have hreads := Rule.reads_int htext hrest.noDigit
  have hletter := Rule.noLetter_of_number (.inl rfl) hreads
  refine ⟨by decide, ?_, hreads.imp fun t ht => ht.isConstant (by decide) fun span => ?_,
    hletter.not_word.1, hletter.not_opening⟩
  · exact List.forall_mem_singleton.mpr
      (Rule.fails_float_of_int htext hrest.noDigit (hrest.ne (by decide)))
  · simp only [ofTree, Tree.rule, Tree.lexeme, readInt?_signedDigits]

theorem Literal.readsAs_float {x : Float} (hcs : Rule.float.Accepts cs)
    (hread : readFloat? cs = some x)
    (hrest : Closes rest) : (Literal.float x).ReadsAs .float cs rest := by
  have hreads := Rule.reads_float (Rule.accepts_float_iff.mp hcs) hrest.noDigit
  have hletter := Rule.noLetter_of_number (.inr rfl) hreads
  refine ⟨by decide, nofun, hreads.imp fun t ht => ht.isConstant (by decide) fun span => ?_,
    hletter.not_word.1, hletter.not_opening⟩
  simp only [ofTree, Tree.rule, Tree.lexeme, hread]

theorem unquote_quoted (cs : List Char) : unquote ('"' :: (cs ++ ['"'])) = cs := by
  simp [unquote]

theorem Literal.readsAs_str {s : String} (hs : isQuotable s.toList = true) (rest : List Char) :
    (Literal.str s).ReadsAs .string ('"' :: (s.toList ++ ['"'])) rest := by
  have hletter : NoLetter ('"' :: (s.toList ++ ['"']) ++ rest) := noLetter_cons rfl _
  have hquote : ∀ c ∈ ('"' :: (s.toList ++ ['"']) ++ rest).head?, startsNumber c = false := by
    rintro c ⟨⟩
    rfl
  obtain ⟨hfloat, hint⟩ := Rule.fails_number hquote
  refine ⟨by decide, ?_,
    (Rule.reads_string hs rest).imp fun t ht => ht.isConstant (by decide) fun span => ?_,
    hletter.not_word.1, hletter.not_opening⟩
  · change ∀ q ∈ [Rule.float, .int], _
    simp only [List.forall_mem_cons]
    exact ⟨hfloat, hint, nofun⟩
  · simp only [ofTree, Tree.rule, Tree.lexeme, unquote_quoted, String.ofList_toList]

theorem Literal.readsAs_bool (b : Bool) (hrest : Closes rest) :
    (Literal.bool b).ReadsAs .boolean ((Literal.bool b).render floatText) rest := by
  have hword : (Literal.bool b).render floatText ∈ truthWords ∧
      ∀ span, Literal.ofTree (.node .boolean span ((Literal.bool b).render floatText) []) =
        .ok (.bool b) := by
    cases b with
    | true => exact ⟨List.mem_cons_self, fun _ => rfl⟩
    | false => exact ⟨List.mem_cons_of_mem _ List.mem_cons_self, fun _ => rfl⟩
  generalize (Literal.bool b).render floatText = w at hword
  obtain ⟨hw, hread⟩ := hword
  have hwords : ∀ w ∈ truthWords, isName w = false ∧ w ∉ openings ∧
      w.head?.any (fun c => !startsNumber c && c != '"') = true := by decide
  obtain ⟨hname, hopening, hhead⟩ := hwords w hw
  obtain ⟨c, hc, hstarts⟩ := (Option.any_eq_true _ _).mp hhead
  simp only [Bool.and_eq_true, Bool.not_eq_true', bne_iff_ne] at hstarts
  obtain ⟨hnumber, hquote⟩ := hstarts
  have hfirst : firstWord (w ++ rest) = w :=
    firstWord_append (areWords_truthWords.all w hw) hrest.noWord
  have hhead : (w ++ rest).head? = some c := by rw [List.head?_append, hc]; rfl
  have hnumbers : ∀ d ∈ (w ++ rest).head?, startsNumber d = false := by
    intro d hd
    cases hhead.symm.trans hd
    exact hnumber
  obtain ⟨hfloat, hint⟩ := Rule.fails_number hnumbers
  refine ⟨by decide, ?_, (Rule.reads_boolean hw hrest.noWord).imp fun t ht =>
    ht.isConstant (by decide) hread,
    by rw [hfirst]; exact hname, by rw [hfirst]; exact hopening⟩
  change ∀ q ∈ [Rule.float, .int, .string], _
  simp only [List.forall_mem_cons]
  refine ⟨hfloat, hint, Rule.fails_string fun hd => hquote ?_, nofun⟩
  cases hhead.symm.trans hd
  rfl

/-- **Constants are read back** by the first rule that is not refused. -/
theorem Literal.exists_readsAs (hv : v.isWellFormed = true) (hwritten : v.IsWritten floatText)
    (hrest : Closes rest) : ∃ r, v.ReadsAs r (v.render floatText) rest := by
  cases v with
  | int n => exact ⟨_, readsAs_int n hrest⟩
  | float x => exact ⟨_, readsAs_float hwritten.1 hwritten.2 hrest⟩
  | str s => exact ⟨_, readsAs_str hv rest⟩
  | bool b => exact ⟨_, readsAs_bool b hrest⟩

theorem Literal.ReadsAs.factor {r : Rule} (h : v.ReadsAs r cs rest) :
    (Pattern.rule .factor).Reads false cs rest [Tree.IsConstant v] := by
  have hsame : ∀ r ∈ Rule.constant.leaves, r ∈ Rule.factor.leaves ∧
      Rule.factor.leaves.takeWhile (· != r) = Rule.constant.leaves.takeWhile (· != r) := by decide
  obtain ⟨hmem, hbefore⟩ := hsame r h.mem
  exact Rule.reads_factor hmem (hbefore ▸ h.before) h.reads

/-- A constant in a list. -/
theorem Literal.reads_render (hv : v.isWellFormed = true) (hwritten : v.IsWritten floatText)
    (hrest : Closes rest) :
    Tight false (v.render floatText ++ rest) ∧
      (Pattern.rule .constant).Reads false (v.render floatText) rest
      [fun t => Literal.ofTree t = .ok v] := by
  obtain ⟨r, h⟩ := exists_readsAs hv hwritten hrest
  refine ⟨Rule.tight_factor h.factor, ?_⟩
  exact (Rule.reads_choice (by decide) h.mem h.before h.reads).imp fun t ht => ht.1

/-- A constant as an expression. -/
theorem Literal.readsExpr_render (hv : v.isWellFormed = true) (hwritten : v.IsWritten floatText)
    (hrest : Closes rest) (s : Span) :
    ReadsExpr (v.render floatText) rest (Tree.Denotes (.literal s v)) := by
  obtain ⟨r, h⟩ := exists_readsAs hv hwritten hrest
  refine Rule.reads_operand h.not_opening (Rule.fails_assignment h.not_name) ?_ hrest.inert
  exact h.factor.imp fun t ht => ht.2 s

end Literals

end ScopeScript
