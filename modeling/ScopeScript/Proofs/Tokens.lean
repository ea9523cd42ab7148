import ScopeScript.Ast.WellFormed
import ScopeScript.Proofs.Recognition

/-!
# Words and constants are read back

How the rules for single words and constants behave on a text that begins with a word: a longest run
of letters, digits and underscores (`firstWord`). `NoWord` says that a text begins with none of
these, so that a word in front of it is over.

* A reserved word is read by its own pattern and by no other (`Pattern.Reads.word`,
  `Pattern.Fails.word`).
* A name is read as one (`Rule.reads_ident`), and no other word is (`Rule.fails_ident`).
* An integer, a number with a point, a quoted text and a truth value are read by their rules, and
  the rules that are tried before fail on them.
-/

namespace ScopeScript

open Pattern

/-! ### Runs of characters -/

/-- A repetition of single characters of a class takes all of them. -/
theorem Pattern.Reads.run {p : Pattern} {P : Char → Bool} {cs rest : List Char}
    (hnull : p.isNullable = false)
    (hone : ∀ c rest, P c = true → p.Reads true [c] rest []) (hfails : p.Fails true rest)
    (hcs : cs.all P = true) : (Pattern.star p).Reads true cs rest [] := by
  refine Continues.star hnull (tight_true _) ?_
  induction cs with
  | nil => exact .stop hnull (tight_true _) hfails
  | cons c cs ih =>
    obtain ⟨hc, hcs⟩ := List.all_cons.symm.trans hcs |> Bool.and_eq_true_iff.mp
    exact .step hnull (tight_true _) (hone c _ hc) (ih hcs)

/-! ### Words -/

/-- The text does not begin with a character of a word. -/
def NoWord (rest : List Char) : Prop := ∀ c ∈ rest.head?, isWordChar c = false

theorem noWord_cons {c : Char} (h : isWordChar c = false) (rest : List Char) :
    NoWord (c :: rest) := by
  rintro d ⟨⟩
  exact h

/-- The word with which a text begins; it may be empty. -/
def firstWord (text : List Char) : List Char := text.takeWhile isWordChar

theorem firstWord_append {w rest : List Char} (hall : w.all isWordChar = true)
    (hrest : NoWord rest) :
    firstWord (w ++ rest) = w := by
  have htaken : rest.takeWhile isWordChar = [] := by
    cases rest with
    | nil => rfl
    | cons c rest => simp [hrest c rfl]
  rw [firstWord, List.takeWhile_append_of_pos (List.all_eq_true.mp hall), htaken, List.append_nil]

theorem firstWord_of_noWord {rest : List Char} (h : NoWord rest) : firstWord rest = [] :=
  firstWord_append (w := []) rfl h

theorem exists_firstWord (text : List Char) :
    ∃ w rest, text = w ++ rest ∧ w.all isWordChar = true ∧ NoWord rest := by
  refine ⟨firstWord text, text.dropWhile isWordChar, List.takeWhile_append_dropWhile.symm,
    List.all_takeWhile, fun c hc => ?_⟩
  have hhead := List.head?_dropWhile_not isWordChar text
  rw [hc] at hhead
  simpa using hhead

theorem Rule.reads_wordChar {c : Char} (h : isWordChar c = true) (rest : List Char) :
    (Pattern.rule .wordChar).Reads true [c] rest [] := by
  refine .silent rfl ?_
  by_cases hc : c.isAlphanum = true
  · exact .alt_left (.one (show CharClass.holds .letterOrDigit c = true from hc) rest)
  · have hunderscore : c = '_' := by simpa [isWordChar, hc] using h
    subst hunderscore
    exact .alt_right (.one (by rintro d ⟨⟩; rfl)) (.text ['_'] rest)

theorem Rule.fails_wordChar {rest : List Char} (h : NoWord rest) :
    (Pattern.rule .wordChar).Fails true rest := by
  have hboth : ∀ c ∈ rest.head?, c.isAlphanum = false ∧ c ≠ '_' := by
    intro c hc
    simpa [isWordChar] using h c hc
  refine .rule (.alt (.one fun c hc => (hboth c hc).1) (.char fun hhead => ?_))
  exact (hboth '_' hhead).2 rfl

/-- One of the given words, and not only the start of a longer one. -/
def Pattern.wordOf (words : List (List Char)) : Pattern :=
  .seq (firstOf (words.map .text)) (.notAhead (.rule .wordChar))

/-- Words of which none is the start of another one. -/
structure AreWords (words : List (List Char)) : Prop where
  ne_nil : words ≠ []
  all : ∀ w ∈ words, w.all isWordChar = true
  eq_of_prefix : ∀ v ∈ words, ∀ w ∈ words, v <+: w → v = w

theorem areWords_keywords : AreWords keywords := ⟨by decide, by decide, by decide⟩

section WordOf

variable {words : List (List Char)} {w rest : List Char}

theorem AreWords.reads (hwords : AreWords words) (hw : w ∈ words) (hrest : NoWord rest) :
    (wordOf words).Reads true w rest [] := by
  obtain ⟨before, after, hsplit, hnew⟩ := List.eq_append_cons_of_mem hw
  have hfirst : (firstOf (words.map .text)).Reads true w rest [] := by
    rw [hsplit, List.map_append, List.map_cons]
    refine .firstOf (fun q hq => ?_) (.text w rest)
    obtain ⟨v, hv, rfl⟩ := List.mem_map.mp hq
    refine .text fun hprefix => hnew ?_
    have hv' : v ∈ words := hsplit ▸ List.mem_append_left _ hv
    rcases List.prefix_or_prefix_of_prefix hprefix (List.prefix_append w rest) with h | h
    · exact hwords.eq_of_prefix v hv' w hw h ▸ hv
    · exact hwords.eq_of_prefix w hw v hv' h ▸ hv
  exact hfirst.before (tight_true _) (.notAhead (Rule.fails_wordChar hrest))

/-- The first word that stands next is read, if there is one. -/
theorem Pattern.reads_or_fails_firstOf (hne : words ≠ []) (text : List Char) :
    (∃ v ∈ words, ∃ tail, text = v ++ tail ∧ (firstOf (words.map .text)).Reads true v tail []) ∨
      (firstOf (words.map .text)).Fails true text := by
  induction words with
  | nil => exact absurd rfl hne
  | cons v words ih =>
    by_cases hprefix : v <+: text
    · obtain ⟨tail, rfl⟩ := hprefix
      have hreads : (firstOf ([] ++ .text v :: words.map .text)).Reads true v tail [] :=
        .firstOf (fun _ hq => absurd hq List.not_mem_nil) (.text v tail)
      exact .inl ⟨v, List.mem_cons_self, tail, rfl, hreads⟩
    · have hfails : (Pattern.text v).Fails true text := .text hprefix
      cases words with
      | nil => exact .inr hfails
      | cons u words =>
        rcases ih (List.cons_ne_nil _ _) with ⟨w, hw, tail, rfl, hreads⟩ | hall
        · exact .inl ⟨w, List.mem_cons_of_mem _ hw, tail, rfl, hreads.alt_right hfails⟩
        · exact .inr (hfails.alt hall)

theorem AreWords.fails (hwords : AreWords words) (hall : w.all isWordChar = true) (hw : w ∉ words)
    (hrest : NoWord rest) : (wordOf words).Fails true (w ++ rest) := by
  rcases Pattern.reads_or_fails_firstOf hwords.ne_nil (w ++ rest) with
    ⟨v, hv, tail, htext, hreads⟩ | hfails
  · -- a word of the list stands next, but it is only the start of the longer word
    rw [htext]
    obtain ⟨c, tail, rfl, hc⟩ : ∃ c tail', tail = c :: tail' ∧ isWordChar c = true := by
      have hvtext : v <+: w ++ rest := ⟨tail, htext.symm⟩
      rcases List.prefix_or_prefix_of_prefix hvtext (List.prefix_append w rest) with
        ⟨more, rfl⟩ | ⟨more, rfl⟩
      · rw [List.append_assoc] at htext
        obtain rfl := List.append_cancel_left htext
        cases more with
        | nil => exact absurd (by simpa using hv) hw
        | cons c more =>
          simp only [List.all_append, List.all_cons, Bool.and_eq_true] at hall
          exact ⟨c, more ++ rest, rfl, hall.2.1⟩
      · rw [List.append_assoc] at htext
        obtain rfl := List.append_cancel_left htext
        cases more with
        | nil => exact absurd (by simpa using hv) hw
        | cons c more =>
          have hmore := hwords.all _ hv
          simp only [List.all_append, List.all_cons, Bool.and_eq_true] at hmore
          have hnot := hrest c rfl
          rw [hmore.2.1] at hnot
          cases hnot
    exact Pattern.Fails.seq_right hreads (tight_true _) (.notAhead (Rule.reads_wordChar hc tail))
  · exact .seq_left hfails

end WordOf

/-! ### Reserved words -/

section Reserved

variable {w rest : List Char}

theorem Rule.reads_keyword (hw : w ∈ keywords) (hrest : NoWord rest) :
    (Pattern.rule .keyword).Reads false w rest [Tree.IsToken .keyword w] :=
  .token rfl rfl (areWords_keywords.reads hw hrest)

theorem Rule.fails_keyword (atomic : Bool) (hall : w.all isWordChar = true) (hw : w ∉ keywords)
    (hrest : NoWord rest) : (Pattern.rule .keyword).Fails atomic (w ++ rest) := by
  refine .rule ?_
  rw [show (atomic || Rule.keyword.isAtomic) = true from Bool.or_true atomic]
  exact areWords_keywords.fails hall hw hrest

/-- Nothing is skipped in front of a word. -/
theorem isSkipped_of_isWordChar {c : Char} (h : isWordChar c = true) : isSkipped c = false := by
  by_contra hskipped
  simp only [isSkipped, Bool.not_eq_false, List.contains_cons, List.contains_nil, Bool.or_false,
    Bool.or_eq_true, beq_iff_eq] at hskipped
  rcases hskipped with rfl | rfl | rfl | rfl | rfl <;> cases h

theorem tight_word {atomic : Bool} (hall : w.all isWordChar = true) (hne : w ≠ [])
    (rest : List Char) :
    Tight atomic (w ++ rest) := by
  cases w with
  | nil => exact absurd rfl hne
  | cons c w =>
    simp only [List.all_cons, Bool.and_eq_true] at hall
    exact tight_cons (isSkipped_of_isWordChar hall.1) _

/-- A reserved word is read by its own pattern. -/
theorem Pattern.Reads.word (hw : w ∈ keywords) (hrest : NoWord rest) :
    (Pattern.word w).Reads false w rest [] := by
  have hne : ∀ w ∈ keywords, w ≠ [] := by decide
  refine .seq (Rule.reads_keyword hw hrest).ahead ?_ (.text w rest)
  exact tight_word (areWords_keywords.all w hw) (hne w hw) rest

/-- No other word is read by the pattern of a reserved word. -/
theorem Pattern.Fails.word {k text : List Char} (hk : k ∈ keywords) (hw : firstWord text ≠ k) :
    (Pattern.word k).Fails false text := by
  obtain ⟨w, rest, rfl, hall, hrest⟩ := exists_firstWord text
  rw [firstWord_append hall hrest] at hw
  by_cases hmem : w ∈ keywords
  · have hne : ∀ w ∈ keywords, w ≠ [] := by decide
    refine .after (Rule.reads_keyword hmem hrest).ahead (tight_word hall (hne w hmem) rest) ?_
    refine .text fun hprefix => hw ?_
    rcases List.prefix_or_prefix_of_prefix hprefix (List.prefix_append w rest) with h | h
    · exact (areWords_keywords.eq_of_prefix k hk w hmem h).symm
    · exact areWords_keywords.eq_of_prefix w hmem k hk h
  · exact .seq_left (Rule.fails_keyword false hall hmem hrest).ahead

end Reserved

/-! ### Names -/

section Names

variable {w rest : List Char}

theorem Rule.reads_ident_body (hw : isName w = true) (hrest : NoWord rest) :
    (Rule.body .ident).Reads true w rest [] := by
  cases w with
  | nil => cases hw
  | cons c w =>
    have hall := isName_all hw
    simp only [List.all_cons, Bool.and_eq_true] at hall
    have hkeyword : (Pattern.rule .keyword).Fails true (c :: w ++ rest) :=
      Rule.fails_keyword true (isName_all hw) (isName_not_keyword hw) hrest
    have hletter : (Pattern.alt (.one .letter) (.char '_')).Reads true [c] (w ++ rest) [] := by
      by_cases hc : c.isAlpha = true
      · exact .alt_left (.one (show CharClass.holds .letter c = true from hc) _)
      · obtain rfl : c = '_' := by simpa [hc] using isName_head hw
        exact .alt_right (.one (by rintro d ⟨⟩; rfl)) (.text ['_'] _)
    have hmore : (Pattern.star (.rule .wordChar)).Reads true w rest [] :=
      .run rfl (fun c rest hc => Rule.reads_wordChar hc rest) (Rule.fails_wordChar hrest) hall.2
    exact .after (.notAhead hkeyword) (tight_true _) (hletter.seq (tight_true _) hmore)

theorem Rule.reads_ident (hw : isName w = true) (hrest : NoWord rest) :
    (Pattern.rule .ident).Reads false w rest [Tree.IsToken .ident w] :=
  .token rfl rfl (Rule.reads_ident_body hw hrest)

theorem tight_name (hw : isName w = true) (rest : List Char) : Tight false (w ++ rest) := by
  refine tight_word (isName_all hw) ?_ rest
  rintro rfl
  cases hw

/-- What is no name is not read as one. -/
theorem Rule.fails_ident {text : List Char} (hw : isName (firstWord text) = false) :
    (Pattern.rule .ident).Fails false text := by
  obtain ⟨w, rest, rfl, hall, hrest⟩ := exists_firstWord text
  rw [firstWord_append hall hrest] at hw
  refine .rule ?_
  change (Rule.body .ident).Fails true (w ++ rest)
  by_cases hmem : w ∈ keywords
  · exact .seq_left (.notAhead (Pattern.Reads.inner (areWords_keywords.reads hmem hrest)))
  · have hkeyword : (Pattern.rule .keyword).Fails true (w ++ rest) :=
      Rule.fails_keyword true hall hmem hrest
    refine .after (.notAhead hkeyword) (tight_true _) (.seq_left ?_)
    have hhead : ∀ c ∈ (w ++ rest).head?, c.isAlpha = false ∧ c ≠ '_' := by
      intro c hc
      cases w with
      | nil =>
        have hnot := hrest c hc
        simp only [isWordChar, Char.isAlphanum, Bool.or_eq_false_iff, beq_eq_false_iff_ne] at hnot
        exact ⟨hnot.1.1, hnot.2⟩
      | cons d w =>
        cases hc
        have hreserved : c.isAlpha = true ∨ c = '_' → c :: w ∈ keywords := by
          simpa [isName, hall] using hw
        simpa using mt hreserved hmem
    exact .alt (.one fun c hc => (hhead c hc).1) (.char fun hc => (hhead '_' hc).2 rfl)

end Names

/-! ### Numbers -/

section Numbers

variable {cs rest : List Char}

/-- The text does not begin with a digit. -/
def NoDigit (rest : List Char) : Prop := ∀ c ∈ rest.head?, c.isDigit = false

theorem Pattern.Reads.digits {digits : List Char} (hdigits : digits.all Char.isDigit = true)
    (hrest : NoDigit rest) :
    (Pattern.star (.one .digit)).Reads true digits rest [] :=
  .run rfl (fun c rest hc => .one (show CharClass.holds .digit c = true from hc) rest)
    (.one hrest) hdigits

theorem Pattern.Reads.numeral {digits : List Char} (hdigits : isNumeral digits = true)
    (hrest : NoDigit rest) :
    (Pattern.plus (.one .digit)).Reads true digits rest [] := by
  simp only [isNumeral, Bool.and_eq_true, Bool.not_eq_true', List.isEmpty_eq_false_iff] at hdigits
  obtain ⟨hne, hall⟩ := hdigits
  cases digits with
  | nil => exact absurd rfl hne
  | cons c digits =>
    simp only [List.all_cons, Bool.and_eq_true] at hall
    have hfirst : (Pattern.one .digit).Reads true [c] (digits ++ rest) [] :=
      .one (show CharClass.holds .digit c = true from hall.1) _
    exact hfirst.seq (tight_true _) (.digits hall.2 hrest)

theorem Pattern.Fails.sign {atomic : Bool} (h : ∀ c ∈ rest.head?, c ≠ '+' ∧ c ≠ '-') :
    Pattern.sign.Fails atomic rest :=
  .alt (.char fun hc => (h '+' hc).1 rfl) (.char fun hc => (h '-' hc).2 rfl)

theorem Pattern.Reads.sign {sign : List Char} (hsign : sign ∈ [[], ['+'], ['-']])
    (hrest : ∀ c ∈ rest.head?, c ≠ '+' ∧ c ≠ '-') :
    (Pattern.opt .sign).Reads true sign rest [] := by
  simp only [List.mem_cons, List.not_mem_nil, or_false] at hsign
  rcases hsign with rfl | rfl | rfl
  · exact .absent (.sign hrest)
  · exact .present (.alt_left (.text ['+'] rest))
  · exact .present (.alt_right (.char (by simp)) (.text ['-'] rest))

theorem Rule.reads_int (hcs : IsIntText cs) (hrest : NoDigit rest) :
    (Pattern.rule .int).Reads false cs rest [Tree.IsToken .int cs] := by
  obtain ⟨sign, hsign, digits, hdigits, rfl⟩ := hcs
  have hhead : ∀ c ∈ (digits ++ rest).head?, c ≠ '+' ∧ c ≠ '-' := by
    intro c hc
    cases digits with
    | nil => cases hdigits
    | cons d digits => exact isNumeral_head hdigits c hc
  exact .token rfl rfl (.seq (.sign hsign hhead) (tight_true _) (.numeral hdigits hrest))

theorem Rule.reads_float (hcs : IsFloatText cs) (hrest : NoDigit rest) :
    (Pattern.rule .float).Reads false cs rest [Tree.IsToken .float cs] := by
  obtain ⟨sign, hsign, whole, hwhole, places, hplaces, rfl⟩ := hcs
  have hhead : ∀ c ∈ ((whole ++ '.' :: places) ++ rest).head?, c ≠ '+' ∧ c ≠ '-' := by
    intro c hc
    cases whole with
    | nil =>
      cases hc
      decide
    | cons d whole =>
      cases hc
      exact isNumeral_head (by simpa [isNumeral] using hwhole : isNumeral (c :: whole)) c rfl
  have hpoint :
      (Pattern.seq (.char '.') (.plus (.one .digit))).Reads true ('.' :: places) rest [] :=
    .seq (.text ['.'] _) (tight_true _) (.numeral hplaces hrest)
  have hdigits : (Pattern.star (.one .digit)).Reads true whole (('.' :: places) ++ rest) [] :=
    .digits hwhole (by rintro c ⟨⟩; rfl)
  exact .token rfl rfl (.seq (.sign hsign hhead) (tight_true _) (hdigits.seq (tight_true _) hpoint))

/-- An integer is not read as a number with a point. -/
theorem Rule.fails_float_of_int (hcs : IsIntText cs) (hrest : NoDigit rest)
    (hpoint : rest.head? ≠ some '.') :
    (Pattern.rule .float).Fails false (cs ++ rest) := by
  obtain ⟨sign, hsign, digits, hdigits, rfl⟩ := hcs
  have hhead : ∀ c ∈ (digits ++ rest).head?, c ≠ '+' ∧ c ≠ '-' := by
    intro c hc
    cases digits with
    | nil => cases hdigits
    | cons d digits => exact isNumeral_head hdigits c hc
  simp only [isNumeral, Bool.and_eq_true] at hdigits
  refine .rule ?_
  change (Rule.body .float).Fails true _
  rw [List.append_assoc]
  refine .seq_right (.sign hsign hhead) (tight_true _) ?_
  exact .seq_right (.digits hdigits.2 hrest) (tight_true _) (.seq_left (.char hpoint))

/-- The characters with which numbers begin. -/
def startsNumber (c : Char) : Bool := c.isDigit || c == '+' || c == '-' || c == '.'

theorem Rule.fails_number (h : ∀ c ∈ rest.head?, startsNumber c = false) :
    (Pattern.rule .float).Fails false rest ∧ (Pattern.rule .int).Fails false rest := by
  have hhead : ∀ c ∈ rest.head?, c.isDigit = false ∧ c ≠ '+' ∧ c ≠ '-' ∧ c ≠ '.' := by
    intro c hc
    simpa [startsNumber, and_assoc] using h c hc
  have hsign : (Pattern.opt .sign).Reads true [] rest [] :=
    .absent (.sign fun c hc => ⟨(hhead c hc).2.1, (hhead c hc).2.2.1⟩)
  have hdigit : (Pattern.one .digit).Fails true rest := .one fun c hc => (hhead c hc).1
  constructor
  · refine .rule (Pattern.Fails.after hsign (tight_true _) ?_)
    exact Pattern.Fails.after (.never hdigit) (tight_true _)
      (.seq_left (.char fun hc => (hhead '.' hc).2.2.2 rfl))
  · exact .rule (Pattern.Fails.after hsign (tight_true _) (.seq_left hdigit))

end Numbers

/-! ### Quoted texts and truth values -/

section Constants

variable {cs w rest : List Char}

theorem Rule.reads_string (hcs : isQuotable cs = true) (rest : List Char) :
    (Pattern.rule .string).Reads false ('"' :: (cs ++ ['"'])) rest
      [Tree.IsToken .string ('"' :: (cs ++ ['"']))] := by
  have hinner :
      (Pattern.star (.seq (.notAhead (.alt (.char '"') lineBreak)) (.one .any))).Reads true cs
      (['"'] ++ rest) [] := by
    refine .run rfl (fun c rest hc => ?_) ?_ hcs
    · simp only [Bool.and_eq_true, bne_iff_ne] at hc
      have hbreak : lineBreak.Fails true ([c] ++ rest) := by
        refine .firstOf (by simp) fun q hq => ?_
        simp only [List.mem_cons, List.not_mem_nil, or_false] at hq
        rcases hq with rfl | rfl | rfl
        · exact .char (by simpa using hc.1.2)
        · exact .text (by simp [Ne.symm hc.2])
        · exact .char (by simpa using hc.2)
      have hquote : (Pattern.char '"').Fails true ([c] ++ rest) := .char (by simpa using hc.1.1)
      exact .after (.notAhead (hquote.alt hbreak)) (tight_true _) (.one rfl rest)
    · exact .seq_left (.notAhead (.alt_left (.text ['"'] rest)))
  refine .token rfl rfl ?_
  exact .seq (.text ['"'] _) (tight_true _) (hinner.seq (tight_true _) (.text ['"'] rest))

theorem Rule.fails_string (h : rest.head? ≠ some '"') : (Pattern.rule .string).Fails false rest :=
  .rule (.seq_left (.char h))

/-- The two words for truth values. -/
def truthWords : List (List Char) := [['T', 'R', 'U', 'E'], ['F', 'A', 'L', 'S', 'E']]

theorem truthWords_subset_keywords : truthWords ⊆ keywords := by decide

theorem areWords_truthWords : AreWords truthWords := ⟨by decide, by decide, by decide⟩

theorem Rule.reads_boolean (hw : w ∈ truthWords) (hrest : NoWord rest) :
    (Pattern.rule .boolean).Reads false w rest [Tree.IsToken .boolean w] :=
  .token rfl rfl (areWords_truthWords.reads hw hrest)

theorem Rule.fails_boolean {text : List Char} (hw : firstWord text ∉ truthWords) :
    (Pattern.rule .boolean).Fails false text := by
  obtain ⟨w, rest, rfl, hall, hrest⟩ := exists_firstWord text
  rw [firstWord_append hall hrest] at hw
  exact .rule (areWords_truthWords.fails hall hw hrest)

end Constants

end ScopeScript
