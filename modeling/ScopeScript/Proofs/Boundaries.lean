import ScopeScript.Proofs.Carrying
import ScopeScript.Proofs.Spelling
import ScopeScript.Proofs.Written

/-!
# Where words and numbers end

A word and a number take all the characters that they can. So in the text behind a match of an
atomic rule no word goes on (`Rule.IsWord.of_scan`), or no number does
(`Rule.IsNumber.noDigit_of_scan`). Neither does one in layout, and hence such a match is carried
over to a text with layout behind it: `Rule.IsWord.carries` for names and truth values,
`Rule.IsNumber.carries` for numbers, and `Rule.IsReserved.carries` for reserved words.

`Insertion.KeepsWord` says that the text at a cursor begins with the same word as before. This is
what makes alternatives fail in the new text that are told apart by their first word.
-/

namespace ScopeScript

open Pattern

/-! ### Reading is determined -/

section Determined

variable {p : Pattern} {atomic : Bool} {cs rest : List Char} {Ps : List (Tree → Prop)}
  {here next : Cursor}
  {ts : List Tree}

/-- A pattern that reads a text matches nothing else there. -/
theorem Pattern.Reads.of_scan (h : p.Reads atomic cs rest Ps) (hhere : here.rest = cs ++ rest)
    (hscan : p.scan atomic here = some (next, ts)) : here.Spans cs next ∧ next.rest = rest ∧
    Tree.AllHave Ps ts := by
  obtain ⟨text, pos⟩ := here
  change text = cs ++ rest at hhere
  subst hhere
  obtain ⟨us, hus, hall⟩ := h pos
  rw [hus] at hscan
  cases hscan
  exact ⟨⟨rfl, rfl⟩, rfl, hall⟩

theorem Pattern.Reads.scan_ne_none (h : p.Reads atomic cs rest Ps)
    (hhere : here.rest = cs ++ rest) :
    p.scan atomic here ≠ none := by
  obtain ⟨text, pos⟩ := here
  change text = cs ++ rest at hhere
  subst hhere
  obtain ⟨us, hus, -⟩ := h pos
  rw [hus]
  exact Option.some_ne_none _

theorem Pattern.Fails.scan_eq_none (h : p.Fails atomic here.rest) :
    p.scan atomic here = none := h here.pos

/-- A match of an atomic rule keeps its text. -/
theorem Rule.exists_token {r : Rule} (hr : r.isSilent = false) (hatomic : r.isAtomic = true)
    (h : r.scan false here = some (next, ts)) :
    ∃ cs t, here.Spans cs next ∧ ts = [t] ∧ t.IsToken r cs ∧ t.IsMatch := by
  have hderives : Derives false (.rule r) here ts next := derives_of_scan h
  obtain ⟨cs, hcs⟩ := hderives.spans
  obtain ⟨us, hbody, hts⟩ := Rule.exists_of_scan h
  rw [hatomic] at hbody
  obtain rfl : us = [] := (derives_of_scan hbody).of_atomic rfl
  have hlexeme : r.lexeme here next = cs := by rw [Rule.lexeme, if_pos hatomic, hcs.takeBytes]
  rw [Rule.nodes, hr, Bool.or_false, if_neg Bool.false_ne_true, hlexeme] at hts
  refine ⟨cs, _, hcs, hts, ⟨_, rfl⟩, ?_⟩
  exact hderives.isMatch _ (hts ▸ List.mem_singleton_self _)

end Determined

/-! ### Words -/

/-- The rule reads words of a kind, and nothing else. -/
structure Rule.IsWord (r : Rule) (P : List Char → Prop) (Ps : List Char → List (Tree → Prop)) :
    Prop where
  reads : ∀ {w rest}, P w → NoWord rest → (Pattern.rule r).Reads false w rest (Ps w)
  fails : ∀ {text}, ¬P (firstWord text) → (Pattern.rule r).Fails false text

theorem Rule.isWord_ident : Rule.ident.IsWord (isName · = true) fun w =>
    [Tree.IsToken .ident w] where
  reads hw hrest := Rule.reads_ident hw hrest
  fails hw := Rule.fails_ident (Bool.eq_false_iff.mpr hw)

theorem Rule.isWord_boolean : Rule.boolean.IsWord (· ∈ truthWords) fun w =>
    [Tree.IsToken .boolean w] where
  reads hw hrest := Rule.reads_boolean hw hrest
  fails hw := Rule.fails_boolean hw

theorem Rule.IsReserved.isWord {r : Rule} {k : List Char} (hr : r.IsReserved k) :
    r.IsWord (· = k) fun _ => [] where
  reads hw hrest := hw ▸ hr.reads hrest
  fails hw := by
    refine .rule ?_
    rw [hr.plain, hr.body]
    exact .word hr.mem hw

section Words

variable {r : Rule} {P : List Char → Prop} {Ps : List Char → List (Tree → Prop)}
  {here next : Cursor}
  {ts : List Tree}

/-- A match of a word takes the whole word. -/
theorem Rule.IsWord.of_scan (hr : r.IsWord P Ps)
    (h : (Pattern.rule r).scan false here = some (next, ts)) :
    P (firstWord here.rest) ∧ here.Spans (firstWord here.rest) next ∧ NoWord next.rest ∧
      Tree.AllHave (Ps (firstWord here.rest)) ts := by
  have hP : P (firstWord here.rest) := by
    by_contra hnot
    rw [(hr.fails hnot).scan_eq_none] at h
    cases h
  obtain ⟨w, rest, htext, hall, hrest⟩ := exists_firstWord here.rest
  rw [htext, firstWord_append hall hrest] at hP ⊢
  obtain ⟨hspans, hnext, hall⟩ := (hr.reads hP hrest).of_scan htext h
  exact ⟨hP, hspans, hnext ▸ hrest, hall⟩

theorem isWordChar_of_isSkipped {c : Char} (h : isSkipped c = true) : isWordChar c = false := by
  by_contra hword
  rw [isSkipped_of_isWordChar ((Bool.not_eq_false _).mp hword)] at h
  cases h

theorem isDigit_of_isSkipped {c : Char} (h : isSkipped c = true) : c.isDigit = false := by
  have hword := isWordChar_of_isSkipped h
  simp only [isWordChar, Char.isAlphanum, Bool.or_eq_false_iff] at hword
  exact hword.1.2

variable {i : Insertion}

theorem Insertion.Lands.noWord {rest : List Char} (h : i.Lands next rest)
    (hnext : NoWord next.rest) :
    NoWord rest := by
  intro c hc
  rcases h.head? c hc with hold | hskipped
  · exact hnext c hold
  · exact isWordChar_of_isSkipped hskipped

theorem Insertion.Lands.noDigit {rest : List Char} (h : i.Lands next rest)
    (hnext : NoDigit next.rest) :
    NoDigit rest := by
  intro c hc
  rcases h.head? c hc with hold | hskipped
  · exact hnext c hold
  · exact isDigit_of_isSkipped hskipped

/-- The new text at the cursor begins with the same word. -/
def Insertion.KeepsWord (i : Insertion) (here : Cursor) : Prop :=
  ∀ rest, i.Moves here rest → firstWord rest = firstWord here.rest

/-- A match of a word around the offset leaves the word as it is. -/
theorem Rule.IsWord.keepsWord (hr : r.IsWord P Ps)
    (h : (Pattern.rule r).scan false here = some (next, ts))
    (hpiece : ¬(⟨here.pos, next.pos⟩ : Span).HasInside i.cut) : i.KeepsWord here := by
  intro rest hmoves
  obtain ⟨-, hspans, hnext, -⟩ := hr.of_scan h
  obtain ⟨rest', rfl, hlands⟩ := hmoves.through hspans hpiece
  exact firstWord_append List.all_takeWhile (hlands.noWord hnext)

end Words

/-! ### Reserved words -/

section Reserved

variable {i : Insertion} {r : Rule} {k : List Char} {here next : Cursor} {ts : List Tree}

theorem Cursor.IsTight.of_firstWord (h : firstWord here.rest ≠ []) : here.IsTight := by
  intro c hc
  cases hrest : here.rest with
  | nil =>
    rw [hrest] at hc
    cases hc
  | cons d rest =>
    rw [hrest] at hc h
    cases hc
    rw [firstWord, List.takeWhile_cons] at h
    split at h
    · rename_i hword
      exact isSkipped_of_isWordChar hword
    · exact absurd rfl h

/-- A match of a reserved word is one piece. -/
theorem Rule.IsReserved.piece (hr : r.IsReserved k)
    (h : (Pattern.rule r).MatchesAround i.cut here next ts) :
    ¬(⟨here.pos, next.pos⟩ : Span).HasInside i.cut := by
  obtain ⟨hword, hspans, -⟩ := hr.isWord.of_scan h.scan
  have hne : ∀ k ∈ keywords, k ≠ [] := by decide
  have htight : here.IsTight := .of_firstWord (hword ▸ hne k hr.mem)
  obtain ⟨us, hbody, -⟩ := h.body hr.plain
  rw [hr.body] at hbody
  obtain ⟨mid, ps, qs, hlook, -, htext, -⟩ := hbody.seq
  obtain rfl : mid = here := by
    have hderives := derives_of_scan hlook.scan
    cases hderives
    rfl
  rw [htight.skip_eq] at htext
  obtain ⟨hspans', -⟩ := spans_of_scan_text htext.scan
  rw [hspans'.pos]
  exact htext.pieces _ (List.mem_singleton_self _)

theorem Rule.IsReserved.carries (hr : r.IsReserved k)
    (h : (Pattern.rule r).MatchesAround i.cut here next ts) :
    (Pattern.rule r).Carries i here next ts := by
  intro rest hmoves
  obtain ⟨hword, hspans, hnext, hall⟩ := hr.isWord.of_scan h.scan
  obtain ⟨rest', hrest, hlands⟩ := hmoves.through hspans (hr.piece h)
  rw [hword] at hrest
  cases hall
  exact ⟨k, rest', hrest, hlands, hr.reads (hlands.noWord hnext)⟩

theorem Rule.IsReserved.keepsWord (hr : r.IsReserved k)
    (h : (Pattern.rule r).MatchesAround i.cut here next ts) :
    i.KeepsWord here :=
  hr.isWord.keepsWord h.scan (hr.piece h)

end Reserved

/-! ### Names, numbers and quoted texts -/

section Tokens

variable {i : Insertion} {r : Rule} {here next : Cursor} {ts : List Tree}

/-- A match of an atomic rule is carried over, if the rule reads its text in front of layout as
well. -/
theorem Pattern.MatchesAround.carries_token (hr : r.isSilent = false) (hatomic : r.isAtomic = true)
    (h : (Pattern.rule r).MatchesAround i.cut here next ts)
    (hreads : ∀ cs rest, here.Spans cs next → i.Lands next rest →
      ∀ t : Tree, t.IsToken r cs → t.IsMatch →
      (Pattern.rule r).Reads false cs rest [Tree.IsToken r cs]) :
    (Pattern.rule r).Carries i here next ts := by
  intro rest hmoves
  obtain ⟨cs, t, hspans, rfl, htoken, hmatch⟩ := Rule.exists_token hr hatomic h.scan
  obtain ⟨rest', rfl, hlands⟩ := hmoves.through hspans (h.token hatomic)
  refine ⟨cs, rest', rfl, hlands, (hreads cs rest' hspans hlands t htoken hmatch).imp
    fun u hu => ?_⟩
  obtain ⟨span, rfl⟩ := htoken
  obtain ⟨span', rfl⟩ := hu
  exact Tree.sameAs_node r span span' cs .nil

/-- A match of a word is carried over. -/
theorem Rule.IsWord.carries {P : List Char → Prop} (hword : r.IsWord P fun w => [Tree.IsToken r w])
    (hr : r.isSilent = false) (hatomic : r.isAtomic = true)
    (h : (Pattern.rule r).MatchesAround i.cut here next ts) :
    (Pattern.rule r).Carries i here next ts := by
  refine h.carries_token hr hatomic fun cs rest hspans hlands t htoken ht => ?_
  obtain ⟨hP, hspans', hnext, -⟩ := hword.of_scan h.scan
  obtain rfl : cs = firstWord here.rest := by
    rw [← hspans.takeBytes, ← hspans'.takeBytes]
  exact hword.reads hP (hlands.noWord hnext)

theorem Pattern.MatchesAround.carries_string
    (h : (Pattern.rule .string).MatchesAround i.cut here next ts) :
    (Pattern.rule .string).Carries i here next ts := by
  refine h.carries_token rfl rfl fun cs rest hspans hlands t htoken ht => ?_
  obtain ⟨us, hbody, -⟩ := Rule.exists_of_scan h.scan
  obtain ⟨inner, hinner, hspans'⟩ := exists_quoted_of_scan hbody
  obtain rfl : cs = '"' :: (inner ++ ['"']) := by
    rw [← hspans.takeBytes, ← hspans'.takeBytes]
  exact Rule.reads_string hinner rest

/-! ### Numbers -/

/-- The rule reads the texts of a kind that goes on with any further digits. -/
structure Rule.IsNumber (r : Rule) (T : List Char → Prop) : Prop where
  silent : r.isSilent = false
  atomic : r.isAtomic = true
  reads : ∀ {cs rest}, T cs → NoDigit rest →
  (Pattern.rule r).Reads false cs rest [Tree.IsToken r cs]
  append : ∀ {cs more}, T cs → more.all Char.isDigit = true → T (cs ++ more)
  lexeme : ∀ {t : Tree} {cs}, t.IsToken r cs → t.IsMatch → T cs
  ne_nil : ∀ {cs}, T cs → cs ≠ []
  plain : ∀ {cs}, T cs → isPlain cs = true

theorem isNumeral_append {digits more : List Char} (h : isNumeral digits = true)
    (hmore : more.all Char.isDigit = true) : isNumeral (digits ++ more) = true := by
  simp only [isNumeral, Bool.and_eq_true, Bool.not_eq_true', List.isEmpty_eq_false_iff,
    List.all_append] at h ⊢
  exact ⟨by simp [h.1], h.2, hmore⟩

theorem IsIntText.append {cs more : List Char} (h : IsIntText cs)
    (hmore : more.all Char.isDigit = true) :
    IsIntText (cs ++ more) := by
  obtain ⟨sign, hsign, digits, hdigits, rfl⟩ := h
  exact ⟨sign, hsign, digits ++ more, isNumeral_append hdigits hmore, List.append_assoc _ _ _⟩

theorem IsFloatText.append {cs more : List Char} (h : IsFloatText cs)
    (hmore : more.all Char.isDigit = true) :
    IsFloatText (cs ++ more) := by
  obtain ⟨sign, hsign, whole, hwhole, places, hplaces, rfl⟩ := h
  exact ⟨sign, hsign, whole, hwhole, places ++ more, isNumeral_append hplaces hmore, by simp⟩

theorem Tree.IsToken.isIntText {t : Tree} {cs : List Char} (h : t.IsToken .int cs)
    (ht : t.IsMatch) :
    IsIntText cs := by
  obtain ⟨span, rfl⟩ := h
  exact ht.lexeme_int rfl

theorem Tree.IsToken.isFloatText {t : Tree} {cs : List Char} (h : t.IsToken .float cs)
    (ht : t.IsMatch) :
    IsFloatText cs := by
  obtain ⟨span, rfl⟩ := h
  exact ht.lexeme_float rfl

theorem isSkipped_of_isDigit {c : Char} (h : c.isDigit = true) : isSkipped c = false := by
  refine isSkipped_of_isWordChar ?_
  simp only [isWordChar, Char.isAlphanum, h, Bool.or_true, Bool.true_or]

theorem isPlain_sign {sign : List Char} (h : sign ∈ [[], ['+'], ['-']]) : isPlain sign = true := by
  have hall : ∀ sign ∈ [[], ['+'], ['-']], isPlain sign = true := by decide
  exact hall sign h

theorem isPlain_digits {digits : List Char} (h : digits.all Char.isDigit = true) :
    isPlain digits = true :=
  isPlain_iff.mpr fun c hc => isSkipped_of_isDigit (List.all_eq_true.mp h c hc)

theorem isPlain_numeral {digits : List Char} (h : isNumeral digits = true) :
    isPlain digits = true := by
  simp only [isNumeral, Bool.and_eq_true] at h
  exact isPlain_digits h.2

theorem Rule.isNumber_int : Rule.int.IsNumber IsIntText where
  silent := rfl
  atomic := rfl
  reads := reads_int
  append := IsIntText.append
  lexeme := Tree.IsToken.isIntText
  ne_nil h := by
    obtain ⟨sign, -, digits, hdigits, rfl⟩ := h
    simp only [isNumeral, Bool.and_eq_true, Bool.not_eq_true', List.isEmpty_eq_false_iff] at hdigits
    simp [hdigits.1]
  plain h := by
    obtain ⟨sign, hsign, digits, hdigits, rfl⟩ := h
    exact isPlain_append (isPlain_sign hsign) (isPlain_numeral hdigits)

theorem Rule.isNumber_float : Rule.float.IsNumber IsFloatText where
  silent := rfl
  atomic := rfl
  reads := reads_float
  append := IsFloatText.append
  lexeme := Tree.IsToken.isFloatText
  ne_nil h := by
    obtain ⟨sign, -, whole, -, places, -, rfl⟩ := h
    simp
  plain h := by
    obtain ⟨sign, hsign, whole, hwhole, places, hplaces, rfl⟩ := h
    have hpoint : isPlain (['.'] ++ places) = true := isPlain_append rfl (isPlain_numeral hplaces)
    exact isPlain_append (isPlain_sign hsign) (isPlain_append (isPlain_digits hwhole) hpoint)

namespace Rule.IsNumber

variable {T : List Char → Prop} {cs : List Char} (hr : r.IsNumber T)
include hr

/-- A number is read together with the digits that follow. -/
theorem exists_reads (hcs : T cs) (rest : List Char) :
    ∃ more tail, rest = more ++ tail ∧ NoDigit tail ∧
      (Pattern.rule r).Reads false (cs ++ more) tail [Tree.IsToken r (cs ++ more)] := by
  have htail : NoDigit (rest.dropWhile Char.isDigit) := by
    intro c hc
    have hhead := List.head?_dropWhile_not Char.isDigit rest
    rw [hc] at hhead
    simpa using hhead
  exact ⟨_, _, List.takeWhile_append_dropWhile.symm, htail,
    hr.reads (hr.append hcs List.all_takeWhile) htail⟩

theorem exists_text (h : (Pattern.rule r).scan false here = some (next, ts)) : ∃ cs, T cs ∧
    here.Spans cs next := by
  obtain ⟨cs, t, hspans, -, htoken, ht⟩ := exists_token hr.silent hr.atomic h
  exact ⟨cs, hr.lexeme htoken ht, hspans⟩

/-- A number is read where the text of one stands next. -/
theorem scan_ne_none (hcs : T cs) (hnext : cs <+: here.rest) :
    (Pattern.rule r).scan false here ≠ none := by
  obtain ⟨rest, hrest⟩ := hnext
  obtain ⟨more, tail, rfl, -, hreads⟩ := hr.exists_reads hcs rest
  exact hreads.scan_ne_none (by rw [List.append_assoc, hrest])

/-- Behind a number no digit follows. -/
theorem noDigit_of_scan (h : (Pattern.rule r).scan false here = some (next, ts)) :
    NoDigit next.rest := by
  obtain ⟨cs, hcs, hspans⟩ := hr.exists_text h
  obtain ⟨more, tail, hrest, htail, hreads⟩ := hr.exists_reads hcs next.rest
  obtain ⟨-, hnext, -⟩ := hreads.of_scan (by rw [List.append_assoc, ← hrest, hspans.rest]) h
  rwa [hnext]

theorem carries (h : (Pattern.rule r).MatchesAround i.cut here next ts) :
    (Pattern.rule r).Carries i here next ts :=
  h.carries_token hr.silent hr.atomic fun _ _ _ hlands _ htoken ht =>
    hr.reads (hr.lexeme htoken ht) (hlands.noDigit (hr.noDigit_of_scan h.scan))

/-- Where no number stands, layout does not make one. -/
theorem refuses (h : (Pattern.rule r).scan false here = none) :
    (Pattern.rule r).Refuses i here := by
  intro rest hmoves pos
  cases hscan : (Pattern.rule r).scan false ⟨rest, pos⟩ with
  | none => rfl
  | some found =>
    obtain ⟨cs, hcs, hspans⟩ := hr.exists_text hscan
    have hprefix : cs <+: rest := ⟨found.1.rest, hspans.rest.symm⟩
    exact absurd h (hr.scan_ne_none hcs (hmoves.prefix_of_prefix (hr.plain hcs) hprefix))

end Rule.IsNumber

end Tokens

end ScopeScript
