import ScopeScript.Number.Reading
import ScopeScript.Proofs.Derivation

/-!
# The text of a match

A derivation leads from one cursor to another, and the text between them is what was matched
(`Derives.spans`). For the rules in which nothing is skipped this is also the text that the tree
keeps, and the grammar says what it looks like:

* `Tree.IsMatch.lexeme_int`: the text of an integer is an optional sign and digits (`IsIntText`), so
  only its size can keep it from being read (`readInt?_eq_none_iff`).
* `Tree.IsMatch.lexeme_float`: the text of a number with a point (`IsFloatText`) can always be read
  (`IsFloatText.readFloat?`).
* `Tree.IsMatch.lexeme_boolean`: there are two texts for truth values.
-/

namespace ScopeScript

/-! ### The text between two cursors -/

/-- The characters stand between the two cursors. -/
structure Cursor.Spans (here : Cursor) (cs : List Char) (next : Cursor) : Prop where
  rest : here.rest = cs ++ next.rest
  pos : next.pos = here.pos + byteLength cs

namespace Cursor

variable {here mid next : Cursor} {cs ds : List Char}

theorem Spans.refl (here : Cursor) : here.Spans [] here := ⟨rfl, rfl⟩

theorem Spans.trans (hcs : here.Spans cs mid) (hds : mid.Spans ds next) :
    here.Spans (cs ++ ds) next where
  rest := by rw [hcs.rest, hds.rest, List.append_assoc]
  pos := by rw [hds.pos, hcs.pos, byteLength_append, Nat.add_assoc]

theorem spans_advance (c : Char) (rest : List Char) (pos : Nat) :
    (⟨c :: rest, pos⟩ : Cursor).Spans [c] (advance c rest pos) := ⟨rfl, rfl⟩

theorem Spans.pos_le (h : here.Spans cs next) : here.pos ≤ next.pos := h.pos ▸ Nat.le_add_right _ _

theorem Spans.takeBytes (h : here.Spans cs next) :
    takeBytes (next.pos - here.pos) here.rest = cs := by
  rw [h.pos, Nat.add_sub_cancel_left, h.rest, takeBytes_append]

/-- The text at a cursor is what is left of the source there. -/
theorem Spans.slice {source : List Char} (h : (atStart source).Spans cs here) (stop : Nat) :
    (⟨here.pos, stop⟩ : Span).slice source = ScopeScript.takeBytes (stop - here.pos) here.rest := by
  obtain ⟨hrest, hpos⟩ := h
  change source = cs ++ here.rest at hrest
  rw [Span.slice, hpos, atStart, Nat.zero_add, hrest, dropBytes_append]

theorem afterText?_eq_some_iff : here.afterText? cs = some next ↔ here.Spans cs next := by
  induction cs generalizing here with
  | nil =>
    constructor
    · rintro ⟨⟩
      exact .refl _
    · rintro ⟨hrest, hpos⟩
      simp only [afterText?, Option.some.injEq]
      cases here
      cases next
      simp_all
  | cons c cs ih =>
    obtain ⟨rest, pos⟩ := here
    cases rest with
    | nil =>
      constructor
      · rintro ⟨⟩
      · rintro ⟨hrest, -⟩
        cases hrest
    | cons d rest =>
      simp only [afterText?]
      split
      · rename_i hcd
        subst hcd
        rw [ih]
        constructor
        · exact fun h => (spans_advance c rest pos).trans h
        · rintro ⟨hrest, hpos⟩
          refine ⟨(List.cons.inj hrest).2, ?_⟩
          rw [hpos, byteLength_cons, advance, Nat.add_assoc]
      · rename_i hcd
        constructor
        · rintro ⟨⟩
        · exact fun h => absurd (List.cons.inj h.rest).1.symm hcd

theorem spans_of_afterOne? {cls : CharClass} (h : here.afterOne? cls = some next) :
    ∃ c, cls.holds c ∧ here.Spans [c] next := by
  unfold afterOne? at h
  split at h
  · split at h
    · rename_i d rest pos hd
      cases h
      exact ⟨d, hd, spans_advance d rest pos⟩
    · cases h
  · cases h

theorem spans_skipFrom (inComment : Bool) (rest : List Char) (pos : Nat) :
    ∃ cs, (⟨rest, pos⟩ : Cursor).Spans cs (skipFrom inComment rest pos) := by
  induction rest generalizing inComment pos with
  | nil => exact ⟨[], .refl _⟩
  | cons c rest ih =>
    have hone : ∀ inComment, ∃ cs, (⟨c :: rest, pos⟩ : Cursor).Spans cs
        (skipFrom inComment rest (pos + c.utf8Size)) := fun inComment =>
      let ⟨cs, hcs⟩ := ih inComment (pos + c.utf8Size)
      ⟨[c] ++ cs, (spans_advance c rest pos).trans hcs⟩
    unfold skipFrom
    split
    · exact hone false
    · split
      · exact hone true
      · split
        · exact hone false
        · split
          · exact hone true
          · exact ⟨[], .refl _⟩

theorem spans_skip (m : Mode) (here : Cursor) : ∃ cs, here.Spans cs (m.skip here) := by
  unfold Mode.skip
  split
  · exact ⟨[], .refl _⟩
  · exact spans_skipFrom false here.rest here.pos

end Cursor

/-! ### The text of a derivation -/

namespace Derives

variable {atomic : Bool} {p q : Pattern} {r : Rule} {here next : Cursor} {ts : List Tree}

theorem spans (h : Derives atomic p here ts next) : ∃ cs, here.Spans cs next := by
  induction h with
  | text h => exact ⟨_, Cursor.afterText?_eq_some_iff.mp h⟩
  | one h =>
    obtain ⟨c, -, hc⟩ := Cursor.spans_of_afterOne? h
    exact ⟨_, hc⟩
  | start | stop | absent | never | ahead | notAhead => exact ⟨[], .refl _⟩
  | bare _ _ ih | node _ _ ih | first _ ih | second _ ih | present _ ih | once _ ih => exact ih
  | @seq _ _ _ _ mid _ _ _ _ _ ihp ihq | @again _ _ _ mid _ _ _ _ _ ihp ihq =>
    obtain ⟨cs, hcs⟩ := ihp
    obtain ⟨blanks, hblanks⟩ := Cursor.spans_skip _ mid
    obtain ⟨ds, hds⟩ := ihq
    exact ⟨_, (hcs.trans hblanks).trans hds⟩

/-- Nothing inside of an atomic rule leaves a tree. -/
theorem of_atomic (h : Derives atomic p here ts next) (hatomic : atomic = true) : ts = [] := by
  induction h with
  | text | one | start | stop | absent | never | ahead | notAhead => rfl
  | bare _ _ ih => exact ih (by rw [hatomic]; rfl)
  | node => cases hatomic
  | first _ ih | second _ ih | present _ ih | once _ ih => exact ih hatomic
  | seq _ _ ihp ihq | again _ _ ihp ihq => rw [ihp hatomic, ihq hatomic, List.append_nil]

theorem text_of_text {cs : List Char} (h : Derives atomic (.text cs) here ts next) :
    here.Spans cs next := by
  cases h with
  | text h => exact Cursor.afterText?_eq_some_iff.mp h

/-- Inside of an atomic rule the text of a sequence is that of its parts. -/
theorem text_of_seq (h : Derives true (.seq p q) here ts next) :
    ∃ mid ps qs, Derives true p here ps mid ∧ Derives true q mid qs next := by
  obtain ⟨ps, qs, mid, hp, hq, -⟩ := h.of_seq
  exact ⟨mid, ps, qs, hp, hq⟩

theorem text_of_digit (h : Derives atomic (.one .digit) here ts next) :
    ∃ c, c.isDigit ∧ here.Spans [c] next := by
  cases h with
  | one h => exact Cursor.spans_of_afterOne? h

theorem text_of_digits (h : Derives atomic (.star (.one .digit)) here ts next)
    (hatomic : atomic = true) :
    ∃ cs, cs.all Char.isDigit ∧ here.Spans cs next := by
  generalize hp : Pattern.star (.one .digit) = p at h
  induction h with
  | never => exact ⟨[], rfl, .refl _⟩
  | once h _ =>
    cases hp
    obtain ⟨c, hc, hspans⟩ := h.text_of_digit
    exact ⟨[c], by simpa using hc, hspans⟩
  | again _ hus ih _ =>
    cases hp
    subst hatomic
    obtain ⟨cs, hcs, hspans⟩ := ih rfl rfl
    obtain ⟨c, hc, hone⟩ := hus.text_of_digit
    exact ⟨cs ++ [c], by simpa using ⟨by simpa using hcs, hc⟩, hspans.trans hone⟩
  | _ => cases hp

theorem text_of_numeral (h : Derives true (.plus (.one .digit)) here ts next) :
    ∃ cs, isNumeral cs ∧ here.Spans cs next := by
  obtain ⟨mid, ps, qs, hfirst, hrest⟩ := text_of_seq h
  obtain ⟨c, hc, hone⟩ := hfirst.text_of_digit
  obtain ⟨cs, hcs, hmore⟩ := hrest.text_of_digits rfl
  exact ⟨[c] ++ cs, by simpa [isNumeral] using ⟨hc, by simpa using hcs⟩, hone.trans hmore⟩

/-- The sign in front of a number, if it has one. -/
theorem text_of_sign (h : Derives true (.opt .sign) here ts next) :
    ∃ sign, sign ∈ [[], ['+'], ['-']] ∧ here.Spans sign next := by
  cases h with
  | absent => exact ⟨[], by simp, .refl _⟩
  | present h =>
    rcases h.of_alt with h | h
    · exact ⟨['+'], by simp, h.text_of_text⟩
    · exact ⟨['-'], by simp, h.text_of_text⟩

end Derives

/-- The text of a match in which nothing is skipped. -/
theorem Tree.IsMatch.lexeme_eq {t : Tree} (h : t.IsMatch) (hatomic : t.rule.isAtomic = true) :
    ∃ here next ts, Derives true t.rule.body here ts next ∧
      ∀ cs, here.Spans cs next → t.lexeme = cs := by
  obtain ⟨here, next, hderives, -, hlexeme⟩ := h
  rw [hatomic] at hderives
  refine ⟨here, next, _, hderives, fun cs hspans => ?_⟩
  rw [hlexeme, Rule.lexeme, if_pos hatomic, hspans.takeBytes]

/-! ### Integers -/

/-- A text of the rule for integers: an optional sign and digits. -/
def IsIntText (cs : List Char) : Prop :=
  ∃ sign ∈ [[], ['+'], ['-']], ∃ digits, isNumeral digits ∧ cs = sign ++ digits

/-- A sign splits off from digits. -/
theorem splitSign_append {sign body : List Char} (hsign : sign ∈ [[], ['+'], ['-']])
    (hbody : ∀ c ∈ body.head?, c ≠ '+' ∧ c ≠ '-') :
    splitSign (sign ++ body) = (sign == ['-'], body) := by
  simp only [List.mem_cons, List.not_mem_nil, or_false] at hsign
  rcases hsign with rfl | rfl | rfl
  · rw [List.nil_append]
    unfold splitSign
    split
    · exact absurd rfl (hbody _ rfl).1
    · exact absurd rfl (hbody _ rfl).2
    · rfl
  · rfl
  · rfl

theorem isNumeral_head {digits : List Char} (h : isNumeral digits) :
    ∀ c ∈ digits.head?, c ≠ '+' ∧ c ≠ '-' := by
  intro c hc
  simp only [isNumeral, Bool.and_eq_true, List.all_eq_true] at h
  have hdigit : c.isDigit := h.2 c (List.mem_of_mem_head? hc)
  constructor <;> rintro rfl <;> cases hdigit

theorem Tree.IsMatch.lexeme_int {t : Tree} (h : t.IsMatch) (hrule : t.rule = .int) :
    IsIntText t.lexeme := by
  obtain ⟨here, next, ts, hderives, hlexeme⟩ := h.lexeme_eq (by rw [hrule]; rfl)
  rw [hrule] at hderives
  obtain ⟨mid, ps, qs, hsign, hdigits⟩ := Derives.text_of_seq hderives
  obtain ⟨sign, hsign, hspans⟩ := hsign.text_of_sign
  obtain ⟨digits, hdigits, hmore⟩ := hdigits.text_of_numeral
  exact ⟨sign, hsign, digits, hdigits, hlexeme _ (hspans.trans hmore)⟩

/-- An integer cannot be read exactly if it does not fit a word. -/
theorem IsIntText.readInt?_eq_none_iff {cs : List Char} (h : IsIntText cs) :
    readInt? cs = none ↔ fitsWord (signedValue cs) = false := by
  obtain ⟨sign, hsign, digits, hdigits, rfl⟩ := h
  have hsplit := splitSign_append hsign (isNumeral_head hdigits)
  simp [readInt?, hsplit, hdigits]

/-! ### Numbers with a point -/

/-- A text of the rule for numbers with a point: an optional sign, digits, a point and digits behind
it. -/
def IsFloatText (cs : List Char) : Prop :=
  ∃ sign ∈ [[], ['+'], ['-']], ∃ whole, whole.all Char.isDigit ∧
    ∃ places, isNumeral places ∧ cs = sign ++ (whole ++ '.' :: places)

theorem Tree.IsMatch.lexeme_float {t : Tree} (h : t.IsMatch) (hrule : t.rule = .float) :
    IsFloatText t.lexeme := by
  obtain ⟨here, next, ts, hderives, hlexeme⟩ := h.lexeme_eq (by rw [hrule]; rfl)
  rw [hrule] at hderives
  obtain ⟨_, _, _, hsign, hrest₁⟩ := Derives.text_of_seq hderives
  obtain ⟨_, _, _, hwhole, hrest₂⟩ := Derives.text_of_seq hrest₁
  obtain ⟨_, _, _, hpoint, hplaces⟩ := Derives.text_of_seq hrest₂
  obtain ⟨sign, hsign, hspans₁⟩ := hsign.text_of_sign
  obtain ⟨whole, hwhole, hspans₂⟩ := hwhole.text_of_digits rfl
  obtain ⟨places, hplaces, hspans₃⟩ := hplaces.text_of_numeral
  refine ⟨sign, hsign, whole, hwhole, places, hplaces, hlexeme _ ?_⟩
  exact hspans₁.trans (hspans₂.trans (hpoint.text_of_text.trans hspans₃))

theorem takeWhile_isDigit_append {whole : List Char} (tail : List Char)
    (hwhole : whole.all Char.isDigit) (htail : ∀ c ∈ tail.head?, c.isDigit = false) :
    (whole ++ tail).takeWhile Char.isDigit = whole ∧
    (whole ++ tail).dropWhile Char.isDigit = tail := by
  have hall : ∀ c ∈ whole, c.isDigit = true := List.all_eq_true.mp hwhole
  rw [List.takeWhile_append_of_pos hall, List.dropWhile_append_of_pos hall]
  cases tail with
  | nil => simp
  | cons c tail =>
    have hc := htail c rfl
    simp [hc]

/-- **Every text with a point can be read.** -/
theorem IsFloatText.readFloat? {cs : List Char} (h : IsFloatText cs) :
    ∃ x, readFloat? cs = some x := by
  obtain ⟨sign, hsign, whole, hwhole, places, hplaces, rfl⟩ := h
  have hhead : ∀ c ∈ (whole ++ '.' :: places).head?, c ≠ '+' ∧ c ≠ '-' := by
    intro c hc
    cases whole with
    | nil =>
      cases hc
      decide
    | cons d whole =>
      cases hc
      exact isNumeral_head (by simpa [isNumeral] using hwhole : isNumeral (c :: whole)) c rfl
  have hsplit := splitSign_append hsign hhead
  obtain ⟨htake, hdrop⟩ := takeWhile_isDigit_append ('.' :: places) hwhole
    (by rintro c ⟨⟩; rfl)
  have hplaces' := hplaces
  simp only [isNumeral, Bool.and_eq_true, Bool.not_eq_true'] at hplaces'
  obtain ⟨hall, hnone⟩ := takeWhile_isDigit_append [] hplaces'.2 (by simp)
  rw [List.append_nil] at hall hnone
  have hdecimal : ∃ d, readDecimal? (whole ++ '.' :: places) = some d := by
    unfold readDecimal?
    rw [htake, hdrop]
    simp only [hall, hnone, hplaces'.1, Bool.and_false]
    exact ⟨_, rfl⟩
  obtain ⟨d, hdecimal⟩ := hdecimal
  have hmagnitude : ∃ x, readMagnitude? (whole ++ '.' :: places) = some x := by
    unfold readMagnitude?
    rw [hdecimal]
    simp only
    split
    · exact ⟨_, rfl⟩
    · split
      · exact ⟨_, rfl⟩
      · exact ⟨_, rfl⟩
  obtain ⟨x, hmagnitude⟩ := hmagnitude
  simp only [ScopeScript.readFloat?, hsplit, hmagnitude]
  exact ⟨_, rfl⟩

/-! ### Truth values -/

theorem Tree.IsMatch.lexeme_boolean {t : Tree} (h : t.IsMatch) (hrule : t.rule = .boolean) :
    t.lexeme = ['T', 'R', 'U', 'E'] ∨ t.lexeme = ['F', 'A', 'L', 'S', 'E'] := by
  obtain ⟨here, next, ts, hderives, hlexeme⟩ := h.lexeme_eq (by rw [hrule]; rfl)
  rw [hrule] at hderives
  obtain ⟨mid, ps, qs, hword, hend⟩ := Derives.text_of_seq hderives
  cases hend
  rcases hword.of_alt with hword | hword
  · exact .inl (hlexeme _ hword.text_of_text)
  · exact .inr (hlexeme _ hword.text_of_text)

end ScopeScript
