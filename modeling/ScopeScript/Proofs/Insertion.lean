import ScopeScript.Proofs.Geometry
import ScopeScript.Proofs.Pieces
import ScopeScript.Proofs.Ranges

/-!
# Inserting layout

An `Insertion` puts blanks and comments into a text, at an offset behind which `after` stands. This
module says which places of the old and of the new text correspond to each other.

* `i.Moves here rest`: at the cursor `here` of the old text, with a piece next, the new text goes on
  with `rest`. `i.Lands next rest`: a match of the new text ends in front of `rest` where one of the
  old text ends at `next`. The two differ at the offset itself, where the new text has the layout
  still ahead of it.
* `Moves.through`: a piece that does not have the offset inside leads from a place of the first kind
  to one of the second kind.
* `Lands.skip`: what is skipped behind a match leads to a place of the first kind again. A comment
  may end at the offset, and then the layout belongs to it.
-/

namespace ScopeScript

/-! ### Layout -/

/-- Blanks, line breaks and comments; `inComment` says that a comment has begun. Each comment is
closed by a line break. -/
def isLayoutFrom (inComment : Bool) : List Char → Bool
  | [] => !inComment
  | c :: cs =>
    if c = '\n' ∨ c = '\r' then isLayoutFrom false cs
    else if inComment then isLayoutFrom true cs
    else if c = ' ' ∨ c = '\t' then isLayoutFrom false cs
    else if c = '#' then isLayoutFrom true cs
    else false

/-- A text made of blanks, tabs, line breaks, and comments that are each closed by a line break. -/
def isLayout (cs : List Char) : Bool := isLayoutFrom false cs

theorem isSkipped_of_isLayout {cs : List Char} (h : isLayout cs = true) :
    ∀ c ∈ cs.head?, isSkipped c = true := by
  intro c hc
  cases cs with
  | nil => cases hc
  | cons d cs =>
    cases hc
    simp only [isLayout, isLayoutFrom] at h
    split at h
    · rename_i hbreak
      rcases hbreak with rfl | rfl <;> rfl
    · split at h
      · contradiction
      · split at h
        · rename_i hblank
          rcases hblank with rfl | rfl <;> rfl
        · split at h
          · rename_i hsign
            rw [hsign]
            rfl
          · cases h

/-- A text in which no blank and no comment begins. -/
def isPlain (cs : List Char) : Bool := cs.all (!isSkipped ·)

theorem isPlain_iff {cs : List Char} : isPlain cs = true ↔ ∀ c ∈ cs, isSkipped c = false := by
  simp only [isPlain, List.all_eq_true, Bool.not_eq_true']

theorem isPlain_append {cs ds : List Char} (hcs : isPlain cs = true) (hds : isPlain ds = true) :
    isPlain (cs ++ ds) = true := by
  rw [isPlain, List.all_append, ← isPlain, ← isPlain, hcs, hds]
  rfl

/-- Layout at an offset of a text. -/
structure Insertion where
  /-- The offset. -/
  cut : Nat
  /-- What follows the offset. -/
  after : List Char
  /-- What is inserted there. -/
  layout : List Char
  isLayout : isLayout layout = true

/-- The new text goes on with this text at a cursor of the old text, if nothing is to be skipped
there. -/
inductive Insertion.Moves (i : Insertion) : Cursor → List Char → Prop where
  | ahead {before : List Char} {pos : Nat} : before ≠ [] → pos + byteLength before = i.cut →
      Moves i ⟨before ++ i.after, pos⟩ (before ++ (i.layout ++ i.after))
  | behind {here : Cursor} : i.cut ≤ here.pos → Moves i here here.rest

/-- The new text goes on with this text behind a match, where the old text goes on at the cursor. -/
inductive Insertion.Lands (i : Insertion) : Cursor → List Char → Prop where
  | ahead {before : List Char} {pos : Nat} : pos + byteLength before = i.cut →
      Lands i ⟨before ++ i.after, pos⟩ (before ++ (i.layout ++ i.after))
  | behind {here : Cursor} : i.cut ≤ here.pos → Lands i here here.rest

namespace Insertion

variable {i : Insertion} {here next : Cursor} {rest : List Char}

theorem Moves.lands (h : i.Moves here rest) : i.Lands here rest := by
  cases h with
  | ahead _ hpos => exact .ahead hpos
  | behind hcut => exact .behind hcut

theorem Moves.head?_eq (h : i.Moves here rest) : rest.head? = here.rest.head? := by
  cases h with
  | @ahead before pos hne hpos =>
    cases before with
    | nil => exact absurd rfl hne
    | cons c before => rfl
  | behind => rfl

/-- What stands next in the new text, and has no blank in it, stands next in the old one. -/
theorem Moves.prefix_of_prefix {cs : List Char} (h : i.Moves here rest) (hcs : isPlain cs = true)
    (hnext : cs <+: rest) : cs <+: here.rest := by
  cases h with
  | behind => exact hnext
  | @ahead before pos hne hpos =>
    rcases List.prefix_or_prefix_of_prefix hnext (List.prefix_append _ _) with hshort | ⟨more, rfl⟩
    · exact hshort.trans (List.prefix_append _ _)
    · rw [List.prefix_append_right_inj] at hnext ⊢
      cases hlayout : i.layout with
      | nil => rwa [hlayout] at hnext
      | cons c layout =>
        rw [hlayout, List.cons_append] at hnext
        cases more with
        | nil => exact List.nil_prefix
        | cons d more =>
          have hskipped := isSkipped_of_isLayout i.isLayout c (by rw [hlayout]; rfl)
          obtain ⟨rfl, -⟩ := List.cons_prefix_cons.mp hnext
          rw [isPlain_iff.mp hcs d (by simp)] at hskipped
          cases hskipped

/-- A match of the new text ends in front of the same character, or of something that is skipped. -/
theorem Lands.head? (h : i.Lands next rest) : ∀ c ∈ rest.head?, c ∈ next.rest.head? ∨
    isSkipped c = true := by
  intro c hc
  cases h with
  | behind => exact .inl hc
  | @ahead before pos hpos =>
    cases before with
    | cons d before => exact .inl hc
    | nil =>
      rw [List.nil_append] at hc
      cases hlayout : i.layout with
      | nil =>
        rw [hlayout] at hc
        exact .inl hc
      | cons d layout =>
        rw [hlayout] at hc
        cases hc
        exact .inr (isSkipped_of_isLayout i.isLayout c (by rw [hlayout]; rfl))

/-- A piece around the offset stands in the new text as it did. -/
theorem Moves.through {cs : List Char} (h : i.Moves here rest) (hspans : here.Spans cs next)
    (hpiece : ¬(⟨here.pos, next.pos⟩ : Span).HasInside i.cut) :
    ∃ rest', rest = cs ++ rest' ∧ i.Lands next rest' := by
  obtain ⟨hrest, hpos⟩ := hspans
  cases h with
  | behind hcut => exact ⟨next.rest, hrest, .behind (by omega)⟩
  | @ahead before pos hne hcut =>
    -- the piece begins in front of the offset, so that it ends there at the latest
    have hbegin : pos < i.cut := by
      cases before with
      | nil => exact absurd rfl hne
      | cons c before =>
        have hc := c.utf8Size_pos
        rw [byteLength_cons] at hcut
        omega
    have hend : next.pos ≤ i.cut := Nat.not_lt.mp fun hlt => hpiece ⟨hbegin, hlt⟩
    change before ++ i.after = cs ++ next.rest at hrest
    change next.pos = pos + byteLength cs at hpos
    have hprefix : cs <+: before :=
      prefix_of_byteLength_le ⟨next.rest, hrest.symm⟩ (List.prefix_append _ _) (by omega)
    obtain ⟨more, rfl⟩ := hprefix
    rw [List.append_assoc] at hrest
    have hmore := List.append_cancel_left hrest
    rw [byteLength_append] at hcut
    refine ⟨more ++ (i.layout ++ i.after), List.append_assoc _ _ _, ?_⟩
    obtain ⟨nextRest, nextPos⟩ := next
    cases hmore
    exact .ahead (by simp only at hpos; omega)

/-! ### Skipping -/

/-- What is skipped does not depend on the position. -/
theorem rest_skipFrom (inComment : Bool) (text : List Char) (pos pos' : Nat) :
    (Cursor.skipFrom inComment text pos).rest = (Cursor.skipFrom inComment text pos').rest := by
  induction text generalizing inComment pos pos' with
  | nil => rfl
  | cons c text ih =>
    simp only [Cursor.skipFrom]
    split
    · exact ih _ _ _
    · split
      · exact ih _ _ _
      · split
        · exact ih _ _ _
        · split
          · exact ih _ _ _
          · rfl

theorem exists_skip (text : List Char) :
    ∃ blanks, text = blanks ++ (Cursor.skipFrom false text 0).rest ∧
      ∀ pos, Mode.skip {} ⟨text, pos⟩ =
        ⟨(Cursor.skipFrom false text 0).rest, pos + byteLength blanks⟩ := by
  obtain ⟨blanks, hblanks⟩ := Cursor.spans_skipFrom false text 0
  refine ⟨blanks, hblanks.rest, fun pos => ?_⟩
  obtain ⟨cs, hcs⟩ := Cursor.spans_skipFrom false text pos
  have hrest := rest_skipFrom false text pos 0
  have hsame : cs = blanks := by
    have happend : cs ++ (Cursor.skipFrom false text 0).rest = blanks ++
        (Cursor.skipFrom false text 0).rest := by
      rw [← hblanks.rest, ← hrest]
      exact hcs.rest.symm
    exact List.append_cancel_right happend
  have hskip : Cursor.skipFrom false text pos = ⟨(Cursor.skipFrom false text pos).rest,
      (Cursor.skipFrom false text pos).pos⟩ := rfl
  rw [hcs.pos, hsame, hrest] at hskip
  exact hskip

/-- Layout is skipped as a whole. -/
theorem skipFrom_layout {inComment : Bool} {layout : List Char}
    (h : isLayoutFrom inComment layout = true) (text : List Char) (pos : Nat) :
    (Cursor.skipFrom inComment (layout ++ text) pos).rest =
      (Cursor.skipFrom false text 0).rest := by
  induction layout generalizing inComment pos with
  | nil =>
    cases inComment with
    | true => cases h
    | false => exact rest_skipFrom false text pos 0
  | cons c layout ih =>
    simp only [isLayoutFrom] at h
    simp only [List.cons_append, Cursor.skipFrom]
    split at h
    · rename_i hbreak
      rw [if_pos hbreak]
      exact ih h _
    · rename_i hbreak
      rw [if_neg hbreak]
      split at h
      · rename_i hin
        rw [if_pos hin]
        exact ih h _
      · rename_i hin
        rw [if_neg hin]
        split at h
        · rename_i hblank
          rw [if_pos hblank]
          exact ih h _
        · rename_i hblank
          rw [if_neg hblank]
          split at h
          · rename_i hsign
            rw [if_pos hsign]
            exact ih h _
          · cases h

/-- A comment cannot go on in front of the text. -/
def ClosesComment (text : List Char) : Prop := ∀ c ∈ text.head?, c = '\n' ∨ c = '\r'

theorem ClosesComment.skipFrom {text : List Char} (h : ClosesComment text) (pos pos' : Nat) :
    (Cursor.skipFrom true text pos).rest = (Cursor.skipFrom false text pos').rest := by
  cases text with
  | nil => rfl
  | cons c text =>
    have hc := h c rfl
    simp only [Cursor.skipFrom, if_pos hc]
    exact rest_skipFrom _ _ _ _

/-- Layout that is put to the end of a comment is skipped with it. -/
theorem ClosesComment.skipFrom_layout {text : List Char} (h : ClosesComment text) {inComment : Bool}
    {layout : List Char} (hlayout : isLayoutFrom inComment layout = true) (pos : Nat) :
    (Cursor.skipFrom true (layout ++ text) pos).rest = (Cursor.skipFrom false text 0).rest := by
  induction layout generalizing inComment pos with
  | nil => exact h.skipFrom pos 0
  | cons c layout ih =>
    simp only [isLayoutFrom] at hlayout
    simp only [List.cons_append, Cursor.skipFrom, if_true]
    split at hlayout
    · rename_i hbreak
      rw [if_pos hbreak]
      exact Insertion.skipFrom_layout hlayout text _
    · rename_i hbreak
      rw [if_neg hbreak]
      split at hlayout
      · exact ih hlayout _
      · split at hlayout
        · exact ih hlayout _
        · split at hlayout
          · exact ih hlayout _
          · cases hlayout

/-- The comment that has begun is one of those that are skipped. -/
theorem exists_comment (start : Nat) (text : List Char) (pos : Nat) :
    ∃ stop, pos ≤ stop ∧ ⟨start, stop⟩ ∈ Cursor.commentsFrom (some start) text pos := by
  induction text generalizing pos with
  | nil => exact ⟨pos, Nat.le_refl _, List.mem_singleton_self _⟩
  | cons c text ih =>
    simp only [Cursor.commentsFrom]
    split
    · exact ⟨pos, Nat.le_refl _, List.mem_append_left _ (List.mem_singleton_self _)⟩
    · obtain ⟨stop, hle, hmem⟩ := ih (pos + c.utf8Size)
      exact ⟨stop, by omega, hmem⟩

/-- A comment that has begun in front of a position ends there, if it does not have it inside. -/
theorem closesComment_of_not_inside {start pos : Nat} {text : List Char} (hstart : start < pos)
    (hcomments : ∀ s ∈ Cursor.commentsFrom (some start) text pos, ¬s.HasInside pos) :
    ClosesComment text := by
  intro c hc
  by_contra hbreak
  obtain ⟨rest, rfl⟩ : ∃ rest, text = c :: rest := List.head?_eq_some_iff.mp hc
  simp only [Cursor.commentsFrom, if_neg hbreak, Option.isSome_some, if_true] at hcomments
  obtain ⟨stop, hle, hmem⟩ := exists_comment start rest (pos + c.utf8Size)
  have hsize := c.utf8Size_pos
  exact hcomments _ hmem ⟨hstart, by change pos < stop; omega⟩

/-- Skipping from in front of the offset; `opened` is where a comment has begun. -/
theorem moves_skipFrom {opened : Option Nat} {before : List Char} {pos : Nat}
    (hpos : pos + byteLength before = i.cut) (hopened : ∀ start ∈ opened, start < i.cut)
    (hcomments : ∀ s ∈ Cursor.commentsFrom opened (before ++ i.after) pos, ¬s.HasInside i.cut)
    (pos' : Nat) :
    i.Moves (Cursor.skipFrom opened.isSome (before ++ i.after) pos)
      (Cursor.skipFrom opened.isSome (before ++ (i.layout ++ i.after)) pos').rest := by
  induction before generalizing opened pos pos' with
  | nil =>
    rw [List.nil_append] at hcomments ⊢
    rw [List.nil_append]
    have hmoves : i.Moves (Cursor.skipFrom opened.isSome i.after pos)
        (Cursor.skipFrom opened.isSome i.after pos).rest := by
      obtain ⟨cs, hcs⟩ := Cursor.spans_skipFrom opened.isSome i.after pos
      exact .behind (Nat.le_trans (Nat.le_of_eq hpos.symm) hcs.pos_le)
    suffices hsame : (Cursor.skipFrom opened.isSome (i.layout ++ i.after) pos').rest =
        (Cursor.skipFrom opened.isSome i.after pos).rest by
      rw [hsame]
      exact hmoves
    cases opened with
    | none =>
      exact (skipFrom_layout i.isLayout i.after pos').trans
        (rest_skipFrom false i.after 0 pos)
    | some start =>
      have hcloses : ClosesComment i.after := by
        rw [byteLength_nil, Nat.add_zero] at hpos
        rw [← hpos] at hopened hcomments
        exact closesComment_of_not_inside (hopened start rfl) hcomments
      exact (hcloses.skipFrom_layout i.isLayout pos').trans (hcloses.skipFrom pos 0).symm
  | cons c before ih =>
    rw [byteLength_cons, ← Nat.add_assoc] at hpos
    have hnone : ∀ start ∈ (none : Option Nat), start < i.cut := nofun
    have hsize := c.utf8Size_pos
    simp only [List.cons_append, Cursor.commentsFrom] at hcomments
    simp only [List.cons_append, Cursor.skipFrom]
    split at hcomments
    · rename_i hbreak
      rw [if_pos hbreak, if_pos hbreak]
      exact ih hpos hnone (fun s hs => hcomments s (List.mem_append_right _ hs)) _
    · rename_i hbreak
      rw [if_neg hbreak, if_neg hbreak]
      cases opened with
      | some start => exact ih hpos hopened hcomments _
      | none =>
        simp only [Option.isSome_none, Bool.false_eq_true, if_false] at hcomments ⊢
        split at hcomments
        · rename_i hblank
          rw [if_pos hblank, if_pos hblank]
          exact ih hpos hnone hcomments _
        · rename_i hblank
          rw [if_neg hblank, if_neg hblank]
          split at hcomments
          · rename_i hsign
            rw [if_pos hsign, if_pos hsign]
            have hstart : ∀ start ∈ some pos, start < i.cut := by
              rintro start ⟨⟩
              omega
            exact ih hpos hstart hcomments _
          · rename_i hsign
            rw [if_neg hsign, if_neg hsign]
            have hcut : pos + byteLength (c :: before) = i.cut := by
              rw [byteLength_cons]
              omega
            exact .ahead (List.cons_ne_nil c before) hcut

/-- **What is skipped behind a match leads to corresponding places.** -/
theorem Lands.skip (h : i.Lands next rest) (hskips : next.SkipsAround i.cut) :
    ∃ blanks rest', rest = blanks ++ rest' ∧ i.Moves (Mode.skip {} next) rest' ∧
      ∀ pos, Mode.skip {} ⟨rest, pos⟩ = ⟨rest', pos + byteLength blanks⟩ := by
  obtain ⟨blanks, hrest, hskip⟩ := exists_skip rest
  refine ⟨blanks, _, hrest, ?_, hskip⟩
  cases h with
  | behind hcut =>
    obtain ⟨cs, hcs⟩ := Cursor.spans_skip {} next
    have hsame : (Cursor.skipFrom false next.rest 0).rest = (Mode.skip {} next).rest :=
      rest_skipFrom false next.rest 0 next.pos
    rw [hsame]
    exact .behind (Nat.le_trans hcut hcs.pos_le)
  | ahead hcut => exact @moves_skipFrom i none _ _ hcut nofun hskips 0

theorem Moves.tight (h : i.Moves here rest) (hhere : here.IsTight) : Tight false rest :=
  tight_of_head fun c hc => hhere c (h.head?_eq ▸ hc)

end Insertion

end ScopeScript
