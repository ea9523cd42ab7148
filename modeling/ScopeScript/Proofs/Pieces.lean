import ScopeScript.Proofs.Finding

/-!
# The pieces of a program

A program is matched piece by piece: the texts that the grammar spells out, the matches of its
atomic rules, and the comments that are skipped between them. `Rule.pieces` gives the ranges of the
pieces of a match, in the order in which they stand; it walks the alternatives that the match has
taken, so that what was tried in vain leaves nothing. `Program.pieces` are those of a whole text.
Blanks are no pieces.

The definition goes by fuel like the match itself, and like it satisfies the equation that one
expects (`Rule.pieces_eq`).

`p.MatchesAround cut` says that a pattern matches and that the offset `cut` lies inside none of the
pieces. A match around an offset consists of matches around it, for each way to build a pattern; for
repetitions `Pattern.RoundsAround` lists the rounds.
-/

namespace ScopeScript

/-- The offset lies between two bytes of the range. -/
def Span.HasInside (span : Span) (cut : Nat) : Prop := span.start < cut ∧ cut < span.stop

instance (span : Span) (cut : Nat) : Decidable (span.HasInside cut) :=
  inferInstanceAs (Decidable (_ ∧ _))

/-! ### Comments -/

/-- The ranges of the comments that are skipped; `opened` is where one has begun. A comment ends in
front of the line break. -/
def Cursor.commentsFrom (opened : Option Nat) : List Char → Nat → List Span
  | [], pos => opened.toList.map (⟨·, pos⟩)
  | c :: rest, pos =>
    if c = '\n' ∨ c = '\r' then
      opened.toList.map (⟨·, pos⟩) ++ commentsFrom none rest (pos + c.utf8Size)
    else if opened.isSome then commentsFrom opened rest (pos + c.utf8Size)
    else if c = ' ' ∨ c = '\t' then commentsFrom none rest (pos + c.utf8Size)
    else if c = '#' then commentsFrom (some pos) rest (pos + c.utf8Size)
    else []

/-- The ranges of the comments that stand next. -/
def Cursor.comments (here : Cursor) : List Span := commentsFrom none here.rest here.pos

/-! ### Pieces -/

/-- The pieces of the rounds of a repetition that has begun. -/
def Yield.roundPieces (part : Cursor → Yield) (pieces : Cursor → List Span) :
    Nat → Cursor → List Span
  | 0, _ => []
  | n + 1, here =>
    match part (Mode.skip {} here) with
    | none => []
    | some (next, _) =>
      here.comments ++ (pieces (Mode.skip {} here) ++ roundPieces part pieces n next)

/-- The pieces of a match of a pattern; `inside` gives those of the rules in it. -/
def Pattern.piecesBy (inside : Rule → Cursor → List Span) : Pattern → Cursor → List Span
  | text cs, here => [⟨here.pos, here.pos + byteLength cs⟩]
  | one _, _ | start, _ | stop, _ | ahead _, _ | notAhead _, _ => []
  | rule r, here => inside r here
  | seq p q, here =>
    match p.scan false here with
    | none => []
    | some (mid, _) =>
      p.piecesBy inside here ++ (mid.comments ++ q.piecesBy inside (Mode.skip {} mid))
  | alt p q, here =>
    if (p.scan false here).isSome then p.piecesBy inside here else q.piecesBy inside here
  | opt p, here => if (p.scan false here).isSome then p.piecesBy inside here else []
  | star p, here =>
    match p.scan false here with
    | none => []
    | some (next, _) =>
      p.piecesBy inside here ++ Yield.roundPieces (p.scan false) (p.piecesBy inside)
        (next.rest.length + 1) next

/-- The pieces of a match of a rule, with at most `fuel` rules nested in each other. A match of an
atomic rule is one piece. -/
def Rule.piecesWithin : Nat → Rule → Cursor → List Span
  | 0, _, _ => []
  | fuel + 1, r, here =>
    if r.isAtomic then (r.scan false here).toList.map fun found => ⟨here.pos, found.1.pos⟩
    else r.body.piecesBy (Rule.piecesWithin fuel) here

/-- The ranges of the pieces of a match of a rule. -/
def Rule.pieces (r : Rule) (here : Cursor) : List Span := r.piecesWithin (fuelFor here.rest) here

/-- The ranges of the pieces of a match of a pattern. -/
def Pattern.pieces (p : Pattern) (here : Cursor) : List Span := p.piecesBy Rule.pieces here

/-- The pieces of a program: the texts that the grammar spells out, the matches of atomic rules, and
the comments. -/
def Program.pieces (source : List Char) : List Span := Rule.program.pieces (.atStart source)

/-! ### Enough fuel -/

theorem Yield.roundPieces_congr (part : Cursor → Yield)
    {pieces pieces' : Cursor → List Span} {bound : Nat}
    (hpieces : ∀ there : Cursor, there.rest.length ≤ bound → pieces there = pieces' there)
    (hshrinks : ∀ there next ts, part there = some (next, ts) →
      next.rest.length ≤ there.rest.length) (n : Nat)
    (here : Cursor) (hhere : here.rest.length ≤ bound) :
    roundPieces part pieces n here = roundPieces part pieces' n here := by
  induction n generalizing here with
  | zero => rfl
  | succ n ih =>
    have hskip := Nat.le_trans (Cursor.length_skip_le {} here) hhere
    simp only [roundPieces, hpieces _ hskip]
    cases hround : part (Mode.skip {} here) with
    | none => rfl
    | some found =>
      obtain ⟨next, ts⟩ := found
      simp only [ih next (Nat.le_trans (hshrinks _ _ _ hround) hskip)]

theorem Pattern.length_le_of_scan {p : Pattern} {atomic : Bool} {here next : Cursor}
    {ts : List Tree}
    (h : p.scan atomic here = some (next, ts)) : next.rest.length ≤ here.rest.length := by
  obtain ⟨cs, hcs⟩ := (derives_of_scan h).spans
  exact hcs.length_le

/-- The pieces are the same, if they are for all rules that have less text ahead and for those that
may be called at once. -/
theorem Pattern.piecesBy_congr {inside inside' : Rule → Cursor → List Span} (p : Pattern)
    (here : Cursor) (bound : Nat) (hhere : here.rest.length ≤ bound)
    (hshort : ∀ r (there : Cursor), there.rest.length < bound → inside r there = inside' r there)
    (hleft : ∀ r ∈ p.leftRules, ∀ there : Cursor, there.rest.length ≤ bound →
      inside r there = inside' r there) :
    p.piecesBy inside here = p.piecesBy inside' here := by
  induction p generalizing here bound with
  | text | one | start | stop | ahead | notAhead => rfl
  | rule r => exact hleft r (List.mem_singleton_self r) here hhere
  | seq p q ihp ihq =>
    simp only [piecesBy, ihp here bound hhere hshort fun r hr =>
      hleft r (List.mem_append_left _ hr)]
    cases hscan : p.scan false here with
    | none => rfl
    | some found =>
      obtain ⟨mid, ps⟩ := found
      have hmid := Nat.le_trans (length_le_of_scan hscan) hhere
      have hskip := Cursor.length_skip_le {} mid
      suffices hq : q.piecesBy inside (Mode.skip {} mid) = q.piecesBy inside' (Mode.skip {} mid) by
        simp only [hq]
      cases hnull : p.isNullable with
      | true =>
        refine ihq _ bound (Nat.le_trans hskip hmid) hshort fun r hr => hleft r ?_
        exact List.mem_append_right _ (by rw [hnull]; exact hr)
      | false =>
        -- the first part has consumed something, so that all calls have less text ahead
        have hlt := Nat.lt_of_lt_of_le ((derives_of_scan hscan).length_lt hnull) hhere
        have hless : (Mode.skip {} mid).rest.length < bound := Nat.lt_of_le_of_lt hskip hlt
        exact ihq _ _ (Nat.le_refl _)
          (fun r there hthere => hshort r there (Nat.lt_trans hthere hless))
          (fun r _ there hthere => hshort r there (Nat.lt_of_le_of_lt hthere hless))
  | alt p q ihp ihq =>
    have hp := ihp here bound hhere hshort fun r hr => hleft r (List.mem_append_left _ hr)
    have hq := ihq here bound hhere hshort fun r hr => hleft r (List.mem_append_right _ hr)
    simp only [piecesBy, hp, hq]
  | opt p ih => simp only [piecesBy, ih here bound hhere hshort hleft]
  | star p ih =>
    simp only [piecesBy, ih here bound hhere hshort hleft]
    cases hscan : p.scan false here with
    | none => rfl
    | some found =>
      obtain ⟨next, ts⟩ := found
      have hrounds := Yield.roundPieces_congr (p.scan false)
        (fun there hthere => ih there bound hthere hshort hleft)
          (fun there next ts h => length_le_of_scan h)
        (next.rest.length + 1) next (Nat.le_trans (length_le_of_scan hscan) hhere)
      simp only [hrounds]

theorem Rule.piecesWithin_eq {fuel fuel' : Nat} (r : Rule) (here : Cursor)
    (hfuel : r.need here ≤ fuel)
    (hfuel' : r.need here ≤ fuel') : r.piecesWithin fuel here = r.piecesWithin fuel' here := by
  induction fuel generalizing r here fuel' with
  | zero => cases hfuel
  | succ fuel ih =>
    cases fuel' with
    | zero => cases hfuel'
    | succ fuel' =>
      unfold need at hfuel hfuel'
      have hbody : r.body.piecesBy (Rule.piecesWithin fuel) here =
          r.body.piecesBy (Rule.piecesWithin fuel') here := by
        refine r.body.piecesBy_congr here here.rest.length (Nat.le_refl _) ?_ ?_
        · intro s there hthere
          have hneed := s.need_le_of_lt hthere
          exact ih s there (by omega) (by omega)
        · intro s hs there hthere
          have hneed := need_le_of_mem hs hthere
          exact ih s there (by omega) (by omega)
      simp only [piecesWithin, hbody]

theorem Rule.piecesWithin_eq_pieces {fuel : Nat} {r : Rule} {here : Cursor}
    (hfuel : r.need here ≤ fuel) :
    r.piecesWithin fuel here = r.pieces here :=
  r.piecesWithin_eq here hfuel (r.need_le_fuelFor here)

/-- The pieces of a match of a rule are those of its body; a match of an atomic rule is a piece. -/
theorem Rule.pieces_eq (r : Rule) (here : Cursor) :
    r.pieces here =
      if r.isAtomic then (r.scan false here).toList.map fun found => ⟨here.pos, found.1.pos⟩
      else r.body.pieces here := by
  have hrank := r.rank_le
  obtain ⟨fuel, hfuel⟩ : ∃ fuel, fuelFor here.rest = fuel + 1 :=
    ⟨here.rest.length * Rule.all.length +
      (Rule.all.length - 1), by rw [fuelFor, Nat.succ_mul]; omega⟩
  have henough : here.rest.length * Rule.all.length + r.rank ≤ fuel := by
    rw [fuelFor, Nat.succ_mul] at hfuel
    omega
  have hbody : r.body.piecesBy (Rule.piecesWithin fuel) here = r.body.pieces here := by
    refine r.body.piecesBy_congr here here.rest.length (Nat.le_refl _) ?_ ?_
    · intro s there hthere
      exact Rule.piecesWithin_eq_pieces (Nat.le_trans (s.need_le_of_lt hthere) (by omega))
    · intro s hs there hthere
      exact Rule.piecesWithin_eq_pieces (Nat.le_trans (need_le_of_mem hs hthere) henough)
  rw [pieces, hfuel, piecesWithin, hbody]

/-! ### Matches around an offset -/

/-- The offset is inside none of the comments that stand next. -/
def Cursor.SkipsAround (cut : Nat) (here : Cursor) : Prop := ∀ s ∈ here.comments, ¬s.HasInside cut

/-- The pattern matches, and the offset is inside none of the pieces. -/
structure Pattern.MatchesAround (cut : Nat) (p : Pattern) (here next : Cursor)
    (ts : List Tree) : Prop where
  scan : p.scan false here = some (next, ts)
  pieces : ∀ s ∈ p.pieces here, ¬s.HasInside cut

theorem Pattern.MatchesAround.ne_none {cut : Nat} {p : Pattern} {here next : Cursor}
    {ts : List Tree}
    (h : p.MatchesAround cut here next ts) : p.scan false here ≠ none := by
  rw [h.scan]
  exact Option.some_ne_none _

/-- No piece has the start of the text inside. -/
theorem Pattern.matchesAround_zero {p : Pattern} {here next : Cursor} {ts : List Tree}
    (h : p.scan false here = some (next, ts)) : p.MatchesAround 0 here next ts :=
  ⟨h, fun _ _ hinside => Nat.not_lt_zero _ hinside.1⟩

/-- The rounds of a repetition that has begun, around the offset. The last one fails. -/
inductive Pattern.RoundsAround (cut : Nat) (p : Pattern) : Cursor → Cursor → List Tree → Prop where
  | stop {here : Cursor} : p.scan false (Mode.skip {} here) = none → RoundsAround cut p here here []
  | round {here mid next : Cursor} {ts us : List Tree} : here.SkipsAround cut →
      p.MatchesAround cut (Mode.skip {} here) mid ts → RoundsAround cut p mid next us →
      RoundsAround cut p here next (ts ++ us)

/-- A repetition ends where no further round matches. -/
theorem Pattern.RoundsAround.stops {cut : Nat} {p : Pattern} {here next : Cursor} {ts : List Tree}
    (h : p.RoundsAround cut here next ts) : p.scan false (Mode.skip {} next) = none := by
  induction h with
  | stop hnone => exact hnone
  | round _ _ _ ih => exact ih

/-- Nothing is skipped in front of the cursor. -/
def Cursor.IsTight (here : Cursor) : Prop := ∀ c ∈ here.rest.head?, isSkipped c = false

namespace Cursor.IsTight

variable {here : Cursor}

theorem skip (here : Cursor) : (Mode.skip {} here).IsTight :=
  Cursor.tight_skipFrom false here.rest here.pos

theorem skip_eq (h : here.IsTight) : Mode.skip {} here = here := tight_of_head h here.pos

theorem skipsAround (h : here.IsTight) (cut : Nat) : here.SkipsAround cut := by
  obtain ⟨rest, pos⟩ := here
  suffices hnone : Cursor.comments ⟨rest, pos⟩ = [] by
    intro s hs
    rw [hnone] at hs
    cases hs
  cases rest with
  | nil => rfl
  | cons c rest =>
    have hc := h c rfl
    simp only [isSkipped, List.contains_cons, List.contains_nil, Bool.or_false,
      Bool.or_eq_false_iff, beq_eq_false_iff_ne] at hc
    obtain ⟨hblank, htab, hfeed, hreturn, hsign⟩ := hc
    simp [Cursor.comments, Cursor.commentsFrom, hblank, htab, hfeed, hreturn, hsign]

end Cursor.IsTight

namespace Pattern.MatchesAround

variable {cut : Nat} {p q : Pattern} {r : Rule} {here next : Cursor} {ts : List Tree}

theorem seq (h : (Pattern.seq p q).MatchesAround cut here next ts) :
    ∃ mid ps qs, p.MatchesAround cut here mid ps ∧ mid.SkipsAround cut ∧
      q.MatchesAround cut (Mode.skip {} mid) next qs ∧ ts = ps ++ qs := by
  obtain ⟨mid, ps, qs, hp, hq, rfl⟩ := exists_of_scan_seq h.scan
  have hpieces := h.pieces
  simp only [Pattern.pieces, piecesBy, hp] at hpieces
  obtain ⟨hps, hrest⟩ := List.forall_mem_append.mp hpieces
  obtain ⟨hskips, hqs⟩ := List.forall_mem_append.mp hrest
  exact ⟨mid, ps, qs, ⟨hp, hps⟩, hskips, ⟨hq, hqs⟩, rfl⟩

theorem alt (h : (Pattern.alt p q).MatchesAround cut here next ts) :
    p.MatchesAround cut here next ts ∨ p.scan false here = none ∧
    q.MatchesAround cut here next ts := by
  have hpieces := h.pieces
  rcases of_scan_alt h.scan with hp | ⟨hp, hq⟩
  · simp only [Pattern.pieces, piecesBy, hp, Option.isSome_some, if_true] at hpieces
    exact .inl ⟨hp, hpieces⟩
  · simp only [Pattern.pieces, piecesBy, hp, Option.isSome_none, Bool.false_eq_true,
      if_false] at hpieces
    exact .inr ⟨hp, hq, hpieces⟩

theorem opt (h : (Pattern.opt p).MatchesAround cut here next ts) :
    p.MatchesAround cut here next ts ∨ p.scan false here = none ∧ next = here ∧ ts = [] := by
  have hpieces := h.pieces
  rcases of_scan_opt h.scan with hp | habsent
  · simp only [Pattern.pieces, piecesBy, hp, Option.isSome_some, if_true] at hpieces
    exact .inl ⟨hp, hpieces⟩
  · exact .inr habsent

/-- A match of a rule that skips blanks is one of its body. -/
theorem body (h : (Pattern.rule r).MatchesAround cut here next ts) (hr : r.isAtomic = false) :
    ∃ us, r.body.MatchesAround cut here next us ∧ ts = r.nodes false here next us := by
  obtain ⟨us, hbody, hts⟩ := Rule.exists_of_scan h.scan
  have hpieces := h.pieces
  change ∀ s ∈ r.pieces here, _ at hpieces
  simp only [r.pieces_eq, hr, Bool.false_eq_true, if_false] at hpieces
  rw [hr] at hbody
  exact ⟨us, ⟨hbody, hpieces⟩, hts⟩

/-- A match of an atomic rule is one piece. -/
theorem token (h : (Pattern.rule r).MatchesAround cut here next ts) (hr : r.isAtomic = true) :
    ¬(⟨here.pos, next.pos⟩ : Span).HasInside cut := by
  have hscan : r.scan false here = some (next, ts) := h.scan
  have hpieces := h.pieces
  change ∀ s ∈ r.pieces here, _ at hpieces
  simp only [r.pieces_eq, hr, if_true, hscan] at hpieces
  exact hpieces _ (List.mem_singleton_self _)

/-- A match of a choice is one of the first alternative that matches. -/
theorem firstOf {rs : List Rule} (hrs : rs ≠ [])
    (h : (Pattern.firstOf (rs.map .rule)).MatchesAround cut here next ts) :
    ∃ r ∈ rs, (∀ q ∈ rs.takeWhile (· != r), q.scan false here = none) ∧
      (Pattern.rule r).MatchesAround cut here next ts := by
  induction rs with
  | nil => exact absurd rfl hrs
  | cons r rs ih =>
    cases rs with
    | nil => exact ⟨r, List.mem_cons_self, by simp, h⟩
    | cons s rs =>
      rcases h.alt with hr | ⟨hr, hrest⟩
      · exact ⟨r, List.mem_cons_self, by simp, hr⟩
      · obtain ⟨q, hq, hbefore, hmatch⟩ := ih (List.cons_ne_nil _ _) hrest
        refine ⟨q, List.mem_cons_of_mem _ hq, ?_, hmatch⟩
        rw [List.takeWhile_cons]
        split
        · exact List.forall_mem_cons.mpr ⟨hr, hbefore⟩
        · exact fun _ hmem => absurd hmem List.not_mem_nil

/-- The rounds behind the first one. -/
theorem rounds (hp : p.isNullable = false) {n : Nat} (hn : here.rest.length < n) {us : List Tree}
    (h : Yield.rounds false (p.scan false) n here us = some (next, ts))
    (hpieces : ∀ s ∈ Yield.roundPieces (p.scan false) p.pieces n here, ¬s.HasInside cut) :
    ∃ vs, p.RoundsAround cut here next vs ∧ ts = us ++ vs := by
  induction n generalizing here us with
  | zero => cases hn
  | succ n ih =>
    simp only [Yield.rounds] at h
    simp only [Yield.roundPieces] at hpieces
    cases hround : p.scan false (Mode.skip {} here) with
    | none =>
      rw [hround] at h
      cases h
      exact ⟨[], .stop hround, (List.append_nil _).symm⟩
    | some found =>
      obtain ⟨mid, vs⟩ := found
      rw [hround] at h hpieces
      have hlt := (derives_of_scan hround).length_lt hp
      have hskip := Cursor.length_skip_le {} here
      obtain ⟨hskips, hrest⟩ := List.forall_mem_append.mp hpieces
      obtain ⟨hvs, hmore⟩ := List.forall_mem_append.mp hrest
      obtain ⟨ws, hrounds, hts⟩ := ih (by omega) h hmore
      exact ⟨vs ++ ws, .round hskips ⟨hround, hvs⟩ hrounds, by rw [hts, List.append_assoc]⟩

/-- A repetition in front of no blank consists of rounds. -/
theorem star (hp : p.isNullable = false) (hhere : here.IsTight)
    (h : (Pattern.star p).MatchesAround cut here next ts) : p.RoundsAround cut here next ts := by
  have hscan := h.scan
  have hpieces := h.pieces
  rw [scan_star] at hscan
  simp only [Pattern.pieces, piecesBy] at hpieces
  cases hfirst : p.scan false here with
  | none =>
    rw [hfirst] at hscan
    cases hscan
    exact .stop (by rw [hhere.skip_eq]; exact hfirst)
  | some found =>
    obtain ⟨mid, us⟩ := found
    rw [hfirst] at hscan hpieces
    obtain ⟨hus, hmore⟩ := List.forall_mem_append.mp hpieces
    obtain ⟨vs, hrounds, rfl⟩ := rounds hp (Nat.lt_succ_self _) hscan hmore
    refine .round (hhere.skipsAround cut) ?_ hrounds
    rw [hhere.skip_eq]
    exact ⟨hfirst, hus⟩

end Pattern.MatchesAround

end ScopeScript
