import ScopeScript.Proofs.Choices
import ScopeScript.Proofs.Insertion

/-!
# Matches that are carried over

What becomes of a match when layout is inserted around its pieces. `p.Carries i here next ts` says
that the pattern matches in the new text as it did in the old one, and leaves trees that differ from
`ts` in their ranges only. `p.Refuses i here` says that it does not match in the new text, which is
what has to be known of earlier alternatives, of options that were left out, and of the round at
which a repetition stopped.

For each way to build a pattern a lemma says how these facts are put together. They go back to those
on `Pattern.Reads` and `Pattern.Fails`; a sequence may now have blanks between its parts.
-/

namespace ScopeScript

open Pattern

/-! ### Blanks between parts -/

namespace Pattern

variable {p q : Pattern} {cs ds blanks rest : List Char} {Ps Qs : List (Tree → Prop)}

/-- A sequence with blanks and comments between its parts. -/
theorem Reads.seq_skip (hp : p.Reads false cs (blanks ++ (ds ++ rest)) Ps)
    (hskip : ∀ pos, Mode.skip {} ⟨blanks ++ (ds ++ rest), pos⟩ =
      ⟨ds ++ rest, pos + byteLength blanks⟩)
    (hq : q.Reads false ds rest Qs) :
    (Pattern.seq p q).Reads false (cs ++ (blanks ++ ds)) rest (Ps ++ Qs) := by
  intro pos
  obtain ⟨ts, hts, hPs⟩ := hp pos
  obtain ⟨us, hus, hQs⟩ := hq (pos + byteLength cs + byteLength blanks)
  refine ⟨ts ++ us, ?_, List.rel_append hPs hQs⟩
  rw [scan] at hts hus
  rw [scan, scanBy, List.append_assoc, List.append_assoc, hts]
  simp only [hskip, hus]
  simp only [byteLength_append, Nat.add_assoc]

theorem Fails.seq_skip (hp : p.Reads false cs (blanks ++ rest) Ps)
    (hskip : ∀ pos, Mode.skip {} ⟨blanks ++ rest, pos⟩ = ⟨rest, pos + byteLength blanks⟩)
    (hq : q.Fails false rest) : (Pattern.seq p q).Fails false (cs ++ (blanks ++ rest)) := by
  intro pos
  obtain ⟨ts, hts, -⟩ := hp pos
  have hnone := hq (pos + byteLength cs + byteLength blanks)
  rw [scan] at hts hnone
  rw [scan, scanBy, hts]
  simp only [hskip, hnone]

theorem Continues.stop_skip (hnull : p.isNullable = false)
    (hskip : ∀ pos, Mode.skip {} ⟨blanks ++ rest, pos⟩ = ⟨rest, pos + byteLength blanks⟩)
    (hp : p.Fails false rest) : p.Continues false [] (blanks ++ rest) [] := by
  intro pos ts
  refine ⟨[], ?_, .nil⟩
  rw [more_eq hnull, List.nil_append, hskip, hp, List.append_nil]
  rfl

theorem Continues.step_skip (hnull : p.isNullable = false)
    (hskip : ∀ pos, Mode.skip {} ⟨blanks ++ (cs ++ (ds ++ rest)), pos⟩ =
      ⟨cs ++ (ds ++ rest), pos + byteLength blanks⟩)
    (hp : p.Reads false cs (ds ++ rest) Ps) (hmore : p.Continues false ds rest Qs) :
    p.Continues false (blanks ++ (cs ++ ds)) rest (Ps ++ Qs) := by
  intro pos ts
  obtain ⟨us, hus, hPs⟩ := hp (pos + byteLength blanks)
  obtain ⟨vs, hvs, hQs⟩ := hmore (pos + byteLength blanks + byteLength cs) (ts ++ us)
  refine ⟨us ++ vs, ?_, List.rel_append hPs hQs⟩
  rw [more_eq hnull, List.append_assoc, List.append_assoc, hskip, hus]
  simp only [hvs]
  simp only [byteLength_append, Nat.add_assoc, List.append_assoc]

end Pattern

/-! ### Matches and refusals in the new text -/

/-- The pattern matches in the new text as it did, and leaves the same trees up to ranges. -/
def Pattern.Carries (p : Pattern) (i : Insertion) (here next : Cursor) (ts : List Tree) : Prop :=
  ∀ rest, i.Moves here rest → ∃ cs rest', rest = cs ++ rest' ∧ i.Lands next rest' ∧
    p.Reads false cs rest' (ts.map Tree.SameAs)

/-- A repetition that has begun goes on in the new text as it did. -/
def Pattern.CarriesOn (p : Pattern) (i : Insertion) (here next : Cursor) (ts : List Tree) : Prop :=
  ∀ rest, i.Lands here rest → ∃ cs rest', rest = cs ++ rest' ∧ i.Lands next rest' ∧
    p.Continues false cs rest' (ts.map Tree.SameAs)

/-- The pattern does not match in the new text. -/
def Pattern.Refuses (p : Pattern) (i : Insertion) (here : Cursor) : Prop :=
  ∀ rest, i.Moves here rest → p.Fails false rest

namespace Pattern

variable {i : Insertion} {p q : Pattern} {r s : Rule} {cs : List Char} {here mid next : Cursor}
  {ts us : List Tree}

/-! ### Texts -/

theorem spans_of_scan_text {atomic : Bool} (h : (text cs).scan atomic here = some (next, ts)) :
    here.Spans cs next ∧ ts = [] :=
  ⟨(derives_of_scan h).text_of_text, (derives_of_scan h).of_text⟩

theorem MatchesAround.carries_text (h : (text cs).MatchesAround i.cut here next ts) :
    (text cs).Carries i here next ts := by
  intro rest hmoves
  obtain ⟨hspans, rfl⟩ := spans_of_scan_text h.scan
  have hpiece : ¬(⟨here.pos, next.pos⟩ : Span).HasInside i.cut := by
    rw [hspans.pos]
    exact h.pieces _ (List.mem_singleton_self _)
  obtain ⟨rest', rfl, hlands⟩ := hmoves.through hspans hpiece
  exact ⟨cs, rest', rfl, hlands, .text cs rest'⟩

/-- Layout does not make a text of the grammar. -/
theorem refuses_text (hcs : isPlain cs = true) (h : ¬cs <+: here.rest) : (text cs).Refuses i here :=
  fun _ hmoves => .text fun hprefix => h (hmoves.prefix_of_prefix hcs hprefix)

theorem refuses_char {c : Char} (h : here.rest.head? ≠ some c) : (char c).Refuses i here :=
  fun _ hmoves => .char (hmoves.head?_eq ▸ h)

theorem refuses_text_of_head {c : Char} (h : here.rest.head? ≠ some c) :
    (text (c :: cs)).Refuses i here :=
  fun _ hmoves => .text_of_head (hmoves.head?_eq ▸ h)

/-! ### Sequences, options and choices -/

theorem Carries.seq (hp : p.Carries i here mid ts) (hskips : mid.SkipsAround i.cut)
    (hq : q.Carries i (Mode.skip {} mid) next us) :
    (Pattern.seq p q).Carries i here next (ts ++ us) := by
  intro rest hmoves
  obtain ⟨cs, _, rfl, hlands, hreads⟩ := hp rest hmoves
  obtain ⟨blanks, _, rfl, hmoves', hskip⟩ := hlands.skip hskips
  obtain ⟨ds, rest', rfl, hlands', hreads'⟩ := hq _ hmoves'
  refine ⟨cs ++ (blanks ++ ds), rest', by simp only [List.append_assoc], hlands', ?_⟩
  rw [List.map_append]
  exact hreads.seq_skip hskip hreads'

theorem Refuses.seq_left (hp : p.Refuses i here) : (Pattern.seq p q).Refuses i here :=
  fun rest hmoves => .seq_left (hp rest hmoves)

theorem Carries.refuses_seq (hp : p.Carries i here mid ts) (hskips : mid.SkipsAround i.cut)
    (hq : q.Refuses i (Mode.skip {} mid)) : (Pattern.seq p q).Refuses i here := by
  intro rest hmoves
  obtain ⟨cs, _, rfl, hlands, hreads⟩ := hp rest hmoves
  obtain ⟨blanks, _, rfl, hmoves', hskip⟩ := hlands.skip hskips
  exact .seq_skip hreads hskip (hq _ hmoves')

theorem Carries.present (hp : p.Carries i here next ts) :
    (Pattern.opt p).Carries i here next ts := by
  intro rest hmoves
  obtain ⟨cs, rest', hrest, hlands, hreads⟩ := hp rest hmoves
  exact ⟨cs, rest', hrest, hlands, hreads.present⟩

theorem Refuses.absent (hp : p.Refuses i here) : (Pattern.opt p).Carries i here here [] :=
  fun rest hmoves => ⟨[], rest, rfl, hmoves.lands, .absent (hp rest hmoves)⟩

/-- A match of a choice is one of the first rule that matches. -/
theorem MatchesAround.choice {cut : Nat} (hs : s ∈ Rule.choices)
    (h : (rule s).MatchesAround cut here next ts) :
    ∃ r ∈ s.leaves, (∀ q ∈ s.leaves.takeWhile (· != r), q.scan false here = none) ∧
      (rule r).MatchesAround cut here next ts := by
  obtain ⟨hsilent, hatomic, hne⟩ := Rule.silent_of_choice s hs
  obtain ⟨us, hbody, rfl⟩ := h.body hatomic
  rw [Rule.body_of_choice hs] at hbody
  rw [Rule.nodes, hsilent, Bool.true_or, if_pos rfl]
  exact hbody.firstOf hne

theorem Carries.choice (hs : s ∈ Rule.choices) (hr : r ∈ s.leaves)
    (hbefore : ∀ q ∈ s.leaves.takeWhile (· != r), (rule q).Refuses i here)
    (h : (rule r).Carries i here next ts) :
    (rule s).Carries i here next ts := by
  intro rest hmoves
  obtain ⟨cs, rest', rfl, hlands, hreads⟩ := h rest hmoves
  exact ⟨cs, rest', rfl, hlands, Rule.reads_choice hs hr (fun q hq => hbefore q hq _ hmoves) hreads⟩

/-! ### Rules -/

theorem Carries.rule (hr : r.isAtomic = false) (h : r.body.Carries i here next us) :
    (rule r).Carries i here next (r.nodes false here next us) := by
  intro rest hmoves
  obtain ⟨cs, rest', rfl, hlands, hreads⟩ := h rest hmoves
  refine ⟨cs, rest', rfl, hlands, fun pos => ?_⟩
  obtain ⟨vs, hvs, hall⟩ := hreads pos
  refine ⟨r.nodes false ⟨cs ++ rest', pos⟩ ⟨rest', pos + byteLength cs⟩ vs, ?_, ?_⟩
  · change r.scan false _ = _
    rw [Rule.scan_eq, hr, Bool.or_false, hvs]
  · simp only [Rule.nodes, Bool.or_false]
    split
    · exact hall
    · refine .cons ?_ .nil
      simp only [Rule.lexeme, hr, Bool.false_eq_true, if_false]
      exact Tree.sameAs_node r _ _ [] (Tree.allHave_map_iff.mp hall)

theorem Refuses.rule (hr : r.isAtomic = false) (h : r.body.Refuses i here) :
    (rule r).Refuses i here := by
  intro rest hmoves
  refine .rule ?_
  rw [hr]
  exact h rest hmoves

/-! ### Repetitions -/

section Rounds

variable {E : Cursor → Prop}

/-- What is known at the end of a repetition, and in front of each of its rounds, is known where it
begins. -/
theorem RoundsAround.holds (h : p.RoundsAround i.cut here next ts) (hend : E next)
    (hnext : ∀ mid there us, mid.SkipsAround i.cut →
      p.MatchesAround i.cut (Mode.skip {} mid) there us → E mid) :
    E here := by
  cases h with
  | stop => exact hend
  | round hskips hround => exact hnext _ _ _ hskips hround

/-- A repetition is carried over round by round. What is known behind each round may be used. -/
theorem RoundsAround.carriesOn (hnull : p.isNullable = false)
    (h : p.RoundsAround i.cut here next ts) (hend : E next)
    (hnext : ∀ mid there us, mid.SkipsAround i.cut →
      p.MatchesAround i.cut (Mode.skip {} mid) there us → E mid)
    (hround : ∀ there mid us, there.IsTight → there.rest.length ≤ here.rest.length →
      p.MatchesAround i.cut there mid us → E mid → p.Carries i there mid us)
    (hskips : next.SkipsAround i.cut) (hstop : p.Refuses i (Mode.skip {} next)) :
    p.CarriesOn i here next ts := by
  induction h with
  | stop hfails =>
    intro rest hlands
    obtain ⟨blanks, rest', rfl, hmoves, hskip⟩ := hlands.skip hskips
    exact ⟨[], _, rfl, hlands, .stop_skip hnull hskip (hstop _ hmoves)⟩
  | @round here mid next ts us hskips' hmatch hrounds ih =>
    have hlength := Cursor.length_skip_le {} here
    have hmid := length_le_of_scan hmatch.scan
    have hafter := hrounds.holds hend hnext
    have hmore :=
      ih hend (fun there mid us htight hle => hround there mid us htight (by omega)) hskips hstop
    have hfirst := hround _ _ _ (.skip here) hlength hmatch hafter
    intro rest hlands
    obtain ⟨blanks, _, rfl, hmoves, hskip⟩ := hlands.skip hskips'
    obtain ⟨cs, _, rfl, hlands', hreads⟩ := hfirst _ hmoves
    obtain ⟨ds, rest', rfl, hlands'', hcontinues⟩ := hmore _ hlands'
    refine ⟨blanks ++ (cs ++ ds), rest', by simp only [List.append_assoc], hlands'', ?_⟩
    rw [List.map_append]
    exact .step_skip hnull hskip hreads hcontinues

theorem CarriesOn.star (hnull : p.isNullable = false) (hhere : here.IsTight)
    (h : p.CarriesOn i here next ts) :
    (Pattern.star p).Carries i here next ts := by
  intro rest hmoves
  obtain ⟨cs, rest', rfl, hlands, hcontinues⟩ := h rest hmoves.lands
  exact ⟨cs, rest', rfl, hlands, hcontinues.star hnull (hmoves.tight hhere)⟩

end Rounds

end Pattern

end ScopeScript
