import ScopeScript.Proofs.CarriedRules
import ScopeScript.Proofs.RoundTrip

/-!
# Layout does not matter

Blanks and comments can be inserted into a program at every offset that lies inside none of its
pieces, and the program stays the same up to its ranges (`Program.parse_insert_layout`).

A program is a repetition of rounds, an expression with maybe a semicolon behind it, up to the end
of the text. What follows an expression in it is a semicolon, the next expression or the end, so
that expressions are carried over (`Program.carriedBelow_rounds`).
-/

namespace ScopeScript

open Pattern

section Rounds

variable {i : Insertion} {mid next : Cursor} {ts : List Tree}

/-- The end of the text follows, maybe behind blanks. -/
structure Cursor.EndsText (cut : Nat) (next : Cursor) : Prop where
  skips : next.SkipsAround cut
  rest : (Mode.skip {} next).rest = []

theorem Cursor.EndsText.followsExpr {cut : Nat} (h : next.EndsText cut) : next.FollowsExpr cut := by
  refine ⟨h.skips, .inl ?_⟩
  rw [h.rest]
  nofun

theorem Cursor.FollowsExpr.of_program_round (hskips : mid.SkipsAround i.cut)
    (h : Program.round.MatchesAround i.cut (Mode.skip {} mid) next ts) : mid.FollowsExpr i.cut := by
  obtain ⟨there, ps, qs, hexpr, -⟩ := h.seq
  exact ⟨hskips, .inr (.inr ⟨there, ps, hexpr⟩)⟩

theorem Program.carriedBelow_round (n : Nat) : round.CarriedBelow i n (·.FollowsExpr i.cut) := by
  refine (Rule.carriedBelow_expr n).seq alwaysCarried_semicolon.below
    fun mid next qs hskips hoption hnext => ?_
  rcases hoption.opt with hsemicolon | ⟨-, rfl, -⟩
  · exact ((opensWith_char ';').followedBy hskips hsemicolon).followsExpr (by decide)
  · exact hnext.of_skip hskips

theorem Program.carriedBelow_rounds (n : Nat) :
    (Pattern.star round).CarriedBelow i n (·.EndsText i.cut) := by
  refine (carriedBelow_round n).star rfl (fun next hnext => ⟨hnext.skips, hnext.followsExpr⟩)
    (fun _ _ _ hskips hround => .of_program_round hskips hround) fun next _ hnext => ?_
  apply Refuses.seq_left
  intro rest hmoves
  refine Rule.fails_expr fun c hc => ?_
  rw [hmoves.head?_eq, hnext.rest] at hc
  cases hc

theorem Rule.rest_of_endOfInput {cut : Nat} {here next : Cursor} {ts : List Tree}
    (h : (Pattern.rule .endOfInput).MatchesAround cut here next ts) : here.rest = [] := by
  obtain ⟨us, hbody, -⟩ := h.body rfl
  cases derives_of_scan hbody.scan with
  | stop hend => exact List.isEmpty_iff.mp hend

theorem Rule.alwaysCarried_endOfInput : (Pattern.rule .endOfInput).AlwaysCarried i := by
  intro here next ts h
  obtain ⟨us, hbody, rfl⟩ := h.body rfl
  refine .rule rfl fun rest hmoves => ?_
  have hrest : rest = [] := by
    rw [← List.head?_eq_none_iff, hmoves.head?_eq, rest_of_endOfInput h]
    rfl
  cases derives_of_scan hbody.scan with
  | stop => exact ⟨[], rest, rfl, hmoves.lands, hrest ▸ .stop⟩

end Rounds

/-! ### Programs -/

/-- The trees of a program are left in the new text as well, up to ranges. -/
theorem Program.exists_scan_of_matchesAround (i : Insertion) {before : List Char} {next : Cursor}
    {us : List Tree} (hcut : byteLength before = i.cut)
    (h : Rule.program.body.MatchesAround i.cut (.atStart (before ++ i.after)) next us) :
    ∃ next' vs, Rule.program.body.scan false (.atStart (before ++ (i.layout ++ i.after))) =
      some (next', vs) ∧
      List.Forall₂ Tree.SameAs us vs := by
  obtain ⟨mid, ps, qs, hstart, hskips, hrounds, rfl⟩ := h.seq
  obtain ⟨rfl, rfl⟩ : mid = .atStart (before ++ i.after) ∧ ps = [] := by
    simpa [Pattern.scan, Pattern.scanBy, Cursor.atStart, eq_comm] using hstart.scan
  -- at the start of the text the layout may be what is skipped
  have hlands : i.Lands (.atStart (before ++ i.after)) (before ++ (i.layout ++ i.after)) :=
    .ahead (by omega)
  obtain ⟨blanks, text, hnew, hmoves, hskip⟩ := hlands.skip hskips
  have hwhole : (Pattern.seq (.star round) (.rule .endOfInput)).CarriedBelow i
      ((Mode.skip {} (.atStart (before ++ i.after))).rest.length + 1) fun _ => True := by
    refine (carriedBelow_rounds _).seq Rule.alwaysCarried_endOfInput.below
      fun mid next qs hskips hend _ => ?_
    exact ⟨hskips, Rule.rest_of_endOfInput hend⟩
  obtain ⟨cs, rest, rfl, -, hreads⟩ :=
    hwhole _ next qs (.skip _) (Nat.lt_succ_self _) hrounds trivial text hmoves
  obtain ⟨vs, hscan, hall⟩ := hreads (0 + byteLength blanks)
  rw [← hskip] at hscan
  have hbegin : Pattern.start.scan false (.atStart (before ++ (i.layout ++ i.after))) =
      some (.atStart (before ++ (i.layout ++ i.after)), []) := rfl
  exact ⟨_, vs, scan_seq_of_scan hbegin hscan, Tree.allHave_map_iff.mp hall⟩

theorem Tree.SameAs.filter_rule {ts us : List Tree} (h : List.Forall₂ SameAs ts us)
    (keep : Rule → Bool) :
    List.Forall₂ SameAs (ts.filter (keep ·.rule)) (us.filter (keep ·.rule)) := by
  induction h with
  | nil => exact .nil
  | @cons t u ts us hsame _ ih =>
    have hrule : u.rule = t.rule := by
      obtain ⟨r, span, lexeme, children⟩ := t
      obtain ⟨span', vs, rfl, -⟩ := hsame.exists_node
      rfl
    rw [List.filter_cons, List.filter_cons, hrule]
    split
    · exact .cons hsame ih
    · exact ih

/-- **Layout does not matter.** Blanks, line breaks and closed comments that are inserted into a
program, at an offset inside none of its pieces, leave the program as it is up to ranges. -/
theorem Program.parse_insert_layout {before layout after : List Char} {p : Program}
    (hparse : Program.parse (before ++ after) = .ok p)
    (hcut : ∀ s ∈ Program.pieces (before ++ after), ¬s.HasInside (byteLength before))
    (hlayout : isLayout layout = true) :
    ∃ q, Program.parse (before ++ layout ++ after) = .ok q ∧ q.eraseSpans = p.eraseSpans := by
  obtain ⟨trees, htrees, hread⟩ := exists_of_bind_eq_ok hparse
  obtain ⟨roots, hroots, hchildren⟩ := exists_of_bind_eq_ok htrees
  cases hchildren
  obtain ⟨next, hscan⟩ := Rule.scan_of_trees hroots
  have hmatch : (Pattern.rule .program).MatchesAround (byteLength before)
      (.atStart (before ++ after)) next roots :=
    ⟨hscan, hcut⟩
  obtain ⟨us, hbody, rfl⟩ := hmatch.body rfl
  let i : Insertion := ⟨byteLength before, after, layout, hlayout⟩
  obtain ⟨next', vs, hnew, hsame⟩ := exists_scan_of_matchesAround i rfl hbody
  have hfilter := Tree.SameAs.filter_rule hsame (· != .endOfInput)
  have hfound :
      [Tree.node .program ⟨(Cursor.atStart (before ++ after)).pos, next.pos⟩ [] us].flatMap
      (fun t => t.children.filter (·.rule != .endOfInput)) = us.filter (·.rule != .endOfInput) :=
        List.append_nil _
  obtain ⟨q, hq, heq⟩ := Tree.SameAs.denotes_all hfilter (hfound ▸ hread)
  rw [List.append_assoc, parse, trees_of_scan hnew]
  exact ⟨q, hq, heq⟩

/-- Between the sign of a comparison and a negative number a comment can be inserted. Without the
blank that stands there the two would be an arrow. -/
theorem Program.parse_insert_layout_comparison :
    ∃ p q : Program,
    Program.parse ("x<- -1#x\nif(x<".toList ++ " -2)f(x)else x[[1]]<-x\n+1".toList) = .ok p ∧
      p.length = 2 ∧
      (∀ s ∈ Program.pieces ("x<- -1#x\nif(x<".toList ++ " -2)f(x)else x[[1]]<-x\n+1".toList),
        ¬s.HasInside (byteLength "x<- -1#x\nif(x<".toList)) ∧
      isLayout "# -\r\n\t".toList = true ∧
      Program.parse ("x<- -1#x\nif(x<".toList ++ "# -\r\n\t".toList ++
        " -2)f(x)else x[[1]]<-x\n+1".toList) = .ok q ∧
      q.eraseSpans = p.eraseSpans := by
  have hparse :
      Program.parse ("x<- -1#x\nif(x<".toList ++ " -2)f(x)else x[[1]]<-x\n+1".toList) = .ok _ :=
    rfl
  have hcut :
      ∀ s ∈ Program.pieces ("x<- -1#x\nif(x<".toList ++ " -2)f(x)else x[[1]]<-x\n+1".toList),
      ¬s.HasInside (byteLength "x<- -1#x\nif(x<".toList) := by decide +kernel
  have hlayout : isLayout "# -\r\n\t".toList = true := by decide
  obtain ⟨q, hq, heq⟩ := parse_insert_layout hparse hcut hlayout
  exact ⟨_, q, hparse, rfl, hcut, hlayout, hq, heq⟩

end ScopeScript
