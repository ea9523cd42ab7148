import ScopeScript.Proofs.Sequels

/-!
# Operators, constants and lists are carried over

`p.CarriedBelow i n F` says that matches of a pattern are carried over where `F` holds behind them,
as long as fewer than `n` characters are left. Patterns that hold no expression are carried over
always (`p.AlwaysCarried i`): texts of the grammar, words, constants and operators.

A sequence is carried over part by part. What has to hold behind a part follows from the parts that
come next (`CarriedBelow.seq`); if they begin with a character of their own, that is what follows
(`CarriedBelow.closed`). A part that consumes something lowers the bound for the parts behind it
(`AlwaysCarried.first`), which is what an induction on the bound lives on.
-/

namespace ScopeScript

open Pattern

/-! ### What follows, and blanks -/

/-- The character follows, maybe behind blanks, around the offset. -/
structure Cursor.FollowedBy (cut : Nat) (c : Char) (next : Cursor) : Prop where
  skips : next.SkipsAround cut
  head : (Mode.skip {} next).rest.head? = some c

section Follows

variable {cut : Nat} {next : Cursor} {c : Char}

theorem Cursor.skip_skip (here : Cursor) : Mode.skip {} (Mode.skip {} here) = Mode.skip {} here :=
  (Cursor.IsTight.skip here).skip_eq

theorem Cursor.FollowedBy.followsExpr (h : next.FollowedBy cut c) (hc : c ∈ closers) :
    next.FollowsExpr cut := by
  refine ⟨h.skips, .inl fun d hd => ?_⟩
  cases h.head.symm.trans hd
  exact hc

theorem Cursor.FollowsExpr.of_skip (h : (Mode.skip {} next).FollowsExpr cut)
    (hskips : next.SkipsAround cut) :
    next.FollowsExpr cut := by
  have hfollows := h.follows
  rw [Cursor.skip_skip] at hfollows
  exact ⟨hskips, hfollows⟩

theorem Cursor.FollowsOperand.of_skip (h : (Mode.skip {} next).FollowsOperand cut)
    (hskips : next.SkipsAround cut) : next.FollowsOperand cut := by
  obtain ⟨-, hbracket, hparen, harrow⟩ := h
  rw [Cursor.skip_skip] at hbracket hparen harrow
  exact ⟨hskips, hbracket, hparen, harrow⟩

end Follows

/-! ### Patterns that are carried over -/

/-- Matches of the pattern are carried over. -/
def Pattern.AlwaysCarried (p : Pattern) (i : Insertion) : Prop :=
  ∀ here next ts, p.MatchesAround i.cut here next ts → p.Carries i here next ts

/-- Matches of the pattern with fewer than `n` characters left are carried over where `F` holds
behind them. -/
def Pattern.CarriedBelow (p : Pattern) (i : Insertion) (n : Nat) (F : Cursor → Prop) : Prop :=
  ∀ here next ts, here.IsTight → here.rest.length < n →
  p.MatchesAround i.cut here next ts → F next →
    p.Carries i here next ts

/-- The pattern matches only in front of the character. -/
def Pattern.OpensWith (p : Pattern) (c : Char) : Prop :=
  ∀ here next ts, p.scan false here = some (next, ts) → here.rest.head? = some c

theorem Pattern.opensWith_text (c : Char) (cs : List Char) : (text (c :: cs)).OpensWith c := by
  intro here next ts h
  rw [(spans_of_scan_text h).1.rest]
  rfl

theorem Pattern.OpensWith.seq {p q : Pattern} {c : Char} (hp : p.OpensWith c) :
    (Pattern.seq p q).OpensWith c := by
  intro here next ts h
  obtain ⟨mid, ps, qs, hscan, -⟩ := exists_of_scan_seq h
  exact hp here mid ps hscan

/-- What opens with the character and matches behind blanks. -/
theorem Pattern.OpensWith.followedBy {p : Pattern} {c : Char} {cut : Nat} {mid next : Cursor}
    {ts : List Tree} (hp : p.OpensWith c) (hskips : mid.SkipsAround cut)
    (h : p.MatchesAround cut (Mode.skip {} mid) next ts) :
    mid.FollowedBy cut c :=
  ⟨hskips, hp _ _ _ h.scan⟩

section Carried

variable {i : Insertion} {p q : Pattern} {r : Rule} {m n : Nat} {F G : Cursor → Prop} {c : Char}

theorem Pattern.AlwaysCarried.below (hp : p.AlwaysCarried i) : p.CarriedBelow i n F :=
  fun here next ts _ _ h _ => hp here next ts h

theorem Pattern.CarriedBelow.imp (hp : p.CarriedBelow i n F) (hmn : m ≤ n)
    (hGF : ∀ next, G next → F next) :
    p.CarriedBelow i m G :=
  fun here next ts htight hlt h hnext => hp here next ts htight (by omega) h (hGF next hnext)

/-- A sequence is carried over, if both parts are. -/
theorem Pattern.CarriedBelow.seq (hp : p.CarriedBelow i n F) (hq : q.CarriedBelow i n G)
    (hfollow : ∀ mid next qs, mid.SkipsAround i.cut →
      q.MatchesAround i.cut (Mode.skip {} mid) next qs →
      G next → F mid) : (Pattern.seq p q).CarriedBelow i n G := by
  intro here next ts htight hlt h hnext
  obtain ⟨mid, ps, qs, hps, hskips, hqs, rfl⟩ := h.seq
  have hskip := Cursor.length_skip_le {} mid
  have hmid := length_le_of_scan hps.scan
  have hfirst := hp here mid ps htight hlt hps (hfollow mid next qs hskips hqs hnext)
  exact hfirst.seq hskips (hq _ next qs (.skip mid) (by omega) hqs hnext)

/-- Behind a first part that consumes something less text is left. -/
theorem Pattern.AlwaysCarried.first (hp : p.AlwaysCarried i) (hnull : p.isNullable = false)
    (hq : q.CarriedBelow i n F) : (Pattern.seq p q).CarriedBelow i (n + 1) F := by
  intro here next ts htight hlt h hnext
  obtain ⟨mid, ps, qs, hps, hskips, hqs, rfl⟩ := h.seq
  have hskip := Cursor.length_skip_le {} mid
  have hmid := (derives_of_scan hps.scan).length_lt hnull
  exact (hp here mid ps hps).seq hskips (hq _ next qs (.skip mid) (by omega) hqs hnext)

theorem Pattern.AlwaysCarried.seq (hp : p.AlwaysCarried i) (hq : q.CarriedBelow i n F) :
    (Pattern.seq p q).CarriedBelow i n F :=
  hp.below.seq (F := fun _ => True) hq fun _ _ _ _ _ _ => trivial

/-- A part in front of a character that stands next. -/
theorem Pattern.CarriedBelow.closed (hp : p.CarriedBelow i n (·.FollowedBy i.cut c))
    (hopens : q.OpensWith c)
    (hq : q.CarriedBelow i n F) : (Pattern.seq p q).CarriedBelow i n F :=
  hp.seq hq fun _ _ _ hskips hqs _ => hopens.followedBy hskips hqs

theorem Pattern.CarriedBelow.rule (hr : r.isAtomic = false) (h : r.body.CarriedBelow i n F) :
    (Pattern.rule r).CarriedBelow i n F := by
  intro here next ts htight hlt hmatch hnext
  obtain ⟨us, hbody, rfl⟩ := hmatch.body hr
  exact (h here next us htight hlt hbody hnext).rule hr

/-- An option is carried over, if the part is and what follows tells that it was left out. -/
theorem Pattern.CarriedBelow.opt (hp : p.CarriedBelow i n F)
    (habsent : ∀ here, here.IsTight → p.scan false here = none → F here → p.Refuses i here) :
    (Pattern.opt p).CarriedBelow i n F := by
  intro here next ts htight hlt h hnext
  rcases h.opt with hpresent | ⟨hnone, rfl, rfl⟩
  · exact (hp here next ts htight hlt hpresent hnext).present
  · exact (habsent next htight hnone hnext).absent

/-- A repetition is carried over, if its rounds are and what follows tells that it is over. `E` is
what is known behind each round. -/
theorem Pattern.CarriedBelow.star {E : Cursor → Prop} (hnull : p.isNullable = false)
    (hp : p.CarriedBelow i n E) (hend : ∀ next, F next → next.SkipsAround i.cut ∧ E next)
    (hnext : ∀ mid there us, mid.SkipsAround i.cut →
      p.MatchesAround i.cut (Mode.skip {} mid) there us → E mid)
    (hstop : ∀ next, p.scan false (Mode.skip {} next) = none → F next →
      p.Refuses i (Mode.skip {} next)) :
    (Pattern.star p).CarriedBelow i n F := by
  intro here next ts htight hlt h hfollow
  obtain ⟨hskips, hE⟩ := hend next hfollow
  have hrounds := h.star hnull htight
  refine CarriesOn.star hnull htight
    (hrounds.carriesOn hnull hE hnext ?_ hskips (hstop next hrounds.stops hfollow))
  exact fun there mid us htight' hle hmatch hmid => hp there mid us htight' (by omega) hmatch hmid

end Carried

/-! ### Texts of the grammar -/

section Texts

variable {i : Insertion} {here : Cursor} {cs : List Char}

theorem Pattern.scan_text_ne_none (h : cs <+: here.rest) : (text cs).scan false here ≠ none := by
  obtain ⟨rest, hrest⟩ := h
  exact (Reads.text cs rest).scan_ne_none hrest.symm

theorem Pattern.alwaysCarried_text (cs : List Char) : (text cs).AlwaysCarried i :=
  fun _ _ _ h => h.carries_text

theorem Pattern.alwaysCarried_char (c : Char) : (char c).AlwaysCarried i := alwaysCarried_text [c]

theorem Pattern.opensWith_char (c : Char) : (char c).OpensWith c := opensWith_text c []

theorem Pattern.alwaysCarried_opt_text (hcs : isPlain cs = true) :
    (opt (text cs)).AlwaysCarried i := by
  intro here next ts h
  rcases h.opt with hpresent | ⟨hnone, rfl, rfl⟩
  · exact hpresent.carries_text.present
  · exact (refuses_text hcs fun hprefix => scan_text_ne_none hprefix hnone).absent

end Texts

/-! ### Lists -/

section Lists

variable {i : Insertion} {p : Pattern} {n : Nat} {next : Cursor} {ts : List Tree}

/-- What follows the first element of a list, or of the parameters or arguments of a call. -/
theorem Cursor.FollowsExpr.of_members (hmid : next.SkipsAround i.cut) {last : Cursor}
    (h : (Pattern.star (.seq (char ',') p)).MatchesAround i.cut (Mode.skip {} next) last ts)
    (hlast : last.FollowedBy i.cut ')') : next.FollowsExpr i.cut := by
  refine .of_skip ?_ hmid
  refine (h.star rfl (.skip next)).holds (hlast.followsExpr (by decide))
    fun mid there us hskips hround => ?_
  exact ((opensWith_char ',').seq.followedBy hskips hround).followsExpr (by decide)

/-- More elements behind commas, up to a parenthesis. -/
theorem Pattern.CarriedBelow.members (hp : p.CarriedBelow i n (·.FollowsExpr i.cut)) :
    (Pattern.star (.seq (char ',') p)).CarriedBelow i n (·.FollowedBy i.cut ')') := by
  refine ((alwaysCarried_char ',').seq hp).star rfl (fun next hnext =>
    ⟨hnext.skips, hnext.followsExpr (by decide)⟩) ?_ ?_
  · intro mid there us hskips hround
    exact ((opensWith_char ',').seq.followedBy hskips hround).followsExpr (by decide)
  · intro next _ hnext
    apply Refuses.seq_left
    apply refuses_char
    rw [hnext.head]
    decide

/-- One or more elements with commas between them, up to a parenthesis. -/
theorem Pattern.CarriedBelow.list (hp : p.CarriedBelow i n (·.FollowsExpr i.cut)) :
    (Pattern.seq p (Pattern.star (.seq (char ',') p))).CarriedBelow i n (·.FollowedBy i.cut ')') :=
  hp.seq hp.members fun _ _ _ hskips hmembers hlast => .of_members hskips hmembers hlast

end Lists

/-! ### Operators -/

section Operators

variable {i : Insertion} {s : Rule} {here : Cursor}

theorem Rule.refuses_symbol {r : Rule} (hs : s ∈ [infixOp, relOp, prefixOp]) (hr : r ∈ s.leaves)
    (h : r.scan false here = none) : (Pattern.rule r).Refuses i here := by
  have hplain : ∀ s ∈ [infixOp, relOp, prefixOp], ∀ r ∈ s.leaves, r.isAtomic = false ∧
    isPlain r.symbol = true := by decide
  obtain ⟨hatomic, hsymbol⟩ := hplain s hs r hr
  refine .rule hatomic ?_
  have hbody : r.body.scan false here = none := by
    by_contra hsome
    exact (scan_ne_none_iff hatomic).mpr hsome h
  rw [body_of_operator hs hr] at hbody ⊢
  exact refuses_text hsymbol fun hprefix => scan_text_ne_none hprefix hbody

theorem Rule.refuses_operator (hs : s ∈ [infixOp, relOp, prefixOp])
    (h : (Pattern.rule s).scan false here = none) : (Pattern.rule s).Refuses i here := by
  obtain ⟨hchoice, -⟩ := plain_of_operator s hs
  intro rest hmoves
  refine fails_choice hchoice fun r hr => refuses_symbol hs hr ?_ rest hmoves
  by_contra hsome
  exact (scan_choice_ne_none_iff hchoice).mpr ⟨r, hr, hsome⟩ h

theorem Rule.alwaysCarried_operator (hs : s ∈ [infixOp, relOp, prefixOp]) :
    (Pattern.rule s).AlwaysCarried i := by
  intro here next ts h
  obtain ⟨hchoice, -⟩ := plain_of_operator s hs
  obtain ⟨r, hr, hbefore, hmatch⟩ := h.choice hchoice
  have hatomic : ∀ s ∈ [infixOp, relOp, prefixOp], ∀ r ∈ s.leaves, r.isAtomic = false := by decide
  refine .choice hchoice hr (fun q hq => ?_) ?_
  · exact refuses_symbol hs (List.takeWhile_subset _ hq) (hbefore q hq)
  · obtain ⟨us, hbody, rfl⟩ := hmatch.body (hatomic s hs r hr)
    refine .rule (hatomic s hs r hr) ?_
    rw [body_of_operator hs hr] at hbody ⊢
    exact hbody.carries_text

/-- Where no further negation follows, negations are carried over. -/
structure Cursor.FollowsSigns (cut : Nat) (next : Cursor) : Prop where
  skips : next.SkipsAround cut
  head : (Mode.skip {} next).rest.head? ≠ some '!'

theorem Rule.carriedBelow_signs {n : Nat} :
    (Pattern.star (.rule .prefixOp)).CarriedBelow i n (·.FollowsSigns i.cut) := by
  have hsign : (Pattern.rule .prefixOp).AlwaysCarried i := alwaysCarried_operator (by decide)
  refine hsign.below.star (E := fun _ => True) rfl (fun next hnext => ⟨hnext.skips, trivial⟩)
    (fun _ _ _ _ _ => trivial) fun next hnone _ => ?_
  exact refuses_operator (by decide) hnone

end Operators

/-! ### Constants -/

section Constants

variable {i : Insertion} {r : Rule} {here next : Cursor} {ts : List Tree}

theorem Rule.refuses_string (h : here.rest.head? ≠ some '"') :
    (Pattern.rule .string).Refuses i here :=
  fun _ hmoves => fails_string (hmoves.head?_eq ▸ h)

/-- What was tried before a number, a quoted text or a truth value is not there in the new text. -/
theorem Rule.refuses_before_constant (hr : r ∈ constant.leaves)
    (h : (Pattern.rule r).MatchesAround i.cut here next ts)
    (hbefore : ∀ q ∈ constant.leaves.takeWhile (· != r), q.scan false here = none) :
    ∀ q ∈ constant.leaves.takeWhile (· != r), (Pattern.rule q).Refuses i here := by
  intro q hq
  have hnone := hbefore q hq
  have hmem : q ∈ constant.leaves := List.takeWhile_subset _ hq
  have hlast : ∀ r ∈ constant.leaves, string ∈ constant.leaves.takeWhile (· != r) →
      r = boolean := by decide
  have hnot : ∀ r ∈ constant.leaves, boolean ∉ constant.leaves.takeWhile (· != r) := by decide
  simp only [leaves, List.mem_cons, List.not_mem_nil, or_false] at hmem
  rcases hmem with rfl | rfl | rfl | rfl
  · exact isNumber_float.refuses hnone
  · exact isNumber_int.refuses hnone
  · obtain rfl := hlast r hr hq
    obtain ⟨hword, -⟩ := isWord_boolean.of_scan h.scan
    refine refuses_string fun hhead => ?_
    have hletter : NoLetter here.rest := by
      intro c hc
      cases hhead.symm.trans hc
      rfl
    exact hletter.not_truthWord hword
  · exact absurd hq (hnot r hr)

theorem Rule.alwaysCarried_of_constant (hr : r ∈ constant.leaves) :
    (Pattern.rule r).AlwaysCarried i := by
  intro here next ts h
  simp only [leaves, List.mem_cons, List.not_mem_nil, or_false] at hr
  rcases hr with rfl | rfl | rfl | rfl
  · exact isNumber_float.carries h
  · exact isNumber_int.carries h
  · exact h.carries_string
  · exact isWord_boolean.carries rfl rfl h

theorem Rule.alwaysCarried_constant : (Pattern.rule .constant).AlwaysCarried i := by
  intro here next ts h
  obtain ⟨r, hr, hbefore, hmatch⟩ := h.choice (by decide)
  exact .choice (by decide) hr (refuses_before_constant hr hmatch hbefore)
    (alwaysCarried_of_constant hr here next ts hmatch)

end Constants

end ScopeScript
