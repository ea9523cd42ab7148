import ScopeScript.Proofs.CarriedParts
import ScopeScript.Proofs.Phrases

/-!
# The first word of an expression

An expression that begins with a letter begins with a reserved word, a truth value or a name, and
hence with a piece. So layout that is inserted around the pieces of the expression leaves its first
word as it is (`Rule.keepsWord_expr`), and the alternatives that are told apart by the first word
are told apart in the new text as well: `Rule.firstWord_of_arith` for expressions,
`Rule.refuses_constant_of_ident` for operands.
-/

namespace ScopeScript

open Pattern

/-! ### Texts that begin with a word -/

section Texts

variable {text : List Char}

/-- A text that begins with a reserved word begins with a letter. -/
theorem head?_of_keyword (h : firstWord text ∈ keywords) : ∃ c ∈ text.head?, c.isAlpha = true := by
  have hletter : ∀ w ∈ keywords, w.head?.any Char.isAlpha = true := by decide
  obtain ⟨c, hc, halpha⟩ := (Option.any_eq_true _ _).mp (hletter _ h)
  cases hw : firstWord text with
  | nil =>
    rw [hw] at hc
    cases hc
  | cons d w =>
    rw [hw] at hc
    cases hc
    exact ⟨c, head?_of_firstWord hw, halpha⟩

theorem isName_keyword {w : List Char} (h : w ∈ keywords) : isName w = false := by
  have hall : ∀ w ∈ keywords, isName w = false := by decide
  exact hall w h

/-- No computation begins with a reserved word that is no truth value. -/
theorem Rule.fails_arith_of_keyword (hword : firstWord text ∈ keywords)
    (htruth : firstWord text ∉ truthWords) :
    (Pattern.rule .arith).Fails false text := by
  obtain ⟨c, hc, halpha⟩ := head?_of_keyword hword
  have hletter : (c.isAlpha || c == '_') = true := by rw [halpha, Bool.true_or]
  obtain ⟨hnumber, hquote⟩ := startsNumber_of_isAlpha hletter
  have hother : ∀ d ∈ ['!', '('], text.head? ≠ some d := by
    intro d hd hsome
    cases hc.symm.trans hsome
    simp only [List.mem_cons, List.not_mem_nil, or_false] at hd
    rcases hd with rfl | rfl <;> cases halpha
  have hident : (Pattern.rule .ident).Fails false text := fails_ident (isName_keyword hword)
  have hfactor : (Pattern.rule .factor).Fails false text := by
    have hconstant : ∀ q ∈ constant.leaves, (Pattern.rule q).Fails false text := by
      refine fails_constant (fun d hd => ?_) htruth
      cases hc.symm.trans hd
      exact ⟨hnumber, hquote⟩
    refine fails_choice (by decide) fun q hq => ?_
    change q ∈ constant.leaves ++ [call, singleElement, ident, grouped] at hq
    rcases List.mem_append.mp hq with hq | hq
    · exact hconstant q hq
    · simp only [List.mem_cons, List.not_mem_nil, or_false] at hq
      rcases hq with rfl | rfl | rfl | rfl
      · exact .rule (.seq_left hident)
      · exact .rule (.seq_left hident)
      · exact hident
      · exact .rule (.seq_left (.char (hother _ (by decide))))
  have hbang : (Pattern.rule .prefixOp).Fails false text := by
    refine fails_operator (by decide) fun d hd r hr hsymbol => hother '!' (by decide) ?_
    cases List.mem_singleton.mp hr
    cases hsymbol
    exact hd
  have htight : Tight false text := by
    refine tight_of_firstWord fun hnil => ?_
    rw [hnil] at hword
    exact absurd hword (by decide)
  have hsimple : (Pattern.rule .simple).Fails false text :=
    .rule (.after (.never hbang) htight (.seq_left hfactor))
  exact .rule (.seq_left hsimple)

/-- No expression begins with a reserved word that opens none. -/
theorem Rule.fails_expr_of_keyword (hword : firstWord text ∈ keywords)
    (htruth : firstWord text ∉ truthWords)
    (hopening : firstWord text ∉ openings) : (Pattern.rule .expr).Fails false text := by
  have hkinds : ∀ q ∈ expr.leaves, q.opening = none → q = assignment ∨ q = compound ∨
      q = arith := by decide
  refine fails_choice (by decide) fun q hq => ?_
  cases hq' : q.opening with
  | some k => exact fails_opened hq' fun heq => hopening (heq ▸ mem_openings hq hq')
  | none =>
    rcases hkinds q hq hq' with rfl | rfl | rfl
    · exact fails_assignment (isName_keyword hword)
    · refine fails_compound fun hbrace => ?_
      obtain ⟨c, hc, halpha⟩ := head?_of_keyword hword
      cases hc.symm.trans hbrace
      cases halpha
    · exact fails_arith_of_keyword hword htruth

end Texts

/-! ### First words in the new text -/

section Words

variable {i : Insertion} {r s : Rule} {k : List Char} {q : Pattern} {here next : Cursor}
  {ts : List Tree}

theorem Pattern.MatchesAround.not_fails (h : q.MatchesAround i.cut here next ts) :
    ¬q.Fails false here.rest := by
  intro hfails
  have hscan := h.scan
  rw [hfails.scan_eq_none] at hscan
  cases hscan

theorem Insertion.Moves.noLetter {rest : List Char} (h : i.Moves here rest)
    (hletter : NoLetter here.rest) :
    NoLetter rest :=
  fun c hc => hletter c (h.head?_eq ▸ hc)

theorem Rule.refuses_ident (hletter : NoLetter here.rest) : (Pattern.rule .ident).Refuses i here :=
  fun _ hmoves => (hmoves.noLetter hletter).fails_ident

theorem noLetter_of_head {text : List Char} {c : Char} (hhead : text.head? = some c)
    (hc : (c.isAlpha || c == '_') = false) : NoLetter text := by
  intro d hd
  cases hhead.symm.trans hd
  exact hc

/-- A match of a choice that begins with a name, or with no letter, or is a truth value. -/
theorem Rule.cases_factor (h : (Pattern.rule .factor).MatchesAround i.cut here next ts) :
    NoLetter here.rest ∨ (Pattern.rule .boolean).MatchesAround i.cut here next ts ∨
      ∃ r ∈ [call, singleElement, ident], (Pattern.rule r).MatchesAround i.cut here next ts := by
  obtain ⟨r, hr, -, hmatch⟩ := h.choice (by decide)
  by_cases hletter : NoLetter here.rest
  · exact .inl hletter
  · -- the other operands begin with other characters
    obtain ⟨c, hc, halpha⟩ : ∃ c ∈ here.rest.head?, (c.isAlpha || c == '_') = true := by
      by_contra hnone
      push Not at hnone
      exact hletter fun c hc => Bool.eq_false_iff.mpr (hnone c hc)
    obtain ⟨hnumber, hquote⟩ := startsNumber_of_isAlpha halpha
    obtain ⟨hfloat, hint⟩ : (Pattern.rule .float).Fails false here.rest ∧
        (Pattern.rule .int).Fails false here.rest := by
      refine fails_number fun d hd => ?_
      cases hc.symm.trans hd
      exact hnumber
    have hstring : (Pattern.rule .string).Fails false here.rest := by
      refine fails_string fun hd => hquote ?_
      cases hc.symm.trans hd
      rfl
    have hgrouped : (Pattern.rule .grouped).Fails false here.rest := by
      refine .rule (.seq_left (.char fun hd => ?_))
      cases hc.symm.trans hd
      cases halpha
    simp only [leaves, List.mem_cons, List.not_mem_nil, or_false] at hr
    rcases hr with rfl | rfl | rfl | rfl | rfl | rfl | rfl | rfl
    · exact absurd hfloat hmatch.not_fails
    · exact absurd hint hmatch.not_fails
    · exact absurd hstring hmatch.not_fails
    · exact .inr (.inl hmatch)
    · exact .inr (.inr ⟨_, by decide, hmatch⟩)
    · exact .inr (.inr ⟨_, by decide, hmatch⟩)
    · exact .inr (.inr ⟨_, by decide, hmatch⟩)
    · exact absurd hgrouped hmatch.not_fails

/-- A call, an element and a variable begin with a name, which is a piece. -/
theorem Rule.exists_ident (hr : r ∈ [call, singleElement, ident])
    (h : (Pattern.rule r).MatchesAround i.cut here next ts) :
    ∃ mid us, (Pattern.rule .ident).MatchesAround i.cut here mid us := by
  simp only [List.mem_cons, List.not_mem_nil, or_false] at hr
  rcases hr with rfl | rfl | rfl
  · obtain ⟨us, hbody, -⟩ := h.body rfl
    obtain ⟨mid, ps, -, hname, -⟩ := hbody.seq
    exact ⟨mid, ps, hname⟩
  · obtain ⟨us, hbody, -⟩ := h.body rfl
    obtain ⟨mid, ps, -, hname, -⟩ := hbody.seq
    exact ⟨mid, ps, hname⟩
  · exact ⟨next, ts, h⟩

theorem Rule.keepsWord_ident (h : (Pattern.rule .ident).MatchesAround i.cut here next ts) :
    i.KeepsWord here :=
  isWord_ident.keepsWord h.scan (h.token rfl)

theorem Rule.keepsWord_factor (h : (Pattern.rule .factor).MatchesAround i.cut here next ts) :
    NoLetter here.rest ∨ i.KeepsWord here := by
  rcases cases_factor h with hletter | htruth | ⟨r, hr, hmatch⟩
  · exact .inl hletter
  · exact .inr (isWord_boolean.keepsWord htruth.scan (htruth.token rfl))
  · obtain ⟨mid, us, hname⟩ := exists_ident hr hmatch
    exact .inr (keepsWord_ident hname)

/-- A computation that begins with no negation begins with an operand. -/
theorem Rule.exists_factor (hhere : here.IsTight) (hbang : here.rest.head? ≠ some '!')
    (h : (Pattern.rule .simple).MatchesAround i.cut here next ts) :
    ∃ mid us vs, (Pattern.rule .factor).MatchesAround i.cut here mid us ∧ mid.SkipsAround i.cut ∧
      (Pattern.star joint).MatchesAround i.cut (Mode.skip {} mid) next vs := by
  obtain ⟨ws, hbody, -⟩ := h.body rfl
  obtain ⟨mid, ps, qs, hsigns, -, hrest, -⟩ := hbody.seq
  have hnone := scan_star_of_none (scan_prefixOp_eq_none hbang)
  obtain ⟨rfl, rfl⟩ := Prod.mk.inj (Option.some.inj (hsigns.scan.symm.trans hnone))
  rw [hhere.skip_eq] at hrest
  obtain ⟨mid, us, vs, hfactor, hskips, hjoints, -⟩ := hrest.seq
  exact ⟨mid, us, vs, hfactor, hskips, hjoints⟩

theorem Rule.keepsWord_arith (hhere : here.IsTight)
    (h : (Pattern.rule .arith).MatchesAround i.cut here next ts) :
    NoLetter here.rest ∨ i.KeepsWord here := by
  by_cases hbang : here.rest.head? = some '!'
  · exact .inl (noLetter_of_head hbang rfl)
  · obtain ⟨us, hbody, -⟩ := h.body rfl
    obtain ⟨mid, ps, -, hsimple, -⟩ := hbody.seq
    obtain ⟨there, vs, -, hfactor, -⟩ := exists_factor hhere hbang hsimple
    exact keepsWord_factor hfactor

/-- What opens with a reserved word begins with a match of it. -/
theorem Rule.exists_opening (hr : r.opening = some k)
    (h : (Pattern.rule r).MatchesAround i.cut here next ts) :
    ∃ s mid us, s.IsReserved k ∧ (Pattern.rule s).MatchesAround i.cut here mid us := by
  have hplain : r.isAtomic = false := by
    cases r <;> cases hr <;> rfl
  obtain ⟨us, hbody, -⟩ := h.body hplain
  cases r <;> cases hr
  case breakExpr | nextExpr => exact ⟨_, next, us, ⟨rfl, rfl, rfl, by decide⟩, hbody⟩
  all_goals
    obtain ⟨mid, ps, -, hword, -⟩ := hbody.seq
    exact ⟨_, mid, ps, ⟨rfl, rfl, rfl, by decide⟩, hword⟩

theorem Rule.keepsWord_expr (hhere : here.IsTight)
    (h : (Pattern.rule .expr).MatchesAround i.cut here next ts) :
    NoLetter here.rest ∨ i.KeepsWord here := by
  have hkinds : ∀ q ∈ expr.leaves, q.opening = none → q = assignment ∨ q = compound ∨
      q = arith := by decide
  obtain ⟨r, hr, -, hmatch⟩ := h.choice (by decide)
  cases hr' : r.opening with
  | some k =>
    obtain ⟨s, mid, us, hs, hword⟩ := exists_opening hr' hmatch
    exact .inr (hs.keepsWord hword)
  | none =>
    rcases hkinds r hr hr' with rfl | rfl | rfl
    · obtain ⟨us, hbody, -⟩ := hmatch.body rfl
      obtain ⟨mid, ps, -, hname, -⟩ := hbody.seq
      exact .inr (keepsWord_ident hname)
    · obtain ⟨us, hbody, -⟩ := hmatch.body rfl
      exact .inl (noLetter_of_head ((opensWith_text '\x7b' []).seq _ _ _ hbody.scan) rfl)
    · exact keepsWord_arith hhere hmatch

/-! ### What is refused -/

theorem Rule.IsReserved.refuses (hr : r.IsReserved k)
    (h : ∀ rest, i.Moves here rest → firstWord rest ≠ k) :
    (Pattern.rule r).Refuses i here :=
  fun rest hmoves => hr.isWord.fails (h rest hmoves)

/-- No branch is taken for the one of a condition, where there was none. -/
theorem Cursor.FollowsExpr.refuses_else (h : here.FollowsExpr i.cut) (hhere : here.IsTight)
    (hnone : (Pattern.seq (.rule .elseKw) (.rule .expr)).scan false here = none) :
    (Pattern.seq (.rule .elseKw) (.rule .expr)).Refuses i here := by
  refine Refuses.seq_left (isReserved_elseKw.refuses fun rest hmoves helse => ?_)
  have hnot : ∀ {text : List Char}, NoLetter text → firstWord text ≠ ['e', 'l', 's', 'e'] := by
    intro text hletter heq
    exact hletter.not_word.2 (heq ▸ isReserved_elseKw.mem)
  have hfollows := h.follows
  rw [hhere.skip_eq] at hfollows
  rcases hfollows with hclose | hbranch | ⟨last, us, hmatch⟩
  · refine hnot (hmoves.noLetter fun c hc => ?_) helse
    have hclosers : closers.all (fun c => !(c.isAlpha || c == '_')) = true := by decide
    exact (Bool.not_eq_true' _).mp (List.all_eq_true.mp hclosers c (hclose c hc))
  · exact hbranch hnone
  · rcases Rule.keepsWord_expr hhere hmatch with hletter | hkeeps
    · exact hnot (hmoves.noLetter hletter) helse
    · -- no expression begins with this word
      rw [hkeeps rest hmoves] at helse
      have hfails : (Pattern.rule .expr).Fails false here.rest := by
        refine Rule.fails_expr_of_keyword ?_ ?_ ?_ <;> rw [helse] <;> decide
      exact hmatch.not_fails hfails

/-- No constant is read where a name was. -/
theorem Rule.refuses_constant_of_ident
    (h : (Pattern.rule .ident).MatchesAround i.cut here next ts) :
    ∀ q ∈ constant.leaves, (Pattern.rule q).Refuses i here := by
  intro q hq rest hmoves
  obtain ⟨hname, -⟩ := isWord_ident.of_scan h.scan
  rw [← keepsWord_ident h rest hmoves] at hname
  obtain ⟨w, tail, rfl, hall, htail⟩ := exists_firstWord rest
  rw [firstWord_append hall htail] at hname
  exact fails_constant_of_name hname htail q hq

/-- Nothing but an expression in parentheses is an operand that begins with one. -/
theorem Rule.refuses_of_paren (hhead : here.rest.head? = some '(') :
    ∀ q ∈ factor.leaves.takeWhile (· != grouped), (Pattern.rule q).Refuses i here := by
  intro q hq rest hmoves
  rw [← hmoves.head?_eq] at hhead
  have hletter : NoLetter rest := noLetter_of_head hhead rfl
  have hconstant : ∀ q ∈ constant.leaves, (Pattern.rule q).Fails false rest := by
    refine fails_constant (fun c hc => ?_) hletter.not_truthWord
    cases hhead.symm.trans hc
    decide
  change q ∈ constant.leaves ++ [call, singleElement, ident] at hq
  rcases List.mem_append.mp hq with hq | hq
  · exact hconstant q hq
  · simp only [List.mem_cons, List.not_mem_nil, or_false] at hq
    rcases hq with rfl | rfl | rfl
    · exact .rule (.seq_left hletter.fails_ident)
    · exact .rule (.seq_left hletter.fails_ident)
    · exact hletter.fails_ident

/-- In the new text a computation does not begin with a word that opens another expression. -/
theorem Rule.firstWord_of_arith (hhere : here.IsTight)
    (h : (Pattern.rule .arith).MatchesAround i.cut here next ts)
    {rest : List Char} (hmoves : i.Moves here rest) : firstWord rest ∉ openings := by
  rcases keepsWord_arith hhere h with hletter | hkeeps
  · exact (hmoves.noLetter hletter).not_opening
  · rw [hkeeps rest hmoves]
    intro hopening
    have htruth : ∀ w ∈ openings, w ∉ truthWords := by decide
    exact h.not_fails (fails_arith_of_keyword (openings_subset_keywords hopening)
      (htruth _ hopening))

end Words

end ScopeScript
