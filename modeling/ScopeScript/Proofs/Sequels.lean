import ScopeScript.Proofs.Boundaries

/-!
# What may follow an expression

An ordered choice commits itself, so what follows an expression in a program restricts what was
tried in vain at its end. Three things can follow (`Cursor.FollowsExpr`): a character that closes or
separates, the word `else` with its branch, or the next expression.

* `Cursor.FollowsExpr.infixOp` and `Cursor.FollowsExpr.relOp`: a computation is over where no
  operator stands at all. If the next expression began with a sign, the computation would have taken
  the sign as an operator.
* `Cursor.FollowsOperand`: what may follow an operand. A parenthesis behind a name would have made a
  call, and an arrow an assignment.
-/

namespace ScopeScript

open Pattern

/-! ### Patterns that match -/

section Some

variable {p q : Pattern} {r s : Rule} {here mid next : Cursor} {ts us : List Tree}

/-- A sequence whose first part matches. -/
theorem Pattern.scan_seq_ne_none_iff (hp : p.scan false here = some (mid, ts)) :
    (seq p q).scan false here ≠ none ↔ q.scan false (Mode.skip {} mid) ≠ none := by
  simp only [scan] at hp
  simp only [scan, scanBy, hp]
  cases q.scanBy Rule.scan false (Mode.skip {} mid) with
  | none => simp
  | some found => simp

theorem Pattern.scan_seq_eq_none (hp : p.scan false here = none) :
    (seq p q).scan false here = none := by
  rw [scan] at hp
  rw [scan, scanBy, hp]

/-- A sequence whose second part always matches. -/
theorem Pattern.scan_seq_ne_none_iff_left (hq : ∀ here, q.scan false here ≠ none) :
    (seq p q).scan false here ≠ none ↔ p.scan false here ≠ none := by
  constructor
  · exact fun h hnone => h (scan_seq_eq_none hnone)
  · intro h
    obtain ⟨⟨mid, us⟩, hp⟩ := Option.ne_none_iff_exists'.mp h
    exact (scan_seq_ne_none_iff hp).mpr (hq _)

theorem Pattern.exists_of_scan_seq_ne_none (h : (seq p q).scan false here ≠ none) :
    ∃ mid ts, p.scan false here = some (mid, ts) ∧ q.scan false (Mode.skip {} mid) ≠ none := by
  obtain ⟨⟨mid, ts⟩, hp⟩ := Option.ne_none_iff_exists'.mp fun hnone => h (scan_seq_eq_none hnone)
  exact ⟨mid, ts, hp, (scan_seq_ne_none_iff hp).mp h⟩

theorem Pattern.scan_alt_ne_none_iff :
    (alt p q).scan false here ≠ none ↔ p.scan false here ≠ none ∨ q.scan false here ≠ none := by
  simp only [scan, scanBy]
  cases p.scanBy Rule.scan false here with
  | none => simp
  | some found => simp

theorem Pattern.scan_opt_ne_none (p : Pattern) (here : Cursor) :
    (opt p).scan false here ≠ none := by
  rw [scan, scanBy]
  cases p.scanBy Rule.scan false here <;> exact Option.some_ne_none _

theorem Yield.rounds_ne_none (part : Cursor → Yield) (n : Nat) (here : Cursor) (ts : List Tree) :
    rounds false part n here ts ≠ none := by
  induction n generalizing here ts with
  | zero => exact Option.some_ne_none _
  | succ n ih =>
    rw [rounds]
    split
    · exact ih _ _
    · exact Option.some_ne_none _

theorem Pattern.scan_star_ne_none (p : Pattern) (here : Cursor) :
    (star p).scan false here ≠ none := by
  rw [scan_star]
  split
  · exact Option.some_ne_none _
  · exact Yield.rounds_ne_none _ _ _ _

theorem Pattern.scan_star_of_none (h : p.scan false here = none) :
    (star p).scan false here = some (here, []) := by
  rw [scan_star, h]

theorem Pattern.scan_seq_of_scan (hp : p.scan false here = some (mid, ts))
    (hq : q.scan false (Mode.skip {} mid) = some (next, us)) :
    (Pattern.seq p q).scan false here = some (next, ts ++ us) := by
  rw [scan] at hp hq
  rw [scan, scanBy, hp]
  simp only [hq]

theorem Pattern.scan_opt_of_scan (h : p.scan false here = some (next, ts)) :
    (Pattern.opt p).scan false here = some (next, ts) := by
  rw [scan] at h
  rw [scan, scanBy, h]

theorem Rule.scan_of_body (hr : r.isAtomic = false) (h : r.body.scan false here = some (next, ts)) :
    (Pattern.rule r).scan false here = some (next, r.nodes false here next ts) := by
  change r.scan false here = _
  rw [Rule.scan_eq, hr, Bool.or_false, h]

theorem Pattern.scan_opt_of_none (h : p.scan false here = none) :
    (Pattern.opt p).scan false here = some (here, []) := by
  rw [scan] at h
  rw [scan, scanBy, h]

theorem Rule.scan_ne_none_iff (hr : r.isAtomic = false) :
    (Pattern.rule r).scan false here ≠ none ↔ r.body.scan false here ≠ none := by
  change r.scan false here ≠ none ↔ _
  rw [Rule.scan_eq, hr, Bool.or_false]
  cases r.body.scan false here with
  | none => simp
  | some found => simp

/-- A choice matches if an alternative does, and only then. -/
theorem Rule.scan_choice_ne_none_iff (hs : s ∈ choices) :
    (Pattern.rule s).scan false here ≠ none ↔ ∃ r ∈ s.leaves,
    (Pattern.rule r).scan false here ≠ none := by
  obtain ⟨-, hatomic, hne⟩ := silent_of_choice s hs
  rw [scan_ne_none_iff hatomic, body_of_choice hs]
  generalize s.leaves = rs at hne
  induction rs with
  | nil => exact absurd rfl hne
  | cons r rs ih =>
    cases rs with
    | nil => simp [firstOf]
    | cons r' rs =>
      have hrest := ih (List.cons_ne_nil _ _)
      change (alt (rule r) (firstOf ((r' :: rs).map .rule))).scan false here ≠ none ↔ _
      rw [scan_alt_ne_none_iff, hrest]
      simp

end Some

/-! ### Which rules match -/

section Which

variable {here mid next : Cursor} {ts : List Tree}

theorem Rule.scan_operator {s : Rule} (hs : s ∈ [infixOp, relOp, prefixOp])
    (h : (Pattern.rule s).scan false here = some (next, ts)) :
    ∃ r ∈ s.leaves, here.Spans r.symbol next := by
  obtain ⟨hchoice, -⟩ := plain_of_operator s hs
  obtain ⟨r, hr, -, hmatch⟩ := (matchesAround_zero h).choice hchoice
  obtain ⟨us, hbody, -⟩ := Rule.exists_of_scan hmatch.scan
  rw [body_of_operator hs hr] at hbody
  exact ⟨r, hr, (spans_of_scan_text hbody).1⟩

theorem Rule.scan_prefixOp_eq_none (h : here.rest.head? ≠ some '!') :
    (Pattern.rule .prefixOp).scan false here = none := by
  refine (fails_operator (by decide) fun c hc r hr hsymbol => h ?_).scan_eq_none
  cases List.mem_singleton.mp hr
  cases hsymbol
  exact hc

theorem Rule.startsFactor_of_scan (h : (Pattern.rule .factor).scan false here ≠ none) :
    ∃ c ∈ here.rest.head?, startsFactor c = true := by
  by_contra hnone
  push Not at hnone
  exact h (fails_factor fun c hc => Bool.eq_false_iff.mpr (hnone c hc)).scan_eq_none

theorem Rule.head?_ne_of_scan_factor (h : (Pattern.rule .factor).scan false here ≠ none) :
    here.rest.head? ≠ some '!' := by
  obtain ⟨c, hc, hstarts⟩ := startsFactor_of_scan h
  intro hhead
  cases hhead.symm.trans hc
  cases hstarts

/-- A computation without a negation begins with an operand. -/
theorem Rule.scan_simple_ne_none_iff (hhere : here.IsTight) (hbang : here.rest.head? ≠ some '!') :
    (Pattern.rule .simple).scan false here ≠ none ↔
    (Pattern.rule .factor).scan false here ≠ none := by
  rw [scan_ne_none_iff rfl]
  have hsigns := scan_star_of_none (scan_prefixOp_eq_none hbang)
  change
    (seq (star (.rule .prefixOp)) (seq (.rule .factor) (star joint))).scan false here ≠ none ↔ _
  rw [scan_seq_ne_none_iff hsigns, hhere.skip_eq]
  exact scan_seq_ne_none_iff_left (scan_star_ne_none _)

theorem Rule.scan_arith_ne_none_iff :
    (Pattern.rule .arith).scan false here ≠ none ↔
    (Pattern.rule .simple).scan false here ≠ none := by
  rw [scan_ne_none_iff rfl]
  change (seq (.rule .simple) (opt _)).scan false here ≠ none ↔ _
  exact scan_seq_ne_none_iff_left (scan_opt_ne_none _)

/-- An operand begins an expression. -/
theorem Rule.scan_expr_of_factor (hhere : here.IsTight)
    (h : (Pattern.rule .factor).scan false here ≠ none) :
    (Pattern.rule .expr).scan false here ≠ none := by
  have hsimple := (scan_simple_ne_none_iff hhere (head?_ne_of_scan_factor h)).mpr h
  exact (scan_choice_ne_none_iff (by decide)).mpr
    ⟨.arith, by decide, scan_arith_ne_none_iff.mpr hsimple⟩

/-- Where no word, block or negation begins, an expression begins with an operand. -/
theorem Rule.scan_expr_ne_none_iff (hhere : here.IsTight) (hletter : NoLetter here.rest)
    (hhead : ∀ c ∈ here.rest.head?, c ≠ '!' ∧ c ≠ '\x7b') :
    (Pattern.rule .expr).scan false here ≠ none ↔
    (Pattern.rule .factor).scan false here ≠ none := by
  have hbang : here.rest.head? ≠ some '!' := fun hc => (hhead _ hc).1 rfl
  refine ⟨fun hexpr => ?_, scan_expr_of_factor hhere⟩
  rw [← scan_simple_ne_none_iff hhere hbang, ← scan_arith_ne_none_iff]
  obtain ⟨r, hr, h⟩ := (scan_choice_ne_none_iff (by decide)).mp hexpr
  have hkinds : ∀ r ∈ expr.leaves, r.opening = none → r = assignment ∨ r = compound ∨
      r = arith := by decide
  cases hopening : r.opening with
  | some k =>
    refine absurd (fails_opened hopening fun heq => ?_).scan_eq_none h
    exact hletter.not_opening (heq ▸ mem_openings hr hopening)
  | none =>
    rcases hkinds r hr hopening with rfl | rfl | rfl
    · exact absurd (fails_assignment hletter.not_word.1).scan_eq_none h
    · exact absurd (fails_compound fun hc => (hhead _ hc).2 rfl).scan_eq_none h
    · exact h

/-- Without a word, an operand is a number, a quoted text or an expression in parentheses. -/
theorem Rule.exists_of_scan_factor (hletter : NoLetter here.rest)
    (h : (Pattern.rule .factor).scan false here ≠ none) :
    ∃ r ∈ [float, int, string, grouped], (Pattern.rule r).scan false here ≠ none := by
  obtain ⟨r, hr, hmatch⟩ := (scan_choice_ne_none_iff (by decide)).mp h
  refine ⟨r, ?_, hmatch⟩
  have hcall : (Pattern.rule .call).Fails false here.rest := .rule (.seq_left hletter.fails_ident)
  have helement : (Pattern.rule .singleElement).Fails false here.rest :=
    .rule (.seq_left hletter.fails_ident)
  simp only [leaves, List.mem_cons, List.not_mem_nil, or_false] at hr ⊢
  rcases hr with rfl | rfl | rfl | rfl | rfl | rfl | rfl | rfl
  · exact .inl rfl
  · exact .inr (.inl rfl)
  · exact .inr (.inr (.inl rfl))
  · exact absurd (fails_boolean hletter.not_truthWord).scan_eq_none hmatch
  · exact absurd hcall.scan_eq_none hmatch
  · exact absurd helement.scan_eq_none hmatch
  · exact absurd hletter.fails_ident.scan_eq_none hmatch
  · exact .inr (.inr (.inr rfl))

/-- An operand that begins with a parenthesis is an expression in parentheses. -/
theorem Rule.scan_grouped_ne_none (hhead : here.rest.head? = some '(')
    (h : (Pattern.rule .factor).scan false here ≠ none) :
    (Pattern.rule .grouped).scan false here ≠ none := by
  have hletter : NoLetter here.rest := by
    intro c hc
    cases hhead.symm.trans hc
    rfl
  obtain ⟨hfloat, hint⟩ : (Pattern.rule .float).Fails false here.rest ∧
      (Pattern.rule .int).Fails false here.rest := by
    refine fails_number fun c hc => ?_
    cases hhead.symm.trans hc
    rfl
  have hstring : (Pattern.rule .string).Fails false here.rest := by
    refine fails_string fun hc => ?_
    cases hhead.symm.trans hc
  obtain ⟨r, hr, hmatch⟩ := exists_of_scan_factor hletter h
  simp only [List.mem_cons, List.not_mem_nil, or_false] at hr
  rcases hr with rfl | rfl | rfl | rfl
  · exact absurd hfloat.scan_eq_none hmatch
  · exact absurd hint.scan_eq_none hmatch
  · exact absurd hstring.scan_eq_none hmatch
  · exact hmatch

/-! ### Signs -/

theorem sign_cases {c : Char} {sign cs : List Char} (hsign : sign ∈ [[], ['+'], ['-']])
    (hc : c = '+' ∨ c = '-')
    {text : List Char} (htext : ∀ d ∈ text.head?, d ≠ '+' ∧ d ≠ '-') (h : c :: cs = sign ++ text) :
    cs = text := by
  simp only [List.mem_cons, List.not_mem_nil, or_false] at hsign
  rcases hsign with rfl | rfl | rfl
  · rw [List.nil_append] at h
    rw [← h] at htext
    obtain ⟨hplus, hminus⟩ := htext c rfl
    exact absurd hc (not_or.mpr ⟨hplus, hminus⟩)
  · exact (List.cons.inj h).2
  · exact (List.cons.inj h).2

theorem IsIntText.of_sign {c : Char} {cs : List Char} (h : IsIntText (c :: cs))
    (hc : c = '+' ∨ c = '-') :
    IsIntText cs := by
  obtain ⟨sign, hsign, digits, hdigits, heq⟩ := h
  obtain rfl := sign_cases hsign hc (isNumeral_head hdigits) heq
  exact ⟨[], by decide, cs, hdigits, rfl⟩

theorem IsFloatText.of_sign {c : Char} {cs : List Char} (h : IsFloatText (c :: cs))
    (hc : c = '+' ∨ c = '-') :
    IsFloatText cs := by
  obtain ⟨sign, hsign, whole, hwhole, places, hplaces, heq⟩ := h
  have hhead : ∀ d ∈ (whole ++ '.' :: places).head?, d ≠ '+' ∧ d ≠ '-' := by
    intro d hd
    cases whole with
    | nil =>
      cases hd
      decide
    | cons c whole =>
      cases hd
      exact isNumeral_head (by simpa [isNumeral] using hwhole : isNumeral (d :: whole)) d rfl
  obtain rfl := sign_cases hsign hc hhead heq
  exact ⟨[], by decide, whole, hwhole, places, hplaces, rfl⟩

/-- Behind the sign of a number there is a number. -/
theorem Rule.IsNumber.scan_unsigned {r : Rule} {T : List Char → Prop} (hr : r.IsNumber T) {c : Char}
    (hunsigned : ∀ {cs}, T (c :: cs) → T cs) (hspans : here.Spans [c] mid)
    (h : (Pattern.rule r).scan false here ≠ none) : mid.IsTight ∧
    (Pattern.rule r).scan false mid ≠ none := by
  obtain ⟨⟨next, ts⟩, hscan⟩ := Option.ne_none_iff_exists'.mp h
  obtain ⟨cs, hcs, hnext⟩ := hr.exists_text hscan
  obtain ⟨d, cs, rfl⟩ := List.exists_cons_of_ne_nil (hr.ne_nil hcs)
  have hrest : d :: (cs ++ next.rest) = c :: mid.rest := hnext.rest.symm.trans hspans.rest
  obtain ⟨rfl, htail⟩ := List.cons.inj hrest
  have hcs' := hunsigned hcs
  refine ⟨?_, hr.scan_ne_none hcs' ⟨next.rest, htail⟩⟩
  obtain ⟨e, cs, rfl⟩ := List.exists_cons_of_ne_nil (hr.ne_nil hcs')
  intro f hf
  rw [← htail] at hf
  cases hf
  exact isPlain_iff.mp (hr.plain hcs') e List.mem_cons_self

/-- Behind a sign with which an operand begins, an operand begins. -/
theorem Rule.scan_unsigned {c : Char} (hspans : here.Spans [c] mid) (hc : c = '+' ∨ c = '-')
    (h : (Pattern.rule .factor).scan false here ≠ none) :
    mid.IsTight ∧ (Pattern.rule .factor).scan false mid ≠ none := by
  have hhead : here.rest.head? = some c := by
    rw [hspans.rest]
    rfl
  have hletter : NoLetter here.rest := by
    intro d hd
    cases hhead.symm.trans hd
    rcases hc with rfl | rfl <;> rfl
  have hother : ∀ d ∈ ['"', '('], here.rest.head? ≠ some d := by
    intro d hd hsome
    cases hhead.symm.trans hsome
    rcases hc with rfl | rfl <;> simp at hd
  obtain ⟨r, hr, hmatch⟩ := exists_of_scan_factor hletter h
  simp only [List.mem_cons, List.not_mem_nil, or_false] at hr
  rcases hr with rfl | rfl | rfl | rfl
  · obtain ⟨htight, hnumber⟩ :=
      isNumber_float.scan_unsigned (IsFloatText.of_sign · hc) hspans hmatch
    exact ⟨htight, (scan_choice_ne_none_iff (by decide)).mpr ⟨.float, by decide, hnumber⟩⟩
  · obtain ⟨htight, hnumber⟩ := isNumber_int.scan_unsigned (IsIntText.of_sign · hc) hspans hmatch
    exact ⟨htight, (scan_choice_ne_none_iff (by decide)).mpr ⟨.int, by decide, hnumber⟩⟩
  · exact absurd (fails_string (hother '"' (by decide))).scan_eq_none hmatch
  · have hgrouped : (Pattern.rule .grouped).Fails false here.rest :=
      .rule (.seq_left (.char (hother '(' (by decide))))
    exact absurd hgrouped.scan_eq_none hmatch

end Which

/-! ### What follows -/

/-- The characters with which an expression is closed, or separated from the next one. -/
def closers : List Char := [')', ',', ';', '\x7d', ']']

/-- The characters with which something begins that may follow an expression. -/
def startsNext (c : Char) : Bool := startsFactor c || ('!' :: '\x7b' :: closers).contains c

/-- What may follow an expression around the offset. -/
structure Cursor.FollowsExpr (cut : Nat) (next : Cursor) : Prop where
  skips : next.SkipsAround cut
  follows : (∀ c ∈ (Mode.skip {} next).rest.head?, c ∈ closers) ∨
    (Pattern.seq (.rule .elseKw) (.rule .expr)).scan false (Mode.skip {} next) ≠ none ∨
    ∃ last ts, (Pattern.rule .expr).MatchesAround cut (Mode.skip {} next) last ts

/-- What may follow an operand around the offset: a parenthesis has to open an expression, and an
arrow has to stand in front of one. -/
structure Cursor.FollowsOperand (cut : Nat) (next : Cursor) : Prop where
  skips : next.SkipsAround cut
  bracket : (Mode.skip {} next).rest.head? ≠ some '['
  paren : (Mode.skip {} next).rest.head? = some '(' →
    (Pattern.rule .grouped).scan false (Mode.skip {} next) ≠ none
  arrow : ∀ mid, (Mode.skip {} next).Spans ['<', '-'] mid →
    (Pattern.rule .expr).scan false (Mode.skip {} mid) ≠ none

/-- What may follow a run of operands around the offset: an operator has to be one of the run. -/
structure Cursor.FollowsRun (cut : Nat) (next : Cursor) : Prop extends next.FollowsOperand cut where
  infixOp : joint.scan false (Mode.skip {} next) = none →
    (Pattern.rule .infixOp).scan false (Mode.skip {} next) = none

section Follows

variable {cut : Nat} {next : Cursor}

/-- No expression begins with the sign of an inequality. -/
theorem Rule.fails_expr_ne (rest : List Char) :
    (Pattern.rule .expr).Fails false ('!' :: '=' :: rest) := by
  have hletter : NoLetter ('!' :: '=' :: rest) := noLetter_cons rfl _
  have hsign : (Pattern.rule .prefixOp).Reads false ['!'] ('=' :: rest) [Tree.IsNode .not []] := by
    refine reads_choice (by decide) (r := .not) (by decide)
      (fun q hq => absurd hq List.not_mem_nil) ?_
    exact .node rfl rfl (.text ['!'] _)
  have htight : Tight false ('=' :: rest) := tight_cons rfl rest
  have hequals : ∀ c ∈ ('=' :: rest).head?, startsFactor c = false := by
    rintro c ⟨⟩
    decide
  have hstop : (Pattern.rule .prefixOp).Fails false ('=' :: rest) := by
    refine fails_operator (by decide) fun c hc r hr => ?_
    cases hc
    cases List.mem_singleton.mp hr
    decide
  have hsigns : (Pattern.star (.rule .prefixOp)).Reads false ['!'] ('=' :: rest)
      [Tree.IsNode .not []] :=
    (Continues.last rfl (tight_cons rfl _) hsign (.stop rfl htight hstop)).star
      rfl (tight_cons rfl _)
  have hsimple : (Pattern.rule .simple).Fails false ('!' :: '=' :: rest) :=
    .rule (Fails.seq_right hsigns htight (.seq_left (fails_factor hequals)))
  have hkinds : ∀ r ∈ expr.leaves, r.opening = none → r = assignment ∨ r = compound ∨
      r = arith := by decide
  refine fails_choice (by decide) fun r hr => ?_
  cases hopening : r.opening with
  | some k =>
    exact fails_opened hopening fun heq =>
      hletter.not_opening (heq ▸ mem_openings hr hopening)
  | none =>
    rcases hkinds r hr hopening with rfl | rfl | rfl
    · exact fails_assignment hletter.not_word.1
    · exact fails_compound (by simp)
    · exact .rule (.seq_left hsimple)

theorem isReserved_elseKw : Rule.elseKw.IsReserved ['e', 'l', 's', 'e'] :=
  ⟨rfl, rfl, rfl, by decide⟩

theorem head?_of_firstWord {text w : List Char} {c : Char} (h : firstWord text = c :: w) :
    text.head? = some c := by
  obtain ⟨v, rest, rfl, hall, hrest⟩ := exists_firstWord text
  rw [firstWord_append hall hrest] at h
  rw [h]
  rfl

namespace Cursor.FollowsExpr

/-- What neither closes nor branches is an expression. -/
theorem scan_expr (h : next.FollowsExpr cut) {c : Char}
    (hhead : (Mode.skip {} next).rest.head? = some c)
    (hc : c ∉ 'e' :: closers) : (Pattern.rule .expr).scan false (Mode.skip {} next) ≠ none := by
  obtain ⟨hne, hcloser⟩ := List.ne_and_not_mem_of_not_mem_cons hc
  rcases h.follows with hclose | helse | ⟨last, ts, hmatch⟩
  · exact absurd (hclose c hhead) hcloser
  · obtain ⟨mid, us, hword, -⟩ := exists_of_scan_seq_ne_none helse
    obtain ⟨hfirst, -⟩ := isReserved_elseKw.isWord.of_scan hword
    cases hhead.symm.trans (head?_of_firstWord hfirst)
    exact absurd rfl hne
  · exact hmatch.ne_none

/-- With other characters nothing begins that follows an expression. -/
theorem head?_ne (h : next.FollowsExpr cut) {c : Char} (hc : startsNext c = false) :
    (Mode.skip {} next).rest.head? ≠ some c := by
  intro hhead
  simp only [startsNext, Bool.or_eq_false_iff, List.contains_eq_mem, decide_eq_false_iff_not,
    List.mem_cons, not_or] at hc
  obtain ⟨hfactor, hbang, hbrace, hcloser⟩ := hc
  have hfails : (Pattern.rule .expr).Fails false (Mode.skip {} next).rest := by
    refine Rule.fails_expr fun d hd => ?_
    have htight := Cursor.IsTight.skip next d hd
    cases hhead.symm.trans hd
    exact ⟨hfactor, htight, hbang, hbrace⟩
  refine h.scan_expr hhead (fun hmem => ?_) hfails.scan_eq_none
  rcases List.mem_cons.mp hmem with rfl | hmem
  · cases hfactor
  · exact hcloser hmem

/-- Of the operators, only signs and the one that begins with a negation stand where an expression
can. -/
theorem not_spans_symbol (h : next.FollowsExpr cut) {r : Rule} {mid : Cursor}
    (hr : r ∈ Rule.infixOp.leaves ++ Rule.relOp.leaves) (hne : r ∉ [.add, .sub, .ne]) :
    ¬(Mode.skip {} next).Spans r.symbol mid := by
  intro hspans
  have hsymbols : ∀ r ∈ Rule.infixOp.leaves ++ Rule.relOp.leaves, r ∉ [Rule.add, .sub, .ne] →
      r.symbol.head?.any (!startsNext ·) = true := by decide
  obtain ⟨c, hc, hstarts⟩ := (Option.any_eq_true _ _).mp (hsymbols r hr hne)
  refine h.head?_ne ((Bool.not_eq_true' _).mp hstarts) ?_
  rw [hspans.rest, List.head?_append, hc]
  rfl

/-- A comparison is over where no operator for one stands. -/
theorem relOp (h : next.FollowsExpr cut) :
    (Pattern.rule .relOp).scan false (Mode.skip {} next) = none := by
  by_contra hsome
  obtain ⟨⟨mid, ts⟩, hscan⟩ := Option.ne_none_iff_exists'.mp hsome
  obtain ⟨r, hr, hspans⟩ := Rule.scan_operator (by decide) hscan
  have hsigns : ∀ r ∈ Rule.relOp.leaves, r ∈ [Rule.add, .sub, .ne] → r = .ne := by decide
  by_cases hmem : r ∈ [Rule.add, .sub, .ne]
  · obtain rfl := hsigns r hr hmem
    have hrest : (Mode.skip {} next).rest = '!' :: '=' :: mid.rest := hspans.rest
    have hfails := Rule.fails_expr_ne mid.rest
    rw [← hrest] at hfails
    exact h.scan_expr (c := '!') (by rw [hrest]; rfl) (by decide) hfails.scan_eq_none
  · exact h.not_spans_symbol (List.mem_append_right _ hr) hmem hspans

/-- A run is over where no operator stands: a sign would have been taken as one. -/
theorem infixOp (h : next.FollowsExpr cut) (hjoint : joint.scan false (Mode.skip {} next) = none) :
    (Pattern.rule .infixOp).scan false (Mode.skip {} next) = none := by
  by_contra hsome
  obtain ⟨⟨mid, ts⟩, hscan⟩ := Option.ne_none_iff_exists'.mp hsome
  obtain ⟨r, hr, hspans⟩ := Rule.scan_operator (by decide) hscan
  have hsigns : ∀ r ∈ Rule.infixOp.leaves, r ∈ [Rule.add, .sub, .ne] → r.symbol = ['+'] ∨
      r.symbol = ['-'] := by
    decide
  by_cases hmem : r ∈ [Rule.add, .sub, .ne]
  · obtain ⟨c, hc, hsymbol⟩ : ∃ c, (c = '+' ∨ c = '-') ∧ r.symbol = [c] := by
      rcases hsigns r hr hmem with heq | heq
      · exact ⟨'+', .inl rfl, heq⟩
      · exact ⟨'-', .inr rfl, heq⟩
    rw [hsymbol] at hspans
    have hhead : (Mode.skip {} next).rest.head? = some c := by
      rw [hspans.rest]
      rfl
    have hletter : NoLetter (Mode.skip {} next).rest := by
      intro d hd
      cases hhead.symm.trans hd
      rcases hc with rfl | rfl <;> rfl
    have hother : ∀ d ∈ (Mode.skip {} next).rest.head?, d ≠ '!' ∧ d ≠ '\x7b' := by
      intro d hd
      cases hhead.symm.trans hd
      rcases hc with rfl | rfl <;> decide
    have hexpr : (Pattern.rule .expr).scan false (Mode.skip {} next) ≠ none := by
      refine h.scan_expr hhead ?_
      rcases hc with rfl | rfl <;> decide
    obtain ⟨htight, hfactor⟩ :=
      Rule.scan_unsigned hspans hc
        ((Rule.scan_expr_ne_none_iff (.skip next) hletter hother).mp hexpr)
    refine absurd hjoint ((scan_seq_ne_none_iff hscan).mpr ?_)
    have hbang := Rule.head?_ne_of_scan_factor hfactor
    rw [htight.skip_eq]
    refine (scan_seq_ne_none_iff (scan_star_of_none (Rule.scan_prefixOp_eq_none hbang))).mpr ?_
    rwa [htight.skip_eq]
  · exact h.not_spans_symbol (List.mem_append_left _ hr) hmem hspans

theorem followsOperand (h : next.FollowsExpr cut) : next.FollowsOperand cut where
  skips := h.skips
  bracket := h.head?_ne (by decide)
  paren hhead := by
    have hletter : NoLetter (Mode.skip {} next).rest := by
      intro c hc
      cases hhead.symm.trans hc
      rfl
    have hother : ∀ c ∈ (Mode.skip {} next).rest.head?, c ≠ '!' ∧ c ≠ '\x7b' := by
      intro c hc
      cases hhead.symm.trans hc
      decide
    have hexpr := h.scan_expr hhead (by decide)
    exact Rule.scan_grouped_ne_none hhead
      ((Rule.scan_expr_ne_none_iff (.skip next) hletter hother).mp hexpr)
  arrow mid hspans := by
    refine absurd ?_ (h.head?_ne (c := '<') (by decide))
    rw [hspans.rest]
    rfl

theorem followsRun (h : next.FollowsExpr cut) : next.FollowsRun cut :=
  { h.followsOperand with infixOp := h.infixOp }

end Cursor.FollowsExpr

/-- An operator of a run may follow an operand. -/
theorem Cursor.FollowsOperand.of_infixOp (hskips : next.SkipsAround cut)
    (h : (Pattern.rule .infixOp).scan false (Mode.skip {} next) ≠ none) :
    next.FollowsOperand cut := by
  obtain ⟨⟨mid, ts⟩, hscan⟩ := Option.ne_none_iff_exists'.mp h
  obtain ⟨r, hr, hspans⟩ := Rule.scan_operator (by decide) hscan
  have hsymbols : ∀ r ∈ Rule.infixOp.leaves, r.symbol ≠ [] ∧ r.symbol.head? ≠ some '[' ∧
    r.symbol.head? ≠ some '(' ∧ r.symbol.head? ≠ some '<' := by decide
  obtain ⟨hne, hbracket, hparen, harrow⟩ := hsymbols r hr
  have hsame : (Mode.skip {} next).rest.head? = r.symbol.head? := by
    rw [hspans.rest, List.head?_append_of_ne_nil _ hne]
  rw [← hsame] at hbracket hparen harrow
  exact
    { skips := hskips
      bracket := hbracket
      paren := fun hopen => absurd hopen hparen
      arrow := fun mid hspans' => absurd (by rw [hspans'.rest]; rfl) harrow }

/-- A comparison may follow a run. An arrow would be one with a negative number. -/
theorem Cursor.FollowsRun.of_relOp (hskips : next.SkipsAround cut)
    (h : (Pattern.seq (.rule .relOp) (.rule .simple)).scan false (Mode.skip {} next) ≠ none) :
    next.FollowsRun cut := by
  obtain ⟨mid, ts, hscan, h⟩ := exists_of_scan_seq_ne_none h
  obtain ⟨r, hr, hspans⟩ := Rule.scan_operator (by decide) hscan
  have hsymbols : ∀ r ∈ Rule.relOp.leaves, r.symbol ≠ [] ∧ r.symbol.head? ≠ some '[' ∧
    r.symbol.head? ≠ some '(' ∧ ∀ s ∈ Rule.infixOp.leaves, s.symbol.head? ≠ r.symbol.head? := by
      decide
  obtain ⟨hne, hbracket, hparen, hinfix⟩ := hsymbols r hr
  have hsame : (Mode.skip {} next).rest.head? = r.symbol.head? := by
    rw [hspans.rest, List.head?_append_of_ne_nil _ hne]
  refine ⟨⟨hskips, ?_, ?_, ?_⟩, ?_⟩
  · rw [hsame]
    exact hbracket
  · rw [hsame]
    exact fun hopen => absurd hopen hparen
  · intro there harrow
    have hless : ∀ r ∈ Rule.relOp.leaves, r.symbol <+: ['<', '-'] → r.symbol = ['<'] := by decide
    have hlength : ∀ r ∈ Rule.relOp.leaves, r.symbol.length ≤ ['<', '-'].length := by decide
    have hprefix : r.symbol <+: ['<', '-'] ++ there.rest :=
      ⟨mid.rest, hspans.rest.symm.trans harrow.rest⟩
    have hsymbol :=
      hless r hr (List.prefix_of_prefix_length_le hprefix (List.prefix_append _ _) (hlength r hr))
    -- the comparison is with a negative number, which is an expression without its sign
    rw [hsymbol] at hspans
    have hrest : mid.rest = '-' :: there.rest := by
      have heq : '<' :: mid.rest = '<' :: '-' :: there.rest := hspans.rest.symm.trans harrow.rest
      exact (List.cons.inj heq).2
    have hmid : mid.IsTight := by
      rw [Cursor.IsTight, hrest]
      rintro c ⟨⟩
      rfl
    have hminus : mid.Spans ['-'] there := by
      refine ⟨hrest, ?_⟩
      rw [harrow.pos, hspans.pos]
      rfl
    rw [hmid.skip_eq, Rule.scan_simple_ne_none_iff hmid (by simp [hrest])] at h
    obtain ⟨hthere, hfactor⟩ := Rule.scan_unsigned hminus (.inr rfl) h
    rw [hthere.skip_eq]
    exact Rule.scan_expr_of_factor hthere hfactor
  · intro _
    refine (Rule.fails_operator (by decide) fun c hc s hs hsymbol => ?_).scan_eq_none
    exact hinfix s hs (hsymbol.trans (hc.symm.trans hsame))

end Follows

end ScopeScript
