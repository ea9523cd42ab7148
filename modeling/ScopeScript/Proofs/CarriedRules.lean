import ScopeScript.Proofs.FirstWords

/-!
# Expressions are carried over

One lemma for each rule that holds expressions, on the assumption that expressions in a shorter rest
of the text are carried over. By induction on the bound all expressions are
(`Rule.carriedBelow_expr`).

Where a rule begins with a token, the expressions in it have less text ahead, and the bound goes
down. A computation and an assignment may begin with an expression's own text; for them the operands
come first.
-/

namespace ScopeScript

open Pattern

section Rules

variable {i : Insertion} {n : Nat} {F : Cursor → Prop} {c : Char} {cs : List Char}

/-! ### Tokens -/

theorem Rule.alwaysCarried_ident : (Pattern.rule .ident).AlwaysCarried i :=
  fun _ _ _ h => isWord_ident.carries rfl rfl h

theorem Rule.IsReserved.alwaysCarried {r : Rule} {k : List Char} (hr : r.IsReserved k) :
    (Pattern.rule r).AlwaysCarried i := fun _ _ _ h => hr.carries h

/-! ### Lists of names and of arguments -/

/-- A list that may be empty, up to a parenthesis. -/
theorem Pattern.CarriedBelow.optList {p : Pattern} (hp : p.CarriedBelow i n (·.FollowsExpr i.cut))
    (hfails : ∀ rest : List Char, rest.head? = some ')' → p.Fails false rest) :
    (Pattern.opt (.seq p (Pattern.star (.seq (char ',') p)))).CarriedBelow
      i n (·.FollowedBy i.cut ')') := by
  refine hp.list.opt fun here hhere _ hnext => ?_
  have hhead := hnext.head
  rw [hhere.skip_eq] at hhead
  apply Refuses.seq_left
  intro rest hmoves
  exact hfails rest (hmoves.head?_eq.trans hhead)

theorem Rule.carriedBelow_params :
    (Pattern.rule .params).CarriedBelow i n (·.FollowedBy i.cut ')') := by
  refine .rule rfl (alwaysCarried_ident.below.optList fun rest hhead => ?_)
  exact (noLetter_of_head hhead rfl).fails_ident

section Expr

variable (hexpr : (Pattern.rule .expr).CarriedBelow i n (·.FollowsExpr i.cut))
include hexpr

theorem Rule.carriedBelow_args :
    (Pattern.rule .args).CarriedBelow i n (·.FollowedBy i.cut ')') := by
  refine .rule rfl (hexpr.optList fun rest hhead => fails_expr fun d hd => ?_)
  cases hhead.symm.trans hd
  decide

/-- An expression in front of a character that closes it. -/
theorem Pattern.CarriedBelow.enclosed {q : Pattern} (hopens : q.OpensWith c) (hc : c ∈ closers)
    (hq : q.CarriedBelow i n F) : (Pattern.seq (.rule .expr) q).CarriedBelow i n F :=
  (hexpr.imp (Nat.le_refl n) fun _ hnext => hnext.followsExpr hc).closed hopens hq

/-- An expression in parentheses, and what comes next. -/
theorem Pattern.CarriedBelow.parens_then {q : Pattern} (hq : q.CarriedBelow i n F) :
    (Pattern.seq (char '(') (.seq (.rule .expr) (.seq (char ')') q))).CarriedBelow i n F :=
  (alwaysCarried_char '(').seq
    (hexpr.enclosed (opensWith_char ')').seq (by decide) ((alwaysCarried_char ')').seq hq))

theorem Pattern.CarriedBelow.parens :
    (Pattern.seq (char '(') (.seq (.rule .expr) (char ')'))).CarriedBelow i n F :=
  (alwaysCarried_char '(').seq
    (hexpr.enclosed (opensWith_char ')') (by decide) (alwaysCarried_char ')').below)

/-! ### Operands -/

theorem Rule.carriedBelow_call : (Pattern.rule .call).CarriedBelow i (n + 1) F :=
  .rule rfl (alwaysCarried_ident.first rfl ((alwaysCarried_char '(').seq
    ((carriedBelow_args hexpr).closed (opensWith_char ')') (alwaysCarried_char ')').below)))

theorem Rule.carriedBelow_brackets : Rule.index.body.CarriedBelow i n F :=
  (alwaysCarried_text ['[', '[']).seq
    (hexpr.enclosed (opensWith_text ']' [']']) (by decide) (alwaysCarried_text [']', ']']).below)

theorem Rule.carriedBelow_singleElement : (Pattern.rule .singleElement).CarriedBelow i (n + 1) F :=
  .rule rfl (alwaysCarried_ident.first rfl (carriedBelow_brackets hexpr))

theorem Rule.carriedBelow_grouped : (Pattern.rule .grouped).CarriedBelow i (n + 1) F :=
  .rule rfl ((alwaysCarried_char '(').first rfl
    (hexpr.enclosed (opensWith_char ')') (by decide) (alwaysCarried_char ')').below))

/-! ### Expressions that open with a word -/

omit hexpr in
/-- A branch that was taken, or an expression that follows, or something that closes. -/
theorem Cursor.FollowsExpr.of_branch {mid next : Cursor} {ts : List Tree}
    (hskips : mid.SkipsAround i.cut)
    (h : (Pattern.opt (.seq (.rule .elseKw) (.rule .expr))).MatchesAround
      i.cut (Mode.skip {} mid) next ts)
    (hnext : next.FollowsExpr i.cut) : mid.FollowsExpr i.cut := by
  rcases h.opt with hbranch | ⟨-, rfl, -⟩
  · exact ⟨hskips, .inr (.inl hbranch.ne_none)⟩
  · exact hnext.of_skip hskips

/-- The branches of a condition. -/
theorem Rule.carriedBelow_branches :
    (Pattern.seq (.rule .expr) (.opt (.seq (.rule .elseKw) (.rule .expr)))).CarriedBelow i n
      (·.FollowsExpr i.cut) := by
  have hbranch :
      (Pattern.opt (.seq (.rule .elseKw) (.rule .expr))).CarriedBelow i n (·.FollowsExpr i.cut) :=
    (isReserved_elseKw.alwaysCarried.seq hexpr).opt fun here hhere hnone hnext =>
      hnext.refuses_else hhere hnone
  exact hexpr.seq hbranch fun mid next qs hskips hmatch hnext => .of_branch hskips hmatch hnext

theorem Rule.carriedBelow_if :
    (Pattern.rule .ifExpr).CarriedBelow i (n + 1) (·.FollowsExpr i.cut) := by
  have hword : ifKw.IsReserved ['i', 'f'] := ⟨rfl, rfl, rfl, by decide⟩
  exact .rule rfl (hword.alwaysCarried.first rfl (hexpr.parens_then (carriedBelow_branches hexpr)))

theorem Rule.carriedBelow_while :
    (Pattern.rule .whileExpr).CarriedBelow i (n + 1) (·.FollowsExpr i.cut) := by
  have hword : whileKw.IsReserved ['w', 'h', 'i', 'l', 'e'] := ⟨rfl, rfl, rfl, by decide⟩
  exact .rule rfl (hword.alwaysCarried.first rfl (hexpr.parens_then hexpr))

theorem Rule.carriedBelow_for :
    (Pattern.rule .forExpr).CarriedBelow i (n + 1) (·.FollowsExpr i.cut) := by
  have hfor : forKw.IsReserved ['f', 'o', 'r'] := ⟨rfl, rfl, rfl, by decide⟩
  have hin : inKw.IsReserved ['i', 'n'] := ⟨rfl, rfl, rfl, by decide⟩
  have hlist :
      (Pattern.seq (.rule .expr) (.seq (char ')') (.rule .expr))).CarriedBelow
        i n (·.FollowsExpr i.cut) :=
    hexpr.enclosed (opensWith_char ')').seq (by decide) ((alwaysCarried_char ')').seq hexpr)
  exact .rule rfl (hfor.alwaysCarried.first rfl
    ((alwaysCarried_char '(').seq (alwaysCarried_ident.seq (hin.alwaysCarried.seq hlist))))

/-- A word in front of an expression in parentheses. -/
theorem Rule.IsReserved.carriedBelow_parens {r s : Rule} {k : List Char} (hs : s.IsReserved k)
    (hnull : s.isNullable = false) (hr : r.isAtomic = false)
    (hbody : r.body = .seq (.rule s) (.seq (char '(') (.seq (.rule .expr) (char ')')))) :
    (Pattern.rule r).CarriedBelow i (n + 1) F := by
  refine .rule hr ?_
  rw [hbody]
  exact hs.alwaysCarried.first hnull hexpr.parens

/-! ### Blocks and functions -/

omit hexpr in
/-- In front of the end of a block, or of a further expression in it, an expression is over. -/
theorem Cursor.FollowsExpr.of_semicolon {q : Pattern} {mid next : Cursor} {ts : List Tree}
    (hskips : mid.SkipsAround i.cut)
    (h : (Pattern.seq (.opt (char ';')) q).MatchesAround i.cut (Mode.skip {} mid) next ts)
    (hfollow : ∀ there us, q.MatchesAround i.cut (Mode.skip {} mid) there us →
      mid.FollowsExpr i.cut) :
    mid.FollowsExpr i.cut := by
  obtain ⟨there, ps, qs, hoption, -, hrest, -⟩ := h.seq
  rcases hoption.opt with hsemicolon | ⟨-, rfl, -⟩
  · exact ((opensWith_char ';').followedBy hskips hsemicolon).followsExpr (by decide)
  · rw [Cursor.skip_skip] at hrest
    exact hfollow next qs hrest

end Expr

/-- What follows the expressions of a block. -/
structure Cursor.EndsBlock (cut : Nat) (next : Cursor) : Prop where
  skips : next.SkipsAround cut
  ends : ∃ last ts,
  (Pattern.seq (.opt (char ';')) (char '\x7d')).MatchesAround cut (Mode.skip {} next) last ts

theorem Pattern.alwaysCarried_semicolon : (Pattern.opt (char ';')).AlwaysCarried i :=
  alwaysCarried_opt_text (by decide)

theorem Cursor.EndsBlock.followsExpr {next : Cursor} (h : next.EndsBlock i.cut) :
    next.FollowsExpr i.cut := by
  obtain ⟨hskips, last, ts, hends⟩ := h
  refine .of_semicolon hskips hends fun there us hbrace => ?_
  exact ((opensWith_char '\x7d').followedBy hskips hbrace).followsExpr (by decide)

/-- At its end a block holds no further expression. -/
theorem Cursor.EndsBlock.refuses {next : Cursor} (h : next.EndsBlock i.cut) :
    (Pattern.seq (.opt (char ';')) (.rule .expr)).Refuses i (Mode.skip {} next) := by
  obtain ⟨-, last, ts, hends⟩ := h
  obtain ⟨mid, ps, qs, hoption, hskips, hbrace, -⟩ := hends.seq
  refine (alwaysCarried_semicolon _ mid ps hoption).refuses_seq hskips fun rest hmoves => ?_
  have hhead := opensWith_char '\x7d' _ _ _ hbrace.scan
  rw [← hmoves.head?_eq] at hhead
  refine Rule.fails_expr fun c hc => ?_
  cases hhead.symm.trans hc
  decide

/-- In front of a further expression of a block, an expression is over. -/
theorem Cursor.FollowsExpr.of_round {mid next : Cursor} {ts : List Tree}
    (hskips : mid.SkipsAround i.cut)
    (h : (Pattern.seq (.opt (char ';')) (.rule .expr)).MatchesAround
      i.cut (Mode.skip {} mid) next ts) :
    mid.FollowsExpr i.cut :=
  .of_semicolon hskips h fun there us hmatch => ⟨hskips, .inr (.inr ⟨there, us, hmatch⟩)⟩

section Expr

variable (hexpr : (Pattern.rule .expr).CarriedBelow i n (·.FollowsExpr i.cut))
include hexpr

theorem Rule.carriedBelow_compound : (Pattern.rule .compound).CarriedBelow i (n + 1) F := by
  have hend : (Pattern.seq (.opt (char ';')) (char '\x7d')).CarriedBelow i n F :=
    alwaysCarried_semicolon.seq (alwaysCarried_char '\x7d').below
  have hrounds :
      (Pattern.star (.seq (.opt (char ';')) (.rule .expr))).CarriedBelow i n (·.EndsBlock i.cut) :=
    (alwaysCarried_semicolon.seq hexpr).star rfl (fun next hnext =>
      ⟨hnext.skips, hnext.followsExpr⟩)
      (fun mid there us hskips hround => .of_round hskips hround) fun next _ hnext => hnext.refuses
  refine .rule rfl ((alwaysCarried_char '\x7b').first rfl (hexpr.seq (hrounds.seq hend ?_) ?_))
  · exact fun mid next qs hskips hmatch _ => ⟨hskips, next, qs, hmatch⟩
  · intro mid next qs hskips hmatch _
    obtain ⟨there, ps, qs, hstar, hskips', hrest, -⟩ := hmatch.seq
    have hthere : there.EndsBlock i.cut := ⟨hskips', next, qs, hrest⟩
    have hfollows := (hstar.star rfl (.skip mid)).holds hthere.followsExpr
      fun mid there us hskips hround => .of_round hskips hround
    exact hfollows.of_skip hskips

theorem Rule.carriedBelow_function : (Pattern.rule .functionDef).CarriedBelow i (n + 1) F := by
  have hword : functionKw.IsReserved ['f', 'u', 'n', 'c', 't', 'i', 'o', 'n'] :=
    ⟨rfl, rfl, rfl, by decide⟩
  have hbody : (Pattern.rule .compound).CarriedBelow i n F :=
    (carriedBelow_compound hexpr).imp (Nat.le_succ n) fun _ hnext => hnext
  exact .rule rfl (hword.alwaysCarried.first rfl ((alwaysCarried_char '(').seq
    (carriedBelow_params.closed (opensWith_char ')').seq ((alwaysCarried_char ')').seq hbody))))

theorem Rule.carriedBelow_assignment :
    (Pattern.rule .assignment).CarriedBelow i (n + 1) (·.FollowsExpr i.cut) := by
  have hindex : (Pattern.opt (.rule .index)).CarriedBelow i n (·.FollowedBy i.cut '<') := by
    refine (CarriedBelow.rule rfl (carriedBelow_brackets hexpr)).opt
      fun here hhere _ hnext => .rule rfl ?_
    have hhead := hnext.head
    rw [hhere.skip_eq] at hhead
    refine Refuses.seq_left (refuses_text_of_head ?_)
    rw [hhead]
    decide
  exact .rule rfl (alwaysCarried_ident.first rfl
    (hindex.closed (opensWith_text '<' ['-']).seq ((alwaysCarried_text ['<', '-']).seq hexpr)))

end Expr

/-! ### Other expressions that open with a word -/

/-- A word in front of parentheses with nothing between them. -/
theorem Rule.IsReserved.carriedBelow_unit {r s : Rule} {k : List Char} (hs : s.IsReserved k)
    (hr : r.isAtomic = false) (hbody : r.body = .seq (.rule s) (.seq (char '(') (char ')'))) :
    (Pattern.rule r).CarriedBelow i n F := by
  refine .rule hr ?_
  rw [hbody]
  exact hs.alwaysCarried.seq ((alwaysCarried_char '(').seq (alwaysCarried_char ')').below)

theorem Rule.carriedBelow_list : (Pattern.rule .listExpr).CarriedBelow i n F := by
  have hword : listKw.IsReserved ['l', 'i', 's', 't'] := ⟨rfl, rfl, rfl, by decide⟩
  exact .rule rfl (hword.alwaysCarried.seq ((alwaysCarried_char '(').seq (alwaysCarried_constant.seq
    (alwaysCarried_constant.below.members.closed (opensWith_char ')')
      (alwaysCarried_char ')').below))))

end Rules

/-! ### Choosing an operand -/

section Factor

variable {i : Insertion} {n : Nat} {F : Cursor → Prop} {r : Rule} {here mid next : Cursor}
  {ts us : List Tree}

/-- A name in front of an expression in parentheses is a call. -/
theorem Rule.scan_call_ne_none (hname : (Pattern.rule .ident).scan false here = some (mid, ts))
    (hgrouped : (Pattern.rule .grouped).scan false (Mode.skip {} mid) ≠ none) :
    (Pattern.rule .call).scan false here ≠ none := by
  have hbody := (scan_ne_none_iff rfl).mp hgrouped
  change (Pattern.seq (char '(') (.seq (.rule .expr) (char ')'))).scan false _ ≠ none at hbody
  obtain ⟨opened, us, hopen, hbody⟩ := exists_of_scan_seq_ne_none hbody
  obtain ⟨last, vs, harg, hclosed⟩ := exists_of_scan_seq_ne_none hbody
  -- behind the first argument stands the parenthesis, so that there is no other argument
  have hclose : (Mode.skip {} last).rest.head? = some ')' := by
    obtain ⟨⟨there, ws⟩, hscan⟩ := Option.ne_none_iff_exists'.mp hclosed
    exact opensWith_char ')' _ _ _ hscan
  have hcomma : (Pattern.seq (char ',') (.rule .expr)).scan false (Mode.skip {} last) = none := by
    refine scan_seq_eq_none (Fails.scan_eq_none (.char ?_))
    rw [hclose]
    decide
  have hargs := scan_seq_of_scan harg (scan_star_of_none hcomma)
  have hlist := Rule.scan_of_body (r := .args) rfl (scan_opt_of_scan hargs)
  rw [scan_ne_none_iff rfl]
  refine (scan_seq_ne_none_iff hname).mpr ((scan_seq_ne_none_iff hopen).mpr ?_)
  refine (scan_seq_ne_none_iff hlist).mpr ?_
  rwa [Cursor.skip_skip]

theorem Rule.refuses_call (hname : (Pattern.rule .ident).MatchesAround i.cut here mid ts)
    (hskips : mid.SkipsAround i.cut) (hhead : (Mode.skip {} mid).rest.head? ≠ some '(') :
    (Pattern.rule .call).Refuses i here :=
  .rule rfl
    ((alwaysCarried_ident _ _ _ hname).refuses_seq hskips (Refuses.seq_left (refuses_char hhead)))

theorem Rule.refuses_singleElement (hname : (Pattern.rule .ident).MatchesAround i.cut here mid ts)
    (hskips : mid.SkipsAround i.cut) (hhead : (Mode.skip {} mid).rest.head? ≠ some '[') :
    (Pattern.rule .singleElement).Refuses i here :=
  .rule rfl
    ((alwaysCarried_ident _ _ _ hname).refuses_seq hskips
      (Refuses.seq_left (refuses_text_of_head hhead)))

/-- What was tried before an operand is not there in the new text. -/
theorem Rule.refuses_before_factor (hr : r ∈ factor.leaves)
    (h : (Pattern.rule r).MatchesAround i.cut here next ts)
    (hbefore : ∀ q ∈ factor.leaves.takeWhile (· != r), q.scan false here = none)
    (hnext : next.FollowsOperand i.cut) :
    ∀ q ∈ factor.leaves.takeWhile (· != r), (Pattern.rule q).Refuses i here := by
  have hconstants : ∀ r ∈ constant.leaves,
      factor.leaves.takeWhile (· != r) = constant.leaves.takeWhile (· != r) := by decide
  change r ∈ constant.leaves ++ [call, singleElement, ident, grouped] at hr
  rcases List.mem_append.mp hr with hr | hr
  · rw [hconstants r hr] at hbefore ⊢
    exact refuses_before_constant hr h hbefore
  · simp only [List.mem_cons, List.not_mem_nil, or_false] at hr
    rcases hr with rfl | rfl | rfl | rfl
    · obtain ⟨mid, us, hname⟩ := exists_ident (by decide) h
      exact refuses_constant_of_ident hname
    · obtain ⟨us, hbody, -⟩ := h.body rfl
      obtain ⟨mid, ps, qs, hname, hskips, hindex, -⟩ := hbody.seq
      change ∀ q ∈ constant.leaves ++ [call], _
      refine List.forall_mem_append.mpr ⟨refuses_constant_of_ident hname,
        List.forall_mem_singleton.mpr ?_⟩
      refine refuses_call hname hskips ?_
      rw [(opensWith_text '[' ['[']).seq _ _ _ hindex.scan]
      decide
    · change ∀ q ∈ constant.leaves ++ [call, singleElement], _
      refine List.forall_mem_append.mpr ⟨refuses_constant_of_ident h, ?_⟩
      refine List.forall_mem_cons.mpr ⟨?_, List.forall_mem_singleton.mpr ?_⟩
      · refine refuses_call h hnext.skips fun hparen => ?_
        exact scan_call_ne_none h.scan (hnext.paren hparen) (hbefore call (by decide))
      · exact refuses_singleElement h hnext.skips hnext.bracket
    · obtain ⟨us, hbody, -⟩ := h.body rfl
      exact refuses_of_paren ((opensWith_char '(').seq _ _ _ hbody.scan)

theorem Rule.carriedBelow_factor
    (hexpr : (Pattern.rule .expr).CarriedBelow i n (·.FollowsExpr i.cut)) :
    (Pattern.rule .factor).CarriedBelow i (n + 1) (·.FollowsOperand i.cut) := by
  intro here next ts hhere hlt h hnext
  obtain ⟨r, hr, hbefore, hmatch⟩ := h.choice (by decide)
  have hcarried : (Pattern.rule r).CarriedBelow i (n + 1) fun _ => True := by
    change r ∈ constant.leaves ++ [call, singleElement, ident, grouped] at hr
    rcases List.mem_append.mp hr with hr | hr
    · exact (alwaysCarried_of_constant hr).below
    · simp only [List.mem_cons, List.not_mem_nil, or_false] at hr
      rcases hr with rfl | rfl | rfl | rfl
      · exact carriedBelow_call hexpr
      · exact carriedBelow_singleElement hexpr
      · exact alwaysCarried_ident.below
      · exact carriedBelow_grouped hexpr
  exact .choice (by decide) hr (refuses_before_factor hr hmatch hbefore hnext)
    (hcarried here next ts hhere hlt hmatch trivial)

end Factor

/-! ### Computations -/

section Computations

variable {i : Insertion} {n : Nat} {mid next : Cursor} {ts : List Tree}

theorem Cursor.FollowsOperand.of_joint (hskips : mid.SkipsAround i.cut)
    (h : joint.MatchesAround i.cut (Mode.skip {} mid) next ts) : mid.FollowsOperand i.cut := by
  obtain ⟨there, ps, qs, hoperator, -⟩ := h.seq
  exact .of_infixOp hskips hoperator.ne_none

/-- What follows the first operand of a run. -/
theorem Cursor.FollowsOperand.of_joints (hskips : mid.SkipsAround i.cut)
    (h : (Pattern.star joint).MatchesAround i.cut (Mode.skip {} mid) next ts)
    (hnext : next.FollowsRun i.cut) :
    mid.FollowsOperand i.cut := by
  refine .of_skip ?_ hskips
  exact (h.star rfl (.skip mid)).holds hnext.toFollowsOperand fun _ _ _ hskips hround =>
    .of_joint hskips hround

/-- What follows the first run of a comparison. -/
theorem Cursor.FollowsRun.of_comparison (hskips : mid.SkipsAround i.cut)
    (h : (Pattern.opt (.seq (.rule .relOp) (.rule .simple))).MatchesAround
      i.cut (Mode.skip {} mid) next ts)
    (hnext : next.FollowsExpr i.cut) : mid.FollowsRun i.cut := by
  rcases h.opt with hpresent | ⟨-, rfl, -⟩
  · exact .of_relOp hskips hpresent.ne_none
  · exact (hnext.of_skip hskips).followsRun

theorem Cursor.FollowsSigns.of_factor (hskips : mid.SkipsAround i.cut)
    (h : (Pattern.rule .factor).MatchesAround i.cut (Mode.skip {} mid) next ts) :
    mid.FollowsSigns i.cut :=
  ⟨hskips, Rule.head?_ne_of_scan_factor h.ne_none⟩

section Factor

variable (hfactor : (Pattern.rule .factor).CarriedBelow i n (·.FollowsOperand i.cut))
include hfactor

theorem Rule.carriedBelow_joints : (Pattern.star joint).CarriedBelow i n (·.FollowsRun i.cut) := by
  have hround : joint.CarriedBelow i n (·.FollowsOperand i.cut) :=
    (alwaysCarried_operator (by decide)).seq
      (carriedBelow_signs.seq hfactor fun _ _ _ hskips hmatch _ => .of_factor hskips hmatch)
  refine hround.star rfl (fun next hnext => ⟨hnext.skips, hnext.toFollowsOperand⟩)
    (fun _ _ _ hskips hmatch => .of_joint hskips hmatch) fun next hnone hnext => ?_
  exact Refuses.seq_left (refuses_operator (by decide) (hnext.infixOp hnone))

theorem Rule.carriedBelow_simple :
    (Pattern.rule .simple).CarriedBelow i n (·.FollowsRun i.cut) := by
  have hrun : (Pattern.seq (.rule .factor) (.star joint)).CarriedBelow i n (·.FollowsRun i.cut) :=
    hfactor.seq (carriedBelow_joints hfactor) fun _ _ _ hskips hmatch hnext =>
      .of_joints hskips hmatch hnext
  refine .rule rfl (carriedBelow_signs.seq hrun fun mid next qs hskips hmatch _ => ?_)
  obtain ⟨there, ps, vs, hoperand, -⟩ := hmatch.seq
  exact .of_factor hskips hoperand

theorem Rule.carriedBelow_arith : (Pattern.rule .arith).CarriedBelow i n (·.FollowsExpr i.cut) := by
  have hsimple := carriedBelow_simple hfactor
  have hcomparison :
      (Pattern.opt (.seq (.rule .relOp) (.rule .simple))).CarriedBelow
        i n (·.FollowsExpr i.cut) := by
    have hpresent :
        (Pattern.seq (.rule .relOp) (.rule .simple)).CarriedBelow i n (·.FollowsExpr i.cut) :=
      (alwaysCarried_operator (by decide)).seq
        (hsimple.imp (Nat.le_refl n) fun _ hnext => hnext.followsRun)
    refine hpresent.opt fun here hhere _ hnext => ?_
    have hnone := hnext.relOp
    rw [hhere.skip_eq] at hnone
    exact Refuses.seq_left (refuses_operator (by decide) hnone)
  exact .rule rfl (hsimple.seq hcomparison fun _ _ _ hskips hmatch hnext =>
    .of_comparison hskips hmatch hnext)

end Factor

end Computations

/-! ### Choosing an expression -/

section Choosing

variable {i : Insertion} {n : Nat} {r : Rule} {k : List Char} {here mid next : Cursor}
  {ts : List Tree}

/-- In the new text no arrow stands behind an operand, if none stood there in front of an
expression. -/
theorem Cursor.FollowsOperand.refuses_arrow (hnext : next.FollowsOperand i.cut)
    (hnone : (Pattern.seq (text ['<', '-']) (.rule .expr)).scan false (Mode.skip {} next) = none) :
    (Pattern.seq (text ['<', '-']) (.rule .expr)).Refuses i (Mode.skip {} next) := by
  refine Refuses.seq_left (refuses_text (by decide) fun hprefix => ?_)
  obtain ⟨⟨there, us⟩, harrow⟩ := Option.ne_none_iff_exists'.mp (scan_text_ne_none hprefix)
  exact (scan_seq_ne_none_iff harrow).mpr (hnext.arrow there (spans_of_scan_text harrow).1) hnone

/-- Without a bracket behind it, a name is the whole target of an assignment. -/
theorem Rule.refuses_assignment_of_ident
    (hname : (Pattern.rule .ident).MatchesAround i.cut here mid ts)
    (hskips : mid.SkipsAround i.cut) (hbracket : (Mode.skip {} mid).rest.head? ≠ some '[')
    (harrow : (Pattern.seq (text ['<', '-']) (.rule .expr)).Refuses i (Mode.skip {} mid)) :
    (Pattern.rule .assignment).Refuses i here := by
  have hindex : (Pattern.rule .index).Refuses i (Mode.skip {} mid) :=
    .rule rfl (Refuses.seq_left (refuses_text_of_head hbracket))
  refine .rule rfl ((alwaysCarried_ident _ _ _ hname).refuses_seq hskips ?_)
  refine hindex.absent.refuses_seq ((Cursor.IsTight.skip mid).skipsAround _) ?_
  rwa [Cursor.skip_skip]

/-- In the new text nothing is assigned to an operand, if nothing was. -/
theorem Rule.refuses_assignment_of_factor
    (hexpr : (Pattern.rule .expr).CarriedBelow i n (·.FollowsExpr i.cut))
    (hlt : here.rest.length < n + 1) (h : (Pattern.rule .factor).MatchesAround i.cut here next ts)
    (hnext : next.FollowsOperand i.cut)
    (hnone : (Pattern.rule .assignment).scan false here = none) :
    (Pattern.rule .assignment).Refuses i here := by
  have hbody : Rule.assignment.body.scan false here = none := by
    by_contra hsome
    exact (scan_ne_none_iff rfl).mpr hsome hnone
  rcases cases_factor h with hletter | htruth | ⟨r, hr, hmatch⟩
  · exact .rule rfl (Refuses.seq_left (refuses_ident hletter))
  · intro rest hmoves
    obtain ⟨hword, -⟩ := isWord_boolean.of_scan htruth.scan
    rw [← isWord_boolean.keepsWord htruth.scan (htruth.token rfl) rest hmoves] at hword
    exact fails_assignment (isName_keyword (truthWords_subset_keywords hword))
  · simp only [List.mem_cons, List.not_mem_nil, or_false] at hr
    rcases hr with rfl | rfl | rfl
    · obtain ⟨us, hcall, -⟩ := hmatch.body rfl
      obtain ⟨mid, ps, qs, hname, hskips, hparens, -⟩ := hcall.seq
      have hhead := (opensWith_char '(').seq _ _ _ hparens.scan
      refine refuses_assignment_of_ident hname hskips ?_
        (Refuses.seq_left (refuses_text_of_head ?_)) <;>
        rw [hhead] <;> decide
    · obtain ⟨us, helement, -⟩ := hmatch.body rfl
      obtain ⟨mid, ps, qs, hname, hskips, hindex, -⟩ := helement.seq
      have harrow :
          (Pattern.seq (text ['<', '-']) (.rule .expr)).scan false (Mode.skip {} next) = none := by
        by_contra hsome
        refine (scan_seq_ne_none_iff hname.scan).mpr ?_ hbody
        exact (scan_seq_ne_none_iff
          (scan_opt_of_scan (scan_of_body (r := index) rfl hindex.scan))).mpr hsome
      have hmid := (derives_of_scan hname.scan).length_lt rfl
      have hskip := Cursor.length_skip_le {} mid
      have hcarried :=
        carriedBelow_brackets (F := fun _ => True) hexpr _ next qs (.skip mid)
          (by omega) hindex trivial
      refine .rule rfl ((alwaysCarried_ident _ _ _ hname).refuses_seq hskips ?_)
      exact (Carries.rule (r := index) rfl hcarried).present.refuses_seq
        hnext.skips (hnext.refuses_arrow harrow)
    · refine refuses_assignment_of_ident hmatch hnext.skips hnext.bracket (hnext.refuses_arrow ?_)
      by_contra hsome
      have hindex : (Pattern.rule .index).scan false (Mode.skip {} next) = none :=
        Fails.scan_eq_none (.rule (.seq_left (.text_of_head hnext.bracket)))
      refine (scan_seq_ne_none_iff hmatch.scan).mpr
        ((scan_seq_ne_none_iff (scan_opt_of_none hindex)).mpr ?_) hbody
      rwa [Cursor.skip_skip]

/-- In the new text a computation is no assignment. -/
theorem Rule.refuses_assignment_of_arith
    (hexpr : (Pattern.rule .expr).CarriedBelow i n (·.FollowsExpr i.cut))
    (hlt : here.rest.length < n + 1)
    (hhere : here.IsTight) (h : (Pattern.rule .arith).MatchesAround i.cut here next ts)
    (hnext : next.FollowsExpr i.cut) (hnone : (Pattern.rule .assignment).scan false here = none) :
    (Pattern.rule .assignment).Refuses i here := by
  by_cases hbang : here.rest.head? = some '!'
  · exact .rule rfl (Refuses.seq_left (refuses_ident (noLetter_of_head hbang rfl)))
  · obtain ⟨us, hbody, -⟩ := h.body rfl
    obtain ⟨mid, ps, qs, hsimple, hskips, hcomparison, -⟩ := hbody.seq
    obtain ⟨there, vs, ws, hfactor, hskips', hjoints⟩ := exists_factor hhere hbang hsimple
    have hrun := Cursor.FollowsRun.of_comparison hskips hcomparison hnext
    exact refuses_assignment_of_factor hexpr hlt hfactor (.of_joints hskips' hjoints hrun) hnone

/-- Alternatives of an expression are refused, if the first word and the first character tell them
apart. -/
theorem Rule.refuses_alternatives (hr : r ∈ expr.leaves)
    (hopening : ∀ rest, i.Moves here rest → ∀ q ∈ expr.leaves.takeWhile (· != r),
      q.opening ≠ some (firstWord rest))
    (hassign : r ≠ assignment → (Pattern.rule .assignment).Refuses i here)
    (hbrace : r ≠ compound → here.rest.head? ≠ some '\x7b') :
    ∀ q ∈ expr.leaves.takeWhile (· != r), (Pattern.rule q).Refuses i here := by
  have hkinds : ∀ r ∈ expr.leaves, ∀ q ∈ expr.leaves.takeWhile (· != r), r ≠ q ∧
      (q.opening = none → q = assignment ∨ q = compound) := by decide
  intro q hq
  obtain ⟨hne, hkind⟩ := hkinds r hr q hq
  cases hq' : q.opening with
  | some k =>
    intro rest hmoves
    refine fails_opened hq' fun heq => hopening rest hmoves q hq ?_
    rw [hq', heq]
  | none =>
    rcases hkind hq' with rfl | rfl
    · exact hassign hne
    · exact fun rest hmoves => fails_compound (hmoves.head?_eq ▸ hbrace hne)

/-- What was tried before an expression is not there in the new text. -/
theorem Rule.refuses_before_expr
    (hexpr : (Pattern.rule .expr).CarriedBelow i n (·.FollowsExpr i.cut))
    (hlt : here.rest.length < n + 1) (hhere : here.IsTight) (hr : r ∈ expr.leaves)
    (h : (Pattern.rule r).MatchesAround i.cut here next ts)
    (hbefore : ∀ q ∈ expr.leaves.takeWhile (· != r), q.scan false here = none)
    (hnext : next.FollowsExpr i.cut) :
    ∀ q ∈ expr.leaves.takeWhile (· != r), (Pattern.rule q).Refuses i here := by
  have hkinds : ∀ r ∈ expr.leaves, r.opening = none → r = assignment ∨ r = compound ∨
      r = arith := by decide
  cases hr' : r.opening with
  | some k =>
    have hdistinct : ∀ r ∈ expr.leaves, ∀ q ∈ expr.leaves.takeWhile (· != r), ∀ k ∈ r.opening,
        q.opening ≠ some k := by decide
    have hkeyword := openings_subset_keywords (mem_openings hr hr')
    obtain ⟨s, mid, us, hs, hword⟩ := exists_opening hr' h
    obtain ⟨hfirst, -⟩ := hs.isWord.of_scan hword.scan
    have hkeeps : ∀ rest, i.Moves here rest → firstWord rest = k :=
      fun rest hmoves => (hs.keepsWord hword rest hmoves).trans hfirst
    refine refuses_alternatives hr (fun rest hmoves q hq => ?_) (fun _ rest hmoves => ?_)
      (fun _ hbrace => ?_)
    · rw [hkeeps rest hmoves]
      exact hdistinct r hr q hq k hr'
    · refine fails_assignment ?_
      rw [hkeeps rest hmoves]
      exact isName_keyword hkeyword
    · rw [← hfirst] at hkeyword
      obtain ⟨c, hc, halpha⟩ := head?_of_keyword hkeyword
      cases hc.symm.trans hbrace
      cases halpha
  | none =>
    rcases hkinds r hr hr' with rfl | rfl | rfl
    · obtain ⟨us, hbody, -⟩ := h.body rfl
      obtain ⟨mid, ps, qs, hname, -⟩ := hbody.seq
      obtain ⟨hfirst, -⟩ := isWord_ident.of_scan hname.scan
      refine refuses_alternatives hr (fun rest hmoves q hq heq => ?_) (absurd rfl)
        (fun _ hbrace => ?_)
      · rw [keepsWord_ident hname rest hmoves] at heq
        exact isName_not_keyword hfirst
          (openings_subset_keywords (mem_openings (List.takeWhile_subset _ hq) heq))
      · rw [(noLetter_of_head hbrace rfl).not_word.1] at hfirst
        cases hfirst
    · obtain ⟨us, hbody, -⟩ := h.body rfl
      have hletter : NoLetter here.rest :=
        noLetter_of_head ((opensWith_char '\x7b').seq _ _ _ hbody.scan) rfl
      refine refuses_alternatives hr (fun rest hmoves q hq heq => ?_) (fun _ => ?_) (absurd rfl)
      · exact (hmoves.noLetter hletter).not_opening (mem_openings (List.takeWhile_subset _ hq) heq)
      · exact .rule rfl (Refuses.seq_left (refuses_ident hletter))
    · refine refuses_alternatives hr (fun rest hmoves q hq heq => ?_) (fun _ => ?_)
        (fun _ hbrace => ?_)
      · exact firstWord_of_arith hhere h hmoves (mem_openings (List.takeWhile_subset _ hq) heq)
      · exact refuses_assignment_of_arith hexpr hlt hhere h hnext (hbefore assignment (by decide))
      · obtain ⟨us, hbody, -⟩ := h.body rfl
        obtain ⟨mid, ps, qs, hsimple, -⟩ := hbody.seq
        obtain ⟨there, vs, ws, hfactor, -⟩ := exists_factor hhere (by rw [hbrace]; decide) hsimple
        refine hfactor.not_fails (fails_factor fun c hc => ?_)
        cases hbrace.symm.trans hc
        decide

theorem Rule.carriedBelow_alternative
    (hexpr : (Pattern.rule .expr).CarriedBelow i n (·.FollowsExpr i.cut))
    (hr : r ∈ expr.leaves) : (Pattern.rule r).CarriedBelow i (n + 1) (·.FollowsExpr i.cut) := by
  have hquit : quitKw.IsReserved ['q', 'u', 'i', 't'] := ⟨rfl, rfl, rfl, by decide⟩
  have hprint : printKw.IsReserved ['p', 'r', 'i', 'n', 't'] := ⟨rfl, rfl, rfl, by decide⟩
  have hcat : catKw.IsReserved ['c', 'a', 't'] := ⟨rfl, rfl, rfl, by decide⟩
  have hread : readKw.IsReserved ['r', 'e', 'a', 'd'] := ⟨rfl, rfl, rfl, by decide⟩
  have hbreak : breakKw.IsReserved ['b', 'r', 'e', 'a', 'k'] := ⟨rfl, rfl, rfl, by decide⟩
  have hnext : nextKw.IsReserved ['n', 'e', 'x', 't'] := ⟨rfl, rfl, rfl, by decide⟩
  simp only [leaves, List.mem_cons, List.not_mem_nil, or_false] at hr
  rcases hr with rfl | rfl | rfl | rfl | rfl | rfl | rfl | rfl | rfl | rfl | rfl | rfl | rfl | rfl
  · exact carriedBelow_if hexpr
  · exact carriedBelow_while hexpr
  · exact carriedBelow_for hexpr
  · exact carriedBelow_function hexpr
  · exact carriedBelow_assignment hexpr
  · exact hquit.carriedBelow_unit rfl rfl
  · exact hprint.carriedBelow_parens hexpr rfl rfl rfl
  · exact hcat.carriedBelow_parens hexpr rfl rfl rfl
  · exact hread.carriedBelow_unit rfl rfl
  · exact carriedBelow_list
  · exact carriedBelow_compound hexpr
  · exact .rule rfl hbreak.alwaysCarried.below
  · exact .rule rfl hnext.alwaysCarried.below
  · exact carriedBelow_arith (carriedBelow_factor hexpr)

/-- **Expressions are carried over.** -/
theorem Rule.carriedBelow_expr (n : Nat) :
    (Pattern.rule .expr).CarriedBelow i n (·.FollowsExpr i.cut) := by
  induction n with
  | zero => exact fun here next ts _ hlt => absurd hlt (Nat.not_lt_zero _)
  | succ n hexpr =>
    intro here next ts hhere hlt h hnext
    obtain ⟨r, hr, hbefore, hmatch⟩ := h.choice (by decide)
    exact .choice (by decide) hr (refuses_before_expr hexpr hlt hhere hr hmatch hbefore hnext)
      (carriedBelow_alternative hexpr hr here next ts hhere hlt hmatch hnext)

end Choosing

end ScopeScript
