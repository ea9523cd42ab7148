import ScopeScript.Proofs.Constants

/-!
# Each kind of expression is read back

`e.ReadsBack floatText` says that the text of the expression `e` is read as that expression, in
front of anything that can follow an expression. There is a lemma for each kind of expression, which
takes the subexpressions to be read back. Since these stand in parentheses, what is left to show is
which alternative of the grammar the text of the expression itself falls under, and that the
repetitions in it stop where they should.

* `Pattern.Reads.listed`: lists of arguments, of parameters and of constants.
* `Expr.ReadsBack.compound`: a block, which is also the body of a function.
-/

namespace ScopeScript

open Pattern

/-! ### Lists -/

section Separated

variable {α : Type} {p step : Pattern} {sep : Char} {text : α → List Char} {P : α → Tree → Prop}
  {items : List α} {rest : List Char} {Follows : List Char → Prop}

/-- A repetition whose rounds begin with a separator. `Follows` is what a round needs of the text
behind it. -/
theorem Pattern.Continues.separated (hnull : step.isNullable = false) (hsep : isSkipped sep = false)
    (hnext : ∀ rest, Follows (sep :: rest)) (hend : Follows rest) (htight : Tight false rest)
    (hstop : step.Fails false rest)
    (hstep : ∀ a ∈ items, ∀ rest, Follows rest → step.Reads false (sep :: text a) rest [P a]) :
    step.Continues false (items.flatMap fun a => sep :: text a) rest (items.map P) := by
  induction items with
  | nil => exact .stop hnull htight hstop
  | cons a items ih =>
    obtain ⟨ha, hitems⟩ := List.forall_mem_cons.mp hstep
    have hfollows : Follows ((items.flatMap fun a => sep :: text a) ++ rest) := by
      cases items with
      | nil => exact hend
      | cons b items => exact hnext _
    exact .step hnull (tight_cons hsep _) (ha _ hfollows) (ih hitems)

theorem tight_flatMap (hsep : isSkipped sep = false) (htight : Tight false rest) :
    Tight false ((items.flatMap fun a => sep :: text a) ++ rest) := by
  cases items with
  | nil => exact htight
  | cons a items => exact tight_cons hsep _

theorem closes_flatMap (rest : List Char) :
    Closes ((items.flatMap fun a => ',' :: text a) ++ ')' :: rest) := by
  cases items with
  | nil => exact closes_cons (by decide) rest
  | cons a items => exact closes_cons (by decide) _

/-- The members of a list after the first one. -/
theorem Pattern.Reads.members
    (hitem : ∀ a ∈ items, ∀ rest, Closes rest → Tight false (text a ++ rest) ∧
      p.Reads false (text a) rest [P a])
    (rest : List Char) :
    (Pattern.star (.seq (.char ',') p)).Reads false (items.flatMap fun a => ',' :: text a)
      (')' :: rest) (items.map P) := by
  have hstep : ∀ a ∈ items, ∀ rest, Closes rest →
      (Pattern.seq (.char ',') p).Reads false (',' :: text a) rest [P a] := by
    intro a ha rest hrest
    obtain ⟨htight, hreads⟩ := hitem a ha rest hrest
    exact .seq (.text [','] _) htight hreads
  refine Continues.star rfl (tight_flatMap rfl (tight_cons rfl rest)) ?_
  exact .separated rfl rfl (closes_cons (by decide)) (closes_cons (by decide) rest)
    (tight_cons rfl rest)
    (.seq_left (.char (by simp))) hstep

theorem Pattern.Reads.listed {a : α}
    (hitem : ∀ b ∈ a :: items, ∀ rest, Closes rest → Tight false (text b ++ rest) ∧
      p.Reads false (text b) rest [P b])
    (rest : List Char) : (Pattern.seq p (.star (.seq (.char ',') p))).Reads false
      (separated ',' ((a :: items).map text)) (')' :: rest) ((a :: items).map P) := by
  obtain ⟨ha, hitems⟩ := List.forall_mem_cons.mp hitem
  rw [List.map_cons, separated_cons, List.flatMap_map]
  exact (ha _ (closes_flatMap rest)).2.seq (tight_flatMap rfl (tight_cons rfl rest))
    (.members hitems rest)

/-- A list that may be empty. -/
theorem Pattern.Reads.listed_or_none
    (hitem : ∀ a ∈ items, ∀ rest, Closes rest → Tight false (text a ++ rest) ∧
      p.Reads false (text a) rest [P a])
    (hnone : p.Fails false (')' :: rest)) :
    Tight false (separated ',' (items.map text) ++ ')' :: rest) ∧
      (Pattern.opt (.seq p (.star (.seq (.char ',') p)))).Reads
        false (separated ',' (items.map text))
        (')' :: rest) (items.map P) := by
  cases items with
  | nil => exact ⟨tight_cons rfl rest, .absent (.seq_left hnone)⟩
  | cons a items =>
    refine ⟨?_, .present (.listed hitem rest)⟩
    obtain ⟨ha, -⟩ := List.forall_mem_cons.mp hitem
    rw [List.map_cons, separated_cons, List.flatMap_map, List.append_assoc]
    exact (ha _ (closes_flatMap rest)).1

end Separated

/-! ### Reserved words -/

/-- The rule reads the reserved word. -/
structure Rule.IsReserved (r : Rule) (k : List Char) : Prop where
  silent : r.isSilent = true
  plain : r.isAtomic = false
  body : r.body = .word k
  mem : k ∈ keywords

theorem Rule.IsReserved.reads {r : Rule} {k rest : List Char} (hr : r.IsReserved k)
    (hrest : NoWord rest) :
    (Pattern.rule r).Reads false k rest [] := by
  refine .silent hr.silent ?_
  rw [hr.plain, hr.body]
  exact .word hr.mem hrest

theorem Pattern.Reads.after_word {p : Pattern} {r : Rule} {k cs rest : List Char}
    {Ps : List (Tree → Prop)}
    (h : p.Reads false cs rest Ps) (hr : r.IsReserved k) (hrest : NoWord (cs ++ rest))
    (htight : Tight false (cs ++ rest)) : (Pattern.seq (.rule r) p).Reads false (k ++ cs) rest Ps :=
  (hr.reads hrest).seq htight h

/-! ### Expressions -/

/-- The text of the expression is read as that expression. -/
def Expr.ReadsBack (floatText : Float → List Char) (e : Expr) : Prop :=
  ∀ rest, Closes rest → ReadsExpr (e.render floatText) rest (Tree.Denotes e)

namespace Expr.ReadsBack

variable {floatText : Float → List Char} {a b c e : Expr} {x : String} {rest : List Char}

theorem within (h : e.ReadsBack floatText) : ReadsWithin (e.render floatText) e :=
  fun rest => h _ (closes_cons (by decide) rest)

theorem of_pair (h : ∀ e ∈ [a, b], e.ReadsBack floatText) : a.ReadsBack floatText ∧
    b.ReadsBack floatText :=
  ⟨h a List.mem_cons_self, h b (List.mem_cons_of_mem _ List.mem_cons_self)⟩

theorem parens (h : e.ReadsBack floatText) (hrest : Inert rest) :
    ReadsExpr (parens (e.render floatText)) rest (Tree.Denotes e) :=
  h.within.parens hrest

/-! #### Computations -/

theorem not (h : a.ReadsBack floatText) (s : Span) : (Expr.not s a).ReadsBack floatText :=
  fun _ hrest => h.within.negated hrest.inert s

theorem arith (ha : a.ReadsBack floatText) (hb : b.ReadsBack floatText) (s : Span) (op : ArithOp) :
    (Expr.arith s op a b).ReadsBack floatText := by
  intro rest hrest
  have hsymbol : op.symbol.toList = (Operator.arith op).rule.symbol := by cases op <;> rfl
  rw [render, hsymbol, List.append_assoc]
  exact ha.within.joined hb.within (.arith op) hrest.inert

theorem logical (ha : a.ReadsBack floatText) (hb : b.ReadsBack floatText) (s : Span)
    (op : LogicalOp) :
    (Expr.logical s op a b).ReadsBack floatText := by
  intro rest hrest
  have hsymbol : op.symbol.toList = (Operator.logical op).rule.symbol := by cases op <;> rfl
  rw [render, hsymbol, List.append_assoc]
  exact ha.within.joined hb.within (.logical op) hrest.inert

theorem compare (ha : a.ReadsBack floatText) (hb : b.ReadsBack floatText) (s : Span)
    (op : Relation) :
    (Expr.compare s op a b).ReadsBack floatText := by
  intro rest hrest
  have hsymbol : op.symbol.toList = op.rule.symbol := by cases op <;> rfl
  rw [render, hsymbol, List.append_assoc]
  exact ha.within.compared hb.within op hrest.inert s

/-! #### Names -/

/-- A name is no word with which an expression opens. -/
theorem not_opening (hx : isName x.toList = true) (hrest : NoWord rest) :
    firstWord (x.toList ++ rest) ∉ openings := by
  rw [firstWord_append (isName_all hx) hrest]
  exact fun hw => isName_not_keyword hx (openings_subset_keywords hw)

theorem fails_assignment (hx : isName x.toList = true) (hrest : NoWord rest)
    (htight : Tight false rest) (hhead : ∀ c ∈ rest.head?, c ≠ '[' ∧ c ≠ '<') :
    (Pattern.rule .assignment).Fails false (x.toList ++ rest) := by
  have hindex : (Pattern.rule .index).Fails false rest :=
    .rule (.seq_left (.text_of_head fun hc => (hhead _ hc).1 rfl))
  have harrow : (Pattern.text ['<', '-']).Fails false rest :=
    .text_of_head fun hc => (hhead _ hc).2 rfl
  exact .rule (.after_name hx hrest htight (.after (.absent hindex) htight (.seq_left harrow)))

theorem var (hx : isName x.toList = true) (s : Span) : (Expr.var s x).ReadsBack floatText := by
  intro rest hrest
  have hassign := fails_assignment hx hrest.noWord hrest.inert.tight fun c hc =>
    ⟨fun h => hrest.ne (by decide) (h ▸ hc), fun h => hrest.ne (by decide) (h ▸ hc)⟩
  have hfactor := Rule.reads_named hx hrest.noWord hrest.inert.tight fun c hc =>
    ⟨fun h => hrest.ne (by decide) (h ▸ hc), fun h => hrest.ne (by decide) (h ▸ hc)⟩
  exact Rule.reads_operand (not_opening hx hrest.noWord)
    hassign (hfactor.imp fun t ht => ht.denotes_var s)
    hrest.inert

/-- An index in brackets. -/
theorem bracketed (h : a.ReadsBack floatText) (rest : List Char) :
    (Pattern.seq (.text ['[', '[']) (.seq (.rule .expr) (.text [']', ']']))).Reads false
      (inBrackets (a.render floatText)) rest [Tree.Denotes a] := by
  have hinert : Inert ([']', ']'] ++ rest) := inert_cons rfl (by decide) (']' :: rest)
  have hclosed := (h.parens hinert).reads.seq (tight_cons rfl _) (.text [']', ']'] rest)
  exact .seq (.text ['[', '['] _) (tight_cons rfl _) hclosed

theorem element (hx : isName x.toList = true) (h : a.ReadsBack floatText) (s : Span) :
    (Expr.element s x a).ReadsBack floatText := by
  intro rest hrest
  have hbody := (h.bracketed rest).after_name hx (noWord_cons rfl _) (tight_cons rfl _)
  have helement := Reads.node (r := .singleElement) rfl rfl hbody
  have hfactor := (Rule.reads_indexed hx helement).imp fun t ht => ht.denotes_element s
  -- what follows is no arrow, so the name and the index do not begin an assignment
  have hindex := Reads.node (r := .index) rfl rfl (h.bracketed rest)
  have harrow : (Pattern.text ['<', '-']).Fails false rest := .text_of_head (hrest.ne (by decide))
  have hassign : (Pattern.rule .assignment).Fails false
      (x.toList ++ (inBrackets (a.render floatText) ++ rest)) :=
    .rule (.after_name hx (noWord_cons rfl _) (tight_cons rfl _)
      (.seq_right hindex.present hrest.inert.tight (.seq_left harrow)))
  rw [← List.append_assoc] at hassign
  rw [render_element]
  refine Rule.reads_operand ?_ hassign hfactor hrest.inert
  rw [List.append_assoc]
  exact not_opening hx (noWord_cons rfl _)

/-- The arrow of an assignment and its value. -/
theorem arrow (h : a.ReadsBack floatText) (hrest : Inert rest) :
    (Pattern.seq (.text ['<', '-']) (.rule .expr)).Reads false
      ('<' :: '-' :: ScopeScript.parens (a.render floatText)) rest [Tree.Denotes a] :=
  .seq (.text ['<', '-'] _) (tight_cons rfl _) (h.parens hrest).reads

theorem isName_firstWord (hx : isName x.toList = true) (hrest : NoWord rest) :
    isName (firstWord (x.toList ++ rest)) = true := by
  rw [firstWord_append (isName_all hx) hrest]
  exact hx

theorem assign (hx : isName x.toList = true) (h : a.ReadsBack floatText) (s : Span) :
    (Expr.assign s x a).ReadsBack floatText := by
  intro rest hrest
  have harrow := h.arrow hrest.inert
  have hindex : (Pattern.rule .index).Fails false
      ('<' :: '-' :: ScopeScript.parens (a.render floatText) ++ rest) :=
        .rule (.seq_left (.text (by simp)))
  have htarget := Reads.after (.absent hindex) (tight_cons rfl _) harrow
  have hbody := htarget.after_name hx (noWord_cons rfl _) (tight_cons rfl _)
  rw [render_assign]
  refine Rule.reads_assigned ?_ ((Reads.node (r := .assignment) rfl rfl hbody).imp fun t ht =>
    ht.denotes_assign s)
  rw [List.append_assoc]
  exact isName_firstWord hx (noWord_cons rfl _)

theorem assignAt (hx : isName x.toList = true) (ha : a.ReadsBack floatText)
    (hb : b.ReadsBack floatText) (s : Span) :
    (Expr.assignAt s x a b).ReadsBack floatText := by
  intro rest hrest
  have hindex := Reads.node (r := .index) rfl rfl
    (ha.bracketed ('<' :: '-' :: ScopeScript.parens (b.render floatText) ++ rest))
  have htarget := hindex.present.seq (tight_cons rfl _) (hb.arrow hrest.inert)
  have hbody := htarget.after_name hx (noWord_cons rfl _) (tight_cons rfl _)
  rw [render_assignAt]
  refine Rule.reads_assigned ?_ ((Reads.node (r := .assignment) rfl rfl hbody).imp fun t ht =>
    ht.denotes_assignAt s)
  rw [List.append_assoc]
  exact isName_firstWord hx (noWord_cons rfl _)

/-! #### Control -/

/-- A condition in parentheses, and what follows it. -/
theorem condition {q : Pattern} {ds : List Char} {Qs : List (Tree → Prop)}
    (hc : c.ReadsBack floatText)
    (hq : q.Reads false ds rest Qs) (htight : Tight false (ds ++ rest)) :
    (Pattern.seq (.char '(') (.seq (.rule .expr) (.seq (.char ')') q))).Reads false
      (ScopeScript.parens (ScopeScript.parens (c.render floatText)) ++ ds)
        rest (Tree.Denotes c :: Qs) := by
  have hexpr := hc.parens (inert_cons (c := ')') rfl (by decide) (ds ++ rest))
  exact hexpr.reads.enclosed_then hexpr.tight htight hq

theorem ifThen (hc : c.ReadsBack floatText) (ha : a.ReadsBack floatText) (s : Span) :
    (Expr.ifThen s c a).ReadsBack floatText := by
  intro rest hrest
  have helse : (Pattern.seq (.rule .elseKw) (.rule .expr)).Fails false rest := by
    refine .seq_left (.rule (.word (by decide) ?_))
    rw [firstWord_of_noWord hrest.noWord]
    decide
  have hthen := (ha.parens hrest.inert).reads.before hrest.inert.tight (.absent helse)
  have hbody :=
    (hc.condition hthen (tight_cons rfl _)).after_word (r := .ifKw) ⟨rfl, rfl, rfl, by decide⟩
    (noWord_cons rfl _) (tight_cons rfl _)
  rw [render, List.append_assoc]
  exact Rule.reads_opened rfl rfl ((Reads.node (r := .ifExpr) rfl rfl hbody).imp fun t ht =>
    ht.denotes_ifThen s)

theorem ifElse (hc : c.ReadsBack floatText) (ha : a.ReadsBack floatText)
    (hb : b.ReadsBack floatText) (s : Span) :
    (Expr.ifElse s c a b).ReadsBack floatText := by
  intro rest hrest
  have helse := (hb.parens hrest.inert).reads.after_word (r := .elseKw) ⟨rfl, rfl, rfl, by decide⟩
    (noWord_cons rfl _) (tight_cons rfl _)
  have hthen :=
    (ha.parens (inert_cons rfl (by decide) _)).reads.seq (tight_cons rfl _) helse.present
  have hbody :=
    (hc.condition hthen (tight_cons rfl _)).after_word (r := .ifKw) ⟨rfl, rfl, rfl, by decide⟩
    (noWord_cons rfl _) (tight_cons rfl _)
  simp only [render, List.append_assoc]
  exact Rule.reads_opened rfl rfl ((Reads.node (r := .ifExpr) rfl rfl hbody).imp fun t ht =>
    ht.denotes_ifElse s)

theorem whileDo (hc : c.ReadsBack floatText) (ha : a.ReadsBack floatText) (s : Span) :
    (Expr.whileDo s c a).ReadsBack floatText := by
  intro rest hrest
  have hbody :=
    (hc.condition (ha.parens hrest.inert).reads (tight_cons rfl _)).after_word (r := .whileKw)
    ⟨rfl, rfl, rfl, by decide⟩ (noWord_cons rfl _) (tight_cons rfl _)
  rw [render, List.append_assoc]
  exact Rule.reads_opened rfl rfl ((Reads.node (r := .whileExpr) rfl rfl hbody).imp fun t ht =>
    ht.denotes_whileDo s)

theorem forIn (hx : isName x.toList = true) (ha : a.ReadsBack floatText)
    (hb : b.ReadsBack floatText) (s : Span) :
    (Expr.forIn s x a b).ReadsBack floatText := by
  intro rest hrest
  have hbody := Reads.seq (.text [')'] _) (tight_cons rfl _) (hb.parens hrest.inert).reads
  have hitems :=
    (ha.parens (inert_cons (c := ')') rfl (by decide) _)).reads.seq (tight_cons rfl _) hbody
  have hin :=
    hitems.after_word (r := .inKw) ⟨rfl, rfl, rfl, by decide⟩ (noWord_cons rfl _) (tight_cons rfl _)
  have hname :=
    (Rule.reads_ident hx (noWord_cons (c := ' ') rfl _)).seq_blank (tight_cons rfl _) hin
  have hopen := Reads.seq (.text ['('] _) (by rw [List.append_assoc]; exact tight_name hx _) hname
  have hfor :=
    hopen.after_word (r := .forKw) ⟨rfl, rfl, rfl, by decide⟩ (noWord_cons rfl _) (tight_cons rfl _)
  rw [render_forIn]
  exact Rule.reads_opened rfl rfl ((Reads.node (r := .forExpr) rfl rfl hfor).imp fun t ht =>
    ht.denotes_forIn s)

theorem brk (s : Span) : (Expr.brk s).ReadsBack floatText := by
  intro rest hrest
  have hword := Rule.IsReserved.reads (r := .breakKw) ⟨rfl, rfl, rfl, by decide⟩ hrest.noWord
  exact Rule.reads_opened rfl (firstWord_append rfl hrest.noWord)
    ((Reads.node (r := .breakExpr) rfl rfl hword).imp fun t ht => ht.denotes_brk s)

theorem nxt (s : Span) : (Expr.nxt s).ReadsBack floatText := by
  intro rest hrest
  have hword := Rule.IsReserved.reads (r := .nextKw) ⟨rfl, rfl, rfl, by decide⟩ hrest.noWord
  exact Rule.reads_opened rfl (firstWord_append rfl hrest.noWord)
    ((Reads.node (r := .nextExpr) rfl rfl hword).imp fun t ht => ht.denotes_nxt s)

/-! #### Blocks, functions and calls -/

variable {es : List Expr}

/-- A block is read by its own rule, whatever follows. -/
theorem compound (hne : es ≠ []) (hes : ∀ e ∈ es, e.ReadsBack floatText) (s : Span)
    (rest : List Char) :
    (Pattern.rule .compound).Reads false ((Expr.block s es).render floatText) rest
      [Tree.Denotes (.block s es)] := by
  cases es with
  | nil => exact absurd rfl hne
  | cons e es =>
    obtain ⟨he, hes⟩ := List.forall_mem_cons.mp hes
    have hclose : Inert ('\x7d' :: rest) := inert_cons rfl (by decide) rest
    have hmember : ∀ e ∈ es, ∀ rest, Inert rest →
        (Pattern.seq (.opt (.char ';')) (.rule .expr)).Reads false
        (';' :: ScopeScript.parens (e.render floatText)) rest [Tree.Denotes e] := by
      intro e he rest hrest
      exact .seq (.present (.text [';'] _)) (tight_cons rfl _) ((hes e he).parens hrest).reads
    have hstop : (Pattern.seq (.opt (.char ';')) (.rule .expr)).Fails false ('\x7d' :: rest) := by
      refine .after (.absent (.char (by simp))) (tight_cons rfl rest) (Rule.fails_expr ?_)
      rintro c ⟨⟩
      decide
    have hmembers := Continues.star rfl (tight_flatMap rfl (tight_cons rfl rest))
      (.separated rfl rfl (inert_cons rfl (by decide)) hclose hclose.tight hstop hmember)
    have hend : (Pattern.seq (.opt (.char ';')) (.char '\x7d')).Reads false ['\x7d'] rest [] :=
      .after (.absent (.char (by simp))) (tight_cons rfl rest) (.text ['\x7d'] rest)
    have hfirst : Inert ((es.flatMap fun e => ';' :: ScopeScript.parens (e.render floatText)) ++
        ['\x7d'] ++ rest) := by
      cases es with
      | nil => exact hclose
      | cons e es => exact inert_cons rfl (by decide) _
    have hinner :=
      (he.parens hfirst).reads.seq hfirst.tight (hmembers.seq (tight_cons rfl rest) hend)
    have hbody := Reads.seq (.text ['\x7b'] _) (tight_cons rfl _) hinner
    rw [List.append_nil] at hbody
    rw [render_block]
    exact (Reads.node (r := .compound) rfl rfl hbody).imp
      fun t (ht : t.IsNode .compound ((e :: es).map Tree.Denotes)) => ht.denotes_block s

theorem block (hne : es ≠ []) (hes : ∀ e ∈ es, e.ReadsBack floatText) (s : Span) :
    (Expr.block s es).ReadsBack floatText :=
  fun rest _ => Rule.reads_braced (compound hne hes s rest)

theorem function {xs : List String} (hxs : ∀ x ∈ xs, isName x.toList = true)
    (hb : ∀ rest, (Pattern.rule .compound).Reads false (b.render floatText) rest [Tree.Denotes b])
    (htight : ∀ rest, Tight false (b.render floatText ++ rest)) (s : Span) :
    (Expr.function s xs b).ReadsBack floatText := by
  intro rest hrest
  have hparam : ∀ x ∈ xs, ∀ rest, Closes rest → Tight false (x.toList ++ rest) ∧
      (Pattern.rule .ident).Reads false x.toList rest [Tree.IsToken .ident x.toList] :=
    fun x hx rest hrest => ⟨tight_name (hxs x hx) rest, Rule.reads_ident (hxs x hx) hrest.noWord⟩
  have hnone : (Pattern.rule .ident).Fails false (')' :: (b.render floatText ++ rest)) :=
    (noLetter_cons rfl _).fails_ident
  obtain ⟨hopen, hparams⟩ := Reads.listed_or_none hparam hnone
  have hheader :=
    (Reads.node (r := .params) rfl rfl hparams).enclosed_then hopen (htight rest) (hb rest)
  have hbody :=
    hheader.after_word (r := .functionKw) ⟨rfl, rfl, rfl, by decide⟩ (noWord_cons rfl _)
      (tight_cons rfl _)
  rw [render, List.append_assoc]
  exact Rule.reads_opened rfl rfl ((Reads.node (r := .functionDef) rfl rfl hbody).imp fun t ht =>
    ht.denotes_function s)

theorem call (hx : isName x.toList = true) (hes : ∀ e ∈ es, e.ReadsBack floatText) (s : Span) :
    (Expr.call s x es).ReadsBack floatText := by
  intro rest hrest
  have harg : ∀ e ∈ es, ∀ rest, Closes rest →
      Tight false (ScopeScript.parens (e.render floatText) ++ rest) ∧
      (Pattern.rule .expr).Reads false (ScopeScript.parens (e.render floatText))
        rest [Tree.Denotes e] :=
    fun e he rest hrest => ⟨tight_cons rfl _, ((hes e he).parens hrest.inert).reads⟩
  have hnone : (Pattern.rule .expr).Fails false (')' :: rest) := by
    refine Rule.fails_expr ?_
    rintro c ⟨⟩
    decide
  obtain ⟨hopen, hargs⟩ := Reads.listed_or_none harg hnone
  have henclosed := (Reads.node (r := .args) rfl rfl hargs).enclosed hopen
  have hbody := henclosed.after_name hx (noWord_cons rfl _) (tight_cons rfl _)
  have hfactor := (Rule.reads_called hx (Reads.node (r := .call) rfl rfl hbody)).imp fun t ht =>
      ht.denotes_call s
  rw [render, renderAll_map_parens]
  refine Rule.reads_operand ?_ ?_ hfactor hrest.inert
  · rw [List.append_assoc]
    exact not_opening hx (noWord_cons rfl _)
  · rw [List.append_assoc]
    refine fails_assignment hx (noWord_cons rfl _) (tight_cons rfl _) ?_
    rintro c ⟨⟩
    decide

/-! #### Lists, output and input -/

theorem list {vs : List Literal} (hne : vs ≠ []) (hvs : ∀ v ∈ vs, v.isWellFormed = true)
    (hwritten : ∀ v ∈ vs, v.IsWritten floatText) (s : Span) :
    (Expr.list s vs).ReadsBack floatText := by
  intro rest hrest
  have hitem : ∀ v ∈ vs, ∀ rest, Closes rest → Tight false (v.render floatText ++ rest) ∧
      (Pattern.rule .constant).Reads false (v.render floatText)
        rest [fun t => Literal.ofTree t = .ok v] :=
    fun v hv rest hrest => Literal.reads_render (hvs v hv) (hwritten v hv) hrest
  have hnone : (Pattern.rule .constant).Fails false (')' :: rest) := by
    refine Rule.fails_choice (by decide) (Rule.fails_constant ?_ ?_)
    · rintro c ⟨⟩
      decide
    · rw [firstWord_of_noWord (noWord_cons rfl _)]
      decide
  obtain ⟨htight, -⟩ := Reads.listed_or_none hitem hnone
  cases vs with
  | nil => exact absurd rfl hne
  | cons v vs =>
    have hclosed := ((Reads.listed hitem rest).seq (tight_cons rfl _) (.text [')'] rest)).assoc
    rw [List.append_nil] at hclosed
    have hopen := Reads.seq (.text ['('] _) (by rw [List.append_assoc]; exact htight) hclosed
    have hbody :=
      hopen.after_word (r := .listKw) ⟨rfl, rfl, rfl, by decide⟩ (noWord_cons rfl _)
        (tight_cons rfl _)
    exact Rule.reads_opened rfl rfl ((Reads.node (r := .listExpr) rfl rfl hbody).imp
      fun t (ht : t.IsNode .listExpr ((v :: vs).map fun v t => Literal.ofTree t = .ok v)) =>
        ht.denotes_list s)

/-- A single argument in parentheses. -/
theorem enclosed (h : a.ReadsBack floatText) (rest : List Char) :
    (Pattern.seq (.char '(') (.seq (.rule .expr) (.char ')'))).Reads false
      (ScopeScript.parens (ScopeScript.parens (a.render floatText))) rest [Tree.Denotes a] := by
  have hexpr := h.parens (inert_cons (c := ')') rfl (by decide) rest)
  exact hexpr.reads.enclosed hexpr.tight

theorem print (h : a.ReadsBack floatText) (s : Span) : (Expr.print s a).ReadsBack floatText := by
  intro rest hrest
  have hbody :=
    (h.enclosed rest).after_word (r := .printKw) ⟨rfl, rfl, rfl, by decide⟩ (noWord_cons rfl _)
    (tight_cons rfl _)
  exact Rule.reads_opened rfl rfl ((Reads.node (r := .printExpr) rfl rfl hbody).imp fun t ht =>
    ht.denotes_print s)

theorem cat (h : a.ReadsBack floatText) (s : Span) : (Expr.cat s a).ReadsBack floatText := by
  intro rest hrest
  have hbody :=
    (h.enclosed rest).after_word (r := .catKw) ⟨rfl, rfl, rfl, by decide⟩ (noWord_cons rfl _)
    (tight_cons rfl _)
  exact Rule.reads_opened rfl rfl ((Reads.node (r := .catExpr) rfl rfl hbody).imp fun t ht =>
    ht.denotes_cat s)

/-- An empty pair of parentheses. -/
theorem empty (rest : List Char) :
    (Pattern.seq (.char '(') (.char ')')).Reads false ['(', ')'] rest [] :=
  .seq (.text ['('] _) (tight_cons rfl _) (.text [')'] rest)

theorem read (s : Span) : (Expr.read s).ReadsBack floatText := by
  intro rest hrest
  have hbody :=
    (empty rest).after_word (r := .readKw) ⟨rfl, rfl, rfl, by decide⟩ (noWord_cons rfl _)
    (tight_cons rfl _)
  exact Rule.reads_opened rfl rfl ((Reads.node (r := .readExpr) rfl rfl hbody).imp fun t ht =>
    ht.denotes_read s)

theorem quit (s : Span) : (Expr.quit s).ReadsBack floatText := by
  intro rest hrest
  have hbody :=
    (empty rest).after_word (r := .quitKw) ⟨rfl, rfl, rfl, by decide⟩ (noWord_cons rfl _)
    (tight_cons rfl _)
  exact Rule.reads_opened rfl rfl ((Reads.node (r := .quitExpr) rfl rfl hbody).imp fun t ht =>
    ht.denotes_quit s)

end Expr.ReadsBack

end ScopeScript
