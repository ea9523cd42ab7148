import ScopeScript.Ast.Printer
import ScopeScript.Proofs.Choices

/-!
# Operands, runs and comparisons

How the texts are read from which computations are put together. A text that is read as an
expression in front of a closing parenthesis (`ReadsWithin`) can be put in parentheses, and is then
an operand, whatever follows.

* `ReadsWithin.parens`, `ReadsWithin.negated`, `ReadsWithin.joined`, `ReadsWithin.compared`:
  operands in parentheses by themselves, negated, joined by an operator, and compared.
* `Rule.reads_called`, `Rule.reads_indexed` and `Rule.reads_named`: a name is a call, an element or
  a variable by what follows it.

`Inert` says of the text that follows that it neither begins with a blank nor goes on with an
operator.
-/

namespace ScopeScript

open Pattern

/-! ### What follows -/

/-- The characters with which operators begin. -/
def startsOperator (c : Char) : Bool :=
  (Rule.infixOp.leaves ++ Rule.relOp.leaves).any fun r => r.symbol.head? == some c

/-- The text begins neither with a blank nor with an operator. -/
def Inert (rest : List Char) : Prop := ∀ c ∈ rest.head?, isSkipped c = false ∧
    startsOperator c = false

theorem inert_cons {c : Char} (hskipped : isSkipped c = false)
    (hoperator : startsOperator c = false) (rest : List Char) : Inert (c :: rest) := by
  rintro d ⟨⟩
  exact ⟨hskipped, hoperator⟩

section Inert

variable {rest : List Char}

theorem Inert.tight (h : Inert rest) : Tight false rest := tight_of_head fun c hc => (h c hc).1

theorem Inert.fails_operator {s : Rule} (h : Inert rest) (hs : s ∈ [Rule.infixOp, .relOp]) :
    (Pattern.rule s).Fails false rest := by
  have hops : ∀ s ∈ [Rule.infixOp, .relOp],
      s ∈ [Rule.infixOp, .relOp, .prefixOp] ∧
      s.leaves ⊆ Rule.infixOp.leaves ++ Rule.relOp.leaves := by decide
  refine Rule.fails_operator (hops s hs).1 fun c hc r hr => ?_
  have hnone := (h c hc).2
  simp only [startsOperator, List.any_eq_false, beq_iff_eq] at hnone
  exact hnone r ((hops s hs).2 hr)

end Inert

/-! ### Runs and comparisons -/

/-- One more operator of a run, with its operand. -/
def Pattern.joint : Pattern := inOrder [.rule .infixOp, .star (.rule .prefixOp), .rule .factor]

/-- A run of operands is over in front of the text. -/
structure EndsRun (rest : List Char) : Prop where
  tight : Tight false rest
  stops : (Pattern.rule .infixOp).Fails false rest

theorem Inert.endsRun {rest : List Char} (h : Inert rest) : EndsRun rest :=
  ⟨h.tight, h.fails_operator (by decide)⟩

section Runs

variable {ss cs ds rest : List Char} {P Q : Tree → Prop} {Ps Qs : List (Tree → Prop)} {op : Rule}

theorem EndsRun.stop (h : EndsRun rest) : joint.Continues false [] rest [] :=
  .stop rfl h.tight (.seq_left h.stops)

theorem Rule.fails_prefixOp (h : (Pattern.rule .factor).Reads false cs rest [P]) :
    (Pattern.rule .prefixOp).Fails false (cs ++ rest) := by
  obtain ⟨d, hd, hstarts⟩ := head_factor h
  refine fails_operator (by decide) fun c hc r hr hsymbol => ?_
  cases List.mem_singleton.mp hr
  cases hsymbol
  cases hc.symm.trans hd
  cases hstarts

theorem Rule.tight_factor (h : (Pattern.rule .factor).Reads false cs rest [P]) :
    Tight false (cs ++ rest) := by
  obtain ⟨d, hd, hstarts⟩ := head_factor h
  refine tight_of_head fun c hc => ?_
  cases hc.symm.trans hd
  exact isSkipped_of_startsFactor hstarts

/-- Signs, an operand, and more operators with their operands. -/
theorem Rule.reads_run (ss cs ds : List Char)
    (hsigns : (Pattern.star (.rule .prefixOp)).Reads false ss (cs ++ (ds ++ rest)) Ps)
    (h : (Pattern.rule .factor).Reads false cs (ds ++ rest) [P]) (htight : Tight false (ds ++ rest))
    (hmore : joint.Continues false ds rest Qs) :
    (Pattern.rule .simple).Reads false (ss ++ (cs ++ ds)) rest
    [Tree.IsNode .simple (Ps ++ P :: Qs)] := by
  have hfactor := tight_factor h
  rw [← List.append_assoc] at hsigns hfactor
  exact .node rfl rfl (hsigns.seq hfactor (h.seq htight (hmore.star rfl htight)))

theorem Rule.reads_simple (h : (Pattern.rule .factor).Reads false cs rest [P])
    (hrest : EndsRun rest) :
    (Pattern.rule .simple).Reads false cs rest [Tree.IsNode .simple [P]] := by
  have hrun := reads_run [] cs [] (.never (fails_prefixOp h)) h hrest.tight hrest.stop
  rwa [List.append_nil] at hrun

theorem Rule.reads_negated (h : (Pattern.rule .factor).Reads false ('(' :: cs) rest [P])
    (hrest : EndsRun rest) :
    (Pattern.rule .simple).Reads false ('!' :: '(' :: cs) rest
    [Tree.IsNode .simple [Tree.IsNode .not [], P]] := by
  have hsign : (Pattern.rule .prefixOp).Reads false ['!'] ('(' :: cs ++ rest)
      [Tree.IsNode .not []] :=
    reads_operator (s := .prefixOp) (r := .not) (by decide) (by decide) (cs ++ rest)
  have hstop : (Pattern.rule .prefixOp).Continues false [] ('(' :: cs ++ rest) [] :=
    .stop rfl (tight_factor h) (fails_prefixOp h)
  have hsigns : (Pattern.rule .prefixOp).Continues false ['!'] ('(' :: cs ++ rest)
      [Tree.IsNode .not []] :=
    .last rfl (tight_cons rfl _) hsign hstop
  have hrun :=
    reads_run ['!'] ('(' :: cs) [] (hsigns.star rfl (tight_cons rfl _)) h hrest.tight hrest.stop
  rwa [List.append_nil] at hrun

theorem Rule.tight_symbol {s : Rule} (hs : s ∈ [infixOp, relOp]) (hop : op ∈ s.leaves)
    (rest : List Char) :
    Tight false (op.symbol ++ rest) := by
  have hsymbols : ∀ s ∈ [infixOp, relOp], ∀ op ∈ s.leaves,
      op.symbol.head?.any (fun c => isSkipped c == false) = true := by decide
  obtain ⟨c, hc, hskipped⟩ := (Option.any_eq_true _ _).mp (hsymbols s hs op hop)
  refine tight_of_head fun d hd => ?_
  rw [List.head?_append, hc] at hd
  cases hd
  exact beq_iff_eq.mp hskipped

theorem Rule.reads_joined (hop : op ∈ infixOp.leaves)
    (ha : (Pattern.rule .factor).Reads false cs (op.symbol ++ '(' :: ds ++ rest) [P])
    (hb : (Pattern.rule .factor).Reads false ('(' :: ds) rest [Q]) (hrest : EndsRun rest) :
    (Pattern.rule .simple).Reads false (cs ++ (op.symbol ++ '(' :: ds)) rest
      [Tree.IsNode .simple [P, Tree.IsNode op [], Q]] := by
  have hbare : (Pattern.seq (.star (.rule .prefixOp)) (.rule .factor)).Reads
      false ('(' :: ds) rest [Q] :=
    .after (.never (fails_prefixOp hb)) (tight_factor hb) hb
  have hsymbol : (Pattern.rule .infixOp).Reads false op.symbol ('(' :: ds ++ rest)
      [Tree.IsNode op []] :=
    reads_operator (by decide) hop (ds ++ rest)
  have hjoint : joint.Reads false (op.symbol ++ '(' :: ds) rest [Tree.IsNode op [], Q] :=
    hsymbol.seq (tight_cons rfl _) hbare
  have htight : Tight false (op.symbol ++ '(' :: ds ++ rest) := by
    rw [List.append_assoc]
    exact tight_symbol (by decide) hop _
  exact reads_run [] cs _ (.never (fails_prefixOp ha))
    ha htight (.last rfl htight hjoint hrest.stop)

theorem Rule.reads_arith (h : (Pattern.rule .simple).Reads false cs rest [P]) (hrest : Inert rest) :
    (Pattern.rule .arith).Reads false cs rest [Tree.IsNode .arith [P]] := by
  have hnone : (Pattern.opt (.seq (.rule .relOp) (.rule .simple))).Reads false [] rest [] :=
    .absent (.seq_left (hrest.fails_operator (by decide)))
  exact .node rfl rfl (h.before hrest.tight hnone)

theorem Rule.endsRun_symbol (hop : op ∈ relOp.leaves) (rest : List Char) :
    EndsRun (op.symbol ++ rest) := by
  refine ⟨tight_symbol (by decide) hop rest, fails_operator (by decide) fun c hc r hr => ?_⟩
  have hdistinct : ∀ op ∈ relOp.leaves, op.symbol.head?.isSome = true ∧
      ∀ r ∈ infixOp.leaves, r.symbol.head? ≠ op.symbol.head? := by decide
  obtain ⟨hsome, hne⟩ := hdistinct op hop
  obtain ⟨d, hd⟩ := Option.isSome_iff_exists.mp hsome
  rw [List.head?_append, hd] at hc
  cases hc
  exact hd ▸ hne r hr

theorem Rule.reads_compared (hop : op ∈ relOp.leaves)
    (ha : (Pattern.rule .simple).Reads false cs (op.symbol ++ '(' :: ds ++ rest) [P])
    (hb : (Pattern.rule .simple).Reads false ('(' :: ds) rest [Q]) :
    (Pattern.rule .arith).Reads false (cs ++ (op.symbol ++ '(' :: ds)) rest
      [Tree.IsNode .arith [P, Tree.IsNode op [], Q]] := by
  have hsymbol : (Pattern.rule .relOp).Reads false op.symbol ('(' :: ds ++ rest)
      [Tree.IsNode op []] :=
    reads_operator (by decide) hop (ds ++ rest)
  have hright := hsymbol.seq (tight_cons rfl _) hb
  refine .node rfl rfl (ha.seq ?_ hright.present)
  rw [List.append_assoc]
  exact tight_symbol (by decide) hop _

end Runs

/-! ### Names and parentheses as operands -/

section Operands

variable {x cs ds rest : List Char} {P : Tree → Prop} {a b e : Expr}

theorem isAlpha_of_isDigit {c : Char} (h : c.isDigit = true) : (c.isAlpha || c == '_') = false := by
  have hnine : '9'.val.toNat = 57 := rfl
  have hupper : 'A'.val.toNat = 65 := rfl
  have hlower : 'a'.val.toNat = 97 := rfl
  have hne : c ≠ '_' := by
    rintro rfl
    cases h
  have halpha : c.isAlpha =
    (decide (c.val ≥ 'A'.val ∧ c.val ≤ 'Z'.val) || c.val ≥ 'a'.val && c.val ≤ 'z'.val) := rfl
  simp only [Char.isDigit, Bool.and_eq_true, decide_eq_true_eq, UInt32.le_iff_toNat_le,
    ge_iff_le] at h
  simp only [halpha, Bool.or_eq_false_iff, Bool.and_eq_false_iff, decide_eq_false_iff_not,
    UInt32.le_iff_toNat_le, ge_iff_le, beq_eq_false_iff_ne]
  exact ⟨⟨by omega, by omega⟩, hne⟩

theorem startsNumber_of_isAlpha {c : Char} (h : (c.isAlpha || c == '_') = true) :
    startsNumber c = false ∧ c ≠ '"' := by
  have hdigit : c.isDigit = false := by
    by_contra hdigit
    rw [isAlpha_of_isDigit ((Bool.not_eq_false _).mp hdigit)] at h
    cases h
  simp only [startsNumber, hdigit, Bool.false_or, Bool.or_eq_false_iff, beq_eq_false_iff_ne]
  refine ⟨⟨⟨?_, ?_⟩, ?_⟩, ?_⟩ <;> (rintro rfl; cases h)

/-- No constant begins with a name. -/
theorem Rule.fails_constant_of_name (hname : isName x = true) (hrest : NoWord rest) :
    ∀ q ∈ constant.leaves, (Pattern.rule q).Fails false (x ++ rest) := by
  refine fails_constant (fun c hc => ?_) ?_
  · cases x with
    | nil => cases hname
    | cons d x =>
      cases hc
      exact startsNumber_of_isAlpha (isName_head hname)
  · rw [firstWord_append (isName_all hname) hrest]
    exact fun hx => isName_not_keyword hname (truthWords_subset_keywords hx)

theorem Pattern.Fails.after_name {p : Pattern} (hname : isName x = true) (hrest : NoWord rest)
    (htight : Tight false rest) (h : p.Fails false rest) :
    (Pattern.seq (.rule .ident) p).Fails false (x ++ rest) :=
  .seq_right (Rule.reads_ident hname hrest) htight h

theorem Pattern.Reads.after_name {p : Pattern} {Ps : List (Tree → Prop)}
    (h : p.Reads false cs rest Ps)
    (hname : isName x = true) (hrest : NoWord (cs ++ rest)) (htight : Tight false (cs ++ rest)) :
    (Pattern.seq (.rule .ident) p).Reads false (x ++ cs) rest (Tree.IsToken .ident x :: Ps) :=
  (Rule.reads_ident hname hrest).seq htight h

theorem Rule.fails_call (hname : isName x = true) (hrest : NoWord rest) (htight : Tight false rest)
    (hopen : rest.head? ≠ some '(') : (Pattern.rule .call).Fails false (x ++ rest) :=
  .rule (.after_name hname hrest htight (.seq_left (.char hopen)))

theorem Rule.fails_singleElement (hname : isName x = true) (hrest : NoWord rest)
    (htight : Tight false rest)
    (hopen : rest.head? ≠ some '[') : (Pattern.rule .singleElement).Fails false (x ++ rest) :=
  .rule (.after_name hname hrest htight (.seq_left (.text_of_head hopen)))

theorem Rule.reads_called (hname : isName x = true)
    (h : (Pattern.rule .call).Reads false (x ++ '(' :: cs) rest [P]) :
    (Pattern.rule .factor).Reads false (x ++ '(' :: cs) rest [P] := by
  refine reads_factor (by decide) ?_ h
  rw [List.append_assoc]
  exact fails_constant_of_name hname (noWord_cons rfl _)

theorem Rule.reads_indexed (hname : isName x = true)
    (h : (Pattern.rule .singleElement).Reads false (x ++ '[' :: cs) rest [P]) :
    (Pattern.rule .factor).Reads false (x ++ '[' :: cs) rest [P] := by
  refine reads_factor (by decide) ?_ h
  rw [List.append_assoc]
  change ∀ q ∈ constant.leaves ++ [call], _
  refine List.forall_mem_append.mpr ⟨fails_constant_of_name hname (noWord_cons rfl _), ?_⟩
  refine List.forall_mem_singleton.mpr (fails_call hname (noWord_cons rfl _) (tight_cons rfl _) ?_)
  simp

theorem Rule.reads_named (hname : isName x = true) (hrest : NoWord rest) (htight : Tight false rest)
    (hopen : ∀ c ∈ rest.head?, c ≠ '(' ∧ c ≠ '[') :
    (Pattern.rule .factor).Reads false x rest [Tree.IsToken .ident x] := by
  refine reads_factor (by decide) ?_ (reads_ident hname hrest)
  change ∀ q ∈ constant.leaves ++ [call, singleElement], _
  refine List.forall_mem_append.mpr ⟨fails_constant_of_name hname hrest, ?_⟩
  simp only [List.forall_mem_cons]
  refine ⟨fails_call hname hrest htight fun hc => (hopen _ hc).1 rfl, ?_, nofun⟩
  exact fails_singleElement hname hrest htight fun hc => (hopen _ hc).2 rfl

/-- A text in parentheses, and what follows. -/
theorem Pattern.Reads.enclosed_then {p q : Pattern} {Ps Qs : List (Tree → Prop)}
    (hp : p.Reads false cs (')' :: (ds ++ rest)) Ps)
    (htight : Tight false (cs ++ ')' :: (ds ++ rest)))
    (hdsTight : Tight false (ds ++ rest)) (hq : q.Reads false ds rest Qs) :
    (Pattern.seq (.char '(') (.seq p (.seq (.char ')') q))).Reads false (parens cs ++ ds)
      rest (Ps ++ Qs) := by
  have hclosed : (Pattern.seq (.char ')') q).Reads false (')' :: ds) rest Qs :=
    .seq (.text [')'] _) hdsTight hq
  have hopened : (Pattern.char '(').Reads false ['('] (cs ++ ')' :: ds ++ rest) [] := .text ['('] _
  have htext : parens cs ++ ds = '(' :: (cs ++ ')' :: ds) := by simp [parens]
  rw [htext]
  refine hopened.seq ?_ (hp.seq (tight_cons rfl _) hclosed)
  rw [List.append_assoc]
  exact htight

theorem Pattern.Reads.enclosed {p : Pattern} {Ps : List (Tree → Prop)}
    (hp : p.Reads false cs (')' :: rest) Ps) (htight : Tight false (cs ++ ')' :: rest)) :
    (Pattern.seq (.char '(') (.seq p (.char ')'))).Reads false (parens cs) rest Ps := by
  have hclosed : (Pattern.char ')').Reads false [')'] rest [] := .text [')'] rest
  have hopened : (Pattern.char '(').Reads false ['('] (cs ++ [')'] ++ rest) [] := .text ['('] _
  have hinner := hp.seq (tight_cons rfl _) hclosed
  rw [List.append_nil] at hinner
  refine hopened.seq ?_ hinner
  rw [List.append_assoc]
  exact htight

/-- The text is read as the expression in front of a closing parenthesis. -/
def ReadsWithin (cs : List Char) (e : Expr) : Prop :=
  ∀ rest, ReadsExpr cs (')' :: rest) (Tree.Denotes e)

/-- A text in parentheses is an operand. -/
theorem ReadsWithin.factor (h : ReadsWithin cs e) (rest : List Char) :
    (Pattern.rule .factor).Reads false (parens cs) rest [Tree.IsOperand e] := by
  have hletter : NoLetter (parens cs ++ rest) := noLetter_cons rfl _
  have hgrouped :
      (Pattern.rule .grouped).Reads false (parens cs)
        rest [Tree.IsNode .grouped [Tree.Denotes e]] :=
    .node rfl rfl ((h rest).reads.enclosed (h rest).tight)
  refine (Rule.reads_factor (by decide) ?_ hgrouped).imp fun t ht => ht.denotes_grouped
  change ∀ q ∈ Rule.constant.leaves ++ [.call, .singleElement, .ident], _
  refine List.forall_mem_append.mpr ⟨Rule.fails_constant ?_ hletter.not_truthWord, ?_⟩
  · rintro c ⟨⟩
    decide
  · simp only [List.forall_mem_cons]
    exact ⟨.rule (.seq_left hletter.fails_ident), .rule (.seq_left hletter.fails_ident),
      hletter.fails_ident, nofun⟩

/-! ### Computations -/

section Computations

theorem Rule.reads_operand (hw : firstWord (cs ++ rest) ∉ openings)
    (hassign : (Pattern.rule .assignment).Fails false (cs ++ rest))
    (h : (Pattern.rule .factor).Reads false cs rest [Tree.IsOperand e]) (hrest : Inert rest) :
    ReadsExpr cs rest (Tree.Denotes e) := by
  have hsimple := (reads_simple h hrest.endsRun).imp fun t ht => ht.denotes_single
  refine reads_computed hw hassign (fun c hc => ?_)
    ((reads_arith hsimple hrest).imp fun t ht => ht.denotes_arith)
  obtain ⟨d, hd, hstarts⟩ := head_factor h
  cases hc.symm.trans hd
  exact .inl hstarts

/-- A computation that begins with a parenthesis or a negation. -/
theorem Rule.reads_signed {c : Char} (hc : c = '(' ∨ c = '!')
    (h : (Pattern.rule .arith).Reads false (c :: cs) rest [P]) : ReadsExpr (c :: cs) rest P := by
  have hletter : NoLetter (c :: cs ++ rest) := by
    rcases hc with rfl | rfl <;> exact noLetter_cons rfl _
  refine reads_computed hletter.not_opening (fails_assignment hletter.not_word.1) ?_ h
  rintro d ⟨⟩
  rcases hc with rfl | rfl
  · exact .inl rfl
  · exact .inr rfl

theorem ReadsWithin.simple (h : ReadsWithin cs e) (hrest : EndsRun rest) :
    (Pattern.rule .simple).Reads false (ScopeScript.parens cs) rest [Tree.Denotes e] :=
  (Rule.reads_simple (h.factor rest) hrest).imp fun _ ht => ht.denotes_single

theorem ReadsWithin.parens (h : ReadsWithin cs e) (hrest : Inert rest) :
    ReadsExpr (ScopeScript.parens cs) rest (Tree.Denotes e) :=
  Rule.reads_signed (.inl rfl) ((Rule.reads_arith (h.simple hrest.endsRun) hrest).imp fun _ ht =>
    ht.denotes_arith)

theorem ReadsWithin.negated (h : ReadsWithin cs e) (hrest : Inert rest) (s : Span) :
    ReadsExpr ('!' :: ScopeScript.parens cs) rest (Tree.Denotes (.not s e)) := by
  have hsimple := (Rule.reads_negated (h.factor rest) hrest.endsRun).imp fun _ ht =>
      ht.denotes_not s
  exact Rule.reads_signed (.inr rfl) ((Rule.reads_arith hsimple hrest).imp fun _ ht =>
    ht.denotes_arith)

theorem ReadsWithin.joined (ha : ReadsWithin cs a) (hb : ReadsWithin ds b) (op : Operator)
    (hrest : Inert rest) :
    ReadsExpr (ScopeScript.parens cs ++ (op.rule.symbol ++ ScopeScript.parens ds)) rest
      (Tree.Denotes (op.join a b)) := by
  have hop : op.rule ∈ Rule.infixOp.leaves := by
    rcases op with (_ | _ | _ | _ | _ | _) | (_ | _) <;> decide
  have hsimple := (Rule.reads_joined hop (ha.factor _) (hb.factor rest) hrest.endsRun).imp
    fun _ ht => ht.denotes_operator
  exact Rule.reads_signed (.inl rfl) ((Rule.reads_arith hsimple hrest).imp fun _ ht =>
    ht.denotes_arith)

theorem ReadsWithin.compared (ha : ReadsWithin cs a) (hb : ReadsWithin ds b) (op : Relation)
    (hrest : Inert rest) (s : Span) :
    ReadsExpr (ScopeScript.parens cs ++ (op.rule.symbol ++ ScopeScript.parens ds)) rest
      (Tree.Denotes (.compare s op a b)) := by
  have hop : op.rule ∈ Rule.relOp.leaves := by
    cases op <;> decide
  have hleft := ha.simple (Rule.endsRun_symbol hop (ScopeScript.parens ds ++ rest))
  rw [← List.append_assoc] at hleft
  have harith := Rule.reads_compared hop hleft (hb.simple hrest.endsRun)
  exact Rule.reads_signed (.inl rfl) (harith.imp fun _ ht => ht.denotes_compare s)

end Computations

end Operands

end ScopeScript
