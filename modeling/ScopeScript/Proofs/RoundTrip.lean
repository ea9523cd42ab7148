import ScopeScript.Proofs.Reading
import ScopeScript.Proofs.Written

/-!
# Reading undoes writing

A program that can be written down is read back from its text, up to ranges
(`Program.parse_render`). So no construct is taken for another one, however deep it is nested, and
two programs with the same text are the same.

The proof goes along the recursion of `Expr.render`: each kind of expression is read back if its
subexpressions are (`Expr.isReadBack`), and a program is read back round by round
(`Program.reads_rounds`).
-/

namespace ScopeScript

open Pattern

variable {floatText : Float → List Char}

/-! ### Expressions -/

mutual

/-- The constants of an expression, bodies of functions included. -/
def Expr.constants : Expr → List Literal
  | .literal _ v => [v]
  | .list _ vs => vs
  | .element _ _ a | .not _ a | .assign _ _ a | .function _ _ a | .print _ a | .cat _ a =>
    a.constants
  | .arith _ _ a b | .logical _ _ a b | .compare _ _ a b | .ifThen _ a b | .whileDo _ a
    b | .forIn _ _ a b
  | .assignAt _ _ a b => a.constants ++ b.constants
  | .ifElse _ a b c => a.constants ++ b.constants ++ c.constants
  | .block _ es | .call _ _ es => Expr.constantsAll es
  | .var _ _ | .brk _ | .nxt _ | .read _ | .quit _ => []

/-- The constants of a list of expressions. -/
def Expr.constantsAll : List Expr → List Literal
  | [] => []
  | e :: es => e.constants ++ Expr.constantsAll es

end

theorem Expr.constantsAll_eq_flatMap (es : List Expr) : constantsAll es = es.flatMap constants := by
  induction es with
  | nil => rfl
  | cons e es ih => rw [constantsAll, ih, List.flatMap_cons]

theorem Expr.constants_subset_of_mem_inside {e a : Expr} (ha : a ∈ e.inside) :
    a.constants ⊆ e.constants := by
  cases e <;>
    simp only [inside, parts, List.mem_cons, List.not_mem_nil, or_false] at ha <;>
    simp only [constants, constantsAll_eq_flatMap] <;>
    grind

/-- The expression is read back; if it is a block, it is also read back as the body of a
function. -/
structure Expr.IsReadBack (floatText : Float → List Char) (e : Expr) : Prop where
  reads : e.ReadsBack floatText
  braced : e.isBlock = true → ∀ rest,
    (Pattern.rule .compound).Reads false (e.render floatText) rest [Tree.Denotes e]

theorem Expr.tight_of_isBlock {e : Expr} (h : e.isBlock = true) (rest : List Char) :
    Tight false (e.render floatText ++ rest) := by
  cases e <;> cases h
  exact tight_cons rfl _

theorem Expr.isWellFormed_of_mem_inside {e a : Expr} (h : e.isWellFormed = true)
    (ha : a ∈ e.inside) :
    a.isWellFormed = true := by
  cases e <;>
    simp only [inside, parts, List.mem_cons, List.not_mem_nil, or_false] at ha <;>
    simp only [isWellFormed, Bool.and_eq_true, allWellFormed_iff] at h <;>
    grind

/-- **Every expression that can be written is read back.** -/
theorem Expr.isReadBack (e : Expr) (hwf : e.isWellFormed = true)
    (hwritten : ∀ v ∈ e.constants, v.IsWritten floatText) : e.IsReadBack floatText := by
  induction e using Expr.induction with
  | h e ih =>
    have hback : ∀ a ∈ e.inside, a.IsReadBack floatText := fun a ha =>
      ih a ha (isWellFormed_of_mem_inside hwf ha) fun v hv =>
        hwritten v (constants_subset_of_mem_inside ha hv)
    have hinside : ∀ a ∈ e.inside, a.ReadsBack floatText := fun a ha => (hback a ha).reads
    cases e with
    | literal s v =>
      refine ⟨fun rest hrest => ?_, nofun⟩
      exact Literal.readsExpr_render hwf (hwritten v List.mem_cons_self) hrest s
    | var s x => exact ⟨.var hwf s, nofun⟩
    | element s x a =>
      simp only [isWellFormed, Bool.and_eq_true] at hwf
      exact ⟨.element hwf.1 (hinside a List.mem_cons_self) s, nofun⟩
    | arith s op a b =>
      obtain ⟨ha, hb⟩ := ReadsBack.of_pair hinside
      exact ⟨.arith ha hb s op, nofun⟩
    | logical s op a b =>
      obtain ⟨ha, hb⟩ := ReadsBack.of_pair hinside
      exact ⟨.logical ha hb s op, nofun⟩
    | compare s op a b =>
      obtain ⟨ha, hb⟩ := ReadsBack.of_pair hinside
      exact ⟨.compare ha hb s op, nofun⟩
    | not s a => exact ⟨.not (hinside a List.mem_cons_self) s, nofun⟩
    | ifThen s c a =>
      obtain ⟨hc, ha⟩ := ReadsBack.of_pair hinside
      exact ⟨.ifThen hc ha s, nofun⟩
    | ifElse s c a b =>
      obtain ⟨hc, hbranches⟩ := List.forall_mem_cons.mp hinside
      obtain ⟨ha, hb⟩ := ReadsBack.of_pair hbranches
      exact ⟨.ifElse hc ha hb s, nofun⟩
    | whileDo s c a =>
      obtain ⟨hc, ha⟩ := ReadsBack.of_pair hinside
      exact ⟨.whileDo hc ha s, nofun⟩
    | forIn s x a b =>
      simp only [isWellFormed, Bool.and_eq_true] at hwf
      obtain ⟨ha, hb⟩ := ReadsBack.of_pair hinside
      exact ⟨.forIn hwf.1.1 ha hb s, nofun⟩
    | brk s => exact ⟨.brk s, nofun⟩
    | nxt s => exact ⟨.nxt s, nofun⟩
    | block s es =>
      simp only [isWellFormed, Bool.and_eq_true, Bool.not_eq_true',
        List.isEmpty_eq_false_iff] at hwf
      exact ⟨.block hwf.1 hinside s, fun _ => ReadsBack.compound hwf.1 hinside s⟩
    | assign s x a =>
      simp only [isWellFormed, Bool.and_eq_true] at hwf
      exact ⟨.assign hwf.1 (hinside a List.mem_cons_self) s, nofun⟩
    | assignAt s x a b =>
      simp only [isWellFormed, Bool.and_eq_true] at hwf
      obtain ⟨ha, hb⟩ := ReadsBack.of_pair hinside
      exact ⟨.assignAt hwf.1.1 ha hb s, nofun⟩
    | function s xs b =>
      simp only [isWellFormed, Bool.and_eq_true, List.all_eq_true] at hwf
      obtain ⟨⟨hxs, hblock⟩, -⟩ := hwf
      exact ⟨.function hxs ((hback b List.mem_cons_self).braced hblock) (tight_of_isBlock hblock) s,
        nofun⟩
    | call s x es =>
      simp only [isWellFormed, Bool.and_eq_true] at hwf
      exact ⟨.call hwf.1 hinside s, nofun⟩
    | list s vs =>
      simp only [isWellFormed, Bool.and_eq_true, Bool.not_eq_true', List.isEmpty_eq_false_iff,
        List.all_eq_true] at hwf
      exact ⟨.list hwf.1 hwf.2 hwritten s, nofun⟩
    | print s a => exact ⟨.print (hinside a List.mem_cons_self) s, nofun⟩
    | cat s a => exact ⟨.cat (hinside a List.mem_cons_self) s, nofun⟩
    | read s => exact ⟨.read s, nofun⟩
    | quit s => exact ⟨.quit s, nofun⟩

/-! ### Programs -/

namespace Program

/-- A program whose parts can be written: names are no reserved words, blocks and lists are not
empty, bodies of functions are blocks, quoted texts hold neither quotes nor line breaks, and numbers
with a point are written as texts of their rule that read back. -/
structure IsWritable (floatText : Float → List Char) (p : Program) : Prop where
  wellFormed : p.isWellFormed = true
  written : ∀ v ∈ Expr.constantsAll p, v.IsWritten floatText

/-- One round of a program: an expression and, if one stands there, a semicolon. -/
abbrev round : Pattern := .seq (.rule .expr) (.opt (.char ';'))

theorem reads_rounds {p : Program} (hp : ∀ e ∈ p, e.ReadsBack floatText) :
    Tight false (p.render floatText ++ []) ∧
      round.Continues false (p.render floatText) [] (p.map Tree.Denotes) := by
  have hstop : round.Continues false [] [] [] :=
    .stop rfl (tight_of_head nofun) (.seq_left (Rule.fails_expr nofun))
  induction p with
  | nil => exact ⟨tight_of_head nofun, hstop⟩
  | cons e p ih =>
    obtain ⟨he, hp⟩ := List.forall_mem_cons.mp hp
    cases p with
    | nil =>
      have hexpr := he [] nofun
      have hround := hexpr.reads.before (tight_of_head nofun) (.absent (.char (c := ';') nofun))
      exact ⟨hexpr.tight, .last rfl hexpr.tight hround hstop⟩
    | cons e' p =>
      have hexpr := he ([';'] ++ (render floatText (e' :: p) ++ [])) (closes_cons (by decide) _)
      have hround := hexpr.reads.seq (tight_cons rfl _) (.present (.text [';'] _))
      have htight :
          Tight false (e.render floatText ++ [';'] ++ (render floatText (e' :: p) ++ [])) := by
        rw [List.append_assoc]
        exact hexpr.tight
      have htext : render floatText (e :: e' :: p) =
          e.render floatText ++ [';'] ++ render floatText (e' :: p) := by
        rw [List.append_assoc]
        rfl
      rw [htext]
      exact ⟨by rwa [List.append_assoc], .step rfl htight hround (ih hp).2⟩

end Program

/-- The tree of an expression is not that of the end of a text. -/
theorem Tree.Denotes.rule_ne {e : Expr} {t : Tree} (h : t.Denotes e) :
    (t.rule != .endOfInput) = true := by
  obtain ⟨rule, span, lexeme, children⟩ := t
  obtain ⟨e', he, -⟩ := h
  refine bne_iff_ne.mpr ?_
  rintro rfl
  cases he

theorem Tree.AllHave.filter_program {es : List Expr} {ts : List Tree}
    (h : AllHave (es.map Denotes ++ [IsNode .endOfInput []]) ts) :
    AllHave (es.map Denotes) (ts.filter (·.rule != .endOfInput)) := by
  induction es generalizing ts with
  | nil =>
    obtain _ | ⟨⟨span, lexeme, us, rfl, -⟩, ⟨⟩⟩ := h
    exact .nil
  | cons e es ih =>
    obtain _ | ⟨he, hts⟩ := h
    simp only [List.filter_cons, he.rule_ne, if_true]
    exact .cons he (ih hts)

namespace Program

/-- The trees of a program are those that a match of its pattern leaves, without the one for the
end. -/
theorem trees_of_scan {cs : List Char} {next : Cursor} {ts : List Tree}
    (h : Rule.program.body.scan false (.atStart cs) = some (next, ts)) :
    Program.trees cs = .ok (ts.filter (·.rule != .endOfInput)) := by
  have hmatch : Rule.program.matchStart cs = .ok (next, [.node .program ⟨0, next.pos⟩ [] ts]) := by
    refine Rule.matchStart_of_scan ?_
    rw [Rule.scan_eq, show (false || Rule.program.isAtomic) = false from rfl, h]
    rfl
  rw [trees, Rule.trees, hmatch]
  exact congrArg Except.ok (List.append_nil _)

theorem parse_of_reads {cs : List Char} {es : List Expr} (htight : Tight false cs)
    (h : (Pattern.seq (.star round) (.rule .endOfInput)).Reads false cs []
      (es.map Tree.Denotes ++ [Tree.IsNode .endOfInput []])) :
    ∃ q, Program.parse cs = .ok q ∧ q.map Expr.eraseSpans = es.map Expr.eraseSpans := by
  obtain ⟨ts, hscan, hts⟩ := h 0
  rw [List.append_nil] at hscan
  have hbody : Rule.program.body.scan false (.atStart cs) = some (⟨[], 0 + byteLength cs⟩, ts) := by
    have hstart : Pattern.start.scanBy Rule.scan false (.atStart cs) = some (.atStart cs, []) := rfl
    change (Pattern.seq .start (.seq (.star round) (.rule .endOfInput))).scanBy
      Rule.scan false _ = _
    rw [scan] at hscan
    rw [scanBy, hstart]
    simp only [Cursor.atStart, htight 0, hscan]
    rfl
  obtain ⟨q, hq, heq⟩ := hts.filter_program.ofTrees
  exact ⟨q, by rw [parse, trees_of_scan hbody]; exact hq, heq⟩

/-- **Writing a program and reading it back.** -/
theorem exists_parse_render {p : Program} (hp : p.IsWritable floatText) :
    ∃ q, Program.parse (p.render floatText) = .ok q ∧ q.eraseSpans = p.eraseSpans := by
  have hback : ∀ e ∈ p, e.ReadsBack floatText := by
    intro e he
    refine (e.isReadBack ((isWellFormed_iff p).mp hp.wellFormed e he) fun v hv =>
      hp.written v ?_).reads
    rw [Expr.constantsAll_eq_flatMap]
    exact List.mem_flatMap_of_mem he hv
  obtain ⟨htight, hrounds⟩ := reads_rounds hback
  have hend : (Pattern.rule .endOfInput).Reads false [] [] [Tree.IsNode .endOfInput []] :=
    .node rfl rfl .stop
  rw [List.append_nil] at htight
  refine parse_of_reads htight ((hrounds.star rfl ?_).before (tight_of_head nofun) hend)
  rwa [List.append_nil]

/-- **Reading undoes writing.** A program that can be written is read back from its text, up to
ranges, and no other program has that text, however its numbers are written. -/
theorem parse_render {p : Program} (hp : p.IsWritable floatText) :
    (∃ q, Program.parse (p.render floatText) = .ok q ∧ q.eraseSpans = p.eraseSpans) ∧
      ∀ (floatText' : Float → List Char) (p' : Program), p'.IsWritable floatText' →
        p'.render floatText' = p.render floatText → p'.eraseSpans = p.eraseSpans := by
  refine ⟨exists_parse_render hp, fun floatText' p' hp' htext => ?_⟩
  obtain ⟨q, hq, heq⟩ := exists_parse_render hp
  obtain ⟨q', hq', heq'⟩ := exists_parse_render hp'
  rw [htext, hq] at hq'
  cases hq'
  exact heq'.symm.trans heq

/-- A program with most kinds of expression in it, nested into each other. -/
def nested (s : Span) : Program :=
  [.assign s "f" (.function s ["a", "b"] (.block s
    [.ifElse s (.compare s .lt (.var s "a") (.literal s (.int (-5))))
        (.ifThen s (.not s (.call s "g" [.var s "a", .literal s (.str "if")])) (.brk s))
        (.assignAt s "xs" (.literal s (.int 1))
          (.arith s .sub (.var s "b") (.literal s (.float (-0.001))))),
      .forIn s "i" (.list s [.int (-1), .float 2.5, .bool true])
        (.print s (.element s "xs" (.var s "i")))])),
    .var s "ifs"]

/-- The text of a nested program, with the fewest digits for its numbers, is read back. -/
theorem parse_render_nested :
    (nested .blank).IsWritable positional ∧
      (nested .blank).render positional =
        ("f<-(function(a,b)\x7b(if(((a)<(-5)))(if((!(g((a),(\"if\")))))(break))" ++
          "else(xs[[(1)]]<-((b)-(-0.001))));" ++
          "(for(i in(list(-1,2.5,TRUE)))(print((xs[[(i)]]))))\x7d);ifs").toList ∧
      ∃ q, Program.parse ((nested .blank).render positional) = .ok q ∧
        q.eraseSpans = (nested .blank).eraseSpans := by
  have hsmall : Rule.float.Accepts (positional (-0.001)) ∧
      readFloat? (positional (-0.001)) = some (-0.001) := by
    have htext : positional (-0.001) = ['-', '0', '.', '0', '0', '1'] := by decide +kernel
    rw [htext, Rule.accepts_float_iff]
    exact ⟨⟨['-'], by decide, ['0'], by decide, ['0', '0', '1'], by decide, rfl⟩, by decide +kernel⟩
  have hlarge : Rule.float.Accepts (positional 2.5) ∧ readFloat? (positional 2.5) = some 2.5 := by
    have htext : positional 2.5 = ['2', '.', '5'] := by decide +kernel
    rw [htext, Rule.accepts_float_iff]
    exact ⟨⟨[], by decide, ['2'], by decide, ['5'], by decide, rfl⟩, by decide +kernel⟩
  have hwritable : (nested .blank).IsWritable positional := by
    refine ⟨rfl, ?_⟩
    have hconstants : Expr.constantsAll (nested .blank) =
        [.int (-5), .str "if", .int 1, .float (-0.001), .int (-1), .float 2.5, .bool true] := rfl
    rw [hconstants]
    simp only [List.forall_mem_cons]
    exact ⟨trivial, trivial, trivial, hsmall, trivial, hlarge, trivial, nofun⟩
  exact ⟨hwritable, by decide +kernel, (parse_render hwritable).1⟩

end Program

end ScopeScript
