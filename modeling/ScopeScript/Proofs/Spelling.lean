import ScopeScript.Proofs.Decimals
import ScopeScript.Proofs.Finding
import ScopeScript.Proofs.Tokens

/-!
# How programs that are read are spelled

Every program that is read is well formed (`Program.isWellFormed`): its names are names, its texts
can stand between quotes, its blocks and lists have members. Besides, each constant is what the text
at its range spells (`Literal.IsSpelled`): the value of its digits, the text between its quotes.
`Program.isWellFormed_of_parse` says both.

The words come from the rules of single tokens. A tree of the rule for names is found where no
reserved word stands (`Tree.IsFound.isName_lexeme`), and between the quotes of a text each round of
the repetition has looked out for quotes and line breaks (`Tree.IsFound.exists_quoted`). From there
on it is a matter of looking at each kind of node once (`Expr.isWellFormedHere_of_ofTree`,
`Expr.isSpelled_of_ofTree`).
-/

namespace ScopeScript

open Pattern

/-! ### Refusals -/

namespace Pattern

variable {p q : Pattern} {atomic : Bool} {here next : Cursor} {ts : List Tree}

theorem of_scan_notAhead (h : (notAhead p).scan atomic here = some (next, ts)) :
    p.scan atomic here = none ∧ next = here := by
  simp only [scan, scanBy] at h
  split at h
  · rename_i hp
    cases h
    exact ⟨hp, rfl⟩
  · cases h

theorem of_scan_alt_eq_none (h : (alt p q).scan atomic here = none) :
    p.scan atomic here = none ∧ q.scan atomic here = none := by
  simp only [scan, scanBy] at h
  split at h
  · rename_i hp
    exact ⟨hp, h⟩
  · rename_i hp
    exact absurd h (hp · )

/-- A text that is refused does not stand next. -/
theorem rest_ne_of_scan_text_eq_none {cs rest : List Char} (h : (text cs).scan atomic here = none) :
    here.rest ≠ cs ++ rest := by
  intro hrest
  have hafter : here.afterText? cs = some ⟨rest, here.pos + byteLength cs⟩ :=
    Cursor.afterText?_eq_some_iff.mpr ⟨hrest, rfl⟩
  rw [scan, scanBy, hafter] at h
  cases h

end Pattern

/-! ### Names -/

section Found

variable {source : List Char} {t : Tree}

/-- **A name that is found is a name**, and no reserved word. -/
theorem Tree.IsFound.isName_lexeme (h : t.IsFound source) (hrule : t.rule = .ident) :
    isName t.lexeme = true := by
  obtain ⟨-, ⟨rest, pos⟩, next, -, hscan⟩ := h
  rw [hrule] at hscan
  cases hname : isName (firstWord rest) with
  | false =>
    have hfails := Rule.fails_ident hname pos
    rw [show (Pattern.rule .ident).scan false ⟨rest, pos⟩ =
      Rule.ident.scan false ⟨rest, pos⟩ from rfl, hscan] at hfails
    cases hfails
  | true =>
    obtain ⟨w, tail, rfl, hall, htail⟩ := exists_firstWord rest
    rw [firstWord_append hall htail] at hname
    obtain ⟨ts, hts, hword⟩ := Rule.reads_ident hname htail pos
    obtain ⟨⟩ : some (next, [t]) = some (_, ts) := hscan.symm.trans hts
    obtain ⟨⟨span, rfl⟩, -⟩ := List.forall₂_cons.mp hword
    exact hname

/-! ### Quoted texts -/

/-- One round between quotes: no quote and no line break. -/
theorem exists_quotable_of_scan {here next : Cursor} {us : List Tree}
    (h : (Pattern.seq (.notAhead (.alt (.char '"') lineBreak)) (.one .any)).scan true here =
      some (next, us)) :
    ∃ c, isQuotable [c] = true ∧ here.Spans [c] next := by
  obtain ⟨mid, ps, qs, hlook, hone, -⟩ := exists_of_scan_seq h
  obtain ⟨hrefused, rfl⟩ := of_scan_notAhead hlook
  obtain ⟨hquote, hbreak⟩ := of_scan_alt_eq_none hrefused
  obtain ⟨hfeed, hreturns⟩ := of_scan_alt_eq_none hbreak
  obtain ⟨-, hreturn⟩ := of_scan_alt_eq_none hreturns
  have hderives : Derives true (.one .any) mid qs next := derives_of_scan hone
  cases hderives with
  | one hafter =>
    obtain ⟨c, -, hc⟩ := Cursor.spans_of_afterOne? hafter
    have hne : ∀ d, (Pattern.char d).scan true mid = none → c ≠ d := by
      rintro d hd rfl
      exact rest_ne_of_scan_text_eq_none hd hc.rest
    exact ⟨c, by simp [isQuotable, hne _ hquote, hne _ hfeed, hne _ hreturn], hc⟩

/-- A match of a quoted text: between the quotes there is no quote and no line break. -/
theorem exists_quoted_of_scan {here next : Cursor} {us : List Tree}
    (h : (Rule.body .string).scan true here = some (next, us)) :
    ∃ cs, isQuotable cs = true ∧ here.Spans ('"' :: (cs ++ ['"'])) next := by
  obtain ⟨first, _, _, hopen, hrest, -⟩ := exists_of_scan_seq h
  obtain ⟨last, _, _, hinner, hclose, -⟩ := exists_of_scan_seq hrest
  have hfirst := (derives_of_scan hopen).text_of_text
  have hlast := (derives_of_scan hclose).text_of_text
  change (Pattern.star _).scan true first = _ at hinner
  change last.Spans ['"'] next at hlast
  have hquotable : ∃ cs, isQuotable cs = true ∧ first.Spans cs last := by
    rw [scan_star] at hinner
    split at hinner
    · cases hinner
      exact ⟨[], rfl, .refl _⟩
    · rename_i mid us hround
      obtain ⟨c, hc, hspans⟩ := exists_quotable_of_scan hround
      refine Yield.rounds_keeps (K := fun there _ => ∃ cs, isQuotable cs = true ∧
        first.Spans cs there) ?_
        ⟨[c], hc, hspans⟩ hinner
      rintro there ts next us ⟨cs, hcs, hspans⟩ hround
      obtain ⟨d, hd, hone⟩ := exists_quotable_of_scan hround
      refine ⟨cs ++ [d], ?_, hspans.trans hone⟩
      rw [isQuotable, List.all_append]
      exact Bool.and_eq_true_iff.mpr ⟨hcs, hd⟩
  obtain ⟨cs, hcs, hspans⟩ := hquotable
  exact ⟨cs, hcs, hfirst.trans (hspans.trans hlast)⟩

/-- **What stands between the quotes of a text can stand there.** -/
theorem Tree.IsFound.exists_quoted (h : t.IsFound source) (hrule : t.rule = .string) :
    ∃ cs, isQuotable cs = true ∧ t.lexeme = '"' :: (cs ++ ['"']) := by
  obtain ⟨here, next, -, hbody, -, hlexeme⟩ := h.exists_body
  rw [hrule] at hbody hlexeme
  obtain ⟨cs, hcs, hspans⟩ := exists_quoted_of_scan hbody
  refine ⟨cs, hcs, ?_⟩
  rw [hlexeme]
  exact hspans.takeBytes

end Found

/-! ### Constants -/

/-- The text spells the constant. -/
def Literal.IsSpelled (v : Literal) (text : List Char) : Prop :=
  match v with
  | .int n => IsIntText text ∧ n.toInt = signedValue text
  | .float x => IsFloatText text ∧ readFloat? text = some x
  | .str s => text = '"' :: (s.toList ++ ['"'])
  | .bool true => text = ['T', 'R', 'U', 'E']
  | .bool false => text = ['F', 'A', 'L', 'S', 'E']

theorem toInt_of_readInt? {cs : List Char} {n : Int64} (h : readInt? cs = some n) :
    n.toInt = signedValue cs := by
  obtain ⟨-, hfits, rfl⟩ := (readInt?_eq_some_iff cs n).mp h
  have hhalf : (halfWordSize : Int) = 2 ^ 63 := rfl
  simp only [fitsWord, hhalf, Bool.and_eq_true, decide_eq_true_eq] at hfits
  exact Int64.toInt_ofInt_of_le hfits.1 hfits.2

/-- **A constant is what its text spells**, and it is well formed. -/
theorem Literal.isSpelled_of_ofTree {source : List Char} {t : Tree} {v : Literal}
    (ht : t.IsFound source)
    (h : Literal.ofTree t = .ok v) : v.isWellFormed = true ∧ v.IsSpelled (t.span.slice source) := by
  unfold Literal.ofTree at h
  split at h
  · rename_i hrule
    rw [ht.slice (by rw [hrule]; rfl)]
    split at h
    · rename_i n hn
      cases h
      exact ⟨rfl, ht.isMatch.lexeme_int hrule, toInt_of_readInt? hn⟩
    · cases h
  · rename_i hrule
    rw [ht.slice (by rw [hrule]; rfl)]
    split at h
    · rename_i x hx
      cases h
      have htext := ht.isMatch.lexeme_float hrule
      have hnumber : x.isNaN = false := htext.isNaN hx
      exact ⟨by rw [isWellFormed, hnumber]; rfl, htext, hx⟩
    · cases h
  · rename_i hrule
    cases h
    rw [ht.slice (by rw [hrule]; rfl)]
    obtain ⟨cs, hcs, hlexeme⟩ := ht.exists_quoted hrule
    have hunquote : unquote t.lexeme = cs := by
      rw [hlexeme, unquote, List.drop_one, List.tail_cons, List.dropLast_concat]
    rw [hunquote]
    refine ⟨by rw [isWellFormed, String.toList_ofList]; exact hcs, ?_⟩
    rw [IsSpelled, String.toList_ofList]
    exact hlexeme
  · rename_i hrule
    rw [ht.slice (by rw [hrule]; rfl)]
    split at h
    · rename_i hlexeme
      cases h
      exact ⟨rfl, hlexeme⟩
    · split at h
      · rename_i hlexeme
        cases h
        exact ⟨rfl, hlexeme⟩
      · cases h
  · cases h

theorem Literal.areSpelled_of_mapM {source : List Char} {ts : List Tree} {vs : List Literal}
    (hts : ∀ t ∈ ts, t.IsFound source) (h : ts.mapM Literal.ofTree = .ok vs) :
    (∀ v ∈ vs, v.isWellFormed = true) ∧
      List.Forall₂ (fun t v => v.IsSpelled (t.span.slice source)) ts vs := by
  induction ts generalizing vs with
  | nil =>
    cases h
    exact ⟨nofun, .nil⟩
  | cons t ts ih =>
    rw [List.mapM_cons] at h
    obtain ⟨v, hv, h⟩ := exists_of_bind_eq_ok h
    obtain ⟨vs', hvs, h⟩ := exists_of_bind_eq_ok h
    cases h
    obtain ⟨ht, hts⟩ := List.forall_mem_cons.mp hts
    obtain ⟨hwell, hspelled⟩ := Literal.isSpelled_of_ofTree ht hv
    obtain ⟨hwells, hspelleds⟩ := ih hts hvs
    exact ⟨List.forall_mem_cons.mpr ⟨hwell, hwells⟩, .cons hspelled hspelleds⟩

/-! ### Well-formed expressions -/

/-- What it takes for an expression to be well formed, besides that the expressions inside of it
are. -/
def Expr.IsWellFormedHere : Expr → Prop
  | .literal _ v => v.isWellFormed = true
  | .var _ x | .element _ x _ | .assign _ x _ | .forIn _ x _ _ | .assignAt _ x _ _ | .call _ x _ =>
    isName x.toList = true
  | .block _ es => es ≠ []
  | .function _ ps body => (∀ p ∈ ps, isName p.toList = true) ∧ body.isBlock = true
  | .list _ vs => vs ≠ [] ∧ ∀ v ∈ vs, v.isWellFormed = true
  | _ => True

theorem Expr.isWellFormed_of_everywhere {e : Expr} (h : e.Everywhere Expr.IsWellFormedHere) :
    e.isWellFormed = true := by
  induction h with
  | @intro e here _ ih =>
    have hinside : ∀ a ∈ e.inside, a.isWellFormed = true := ih
    clear ih
    cases e <;>
      simp_all [Expr.isWellFormed, Expr.inside, Expr.parts, Expr.IsWellFormedHere,
        Expr.allWellFormed_iff]

section Nodes

variable {source : List Char} {t : Tree}

/-- The first child of a node that begins with a name. -/
theorem Tree.IsMatch.rule_name {name : Tree} {us : List Tree} (h : t.IsMatch)
    (hchildren : t.children = name :: us)
    (hrule : t.rule ∈ [.singleElement, .call, .forExpr, .assignment]) : name.rule = .ident := by
  have hfixed : ∀ {r : Rule} {rs : List Rule}, t.rule = r → r.isAtomic = false →
      r.body.parts? = some (.ident :: rs) → name.rule = .ident := by
    intro r rs hr hatomic hparts
    have hall := h.forall₂_children hr hatomic hparts
    rw [hchildren] at hall
    exact List.mem_singleton.mp (List.forall₂_cons.mp hall).1
  simp only [List.mem_cons, List.not_mem_nil, or_false] at hrule
  rcases hrule with hr | hr | hr | hr
  · exact hfixed hr rfl rfl
  · exact hfixed hr rfl rfl
  · exact hfixed hr rfl rfl
  · obtain ⟨name', hname, rest, -, hsame⟩ := h.children_assignment hr
    obtain ⟨rfl, -⟩ := List.cons.inj (hsame.trans hchildren)
    exact List.mem_singleton.mp hname

theorem Tree.IsFound.isName_child {name : Tree} {us : List Tree} (h : t.IsFound source)
    (hchildren : t.children = name :: us)
    (hrule : t.rule ∈ [.singleElement, .call, .forExpr, .assignment]) :
    isName name.name.toList = true := by
  rw [Tree.name, String.toList_ofList]
  exact (h.child (hchildren ▸ List.mem_cons_self)).isName_lexeme
    (h.isMatch.rule_name hchildren hrule)

theorem Tree.IsFound.isName_param {p : Tree} (h : t.IsFound source) (hrule : t.rule = .params)
    (hp : p ∈ t.children) : isName p.name.toList = true := by
  have hident : p.IsLeft .ident := h.isMatch.forall_mem_children hrule rfl (by decide) p hp
  rw [Tree.name, String.toList_ofList]
  exact (h.child hp).isName_lexeme (List.mem_singleton.mp hident)

/-- A block has a member. -/
theorem Tree.IsMatch.children_compound (h : t.IsMatch) (hrule : t.rule = .compound) :
    t.children ≠ [] := by
  have hleaves := h.leaves hrule rfl
  simp only [Rule.body, inOrder, Leaves, Rule.leaves] at hleaves
  obtain ⟨_, -, _, ⟨_, ⟨u, -, rfl⟩, _, -, rfl⟩, hchildren⟩ := hleaves
  rw [← hchildren]
  simp

theorem Expr.length_of_ofTrees {ts : List Tree} {es : List Expr} (h : Expr.ofTrees ts = .ok es) :
    es.length = ts.length := by
  induction ts generalizing es with
  | nil =>
    cases h
    rfl
  | cons t ts ih =>
    obtain ⟨e, -, h⟩ := exists_of_bind_eq_ok h
    obtain ⟨es', hes, h⟩ := exists_of_bind_eq_ok h
    cases h
    rw [List.length_cons, List.length_cons, ih hes]

/-- The constant of a node that is one. -/
theorem Expr.isSpelled_of_literal {r : Rule} {span : Span} {lexeme : List Char}
    {children : List Tree} {v : Literal} (ht : (Tree.node r span lexeme children).IsFound source)
    (hrule : r ∈ [.float, .int, .string, .boolean])
    (h : Literal.ofTree (.node r span lexeme []) = .ok v) :
    v.isWellFormed = true ∧ v.IsSpelled (span.slice source) := by
  have hatomic : ∀ r ∈ [Rule.float, .int, .string, .boolean], r.isAtomic = true := by decide
  obtain rfl : children = [] := ht.isMatch.children_of_isAtomic (hatomic r hrule)
  exact Literal.isSpelled_of_ofTree ht h

theorem Expr.isWellFormedHere_of_ofTree {e : Expr} (ht : t.IsFound source)
    (hbare : t.isBare = false)
    (h : Expr.ofTree t = .ok e) : e.IsWellFormedHere := by
  have hshaped := Expr.isShaped_of_ofTree ht.isMatch hbare h
  cases Tree.makes_of_ofTree h with
  | alone | grouped | run => cases hbare
  | literal hrule hv => exact (Expr.isSpelled_of_literal ht hrule hv).1
  | var =>
    rw [IsWellFormedHere, String.toList_ofList]
    exact ht.isName_lexeme rfl
  | element | call | assign | forIn | assignAt => exact ht.isName_child rfl (by simp [Tree.rule])
  | block hes =>
    have hlength := Expr.length_of_ofTrees hes
    have hchildren := ht.isMatch.children_compound rfl
    rintro rfl
    exact hchildren (List.length_eq_zero_iff.mp hlength.symm)
  | function =>
    refine ⟨fun p hp => ?_, hshaped⟩
    obtain ⟨u, hu, rfl⟩ := List.mem_map.mp hp
    exact (ht.child List.mem_cons_self).isName_param rfl hu
  | list hvs => exact ⟨hshaped, (Literal.areSpelled_of_mapM (fun u hu => ht.child hu) hvs).1⟩
  | _ => trivial

/-! ### Texts of expressions -/

/-- The text at the range of a constant or a variable spells it; the members of a list are spelled
by texts that stand one after the other in its range. -/
def Expr.IsSpelled (source : List Char) : Expr → Prop
  | .literal span v => v.IsSpelled (span.slice source)
  | .var span x => x.toList = span.slice source
  | .list span vs => ∃ spans : List Span,
      List.Forall₂ (fun s v => v.IsSpelled (s.slice source)) spans vs ∧
      (∀ s ∈ spans, span.start ≤ s.start ∧ s.stop ≤ span.stop) ∧
      spans.Pairwise fun s s' => s.stop ≤ s'.start
  | _ => True

theorem Expr.isSpelled_of_ofTree {e : Expr} (ht : t.IsFound source) (hbare : t.isBare = false)
    (h : Expr.ofTree t = .ok e) : e.IsSpelled source := by
  cases Tree.makes_of_ofTree h with
  | alone | grouped | run => cases hbare
  | literal hrule hv => exact (Expr.isSpelled_of_literal ht hrule hv).2
  | var =>
    rw [IsSpelled, String.toList_ofList]
    exact (ht.slice rfl).symm
  | @list _ _ children _ hvs =>
    have hspelled := (Literal.areSpelled_of_mapM (fun u hu => ht.child hu) hvs).2
    have hchain := ht.isMatch.chain_children
    exact ⟨children.map Tree.span, List.forall₂_map_left_iff.mpr hspelled, hchain.within,
      hchain.pairwise⟩
  | _ => trivial

end Nodes

/-! ### Programs -/

theorem Expr.holdsOfRead_isSpelled (source : List Char) :
    HoldsOfRead (Tree.IsFound source) fun e => e.IsWellFormedHere ∧ e.IsSpelled source where
  child := Tree.IsFound.child
  node ht hbare h :=
    ⟨Expr.isWellFormedHere_of_ofTree ht hbare h, Expr.isSpelled_of_ofTree ht hbare h⟩
  join op _ _ := by cases op <;> exact ⟨trivial, trivial⟩
  negate _ _ := ⟨trivial, trivial⟩

/-- **Every program that is read is well formed, and its constants and variables are spelled by the
text at their ranges.** -/
theorem Program.isWellFormed_of_parse {source : List Char} {p : Program}
    (h : Program.parse source = .ok p) :
    p.isWellFormed = true ∧ ∀ e ∈ p, e.Everywhere (Expr.IsSpelled source) := by
  have hboth := Program.everywhere_of_parse (Expr.holdsOfRead_isSpelled source)
    (fun _ => Program.isFound_of_trees) h
  constructor
  · refine (Program.isWellFormed_iff p).mpr fun e he => Expr.isWellFormed_of_everywhere ?_
    exact (hboth e he).imp fun _ => And.left
  · exact fun e he => (hboth e he).imp fun _ => And.right

/-- A function whose name and parameters begin with reserved words, with a list in its body. -/
def Program.worded : Program :=
  [.assign ⟨0, 62⟩ "iffy" (.function ⟨8, 62⟩ ["in_", "nexts"] (.block ⟨30, 62⟩
    [.list ⟨33, 53⟩ [.int (-7), .float 0.5, .str "#if"], .var ⟨55, 60⟩ "TRUEs"]))]

/-- The text of `worded`. -/
def Program.wordedText : List Char :=
  "iffy <- function(in_, nexts)  \x7b\n list(-07, .5, \"#if\"); TRUEs\n\x7d".toList

theorem Program.isWellFormed_of_parse_worded :
    Program.parse wordedText = .ok worded ∧ worded.isWellFormed = true ∧
      ∀ e ∈ worded, e.Everywhere (Expr.IsSpelled wordedText) := by
  have hparse : Program.parse wordedText = .ok worded := rfl
  exact ⟨hparse, Program.isWellFormed_of_parse hparse⟩

end ScopeScript
