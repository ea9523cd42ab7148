import ScopeScript.Grammar.Matching

/-!
# Derivations of match trees

`Derives` says which trees the grammar allows for a stretch of text, without saying how they are
found: each constructor is a way of putting together a match. Silent rules hand on the trees of
their body, and so does every rule inside of an atomic one; the other rules make a node. Refusals
are left out: what a negative look-ahead forbids is not part of the relation.

* `Rule.derives_of_matchStart`: what matching finds is derived.
* `Derives.isMatch`: each tree of a derivation is a match of its rule (`Tree.IsMatch`), with
  children that are derived from its body, and so are they in turn (`Tree.IsMatch.child`).

The last part reads off which children a node has, where the grammar fixes it.
-/

namespace ScopeScript

/-- The text of a match of a rule. -/
def Rule.lexeme (r : Rule) (here next : Cursor) : List Char :=
  if r.isAtomic then takeBytes (next.pos - here.pos) here.rest else []

/-- A pattern spans the text between two cursors, and leaves these trees. -/
inductive Derives : Bool → Pattern → Cursor → List Tree → Cursor → Prop where
  | text {atomic : Bool} {cs : List Char} {here next : Cursor}
      (h : here.afterText? cs = some next) :
      Derives atomic (.text cs) here [] next
  | one {atomic : Bool} {cls : CharClass} {here next : Cursor}
      (h : here.afterOne? cls = some next) :
      Derives atomic (.one cls) here [] next
  | start {atomic : Bool} {here : Cursor} (h : here.pos = 0) : Derives atomic .start here [] here
  | stop {atomic : Bool} {here : Cursor} (h : here.rest.isEmpty) : Derives atomic .stop here [] here
  /-- A silent rule, or any rule inside of an atomic one, hands on the trees of its body. -/
  | bare {atomic : Bool} {r : Rule} {here next : Cursor} {ts : List Tree}
      (hr : atomic || r.isSilent) (h : Derives (atomic || r.isAtomic) r.body here ts next) :
        Derives atomic (.rule r) here ts next
  | node {r : Rule} {here next : Cursor} {ts : List Tree} (hr : r.isSilent = false)
      (h : Derives r.isAtomic r.body here ts next) :
      Derives false (.rule r) here [.node r ⟨here.pos, next.pos⟩ (r.lexeme here next) ts] next
  | seq {atomic : Bool} {p q : Pattern} {here mid next : Cursor} {ps qs : List Tree}
      (hp : Derives atomic p here ps mid)
      (hq : Derives atomic q (Mode.skip { atomic } mid) qs next) :
      Derives atomic (.seq p q) here (ps ++ qs) next
  | first {atomic : Bool} {p q : Pattern} {here next : Cursor} {ts : List Tree}
      (h : Derives atomic p here ts next) : Derives atomic (.alt p q) here ts next
  | second {atomic : Bool} {p q : Pattern} {here next : Cursor} {ts : List Tree}
      (h : Derives atomic q here ts next) : Derives atomic (.alt p q) here ts next
  | absent {atomic : Bool} {p : Pattern} {here : Cursor} : Derives atomic (.opt p) here [] here
  | present {atomic : Bool} {p : Pattern} {here next : Cursor} {ts : List Tree}
      (h : Derives atomic p here ts next) : Derives atomic (.opt p) here ts next
  | never {atomic : Bool} {p : Pattern} {here : Cursor} : Derives atomic (.star p) here [] here
  | once {atomic : Bool} {p : Pattern} {here next : Cursor} {ts : List Tree}
      (h : Derives atomic p here ts next) : Derives atomic (.star p) here ts next
  | again {atomic : Bool} {p : Pattern} {here mid next : Cursor} {ts us : List Tree}
      (hts : Derives atomic (.star p) here ts mid)
      (hus : Derives atomic p (Mode.skip { atomic } mid) us next) :
      Derives atomic (.star p) here (ts ++ us) next
  | ahead {atomic : Bool} {p : Pattern} {here next : Cursor} {ts : List Tree}
      (h : Derives atomic p here ts next) : Derives atomic (.ahead p) here [] here
  | notAhead {atomic : Bool} {p : Pattern} {here : Cursor} :
      Derives atomic (.notAhead p) here [] here

/-! ### What matching finds is derived -/

/-- What is found, if anything is, is derived. -/
def Found.Derived (found : Found) (atomic : Bool) (p : Pattern) (here : Cursor) : Prop :=
  ∀ next ts a, found = .matched next ts a → Derives atomic p here ts next

theorem Found.derived_ofCursor? {atomic : Bool} {p : Pattern} {here : Cursor}
    {there : Option Cursor}
    {a : Attempts} (hthere : ∀ next, there = some next → Derives atomic p here [] next) :
    (Found.ofCursor? there a).Derived atomic p here := by
  intro next ts b h
  cases there with
  | some mid =>
    cases h
    exact hthere next rfl
  | none => cases h

theorem derived_rounds {m : Mode} {p : Pattern} {part : Cursor → Attempts → Found}
    {start here : Cursor} {ts : List Tree} (hpart : ∀ here a, (part here a).Derived m.atomic p here)
    (hts : Derives m.atomic (.star p) start ts here) (n : Nat) (a : Attempts) :
    (rounds m part n here ts a).Derived m.atomic (.star p) start := by
  induction n generalizing here ts a with
  | zero =>
    rintro next us b ⟨⟩
    exact hts
  | succ n ih =>
    unfold rounds
    cases hround : part (m.skip here) a with
    | matched next found b => exact ih (hts.again (hpart _ _ next found b hround)) b
    | failed b =>
      rintro next us b' ⟨⟩
      exact hts

/-- A pattern finds what is derived, if the rules in it do. -/
theorem Pattern.derived_run {call : Rule → Mode → Cursor → Attempts → Found}
    (hcall : ∀ r m here a, (call r m here a).Derived m.atomic (.rule r) here)
    (p : Pattern) (m : Mode)
    (here : Cursor) (a : Attempts) : (p.run call m here a).Derived m.atomic p here := by
  induction p generalizing m here a with
  | text cs => exact Found.derived_ofCursor? fun next hnext => .text hnext
  | one cls => exact Found.derived_ofCursor? fun next hnext => .one hnext
  | start =>
    intro next ts b h
    unfold run at h
    split at h
    · rename_i hpos
      cases h
      exact .start hpos
    · cases h
  | stop =>
    intro next ts b h
    unfold run at h
    split at h
    · rename_i hrest
      cases h
      exact .stop hrest
    · cases h
  | rule r => exact hcall r m here a
  | seq p q ihp ihq =>
    intro next ts b h
    unfold run at h
    split at h
    · cases h
    · rename_i mid ps a₁ hp
      split at h
      · cases h
      · rename_i last qs a₂ hq
        cases h
        exact .seq (ihp m here a _ _ _ hp) (ihq m _ a₁ _ _ _ hq)
  | alt p q ihp ihq =>
    intro next ts b h
    unfold run at h
    split at h
    · exact .second (ihq m here _ _ _ _ h)
    · exact .first (ihp m here a _ _ _ h)
  | opt p ihp =>
    intro next ts b h
    unfold run at h
    split at h
    · cases h
      exact .absent
    · exact .present (ihp m here a _ _ _ h)
  | star p ihp =>
    intro next ts b h
    unfold run at h
    split at h
    · cases h
      exact .never
    · rename_i mid us a₁ hfirst
      have honce : Derives m.atomic (.star p) here us mid := .once (ihp m here a _ _ _ hfirst)
      exact derived_rounds (fun here a => ihp m here a) honce _ _ _ _ _ h
  | ahead p ihp =>
    intro next ts b h
    unfold run at h
    split at h
    · cases h
    · rename_i mid us a₁ hp
      cases h
      exact .ahead (ihp m.ahead here a _ _ _ hp)
  | notAhead p =>
    intro next ts b h
    unfold run at h
    split at h
    · cases h
      exact .notAhead
    · cases h

theorem derived_matchNode {r : Rule} {m : Mode} {body : Cursor → Attempts → Found} {here : Cursor}
    {a : Attempts} (hr : r.isSilent = false)
    (hbody : (body here a).Derived (m.inside r).atomic r.body here) :
    (matchNode r m body here a).Derived m.atomic (.rule r) here := by
  intro next ts b h
  unfold matchNode at h
  cases hmatched : body here a with
  | matched next' us b' =>
    have hderives := hbody next' us b' hmatched
    simp only [hmatched, Found.matched.injEq] at h
    obtain ⟨rfl, rfl, -⟩ := h
    cases hatomic : m.atomic with
    | true =>
      simp only [Mode.inside, hatomic] at hderives
      exact .bare rfl hderives
    | false =>
      simp only [Mode.inside, hatomic, Bool.false_or] at hderives
      exact .node hr hderives
  | failed b' =>
    simp only [hmatched] at h
    cases h

/-- **Matching a rule finds what is derived.** -/
theorem derived_matchRule (fuel : Nat) (r : Rule) (m : Mode) (here : Cursor) (a : Attempts) :
    (matchRule fuel r m here a).Derived m.atomic (.rule r) here := by
  induction fuel generalizing r m here a with
  | zero =>
    rintro next ts b ⟨⟩
  | succ fuel ih =>
    have hbody := r.body.derived_run ih (m.inside r) here a
    unfold matchRule
    cases hsilent : r.isSilent with
    | true => exact fun next ts b h => .bare (by rw [hsilent, Bool.or_true]) (hbody next ts b h)
    | false => exact derived_matchNode hsilent hbody

theorem Rule.derives_of_matchStart {r : Rule} {source : List Char} {next : Cursor} {ts : List Tree}
    (h : r.matchStart source = .ok (next, ts)) :
    Derives false (.rule r) (.atStart source) ts next := by
  unfold matchStart at h
  split at h
  · rename_i next' us b hmatched
    cases h
    exact derived_matchRule _ r {} _ {} _ _ _ hmatched
  · cases h

/-! ### The nodes of a derivation -/

/-- A tree is a match of its rule: its children are what the body of the rule leaves, and its range
and text are those of the stretch that the body spans. -/
def Tree.IsMatch (t : Tree) : Prop :=
  ∃ here next, Derives t.rule.isAtomic t.rule.body here t.children next ∧
    t.span = ⟨here.pos, next.pos⟩ ∧ t.lexeme = t.rule.lexeme here next

/-- **Every tree of a derivation is a match of its rule.** -/
theorem Derives.isMatch {atomic : Bool} {p : Pattern} {here next : Cursor} {ts : List Tree}
    (h : Derives atomic p here ts next) : ∀ t ∈ ts, t.IsMatch := by
  induction h with
  | text | one | start | stop | absent | never | ahead | notAhead =>
    exact fun _ ht => absurd ht List.not_mem_nil
  | bare _ _ ih | first _ ih | second _ ih | present _ ih | once _ ih => exact ih
  | node hr h _ =>
    rintro t ht
    obtain rfl := List.mem_singleton.mp ht
    exact ⟨_, _, h, rfl, rfl⟩
  | seq _ _ ihp ihq => exact fun t ht => (List.mem_append.mp ht).elim (ihp t) (ihq t)
  | again _ _ ihts ihus => exact fun t ht => (List.mem_append.mp ht).elim (ihts t) (ihus t)

theorem Tree.IsMatch.child {t child : Tree} (h : t.IsMatch) (hchild : child ∈ t.children) :
    child.IsMatch := by
  obtain ⟨here, next, hderives, -⟩ := h
  exact hderives.isMatch child hchild

/-! ### The children of a node -/

namespace Derives

variable {atomic : Bool} {p q : Pattern} {r : Rule} {cs : List Char} {here next : Cursor}
  {ts : List Tree}

theorem of_text (h : Derives atomic (.text cs) here ts next) : ts = [] := by
  cases h
  rfl

theorem of_seq (h : Derives atomic (.seq p q) here ts next) :
    ∃ ps qs mid, Derives atomic p here ps mid ∧
      Derives atomic q (Mode.skip { atomic } mid) qs next ∧ ts = ps ++ qs := by
  cases h with
  | seq hp hq => exact ⟨_, _, _, hp, hq, rfl⟩

theorem of_alt (h : Derives atomic (.alt p q) here ts next) :
    Derives atomic p here ts next ∨ Derives atomic q here ts next := by
  cases h with
  | first h => exact .inl h
  | second h => exact .inr h

/-- A reserved word leaves no tree. -/
theorem of_word (h : Derives atomic (.word cs) here ts next) : ts = [] := by
  obtain ⟨ps, qs, mid, hp, hq, rfl⟩ := of_seq h
  cases hp
  rw [hq.of_text]
  rfl

/-- A rule that is not silent leaves one node, unless it is inside of an atomic one. -/
theorem of_rule (hr : r.isSilent = false) (h : Derives false (.rule r) here ts next) :
    ∃ t, ts = [t] ∧ t.rule = r := by
  cases h with
  | bare hbare _ =>
    rw [hr] at hbare
    cases hbare
  | node => exact ⟨_, rfl, rfl⟩

theorem of_silent (hr : r.isSilent = true) (h : Derives false (.rule r) here ts next) :
    Derives r.isAtomic r.body here ts next := by
  cases h with
  | bare _ h => exact h
  | node hnot =>
    rw [hr] at hnot
    cases hnot

/-- A constant leaves a node. -/
theorem of_constant (h : Derives false (.rule .constant) here ts next) : ts ≠ [] := by
  have hnode : ∀ {r : Rule}, r.isSilent = false →
      Derives false (.rule r) here ts next → ts ≠ [] := by
    intro r hr h
    obtain ⟨t, rfl, -⟩ := h.of_rule hr
    exact List.cons_ne_nil _ _
  rcases (of_silent rfl h).of_alt with h | h
  · exact hnode rfl h
  rcases h.of_alt with h | h
  · exact hnode rfl h
  rcases h.of_alt with h | h
  · exact hnode rfl h
  · exact hnode rfl h

end Derives

/-- A function definition consists of parameters and a block. -/
theorem Tree.IsMatch.functionDef {t : Tree} (h : t.IsMatch) (hrule : t.rule = .functionDef) :
    ∃ params body, t.children = [params, body] ∧ params.rule = .params ∧ body.rule = .compound := by
  obtain ⟨here, next, hderives, -⟩ := h
  rw [hrule] at hderives
  obtain ⟨_, _, _, hword, hrest₁, hts⟩ := Derives.of_seq hderives
  obtain ⟨_, _, _, hopen, hrest₂, rfl⟩ := Derives.of_seq hrest₁
  obtain ⟨_, _, _, hparams, hrest₃, rfl⟩ := Derives.of_seq hrest₂
  obtain ⟨_, _, _, hclose, hbody, rfl⟩ := Derives.of_seq hrest₃
  obtain ⟨params, rfl, hparamsRule⟩ := hparams.of_rule rfl
  obtain ⟨body, rfl, hbodyRule⟩ := hbody.of_rule rfl
  rw [Derives.of_word (Derives.of_silent rfl hword), hopen.of_text, hclose.of_text] at hts
  exact ⟨params, body, hts, hparamsRule, hbodyRule⟩

/-- A list has an element. -/
theorem Tree.IsMatch.listExpr {t : Tree} (h : t.IsMatch) (hrule : t.rule = .listExpr) :
    t.children ≠ [] := by
  obtain ⟨here, next, hderives, -⟩ := h
  rw [hrule] at hderives
  obtain ⟨_, _, _, -, hrest₁, hts⟩ := Derives.of_seq hderives
  obtain ⟨_, _, _, -, hrest₂, rfl⟩ := Derives.of_seq hrest₁
  obtain ⟨_, _, _, hconstant, -, rfl⟩ := Derives.of_seq hrest₂
  have hne := hconstant.of_constant
  rw [hts]
  simp [hne]

end ScopeScript
