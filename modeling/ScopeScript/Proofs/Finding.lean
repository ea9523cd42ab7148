import ScopeScript.Proofs.Recognition
import ScopeScript.Proofs.Totality

/-!
# Where trees are found

Derivations leave out what a look-ahead refuses, so they cannot tell a name from a reserved word.
`Tree.IsFound` keeps the match itself: its rule yields the tree at a cursor that stands in the text,
in front of no blank or comment. The trees of a program are found in its text
(`Program.isFound_of_trees`), and so are the children of a tree that is found
(`Tree.IsFound.child`).

The first part inverts matching: what each kind of pattern has done when it yields something. The
last part says how trees lie in the text: children stand one after the other in the range of their
node (`Tree.IsMatch.chain_children`), and the text of a node without children is the text at its
range (`Tree.IsFound.slice`).
-/

namespace ScopeScript

/-! ### Inverting a match -/

namespace Pattern

variable {p q : Pattern} {atomic : Bool} {here next : Cursor} {ts : List Tree}

theorem exists_of_scan_seq (h : (seq p q).scan atomic here = some (next, ts)) :
    ∃ mid ps qs, p.scan atomic here = some (mid, ps) ∧
      q.scan atomic (Mode.skip { atomic } mid) = some (next, qs) ∧ ts = ps ++ qs := by
  simp only [scan, scanBy] at h
  split at h
  · cases h
  · rename_i mid ps hp
    split at h
    · cases h
    · rename_i last qs hq
      cases h
      exact ⟨mid, ps, qs, hp, hq, rfl⟩

theorem of_scan_alt (h : (alt p q).scan atomic here = some (next, ts)) :
    p.scan atomic here = some (next, ts) ∨
      p.scan atomic here = none ∧ q.scan atomic here = some (next, ts) := by
  simp only [scan, scanBy] at h
  split at h
  · rename_i hp
    exact .inr ⟨hp, h⟩
  · exact .inl h

theorem of_scan_opt (h : (opt p).scan atomic here = some (next, ts)) :
    p.scan atomic here = some (next, ts) ∨ p.scan atomic here = none ∧ next = here ∧ ts = [] := by
  simp only [scan, scanBy] at h
  split at h
  · rename_i hp
    cases h
    exact .inr ⟨hp, rfl, rfl⟩
  · exact .inl h

end Pattern

theorem Rule.exists_of_scan {r : Rule} {atomic : Bool} {here next : Cursor} {ts : List Tree}
    (h : r.scan atomic here = some (next, ts)) :
    ∃ us, r.body.scan (atomic || r.isAtomic) here = some (next, us) ∧
    ts = r.nodes atomic here next us := by
  rw [Rule.scan_eq] at h
  split at h
  · cases h
  · rename_i last us hbody
    cases h
    exact ⟨us, hbody, rfl⟩

/-- What each round of a repetition keeps holds at its end. -/
theorem Yield.rounds_keeps {atomic : Bool} {part : Cursor → Yield} {K : Cursor → List Tree → Prop}
    (hround : ∀ here ts next us, K here ts → part (Mode.skip { atomic } here) = some (next, us) →
      K next (ts ++ us)) {n : Nat} {here next : Cursor} {ts us : List Tree} (hhere : K here ts)
    (h : Yield.rounds atomic part n here ts = some (next, us)) : K next us := by
  induction n generalizing here ts with
  | zero =>
    cases h
    exact hhere
  | succ n ih =>
    simp only [Yield.rounds] at h
    split at h
    · rename_i mid found hpart
      exact ih (hround _ _ _ _ hhere hpart) h
    · cases h
      exact hhere

/-! ### Cursors in a text -/

/-- The cursor stands in the text, and in front of no blank or comment. -/
structure Cursor.StandsIn (here : Cursor) (source : List Char) : Prop where
  spans : ∃ before, (Cursor.atStart source).Spans before here
  tight : ∀ c ∈ here.rest.head?, isSkipped c = false

theorem Cursor.tight_skipFrom (inComment : Bool) (rest : List Char) (pos : Nat) :
    ∀ c ∈ (Cursor.skipFrom inComment rest pos).rest.head?, isSkipped c = false := by
  induction rest generalizing inComment pos with
  | nil => exact fun c hc => by cases hc
  | cons d rest ih =>
    unfold Cursor.skipFrom
    split
    · exact ih _ _
    · rename_i hbreak
      split
      · exact ih _ _
      · split
        · exact ih _ _
        · rename_i hblank
          split
          · exact ih _ _
          · rename_i hsign
            intro c hc
            cases hc
            simp only [not_or] at hbreak hblank
            simp [isSkipped, hbreak, hblank, hsign]

/-- Behind a match, and what is skipped there, a cursor stands in the text. -/
theorem Cursor.standsIn_skip {source : List Char} {mid : Cursor}
    (h : ∃ before, (Cursor.atStart source).Spans before mid) :
    (Mode.skip {} mid).StandsIn source := by
  obtain ⟨before, hbefore⟩ := h
  obtain ⟨blanks, hblanks⟩ := Cursor.spans_skip {} mid
  exact ⟨⟨_, hbefore.trans hblanks⟩, Cursor.tight_skipFrom false mid.rest mid.pos⟩

theorem Cursor.StandsIn.after {source : List Char} {p : Pattern} {atomic : Bool}
    {here next : Cursor}
    {ts : List Tree} (hhere : here.StandsIn source) (h : p.scan atomic here = some (next, ts)) :
    ∃ before, (Cursor.atStart source).Spans before next := by
  obtain ⟨before, hbefore⟩ := hhere.spans
  obtain ⟨cs, hcs⟩ := (Pattern.derives_of_scan h).spans
  exact ⟨_, hbefore.trans hcs⟩

/-! ### Trees in a text -/

/-- The rule of the tree yields it somewhere in the text, in front of no blank or comment. -/
def Tree.IsFound (source : List Char) (t : Tree) : Prop :=
  t.rule.isSilent = false ∧
    ∃ here next, here.StandsIn source ∧ t.rule.scan false here = some (next, [t])

/-- What a silent rule hands on comes from rules that are not silent. -/
theorem Rule.isSilent_of_mem_rules (r : Rule) : r.isSilent = true →
    ∀ s ∈ r.body.rules, s.isSilent = false := by
  cases r <;> decide

section Found

variable {source : List Char}

/-- A pattern yields trees that are found, if the silent rules in it do. -/
theorem Pattern.isFound_of_scan_of_silent {p : Pattern}
    (hsilent : ∀ r ∈ p.rules, r.isSilent = true → ∀ here next ts, here.StandsIn source →
      r.scan false here = some (next, ts) → ∀ t ∈ ts, t.IsFound source)
    {here next : Cursor} {ts : List Tree} (hhere : here.StandsIn source)
    (h : p.scan false here = some (next, ts)) : ∀ t ∈ ts, t.IsFound source := by
  induction p generalizing here next ts with
  | text | one | start | stop | ahead | notAhead =>
    obtain rfl : [] = ts := (derives_of_scan h).leaves rfl
    exact fun _ ht => absurd ht List.not_mem_nil
  | rule r =>
    have hleaves := (derives_of_scan h).leaves rfl
    unfold Leaves at hleaves
    split at hleaves
    · obtain rfl := hleaves
      exact fun _ ht => absurd ht List.not_mem_nil
    · rename_i hr
      cases hr' : r.isSilent with
      | true =>
        exact hsilent r (by rw [rules, if_neg hr]; exact List.mem_singleton_self r)
          hr' _ _ _ hhere h
      | false =>
        obtain ⟨t, ht, rfl⟩ := hleaves
        obtain rfl : t.rule = r := by
          simpa only [Tree.IsLeft, r.leaves_of_isSilent hr', List.mem_singleton] using ht
        exact List.forall_mem_singleton.mpr ⟨hr', here, next, hhere, h⟩
  | seq p q ihp ihq =>
    obtain ⟨mid, ps, qs, hp, hq, rfl⟩ := exists_of_scan_seq h
    have hps := ihp (fun r hr => hsilent r (List.mem_append_left _ hr)) hhere hp
    have hqs := ihq (fun r hr => hsilent r (List.mem_append_right _ hr))
      (Cursor.standsIn_skip (hhere.after hp)) hq
    exact fun t ht => (List.mem_append.mp ht).elim (hps t) (hqs t)
  | alt p q ihp ihq =>
    rcases of_scan_alt h with h | ⟨-, h⟩
    · exact ihp (fun r hr => hsilent r (List.mem_append_left _ hr)) hhere h
    · exact ihq (fun r hr => hsilent r (List.mem_append_right _ hr)) hhere h
  | opt p ih =>
    rcases of_scan_opt h with h | ⟨-, -, rfl⟩
    · exact ih hsilent hhere h
    · exact fun _ ht => absurd ht List.not_mem_nil
  | star p ih =>
    rw [scan_star] at h
    split at h
    · cases h
      exact fun _ ht => absurd ht List.not_mem_nil
    · rename_i mid us hfirst
      -- the trees so far are found, and the cursor has not left the text
      refine (Yield.rounds_keeps (K := fun here ts =>
        (∃ before, (Cursor.atStart source).Spans before here) ∧
        ∀ t ∈ ts, t.IsFound source) ?_ ⟨hhere.after hfirst, ih hsilent hhere hfirst⟩ h).2
      rintro here ts next us ⟨hhere, hts⟩ hround
      have hskip := Cursor.standsIn_skip hhere
      refine ⟨hskip.after hround, fun t ht => ?_⟩
      exact (List.mem_append.mp ht).elim (hts t) (ih hsilent hskip hround t)

/-- **What a pattern yields is found.** -/
theorem Pattern.isFound_of_scan {p : Pattern} {here next : Cursor} {ts : List Tree}
    (hhere : here.StandsIn source) (h : p.scan false here = some (next, ts)) :
    ∀ t ∈ ts, t.IsFound source := by
  refine isFound_of_scan_of_silent (fun r _ hr here next ts hhere h => ?_) hhere h
  obtain ⟨us, hbody, hts⟩ := Rule.exists_of_scan h
  rw [Rule.nodes, hr, Bool.true_or, if_pos rfl] at hts
  subst hts
  rw [Bool.false_or] at hbody
  cases hatomic : r.isAtomic with
  | true =>
    rw [hatomic] at hbody
    rw [(derives_of_scan hbody).of_atomic rfl]
    exact fun _ ht => absurd ht List.not_mem_nil
  | false =>
    rw [hatomic] at hbody
    refine isFound_of_scan_of_silent (fun s hs hs' => ?_) hhere hbody
    rw [r.isSilent_of_mem_rules hr s hs] at hs'
    cases hs'

namespace Tree.IsFound

variable {t : Tree}

/-- A tree that is found has the children that the body of its rule yields, and its range and text
are those of the stretch that was matched. -/
theorem exists_body (h : t.IsFound source) :
    ∃ here next, here.StandsIn source ∧
    t.rule.body.scan t.rule.isAtomic here = some (next, t.children) ∧
      t.span = ⟨here.pos, next.pos⟩ ∧ t.lexeme = t.rule.lexeme here next := by
  obtain ⟨hsilent, here, next, hhere, hscan⟩ := h
  obtain ⟨us, hbody, ht⟩ := Rule.exists_of_scan hscan
  rw [Rule.nodes, hsilent, Bool.false_or, if_neg Bool.false_ne_true] at ht
  obtain ⟨rule, span, lexeme, children⟩ := t
  simp only [List.cons.injEq, Tree.node.injEq, and_true] at ht
  obtain ⟨-, hspan, hlexeme, rfl⟩ := ht
  exact ⟨here, next, hhere, hbody, hspan, hlexeme⟩

theorem isMatch (h : t.IsFound source) : t.IsMatch := by
  obtain ⟨here, next, -, hbody, hspan, hlexeme⟩ := h.exists_body
  exact ⟨here, next, Pattern.derives_of_scan hbody, hspan, hlexeme⟩

theorem child {u : Tree} (h : t.IsFound source) (hu : u ∈ t.children) : u.IsFound source := by
  obtain ⟨here, next, hhere, hbody, -⟩ := h.exists_body
  cases hatomic : t.rule.isAtomic with
  | true =>
    rw [h.isMatch.children_of_isAtomic hatomic] at hu
    cases hu
  | false =>
    rw [hatomic] at hbody
    exact Pattern.isFound_of_scan hhere hbody u hu

end Tree.IsFound

/-- The trees of a rule are those of a match at the start of the text. -/
theorem Rule.scan_of_trees {r : Rule} {roots : List Tree} (h : r.trees source = .ok roots) :
    ∃ next, r.scan false (.atStart source) = some (next, roots) := by
  have hresult := matchRule_result_eq (fuelFor source) r {} (.atStart source) {}
  unfold Rule.trees Rule.matchStart at h
  cases hmatch : matchRule (fuelFor source) r {} (.atStart source) {} with
  | failed a =>
    rw [hmatch] at h
    cases h
  | matched next us a =>
    rw [hmatch] at h hresult
    cases h
    exact ⟨next, hresult.symm⟩

/-- **The trees of a program are found in its text.** -/
theorem Program.isFound_of_trees {ts : List Tree} (h : Program.trees source = .ok ts) :
    ∀ t ∈ ts, t.IsFound source := by
  intro t ht
  obtain ⟨roots, hroots, h⟩ := exists_of_bind_eq_ok h
  cases h
  obtain ⟨root, hroot, ht⟩ := List.mem_flatMap.mp ht
  obtain ⟨next, hscan⟩ := Rule.scan_of_trees hroots
  obtain ⟨us, hbody, rfl⟩ := Rule.exists_of_scan hscan
  obtain rfl := List.mem_singleton.mp hroot
  -- the start of the text leaves no tree, and blanks are skipped behind it
  obtain ⟨mid, ps, qs, hstart, hrest, rfl⟩ := Pattern.exists_of_scan_seq hbody
  obtain ⟨rfl, rfl⟩ : mid = .atStart source ∧ ps = [] := by
    simpa [Pattern.scan, Pattern.scanBy, Cursor.atStart, eq_comm] using hstart
  have hstands : (Mode.skip {} (.atStart source)).StandsIn source :=
    Cursor.standsIn_skip ⟨[], .refl _⟩
  exact Pattern.isFound_of_scan hstands hrest t (List.mem_filter.mp ht).1

/-! ### Ranges -/

/-- The ranges stand one after the other between two positions. -/
def Span.Chain : Nat → List Span → Nat → Prop
  | start, [], stop => start ≤ stop
  | start, s :: ss, stop => start ≤ s.start ∧ s.start ≤ s.stop ∧ Chain s.stop ss stop

namespace Span.Chain

variable {a b c d : Nat} {s : Span} {ss ss' : List Span}

theorem le (h : Chain a ss b) : a ≤ b := by
  induction ss generalizing a with
  | nil => exact h
  | cons s ss ih =>
    obtain ⟨hstart, hself, hrest⟩ := h
    have := ih hrest
    omega

theorem widen (h : Chain b ss c) (hstart : a ≤ b) (hstop : c ≤ d) : Chain a ss d := by
  induction ss generalizing a b with
  | nil => exact Nat.le_trans hstart (Nat.le_trans h hstop)
  | cons s ss ih => exact ⟨Nat.le_trans hstart h.1, h.2.1, ih h.2.2 (Nat.le_refl _)⟩

theorem append (h : Chain a ss b) (h' : Chain b ss' c) : Chain a (ss ++ ss') c := by
  induction ss generalizing a with
  | nil => exact h'.widen h (Nat.le_refl c)
  | cons s ss ih => exact ⟨h.1, h.2.1, ih h.2.2⟩

theorem tail (h : Chain a (s :: ss) b) : Chain a ss b :=
  h.2.2.widen (Nat.le_trans h.1 h.2.1) (Nat.le_refl b)

theorem sublist (h : Chain a ss b) (hsub : ss'.Sublist ss) : Chain a ss' b := by
  induction hsub generalizing a with
  | slnil => exact h
  | cons s _ ih => exact ih h.tail
  | cons_cons s _ ih => exact ⟨h.1, h.2.1, ih h.2.2⟩

theorem within (h : Chain a ss b) : ∀ s ∈ ss, a ≤ s.start ∧ s.stop ≤ b := by
  induction ss generalizing a with
  | nil => exact fun _ hs => absurd hs List.not_mem_nil
  | cons s ss ih => exact List.forall_mem_cons.mpr ⟨⟨h.1, h.2.2.le⟩, ih h.tail⟩

theorem pairwise (h : Chain a ss b) : ss.Pairwise fun s s' => s.stop ≤ s'.start := by
  induction ss generalizing a with
  | nil => exact .nil
  | cons s ss ih => exact .cons (fun s' hs' => (h.2.2.within s' hs').1) (ih h.2.2)

end Span.Chain

/-- The trees of a derivation stand one after the other. -/
theorem Derives.chain {atomic : Bool} {p : Pattern} {here next : Cursor} {ts : List Tree}
    (h : Derives atomic p here ts next) : Span.Chain here.pos (ts.map Tree.span) next.pos := by
  induction h with
  | text h => exact (Cursor.afterText?_eq_some_iff.mp h).pos_le
  | one h =>
    obtain ⟨c, -, hc⟩ := Cursor.spans_of_afterOne? h
    exact hc.pos_le
  | start | stop | absent | never | ahead | notAhead => exact Nat.le_refl _
  | bare _ _ ih | first _ ih | second _ ih | present _ ih | once _ ih => exact ih
  | node _ _ ih => exact ⟨Nat.le_refl _, ih.le, Nat.le_refl _⟩
  | @seq _ _ _ _ mid _ _ _ _ _ ihp ihq | @again _ _ _ mid _ _ _ _ _ ihp ihq =>
    obtain ⟨blanks, hblanks⟩ := Cursor.spans_skip _ mid
    rw [List.map_append]
    exact ihp.append (ihq.widen hblanks.pos_le (Nat.le_refl _))

theorem Tree.IsMatch.chain_children {t : Tree} (h : t.IsMatch) :
    Span.Chain t.span.start (t.children.map Tree.span) t.span.stop := by
  obtain ⟨here, next, hderives, hspan, -⟩ := h
  rw [hspan]
  exact hderives.chain

/-- The text of a node of an atomic rule is the text at its range. -/
theorem Tree.IsFound.slice {t : Tree} (h : t.IsFound source) (hatomic : t.rule.isAtomic = true) :
    t.span.slice source = t.lexeme := by
  obtain ⟨here, next, hhere, -, hspan, hlexeme⟩ := h.exists_body
  obtain ⟨before, hbefore⟩ := hhere.spans
  rw [hspan, hbefore.slice, hlexeme, Rule.lexeme, if_pos hatomic]

end Found

end ScopeScript
