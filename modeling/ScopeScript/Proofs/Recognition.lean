import Mathlib.Data.List.Forall2
import ScopeScript.Proofs.Scanning

/-!
# Which texts a pattern reads

`p.Reads atomic cs rest Ps` says that the pattern, in front of a text `cs` followed by `rest`,
matches exactly `cs`, and leaves one tree for each of the properties `Ps`, with that property.
`p.Fails atomic rest` says that it does not match there. Both hold at every position, and for both
there is a lemma for each way to build a pattern, so that what a rule does on a text is put together
like the rule itself.

In an ordered choice the earlier alternatives have to fail (`Reads.firstOf`), and a repetition has
to stop (`Continues.stop`): this is where the text that follows matters. `Tight` says that no blank
or comment stands in front of a text.
-/

namespace ScopeScript

/-! ### Blanks -/

/-- The characters with which blanks and comments begin. -/
def isSkipped (c : Char) : Bool := [' ', '\t', '\n', '\r', '#'].contains c

/-- Nothing is skipped in front of the text. -/
def Tight (atomic : Bool) (rest : List Char) : Prop :=
  ∀ pos, Mode.skip { atomic } ⟨rest, pos⟩ = ⟨rest, pos⟩

theorem tight_true (rest : List Char) : Tight true rest := fun _ => rfl

theorem tight_of_head {atomic : Bool} {rest : List Char}
    (h : ∀ c ∈ rest.head?, isSkipped c = false) :
    Tight atomic rest := by
  intro pos
  cases atomic with
  | true => rfl
  | false =>
    cases rest with
    | nil => rfl
    | cons c rest =>
      have hc : isSkipped c = false := h c rfl
      simp only [isSkipped, List.contains_cons, List.contains_nil, Bool.or_false,
        Bool.or_eq_false_iff, beq_eq_false_iff_ne] at hc
      obtain ⟨hblank, htab, hfeed, hreturn, hsign⟩ := hc
      simp [Mode.skip, Cursor.skipBlanks, Cursor.skipFrom, hblank, htab, hfeed, hreturn, hsign]

theorem tight_cons {atomic : Bool} {c : Char} (h : isSkipped c = false) (rest : List Char) :
    Tight atomic (c :: rest) :=
  tight_of_head fun d hd => by cases hd; exact h

/-! ### Successes and failures -/

/-- The trees have the given properties, one by one. -/
abbrev Tree.AllHave (Ps : List (Tree → Prop)) (ts : List Tree) : Prop :=
  List.Forall₂ (fun P t => P t) Ps ts

/-- The pattern matches the text `cs` in front of `rest`, and leaves trees with the given
properties. -/
def Pattern.Reads (p : Pattern) (atomic : Bool) (cs rest : List Char) (Ps : List (Tree → Prop)) :
    Prop :=
  ∀ pos, ∃ ts, p.scan atomic ⟨cs ++ rest, pos⟩ = some (⟨rest, pos + byteLength cs⟩, ts) ∧
  Tree.AllHave Ps ts

/-- The pattern does not match in front of `rest`. -/
def Pattern.Fails (p : Pattern) (atomic : Bool) (rest : List Char) : Prop :=
  ∀ pos, p.scan atomic ⟨rest, pos⟩ = none

/-- A repetition of the pattern that has begun goes on with the text `cs` and ends in front of
`rest`. -/
def Pattern.Continues (p : Pattern) (atomic : Bool) (cs rest : List Char)
    (Ps : List (Tree → Prop)) : Prop :=
  ∀ pos ts, ∃ us, p.more atomic ⟨cs ++ rest, pos⟩ ts =
    some (⟨rest, pos + byteLength cs⟩, ts ++ us) ∧
    Tree.AllHave Ps us

namespace Pattern

variable {p q : Pattern} {ps : List Pattern} {atomic : Bool} {cs ds rest : List Char}
  {Ps Qs : List (Tree → Prop)} {r : Rule}

theorem Reads.imp {P Q : Tree → Prop} (h : p.Reads atomic cs rest [P]) (himp : ∀ t, P t → Q t) :
    p.Reads atomic cs rest [Q] := by
  intro pos
  obtain ⟨_, hts, _ | ⟨hP, ⟨⟩⟩⟩ := h pos
  exact ⟨_, hts, .cons (himp _ hP) .nil⟩

theorem Fails.not_reads (hfails : p.Fails atomic (cs ++ rest)) : ¬p.Reads atomic cs rest Ps := by
  intro hreads
  obtain ⟨ts, hts, -⟩ := hreads 0
  rw [hfails 0] at hts
  cases hts

/-! ### Texts -/

theorem Reads.text (cs rest : List Char) : (Pattern.text cs).Reads atomic cs rest [] := by
  intro pos
  have hafter : (⟨cs ++ rest, pos⟩ : Cursor).afterText? cs = some ⟨rest, pos + byteLength cs⟩ :=
    Cursor.afterText?_eq_some_iff.mpr ⟨rfl, rfl⟩
  exact ⟨[], by rw [scan, scanBy, hafter]; rfl, .nil⟩

theorem Fails.text (h : ¬cs <+: rest) : (Pattern.text cs).Fails atomic rest := by
  intro pos
  have hafter : (⟨rest, pos⟩ : Cursor).afterText? cs = none := by
    refine Option.eq_none_iff_forall_ne_some.mpr fun next hnext => h ?_
    exact ⟨next.rest, (Cursor.afterText?_eq_some_iff.mp hnext).rest.symm⟩
  rw [scan, scanBy, hafter]
  rfl

theorem Fails.text_of_head {c : Char} (h : rest.head? ≠ some c) :
    (Pattern.text (c :: cs)).Fails atomic rest := by
  refine Fails.text fun ⟨tail, htail⟩ => h ?_
  rw [← htail]
  rfl

theorem Fails.char {c : Char} (h : rest.head? ≠ some c) : (Pattern.char c).Fails atomic rest :=
  .text_of_head h

theorem Reads.one {cls : CharClass} {c : Char} (h : cls.holds c = true) (rest : List Char) :
    (Pattern.one cls).Reads atomic [c] rest [] := by
  intro pos
  have hafter : (⟨c :: rest, pos⟩ : Cursor).afterOne? cls = some ⟨rest, pos + c.utf8Size⟩ :=
    if_pos h
  exact ⟨[], by rw [scan, scanBy, List.singleton_append, hafter]; rfl, .nil⟩

theorem Fails.one {cls : CharClass} (h : ∀ c ∈ rest.head?, cls.holds c = false) :
    (Pattern.one cls).Fails atomic rest := by
  intro pos
  cases rest with
  | nil => rfl
  | cons c rest =>
    have hafter : (⟨c :: rest, pos⟩ : Cursor).afterOne? cls = none :=
      if_neg (by rw [h c rfl]; exact Bool.false_ne_true)
    rw [scan, scanBy, hafter]
    rfl

theorem Reads.stop : Pattern.stop.Reads atomic [] [] [] := fun _ => ⟨[], rfl, .nil⟩

/-! ### Sequences and choices -/

theorem Reads.seq (hp : p.Reads atomic cs (ds ++ rest) Ps) (htight : Tight atomic (ds ++ rest))
    (hq : q.Reads atomic ds rest Qs) :
    (Pattern.seq p q).Reads atomic (cs ++ ds) rest (Ps ++ Qs) := by
  intro pos
  obtain ⟨ts, hts, hPs⟩ := hp pos
  obtain ⟨us, hus, hQs⟩ := hq (pos + byteLength cs)
  refine ⟨ts ++ us, ?_, List.rel_append hPs hQs⟩
  rw [scan] at hts hus
  rw [scan, scanBy, List.append_assoc, hts]
  simp only [htight _, hus, byteLength_append, Nat.add_assoc]

theorem Reads.assoc {s : Pattern} (h : (Pattern.seq (.seq p q) s).Reads atomic cs rest Ps) :
    (Pattern.seq p (.seq q s)).Reads atomic cs rest Ps := by
  have hsame : ∀ here, (Pattern.seq p (.seq q s)).scan atomic here =
      (Pattern.seq (.seq p q) s).scan atomic here := by
    intro here
    simp only [scan, scanBy]
    cases p.scanBy Rule.scan atomic here with
    | none => rfl
    | some first =>
      simp only
      cases q.scanBy Rule.scan atomic (Mode.skip { atomic } first.1) with
      | none => rfl
      | some second =>
        simp only
        cases s.scanBy Rule.scan atomic (Mode.skip { atomic } second.1) with
        | none => rfl
        | some third => simp only [List.append_assoc]
  intro pos
  rw [hsame]
  exact h pos

/-- A sequence with a blank between its parts. -/
theorem Reads.seq_blank (hp : p.Reads false cs (' ' :: (ds ++ rest)) Ps)
    (htight : Tight false (ds ++ rest)) (hq : q.Reads false ds rest Qs) :
    (Pattern.seq p q).Reads false (cs ++ ' ' :: ds) rest (Ps ++ Qs) := by
  intro pos
  obtain ⟨ts, hts, hPs⟩ := hp pos
  obtain ⟨us, hus, hQs⟩ := hq (pos + byteLength cs + 1)
  refine ⟨ts ++ us, ?_, List.rel_append hPs hQs⟩
  have hskip : Mode.skip {} ⟨' ' :: (ds ++ rest), pos + byteLength cs⟩ =
      ⟨ds ++ rest, pos + byteLength cs + 1⟩ := htight (pos + byteLength cs + 1)
  rw [scan] at hts hus
  rw [scan, scanBy, List.append_assoc, List.cons_append, hts]
  simp only [hskip, hus, byteLength_append, byteLength_cons]
  congr 3
  have hsize : ' '.utf8Size = 1 := rfl
  omega

theorem Fails.seq_left (hp : p.Fails atomic rest) : (Pattern.seq p q).Fails atomic rest := by
  intro pos
  have hnone := hp pos
  rw [scan] at hnone
  rw [scan, scanBy, hnone]

theorem Fails.seq_right (hp : p.Reads atomic cs rest Ps) (htight : Tight atomic rest)
    (hq : q.Fails atomic rest) : (Pattern.seq p q).Fails atomic (cs ++ rest) := by
  intro pos
  obtain ⟨ts, hts, -⟩ := hp pos
  have hnone := hq (pos + byteLength cs)
  rw [scan] at hts hnone
  rw [scan, scanBy, hts]
  simp only [htight _, hnone]

/-- A sequence whose first part consumes nothing. -/
theorem Reads.after (hp : p.Reads atomic [] (ds ++ rest) Ps) (htight : Tight atomic (ds ++ rest))
    (hq : q.Reads atomic ds rest Qs) : (Pattern.seq p q).Reads atomic ds rest (Ps ++ Qs) :=
  hp.seq htight hq

/-- A sequence whose second part consumes nothing. -/
theorem Reads.before (hp : p.Reads atomic cs rest Ps) (htight : Tight atomic rest)
    (hq : q.Reads atomic [] rest Qs) : (Pattern.seq p q).Reads atomic cs rest (Ps ++ Qs) := by
  have hseq : (Pattern.seq p q).Reads atomic (cs ++ []) rest (Ps ++ Qs) := hp.seq htight hq
  rwa [List.append_nil] at hseq

theorem Fails.after (hp : p.Reads atomic [] rest Ps) (htight : Tight atomic rest)
    (hq : q.Fails atomic rest) :
    (Pattern.seq p q).Fails atomic rest :=
  .seq_right hp htight hq

theorem Reads.alt_left (hp : p.Reads atomic cs rest Ps) :
    (Pattern.alt p q).Reads atomic cs rest Ps := by
  intro pos
  obtain ⟨ts, hts, hPs⟩ := hp pos
  rw [scan] at hts
  exact ⟨ts, by rw [scan, scanBy, hts], hPs⟩

theorem Reads.alt_right (hp : p.Fails atomic (cs ++ rest)) (hq : q.Reads atomic cs rest Qs) :
    (Pattern.alt p q).Reads atomic cs rest Qs := by
  intro pos
  have hnone := hp pos
  obtain ⟨ts, hts, hQs⟩ := hq pos
  rw [scan] at hnone hts
  exact ⟨ts, by rw [scan, scanBy, hnone]; exact hts, hQs⟩

theorem Fails.alt (hp : p.Fails atomic rest) (hq : q.Fails atomic rest) :
    (Pattern.alt p q).Fails atomic rest := by
  intro pos
  have hnone := hp pos
  have hnone' := hq pos
  rw [scan] at hnone hnone'
  rw [scan, scanBy, hnone]
  exact hnone'

/-- The first alternative that does not fail is taken. -/
theorem Reads.firstOf {before after : List Pattern}
    (hbefore : ∀ q ∈ before, q.Fails atomic (cs ++ rest)) (hp : p.Reads atomic cs rest Ps) :
    (Pattern.firstOf (before ++ p :: after)).Reads atomic cs rest Ps := by
  induction before with
  | nil =>
    cases after with
    | nil => exact hp
    | cons q after => exact hp.alt_left
  | cons q before ih =>
    obtain ⟨hq, hbefore⟩ := List.forall_mem_cons.mp hbefore
    have hrest := ih hbefore
    cases before with
    | nil => exact hrest.alt_right hq
    | cons q' before => exact hrest.alt_right hq

theorem Fails.firstOf (hne : ps ≠ []) (h : ∀ q ∈ ps, q.Fails atomic rest) :
    (Pattern.firstOf ps).Fails atomic rest := by
  induction ps with
  | nil => exact absurd rfl hne
  | cons q ps ih =>
    obtain ⟨hq, hps⟩ := List.forall_mem_cons.mp h
    cases ps with
    | nil => exact hq
    | cons q' ps => exact hq.alt (ih (List.cons_ne_nil _ _) hps)

/-! ### Options and look-aheads -/

theorem Reads.present (hp : p.Reads atomic cs rest Ps) :
    (Pattern.opt p).Reads atomic cs rest Ps := by
  intro pos
  obtain ⟨ts, hts, hPs⟩ := hp pos
  rw [scan] at hts
  exact ⟨ts, by rw [scan, scanBy, hts], hPs⟩

theorem Reads.absent (hp : p.Fails atomic rest) : (Pattern.opt p).Reads atomic [] rest [] := by
  intro pos
  have hnone := hp pos
  rw [scan] at hnone
  exact ⟨[], by rw [scan, scanBy, List.nil_append, hnone]; rfl, .nil⟩

theorem Reads.ahead (hp : p.Reads atomic cs rest Ps) :
    (Pattern.ahead p).Reads atomic [] (cs ++ rest) [] := by
  intro pos
  obtain ⟨ts, hts, -⟩ := hp pos
  rw [scan] at hts
  exact ⟨[], by rw [scan, scanBy, List.nil_append, hts]; rfl, .nil⟩

theorem Fails.ahead (hp : p.Fails atomic rest) : (Pattern.ahead p).Fails atomic rest := by
  intro pos
  have hnone := hp pos
  rw [scan] at hnone
  rw [scan, scanBy, hnone]

theorem Reads.notAhead (hp : p.Fails atomic rest) :
    (Pattern.notAhead p).Reads atomic [] rest [] := by
  intro pos
  have hnone := hp pos
  rw [scan] at hnone
  exact ⟨[], by rw [scan, scanBy, List.nil_append, hnone]; rfl, .nil⟩

theorem Fails.notAhead (hp : p.Reads atomic cs rest Ps) :
    (Pattern.notAhead p).Fails atomic (cs ++ rest) := by
  intro pos
  obtain ⟨ts, hts, -⟩ := hp pos
  rw [scan] at hts
  rw [scan, scanBy, hts]

/-! ### Repetitions -/

theorem Continues.stop (hnull : p.isNullable = false) (htight : Tight atomic rest)
    (hp : p.Fails atomic rest) : p.Continues atomic [] rest [] := by
  intro pos ts
  refine ⟨[], ?_, .nil⟩
  rw [more_eq hnull, List.nil_append, htight pos, hp pos, List.append_nil]
  rfl

theorem Continues.step (hnull : p.isNullable = false) (htight : Tight atomic (cs ++ (ds ++ rest)))
    (hp : p.Reads atomic cs (ds ++ rest) Ps) (hmore : p.Continues atomic ds rest Qs) :
    p.Continues atomic (cs ++ ds) rest (Ps ++ Qs) := by
  intro pos ts
  obtain ⟨us, hus, hPs⟩ := hp pos
  obtain ⟨vs, hvs, hQs⟩ := hmore (pos + byteLength cs) (ts ++ us)
  refine ⟨us ++ vs, ?_, List.rel_append hPs hQs⟩
  rw [more_eq hnull, List.append_assoc, htight pos, hus]
  simp only [hvs, byteLength_append, Nat.add_assoc, List.append_assoc]

theorem Continues.last (hnull : p.isNullable = false) (htight : Tight atomic (cs ++ rest))
    (hp : p.Reads atomic cs rest Ps) (hstop : p.Continues atomic [] rest []) :
    p.Continues atomic cs rest Ps := by
  have hstep : p.Continues atomic (cs ++ []) rest (Ps ++ []) := .step hnull htight hp hstop
  rwa [List.append_nil, List.append_nil] at hstep

theorem Continues.star (hnull : p.isNullable = false) (htight : Tight atomic (cs ++ rest))
    (h : p.Continues atomic cs rest Ps) : (Pattern.star p).Reads atomic cs rest Ps := by
  intro pos
  obtain ⟨us, hus, hPs⟩ := h pos []
  refine ⟨us, ?_, hPs⟩
  rw [more_eq hnull, htight pos] at hus
  rw [scan_star]
  exact hus

theorem Reads.never (hp : p.Fails atomic rest) : (Pattern.star p).Reads atomic [] rest [] := by
  intro pos
  exact ⟨[], by rw [scan_star, List.nil_append, hp pos]; rfl, .nil⟩

/-! ### Rules -/

theorem Fails.rule (h : r.body.Fails (atomic || r.isAtomic) rest) :
    (Pattern.rule r).Fails atomic rest := by
  intro pos
  change r.scan atomic _ = none
  rw [Rule.scan_eq, h pos]

theorem Reads.silent (hr : r.isSilent = true) (h : r.body.Reads (atomic || r.isAtomic) cs rest Ps) :
    (Pattern.rule r).Reads atomic cs rest Ps := by
  intro pos
  obtain ⟨ts, hts, hPs⟩ := h pos
  refine ⟨ts, ?_, hPs⟩
  change r.scan atomic _ = _
  rw [Rule.scan_eq, hts]
  simp only [Rule.nodes, hr, Bool.true_or, if_true]

end Pattern

/-- The tree is a node of the rule, and its children have the given properties. -/
def Tree.IsNode (r : Rule) (Ps : List (Tree → Prop)) (t : Tree) : Prop :=
  ∃ span lexeme us, t = .node r span lexeme us ∧ Tree.AllHave Ps us

/-- The tree is a node of the rule without children, and has the given text. -/
def Tree.IsToken (r : Rule) (cs : List Char) (t : Tree) : Prop :=
  ∃ span, t = .node r span cs []

namespace Pattern

variable {cs rest : List Char} {Ps : List (Tree → Prop)} {r : Rule}

theorem Reads.node (hr : r.isSilent = false) (hatomic : r.isAtomic = false)
    (h : r.body.Reads false cs rest Ps) :
    (Pattern.rule r).Reads false cs rest [Tree.IsNode r Ps] := by
  intro pos
  obtain ⟨ts, hts, hPs⟩ := h pos
  refine ⟨_, ?_, .cons ⟨⟨pos, pos + byteLength cs⟩, [], ts, rfl, hPs⟩ .nil⟩
  change r.scan false _ = _
  rw [Rule.scan_eq, hatomic, Bool.or_false, hts]
  simp [Rule.nodes, hr, Rule.lexeme, hatomic]

/-- A match of an atomic rule keeps its text. -/
theorem Reads.token (hr : r.isSilent = false) (hatomic : r.isAtomic = true)
    (h : r.body.Reads true cs rest []) :
    (Pattern.rule r).Reads false cs rest [Tree.IsToken r cs] := by
  intro pos
  obtain ⟨ts, hts, hPs⟩ := h pos
  cases hPs
  refine ⟨_, ?_, .cons ⟨⟨pos, pos + byteLength cs⟩, rfl⟩ .nil⟩
  change r.scan false _ = _
  rw [Rule.scan_eq, hatomic, Bool.or_true, hts]
  simp [Rule.nodes, hr, Rule.lexeme, hatomic, takeBytes_append]

/-- Inside of an atomic rule no tree is left. -/
theorem Reads.inner (h : r.body.Reads true cs rest []) :
    (Pattern.rule r).Reads true cs rest [] := by
  intro pos
  obtain ⟨ts, hts, hPs⟩ := h pos
  refine ⟨ts, ?_, hPs⟩
  change r.scan true _ = _
  rw [Rule.scan_eq, Bool.true_or, hts]
  simp [Rule.nodes]

end Pattern

end ScopeScript
