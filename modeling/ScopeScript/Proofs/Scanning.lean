import ScopeScript.Proofs.Lexemes

/-!
# Matching without fuel

What a match yields does not depend on the attempts it keeps a record of, nor on its fuel.
`Pattern.scanBy` is matching without attempts, `Rule.scanWithin` ties the knot on fuel, and this is
what `matchRule` yields (`matchRule_result_eq`).

The fuel is enough. A rule may call others before it has consumed anything (`Pattern.leftRules`),
but only of smaller `Rule.rank`; each other call has less text ahead. So the fuel that a match needs
is bounded by the text ahead and the rank of the rule, and all larger amounts yield the same
(`Rule.scanWithin_eq`). Hence `Rule.scan`, which takes as much fuel as it needs, satisfies the
equation that one expects of a grammar (`Rule.scan_eq`).
-/

namespace ScopeScript

/-- What a match yields: the cursor behind it and the trees, or nothing. -/
abbrev Yield := Option (Cursor × List Tree)

/-! ### Matching without attempts -/

/-- Repeats a part, skipping before each round. -/
def Yield.rounds (atomic : Bool) (part : Cursor → Yield) : Nat → Cursor → List Tree → Yield
  | 0, here, trees => some (here, trees)
  | n + 1, here, trees =>
    match part (Mode.skip { atomic } here) with
    | some (next, found) => rounds atomic part n next (trees ++ found)
    | none => some (here, trees)

/-- Matches a pattern at a cursor; `call` matches the rules in it. -/
def Pattern.scanBy (call : Rule → Bool → Cursor → Yield) : Pattern → Bool → Cursor → Yield
  | text cs, _, here => (here.afterText? cs).map (·, [])
  | one cls, _, here => (here.afterOne? cls).map (·, [])
  | start, _, here => if here.pos = 0 then some (here, []) else none
  | stop, _, here => if here.rest.isEmpty then some (here, []) else none
  | rule r, atomic, here => call r atomic here
  | seq p q, atomic, here =>
    match p.scanBy call atomic here with
    | none => none
    | some (mid, ps) =>
      match q.scanBy call atomic (Mode.skip { atomic } mid) with
      | none => none
      | some (next, qs) => some (next, ps ++ qs)
  | alt p q, atomic, here =>
    match p.scanBy call atomic here with
    | none => q.scanBy call atomic here
    | found => found
  | opt p, atomic, here =>
    match p.scanBy call atomic here with
    | none => some (here, [])
    | found => found
  | star p, atomic, here =>
    match p.scanBy call atomic here with
    | none => some (here, [])
    | some (next, trees) =>
      Yield.rounds atomic (p.scanBy call atomic) (next.rest.length + 1) next trees
  | ahead p, atomic, here =>
    match p.scanBy call atomic here with
    | none => none
    | some _ => some (here, [])
  | notAhead p, atomic, here =>
    match p.scanBy call atomic here with
    | none => some (here, [])
    | some _ => none

/-- The trees that a match of a rule leaves. -/
def Rule.nodes (r : Rule) (atomic : Bool) (here next : Cursor) (ts : List Tree) : List Tree :=
  if r.isSilent || atomic then ts else [.node r ⟨here.pos, next.pos⟩ (r.lexeme here next) ts]

/-- Matches a rule, with at most `fuel` rules nested in each other. -/
def Rule.scanWithin : Nat → Rule → Bool → Cursor → Yield
  | 0, _, _, _ => none
  | fuel + 1, r, atomic, here =>
    match r.body.scanBy (Rule.scanWithin fuel) (atomic || r.isAtomic) here with
    | none => none
    | some (next, ts) => some (next, r.nodes atomic here next ts)

/-! ### Attempts and look-aheads do not matter -/

theorem rounds_result_eq {m : Mode} {part : Cursor → Attempts → Found} {part' : Cursor → Yield}
    (hpart : ∀ here a, (part here a).result = part' here) (n : Nat) (here : Cursor) (ts : List Tree)
    (a : Attempts) :
    (rounds m part n here ts a).result = Yield.rounds m.atomic part' n here ts := by
  induction n generalizing here ts a with
  | zero => rfl
  | succ n ih =>
    have hround := hpart (m.skip here) a
    change _ = part' (Mode.skip { atomic := m.atomic } here) at hround
    simp only [rounds, Yield.rounds, ← hround]
    cases part (m.skip here) a with
    | matched next found b => exact ih next (ts ++ found) b
    | failed b => rfl

theorem Pattern.run_result_eq {call : Rule → Mode → Cursor → Attempts → Found}
    {call' : Rule → Bool → Cursor → Yield}
    (hcall : ∀ r m here a, (call r m here a).result = call' r m.atomic here)
    (p : Pattern) (m : Mode) (here : Cursor) (a : Attempts) :
    (p.run call m here a).result = p.scanBy call' m.atomic here := by
  induction p generalizing m here a with
  | text cs =>
    simp only [run, scanBy, Found.ofCursor?]
    cases here.afterText? cs <;> rfl
  | one cls =>
    simp only [run, scanBy, Found.ofCursor?]
    cases here.afterOne? cls <;> rfl
  | start =>
    simp only [run, scanBy]
    split <;> rfl
  | stop =>
    simp only [run, scanBy]
    split <;> rfl
  | rule r => exact hcall r m here a
  | seq p q ihp ihq =>
    simp only [run, scanBy, ← ihp m here a]
    cases p.run call m here a with
    | failed b => rfl
    | matched mid ps b =>
      have hq := ihq m (m.skip mid) b
      change _ = q.scanBy call' m.atomic (Mode.skip { atomic := m.atomic } mid) at hq
      simp only [Found.result, ← hq]
      cases q.run call m (m.skip mid) b <;> rfl
  | alt p q ihp ihq =>
    simp only [run, scanBy, ← ihp m here a]
    cases p.run call m here a with
    | failed b => exact ihq m here b
    | matched next ts b => rfl
  | opt p ihp =>
    simp only [run, scanBy, ← ihp m here a]
    cases p.run call m here a <;> rfl
  | star p ihp =>
    simp only [run, scanBy, ← ihp m here a]
    cases p.run call m here a with
    | failed b => rfl
    | matched next ts b => exact rounds_result_eq (fun there a => ihp m there a) _ _ _ _
  | ahead p ihp =>
    have hp := ihp m.ahead here a
    change _ = p.scanBy call' m.atomic here at hp
    simp only [run, scanBy, ← hp]
    cases p.run call m.ahead here a <;> rfl
  | notAhead p ihp =>
    have hp := ihp m.notAhead here a
    change _ = p.scanBy call' m.atomic here at hp
    simp only [run, scanBy, ← hp]
    cases p.run call m.notAhead here a <;> rfl

/-- **What matching yields**, its record of attempts aside. -/
theorem matchRule_result_eq (fuel : Nat) (r : Rule) (m : Mode) (here : Cursor) (a : Attempts) :
    (matchRule fuel r m here a).result = r.scanWithin fuel m.atomic here := by
  induction fuel generalizing r m here a with
  | zero => rfl
  | succ fuel ih =>
    have hbody := Pattern.run_result_eq ih r.body (m.inside r) here a
    change _ = r.body.scanBy (Rule.scanWithin fuel) (m.atomic || r.isAtomic) here at hbody
    simp only [matchRule, Rule.scanWithin, ← hbody]
    cases hsilent : r.isSilent with
    | true =>
      cases r.body.run (matchRule fuel) (m.inside r) here a with
      | failed b => rfl
      | matched next ts b => simp [Found.result, Rule.nodes, hsilent]
    | false =>
      simp only [matchNode]
      cases r.body.run (matchRule fuel) (m.inside r) here a with
      | failed b => rfl
      | matched next ts b => simp [Found.result, Rule.nodes, Rule.lexeme, hsilent]

/-! ### What a match consumes -/

/-- Whether a rule can match without consuming anything. -/
def Rule.isNullable : Rule → Bool
  | endOfInput | program | params | args => true
  | _ => false

/-- Whether a pattern can match without consuming anything. -/
def Pattern.isNullable : Pattern → Bool
  | text cs => cs.isEmpty
  | one _ => false
  | start | stop | opt _ | star _ | ahead _ | notAhead _ => true
  | rule r => r.isNullable
  | seq p q => p.isNullable && q.isNullable
  | alt p q => p.isNullable || q.isNullable

theorem Rule.isNullable_body (r : Rule) : r.isNullable = false → r.body.isNullable = false := by
  cases r <;> decide

theorem Cursor.Spans.length_le {here next : Cursor} {cs : List Char} (h : here.Spans cs next) :
    next.rest.length ≤ here.rest.length := by
  rw [h.rest, List.length_append]
  exact Nat.le_add_left _ _

/-- A derivation of a pattern that cannot match the empty text consumes something. -/
theorem Derives.length_lt {atomic : Bool} {p : Pattern} {here next : Cursor} {ts : List Tree}
    (h : Derives atomic p here ts next) (hp : p.isNullable = false) :
    next.rest.length < here.rest.length := by
  induction h with
  | @text _ cs here next h =>
    have hcs : cs ≠ [] := by simpa [Pattern.isNullable] using hp
    rw [(Cursor.afterText?_eq_some_iff.mp h).rest, List.length_append]
    have := List.length_pos_iff.mpr hcs
    omega
  | one h =>
    obtain ⟨c, -, hc⟩ := Cursor.spans_of_afterOne? h
    rw [hc.rest, List.length_append]
    exact Nat.lt_add_of_pos_left Nat.one_pos
  | start | stop | absent | present | never | once | again | ahead | notAhead => cases hp
  | bare _ _ ih | node _ _ ih => exact ih (Rule.isNullable_body _ hp)
  | @seq atomic _ _ _ mid _ _ _ hp' hq' ihp ihq =>
    obtain ⟨cs, hcs⟩ := hp'.spans
    obtain ⟨blanks, hblanks⟩ := Cursor.spans_skip { atomic } mid
    obtain ⟨ds, hds⟩ := hq'.spans
    have hmid := hcs.length_le
    have hskip := hblanks.length_le
    have hnext := hds.length_le
    rcases Bool.and_eq_false_iff.mp hp with hp | hp
    · have := ihp hp
      omega
    · have := ihq hp
      omega
  | first _ ih => exact ih (Bool.or_eq_false_iff.mp hp).1
  | second _ ih => exact ih (Bool.or_eq_false_iff.mp hp).2

/-- What is scanned is derived. -/
theorem Pattern.derives_of_scanBy {p : Pattern} {fuel : Nat} {atomic : Bool} {here next : Cursor}
    {ts : List Tree} (h : p.scanBy (Rule.scanWithin fuel) atomic here = some (next, ts)) :
    Derives atomic p here ts next := by
  have hresult := Pattern.run_result_eq (matchRule_result_eq fuel) p { atomic } here {}
  rw [h] at hresult
  have hderived := p.derived_run (derived_matchRule fuel) { atomic } here {}
  cases hrun : p.run (matchRule fuel) { atomic } here {} with
  | failed b =>
    rw [hrun] at hresult
    cases hresult
  | matched next' ts' b =>
    rw [hrun] at hresult
    cases hresult
    exact hderived _ _ _ hrun

theorem Pattern.length_le_of_scanBy {p : Pattern} {fuel : Nat} {atomic : Bool} {here next : Cursor}
    {ts : List Tree} (h : p.scanBy (Rule.scanWithin fuel) atomic here = some (next, ts)) :
    next.rest.length ≤ here.rest.length := by
  obtain ⟨cs, hcs⟩ := (derives_of_scanBy h).spans
  exact hcs.length_le

theorem Cursor.length_skip_le (m : Mode) (here : Cursor) :
    (m.skip here).rest.length ≤ here.rest.length := by
  obtain ⟨cs, hcs⟩ := Cursor.spans_skip m here
  exact hcs.length_le

/-! ### How much fuel is enough -/

/-- The rules that a pattern may call before anything is consumed. -/
def Pattern.leftRules : Pattern → List Rule
  | text _ | one _ | start | stop => []
  | rule r => [r]
  | seq p q => p.leftRules ++ if p.isNullable then q.leftRules else []
  | alt p q => p.leftRules ++ q.leftRules
  | opt p | star p | ahead p | notAhead p => p.leftRules

/-- How many rules can call each other before anything is consumed. -/
def Rule.rank : Rule → Nat
  | program | args => 7
  | expr => 6
  | arith => 5
  | simple => 4
  | factor => 3
  | assignment | call | singleElement | params | ifExpr | whileExpr | forExpr
    | functionDef | quitExpr
  | printExpr | catExpr | readExpr | listExpr | breakExpr | nextExpr => 2
  | ident | ifKw | elseKw | whileKw | functionKw | forKw | inKw | nextKw | breakKw
    | quitKw | printKw
  | catKw | readKw | listKw | prefixOp | infixOp | relOp | constant => 1
  | _ => 0

theorem Rule.rank_lt (r : Rule) : ∀ s ∈ r.body.leftRules, s.rank < r.rank := by
  cases r <;> decide

theorem Rule.rank_le (r : Rule) : r.rank < Rule.all.length := by
  cases r <;> decide

/-- Fuel that a match of the rule at the cursor cannot exhaust. -/
def Rule.need (r : Rule) (here : Cursor) : Nat := here.rest.length * Rule.all.length + r.rank + 1

theorem Yield.rounds_congr {atomic : Bool} {part part' : Cursor → Yield} {bound : Nat}
    (hpart : ∀ there : Cursor, there.rest.length ≤ bound → part there = part' there)
    (hshrinks : ∀ there next ts, part there = some (next, ts) →
      next.rest.length ≤ there.rest.length)
    (n : Nat) (here : Cursor) (hhere : here.rest.length ≤ bound) (ts : List Tree) :
    rounds atomic part n here ts = rounds atomic part' n here ts := by
  induction n generalizing here ts with
  | zero => rfl
  | succ n ih =>
    have hskip := Nat.le_trans (Cursor.length_skip_le { atomic } here) hhere
    simp only [rounds, ← hpart _ hskip]
    cases hround : part (Mode.skip { atomic } here) with
    | none => rfl
    | some found =>
      obtain ⟨next, us⟩ := found
      exact ih next (Nat.le_trans (hshrinks _ _ _ hround) hskip) _

/-- Two ways to match rules yield the same for a pattern, if they do for all rules that have less
text ahead and for those that may be called at once. -/
theorem Pattern.scanBy_congr {fuel : Nat} {call : Rule → Bool → Cursor → Yield} (p : Pattern)
    (atomic : Bool) (here : Cursor) (bound : Nat) (hhere : here.rest.length ≤ bound)
    (hshort : ∀ r atomic (there : Cursor), there.rest.length < bound →
      Rule.scanWithin fuel r atomic there = call r atomic there)
    (hleft : ∀ r ∈ p.leftRules, ∀ atomic (there : Cursor), there.rest.length ≤ bound →
      Rule.scanWithin fuel r atomic there = call r atomic there) :
    p.scanBy (Rule.scanWithin fuel) atomic here = p.scanBy call atomic here := by
  induction p generalizing atomic here bound with
  | text | one | start | stop => rfl
  | rule r => exact hleft r (List.mem_singleton_self r) atomic here hhere
  | seq p q ihp ihq =>
    have hp := ihp atomic here bound hhere hshort fun r hr => hleft r (List.mem_append_left _ hr)
    simp only [scanBy, ← hp]
    cases hscan : p.scanBy (Rule.scanWithin fuel) atomic here with
    | none => rfl
    | some found =>
      obtain ⟨mid, ps⟩ := found
      have hmid := Nat.le_trans (length_le_of_scanBy hscan) hhere
      have hskip := Cursor.length_skip_le { atomic } mid
      suffices hq : q.scanBy (Rule.scanWithin fuel) atomic (Mode.skip { atomic } mid) =
          q.scanBy call atomic (Mode.skip { atomic } mid) by simp only [hq]
      cases hnull : p.isNullable with
      | true =>
        refine ihq atomic _ bound (Nat.le_trans hskip hmid) hshort fun r hr => hleft r ?_
        exact List.mem_append_right _ (by rw [hnull]; exact hr)
      | false =>
        -- the first part has consumed something, so that all calls have less text ahead
        have hlt := Nat.lt_of_lt_of_le ((derives_of_scanBy hscan).length_lt hnull) hhere
        have hless : (Mode.skip { atomic } mid).rest.length < bound := Nat.lt_of_le_of_lt hskip hlt
        exact ihq atomic _ _ (Nat.le_refl _)
          (fun r a there hthere => hshort r a there (Nat.lt_trans hthere hless))
          (fun r _ a there hthere => hshort r a there (Nat.lt_of_le_of_lt hthere hless))
  | alt p q ihp ihq =>
    have hp := ihp atomic here bound hhere hshort fun r hr => hleft r (List.mem_append_left _ hr)
    have hq := ihq atomic here bound hhere hshort fun r hr => hleft r (List.mem_append_right _ hr)
    simp only [scanBy, hp, hq]
  | opt p ih | ahead p ih | notAhead p ih =>
    simp only [scanBy, ih atomic here bound hhere hshort hleft]
  | star p ih =>
    simp only [scanBy, ← ih atomic here bound hhere hshort hleft]
    cases hscan : p.scanBy (Rule.scanWithin fuel) atomic here with
    | none => rfl
    | some found =>
      obtain ⟨next, ts⟩ := found
      exact Yield.rounds_congr (fun there hthere => ih atomic there bound hthere hshort hleft)
        (fun there next ts h => length_le_of_scanBy h) _ next
        (Nat.le_trans (length_le_of_scanBy hscan) hhere) ts

theorem Rule.need_le_of_lt (r : Rule) {here there : Cursor}
    (h : there.rest.length < here.rest.length) :
    r.need there ≤ here.rest.length * Rule.all.length := by
  have hrank := r.rank_le
  have hmul := Nat.mul_le_mul_right Rule.all.length (Nat.succ_le_of_lt h)
  rw [Nat.succ_mul] at hmul
  unfold need
  omega

theorem Rule.need_le_of_mem {r s : Rule} (hs : s ∈ r.body.leftRules) {here there : Cursor}
    (h : there.rest.length ≤ here.rest.length) :
    s.need there ≤ here.rest.length * Rule.all.length + r.rank := by
  have hrank := r.rank_lt s hs
  have hmul := Nat.mul_le_mul_right Rule.all.length h
  unfold need
  omega

/-- **Enough fuel is enough.** -/
theorem Rule.scanWithin_eq {fuel fuel' : Nat} (r : Rule) (atomic : Bool) (here : Cursor)
    (hfuel : r.need here ≤ fuel) (hfuel' : r.need here ≤ fuel') :
    r.scanWithin fuel atomic here = r.scanWithin fuel' atomic here := by
  induction fuel generalizing r atomic here fuel' with
  | zero => cases hfuel
  | succ fuel ih =>
    cases fuel' with
    | zero => cases hfuel'
    | succ fuel' =>
      unfold need at hfuel hfuel'
      have hbody : r.body.scanBy (Rule.scanWithin fuel) (atomic || r.isAtomic) here =
          r.body.scanBy (Rule.scanWithin fuel') (atomic || r.isAtomic) here := by
        refine r.body.scanBy_congr _ here here.rest.length (Nat.le_refl _) ?_ ?_
        · intro s a there hthere
          have hneed := s.need_le_of_lt hthere
          exact ih s a there (by omega) (by omega)
        · intro s hs a there hthere
          have hneed := need_le_of_mem hs hthere
          exact ih s a there (by omega) (by omega)
      simp only [scanWithin, hbody]

theorem Rule.need_le_fuelFor (r : Rule) (here : Cursor) : r.need here ≤ fuelFor here.rest := by
  have hrank := r.rank_le
  rw [fuelFor, Nat.succ_mul, need]
  omega

/-! ### Matching without fuel -/

/-- Matches a rule at a cursor. -/
def Rule.scan (r : Rule) (atomic : Bool) (here : Cursor) : Yield :=
  r.scanWithin (fuelFor here.rest) atomic here

/-- Matches a pattern at a cursor. -/
def Pattern.scan (p : Pattern) (atomic : Bool) (here : Cursor) : Yield :=
  p.scanBy Rule.scan atomic here

theorem Rule.scanWithin_eq_scan {fuel : Nat} {r : Rule} {here : Cursor} (hfuel : r.need here ≤ fuel)
    (atomic : Bool) : r.scanWithin fuel atomic here = r.scan atomic here :=
  r.scanWithin_eq atomic here hfuel (r.need_le_fuelFor here)

/-- **Matching follows the grammar.** A match of a rule is a match of its body. -/
theorem Rule.scan_eq (r : Rule) (atomic : Bool) (here : Cursor) :
    r.scan atomic here =
      match r.body.scan (atomic || r.isAtomic) here with
      | none => none
      | some (next, ts) => some (next, r.nodes atomic here next ts) := by
  have hrank := r.rank_le
  obtain ⟨fuel, hfuel⟩ : ∃ fuel, fuelFor here.rest = fuel + 1 :=
    ⟨here.rest.length * Rule.all.length +
      (Rule.all.length - 1), by rw [fuelFor, Nat.succ_mul]; omega⟩
  have henough : here.rest.length * Rule.all.length + r.rank ≤ fuel := by
    rw [fuelFor, Nat.succ_mul] at hfuel
    omega
  have hbody : r.body.scanBy (Rule.scanWithin fuel) (atomic || r.isAtomic) here =
      r.body.scan (atomic || r.isAtomic) here := by
    refine r.body.scanBy_congr _ here here.rest.length (Nat.le_refl _) ?_ ?_
    · intro s a there hthere
      exact Rule.scanWithin_eq_scan (Nat.le_trans (s.need_le_of_lt hthere) (by omega)) a
    · intro s hs a there hthere
      exact Rule.scanWithin_eq_scan (Nat.le_trans (need_le_of_mem hs hthere) henough) a
  rw [scan, hfuel, scanWithin, hbody]

theorem Pattern.scan_eq_scanBy (p : Pattern) (atomic : Bool) (here : Cursor) :
    p.scan atomic here = p.scanBy (Rule.scanWithin (fuelFor here.rest)) atomic here := by
  have hcall : ∀ (r : Rule) (a : Bool) (there : Cursor), there.rest.length ≤ here.rest.length →
      r.scanWithin (fuelFor here.rest) a there = r.scan a there := by
    intro r a there hthere
    refine Rule.scanWithin_eq_scan ?_ a
    exact Nat.le_trans (r.need_le_fuelFor there) (Nat.mul_le_mul_right _ (Nat.succ_le_succ hthere))
  refine (p.scanBy_congr atomic here here.rest.length (Nat.le_refl _) ?_ ?_).symm
  · exact fun r a there hthere => hcall r a there (Nat.le_of_lt hthere)
  · exact fun r _ a there hthere => hcall r a there hthere

theorem Pattern.derives_of_scan {p : Pattern} {atomic : Bool} {here next : Cursor} {ts : List Tree}
    (h : p.scan atomic here = some (next, ts)) : Derives atomic p here ts next :=
  derives_of_scanBy (p.scan_eq_scanBy atomic here ▸ h)

/-- A match at the start of a text. -/
theorem Rule.matchStart_of_scan {r : Rule} {source : List Char} {next : Cursor} {ts : List Tree}
    (h : r.scan false (.atStart source) = some (next, ts)) :
    r.matchStart source = .ok (next, ts) := by
  have hresult := matchRule_result_eq (fuelFor source) r {} (.atStart source) {}
  change _ = r.scan false (.atStart source) at hresult
  rw [h] at hresult
  unfold matchStart
  cases hmatch : matchRule (fuelFor source) r {} (.atStart source) {} with
  | failed a =>
    rw [hmatch] at hresult
    cases hresult
  | matched next' ts' a =>
    rw [hmatch] at hresult
    cases hresult
    rfl

/-! ### Repetitions -/

/-- Goes on with a repetition. -/
def Pattern.more (p : Pattern) (atomic : Bool) (here : Cursor) (ts : List Tree) : Yield :=
  Yield.rounds atomic (p.scan atomic) (here.rest.length + 1) here ts

theorem Pattern.scan_star (p : Pattern) (atomic : Bool) (here : Cursor) :
    (star p).scan atomic here =
      match p.scan atomic here with
      | none => some (here, [])
      | some (next, ts) => p.more atomic next ts := rfl

/-- The number of rounds is no limit. -/
theorem Pattern.rounds_eq_more {p : Pattern} (hp : p.isNullable = false) (atomic : Bool) {n : Nat}
    (here : Cursor) (hn : here.rest.length < n) (ts : List Tree) :
    Yield.rounds atomic (p.scan atomic) n here ts = p.more atomic here ts := by
  have hsame : ∀ (n n' : Nat) (here : Cursor) (ts : List Tree), here.rest.length < n →
      here.rest.length < n' →
      Yield.rounds atomic (p.scan atomic) n here ts =
        Yield.rounds atomic (p.scan atomic) n' here ts := by
    intro n
    induction n with
    | zero => intro n' here ts hn; cases hn
    | succ n ih =>
      intro n' here ts hn hn'
      cases n' with
      | zero => cases hn'
      | succ n' =>
        simp only [Yield.rounds]
        cases hround : p.scan atomic (Mode.skip { atomic } here) with
        | none => rfl
        | some found =>
          obtain ⟨next, us⟩ := found
          have hlt := (derives_of_scan hround).length_lt hp
          have hskip := Cursor.length_skip_le { atomic } here
          exact ih n' next _ (by omega) (by omega)
  exact hsame n _ here ts hn (Nat.lt_succ_self _)

/-- A repetition goes on until a round fails. -/
theorem Pattern.more_eq {p : Pattern} (hp : p.isNullable = false) (atomic : Bool) (here : Cursor)
    (ts : List Tree) :
    p.more atomic here ts =
      match p.scan atomic (Mode.skip { atomic } here) with
      | none => some (here, ts)
      | some (next, us) => p.more atomic next (ts ++ us) := by
  rw [more, Yield.rounds]
  cases hround : p.scan atomic (Mode.skip { atomic } here) with
  | none => rfl
  | some found =>
    obtain ⟨next, us⟩ := found
    have hlt := (derives_of_scan hround).length_lt hp
    have hskip := Cursor.length_skip_le { atomic } here
    exact rounds_eq_more hp atomic next (by omega) _

end ScopeScript
