import Mathlib.Data.List.TakeWhile
import ScopeScript.Proofs.Constants
import ScopeScript.Proofs.Lists
import ScopeScript.Proofs.Spelling

/-!
# Texts on a line

A text fits on a line if it holds no line feed, and does not end in a carriage return
(`FitsOnLine`). The strings of a session come from two places only. A quoted text holds no line
break at all, and a line of input is cut at the first line feed and loses its line ends
(`Console.fitsOnLine_of_readLine`); what looks like a number there becomes one. Strings are copied
and compared, but never put together, so all of them fit on a line: `Law.framed` carries this
through evaluation, and `Session.Holds.isFramed` says it of every value at hand.

Numbers and truth values are written without a line feed, and a list with its elements between
parentheses. So the text of a value holds no line feed if its strings do not
(`Heap.lineFeed_notMem_text`).
-/

namespace ScopeScript

open Eval

/-- The text has no line feed, and no carriage return at its end. -/
def FitsOnLine (cs : List Char) : Prop :=
  '\n' ∉ cs ∧ cs.getLast? ≠ some '\r'

instance (cs : List Char) : Decidable (FitsOnLine cs) :=
  inferInstanceAs (Decidable (_ ∧ _))

/-! ### Lines -/

/-- The text that some lines make up, with a line feed at the end of each. -/
def linesText (lines : List (List Char)) : List Char :=
  lines.flatMap (· ++ ['\n'])

@[simp] theorem linesText_nil : linesText [] = [] := rfl

theorem linesText_cons (line : List Char) (lines : List (List Char)) :
    linesText (line :: lines) = line ++ '\n' :: linesText lines := by
  rw [linesText, linesText, List.flatMap_cons, List.append_assoc, List.singleton_append]

theorem linesText_append (lines more : List (List Char)) :
    linesText (lines ++ more) = linesText lines ++ linesText more :=
  List.flatMap_append

/-- There are as many line feeds in it as lines. -/
theorem count_linesText {lines : List (List Char)} (h : ∀ line ∈ lines, '\n' ∉ line) :
    (linesText lines).count '\n' = lines.length := by
  induction lines with
  | nil => rfl
  | cons line lines ih =>
    obtain ⟨hline, hlines⟩ := List.forall_mem_cons.mp h
    rw [linesText_cons, List.count_append, List.count_cons_self,
      List.count_eq_zero.mpr hline, ih hlines, List.length_cons, Nat.zero_add]

/-- A text that goes on after the line feed of its first lines goes on with more lines. -/
theorem exists_of_linesText_eq_append {lines first : List (List Char)} {rest : List Char}
    (hlines : ∀ line ∈ lines, '\n' ∉ line) (hfirst : ∀ line ∈ first, '\n' ∉ line)
    (h : linesText lines = linesText first ++ rest) :
    ∃ more, lines = first ++ more ∧ rest = linesText more := by
  induction first generalizing lines with
  | nil => exact ⟨lines, rfl, h.symm⟩
  | cons line first ih =>
    obtain ⟨hline, hfirst'⟩ := List.forall_mem_cons.mp hfirst
    rw [linesText_cons, List.append_assoc, List.cons_append] at h
    cases lines with
    | nil => exact absurd (congrArg ('\n' ∈ ·) h) (by simp)
    | cons line' lines =>
      obtain ⟨hline', hlines⟩ := List.forall_mem_cons.mp hlines
      rw [linesText_cons] at h
      -- neither line holds the line feed at the end of the other one
      obtain ⟨rfl, hrest⟩ : line' = line ∧ linesText lines = linesText first ++ rest := by
        rcases List.append_eq_append_iff.mp h with
          ⟨between, rfl, hbetween⟩ | ⟨between, rfl, hbetween⟩
        · cases between with
          | nil => exact ⟨(List.append_nil _).symm, (List.cons.inj hbetween).2⟩
          | cons c between =>
            obtain ⟨rfl, -⟩ := List.cons.inj hbetween
            exact absurd (List.mem_append_right _ List.mem_cons_self) hline
        · cases between with
          | nil => exact ⟨List.append_nil _, (List.cons.inj hbetween).2.symm⟩
          | cons c between =>
            obtain ⟨rfl, -⟩ := List.cons.inj hbetween
            exact absurd (List.mem_append_right _ List.mem_cons_self) hline'
      obtain ⟨more, rfl, hmore⟩ := ih hlines hfirst' hrest
      exact ⟨more, rfl, hmore⟩

/-! ### Quoted texts -/

theorem fitsOnLine_of_isQuotable {cs : List Char} (h : isQuotable cs = true) : FitsOnLine cs := by
  simp only [isQuotable, List.all_eq_true, Bool.and_eq_true, bne_iff_ne, ne_eq] at h
  constructor
  · intro hmem
    exact (h _ hmem).1.2 rfl
  · intro hlast
    exact (h _ (List.mem_of_getLast? hlast)).2 rfl

/-! ### Lines of input -/

theorem last_of_dropEndWhile {p : Char → Bool} {cs : List Char} {c : Char}
    (h : (dropEndWhile p cs).getLast? = some c) : p c = false := by
  rw [dropEndWhile, List.getLast?_reverse] at h
  have hfirst := List.head?_dropWhile_not p cs.reverse
  rwa [h] at hfirst

namespace Console

/-- A line feed is encoded by the byte that ends a line. -/
theorem lineFeed_mem_of_decode? {bytes : List UInt8} {line : String} (h : decode? bytes = some line)
    (hmem : '\n' ∈ line.toList) : 10 ∈ bytes := by
  unfold decode? String.fromUTF8? at h
  split at h
  · rename_i hvalid
    have hbytes : line.toByteArray = ⟨bytes.toArray⟩ := by
      rw [← Option.some.inj h]
      rfl
    rw [← String.utf8Encode_toList, List.utf8Encode] at hbytes
    have hdata := congrArg (fun b => b.data.toList) hbytes
    have hflat : line.toList.flatMap String.utf8EncodeChar = bytes := by simpa using hdata
    rw [← hflat]
    exact List.mem_flatMap.mpr ⟨'\n', hmem, by decide⟩
  · cases h

/-- **A line that is read fits on a line.** -/
theorem fitsOnLine_of_readLine {c c' : Console} {line : Option String}
    (h : readLine c = .ok line c') :
    FitsOnLine (line.getD "").toList := by
  unfold readLine at h
  split at h
  · cases h
    decide
  · dsimp only at h
    split at h
    · rename_i text hdecode
      cases h
      rw [Option.getD_some, String.toList_ofList]
      constructor
      · intro hmem
        have hwhole : '\n' ∈ text.toList := by
          rw [← dropEndWhile_append isLineEnd text.toList]
          exact List.mem_append_left _ hmem
        have hbyte := lineFeed_mem_of_decode? hdecode hwhole
        have hnot := List.mem_takeWhile_imp hbyte
        exact absurd hnot (by decide)
      · intro hlast
        exact absurd (last_of_dropEndWhile hlast) (by decide)
    · cases h

end Console

/-! ### Values -/

/-- A value whose text, if it is a string, fits on a line. -/
def Value.IsFramed : Value → Prop
  | .str s => FitsOnLine s.toList
  | _ => True

namespace Value

theorem isFramed_of_isAtom {v : Value} (h : v.isAtom) : v.IsFramed := by
  cases v with
  | str => cases h
  | _ => trivial

theorem isFramed_ofLiteral {l : Literal} (h : l.isWellFormed = true) : (ofLiteral l).IsFramed := by
  cases l with
  | str s => exact fitsOnLine_of_isQuotable h
  | _ => trivial

theorem isFramed_ofInput {line : String} (h : FitsOnLine line.toList) :
    (ofInput line).IsFramed := by
  unfold ofInput
  dsimp only
  split
  · split
    · trivial
    · split <;> trivial
  · exact h

end Value

/-! ### Texts of values -/

theorem lineFeed_notMem_toDigits (n : Nat) : '\n' ∉ Nat.toDigits 10 n := by
  intro hmem
  have hdigit := Nat.isDigit_of_mem_toDigits (by omega) (by omega) hmem
  exact absurd hdigit (by decide)

theorem lineFeed_notMem_signedDigits (n : Int) : '\n' ∉ signedDigits n := by
  unfold signedDigits
  split
  · simp [lineFeed_notMem_toDigits]
  · exact lineFeed_notMem_toDigits _

theorem lineFeed_notMem_fixedText (places : Nat) (x : Float) : '\n' ∉ fixedText places x := by
  unfold fixedText
  dsimp only
  split
  · decide
  · split <;> decide
  · split <;> simp [paddedDigits, lineFeed_notMem_toDigits]

namespace Heap

theorem lineFeed_notMem_plainText {v : Value} (h : v.IsFramed) : '\n' ∉ plainText v := by
  cases v with
  | null | list | function => exact List.not_mem_nil
  | int n => exact lineFeed_notMem_signedDigits _
  | float x => exact lineFeed_notMem_fixedText _ x
  | bool b => cases b <;> decide
  | str s => exact h.1

theorem lineFeed_notMem_listText {items : List (List Char)} (h : ∀ item ∈ items, '\n' ∉ item) :
    '\n' ∉ listText items := by
  unfold listText
  simp only [List.mem_cons, List.mem_append, List.mem_flatMap, List.not_mem_nil]
  rintro (hmem | hmem | ⟨item, hitem, hmem | hmem | hmem⟩ | hmem | hmem)
  case inr.inr.inl.inl => exact h item hitem hmem
  all_goals exact absurd hmem (by decide)

/-- **The text of a value holds no line feed** if no string in it does. -/
theorem lineFeed_notMem_text {h : Heap} {v : Value} (hitems : ∀ id, ∀ w ∈ h.items id, w.IsFramed)
    (hv : v.IsFramed) : '\n' ∉ h.text v := by
  unfold text
  generalize h.lists.size = fuel
  induction fuel generalizing v with
  | zero => exact lineFeed_notMem_plainText hv
  | succ fuel ih =>
    cases v with
    | list id =>
      refine lineFeed_notMem_listText fun item hitem => ?_
      obtain ⟨w, hw, rfl⟩ := List.mem_map.mp hitem
      exact ih (hitems id w hw)
    | _ => exact lineFeed_notMem_plainText hv

end Heap

/-! ### Machines -/

/-- The value of a name fits on a line. -/
def Entry.IsFramed (e : Entry) : Prop :=
  ∀ v, e.value = some v → v.IsFramed

/-- All strings of the machine fit on a line, and so do those in the bodies of its functions. -/
structure Machine.IsFramed (m : Machine) : Prop where
  scopes : AllEntries Entry.IsFramed m.scopes.scopes
  items : ∀ id, ∀ v ∈ m.heap.items id, v.IsFramed
  bodies : ∀ id f, m.heap.function? id = some f → f.body.Everywhere Expr.IsWellFormedHere

namespace Machine.IsFramed

variable {m m' : Machine}

theorem of_eq (h : m.IsFramed) (hscopes : m'.scopes = m.scopes) (hheap : m'.heap = m.heap) :
    m'.IsFramed :=
  ⟨hscopes ▸ h.scopes, hheap ▸ h.items, hheap ▸ h.bodies⟩

theorem initial (c : Console) : Machine.IsFramed { console := c } where
  scopes s hs e he := by
    obtain rfl : s = ⟨0, []⟩ := List.mem_singleton.mp hs
    exact absurd he List.not_mem_nil
  items id v hv := by simp [Heap.items] at hv
  bodies id f hf := by simp [Heap.function?] at hf

/-- Values are kept in scopes and lists, and only such are kept as fit on a line. -/
theorem move (h : m.IsFramed) (hmove : Move (fun _ v => v.IsFramed) m m') : m'.IsFramed := by
  have hscopes : AllEntries Entry.IsFramed m'.scopes.scopes := by
    refine h.scopes.move hmove ?_ ?_
    · intro name info _ v hv
      cases hv
    · intro name v old _ hv _ w hw
      cases hw
      exact hv
  cases hmove with
  | declare name info _ hnew =>
    have hheap := m.heap_declare ⟨name, info, none⟩
    exact ⟨hscopes, hheap ▸ h.items, hheap ▸ h.bodies⟩
  | store name id k v heap _ hv _ hset =>
    refine ⟨hscopes, fun other w hw => ?_, fun other f hf => ?_⟩
    · rcases Heap.mem_items_setItem? hset hw with hw | rfl
      · exact h.items other w hw
      · exact hv
    · refine h.bodies other f ?_
      rwa [Heap.function?, ← Heap.functions_setItem? hset]
  | credit id v =>
    refine ⟨hscopes, h.items, fun other f hf => ?_⟩
    have hf' : (m.heap.noteResult id v.typeClass).function? other = some f := hf
    rw [Heap.function?_noteResult] at hf'
    obtain ⟨g, hg, rfl⟩ := Option.map_eq_some_iff.mp hf'
    split <;> exact h.bodies other g hg
  | announce | bind | print | refuse | read | skip | probe => exact ⟨hscopes, h.items, h.bodies⟩

theorem newList (h : m.IsFramed) {items : List Literal}
    (hitems : ∀ l ∈ items, l.isWellFormed = true) :
    (m.allocList (items.map .ofLiteral)).IsFramed where
  scopes := h.scopes
  items id v hv := by
    have hv' : v ∈ (m.heap.newList (items.map .ofLiteral)).2.items id := hv
    by_cases heq : id = (m.heap.newList (items.map .ofLiteral)).1
    · subst heq
      rw [Heap.items_newList] at hv'
      obtain ⟨l, hl, rfl⟩ := List.mem_map.mp hv'
      exact Value.isFramed_ofLiteral (hitems l hl)
    · rw [Heap.items_newList_of_ne _ _ heq] at hv'
      exact h.items id v hv'
  bodies := h.bodies

theorem newFunction (h : m.IsFramed) {f : Function}
    (hbody : f.body.Everywhere Expr.IsWellFormedHere) :
    (m.allocFunction f).IsFramed where
  scopes := h.scopes
  items := h.items
  bodies id g hg := by
    have hg' : (m.heap.newFunction f).2.function? id = some g := hg
    rw [Heap.function?_newFunction] at hg'
    split at hg'
    · cases hg'
      exact hbody
    · exact h.bodies id g hg'

theorem enter (h : m.IsFramed) (id : FunctionId) (f : Function) (args : List Int64) :
    (Eval.enter m id f args).2.IsFramed := by
  have hheap := Eval.heap_enter m id f args
  refine ⟨h.scopes.enter id f args ?_, hheap ▸ h.items, hheap ▸ h.bodies⟩
  rintro e ⟨p, n, rfl⟩ v ⟨⟩
  trivial

end Machine.IsFramed

/-- **The law of strings that fit on a line**, given the scopes that are set aside. -/
def Law.framed (lim : Limits) (aside : List Scope) : Law lim where
  Admits e := e.Everywhere Expr.IsWellFormedHere
  Inv m := m.IsFramed ∧ AllEntries Entry.IsFramed aside
  Step _ _ := True
  Fits _ v := v.IsFramed
  admits_part {e _} h hpart := h.inside (e.parts_subset_inside hpart)
  step_refl _ := trivial
  step_trans _ _ := trivial
  fits_step _ _ hv := hv
  fits_atom hv := Value.isFramed_of_isAtom hv
  fits_literal h := Value.isFramed_ofLiteral h.here
  fits_input h := Value.isFramed_ofInput (Console.fitsOnLine_of_readLine h)
  fits_lookup h hlookup := by
    obtain ⟨e, he, hvalue⟩ := h.1.scopes.lookup? hlookup
    exact he _ hvalue
  fits_item h _ hv := h.1.items _ _ hv
  move h hmove := ⟨⟨h.1.move hmove, h.2⟩, trivial⟩
  newList hadmits h := ⟨⟨h.1.newList hadmits.here.2, h.2⟩, trivial, trivial⟩
  newFunction hadmits _ h :=
    ⟨⟨h.1.newFunction (hadmits.inside List.mem_cons_self), h.2⟩, trivial, trivial⟩
  begin h _ := ⟨h.1.of_eq rfl rfl, h.2⟩
  finish _ _ h _ _ := ⟨⟨h.1.of_eq rfl rfl, h.2⟩, trivial⟩
  fits_finish hv := hv
  forget {m m' name} _ _ _ h _ := by
    refine ⟨⟨⟨h.1.scopes.forget name, h.1.items, h.1.bodies⟩, h.2⟩, trivial⟩
  enter h hcall := ⟨⟨h.1.enter _ _ _, h.2⟩, h.1.bodies _ _ hcall.function⟩
  leave h _ _ h' _ := ⟨⟨⟨h.1.scopes, h'.1.items, h'.1.bodies⟩, h.2⟩, trivial⟩
  fits_leave _ _ _ _ _ _ hv := hv

/-! ### Sessions -/

namespace Session

variable {s : Session} {t : Moment}

theorem IsRead.isWellFormedHere (h : s.IsRead) :
    ∀ p ∈ s.programs, ∀ e ∈ p, e.Everywhere Expr.IsWellFormedHere := by
  intro p hp e he
  obtain ⟨source, hparse⟩ := h p hp
  have hboth := Program.everywhere_of_parse (Expr.holdsOfRead_isSpelled source)
    (fun _ => Program.isFound_of_trees) hparse
  exact (hboth e he).imp fun _ => And.left

theorem Pauses.isFramed {m : Machine} (h : s.Pauses m) (hread : s.IsRead) : m.IsFramed := by
  have hinv : (Law.framed s.limits []).Inv m := by
    refine h.law hread.isWellFormedHere ⟨.initial s.console, ?_⟩ ?_ ?_
    · exact fun _ hs => absurd hs List.not_mem_nil
    · intro m events c hm
      exact ⟨⟨fun _ hs => absurd hs List.not_mem_nil, hm.1.items, hm.1.bodies⟩, hm.2⟩
    · intro m c hm
      exact ⟨hm.1.of_eq rfl rfl, hm.2⟩
  exact hinv.1

theorem Visits.obeys_framed (h : s.Visits t) (hread : s.IsRead) :
    t.Obeys (Law.framed s.limits) := by
  refine h.obeys hread.isWellFormedHere (fun m hm => ⟨hm.isFramed hread, ?_⟩) ?_
  · exact fun _ hs => absurd hs List.not_mem_nil
  · intro aside m name id f args hm hcall
    refine ⟨⟨hm.1.enter id f args, ?_⟩, hm.1.bodies id f hcall.function⟩
    -- the scopes that the call sets aside are scopes of the caller
    obtain ⟨scope, events, -, -, -, henter⟩ := enter_eq m id f args
    intro scope' hscope'
    rw [henter] at hscope'
    rcases List.mem_append.mp hscope' with hs | hs
    · exact hm.1.scopes scope' ((List.take_prefix _ _).subset hs)
    · exact hm.2 scope' hs

theorem Reaches.isFramed {aside : List Scope} {m : Machine} (h : s.Reaches aside m)
    (hread : s.IsRead) :
    m.IsFramed ∧ AllEntries Entry.IsFramed aside := by
  cases h with
  | pause h => exact ⟨h.isFramed hread, fun _ hs => absurd hs List.not_mem_nil⟩
  | begins h => exact (h.obeys_framed hread).inv
  | ends h => exact (h.obeys_framed hread).inv_after

/-- **Every string that a session has at hand fits on a line.** -/
theorem Holds.isFramed {m : Machine} {v : Value} (h : s.Holds m v) (hread : s.IsRead) :
    v.IsFramed := by
  cases h with
  | name h hscope he hv =>
    have hframed := h.isFramed hread
    rcases List.mem_append.mp hscope with hs | hs
    · exact hframed.1.scopes _ hs _ he v hv
    · exact hframed.2 _ hs _ he v hv
  | item h hv => exact (h.isFramed hread).1.items _ v hv
  | @value t _ _ h hv =>
    have hobeys := h.obeys_framed hread
    have hended := Law.within t.room hobeys.inv hobeys.room hobeys.admits
    rw [hv] at hended
    exact hended.2
  | @result before after p _ _ h hv =>
    have hpause : (s.start.runAll s.limits before).IsFramed :=
      Pauses.isFramed ⟨before, p :: after, h, rfl⟩ hread
    have hmem : p ∈ s.programs := h ▸ List.mem_append_right _ List.mem_cons_self
    obtain ⟨m', hleads, hcloses⟩ := (Law.framed s.limits []).run (hread.isWellFormedHere p hmem)
      ⟨hpause, fun _ hs => absurd hs List.not_mem_nil⟩
    exact (Law.Closes.of_completed hv hcloses).1

end Session

end ScopeScript
