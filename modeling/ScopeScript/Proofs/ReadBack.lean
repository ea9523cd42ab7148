import ScopeScript.Proofs.Truncation

/-!
# What is printed is read back

An integer, and a string that fits on a line and does not look like a number, is its own input: the
line that printing writes for it is read as the same value (`Value.ReadsBack`).

* `Console.readLine_encode`: in the bytes of a text, a line ends at the first line feed of the text.
  No other character has the byte of a line feed in its encoding.
* `Value.ofInput_text`: the text of such a value is the text of no other value.
* `Eval.print_each` and `Eval.read_each`: printing values writes their texts as lines, and reading
  takes the lines back one by one, and empty ones from then on.
* `Eval.read_of_print` puts the two together.
-/

namespace ScopeScript

open Eval

/-! ### Bytes of a text -/

namespace Console

/-- The bytes that encode a text. -/
def encode (cs : List Char) : List UInt8 :=
  cs.flatMap String.utf8EncodeChar

theorem encode_append (cs ds : List Char) : encode (cs ++ ds) = encode cs ++ encode ds :=
  List.flatMap_append

theorem encode_lineFeed (cs : List Char) : encode ('\n' :: cs) = 10 :: encode cs := rfl

/-- A text is decoded from its bytes. -/
theorem decode?_encode (cs : List Char) : decode? (encode cs) = some (String.ofList cs) := by
  have hbytes : (⟨(encode cs).toArray⟩ : ByteArray) = (String.ofList cs).toByteArray := by
    rw [← String.utf8Encode_toList, String.toList_ofList, List.utf8Encode, encode]
    exact ByteArray.ext (by simp)
  rw [decode?, hbytes, String.fromUTF8?, dif_pos (String.ofList cs).isValidUTF8]
  rfl

/-- Every byte of a character but the line feed is another one: such a byte is the code point
itself, or has its highest bit set. -/
theorem not_isLineFeed_of_mem_utf8 {c : Char} (hc : c ≠ '\n') {b : UInt8}
    (hb : b ∈ String.utf8EncodeChar c) :
    isLineFeed b = false := by
  have hcode : c.val.toNat ≠ 10 := fun h => hc (Char.ext (UInt32.toNat_inj.mp h))
  have hbyte : ∀ n, n < 256 → n ≠ 10 → isLineFeed (UInt8.ofNat n) = false := by
    intro n hn hne
    rw [isLineFeed, beq_eq_false_iff_ne]
    intro h
    have hnat := congrArg UInt8.toNat h
    rw [UInt8.toNat_ofNat', Nat.mod_eq_of_lt hn] at hnat
    exact hne hnat
  unfold String.utf8EncodeChar at hb
  dsimp only at hb
  split at hb
  · obtain rfl := List.mem_singleton.mp hb
    exact hbyte _ (by omega) hcode
  · split at hb
    · simp only [List.mem_cons, List.not_mem_nil, or_false] at hb
      rcases hb with rfl | rfl <;> exact hbyte _ (by omega) (by omega)
    · split at hb
      · simp only [List.mem_cons, List.not_mem_nil, or_false] at hb
        rcases hb with rfl | rfl | rfl <;> exact hbyte _ (by omega) (by omega)
      · simp only [List.mem_cons, List.not_mem_nil, or_false] at hb
        rcases hb with rfl | rfl | rfl | rfl <;> exact hbyte _ (by omega) (by omega)

theorem not_isLineFeed_of_mem_encode {cs : List Char} (hcs : '\n' ∉ cs) :
    ∀ b ∈ encode cs, (!isLineFeed b) = true := by
  intro b hb
  obtain ⟨c, hc, hb⟩ := List.mem_flatMap.mp hb
  rw [not_isLineFeed_of_mem_utf8 (fun h => hcs (h ▸ hc)) hb]
  rfl

/-! ### Lines of input -/

theorem dropEndWhile_of_fitsOnLine {cs : List Char} (h : FitsOnLine cs) :
    dropEndWhile isLineEnd cs = cs := by
  have hkept : cs.reverse.dropWhile isLineEnd = cs.reverse := by
    cases hlast : cs.reverse with
    | nil => rfl
    | cons c rest =>
      have hlast' : cs.getLast? = some c := by rw [← List.head?_reverse, hlast]; rfl
      have hfeed : c ≠ '\n' := fun hc => h.1 (hc ▸ List.mem_of_getLast? hlast')
      have hreturn : c ≠ '\r' := fun hc => h.2 (hc ▸ hlast')
      rw [List.dropWhile_cons_of_neg]
      simp [isLineEnd, hfeed, hreturn]
  rw [dropEndWhile, hkept, List.reverse_reverse]

/-- **A line is read up to its line feed**, and what is behind it is left. -/
theorem readLine_encode {line : List Char} (h : FitsOnLine line) (rest : List Char) (s : Sink) :
    readLine ⟨encode (line ++ '\n' :: rest), s⟩ = .ok (some (String.ofList line))
      ⟨encode rest, s⟩ := by
  have hbytes : encode (line ++ '\n' :: rest) = encode line ++ 10 :: encode rest := by
    rw [encode_append, encode_lineFeed]
  have hbefore := not_isLineFeed_of_mem_encode h.1
  have hfeed : ¬ (!isLineFeed 10) = true := by decide
  have hfirst : firstLine (encode (line ++ '\n' :: rest)) = encode line := by
    rw [hbytes, firstLine, List.takeWhile_append_of_pos hbefore, List.takeWhile_cons, if_neg hfeed,
      List.append_nil]
  have hafter : afterLine (encode (line ++ '\n' :: rest)) = encode rest := by
    rw [hbytes, afterLine, List.dropWhile_append_of_pos hbefore, List.dropWhile_cons, if_neg hfeed,
      List.drop_one, List.tail_cons]
  have hsome : (encode (line ++ '\n' :: rest)).isEmpty = false := by
    rw [hbytes, List.isEmpty_eq_false_iff]
    exact List.append_ne_nil_of_right_ne_nil _ (List.cons_ne_nil _ _)
  simp only [readLine, hsome, Bool.false_eq_true, if_false, hfirst, hafter, decode?_encode,
    String.toList_ofList, dropEndWhile_of_fitsOnLine h]

end Console

/-! ### Values that are their own input -/

/-- An integer, or a string that fits on a line and does not begin like a number, blanks aside. -/
def Value.ReadsBack : Value → Prop
  | .int _ => True
  | .str s => FitsOnLine s.toList ∧ beginsLikeNumber (trim s.toList) = false
  | _ => False

theorem not_isBlank_of_isDigit {c : Char} (h : c.isDigit = true) : isBlank c = false := by
  have hrange : 48 ≤ c.toNat ∧ c.toNat ≤ 57 := by
    simpa [Char.isDigit, UInt32.le_iff_toNat_le] using h
  simp only [isBlank, blankRanges, List.any_cons, List.any_nil, Bool.or_false, Bool.or_eq_false_iff,
    Bool.and_eq_false_iff, decide_eq_false_iff_not]
  omega

theorem trim_of_not_isBlank {cs : List Char} (h : ∀ c ∈ cs, isBlank c = false) : trim cs = cs := by
  have hkept : ∀ ds : List Char, (∀ c ∈ ds, isBlank c = false) → ds.dropWhile isBlank = ds := by
    intro ds hds
    cases ds with
    | nil => rfl
    | cons c ds =>
      exact List.dropWhile_cons_of_neg (by rw [hds c List.mem_cons_self]; exact Bool.false_ne_true)
  rw [trim, trimStart, hkept cs h, trimEnd, dropEndWhile,
    hkept _ fun c hc => h c (List.mem_reverse.mp hc), List.reverse_reverse]

theorem not_isBlank_of_mem_signedDigits {n : Int} {c : Char} (hc : c ∈ signedDigits n) :
    isBlank c = false := by
  obtain ⟨sign, hsign, heq, -⟩ := exists_signedDigits_eq n
  rw [heq] at hc
  rcases List.mem_append.mp hc with hc | hc
  · have hsigned : c = '+' ∨ c = '-' := by
      simp only [List.mem_cons, List.not_mem_nil, or_false] at hsign
      rcases hsign with rfl | rfl | rfl
      · cases hc
      · exact .inl (List.mem_singleton.mp hc)
      · exact .inr (List.mem_singleton.mp hc)
    rcases hsigned with rfl | rfl
    · rfl
    · rfl
  · exact not_isBlank_of_isDigit (Nat.isDigit_of_mem_toDigits (by omega) (by omega) hc)

theorem trim_signedDigits (n : Int) : trim (signedDigits n) = signedDigits n :=
  trim_of_not_isBlank fun _ => not_isBlank_of_mem_signedDigits

theorem beginsLikeNumber_signedDigits (n : Int) : beginsLikeNumber (signedDigits n) = true := by
  obtain ⟨sign, hsign, heq, -⟩ := exists_signedDigits_eq n
  rw [heq]
  simp only [List.mem_cons, List.not_mem_nil, or_false] at hsign
  rcases hsign with rfl | rfl | rfl
  · cases hdigits : Nat.toDigits 10 n.natAbs with
    | nil => exact absurd hdigits Nat.toDigits_ne_nil
    | cons c ds =>
      have hdigit : c.isDigit = true :=
        Nat.isDigit_of_mem_toDigits (b := 10) (n := n.natAbs) (by omega) (by omega)
          (hdigits ▸ List.mem_cons_self)
      simp [beginsLikeNumber, hdigit]
  · rfl
  · rfl

namespace Value.ReadsBack

variable {v : Value} {heap : Heap}

theorem text_eq (h : v.ReadsBack) : heap.text v = Heap.plainText v := by
  unfold Heap.text
  cases heap.lists.size with
  | zero => rfl
  | succ fuel =>
    cases v with
    | list => cases h
    | _ => rfl

/-- Its text is a line of its own. -/
theorem fitsOnLine_text (h : v.ReadsBack) : FitsOnLine (heap.text v) := by
  rw [h.text_eq]
  cases v with
  | int n =>
    refine ⟨lineFeed_notMem_signedDigits _, fun hlast => ?_⟩
    have hblank : isBlank '\r' = false :=
      not_isBlank_of_mem_signedDigits (List.mem_of_getLast? hlast)
    exact absurd hblank (by decide)
  | str s => exact h.1
  | _ => cases h

/-- **Its text is read as the value.** -/
theorem ofInput_text (h : v.ReadsBack) : Value.ofInput (String.ofList (heap.text v)) = v := by
  rw [h.text_eq]
  cases v with
  | int n =>
    simp only [Value.ofInput, Heap.plainText, String.toList_ofList, trim_signedDigits,
      beginsLikeNumber_signedDigits, if_true, readInt?_signedDigits]
  | str s =>
    rw [Heap.plainText, String.ofList_toList]
    exact Value.ofInput_of_not_numeric s h.2
  | _ => cases h

end Value.ReadsBack

/-! ### Printing -/

/-- The expression is a constant or a name, and this is its value. -/
def Machine.Names (m : Machine) (v : Value) : Expr → Prop
  | .literal _ l => .ofLiteral l = v
  | .var _ name => m.scopes.lookup? name = some v
  | _ => False

/-- The expression prints a value that has a name or is a constant. -/
def Machine.Prints (m : Machine) (e : Expr) (v : Value) : Prop :=
  ∃ span operand, e = .print span operand ∧ m.Names v operand

theorem Sink.lines_append_line (s : Sink) {text : List Char} (h : '\n' ∉ text) :
    ((s.append (String.ofList text)).append "\n").lines = s.lines + 1 := by
  simp [Sink.lines, Sink.append, List.count_eq_zero.mpr h]

namespace Eval

variable {lim : Limits} {m : Machine} {v : Value}

theorem within_of_names (lim : Limits) {e : Expr} (h : m.Names v e) (room : Nat) :
    ∃ log, within lim (room + 1) e m = .ok v { m with log } := by
  cases e with
  | literal span l =>
    obtain rfl : Value.ofLiteral l = v := h
    exact ⟨_, rfl⟩
  | var span name =>
    have hlookup : (m.begin (.var span name)).scopes.lookup? name = some v := h
    have hnode : node lim (within lim room) (.var span name) (m.begin (.var span name)) =
        .ok v (m.begin (.var span name)) := by
      rw [node, evalVar, get_bind, hlookup]
      rfl
    rw [within, counted, hnode]
    exact ⟨_, rfl⟩
  | _ => cases h

/-- A text without a line feed is printed as a line, unless the sink is full. -/
theorem printValue_eq (hline : '\n' ∉ m.heap.text v) (hsink : m.console.sink.isFull = false) :
    printValue v m = .ok () ({ m with
      console := { m.console with
        sink := (m.console.sink.append (String.ofList (m.heap.text v))).append "\n" } }.note
      (.printed (m.heap.text v))) := by
  have hline' : '\n' ∉ (String.ofList (m.heap.text v)).toList := by rwa [String.toList_ofList]
  have hprint := Console.printLine_of_notMem hline' m.console
  rw [hsink, if_neg Bool.false_ne_true] at hprint
  exact printValue_of_ok hprint

/-- Printing a value adds its text and a line feed to the output. -/
theorem expr_print (hv : v.ReadsBack) {e : Expr} (h : m.Prints e v)
    (hdepth : m.depth + 2 ≤ lim.maxDepth) (hsink : m.console.sink.isFull = false) :
    ∃ log, expr lim e m = .ok v { m with
      console := { m.console with
        sink := (m.console.sink.append (String.ofList (m.heap.text v))).append "\n" }
      log } := by
  obtain ⟨span, operand, rfl, hnames⟩ := h
  obtain ⟨room, hroom⟩ : ∃ room, lim.maxDepth - m.depth = room + 1 + 1 :=
    ⟨lim.maxDepth - m.depth - 2, by omega⟩
  have hnames' : (m.begin (.print span operand)).Names v operand := by
    cases operand with
    | literal | var => exact hnames
    | _ => cases hnames
  obtain ⟨log, hoperand⟩ := within_of_names lim hnames' room
  have hprint :=
    printValue_eq (m := { m.begin (.print span operand) with log }) hv.fitsOnLine_text.1 hsink
  have hnode : ∃ log, node lim (within lim (room + 1)) (.print span operand)
      (m.begin (.print span operand)) =
      .ok v { m with
        console := { m.console with
          sink := (m.console.sink.append (String.ofList (m.heap.text v))).append "\n" }
        depth := m.depth + 1
        log } := by
    rw [node, evalPrint, bind_of_ok hoperand]
    cases v with
    | int | str =>
      exact ⟨_, bind_of_ok hprint⟩
    | _ => cases hv
  obtain ⟨log, hnode⟩ := hnode
  rw [expr, hroom, within, counted, hnode]
  exact ⟨_, rfl⟩

/-- **Printing values** writes their texts as lines. -/
theorem print_each {es : List Expr} {vs : List Value} (hvs : ∀ v ∈ vs, v.ReadsBack)
    (h : List.Forall₂ m.Prints es vs) (hdepth : m.depth + 2 ≤ lim.maxDepth)
    (hroom : ∀ n, m.console.sink.limit = some n → m.console.sink.lines + vs.length ≤ n) :
    ∃ text log, es.mapM (expr lim) m = .ok vs { m with
        console := { m.console with sink := m.console.sink.append text }
        log } ∧
      text.toList = linesText (vs.map m.heap.text) := by
  induction vs generalizing es m with
  | nil =>
    cases h
    refine ⟨"", m.log, ?_, rfl⟩
    rw [Sink.append, String.append_empty]
    rfl
  | cons v vs ih =>
    obtain _ | ⟨he, hes⟩ := h
    rename_i e es
    obtain ⟨hv, hvs⟩ := List.forall_mem_cons.mp hvs
    have hsink : m.console.sink.isFull = false := by
      unfold Sink.isFull
      cases hlimit : m.console.sink.limit with
      | none => rfl
      | some n =>
        have := hroom n hlimit
        rw [List.length_cons] at this
        exact decide_eq_false (by omega)
    obtain ⟨log, hfirst⟩ := expr_print hv he hdepth hsink
    obtain ⟨text, log', hrest, htext⟩ := ih (m := { m with
      console := { m.console with
        sink := (m.console.sink.append (String.ofList (m.heap.text v))).append "\n" }
      log }) hvs hes hdepth fun n hn => by
        have := hroom n hn
        rw [List.length_cons] at this
        show Sink.lines _ + _ ≤ n
        rw [Sink.lines_append_line _ hv.fitsOnLine_text.1]
        omega
    refine ⟨String.ofList (m.heap.text v) ++ "\n" ++ text, log', ?_, ?_⟩
    · rw [List.mapM_cons, bind_of_ok hfirst, bind_of_ok hrest]
      simp only [Sink.append, String.append_assoc]
      rfl
    · rw [String.toList_append, String.toList_append, String.toList_ofList, htext, List.map_cons,
        linesText_cons]
      simp

/-! ### Reading -/

/-- Reading takes a line of the input for its value. -/
theorem expr_read (span : Span) (hdepth : m.depth < lim.maxDepth)
    {line : Option String} {c : Console} (h : Console.readLine m.console = .ok line c) :
    ∃ log, expr lim (.read span) m = .ok (.ofInput (line.getD ""))
    { m with console := c, log } := by
  obtain ⟨room, hroom⟩ : ∃ room, lim.maxDepth - m.depth = room + 1 :=
    ⟨lim.maxDepth - m.depth - 1, by omega⟩
  have hread : node lim (within lim room) (.read span) (m.begin (.read span)) =
      .ok (.ofInput (line.getD ""))
      ({ m.begin (.read span) with console := c }.note (.consumed line)) := by
    have hconsole := onConsole_of_ok (m := m.begin (.read span)) h
    show evalRead _ = _
    rw [evalRead, bind_of_ok hconsole]
    rfl
  rw [expr, hroom, within, counted, hread]
  exact ⟨_, rfl⟩

/-- **Reading lines** takes them one by one. -/
theorem read_each (lim : Limits) (spans : List Span) {lines : List (List Char)}
    (hlength : spans.length = lines.length)
    (hlines : ∀ line ∈ lines, FitsOnLine line) (hdepth : m.depth < lim.maxDepth)
    (hinput : m.console.input = Console.encode (linesText lines)) :
    ∃ log, (spans.mapM fun span => expr lim (.read span)) m =
      .ok (lines.map fun line => .ofInput (String.ofList line))
        { m with console := { m.console with input := [] }, log } := by
  induction lines generalizing spans m with
  | nil =>
    obtain rfl := List.length_eq_zero_iff.mp hlength
    refine ⟨m.log, ?_⟩
    rw [← show m.console.input = [] from hinput]
    rfl
  | cons line lines ih =>
    obtain ⟨span, spans, rfl⟩ := List.exists_cons_of_length_eq_add_one hlength
    obtain ⟨hline, hlines⟩ := List.forall_mem_cons.mp hlines
    have hread := Console.readLine_encode hline (linesText lines) m.console.sink
    rw [← linesText_cons, ← hinput] at hread
    obtain ⟨log, hfirst⟩ := expr_read span hdepth hread
    obtain ⟨log', hrest⟩ := ih (m := { m with
      console := ⟨Console.encode (linesText lines), m.console.sink⟩
      log }) spans (Nat.succ.inj hlength) hlines hdepth rfl
    refine ⟨log', ?_⟩
    rw [List.mapM_cons, bind_of_ok hfirst, bind_of_ok hrest]
    rfl

/-- **Behind the last line** an empty string is read, as often as one likes. -/
theorem read_nothing (lim : Limits) (spans : List Span) (hdepth : m.depth < lim.maxDepth)
    (hinput : m.console.input = []) :
    ∃ log, (spans.mapM fun span => expr lim (.read span)) m =
      .ok (List.replicate spans.length (.str "")) { m with log } := by
  induction spans generalizing m with
  | nil => exact ⟨m.log, rfl⟩
  | cons span spans ih =>
    have hread : Console.readLine m.console = .ok none m.console := by
      rw [Console.readLine, hinput]
      rfl
    obtain ⟨log, hfirst⟩ := expr_read span hdepth hread
    obtain ⟨log', hrest⟩ := ih (m := { m with log }) hdepth hinput
    refine ⟨log', ?_⟩
    rw [List.mapM_cons, bind_of_ok hfirst, bind_of_ok hrest]
    rfl

/-- **Printed values are read back.** Let each value be an integer or a string that fits on a line
and does not begin like a number, blanks aside, and let the sink have room for as many lines.
Printing the values one after the other succeeds, and with its output for an input, on any machine,
reading as often yields the same values; whoever goes on reading gets empty strings. -/
theorem read_of_print (lim : Limits) {prints : List Expr} {vs : List Value}
    (hvs : ∀ v ∈ vs, v.ReadsBack)
    (hprints : List.Forall₂ m.Prints prints vs) (hdepth : m.depth + 2 ≤ lim.maxDepth)
    (hroom : ∀ n, m.console.sink.limit = some n → m.console.sink.lines + vs.length ≤ n) :
    ∃ m₁ output, prints.mapM (expr lim) m = .ok vs m₁ ∧
      m₁.console.sink.written = m.console.sink.written ++ output ∧
      ∀ (lim' : Limits) (m' : Machine) (reads later : List Span),
        m'.console.input = Console.encode output.toList → m'.depth < lim'.maxDepth →
        reads.length = vs.length →
        ∃ m₂ m₃, (reads.mapM fun span => expr lim' (.read span)) m' = .ok vs m₂ ∧
          (later.mapM fun span => expr lim' (.read span)) m₂ =
            .ok (List.replicate later.length (.str "")) m₃ := by
  obtain ⟨output, log, hprinted, houtput⟩ := print_each hvs hprints hdepth hroom
  refine ⟨_, output, hprinted, rfl, fun lim' m' reads later hinput hdepth' hlength => ?_⟩
  have hlines : ∀ line ∈ vs.map m.heap.text, FitsOnLine line := by
    intro line hline
    obtain ⟨v, hv, rfl⟩ := List.mem_map.mp hline
    exact (hvs v hv).fitsOnLine_text
  have hback : (vs.map m.heap.text).map (fun line => .ofInput (String.ofList line)) = vs := by
    rw [List.map_map]
    exact (List.map_congr_left fun v hv => (hvs v hv).ofInput_text).trans (List.map_id vs)
  rw [houtput] at hinput
  obtain ⟨log₂, hread⟩ :=
    read_each lim' reads (by rw [List.length_map, hlength]) hlines hdepth' hinput
  rw [hback] at hread
  obtain ⟨log₃, hlater⟩ := read_nothing lim' later (m := { m' with
    console := { m'.console with input := [] }
    log := log₂ }) hdepth' rfl
  exact ⟨_, _, hread, hlater⟩

/-- The smallest integer, the empty string, blanks, and a name for a string with a carriage return
inside. -/
theorem read_of_print_extremes :
    ∃ m₁ output, [Expr.print ⟨0, 27⟩ (.literal ⟨6, 26⟩ (.int (-9223372036854775808))),
        .print ⟨28, 37⟩ (.literal ⟨34, 36⟩ (.str "")),
        .print ⟨38, 50⟩ (.literal ⟨44, 49⟩ (.str " \u00a0 ")),
        .print ⟨51, 59⟩ (.var ⟨57, 58⟩ "s")].mapM (expr {})
          (({} : Machine).declare ⟨"s", .plain .ofScalar, some (.str "a\rb")⟩) =
        .ok [.int (-9223372036854775808), .str "", .str " \u00a0 ", .str "a\rb"] m₁ ∧
      m₁.console.sink.written = output ∧
      ∃ m₂ m₃, [⟨0, 6⟩, ⟨7, 13⟩, ⟨14, 20⟩, ⟨21, 27⟩].mapM (fun span => expr {} (.read span))
          { console := { input := Console.encode output.toList } } =
        .ok [.int (-9223372036854775808), .str "", .str " \u00a0 ", .str "a\rb"] m₂ ∧
      [⟨28, 34⟩, ⟨35, 41⟩].mapM (fun span => expr {} (.read span)) m₂ =
        .ok [.str "", .str ""] m₃ := by
  have hvs : ∀ v ∈ [Value.int (-9223372036854775808), .str "", .str " \u00a0 ", .str "a\rb"],
      v.ReadsBack := by
    intro v hv
    simp only [List.mem_cons, List.not_mem_nil, or_false] at hv
    rcases hv with rfl | rfl | rfl | rfl
    · trivial
    all_goals exact ⟨by decide, by decide⟩
  have hprints :
      List.Forall₂ (({} : Machine).declare ⟨"s", .plain .ofScalar, some (.str "a\rb")⟩).Prints
      [.print ⟨0, 27⟩ (.literal ⟨6, 26⟩ (.int (-9223372036854775808))),
        .print ⟨28, 37⟩ (.literal ⟨34, 36⟩ (.str "")),
        .print ⟨38, 50⟩ (.literal ⟨44, 49⟩ (.str " \u00a0 ")), .print ⟨51, 59⟩ (.var ⟨57, 58⟩ "s")]
      [.int (-9223372036854775808), .str "", .str " \u00a0 ", .str "a\rb"] := by
    refine .cons ⟨_, _, rfl, ?_⟩
      (.cons ⟨_, _, rfl, ?_⟩ (.cons ⟨_, _, rfl, ?_⟩ (.cons ⟨_, _, rfl, ?_⟩ .nil))) <;> rfl
  obtain ⟨m₁, output, hprint, houtput, hread⟩ := read_of_print {} hvs hprints (by decide) nofun
  obtain ⟨m₂, m₃, hback, hlater⟩ :=
    hread {} { console := { input := Console.encode output.toList } }
    [⟨0, 6⟩, ⟨7, 13⟩, ⟨14, 20⟩, ⟨21, 27⟩] [⟨28, 34⟩, ⟨35, 41⟩] rfl (Nat.zero_lt_succ 999) rfl
  exact ⟨m₁, output, hprint, houtput.trans String.empty_append, m₂, m₃, hback, hlater⟩

end Eval

end ScopeScript
