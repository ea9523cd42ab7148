import ScopeScript.Proofs.Limits
import ScopeScript.Proofs.OutputLines

/-!
# Sinks that fill up

A sink that takes a number of lines only cuts the output of a run off, and changes nothing else. As
long as the run writes no more lines than the sink takes, it ends as it would with a sink that takes
every line, on a machine that differs in the limit of its sink only. Else it ends with the fault of
the sink, all scopes closed, and the lines up to the limit have been written, each in full.

Two runs are put side by side, one with the limited sink and one with a sink that takes every line.
They part only where a write is refused, and from there on the second run writes at least one line
feed more (`Coupling.unlimited`). That no part of a line is written before its refusal is a fact
about one run: the texts that are printed hold no line feed, so a line that begins where there is
room for it goes through as a whole (`Law.orderly`).

Main statement: `Machine.run_truncated`.
-/

namespace ScopeScript

open Eval

/-! ### Sinks with another limit -/

/-- The console with another limit on the lines of its sink. -/
def Console.withLimit (limit : Option Nat) (c : Console) : Console :=
  { c with sink := { c.sink with limit } }

namespace Console

/-- **Printing a line** is refused if the sink is full, or has become so by the text of the line. -/
theorem printLine_eq (text : String) (c : Console) :
    printLine text c =
      if c.sink.isFull then .error .writeRefused c
      else if (c.sink.append text).isFull then
        .error .writeRefused { c with sink := c.sink.append text }
      else .ok () { c with sink := (c.sink.append text).append "\n" } := by
  by_cases htext : text = ""
  · subst htext
    have hsame : c.sink.append "" = c.sink := by
      rw [Sink.append, String.append_empty]
    rw [hsame]
    by_cases hfull : c.sink.isFull <;> simp [printLine, write, hfull]
  · have hne : text.isEmpty = false := by simpa using htext
    by_cases hfull : c.sink.isFull <;> by_cases hthen : (c.sink.append text).isFull <;>
      simp [printLine, write, hne, hfull, hthen, bind, EStateM.bind]

/-- A text without a line feed does not fill the sink. -/
theorem printLine_of_notMem {text : String} (htext : '\n' ∉ text.toList) (c : Console) :
    printLine text c =
      if c.sink.isFull then .error .writeRefused c
      else .ok () { c with sink := (c.sink.append text).append "\n" } := by
  have hlines : (c.sink.append text).lines = c.sink.lines := by
    rw [Sink.lines, Sink.lines, Sink.append, String.toList_append, List.count_append,
      List.count_eq_zero.mpr htext, Nat.add_zero]
  have hfull : (c.sink.append text).isFull = c.sink.isFull := by
    rw [Sink.isFull, Sink.isFull, hlines, Sink.append]
  rw [printLine_eq, hfull]
  by_cases h : c.sink.isFull <;> simp only [h, if_true, if_false, Bool.false_eq_true]

end Console

/-! ### Two runs -/

/-- Another console is all that the second run differs in. -/
theorem Twin.machine_of_console (console : Console → Console) (m : Machine) :
    (⟨id, console, []⟩ : Twin).machine m = { m with console := console m.console } := by
  have hfunctions : (⟨id, console, []⟩ : Twin).function = id := funext same_function
  have hevents : (⟨id, console, []⟩ : Twin).event = id := funext same_event
  simp only [machine, heap, hfunctions, hevents, Array.map_id, List.map_id, List.append_nil]

/-- The second run has a sink that takes every line. The runs part where a write is refused; the
second one has written what the first one has, and at least one line feed more. -/
def Coupling.unlimited (lim : Limits) : Coupling lim lim where
  toTwin := ⟨id, Console.withLimit none, []⟩
  Parts stop m m' := stop = .error (.io .writeRefused) ∧ m.console.sink.isFull ∧
    ∃ rest, m'.console.sink.written = m.console.sink.written ++ rest ∧ '\n' ∈ rest.toList
  fatal := by
    rintro stop m m' ⟨rfl, -⟩
    exact ⟨Stop.noConfusion, Stop.noConfusion⟩
  unwinds h _ hconsole := hconsole ▸ h
  continues h hcont := by
    obtain ⟨hstop, hfull, rest, hrest, hfeed⟩ := h
    obtain ⟨more, hmore⟩ := hcont.output
    refine ⟨hstop, hfull, rest ++ more, by rw [hmore, hrest, String.append_assoc], ?_⟩
    rw [String.toList_append]
    exact List.mem_append_left _ hfeed
  room := .inl rfl
  loops := .inl ⟨rfl, rfl⟩
  prints text m := by
    have hsecond : onConsole (Console.printLine text)
        { m with console := m.console.withLimit none } =
        .ok () { m with console :=
          { m.console.withLimit none with
            sink := ((m.console.withLimit none).sink.append text).append "\n" } } := by
      rw [onConsole, Console.printLine_of_unlimited _ _ rfl]
    unfold Twin.Agrees after
    rw [Twin.machine_of_console, hsecond]
    unfold onConsole
    rw [Console.printLine_eq]
    by_cases hfull : m.console.sink.isFull
    · rw [if_pos hfull]
      refine .inr ⟨_, _, rfl, rfl, hfull, text ++ "\n", ?_, ?_⟩
      · exact String.append_assoc
      · simp
    · rw [if_neg hfull]
      by_cases hthen : (m.console.sink.append text).isFull
      · rw [if_pos hthen]
        exact .inr ⟨_, _, rfl, rfl, hthen, "\n", rfl, by simp⟩
      · rw [if_neg hthen]
        left
        rw [Twin.result, Twin.machine_of_console]
        rfl
  reads m := by
    left
    rw [Twin.machine_of_console]
    have hread : Console.readLine (m.console.withLimit none) =
        match Console.readLine m.console with
        | .ok line c => .ok line (c.withLimit none)
        | .error fault c => .error fault (c.withLimit none) := by
      unfold Console.readLine
      show (if m.console.input.isEmpty then _ else _) = _
      by_cases hend : m.console.input.isEmpty
      · rw [if_pos hend, if_pos hend]
      · rw [if_neg hend, if_neg hend]
        dsimp only [Console.withLimit]
        cases Console.decode? (Console.firstLine m.console.input) <;> rfl
    unfold onConsole
    rw [hread]
    cases Console.readLine m.console with
    | ok line c => rw [Twin.result, Twin.machine_of_console]
    | error fault c =>
      rw [Twin.result, Twin.machine_of_console]
      rfl
  flushes _ := rfl

/-- A run with any sink ends as with a sink that takes every line, or a write was refused in it. -/
theorem Machine.run_of_unlimited (m : Machine) (lim : Limits) (p : Program) :
    { m with console := m.console.withLimit none }.run lim p =
        ((m.run lim p).1,
          { (m.run lim p).2 with console := (m.run lim p).2.console.withLimit none }) ∨
      (m.run lim p).1 = .failed (.io .writeRefused) ∧ (m.run lim p).2.scopes.scopes = [] ∧
        (m.run lim p).2.console.sink.isFull ∧
        ∃ rest, ({ m with console := m.console.withLimit none }.run lim p).2.console.sink.written =
          (m.run lim p).2.console.sink.written ++ rest ∧ '\n' ∈ rest.toList := by
  have hrun := (Coupling.unlimited lim).run p m
  have hprogram : p.map (Coupling.unlimited lim).expr = p := by
    rw [show (Coupling.unlimited lim).expr = id from funext Expr.mapSpans_id, List.map_id]
  have hmachine : ∀ m, (Coupling.unlimited lim).machine m =
      { m with console := m.console.withLimit none } :=
    Twin.machine_of_console _
  have hending : ∀ r, (Coupling.unlimited lim).ending r = r := Twin.same_ending
  rw [hprogram, hmachine, hmachine, hending] at hrun
  rcases hrun with heq | ⟨stop, m₁, hstop, rfl, hfull, hrest⟩
  · exact .inl heq
  · right
    rw [hstop, concluded, abandon_eq_closeAll]
    exact ⟨rfl, rfl, hfull, hrest⟩

/-! ### One run -/

/-- The sink holds a number of complete lines, and no more than it takes. -/
structure Sink.IsOrderly (limit : Option Nat) (s : Sink) : Prop where
  limit_eq : s.limit = limit
  lines : ∃ lines, (∀ line ∈ lines, '\n' ∉ line) ∧ s.written.toList = linesText lines
  bounded : ∀ n, limit = some n → s.lines ≤ n

namespace Sink.IsOrderly

variable {limit : Option Nat} {m m' : Machine}

theorem of_empty {s : Sink} (hlimit : s.limit = limit) (h : s.written = "") :
    s.IsOrderly limit where
  limit_eq := hlimit
  lines := ⟨[], by simp, by rw [h]; rfl⟩
  bounded n _ := by
    rw [Sink.lines, h]
    exact Nat.zero_le n

/-- A line is added if there is room for one. -/
theorem append {s : Sink} (h : s.IsOrderly limit) {text : List Char} (htext : '\n' ∉ text)
    (hroom : s.isFull = false) : ((s.append (String.ofList text)).append "\n").IsOrderly limit := by
  obtain ⟨hlimit, ⟨lines, hlines, hwritten⟩, hbounded⟩ := h
  have hwritten' : ((s.append (String.ofList text)).append "\n").written.toList =
      linesText (lines ++ [text]) := by
    simp only [Sink.append, String.toList_append, String.toList_ofList, hwritten, linesText_append,
      linesText_cons, linesText_nil, List.append_assoc]
    rfl
  have hlines' : ∀ line ∈ lines ++ [text], '\n' ∉ line := by
    intro line hline
    rcases List.mem_append.mp hline with hline | hline
    · exact hlines line hline
    · exact List.mem_singleton.mp hline ▸ htext
  refine ⟨hlimit, ⟨_, hlines', hwritten'⟩, fun n hn => ?_⟩
  have hless : ¬ n ≤ s.lines := by
    rw [Sink.isFull, hlimit, hn] at hroom
    simpa using hroom
  rw [Sink.lines, hwritten, count_linesText hlines] at hless
  rw [Sink.lines, hwritten', count_linesText hlines', List.length_append, List.length_singleton]
  omega

/-- **Moves** add a line, or leave the sink as it is. -/
theorem move (h : m.console.sink.IsOrderly limit) (hframed : m.IsFramed)
    (hmove : Move (fun _ v => v.IsFramed) m m') : m'.console.sink.IsOrderly limit := by
  have htext : ∀ {v : Value}, v.IsFramed → '\n' ∉ m.heap.text v :=
    fun hv => Heap.lineFeed_notMem_text hframed.items hv
  cases hmove with
  | announce | bind | store | credit | probe => exact h
  | declare name info =>
    unfold Machine.declare
    cases m.scopes.add? ⟨name, info, none⟩ <;> exact h
  | print v console hv hprint =>
    rw [Console.printLine_of_notMem (by rw [String.toList_ofList]; exact htext hv)] at hprint
    by_cases hfull : m.console.sink.isFull
    · rw [if_pos hfull] at hprint
      cases hprint
    · rw [if_neg hfull] at hprint
      cases hprint
      exact h.append (htext hv) (Bool.eq_false_iff.mpr hfull)
  | refuse v fault console hv hprint =>
    rw [Console.printLine_of_notMem (by rw [String.toList_ofList]; exact htext hv)] at hprint
    by_cases hfull : m.console.sink.isFull
    · rw [if_pos hfull] at hprint
      cases hprint
      exact h
    · rw [if_neg hfull] at hprint
      cases hprint
  | read line console hread =>
    show console.sink.IsOrderly limit
    rw [Console.readLine_sink (.inl ⟨line, hread⟩)]
    exact h
  | skip fault console hread =>
    show console.sink.IsOrderly limit
    rw [Console.readLine_sink (.inr ⟨fault, hread⟩)]
    exact h

end Sink.IsOrderly

/-- A law together with a condition on the console, which the moves are to keep. Nothing else
reaches the console. -/
def Law.withConsole {lim : Limits} (L : Law lim) (P : Console → Prop)
    (hmove : ∀ {m m'}, L.Inv m → P m.console → Move L.Fits m m' → P m'.console) : Law lim where
  Admits := L.Admits
  Inv m := L.Inv m ∧ P m.console
  Step := L.Step
  Fits := L.Fits
  admits_part := L.admits_part
  step_refl := L.step_refl
  step_trans := L.step_trans
  fits_step := L.fits_step
  fits_atom := L.fits_atom
  fits_literal := L.fits_literal
  fits_input := L.fits_input
  fits_lookup h := L.fits_lookup h.1
  fits_item h := L.fits_item h.1
  move h hm := ⟨⟨(L.move h.1 hm).1, hmove h.1 h.2 hm⟩, (L.move h.1 hm).2⟩
  newList hadmits h := ⟨⟨(L.newList hadmits h.1).1, h.2⟩, (L.newList hadmits h.1).2⟩
  newFunction hadmits hnodup h :=
    ⟨⟨(L.newFunction hadmits hnodup h.1).1, h.2⟩, (L.newFunction hadmits hnodup h.1).2⟩
  begin h hdepth := ⟨L.begin h.1 hdepth, h.2⟩
  finish h hkept h' hstep hstop := by
    have hfinish := L.finish h.1 hkept h'.1 hstep fun s hs => by
      obtain ⟨at', hinv, harises⟩ := hstop s hs
      exact ⟨at', hinv.1, harises⟩
    exact ⟨⟨hfinish.1, h'.2⟩, hfinish.2⟩
  fits_finish := L.fits_finish
  forget h hnew hkept h' hstep := by
    have hforget := L.forget h.1 hnew hkept h'.1 hstep
    exact ⟨⟨hforget.1, h'.2⟩, hforget.2⟩
  enter {m _ id f args} h hcall := by
    have henter := L.enter h.1 hcall
    refine ⟨⟨henter.1, ?_⟩, henter.2⟩
    obtain ⟨s, events, -, -, -, heq⟩ := enter_eq m id f args
    rw [heq]
    exact h.2
  leave h hcall hkept h' hstep := by
    have hleave := L.leave h.1 hcall hkept h'.1 hstep
    exact ⟨⟨hleave.1, h'.2⟩, hleave.2⟩
  fits_leave h hcall hkept h' := L.fits_leave h.1 hcall hkept h'.1

/-- **The law of orderly output**: only complete lines are written, and no more than the sink
takes. -/
def Law.orderly (lim : Limits) (limit : Option Nat) : Law lim :=
  (Law.framed lim []).withConsole (·.sink.IsOrderly limit) fun hinv h hmove => h.move hinv.1 hmove

/-- What a run of a program that was read writes on a console on which nothing was written. -/
theorem Machine.isOrderly_run {source : List Char} {p : Program}
    (hparse : Program.parse source = .ok p)
    (lim : Limits) {c : Console} (hc : c.sink.written = "") :
    (({ console := c } : Machine).run lim p).2.console.sink.IsOrderly c.sink.limit := by
  let s : Session := { limits := lim, console := c, programs := [p] }
  have hread : s.IsRead := fun q hq => ⟨source, List.mem_singleton.mp hq ▸ hparse⟩
  have hinv : (Law.orderly lim c.sink.limit).Inv { console := c } :=
    ⟨⟨.initial c, fun _ hs => absurd hs List.not_mem_nil⟩, .of_empty rfl hc⟩
  obtain ⟨m', hleads, hcloses⟩ := (Law.orderly lim c.sink.limit).run
    (hread.isWellFormedHere p List.mem_cons_self) hinv
  rw [hcloses.silent.2]
  exact hleads.inv.2

/-! ### Runs with a limited sink -/

namespace Sink.IsOrderly

variable {s : Sink} {n : Nat} {lines : List (List Char)}

/-- A sink holds no more lines than it takes. -/
theorem length_le (h : s.IsOrderly (some n)) (hlines : ∀ line ∈ lines, '\n' ∉ line)
    (hwritten : s.written.toList = linesText lines) : lines.length ≤ n := by
  have hcount := h.bounded n rfl
  rwa [Sink.lines, hwritten, count_linesText hlines] at hcount

/-- If more lines follow on what a full sink holds, it holds the first ones. -/
theorem take_of_isFull (h : s.IsOrderly (some n)) (hfull : s.isFull)
    (hlines : ∀ line ∈ lines, '\n' ∉ line)
    {rest : List Char} (hrest : linesText lines = s.written.toList ++ rest) (hfeed : '\n' ∈ rest) :
    n < lines.length ∧ s.written.toList = linesText (lines.take n) := by
  obtain ⟨first, hfirst, hwritten⟩ := h.lines
  have hlength : first.length = n := by
    refine Nat.le_antisymm (h.length_le hfirst hwritten) ?_
    rw [Sink.isFull, h.limit_eq] at hfull
    rw [← count_linesText hfirst, ← hwritten]
    exact of_decide_eq_true hfull
  rw [hwritten] at hrest
  obtain ⟨more, rfl, rfl⟩ := exists_of_linesText_eq_append hlines hfirst hrest
  have hsome : more ≠ [] := by
    rintro rfl
    cases hfeed
  constructor
  · rw [List.length_append, hlength]
    exact Nat.lt_add_of_pos_right (List.length_pos_iff.mpr hsome)
  · rw [← hlength, List.take_left, hwritten]

end Sink.IsOrderly

/-- **A sink that fills up cuts the output off.** Let the run of a program that was read end with a
sink that takes every line, and let `lines` be the lines of its output. With a sink that refuses to
write once it has taken `n` lines, the run ends too, and its output is the first `n` of these lines,
or all of them if there are less. If there are at most `n` lines, the runs end alike, on machines
that differ in the limit of the sink only. If there are more, the run ends with the fault of the
sink, and no scope is left. -/
theorem Machine.run_truncated {source : List Char} {p : Program}
    (hparse : Program.parse source = .ok p)
    (lim : Limits) {c : Console} (hc : c.sink.written = "") (n : Nat) {r : Ending × Machine}
    (h : ({ console := c.withLimit none } : Machine).EndsIn lim p r) :
    ∃ lines : List (List Char), (∀ line ∈ lines, '\n' ∉ line) ∧
      r.2.console.sink.written.toList = linesText lines ∧
      ∃ r', ({ console := c.withLimit (some n) } : Machine).EndsIn lim p r' ∧
        r'.2.console.sink.written.toList = linesText (lines.take n) ∧
        (lines.length ≤ n →
          r' = (r.1, { r.2 with console := r.2.console.withLimit (some n) })) ∧
        (n < lines.length → r'.1 = .failed (.io .writeRefused) ∧ r'.2.scopes.scopes = []) := by
  obtain ⟨hended, k, hk⟩ := h
  -- both runs with the same patience
  let limited : Machine := { console := c.withLimit (some n) }
  let r' := limited.run { lim with patience := k } p
  have hr : ({ console := c.withLimit none } : Machine).run { lim with patience := k } p = r :=
    hk k (Nat.le_refl k)
  have hends : r'.1 ≠ .unfinished → limited.EndsIn lim p r' := endsIn_of_run
  have horderly : r.2.console.sink.IsOrderly none :=
    hr ▸ isOrderly_run (c := c.withLimit none) hparse _ hc
  have horderly' : r'.2.console.sink.IsOrderly (some n) :=
    isOrderly_run (c := c.withLimit (some n)) hparse _ hc
  obtain ⟨lines, hlines, hwritten⟩ := horderly.lines
  have hruns := limited.run_of_unlimited { lim with patience := k } p
  rw [show { limited with console := limited.console.withLimit none } =
    ({ console := c.withLimit none } : Machine) from rfl, hr] at hruns
  refine ⟨lines, hlines, hwritten, r', ?_⟩
  rcases hruns with heq | ⟨hending, hscopes, hfull, rest, hrest, hfeed⟩
  · have hending : r'.1 = r.1 := (congrArg Prod.fst heq).symm
    have hmachine : r'.2 = { r.2 with console := r.2.console.withLimit (some n) } := by
      rw [heq, ← horderly'.limit_eq]
      rfl
    have hwritten' : r'.2.console.sink.written.toList = linesText lines := by
      rw [hmachine]
      exact hwritten
    have hshort : lines.length ≤ n := horderly'.length_le hlines hwritten'
    refine ⟨hends (hending ▸ hended), ?_, fun _ => Prod.ext hending hmachine,
      fun hlong => absurd hlong (by omega)⟩
    rw [List.take_of_length_le hshort]
    exact hwritten'
  · have hmore : linesText lines = r'.2.console.sink.written.toList ++ rest.toList := by
      rw [← hwritten, hrest, String.toList_append]
    obtain ⟨hlong, htake⟩ := horderly'.take_of_isFull hfull hlines hmore hfeed
    exact ⟨hends (hending ▸ Ending.noConfusion), htake, fun hshort => absurd hshort (by omega),
      fun _ => ⟨hending, hscopes⟩⟩

/-- The loop `for (x in list(7, 8, 9)) print(x)` fails in its third round if the sink takes two
lines. -/
theorem Machine.run_truncated_loop :
    ∃ p : Program, Program.parse "for (x in list(7, 8, 9)) print(x)".toList = .ok p ∧
      ∃ r, ({ console := Console.withLimit none {} } : Machine).EndsIn {} p r ∧
        r.2.console.sink.written = "7\n8\n9\n" ∧
        ∃ lines, r.2.console.sink.written.toList = linesText lines ∧ lines.length = 3 ∧
          ∃ r', ({ console := Console.withLimit (some 2) {} } : Machine).EndsIn {} p r' ∧
            r'.2.console.sink.written.toList = linesText (lines.take 2) ∧
            r'.1 = .failed (.io .writeRefused) ∧ r'.2.scopes.scopes = [] := by
  let p : Program := [.forIn ⟨0, 33⟩ "x" (.list ⟨10, 23⟩ [.int 7, .int 8, .int 9])
    (.print ⟨25, 33⟩ (.var ⟨31, 32⟩ "x"))]
  have hparse : Program.parse "for (x in list(7, 8, 9)) print(x)".toList = .ok p := rfl
  have hends : ({ console := Console.withLimit none {} } : Machine).EndsIn {} p _ :=
    endsIn_of_run (by decide +kernel)
  have hwritten :
      (({ console := Console.withLimit none {} } : Machine).run {} p).2.console.sink.written =
      "7\n8\n9\n" := by decide +kernel
  have hempty : ({} : Console).sink.written = "" := rfl
  obtain ⟨lines, hlines, htext, r', hends', htake, -, hlong⟩ :=
    run_truncated hparse {} hempty 2 hends
  have hlength : lines.length = 3 := by
    rw [← count_linesText hlines, ← htext, hwritten]
    rfl
  obtain ⟨hending, hscopes⟩ := hlong (by omega)
  exact ⟨p, hparse, _, hends, hwritten, lines, htext, hlength, r', hends', htake, hending, hscopes⟩

end ScopeScript
