import ScopeScript.Proofs.Assembly
import ScopeScript.Proofs.Discipline

/-!
# Evaluation goes onward

Some things are never taken back, whatever a program does: what was written stays written, what was
logged stays logged, and a list stays, with the length that it has. `Machine.Continues m m'` says so
of a machine `m` and a machine `m'` at any later time, in the same scopes or not.

`Eval.Onward x` is a fact about an action by itself, whatever the machine: it continues every
machine, and leaves as many scopes as there were. It is shown for the actions that evaluate nothing,
and for an action that is put together of others if it is a fact about these; so it is one about
every construct (`Eval.Onward.of_built`). That of all expressions follows by induction on the room
(`Eval.Onward.within`).
-/

namespace ScopeScript

namespace Machine

/-- The second machine has all that the first one has written and logged, and all its lists, with
their lengths. -/
structure Continues (m m' : Machine) : Prop where
  output : ∃ rest, m'.console.sink.written = m.console.sink.written ++ rest
  lists : ∀ id < m.heap.lists.size,
    id < m'.heap.lists.size ∧ (m'.heap.items id).length = (m.heap.items id).length
  log : m.log <:+ m'.log

namespace Continues

variable {a b c m m' : Machine}

theorem of_eq (hheap : m'.heap.lists = m.heap.lists) (hconsole : m'.console = m.console)
    (hlog : m.log <:+ m'.log) : m.Continues m' where
  output := ⟨"", by rw [hconsole, String.append_empty]⟩
  lists id hid := by
    rw [Heap.items, Heap.items, hheap]
    exact ⟨hid, rfl⟩
  log := hlog

theorem refl (m : Machine) : m.Continues m := of_eq rfl rfl List.suffix_rfl

theorem trans (hab : a.Continues b) (hbc : b.Continues c) : a.Continues c where
  output := by
    obtain ⟨x, hx⟩ := hab.output
    obtain ⟨y, hy⟩ := hbc.output
    exact ⟨x ++ y, by rw [hy, hx, String.append_assoc]⟩
  lists id hid := by
    obtain ⟨hid', hlen⟩ := hab.lists id hid
    obtain ⟨hid'', hlen'⟩ := hbc.lists id hid'
    exact ⟨hid'', hlen'.trans hlen⟩
  log := hab.log.trans hbc.log

end Continues

/-- An action leads from the first machine to the second: it continues, and no scope was opened or
closed for good. -/
structure Onward (m m' : Machine) : Prop where
  continues : m.Continues m'
  depth : m'.scopes.depth = m.scopes.depth

theorem Onward.refl (m : Machine) : m.Onward m := ⟨.refl m, rfl⟩

theorem Onward.trans {a b c : Machine} (hab : a.Onward b) (hbc : b.Onward c) : a.Onward c :=
  ⟨hab.continues.trans hbc.continues, hbc.depth.trans hab.depth⟩

end Machine

/-! ### The console -/

namespace Console

theorem write_written {text : String} {c c' : Console} {r : EStateM.Result IoFault Console Unit}
    (hr : r = write text c) (hc : r = .ok () c' ∨ ∃ fault, r = .error fault c') :
    ∃ rest, c'.sink.written = c.sink.written ++ rest := by
  subst hr
  unfold write at hc
  split at hc
  · rcases hc with hc | ⟨fault, hc⟩
    · cases hc
    · cases hc
      exact ⟨"", String.append_empty.symm⟩
  · rcases hc with hc | ⟨fault, hc⟩
    · cases hc
      exact ⟨text, rfl⟩
    · cases hc

theorem printLine_written {text : String} {c c' : Console}
    (hc : printLine text c = .ok () c' ∨ ∃ fault, printLine text c = .error fault c') :
    ∃ rest, c'.sink.written = c.sink.written ++ rest := by
  unfold printLine at hc
  split at hc
  · cases htext : write text c with
    | ok u c₁ =>
      obtain ⟨x, hx⟩ := write_written htext.symm (.inl rfl)
      have hend : write "\n" c₁ = .ok () c' ∨ ∃ fault, write "\n" c₁ = .error fault c' := by
        simpa only [bind, EStateM.bind, htext] using hc
      obtain ⟨y, hy⟩ := write_written rfl hend
      exact ⟨x ++ y, by rw [hy, hx, String.append_assoc]⟩
    | error fault c₁ =>
      simp only [bind, EStateM.bind, htext, reduceCtorEq, false_or,
        EStateM.Result.error.injEq] at hc
      obtain ⟨-, -, rfl⟩ := hc
      exact write_written htext.symm (.inr ⟨fault, rfl⟩)
  · exact write_written rfl hc

theorem readLine_sink {c c' : Console}
    (hc : (∃ line, readLine c = .ok line c') ∨ ∃ fault, readLine c = .error fault c') :
    c'.sink = c.sink := by
  unfold readLine at hc
  split at hc
  · rcases hc with ⟨line, hc⟩ | ⟨fault, hc⟩
    · cases hc
      rfl
    · cases hc
  · dsimp only at hc
    split at hc
    · rcases hc with ⟨line, hc⟩ | ⟨fault, hc⟩
      · cases hc
        rfl
      · cases hc
    · rcases hc with ⟨line, hc⟩ | ⟨fault, hc⟩
      · cases hc
      · cases hc
        rfl

end Console

/-! ### Actions -/

namespace Machine

theorem Onward.of_eq {m m' : Machine} (hlists : m'.heap.lists = m.heap.lists)
    (hconsole : m'.console = m.console) (hdepth : m'.scopes.depth = m.scopes.depth)
    (hlog : m.log <:+ m'.log) : m.Onward m' :=
  ⟨.of_eq hlists hconsole hlog, hdepth⟩

theorem depth_declare (m : Machine) (e : Entry) : (m.declare e).scopes.depth = m.scopes.depth := by
  unfold declare ScopeStack.add? ScopeStack.depth
  cases hs : m.scopes.scopes with
  | nil => simp only [hs]
  | cons s outer =>
    cases hfind : s.find? e.name with
    | none => simp only [hfind, note, List.length_cons]
    | some old => simp only [hfind, hs]

theorem onward_declare (m : Machine) (e : Entry) : m.Onward (m.declare e) := by
  refine .of_eq ?_ ?_ (m.depth_declare e) ?_
  · unfold declare
    cases m.scopes.add? e <;> rfl
  · unfold declare
    cases m.scopes.add? e <;> rfl
  · unfold declare
    cases m.scopes.add? e with
    | none => exact List.suffix_rfl
    | some stack => exact List.suffix_cons _ _

theorem onward_forget (m : Machine) (name : String) : m.Onward (m.forget name) := by
  refine .of_eq rfl rfl ?_ List.suffix_rfl
  unfold forget ScopeStack.remove ScopeStack.depth
  cases hs : m.scopes.scopes <;> simp only [hs, List.length_cons]

end Machine

/-- Storing an element adds no list and takes none away. -/
theorem Heap.size_lists_setItem? {h h' : Heap} {id : ListId} {k : Int64} {v : Value}
    (hset : h.setItem? id k v = some h') : h'.lists.size = h.lists.size := by
  unfold setItem? at hset
  split at hset
  · split at hset
    · cases hset
      exact Array.size_modify
    · cases hset
  · cases hset

namespace Eval

variable {α β : Type}

section

variable (e : Expr) {m : Machine} {id : ListId} {index v : Value}

/-- Where there is no such element, storing fails and leaves the machine as it was. -/
theorem store_of_none (h : index.toInt?.bind (m.heap.setItem? id · v) = none) :
    ∃ kind, store e id index v m = fail e kind m := by
  unfold store
  cases hk : index.toInt? with
  | none => exact ⟨.mustBeInteger, rfl⟩
  | some k =>
    rw [hk, Option.bind_some] at h
    dsimp only
    rw [get_bind, h]
    exact ⟨.subOutOfBounds, rfl⟩

/-- Where there is one, it is replaced, and the list is printed. -/
theorem store_of_some {k : Int64} {heap : Heap} (hk : index.toInt? = some k)
    (hset : m.heap.setItem? id k v = some heap) :
    store e id index v m = (do printValue (.list id); return .list id : Eval Value)
      ({ m with heap }.note (.stored id k v)) := by
  unfold store
  rw [hk]
  dsimp only
  rw [get_bind, hset]
  rfl

end

/-- The action continues every machine and leaves as many scopes as there were. -/
def Onward (x : Eval α) : Prop :=
  ∀ m : Machine, m.Onward (x.after m)

namespace Onward

variable {x : Eval α} {f : α → Eval β}

theorem of_ok (hx : Onward x) {m m' : Machine} {a : α} (h : x m = .ok a m') : m.Onward m' := by
  have hm := hx m
  rwa [after_of_ok h] at hm

theorem of_error (hx : Onward x) {m m' : Machine} {stop : Stop} (h : x m = .error stop m') :
    m.Onward m' := by
  have hm := hx m
  rwa [after_of_error h] at hm

theorem pure (a : α) : Onward (Pure.pure a : Eval α) := fun m => .refl m

theorem throw (stop : Stop) : Onward (fun m => .error stop m : Eval α) := fun m => .refl m

/-- What comes after an action goes onward from what the action has left. -/
theorem after_bind (x : Eval α) (hf : ∀ a, Onward (f a)) (m : Machine) :
    (x.after m).Onward ((x >>= f).after m) := by
  cases h : x m with
  | ok a m' =>
    have hafter : (x >>= f).after m = (f a).after m' := by simp only [after, bind_of_ok h]
    rw [hafter, after_of_ok h]
    exact hf a m'
  | error stop m' =>
    rw [after_of_error (bind_of_error h), after_of_error h]
    exact .refl m'

theorem bind (hx : Onward x) (hf : ∀ a, Onward (f a)) : Onward (x >>= f) :=
  fun m => (hx m).trans (after_bind x hf m)

theorem get_bind {f : Machine → Eval α} (hf : ∀ m, Onward (f m)) : Onward (get >>= f) :=
  fun m => hf m m

theorem failWith (e : Expr) (error : SemanticError) : Onward (failWith e error : Eval α) :=
  .throw _

theorem check (e : Expr) (c : Checked α) : Onward (check e c) := by
  cases c with
  | ok a => exact .pure a
  | error error => exact .failWith e error

theorem note (ev : Event) : Onward (note ev) := fun _ => .of_eq rfl rfl rfl (List.suffix_cons _ _)

theorem rejectFunction (e : Expr) (arg : Nat) (v : Value) : Onward (rejectFunction e arg v) := by
  cases v with
  | function => exact .failWith e _
  | _ => exact .pure _

theorem printLine (text : String) : Onward (onConsole (Console.printLine text)) := by
  intro m
  have hwritten := @Console.printLine_written text m.console
  unfold after onConsole
  cases h : Console.printLine text m.console with
  | ok u c => exact ⟨⟨hwritten (.inl h), fun id hid => ⟨hid, rfl⟩, List.suffix_rfl⟩, rfl⟩
  | error fault c =>
    exact ⟨⟨hwritten (.inr ⟨fault, h⟩), fun id hid => ⟨hid, rfl⟩, List.suffix_rfl⟩, rfl⟩

theorem printValue (v : Value) : Onward (printValue v) :=
  .get_bind fun m => (printLine (String.ofList (m.heap.text v))).bind fun _ => .note _

theorem readLine : Onward (onConsole Console.readLine) := by
  intro m
  have hsink := @Console.readLine_sink m.console
  unfold after onConsole
  cases h : Console.readLine m.console with
  | ok line c =>
    refine ⟨⟨⟨"", ?_⟩, fun id hid => ⟨hid, rfl⟩, List.suffix_rfl⟩, rfl⟩
    rw [String.append_empty, ← hsink (.inl ⟨line, h⟩)]
  | error fault c =>
    refine ⟨⟨⟨"", ?_⟩, fun id hid => ⟨hid, rfl⟩, List.suffix_rfl⟩, rfl⟩
    rw [String.append_empty, ← hsink (.inr ⟨fault, h⟩)]

/-! ### Binding -/

variable {recur : Recur}

theorem rebind (e : Expr) (name : String) (v : Value) : Onward (rebind e name v) := by
  intro m
  unfold after Eval.rebind
  dsimp only
  split
  · rename_i h
    split at h
    · cases h
    · split at h
      · rename_i hchange
        cases h
        obtain ⟨s, outer, hs, rfl⟩ := ScopeStack.exists_of_change_eq_ok hchange
        refine .of_eq rfl rfl ?_ (List.suffix_cons _ _)
        simp only [Machine.note, ScopeStack.depth, hs, List.length_cons]
      · cases h
  · rename_i h
    split at h
    · cases h
      exact .refl m
    · split at h
      · cases h
      · cases h
        exact .refl m

theorem declaring (name : String) {action : Eval Value} (haction : Onward action) :
    Onward (declaring name action) := by
  intro m
  have hdeclare := (m.onward_declare (.placeholder name)).trans
    (haction (m.declare (.placeholder name)))
  unfold after Eval.declaring
  cases m.scopes.find? name with
  | some old => exact haction m
  | none =>
    dsimp only
    cases h : action (m.declare (.placeholder name)) with
    | ok v m' =>
      rw [after_of_ok h] at hdeclare
      exact hdeclare
    | error stop m' =>
      rw [after_of_error h] at hdeclare
      cases stop with
      | brk | nxt => exact hdeclare.trans (m'.onward_forget name)
      | quit | error | unfinished => exact hdeclare

theorem store (e : Expr) (id : ListId) (index v : Value) : Onward (store e id index v) := by
  intro m
  cases hset : index.toInt?.bind (m.heap.setItem? id · v) with
  | none =>
    obtain ⟨kind, heq⟩ := store_of_none e hset
    unfold after
    rw [heq]
    exact .refl m
  | some heap =>
    obtain ⟨k, hk, hset⟩ := Option.bind_eq_some_iff.mp hset
    have hstored : m.Onward ({ m with heap }.note (.stored id k v)) := by
      refine ⟨⟨⟨"", String.append_empty.symm⟩, fun other hother => ⟨?_, ?_⟩, List.suffix_cons _ _⟩,
        rfl⟩
      · exact (Heap.size_lists_setItem? hset).symm ▸ hother
      · exact Heap.length_items_setItem? _ _ id other k v hset
    have hprint := (printValue (.list id)).bind fun _ => Onward.pure (Value.list id)
    unfold after
    rw [store_of_some e hk hset]
    exact hstored.trans (hprint _)

/-! ### Loops -/

theorem round {body : Eval Value} (hbody : Onward body) (result : Value) {next : Value → Eval Value}
    (hnext : ∀ v, Onward (next v)) : Onward (round body result next) := by
  intro m
  unfold after Eval.round
  cases h : body m with
  | ok v m' => exact (hbody.of_ok h).trans (hnext v m')
  | error stop m' =>
    cases stop with
    | nxt => exact (hbody.of_error h).trans (hnext result m')
    | brk | quit | error | unfinished => exact hbody.of_error h

theorem declareLoopVar (e : Expr) (name : String) : Onward (declareLoopVar e name) := by
  intro m
  unfold after Eval.declareLoopVar
  cases m.scopes.find? name with
  | none => exact m.onward_declare _
  | some entry =>
    dsimp only
    by_cases hkind : entry.info.kind = .ofFunction ∨ entry.info.kind = .nothing ∨
        entry.info.kind = .ofList
    · rw [if_pos hkind]
      exact .refl m
    · rw [if_neg hkind]
      exact .refl m

/-! ### Functions -/

theorem evalFunction (e : Expr) (params : List String) (body : Expr) :
    Onward (evalFunction e params body) := by
  intro m
  obtain ⟨events, -, ⟨-, heq⟩ | heq⟩ := evalFunction_cases e params body m
  · rw [after_of_ok heq]
    exact .of_eq rfl rfl rfl (List.suffix_append _ _)
  · rw [after_of_error heq]
    exact .of_eq rfl rfl rfl (List.suffix_append _ _)

end Onward

/-- Leaving a call closes one scope and puts back those that were set aside, whatever they are.
Lists and console stay as they are, and so does the log but for the mark of the scope. -/
theorem after_leaveCall (e : Expr) (hidden : List Scope) (ended : Except Stop Value) {m : Machine}
    (h : m.scopes.depth ≠ 0) :
    let m' := (leaveCall e hidden ended).after m
    m'.heap = m.heap ∧ m'.console = m.console ∧ m.log <:+ m'.log ∧
      m'.scopes.depth = hidden.length + (m.scopes.depth - 1) := by
  obtain ⟨s, outer, hs⟩ := List.exists_cons_of_length_pos (Nat.pos_of_ne_zero h)
  have hleft : (leaveCall e hidden ended).after m =
      (m.withScopes outer [.exiting outer.length]).reattach hidden := by
    unfold after
    cases ended with
    | ok v => simp only [leaveCall, m.closeScope?_cons hs]
    | error stop => cases stop <;> simp only [leaveCall, m.closeScope?_cons hs]
  rw [hleft]
  refine ⟨rfl, rfl, List.suffix_cons _ _, ?_⟩
  rw [ScopeStack.depth, ScopeStack.depth, hs]
  exact List.length_append

/-- A stop that is not meant for a loop goes through a call. -/
theorem leaveCall_of_stop (e : Expr) (hidden : List Scope) {stop : Stop} {m : Machine}
    (h : m.scopes.depth ≠ 0) (hbrk : stop ≠ .brk) (hnxt : stop ≠ .nxt) :
    leaveCall e hidden (.error stop) m =
      .error stop ((leaveCall e hidden (.error stop)).after m) := by
  obtain ⟨s, outer, hs⟩ := List.exists_cons_of_length_pos (Nat.pos_of_ne_zero h)
  unfold after
  cases stop with
  | brk => exact absurd rfl hbrk
  | nxt => exact absurd rfl hnxt
  | quit | error | unfinished => simp only [leaveCall, m.closeScope?_cons hs]

/-- A body begins with the same lists and console, on a scope of its own above those that were not
set aside. -/
theorem continues_enter (m : Machine) (id : FunctionId) (f : Function) (args : List Int64) :
    m.Continues (enter m id f args).2 ∧ (enter m id f args).2.scopes.depth ≠ 0 ∧
      (enter m id f args).1.length + ((enter m id f args).2.scopes.depth - 1) = m.scopes.depth := by
  obtain ⟨s, events, -, -, -, henter⟩ := enter_eq m id f args
  have hall : (m.scopes.detach f.scopeDepth).1 ++ m.visible f = m.scopes.scopes :=
    List.take_append_drop _ _
  rw [henter]
  refine ⟨.of_eq rfl rfl ⟨_ :: events, rfl⟩, Nat.succ_ne_zero _, ?_⟩
  show _ = m.scopes.scopes.length
  rw [← hall, List.length_append]
  rfl

namespace Onward

variable {recur : Recur}

/-- What a call leaves continues what its body has left, with the scopes of the caller. -/
theorem after_invoke (hrec : ∀ e, Onward (recur e)) (e : Expr) (id : FunctionId) (f : Function)
    (args : List Int64) (m : Machine) :
    ((recur f.body).after (enter m id f args).2).Continues ((invoke recur e id f args).after m) ∧
      ((invoke recur e id f args).after m).scopes.depth = m.scopes.depth := by
  obtain ⟨-, hopen, hdepth⟩ := continues_enter m id f args
  have hbody := hrec f.body (enter m id f args).2
  obtain ⟨ended, heq⟩ : ∃ ended, (invoke recur e id f args).after m =
      (leaveCall e (enter m id f args).1 ended).after
        ((recur f.body).after (enter m id f args).2) := by
    unfold after Eval.invoke
    dsimp only
    cases recur f.body (enter m id f args).2 with
    | ok v m' => exact ⟨.ok v, rfl⟩
    | error stop m' => exact ⟨.error stop, rfl⟩
  rw [← hbody.depth] at hopen hdepth
  obtain ⟨hheap, hconsole, hlog, hscopes⟩ := after_leaveCall e (enter m id f args).1 ended hopen
  rw [heq]
  exact ⟨.of_eq (by rw [hheap]) hconsole hlog, hscopes.trans hdepth⟩

theorem invoke (hrec : ∀ e, Onward (recur e)) (e : Expr) (id : FunctionId) (f : Function)
    (args : List Int64) : Onward (invoke recur e id f args) := by
  intro m
  obtain ⟨hleft, hdepth⟩ := after_invoke hrec e id f args m
  have hbody := hrec f.body (enter m id f args).2
  exact ⟨((continues_enter m id f args).1.trans hbody.continues).trans hleft, hdepth⟩

theorem noteReturn (id : FunctionId) (v : Value) : Onward (noteReturn id v) :=
  fun _ => .of_eq rfl rfl rfl (List.suffix_cons _ _)

theorem apply (hrec : ∀ e, Onward (recur e)) (e : Expr) (name : String) (id : FunctionId)
    (f : Function) (args : List Int64) : Onward (apply recur e name id f args) := by
  unfold Eval.apply
  split
  · exact .failWith e _
  · split
    · exact .failWith e _
    · refine (note _).bind fun _ => (invoke hrec e id f args).bind fun v => ?_
      exact (rejectFunction e 2 v).bind fun w => (noteReturn id w).bind fun _ => .pure w

/-! ### Lists, input and output -/

theorem evalList (items : List Literal) : Onward (evalList items) := by
  intro m
  refine ⟨⟨⟨"", String.append_empty.symm⟩, fun id hid => ⟨?_, ?_⟩, List.suffix_rfl⟩, rfl⟩
  · show id < (m.heap.lists.push (items.map .ofLiteral)).size
    rw [Array.size_push]
    omega
  · exact congrArg _ (Heap.items_newList_of_ne m.heap _ (Nat.ne_of_lt hid))

theorem evalRead : Onward evalRead :=
  readLine.bind fun line => (note (.consumed line)).bind fun _ => .pure _

/-! ### Expressions -/

/-- **What is put together of actions that go onward goes onward.** -/
theorem of_built {u : Means} {x : Recur → Eval α} (hbuilt : Built u x)
    (hrec : ∀ e, Onward (recur e)) :
    Onward (x recur) := by
  induction hbuilt with
  | pure a => exact .pure a
  | @stop _ stop => exact .throw stop
  | ask => exact hrec _
  | bind _ _ ihy ihf => exact ihy.bind ihf
  | get_bind _ ih => exact .get_bind ih
  | declaring _ name _ ih => exact .declaring name ih
  | round _ result _ ih => exact .round (hrec _) result ih
  | rebind e name v => exact .rebind e name v
  | declareLoopVar _ e name => exact .declareLoopVar e name
  | printValue _ v => exact .printValue v
  | store _ e id index v => exact .store e id index v
  | evalFunction e params body => exact .evalFunction e params body
  | evalList items => exact .evalList items
  | evalRead => exact .evalRead
  | apply _ e name id f args => exact .apply hrec e name id f args

theorem callWith (hrec : ∀ e, Onward (recur e)) (e : Expr) (name : String) (ns : List Int64) :
    Onward (callWith recur e name ns) := by
  have hbuilt : Built .full (Eval.callWith · e name ns) := .callWith trivial e name ns
  exact .of_built hbuilt hrec

theorem counted (e : Expr) {action : Eval Value} (h : Onward action) :
    Onward (counted e action) := by
  intro m
  have hbegin : m.Onward (m.begin e) := .of_eq rfl rfl rfl (List.suffix_cons _ _)
  unfold after Eval.counted
  cases hr : action (m.begin e) with
  | ok v m' => exact hbegin.trans ((h.of_ok hr).trans (.of_eq rfl rfl rfl (List.suffix_cons _ _)))
  | error stop m' =>
    exact hbegin.trans ((h.of_error hr).trans (.of_eq rfl rfl rfl (List.suffix_cons _ _)))

/-- **Evaluation goes onward**, whatever room it is given. -/
theorem within (lim : Limits) (room : Nat) (e : Expr) : Onward (within lim room e) := by
  induction room generalizing e with
  | zero => exact fun m => .refl m
  | succ room ih => exact .counted e (.of_built (.node lim e) ih)

theorem expr (lim : Limits) (e : Expr) : Onward (expr lim e) :=
  fun m => Onward.within lim (lim.maxDepth - m.depth) e m

end Onward

end Eval

end ScopeScript
