import ScopeScript.Proofs.Sound

/-!
# Sound sessions

The programs of a session are texts that were read. Whatever they do, what the machine keeps fits
together at every moment: before and after the evaluation of every expression, in the open scopes
and in those that are set aside, and between the programs (`Session.Reaches.isSound`).

Main statement: `Session.isSound_and_binds`. It adds what follows for calls. The number of arguments
was compared with a number that is kept beside the parameters, and binding a parameter does nothing
if the name is taken; since functions are sound, the body of a function still finds each parameter
bound to its argument, and nothing else in its scope.
-/

namespace ScopeScript

open Eval

/-- The law holds where the body of a function begins, with the scopes set aside that the call
hides. -/
theorem Machine.IsSound.enter_body {lim : Limits} {aside : List Scope} {m : Machine} {name : String}
    {id : FunctionId}
    {f : Function} {args : List Int64} (hm : m.IsSound aside) (hcall : Calls m name id f args) :
    (Law.sound lim ((Eval.enter m id f args).1 ++ aside)).Inv (Eval.enter m id f args).2 ∧
      (Law.sound lim ((Eval.enter m id f args).1 ++ aside)).Admits f.body := by
  refine ⟨hm.enter hcall _ ?_, (hm.function hcall).shaped⟩
  obtain ⟨scope, events, -, -, -, henter⟩ := enter_eq m id f args
  rw [henter]
  exact (List.take_prefix _ _).subset

/-- What comes up in the course of a sound evaluation is sound. -/
theorem Moment.Part.obeys_sound {lim : Limits} {t t' : Moment} (h : t.Part lim t')
    (ht : t.Obeys (Law.sound lim)) :
    t'.Obeys (Law.sound lim) :=
  h.obeys (fun hm hcall => hm.enter_body hcall) ht

namespace Session

/-- Every program of the session was read from a text. -/
def IsRead (s : Session) : Prop :=
  ∀ p ∈ s.programs, ∃ source, Program.parse source = .ok p

variable {s : Session} {t : Moment}

theorem IsRead.isShaped (h : s.IsRead) : ∀ p ∈ s.programs, ∀ e ∈ p, e.Everywhere Expr.IsShaped := by
  intro p hp
  obtain ⟨source, hparse⟩ := h p hp
  exact Program.isShaped_of_parse hparse

theorem Pauses.isSound {m : Machine} (h : s.Pauses m) (hread : s.IsRead) : m.IsSound [] := by
  refine h.law (L := .sound s.limits []) hread.isShaped (.initial s.console) ?_ ?_
  · intro m events c hm
    exact ⟨hm.heap, fun _ hs => absurd hs List.not_mem_nil⟩
  · intro m c hm
    exact ⟨hm.heap, hm.scope⟩

theorem Visits.obeys_sound (h : s.Visits t) (hread : s.IsRead) : t.Obeys (Law.sound s.limits) :=
  h.obeys hread.isShaped (fun _ hm => hm.isSound hread) fun hm hcall => hm.enter_body hcall

/-- **Every machine of the session is sound.** -/
theorem Reaches.isSound {aside : List Scope} {m : Machine} (h : s.Reaches aside m)
    (hread : s.IsRead) :
    m.IsSound aside := by
  cases h with
  | pause h => exact h.isSound hread
  | begins h => exact (h.obeys_sound hread).inv
  | ends h => exact (h.obeys_sound hread).inv_after

/-- **What a machine keeps fits together at every moment of a session of programs that were read.**
Between the programs, and where the evaluation of an expression begins or ends, the machine is
sound. Every call whose arguments are evaluated, and for which a function with that number of
parameters is found, begins the body of the function with a new scope, which binds the `i`-th
parameter to the `i`-th argument for each `i`, and nothing else. -/
theorem isSound_and_binds (s : Session) (hread : s.IsRead) :
    (∀ aside m, s.Reaches aside m → m.IsSound aside) ∧
      ∀ room aside span name args m ns m₁ id f,
        s.Visits ⟨room + 1, aside, .call span name args, m⟩ →
        evalArgs (within s.limits room) (.call span name args) args
          (m.begin (.call span name args)) = .ok ns m₁ →
        Calls m₁ name id f ns →
        ∃ hidden inner scope, s.Visits ⟨room, hidden ++ aside, f.body, inner⟩ ∧
          hidden ++ m₁.visible f = m₁.scopes.scopes ∧
          inner.scopes.scopes = scope :: m₁.visible f ∧
          (∀ other ∈ m₁.scopes.scopes ++ aside, other.id ≠ scope.id) ∧
          scope.entries.length = f.params.length ∧
          ∀ e, e ∈ scope.entries ↔ ∃ (i : Nat) (p : String) (n : Int64),
            f.params[i]? = some p ∧ ns[i]? = some n ∧ e = ⟨p, .param, some (.int n)⟩ := by
  refine ⟨fun aside m hm => hm.isSound hread, ?_⟩
  intro room aside span name args m ns m₁ id f hvisits hargs hcall
  have hsound : m₁.IsSound aside := ((hvisits.obeys_sound hread).args hargs).inv
  have hf : f.IsSound := hsound.function hcall
  refine ⟨_, _, ⟨m₁.scopes.fresh, (arguments f.params ns).reverse⟩,
    .part hvisits (.body hargs hcall), ?_, ?_, ?_, ?_, fun e => ?_⟩
  · obtain ⟨scope, events, -, -, -, henter⟩ := enter_eq (m₁.note (.calling name ns.length)) id f ns
    rw [henter]
    exact List.take_append_drop _ _
  · rw [enter_scopes _ id ns hf.params]
    rfl
  · exact fun other hother => Nat.ne_of_lt (hsound.scope other hother).id
  · have hlen : ns.length = f.params.length := hcall.arity.trans hf.numParams
    rw [List.length_reverse, arguments, List.length_zipWith, hlen, Nat.min_self]
  · exact List.mem_reverse.trans mem_arguments_iff

/-- The function `function(a) { a }`, defined in the global scope. -/
def identity : Function where
  params := ["a"]
  body := .block ⟨17, 22⟩ [.var ⟨19, 20⟩ "a"]
  numParams := 1
  scopeDepth := 1
  home := [0]

/-- The function `function(b) { f(b) }`, defined in the global scope. -/
def caller : Function where
  params := ["b"]
  body := .block ⟨41, 49⟩ [.call ⟨43, 47⟩ "f" [.var ⟨45, 46⟩ "b"]]
  numParams := 1
  scopeDepth := 1
  home := [0]

/-- The program `f <- function(a) { a }; g <- function(b) { f(b) }; g(7)`. -/
def nested : Program :=
  [.assign ⟨0, 22⟩ "f" (.function ⟨5, 22⟩ identity.params identity.body),
    .assign ⟨24, 49⟩ "g" (.function ⟨29, 49⟩ caller.params caller.body),
    .call ⟨51, 55⟩ "g" [.literal ⟨53, 54⟩ (.int 7)]]

theorem isRead_nested : IsRead ⟨{}, {}, [nested]⟩ := by
  intro p hp
  obtain rfl := List.mem_singleton.mp hp
  exact ⟨"f <- function(a) { a }; g <- function(b) { f(b) }; g(7)".toList, rfl⟩

/-- In the program `nested`, the body of the one function begins with nothing but `a` bound to 7,
while the scope of the other function is set aside. -/
theorem isSound_and_binds_nested :
    ∃ (m : Machine) (inner outer : Scope) (rest : List Scope),
      IsRead ⟨{}, {}, [nested]⟩ ∧ Visits ⟨{}, {}, [nested]⟩ ⟨997, [outer], identity.body, m⟩ ∧
        m.scopes.scopes = inner :: rest ∧ m.IsSound [outer] ∧
        inner.entries.length = 1 ∧ ⟨"a", .param, some (.int 7)⟩ ∈ inner.entries ∧
        outer.entries = [⟨"b", .param, some (.int 7)⟩] := by
  let s : Session := ⟨{}, {}, [nested]⟩
  let globals : Scope := ⟨0, [⟨"g", .function 1 none, some (.function 1)⟩,
    ⟨"f", .function 1 none, some (.function 0)⟩]⟩
  let outer : Scope := ⟨3, [⟨"b", .param, some (.int 7)⟩]⟩
  let heap : Heap := ⟨#[], #[identity, caller]⟩
  obtain ⟨hsound, hbinds⟩ := isSound_and_binds s isRead_nested
  -- the call of `g` begins once both functions are bound
  obtain ⟨console, log, hstarts⟩ : ∃ console log, Program.Starts s.limits nested s.start
      (.call ⟨51, 55⟩ "g" [.literal ⟨53, 54⟩ (.int 7)]) ⟨⟨[globals], 3⟩, heap, console, 0, log⟩ :=
    ⟨_, _, .next (.inl ⟨_, rfl⟩) (.next (.inl ⟨_, rfl⟩) .head)⟩
  have htop := Visits.top (show s.programs = [] ++ nested :: [] from rfl) hstarts
  -- the body of `g`, and the call of `f` in it
  have hcaller := Visits.part htop (.body (rfl : evalArgs (within s.limits 999) _ _ _ = .ok [7] _)
    (⟨rfl, rfl, rfl⟩ : Calls _ "g" 1 caller [7]))
  obtain ⟨log, hbody⟩ : ∃ log, s.Visits
      ⟨999, [], caller.body, ⟨⟨[outer, globals], 4⟩, heap, console, 1, log⟩⟩ := ⟨_, hcaller⟩
  have hcall := Visits.part hbody (.operand rfl (.first fun star => ⟨_, rfl⟩))
  obtain ⟨hidden, m, inner, hvisits, hhidden, hinner, -, hlen, hentries⟩ :=
    hbinds 997 [] ⟨43, 47⟩ "f" [.var ⟨45, 46⟩ "b"] _ [7] _ 0 identity hcall rfl ⟨rfl, rfl, rfl⟩
  obtain rfl : hidden = [outer] := List.append_cancel_right (hhidden.trans rfl)
  exact ⟨m, inner, outer, _, isRead_nested, hvisits, hinner, hsound _ _ (.begins hvisits), hlen,
    (hentries _).mpr ⟨0, "a", 7, rfl, rfl, rfl⟩, rfl⟩

end Session

end ScopeScript
