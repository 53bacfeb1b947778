import Mathlib.Data.List.Forall2
import IncrementalSyntax.Proofs.Service.Replacement

/-!
Failures stay where they happen. The parser may fail any call. To count its calls it is replaced by
one that does the same and writes down every call with its answer; `run_recording` says that no
client can tell the two apart. `Ledger.Step` says all that a request can do to the calls and to the
tickets, so that calls and started computations are in step over every run. `run_isolates_failures`
draws the conclusion.
-/
namespace IncrementalSyntax

structure ParserCall where
  text : Text
  /-- The tree and the edits from which an incremental call starts. -/
  basis : Option (SyntaxTree × EditSet)
  /-- The tree that the call gave; none if it failed. -/
  tree : Option SyntaxTree

/-- The parser that gives the same answers and writes down its calls. -/
def Parser.recording {σ : Type} (parser : Parser σ) : Parser (σ × List ParserCall) where
  full text state :=
    let (tree, next) := parser.full text state.1
    (tree, next, state.2 ++ [⟨text, none, tree⟩])
  incremental text prior edits state :=
    let (answer, next) := parser.incremental text prior edits state.1
    (answer, next, state.2 ++ [⟨text, some (prior, edits), answer.map Prod.fst⟩])

namespace Start

/-- What there is to parse from: the tree of the base, if the base has not failed. -/
def basis (x : Start) : Option (SyntaxTree × EditSet) :=
  x.base.bind fun b => b.1.result.toOption.map fun tree => (tree, b.2)

/-- The computation bears the name of its own snapshot, and is incremental if it has a base. -/
def Labelled (x : Start) : Prop :=
  x.computation.snapshot = x.snapshot.id ∧
    x.computation.kind = if x.base.isSome then .incremental else .full

/-- The computation has made the call: for the text of its own snapshot, from the tree of its base
if there is one. It has a tree if the call gave that, and otherwise an error with its own name. -/
structure Calls (x : Start) (call : ParserCall) : Prop where
  text_eq : call.text = x.snapshot.text
  basis_eq : call.basis = x.basis
  ok_iff : ∀ tree, x.computation.result = .ok tree ↔ call.tree = some tree
  error_iff : ∀ e, x.computation.result = .error e ↔
    call.tree = none ∧ e = .parseTaskFailed x.snapshot.id .crashed

def Cancelled (x : Start) : Prop :=
  x.computation.result = .error (.parseTaskFailed x.snapshot.id .cancelled)

theorem calls_of_resultOf {x : Start} {call : ParserCall} (htext : call.text = x.snapshot.text)
    (hbasis : call.basis = x.basis)
    (hresult : x.computation.result = Service.resultOf x.snapshot.id call.tree) :
    x.Calls call := by
  refine ⟨htext, hbasis, ?_, ?_⟩
  · intro tree
    rw [hresult]
    cases call.tree <;> simp [Service.resultOf]
  · intro e
    rw [hresult]
    cases call.tree <;> simp [Service.resultOf, eq_comm]

end Start

/-- The books of a service: how many tickets it has given out, whether its parses run, and which
calls they have made. -/
structure Ledger where
  tickets : Nat
  running : Bool
  calls : List ParserCall

namespace Ledger

/-- What a request can do to the books, if it starts the given computation or none. -/
inductive Step : Ledger → Option Start → Ledger → Prop where
  | idle (l : Ledger) : Step l none l
  /-- A computation that runs takes a ticket and makes one call. -/
  | call {n : Nat} {calls : List ParserCall} {x : Start} {call : ParserCall}
      (hticket : x.computation.ticket = n) (hlabel : x.Labelled) (hcall : x.Calls call) :
      Step ⟨n, true, calls⟩ (some x) ⟨n + 1, true, calls ++ [call]⟩
  /-- A computation that does not run takes a ticket and makes no call. -/
  | cancel {n : Nat} {calls : List ParserCall} {x : Start}
      (hticket : x.computation.ticket = n) (hlabel : x.Labelled) (hcancelled : x.Cancelled) :
      Step ⟨n, false, calls⟩ (some x) ⟨n + 1, false, calls⟩

/-- Books that agree with a list of all computations started so far: the tickets are theirs, and
so, one by one, are the calls, except that the last computations may have been cancelled. -/
structure Balanced (starts : List Start) (l : Ledger) : Prop where
  tickets : starts.map (fun x => x.computation.ticket) = List.range l.tickets
  labelled : ∀ x ∈ starts, x.Labelled
  calls : ∃ made cancelled, starts = made ++ cancelled ∧ List.Forall₂ Start.Calls made l.calls ∧
    (∀ x ∈ cancelled, x.Cancelled) ∧ (l.running = true → cancelled = [])

theorem Balanced.stop {starts : List Start} {l : Ledger} (h : l.Balanced starts) :
    Balanced starts { l with running := false } := by
  obtain ⟨made, cancelled, hstarts, hmade, hcancelled, -⟩ := h.calls
  exact ⟨h.tickets, h.labelled, made, cancelled, hstarts, hmade, hcancelled, by simp⟩

theorem Balanced.step {starts : List Start} {l l' : Ledger} {x : Option Start}
    (h : l.Balanced starts) (hstep : Step l x l') : l'.Balanced (starts ++ x.toList) := by
  obtain ⟨made, cancelled, hstarts, hmade, hcancelled, hrunning⟩ := h.calls
  cases hstep with
  | idle =>
    rw [Option.toList_none, List.append_nil]
    exact h
  | @call n calls x call hticket hlabel hcall =>
    -- parses run, so none has been cancelled and the new call belongs to the new computation
    obtain rfl := hrunning rfl
    refine ⟨?_, ?_, made ++ [x], [], ?_, ?_, by simp, by simp⟩
    · simp [h.tickets, hticket, List.range_succ]
    · exact List.forall_mem_append.mpr ⟨h.labelled, List.forall_mem_singleton.mpr hlabel⟩
    · simp [hstarts]
    · exact List.rel_append hmade (.cons hcall .nil)
  | @cancel n calls x hticket hlabel hx =>
    refine ⟨?_, ?_, made, cancelled ++ [x], ?_, hmade, ?_, by simp⟩
    · simp [h.tickets, hticket, List.range_succ]
    · exact List.forall_mem_append.mpr ⟨h.labelled, List.forall_mem_singleton.mpr hlabel⟩
    · simp [hstarts]
    · exact List.forall_mem_append.mpr ⟨hcancelled, List.forall_mem_singleton.mpr hx⟩

end Ledger

namespace Service

variable {σ : Type}

def ledger (s : Service (σ × List ParserCall)) : Ledger :=
  ⟨s.nextTicket, s.running, s.parserState.2⟩

theorem ledger_startFull (parser : Parser σ) (s : Service (σ × List ParserCall))
    (snapshot : Snapshot) :
    s.ledger.Step (some ⟨snapshot, none, (startFull parser.recording s snapshot).1⟩)
      (startFull parser.recording s snapshot).2.ledger := by
  cases hrunning : s.running with
  | true =>
    simp only [startFull, hrunning, if_true, ledger, callFull, issue]
    exact .call rfl ⟨rfl, rfl⟩ (Start.calls_of_resultOf rfl rfl rfl)
  | false =>
    simp only [startFull, hrunning, ledger, issue]
    exact .cancel rfl ⟨rfl, rfl⟩ rfl

theorem ledger_startIncremental (parser : Parser σ) (s : Service (σ × List ParserCall))
    (base : Computation) (after : Snapshot) (edits : EditSet) :
    s.ledger.Step
      (some ⟨after, some (base, edits), (startIncremental parser.recording s base after edits).1⟩)
      (startIncremental parser.recording s base after edits).2.2.ledger := by
  cases hrunning : s.running with
  | true =>
    cases hbase : base.result with
    | ok prior =>
      simp only [startIncremental, hrunning, if_true, await, hbase, ledger, callIncremental, issue]
      refine .call rfl ⟨rfl, rfl⟩ (Start.calls_of_resultOf rfl ?_ rfl)
      simp [Start.basis, hbase, Except.toOption]
    | error e =>
      simp only [startIncremental, hrunning, if_true, await, hbase, ledger, callFull, issue]
      refine .call rfl ⟨rfl, rfl⟩ (Start.calls_of_resultOf rfl ?_ rfl)
      simp [Start.basis, hbase, Except.toOption]
  | false =>
    simp only [startIncremental, hrunning, ledger, issue]
    exact .cancel rfl ⟨rfl, rfl⟩ rfl

end Service

namespace Client

variable {σ : Type}

theorem ledger_answer (parser : Parser σ) (c : Client (σ × List ParserCall)) {request : Request}
    (hrequest : request ≠ .shutdown) :
    c.service.ledger.Step (c.startedBy parser.recording request)
      (c.answer parser.recording request).2.service.ledger := by
  have hcompute (snapshot : Snapshot) :
      c.service.ledger.Step (c.startedBy parser.recording (.compute snapshot))
        (c.service.computationFor parser.recording snapshot).2.ledger := by
    obtain ⟨computation, cache, -, hnone, heq⟩ | ⟨-, hsome, heq⟩ :=
      compute_cases parser.recording c snapshot
    · rw [hnone, heq]
      exact .idle _
    · have hstep := Service.ledger_startFull parser c.service.missed snapshot
      rw [hsome]
      obtain heq | heq := heq
      · rw [heq]
        exact hstep
      · rw [heq]
        exact hstep
  cases request with
  | tree snapshot => exact hcompute snapshot
  | compute snapshot => exact hcompute snapshot
  | await handle =>
    rw [answer]
    split <;> exact .idle _
  | register before after edits =>
    obtain ⟨hnone, hsame⟩ | ⟨base, cache, -, -, hsome, hnext⟩ :=
      register_cases parser.recording c before after edits
    · rw [hnone, hsame]
      exact .idle _
    · rw [hsome, hnext]
      exact Service.ledger_startIncremental parser { c.service with cache } base after edits
  | clear document => exact .idle _
  | observe on => exact .idle _
  | shutdown => exact absurd rfl hrequest

theorem balanced_answer (parser : Parser σ) {c : Client (σ × List ParserCall)}
    {starts : List Start} (h : c.service.ledger.Balanced starts) (request : Request) :
    (c.answer parser.recording request).2.service.ledger.Balanced
      (starts ++ (c.startedBy parser.recording request).toList) := by
  by_cases hrequest : request = .shutdown
  · subst hrequest
    rw [startedBy, Option.toList_none, List.append_nil]
    exact h.stop
  · exact h.step (ledger_answer parser c hrequest)

theorem balanced_after (parser : Parser σ) {c : Client (σ × List ParserCall)} {starts : List Start}
    (h : c.service.ledger.Balanced starts) (requests : List Request) :
    (after parser.recording c requests).service.ledger.Balanced
      (starts ++ started parser.recording c requests) := by
  induction requests generalizing c starts with
  | nil =>
    rw [started, List.append_nil]
    exact h
  | cons r rs ih =>
    have hrest := ih (balanced_answer parser h r)
    rwa [List.append_assoc] at hrest

end Client

/-- A parser can stand in for itself when it writes down its calls. -/
theorem Parser.standsIn_recording {σ : Type} (parser : Parser σ) :
    parser.StandsIn parser.recording Prod.fst fun a b => b = a.1 where
  idle _ := rfl
  full _ a := ⟨a.1, rfl, rfl⟩
  incremental _ _ _ a := ⟨a.1, rfl, rfl⟩

namespace Client

variable {σ : Type}

/-- The step lemma for writing down: it changes no answer. -/
theorem answer_recording (parser : Parser σ) (c : Client (σ × List ParserCall))
    (request : Request) :
    (c.carry Prod.fst).answer parser request =
      ((c.answer parser.recording request).1,
        (c.answer parser.recording request).2.carry Prod.fst) := by
  obtain ⟨b, rfl, heq⟩ := answer_standsIn parser.standsIn_recording c request
  exact heq

theorem run_recording (parser : Parser σ) (c : Client (σ × List ParserCall))
    (requests : List Request) :
    run parser (c.carry Prod.fst) requests = run parser.recording c requests := by
  induction requests generalizing c with
  | nil => rfl
  | cons r rs ih => rw [run, run, answer_recording, ih]

/-- Whatever the requests and wherever the parser fails, the computations that are started and the
calls that are made are in step: every computation makes one call, of the kind that its base allows,
has a tree if and only if that call gave it, and otherwise an error with its own name. Only after
the running of parses has ended are there computations without a call. Whatever is handed out is
the result of a computation started for that version, and a computation that stays in the cache is
handed out again without a call. -/
theorem run_isolates_failures (parser : Parser σ) (config : Config) (state : σ)
    (requests : List Request) :
    let first : Client (σ × List ParserCall) := ⟨.start config (state, []), []⟩
    let c := after parser.recording first requests
    let starts := started parser.recording first requests
    run parser ⟨.start config state, []⟩ requests = run parser.recording first requests ∧
    starts.map (fun x => x.computation.ticket) = List.range c.service.nextTicket ∧
    (∀ x ∈ starts, x.Labelled ∧ ∀ base edits, x.base = some (base, edits) →
      ∃ y ∈ starts, y.computation = base ∧ y.snapshot.id.precedes x.snapshot.id = true) ∧
    (∃ made cancelled, starts = made ++ cancelled ∧
      List.Forall₂ Start.Calls made c.service.parserState.2 ∧ (∀ x ∈ cancelled, x.Cancelled) ∧
      (.shutdown ∉ requests → cancelled = [])) ∧
    (∀ snapshot result, (snapshot, result) ∈ run parser.recording first requests →
      ∃ x ∈ starts, x.snapshot.id = snapshot.id ∧ x.computation.result = result) ∧
    ∀ (snapshot : Snapshot) computation more,
      (c.service.cache.get? snapshot.id).1 = some computation →
      (∀ front, front <+: more →
        snapshot.id ∈ (after parser.recording c front).service.cache.keys) →
      let later := after parser.recording c more
      let read := later.answer parser.recording (.tree snapshot)
      let asked := later.answer parser.recording (.compute snapshot)
      (∃ x ∈ starts, x.snapshot.id = snapshot.id ∧ x.computation = computation) ∧
        read.1 = some (snapshot, computation.result) ∧
        read.2.service.parserState = later.service.parserState ∧
        asked.2.handles = later.handles ++ [(snapshot, computation)] ∧
        asked.2.service.parserState = later.service.parserState := by
  intro first c starts
  have hbalanced : c.service.ledger.Balanced starts :=
    balanced_after parser ⟨rfl, by simp, [], [], rfl, .nil, by simp, by simp⟩ requests
  have haccounted : first.Accounted [] := ⟨VersionedCache.all_empty _, by simp [first], by simp⟩
  obtain ⟨hlast, hresults⟩ := haccounted.after parser.recording requests
  have hproper : c.service.cache.Proper config.cacheCapacity :=
    proper_after (VersionedCache.proper_empty _) requests
  refine ⟨run_recording parser first requests, hbalanced.tickets, ?_, ?_, ?_, ?_⟩
  · intro x hx
    refine ⟨hbalanced.labelled x hx, ?_⟩
    intro base edits hbase
    obtain ⟨id, ⟨y, hy, rfl, hcomputation⟩, hprecedes⟩ := hlast.bases x hx base edits hbase
    exact ⟨y, hy, hcomputation, hprecedes⟩
  · obtain ⟨made, cancelled, hstarts, hmade, hcancelled, hrunning⟩ := hbalanced.calls
    refine ⟨made, cancelled, hstarts, hmade, hcancelled, ?_⟩
    intro hrequests
    exact hrunning (running_after parser.recording hrequests)
  · intro snapshot result hmem
    obtain ⟨computation, ⟨x, hx, hid, rfl⟩, hresult⟩ := hresults snapshot result hmem
    exact ⟨x, hx, hid, hresult⟩
  · intro snapshot computation more hfound hkept later read asked
    have hlater := get?_after hproper hfound hkept
    exact ⟨hlast.cached _ (RecencyCache.mem_of_get? hfound), answer_of_get? hlater⟩

/-- The parse of the first version fails. The second version is parsed in full in place of that, and
read again without a third call. -/
theorem run_isolates_failures_fallback :
    let before := Snapshot.ofText ⟨⟨0⟩, 1⟩ "file:///a" "let a = 1".toList
    let next := Snapshot.ofText ⟨⟨0⟩, 2⟩ "file:///a" "let a = 12".toList
    let requests : List Request :=
      [.compute before, .register before next ⟨[.insert 9 "2".toList]⟩, .tree next]
    ∃ c starts computation,
      c = after Parser.failing.recording ⟨.start ⟨1⟩ (⟨true, false⟩, []), []⟩ requests ∧
      starts = started Parser.failing.recording ⟨.start ⟨1⟩ (⟨true, false⟩, []), []⟩ requests ∧
      starts.map (fun x => x.base.isSome) = [false, true] ∧
      c.service.parserState.2.map (fun call => (call.text, call.basis.isSome, call.tree.isSome)) =
        [(before.text, false, false), (next.text, false, true)] ∧
      List.Forall₂ Start.Calls starts c.service.parserState.2 ∧
      (c.service.cache.get? next.id).1 = some computation ∧
      (c.answer Parser.failing.recording (.tree next)).1 = some (next, computation.result) ∧
      (c.answer Parser.failing.recording (.tree next)).2.service.parserState =
        c.service.parserState := by
  intro before next requests
  obtain ⟨-, -, -, ⟨made, cancelled, hstarts, hmade, -, hall⟩, -, hagain⟩ :=
    run_isolates_failures Parser.failing ⟨1⟩ ⟨true, false⟩ requests
  obtain rfl := hall (by simp [requests])
  rw [List.append_nil] at hstarts
  rw [← hstarts] at hmade
  have hsome : ((after Parser.failing.recording ⟨.start ⟨1⟩ (⟨true, false⟩, []), []⟩
      requests).service.cache.get? next.id).1.isSome = true := by decide +kernel
  obtain ⟨computation, hfound⟩ := Option.isSome_iff_exists.mp hsome
  have hread := hagain next computation [] hfound
  simp only [List.prefix_nil, forall_eq, after_nil] at hread
  obtain ⟨-, hresult, hcount, -⟩ := hread (VersionedCache.mem_keys_of_get? hfound)
  exact ⟨_, _, computation, rfl, rfl, by decide +kernel, by decide +kernel, hmade, hfound, hresult,
    hcount⟩

end Client

end IncrementalSyntax
