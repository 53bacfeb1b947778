import IncrementalSyntax.Proofs.Service.Starts

/-!
The counters of a service against what clients have asked of it. A look into the cache is counted
as a hit or as a miss. A miss starts a full parse. A registered edit starts an incremental parse,
or a full one in its place if the base has failed. Every parse is counted before the parser is
called, so that a call which fails is counted too. `Counters.Balanced` says how the four numbers
then hang together; one request keeps it (`counts_answer`), and so does a run (`counts_after`).
A computation that is started is run to its end at once, so no parse is running between requests.
-/
namespace IncrementalSyntax

def Request.asks : Request → Bool
  | tree _ | compute _ => true
  | await _ | register .. | clear _ | observe _ | shutdown => false

def Computation.failed (c : Computation) : Bool :=
  match c.result with
  | .ok _ => false
  | .error _ => true

/-- The counters agree with how often a computation has been asked for, how many edits have been
answered with an incremental parse, and how many of those had a base that has failed. -/
structure Counters.Balanced (asked edited fallen : Nat) (n : Counters) : Prop where
  looks : n.cacheHits + n.cacheMisses = asked
  parses : n.fullParses + n.incrementalParses = n.cacheMisses + edited
  full : n.fullParses = n.cacheMisses + fallen

namespace Service

variable {σ : Type} {s : Service σ}

/-- A full parse that runs is counted once, whether or not the call fails. -/
theorem counters_startFull (parser : Parser σ) (hrunning : s.running = true)
    (snapshot : Snapshot) :
    (startFull parser s snapshot).2.counters =
      { s.counters with fullParses := s.counters.fullParses + 1 } := by
  rw [startFull, if_pos hrunning]
  rfl

/-- An incremental parse that runs is counted once: as what it is, or as a full parse if its base
has failed. -/
theorem counters_startIncremental (parser : Parser σ) (hrunning : s.running = true)
    (base : Computation) (after : Snapshot) (edits : EditSet) :
    (startIncremental parser s base after edits).2.2.counters =
      if base.failed then { s.counters with fullParses := s.counters.fullParses + 1 }
      else { s.counters with incrementalParses := s.counters.incrementalParses + 1 } := by
  rw [startIncremental, if_pos hrunning]
  cases hbase : base.result with
  | ok prior => simp [await, hbase, callIncremental, issue, Computation.failed]
  | error e => simp [await, hbase, callFull, issue, Computation.failed]

end Service

namespace Client

variable {σ : Type} {parser : Parser σ} {c : Client σ} {asked edited fallen : Nat}

/-- Whether the request is an edit that is answered with an incremental parse. -/
def startsIncremental (parser : Parser σ) (c : Client σ) : Request → Bool
  | .register before after edits =>
    match c.service.registerEdit parser before after edits with
    | .ok (.incremental, _, _) => true
    | .ok (.noBase, _, _) | .error _ => false
  | .tree _ | .compute _ | .await _ | .clear _ | .observe _ | .shutdown => false

/-- Whether the request is such an edit and the computation that is kept for the snapshot before
it, which is the base, has failed. -/
def fallsBack (parser : Parser σ) (c : Client σ) (request : Request) : Bool :=
  c.startsIncremental parser request &&
    match request with
    | .register before _ _ => (c.service.cache.get? before.id).1.any Computation.failed
    | _ => false

/-- How many of the requests satisfy `p` when they are put one after the other. -/
def countAlong (parser : Parser σ) (p : Client σ → Request → Bool) (c : Client σ) :
    List Request → Nat
  | [] => 0
  | r :: rs => (p c r).toNat + countAlong parser p (c.answer parser r).2 rs

/-- A request for a computation is a hit, or a miss with a full parse. -/
theorem counts_computationFor (hrunning : c.service.running = true)
    (h : c.service.counters.Balanced asked edited fallen) (snapshot : Snapshot) :
    (c.service.computationFor parser snapshot).2.counters.Balanced (asked + 1) edited fallen := by
  obtain ⟨hlooks, hparses, hfull⟩ := h
  obtain ⟨computation, cache, -, -, heq⟩ | ⟨-, -, heq⟩ := compute_cases parser c snapshot
  · rw [heq]
    refine ⟨?_, hparses, hfull⟩
    simp only [Service.hit]
    omega
  · have hstarted := Service.counters_startFull (s := c.service.missed) parser hrunning snapshot
    have hcounters : (c.service.computationFor parser snapshot).2.counters =
        { c.service.missed.counters with fullParses := c.service.counters.fullParses + 1 } := by
      obtain heq | heq := heq
      · rw [heq]
        exact hstarted
      · rw [heq]
        exact hstarted
    rw [hcounters]
    refine ⟨?_, ?_, ?_⟩
    all_goals
      simp only [Service.missed]
      omega

/-- An edit changes the counters only if it is answered with an incremental parse, and then by one
parse. -/
theorem counts_register (hrunning : c.service.running = true)
    (h : c.service.counters.Balanced asked edited fallen) (before after : Snapshot)
    (edits : EditSet) :
    (c.answer parser (.register before after edits)).2.service.counters.Balanced asked
      (edited + (c.startsIncremental parser (.register before after edits)).toNat)
      (fallen + (c.fallsBack parser (.register before after edits)).toNat) := by
  cases hregister : c.service.registerEdit parser before after edits with
  | error e => simpa [answer, startsIncremental, fallsBack, hregister] using h
  | ok answered =>
    obtain rfl | ⟨base, cache, hget, rfl⟩ := Service.registerEdit_cases hregister
    · simpa [answer, startsIncremental, fallsBack, hregister] using h
    · have hcounters := Service.counters_startIncremental (s := { c.service with cache }) parser
        hrunning base after edits
      obtain ⟨hlooks, hparses, hfull⟩ := h
      simp only [answer, startsIncremental, fallsBack, hregister, hget, hcounters, Option.any_some,
        Bool.true_and, Bool.toNat_true]
      cases base.failed with
      | true =>
        refine ⟨hlooks, ?_, ?_⟩
        all_goals
          simp only [if_true, Bool.toNat_true]
          omega
      | false =>
        refine ⟨hlooks, ?_, hfull⟩
        simp only [Bool.false_eq_true, if_false]
        omega

/-- The step lemma: while parses run, a request keeps the counters balanced. -/
theorem counts_answer (hrunning : c.service.running = true)
    (h : c.service.counters.Balanced asked edited fallen) (request : Request) :
    (c.answer parser request).2.service.counters.Balanced (asked + request.asks.toNat)
      (edited + (c.startsIncremental parser request).toNat)
      (fallen + (c.fallsBack parser request).toNat) := by
  cases request with
  | tree snapshot => exact counts_computationFor hrunning h snapshot
  | compute snapshot => exact counts_computationFor hrunning h snapshot
  | register before after edits => exact counts_register hrunning h before after edits
  | await handle =>
    rw [answer]
    split <;> exact h
  | clear document => exact h
  | observe on => exact h
  | shutdown => exact h

theorem counts_after (hrunning : c.service.running = true)
    (h : c.service.counters.Balanced asked edited fallen) {requests : List Request}
    (hrequests : .shutdown ∉ requests) :
    (after parser c requests).service.counters.Balanced (asked + requests.countP Request.asks)
      (edited + countAlong parser (startsIncremental parser) c requests)
      (fallen + countAlong parser (fallsBack parser) c requests) := by
  induction requests generalizing c asked edited fallen with
  | nil => exact h
  | cons r rs ih =>
    rw [List.mem_cons, not_or] at hrequests
    have hnext := (running_answer parser c (Ne.symm hrequests.1)).trans hrunning
    have hrest := ih hnext (counts_answer hrunning h r) hrequests.2
    have hasks : (r :: rs).countP Request.asks = r.asks.toNat + rs.countP Request.asks := by
      rw [List.countP_cons, Nat.add_comm]
      cases r.asks <;> rfl
    rw [hasks, countAlong, countAlong, ← Nat.add_assoc, ← Nat.add_assoc, ← Nat.add_assoc]
    exact hrest

/-- As long as parses run, whatever the requests and wherever the parser fails, hits and misses are
as many as the times that a computation or a tree has been asked for. There are as many parses as
misses and edits answered with an incremental parse. The full ones are those for the misses and
those for edits whose base has failed. -/
theorem run_counts_parses (parser : Parser σ) (config : Config) (state : σ)
    (requests : List Request) (hrequests : .shutdown ∉ requests) :
    let first : Client σ := ⟨.start config state, []⟩
    let n := (after parser first requests).service.counters
    n.cacheHits + n.cacheMisses = requests.countP Request.asks ∧
      n.fullParses + n.incrementalParses =
        n.cacheMisses + countAlong parser (startsIncremental parser) first requests ∧
      n.fullParses = n.cacheMisses + countAlong parser (fallsBack parser) first requests := by
  intro first n
  have hstart : first.service.counters.Balanced 0 0 0 := ⟨rfl, rfl, rfl⟩
  have hbalanced : n.Balanced (0 + requests.countP Request.asks)
      (0 + countAlong parser (startsIncremental parser) first requests)
      (0 + countAlong parser (fallsBack parser) first requests) :=
    counts_after rfl hstart hrequests
  simp only [Nat.zero_add] at hbalanced
  exact ⟨hbalanced.looks, hbalanced.parses, hbalanced.full⟩

/-- The parse of the first version fails, so the second one is parsed in full and the third one
from it; then the third version is read, and the first one again, which is not kept any more. -/
theorem run_counts_parses_fallback :
    let first := Snapshot.ofText ⟨⟨0⟩, 1⟩ "file:///a" "let a = 1".toList
    let second := Snapshot.ofText ⟨⟨0⟩, 2⟩ "file:///a" "let a = 12".toList
    let third := Snapshot.ofText ⟨⟨0⟩, 3⟩ "file:///a" "let a = 123".toList
    let requests : List Request :=
      [.compute first, .register first second ⟨[.insert 9 "2".toList]⟩,
        .register second third ⟨[.insert 10 "3".toList]⟩, .tree third, .tree first]
    let c : Client Parser.PlannedFailures := ⟨.start ⟨1⟩ ⟨true, false⟩, []⟩
    ∃ n edited fallen, n = (after .failing c requests).service.counters ∧
      edited = countAlong .failing (startsIncremental .failing) c requests ∧
      fallen = countAlong .failing (fallsBack .failing) c requests ∧
      n = ⟨3, 1, 1, 2⟩ ∧ edited = 2 ∧ fallen = 1 ∧
      n.cacheHits + n.cacheMisses = requests.countP Request.asks ∧
      n.fullParses + n.incrementalParses = n.cacheMisses + edited ∧
      n.fullParses = n.cacheMisses + fallen := by
  intro first second third requests c
  obtain ⟨hlooks, hparses, hfull⟩ := run_counts_parses .failing ⟨1⟩ ⟨true, false⟩ requests
    (by simp [requests])
  -- the run is named before it is compared, so that it is evaluated only where numbers are asked for
  generalize hn : (after .failing ⟨.start ⟨1⟩ ⟨true, false⟩, []⟩ requests).service.counters = n at *
  generalize hedited : countAlong .failing (startsIncremental .failing) _ requests = edited at *
  generalize hfallen : countAlong .failing (fallsBack .failing) _ requests = fallen at *
  refine ⟨n, edited, fallen, rfl, rfl, rfl, ?_, ?_, ?_, hlooks, hparses, hfull⟩
  · rw [← hn]
    decide +kernel
  · rw [← hedited]
    decide +kernel
  · rw [← hfallen]
    decide +kernel

end Client

end IncrementalSyntax
