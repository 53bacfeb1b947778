import IncrementalSyntax.Proofs.Service.Starts

/-!
One parser in the place of another. A request makes one call of the parser at most, so a parser can
stand in for another one if it can be in a state in which it gives the answer of that one to the
next call, whichever call that is. `answer_standsIn` says that a client cannot tell then which of
the two its service uses; before that the same is said of each operation of the service.
-/
namespace IncrementalSyntax

/-- The parser `q` can stand in for `p`. It is in the state `next a` after a call that leaves `p` in
the state `a`; before it, it is in a state that `Fits` allows. -/
structure Parser.StandsIn {σ τ : Type} (q : Parser τ) (p : Parser σ) (next : σ → τ)
    (Fits : σ → τ → Prop) : Prop where
  idle : ∀ a, Fits a (next a)
  full : ∀ text a, ∃ b, Fits a b ∧
    q.full text b = ((p.full text a).1, next (p.full text a).2)
  incremental : ∀ text prior edits a, ∃ b, Fits a b ∧
    q.incremental text prior edits b =
      ((p.incremental text prior edits a).1, next (p.incremental text prior edits a).2)

namespace Service

variable {σ τ : Type} {p : Parser σ} {q : Parser τ} {next : σ → τ} {Fits : σ → τ → Prop}

/-- The service with a parser in another state, which may be another parser. -/
def withState (s : Service σ) (state : τ) : Service τ := { s with parserState := state }

/-- The service with the state that the other parser is in after a call. -/
def carry (next : σ → τ) (s : Service σ) : Service τ := s.withState (next s.parserState)

theorem startFull_standsIn (h : q.StandsIn p next Fits) (s : Service σ) (snapshot : Snapshot) :
    ∃ b, Fits s.parserState b ∧
      startFull q (s.withState b) snapshot =
        ((startFull p s snapshot).1, (startFull p s snapshot).2.carry next) := by
  obtain ⟨a, cache, counters, nextTicket, awaited, observing, running⟩ := s
  cases running with
  | true =>
    obtain ⟨b, hfits, hcall⟩ := h.full snapshot.text a
    refine ⟨b, hfits, ?_⟩
    simp only [startFull, withState, if_true, callFull, hcall]
    rfl
  | false => exact ⟨next a, h.idle a, rfl⟩

theorem startIncremental_standsIn (h : q.StandsIn p next Fits) (s : Service σ) (base : Computation)
    (after : Snapshot) (edits : EditSet) :
    ∃ b, Fits s.parserState b ∧
      startIncremental q (s.withState b) base after edits =
        ((startIncremental p s base after edits).1, (startIncremental p s base after edits).2.1,
          (startIncremental p s base after edits).2.2.carry next) := by
  obtain ⟨a, cache, counters, nextTicket, awaited, observing, running⟩ := s
  cases running with
  | true =>
    cases hbase : base.result with
    | ok prior =>
      obtain ⟨b, hfits, hcall⟩ := h.incremental after.text prior edits a
      refine ⟨b, hfits, ?_⟩
      simp only [startIncremental, withState, if_true, await, hbase, callIncremental, hcall]
      rfl
    | error e =>
      obtain ⟨b, hfits, hcall⟩ := h.full after.text a
      refine ⟨b, hfits, ?_⟩
      simp only [startIncremental, withState, if_true, await, hbase, callFull, hcall]
      rfl
  | false => exact ⟨next a, h.idle a, rfl⟩

theorem computationFor_standsIn (h : q.StandsIn p next Fits) (s : Service σ)
    (snapshot : Snapshot) :
    ∃ b, Fits s.parserState b ∧
      computationFor q (s.withState b) snapshot =
        ((computationFor p s snapshot).1, (computationFor p s snapshot).2.carry next) := by
  cases hfound : (s.cache.get? snapshot.id).1 with
  | some c =>
    have hget : s.cache.get? snapshot.id = (some c, (s.cache.get? snapshot.id).2) := by
      rw [← hfound]
    refine ⟨next s.parserState, h.idle s.parserState, ?_⟩
    rw [computationFor_of_some p hget, computationFor_of_some (s := s.withState _) q hget]
    rfl
  | none =>
    obtain ⟨b, hfits, hstart⟩ := startFull_standsIn h s.missed snapshot
    have hmissed : startFull q (s.withState b).missed snapshot = _ := hstart
    refine ⟨b, hfits, ?_⟩
    rw [computationFor_of_none p hfound, computationFor_of_none (s := s.withState b) q hfound,
      hmissed]
    by_cases hnewer : s.cache.hasNewer snapshot.id = true
    · simp only [withState, hnewer, if_true]
    · simp only [withState, hnewer]
      rfl

/-- An edit that is refused leaves the service as it was, so the other parser is then in the state
for that from the start. -/
theorem registerEdit_standsIn (h : q.StandsIn p next Fits) (s : Service σ)
    (before after : Snapshot) (edits : EditSet) :
    ∃ b, Fits s.parserState b ∧
      registerEdit q (s.withState b) before after edits =
        (registerEdit p s before after edits).map (fun r => (r.1, r.2.1, r.2.2.carry next)) ∧
      ∀ e, registerEdit p s before after edits = .error e → b = next s.parserState := by
  have hidle := h.idle s.parserState
  cases hget : s.cache.get? before.id with | mk found cache
  have hsame (b : τ) : (s.withState b).cache.get? before.id = (found, cache) := hget
  simp only [registerEdit]
  split
  next => exact ⟨_, hidle, rfl, fun _ _ => rfl⟩
  next =>
    simp only [pure_eq_ok]
    split
    next => exact ⟨_, hidle, rfl, fun _ _ => rfl⟩
    next =>
      cases hfits : edits.checkFits before.text with
      | error e => exact ⟨_, hidle, rfl, fun _ _ => rfl⟩
      | ok _ =>
        cases found with
        | none =>
          refine ⟨_, hidle, ?_, fun _ _ => rfl⟩
          simp only [hget, hsame]
          rfl
        | some base =>
          obtain ⟨b, hb, hstart⟩ := startIncremental_standsIn h { s with cache } base after edits
          have hcarry : startIncremental q { s.withState b with cache } base after edits = _ :=
            hstart
          refine ⟨b, hb, ?_, ?_⟩
          · simp only [hget, hsame, hcarry]
            rfl
          · simp [hget]

end Service

namespace Client

variable {σ τ : Type} {p : Parser σ} {q : Parser τ} {next : σ → τ} {Fits : σ → τ → Prop}

def withState (c : Client σ) (state : τ) : Client τ := ⟨c.service.withState state, c.handles⟩

def carry (next : σ → τ) (c : Client σ) : Client τ := ⟨c.service.carry next, c.handles⟩

/-- The step lemma: with the other parser, a request has the same answer. -/
theorem answer_standsIn (h : q.StandsIn p next Fits) (c : Client σ) (request : Request) :
    ∃ b, Fits c.service.parserState b ∧
      (c.withState b).answer q request =
        ((c.answer p request).1, (c.answer p request).2.carry next) := by
  have hidle := h.idle c.service.parserState
  cases request with
  | tree snapshot =>
    obtain ⟨b, hfits, heq⟩ := Service.computationFor_standsIn h c.service snapshot
    refine ⟨b, hfits, ?_⟩
    simp only [answer, withState, Service.treeFor, heq]
    rfl
  | compute snapshot =>
    obtain ⟨b, hfits, heq⟩ := Service.computationFor_standsIn h c.service snapshot
    refine ⟨b, hfits, ?_⟩
    simp only [answer, withState, heq]
    rfl
  | await handle =>
    refine ⟨_, hidle, ?_⟩
    simp only [answer, withState]
    cases c.handles[handle]? <;> rfl
  | register before after edits =>
    obtain ⟨b, hfits, heq, herror⟩ :=
      Service.registerEdit_standsIn h c.service before after edits
    refine ⟨b, hfits, ?_⟩
    simp only [answer, withState, heq]
    cases hregister : c.service.registerEdit p before after edits with
    | error e =>
      obtain rfl := herror e hregister
      rfl
    | ok r => rfl
  | clear document => exact ⟨_, hidle, rfl⟩
  | observe on => exact ⟨_, hidle, rfl⟩
  | shutdown => exact ⟨_, hidle, rfl⟩

end Client

end IncrementalSyntax
