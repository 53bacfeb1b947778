import Mathlib.Data.List.Perm.Subperm
import IncrementalSyntax.Proofs.Document.Catalog
import IncrementalSyntax.Proofs.Service.Replacement
import IncrementalSyntax.Session

/-!
Sessions against a catalog and a client. A session has names for what it keeps, and can tell the
parser between two requests to fail a call; a client has neither. `Effect` says what a step can do:
call the store, send the service a request, or neither. So the steps that call the store are
answered as a catalog answers the calls. The trees that a session gives are those that a client
gets, if its parser fails the calls that a list says, the list being known from the start
(`run_follows`).
-/
namespace IncrementalSyntax

/-- The parser of this library, except that the list says which of its calls fail. -/
def Parser.scripted : Parser (List Bool) where
  full text script := (if script.headD false then none else some (parse text), script.tail)
  incremental text prior edits script :=
    (if script.headD false then none else some (reparse text prior edits), script.tail)

/-- Whatever the parser that is told to fail does at its next call, the list can begin with that. -/
theorem Parser.standsIn_failing (rest : List Bool) :
    scripted.StandsIn failing (fun _ => rest) fun _ _ => True where
  idle _ := trivial
  full text a := by
    refine ⟨a.full :: rest, trivial, ?_⟩
    cases h : a.full <;> simp [scripted, failing, h]
  incremental text prior edits a := by
    refine ⟨a.incremental :: rest, trivial, ?_⟩
    cases h : a.incremental <;> simp [scripted, failing, h]

theorem nodup_eraseDups {α : Type} [BEq α] [LawfulBEq α] : (l : List α) → l.eraseDups.Nodup
  | [] => List.nodup_nil
  | a :: l => by
    rw [List.eraseDups_cons, List.nodup_cons]
    exact ⟨by simp, nodup_eraseDups (l.filter fun b => !b == a)⟩
termination_by l => l.length
decreasing_by exact Nat.lt_succ_of_le (List.length_filter_le _ _)

namespace Slots

variable {α : Type} {s : Slots α} {name : String} {a b : α}

theorem mem_values_of_get? (h : s.get? name = some a) : a ∈ s.values := by
  obtain ⟨before, after, he, -⟩ := List.lookup_eq_some_iff.mp h
  exact List.mem_map.mpr ⟨(name, a), by simp [he], rfl⟩

theorem mem_values_put (h : b ∈ (s.put name a).values) : b = a ∨ b ∈ s.values := by
  obtain ⟨e, he, rfl⟩ := List.mem_map.mp h
  obtain rfl | he := List.mem_cons.mp he
  · exact .inl rfl
  · exact .inr (List.mem_map_of_mem (List.mem_filter.mp he).1)

end Slots

/-- The call to the store that a step makes. -/
def Step.call? : Step → Option StoreCall
  | openDocument uri version text _ => some (.openDocument uri version text)
  | change uri version changes _ => some (.change uri version changes)
  | close uri => some (.close uri)
  | latest uri _ => some (.latest uri)
  | documentId uri => some (.documentId uri)
  | _ => none

namespace Session

variable {s next : Session} {c : Client Parser.PlannedFailures} {st : Step}

def after (s : Session) (steps : List Step) : Session := steps.foldl (fun s st => (s.step st).2) s

def outcomeOf (answer : Except Failure StoreAnswer) : Except StepFailure Answer :=
  failure (answer.map .ofStore)

def treeOf : Except StepFailure Answer → Option (Except Error SyntaxTree)
  | .ok (.tree result) => some result
  | _ => none

/-- A client has the service of the session and got the computations that the session keeps. -/
structure Uses (s : Session) (c : Client Parser.PlannedFailures) : Prop where
  service_eq : s.service = c.service
  held : ∀ computation ∈ s.computations.values, ∃ snapshot, (snapshot, computation) ∈ c.handles

/-- What a step can do: call the store, send the service a request, or neither of the two. -/
inductive Effect (s : Session) (c : Client Parser.PlannedFailures) (st : Step)
    (outcome : Except StepFailure Answer) (next : Session) : Prop where
  | call (call : StoreCall) (hcall : st.call? = some call)
      (houtcome : outcome = outcomeOf (s.store.answer call).1)
      (hstore : next.store = (s.store.answer call).2) (huses : next.Uses c)
  | request (request : Request) (hcall : st.call? = none)
      (htree : treeOf outcome = (c.answer .failing request).1.map Prod.snd)
      (hstore : next.store = s.store) (huses : next.Uses (c.answer .failing request).2)
  /-- The parser may have been told what to do. -/
  | aside (state : Parser.PlannedFailures) (hcall : st.call? = none) (htree : treeOf outcome = none)
      (hstore : next.store = s.store) (huses : next.Uses (c.withState state))

theorem Effect.uses {outcome : Except StepFailure Answer} (h : s.Effect c st outcome next) :
    ∃ client, next.Uses client := by
  obtain ⟨_, _, _, _, huses⟩ | ⟨_, _, _, _, huses⟩ | ⟨_, _, _, _, huses⟩ := h <;> exact ⟨_, huses⟩

theorem Effect.store_cases {outcome : Except StepFailure Answer}
    (h : s.Effect c st outcome next) :
    (∃ call, st.call? = some call ∧ outcome = outcomeOf (s.store.answer call).1 ∧
      next.store = (s.store.answer call).2) ∨ st.call? = none ∧ next.store = s.store := by
  cases h with
  | call call hcall houtcome hstore => exact .inl ⟨call, hcall, houtcome, hstore⟩
  | request _ hcall _ hstore => exact .inr ⟨hcall, hstore⟩
  | aside _ hcall _ hstore => exact .inr ⟨hcall, hstore⟩

theorem treeOf_outcomeOf (answer : Except Failure StoreAnswer) :
    treeOf (outcomeOf answer) = none := by
  obtain f | a := answer
  · rfl
  · cases a <;> rfl

/-- What is kept of an answer of the store is no computation. -/
theorem Uses.keep (h : s.Uses c) (slot : Option String) (a : StoreAnswer) :
    (s.keep slot a).store = s.store ∧ (s.keep slot a).Uses c := by
  cases a with
  | snapshot snapshot => cases snapshot <;> exact ⟨rfl, h.service_eq, h.held⟩
  | edited d => cases slot <;> exact ⟨rfl, h.service_eq, h.held⟩
  | document d => exact ⟨rfl, h⟩

theorem effect_ask (h : s.Uses c) {call : StoreCall} (hcall : st.call? = some call)
    (slot : Option String) : s.Effect c st (s.ask call slot).1 (s.ask call slot).2.2 := by
  cases hanswer : s.store.answer call with | mk result store
  cases result with
  | error f =>
    refine .call call hcall ?_ ?_ ?_
    · simp only [ask, hanswer]
      rfl
    · simp only [ask, hanswer]
    · simp only [ask, hanswer]
      exact ⟨h.service_eq, h.held⟩
  | ok a =>
    obtain ⟨hstore, huses⟩ := Uses.keep (s := { s with store }) ⟨h.service_eq, h.held⟩ slot a
    refine .call call hcall ?_ ?_ ?_
    · simp only [ask, hanswer]
      rfl
    · simp only [ask, hanswer]
      exact hstore
    · simp only [ask, hanswer]
      exact huses

/-- A step that fails before it has called or sent anything changes nothing. -/
theorem effect_attempt (h : s.Uses c) (hcall : st.call? = none)
    {x : Except StepFailure (Answer × List Reused × Session)}
    (hx : ∀ answer reused next, x = .ok (answer, reused, next) → s.Effect c st (.ok answer) next) :
    s.Effect c st (s.attempt x).1 (s.attempt x).2.2 := by
  cases x with
  | error e => exact .aside c.service.parserState hcall rfl rfl h
  | ok made => exact hx made.1 made.2.1 made.2.2 rfl

theorem refusal_eq_ok {α : Type} {x : Except Error α} {a : α} (h : refusal x = .ok a) :
    x = .ok a := by
  cases x with
  | error e => simp [refusal] at h
  | ok b => exact congrArg _ (Except.ok.inj h)

theorem mem_values_of_computationAt {name : String} {computation : Computation}
    (h : s.computationAt name = .ok computation) : computation ∈ s.computations.values := by
  rw [computationAt] at h
  split at h
  next found hfound =>
    obtain rfl := Except.ok.inj h
    exact Slots.mem_values_of_get? hfound
  next => simp at h

/-- The inversion lemma: a step has an effect of one of the three kinds. -/
theorem effect_perform (h : s.Uses c) (st : Step) :
    s.Effect c st (s.perform st).1 (s.perform st).2.2 := by
  have haside {outcome : Except StepFailure Answer} {next : Session} (hcall : st.call? = none)
      (htree : treeOf outcome = none) (hstore : next.store = s.store)
      (hservice : next.service = s.service) (hheld : next.computations = s.computations) :
      s.Effect c st outcome next :=
    .aside c.service.parserState hcall htree hstore
      ⟨hservice.trans h.service_eq, by rw [hheld]; exact h.held⟩
  obtain ⟨store, service, snapshots, editSets, computations⟩ := s
  obtain rfl : service = c.service := h.service_eq
  cases st with
  | openDocument uri version text slot => exact effect_ask h rfl slot
  | change uri version changes slot => exact effect_ask h rfl slot
  | close uri => exact effect_ask h rfl none
  | latest uri slot => exact effect_ask h rfl slot
  | documentId uri => exact effect_ask h rfl none
  | storeIsEmpty => exact haside rfl rfl rfl rfl rfl
  | snapshot id uri text slot => exact haside rfl rfl rfl rfl rfl
  | apply source version changes slot =>
    refine effect_attempt h rfl ?_
    intro answer reused next hx
    obtain ⟨before, -, hx⟩ := bind_eq_ok_iff.mp hx
    obtain ⟨made, -, hx⟩ := bind_eq_ok_iff.mp hx
    cases hx
    cases slot <;> exact haside rfl rfl rfl rfl rfl
  | tree name =>
    refine effect_attempt h rfl ?_
    intro answer reused next hx
    obtain ⟨snapshot, -, hx⟩ := bind_eq_ok_iff.mp hx
    cases hx
    exact .request (.tree snapshot) rfl rfl rfl ⟨rfl, h.held⟩
  | compute name slot =>
    refine effect_attempt h rfl ?_
    intro answer reused next hx
    obtain ⟨snapshot, -, hx⟩ := bind_eq_ok_iff.mp hx
    cases hx
    refine .request (.compute snapshot) rfl rfl rfl ⟨rfl, ?_⟩
    intro computation hmem
    obtain rfl | hmem := Slots.mem_values_put hmem
    · exact ⟨snapshot, List.mem_append_right _ (List.mem_singleton_self _)⟩
    · obtain ⟨t, ht⟩ := h.held computation hmem
      exact ⟨t, List.mem_append_left _ ht⟩
  | inspect name =>
    refine effect_attempt h rfl ?_
    intro answer reused next hx
    obtain ⟨computation, -, hx⟩ := bind_eq_ok_iff.mp hx
    cases hx
    exact haside rfl rfl rfl rfl rfl
  | await name =>
    refine effect_attempt h rfl ?_
    intro answer reused next hx
    obtain ⟨computation, hname, hx⟩ := bind_eq_ok_iff.mp hx
    cases hx
    obtain ⟨snapshot, hmem⟩ := h.held computation (mem_values_of_computationAt hname)
    obtain ⟨handle, hhandle⟩ := List.mem_iff_getElem?.mp hmem
    refine .request (.await handle) rfl ?_ rfl ?_
    · simp only [Client.answer, hhandle]
      rfl
    · simp only [Client.answer, hhandle]
      exact ⟨rfl, h.held⟩
  | register before after source =>
    refine effect_attempt h rfl ?_
    intro answer reused next hx
    obtain ⟨before, -, hx⟩ := bind_eq_ok_iff.mp hx
    obtain ⟨after, -, hx⟩ := bind_eq_ok_iff.mp hx
    obtain ⟨edits, -, hx⟩ := bind_eq_ok_iff.mp hx
    obtain ⟨⟨outcome, reports, service⟩, hregister, hx⟩ := bind_eq_ok_iff.mp hx
    cases hx
    refine .request (.register before after edits) rfl ?_ rfl ?_
    · simp only [Client.answer, refusal_eq_ok hregister]
      rfl
    · simp only [Client.answer, refusal_eq_ok hregister]
      exact ⟨rfl, h.held⟩
  | clear document => exact .request (.clear document) rfl rfl rfl ⟨rfl, h.held⟩
  | isCached id => exact haside rfl rfl rfl rfl rfl
  | observe on => exact .request (.observe on) rfl rfl rfl ⟨rfl, h.held⟩
  | failNext kind => exact .aside (c.service.parserState.plan kind) rfl rfl rfl ⟨rfl, h.held⟩
  | shutdown => exact .request .shutdown rfl rfl rfl ⟨rfl, h.held⟩
  | describe => exact haside rfl rfl rfl rfl rfl

/-- What has come out of the steps that call the store. -/
def storeOutcomes (s : Session) (steps : List Step) : List (Except StepFailure Answer) :=
  ((steps.zip (s.run steps)).filter fun e => e.1.call?.isSome).map fun e => e.2.outcome

theorem storeOutcomes_cons (s : Session) (st : Step) (steps : List Step) :
    s.storeOutcomes (st :: steps) =
      (if st.call?.isSome then [(s.step st).1.outcome] else []) ++
        (s.step st).2.storeOutcomes steps := by
  rw [storeOutcomes, run, List.zip_cons_cons, List.filter_cons]
  split <;> rfl

/-- The run lemma for the store: it gets the calls that the steps make, one after the other. -/
theorem store_after (h : s.Uses c) (steps : List Step) :
    (s.after steps).store = s.store.after (steps.filterMap Step.call?) ∧
      s.storeOutcomes steps = (s.store.answers (steps.filterMap Step.call?)).map outcomeOf := by
  induction steps generalizing s c with
  | nil => exact ⟨rfl, rfl⟩
  | cons st steps ih =>
    have heffect := effect_perform h st
    obtain ⟨client, huses⟩ := heffect.uses
    obtain ⟨hafter, hanswers⟩ := ih huses
    have hstep : s.after (st :: steps) = (s.perform st).2.2.after steps := rfl
    rw [storeOutcomes_cons, List.filterMap_cons, hstep]
    obtain ⟨call, hcall, houtcome, hstore⟩ | ⟨hcall, hstore⟩ := heffect.store_cases
    · rw [hstore] at hafter hanswers
      rw [hcall]
      refine ⟨hafter, ?_⟩
      rw [Store.answers, List.map_cons, ← houtcome, ← hanswers]
      rfl
    · rw [hstore] at hafter hanswers
      rw [hcall]
      exact ⟨hafter, hanswers⟩

/-- The run lemma for the service: it gets the requests of a client, and its parser fails the calls
that it would have failed if it had known from the start. -/
theorem uses_after (h : s.Uses c) (steps : List Step) :
    ∃ script requests last, (s.after steps).Uses last ∧
      Client.after .scripted (c.withState script) requests = last.withState [] ∧
      (Client.run .scripted (c.withState script) requests).map Prod.snd =
        (s.run steps).filterMap fun report => treeOf report.outcome := by
  induction steps generalizing s c with
  | nil => exact ⟨[], [], c, h, rfl, rfl⟩
  | cons st steps ih =>
    have hout : (s.step st).1.outcome = (s.perform st).1 := rfl
    have hnext : (s.step st).2 = (s.perform st).2.2 := rfl
    rw [run, List.filterMap_cons, hout, hnext]
    obtain ⟨call, -, houtcome, -, huses⟩ | ⟨request, -, htree, -, huses⟩ |
      ⟨state, -, htree, -, huses⟩ := effect_perform h st
    · rw [houtcome, treeOf_outcomeOf]
      exact ih huses
    · obtain ⟨script, requests, last, hlast, hafter, hrun⟩ := ih huses
      obtain ⟨before, -, hanswer⟩ :=
        Client.answer_standsIn (Parser.standsIn_failing script) c request
      refine ⟨before, request :: requests, last, hlast, ?_, ?_⟩
      · refine Eq.trans ?_ hafter
        exact congrArg (fun r => Client.after .scripted r.2 requests) hanswer
      · rw [Client.run, hanswer, List.map_append, htree]
        cases hresult : (c.answer .failing request).1 with
        | none => exact hrun
        | some result => exact congrArg (result.2 :: ·) hrun
    · rw [htree]
      exact ih (c := c.withState state) huses

/-- What a report lists are some of the keys of the cache. -/
theorem cachedSnapshots_proper {capacity : Nat} (h : s.service.cache.Proper capacity) :
    s.cachedSnapshots.length ≤ max capacity 1 ∧
      (s.cachedSnapshots.map SnapshotId.document).Nodup := by
  have hperm := List.mergeSort_perm ((s.snapshots.values.map Snapshot.id).eraseDups.filter
    s.service.isCached) SnapshotId.listedBefore
  have hnodup : s.cachedSnapshots.Nodup :=
    hperm.nodup_iff.mpr ((nodup_eraseDups _).filter _)
  have hsub : s.cachedSnapshots ⊆ s.service.cache.keys := by
    intro id hid
    exact RecencyCache.mem_keys_iff.mpr (List.mem_filter.mp (hperm.mem_iff.mp hid)).2
  constructor
  · have hlength := (List.subperm_of_subset hnodup hsub).length_le
    have hsize := h.size_le
    rw [VersionedCache.size_eq] at hsize
    exact Nat.le_trans hlength hsize
  · refine (List.nodup_map_iff_inj_on hnodup).mpr ?_
    intro a ha b hb hdocument
    exact h.eq_of_document_eq (hsub ha) (hsub hb) hdocument

/-- A session that is started, whatever its steps: what the steps that call the store give is what a
catalog answers to their calls, and the trees are those that a client gets for some requests if the
calls of its parser fail that some list says. The counters and what is cached are those of that
client's service too, so that a report never lists more snapshots than there is room for, nor two
of one document. -/
theorem run_follows {config : Config} (hstart : start config = .ok s) (steps : List Step) :
    let last := s.after steps
    let calls := steps.filterMap Step.call?
    (last.store.Refines (Catalog.empty.after calls) ∧
      s.storeOutcomes steps = (Catalog.empty.answers calls).map outcomeOf) ∧
    (∃ script requests handles,
      let first : Client (List Bool) := ⟨.start config script, []⟩
      Client.after .scripted first requests = ⟨last.service.withState [], handles⟩ ∧
      (Client.run .scripted first requests).map Prod.snd =
        (s.run steps).filterMap fun report => treeOf report.outcome) ∧
    last.cachedSnapshots.length ≤ max config.cacheCapacity 1 ∧
      (last.cachedSnapshots.map SnapshotId.document).Nodup := by
  intro last calls
  obtain ⟨service, hcreate, rfl⟩ : ∃ service, Service.create config ⟨false, false⟩ = .ok service ∧
      ofService service = s := by
    rw [start] at hstart
    cases hcreate : Service.create config (⟨false, false⟩ : Parser.PlannedFailures) with
    | error f => simp [hcreate, Except.map] at hstart
    | ok service => exact ⟨service, rfl, by simpa [hcreate, Except.map] using hstart⟩
  obtain ⟨-, rfl⟩ := Service.create_eq_ok_iff.mp hcreate
  have huses : (ofService (.start config ⟨false, false⟩)).Uses ⟨.start config ⟨false, false⟩, []⟩ :=
    ⟨rfl, by simp [ofService, Slots.values, Slots.empty]⟩
  obtain ⟨hstore, houtcomes⟩ := store_after huses steps
  obtain ⟨hanswers, hrefines⟩ := Store.refines_empty.answers_eq calls
  obtain ⟨script, requests, client, hlast, hafter, hrun⟩ := uses_after huses steps
  have hservice : last.service = client.service := hlast.service_eq
  have hclient : Client.after .scripted ⟨.start config script, []⟩ requests =
      ⟨last.service.withState [], client.handles⟩ := by
    rw [hservice]
    exact hafter
  have hproper : last.service.cache.Proper config.cacheCapacity := by
    have hkept : (Client.after .scripted (⟨.start config script, []⟩ : Client (List Bool))
        requests).service.cache.Proper config.cacheCapacity :=
      Client.proper_after (VersionedCache.proper_empty config.cacheCapacity) requests
    rwa [hclient] at hkept
  refine ⟨⟨?_, ?_⟩, ⟨script, requests, client.handles, hclient, hrun⟩,
    cachedSnapshots_proper hproper⟩
  · rw [hstore]
    exact hrefines
  · rw [houtcomes]
    exact congrArg (List.map outcomeOf) hanswers

end Session

end IncrementalSyntax
