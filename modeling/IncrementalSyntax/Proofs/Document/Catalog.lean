import Mathlib.Data.List.Nodup
import IncrementalSyntax.Document.Store
import IncrementalSyntax.Proofs.Document.Changes
import IncrementalSyntax.Proofs.Document.Registry

/-!
The store against a plain map. A catalog lists the URIs in the order in which they were first
opened, without repetition, and maps each URI that is open to a version and a text. Numbers,
snapshots and line indexes are not kept in it: the number of a URI is its place in the list, and a
snapshot is made from version and text when it is asked for. `Refines` relates a store to a catalog,
`Refines.agree` is one square per call, and `run_refines` states for whole runs that the store
cannot be told from the catalog, with what follows from that.
-/
namespace IncrementalSyntax

namespace Store

def answers (s : Store) : List StoreCall → List (Except Failure StoreAnswer)
  | [] => []
  | call :: calls => (s.answer call).1 :: answers (s.answer call).2 calls

def after (s : Store) (calls : List StoreCall) : Store :=
  calls.foldl (fun s call => (s.answer call).2) s

/-- The version that a call changes the document of a URI to, if it succeeds in that. -/
def changedBy (uri : String) (s : Store) (call : StoreCall) : Option Int :=
  match call, (s.answer call).1 with
  | .change u version _, .ok _ => if u = uri then some version else none
  | _, _ => none

/-- The versions that calls change the document of a URI to, one after the other. -/
def versionsOf (uri : String) (s : Store) : List StoreCall → List Int
  | [] => []
  | call :: calls => (s.changedBy uri call).toList ++ versionsOf uri (s.answer call).2 calls

end Store

/-- The URIs that have been opened, in the order in which they first were, and the version and the
text of each that is open. -/
structure Catalog where
  uris : List String
  entry : String → Option (Int × Text)

namespace Catalog

def empty : Catalog := ⟨[], fun _ => none⟩

/-- The number of a URI is its place in the list. -/
def documentOf (c : Catalog) (uri : String) : DocumentId := ⟨c.uris.idxOf uri⟩

/-- The snapshot that version and text of a URI make. -/
def snapshot? (c : Catalog) (uri : String) : Option Snapshot :=
  (c.entry uri).map fun e => .ofText ⟨c.documentOf uri, e.1⟩ uri e.2

/-- Lists a URI, unless it is listed. -/
def enter (c : Catalog) (uri : String) : Catalog :=
  if uri ∈ c.uris then c else { c with uris := c.uris ++ [uri] }

def put (c : Catalog) (uri : String) (e : Option (Int × Text)) : Catalog :=
  { c with entry := fun u => if u = uri then e else c.entry u }

def answer (c : Catalog) : StoreCall → Except Failure StoreAnswer × Catalog
  | .openDocument uri version text =>
    match c.entry uri with
    | some _ => (.error (.refused (.documentAlreadyOpen uri)), c)
    | none =>
      let next := (c.enter uri).put uri (some (version, text))
      (.ok (.snapshot (next.snapshot? uri)), next)
  | .change uri version changes =>
    match c.snapshot? uri with
    | none => (.error (.refused (.documentNotOpen uri)), c)
    | some before =>
      match before.applyChanges version changes with
      | .ok (after, edits) =>
        (.ok (.edited ⟨before, after, edits⟩), c.put uri (some (version, after.text)))
      | .error f => (.error f, c)
  | .close uri =>
    match c.entry uri with
    | some _ => (.ok (.document (c.documentOf uri)), c.put uri none)
    | none => (.error (.refused (.documentNotOpen uri)), c)
  | .latest uri => (.ok (.snapshot (c.snapshot? uri)), c)
  | .documentId uri =>
    if uri ∈ c.uris then (.ok (.document (c.documentOf uri)), c)
    else (.error (.refused (.documentNotOpen uri)), c)

def answers (c : Catalog) : List StoreCall → List (Except Failure StoreAnswer)
  | [] => []
  | call :: calls => (c.answer call).1 :: answers (c.answer call).2 calls

def after (c : Catalog) (calls : List StoreCall) : Catalog :=
  calls.foldl (fun c call => (c.answer call).2) c

@[simp] theorem uris_put (c : Catalog) (uri : String) (e : Option (Int × Text)) :
    (c.put uri e).uris = c.uris := rfl

@[simp] theorem entry_put_self (c : Catalog) (uri : String) (e : Option (Int × Text)) :
    (c.put uri e).entry uri = e := if_pos rfl

theorem entry_put_of_ne (c : Catalog) {u uri : String} (e : Option (Int × Text)) (h : u ≠ uri) :
    (c.put uri e).entry u = c.entry u := if_neg h

@[simp] theorem entry_enter (c : Catalog) (uri : String) : (c.enter uri).entry = c.entry := by
  rw [enter]
  split <;> rfl

theorem uris_enter_of_mem {c : Catalog} {uri : String} (h : uri ∈ c.uris) :
    (c.enter uri).uris = c.uris := by rw [enter, if_pos h]

theorem uris_enter_of_not_mem {c : Catalog} {uri : String} (h : uri ∉ c.uris) :
    (c.enter uri).uris = c.uris ++ [uri] := by rw [enter, if_neg h]

theorem documentOf_enter {c : Catalog} {u : String} (uri : String) (h : u ∈ c.uris) :
    (c.enter uri).documentOf u = c.documentOf u := by
  by_cases hmem : uri ∈ c.uris
  · simp [documentOf, uris_enter_of_mem hmem]
  · simp [documentOf, uris_enter_of_not_mem hmem, List.idxOf_append_of_mem h]

@[simp] theorem snapshot?_eq_none_iff {c : Catalog} {uri : String} :
    c.snapshot? uri = none ↔ c.entry uri = none := Option.map_eq_none_iff

end Catalog

/-- Changes of a snapshot that has the index of its text lead to one that has it too. -/
theorem Snapshot.eq_ofText_of_applyChanges {id : SnapshotId} {uri : String} {text : Text}
    {version : Int} {changes : List ContentChange} {next : Snapshot} {edits : EditSet}
    (h : (Snapshot.ofText id uri text).applyChanges version changes = .ok (next, edits)) :
    next = .ofText ⟨id.document, version⟩ uri next.text := by
  obtain ⟨-, hid, huri, -⟩ := applyChanges_eq_ok h
  have hindex := ((Made.ofText id uri text).changed h).lineIndex_eq
  obtain ⟨nextId, nextUri, nextText, nextIndex⟩ := next
  obtain rfl : nextId = ⟨id.document, version⟩ := hid
  obtain rfl : nextUri = uri := huri
  obtain rfl : nextIndex = .ofText nextText := hindex
  rfl

namespace Store

/-- Without the snapshots of one document those of all others are still found. -/
theorem find?_others (s : Store) (d d' : DocumentId) :
    ((s.others d).find? fun snapshot => snapshot.id.document = d') =
      if d' = d then none else s.snapshotOf? d' := by
  rw [others, List.find?_filter]
  by_cases hd : d' = d
  · rw [if_pos hd, List.find?_eq_none]
    intro snapshot _
    simp [hd]
  · rw [if_neg hd, snapshotOf?]
    congr 1
    funext snapshot
    by_cases hs : snapshot.id.document = d'
    · simp [hs, hd]
    · simp [hs]

/-- A document that is refused to be opened has been entered all the same. -/
theorem openDocument_of_error {s next : Store} {uri : String} {version : Int} {text : Text}
    {e : Error} (h : s.openDocument uri version text = (.error e, next)) :
    next = { s with registry := (s.registry.intern uri).2 } := by
  simp only [openDocument] at h
  split at h
  next => exact (Prod.mk.inj h).2.symm
  next => simp at h

/-- A change that is made is answered with the edited document. -/
theorem edited_of_answer_change {s : Store} {uri : String} {version : Int}
    {changes : List ContentChange} {a : StoreAnswer}
    (h : (s.answer (.change uri version changes)).1 = .ok a) : ∃ d, a = .edited d := by
  rw [answer] at h
  split at h
  next d _ _ => exact ⟨d, (Except.ok.inj h).symm⟩
  next => simp at h

theorem changedBy_of_ne {s : Store} {uri : String} {call : StoreCall} (h : uri ≠ call.uri) :
    s.changedBy uri call = none := by
  unfold changedBy
  split
  next u version _ _ _ => exact if_neg (Ne.symm h)
  next => rfl

/-- A store and a catalog that stand for the same documents: they list the same URIs, and the store
has for each number the snapshot that the catalog makes for the URI in that place. -/
structure Refines (s : Store) (c : Catalog) : Prop where
  coherent : s.registry.Coherent
  uris_eq : s.registry.uris = c.uris
  listed : ∀ uri, c.entry uri ≠ none → uri ∈ c.uris
  snapshotOf?_eq : ∀ d : DocumentId, s.snapshotOf? d = (c.uris[d.index]?).bind c.snapshot?

theorem refines_empty : empty.Refines .empty :=
  ⟨Registry.coherent_empty, rfl, by simp [Catalog.empty],
    by simp [snapshotOf?, empty, Catalog.empty]⟩

namespace Refines

variable {s : Store} {c : Catalog}

theorem distinct (h : s.Refines c) : c.uris.Nodup := h.uris_eq ▸ h.coherent.nodup

theorem snapshotOf?_documentOf (h : s.Refines c) {uri : String} (hmem : uri ∈ c.uris) :
    s.snapshotOf? (c.documentOf uri) = c.snapshot? uri := by
  rw [h.snapshotOf?_eq, Catalog.documentOf, List.getElem?_idxOf hmem, Option.bind_some]

theorem snapshot?_of_not_mem (h : s.Refines c) {uri : String} (hmem : uri ∉ c.uris) :
    c.snapshot? uri = none := by
  rw [Catalog.snapshot?_eq_none_iff]
  by_cases hentry : c.entry uri = none
  · exact hentry
  · exact absurd (h.listed uri hentry) hmem

theorem get?_eq (h : s.Refines c) (uri : String) :
    s.registry.get? uri = if uri ∈ c.uris then some (c.documentOf uri) else none := by
  by_cases hmem : uri ∈ c.uris
  · rw [if_pos hmem, h.coherent.get?_of_mem (h.uris_eq ▸ hmem), h.uris_eq, Catalog.documentOf]
  · rw [if_neg hmem, h.coherent.get?_of_not_mem (h.uris_eq ▸ hmem)]

theorem documentId_eq (h : s.Refines c) (uri : String) :
    s.documentId uri =
      if uri ∈ c.uris then .ok (c.documentOf uri) else .error (.documentNotOpen uri) := by
  rw [documentId, h.get?_eq]
  by_cases hmem : uri ∈ c.uris <;> simp [hmem]

theorem latest?_eq (h : s.Refines c) (uri : String) : s.latest? uri = c.snapshot? uri := by
  rw [latest?, h.get?_eq]
  by_cases hmem : uri ∈ c.uris
  · rw [if_pos hmem]
    exact h.snapshotOf?_documentOf hmem
  · rw [if_neg hmem, h.snapshot?_of_not_mem hmem]
    rfl

theorem current_of_some (h : s.Refines c) {uri : String} {snapshot : Snapshot}
    (hsnapshot : c.snapshot? uri = some snapshot) : s.current uri = .ok snapshot := by
  by_cases hmem : uri ∈ c.uris
  · rw [current, h.documentId_eq, if_pos hmem, ok_bind, h.snapshotOf?_documentOf hmem, hsnapshot]
  · rw [h.snapshot?_of_not_mem hmem] at hsnapshot
    simp at hsnapshot

theorem current_of_none (h : s.Refines c) {uri : String} (hnone : c.snapshot? uri = none) :
    s.current uri = .error (.documentNotOpen uri) := by
  by_cases hmem : uri ∈ c.uris
  · rw [current, h.documentId_eq, if_pos hmem, ok_bind, h.snapshotOf?_documentOf hmem, hnone]
  · rw [current, h.documentId_eq, if_neg hmem, error_bind]

/-- Snapshots that differ only for one document stand for a catalog that differs only for its
URI. -/
theorem put (h : s.Refines c) {uri : String} (hmem : uri ∈ c.uris) {latest : List Snapshot}
    {e : Option (Int × Text)}
    (hlatest : ∀ d : DocumentId, (latest.find? fun snapshot => snapshot.id.document = d) =
      if d = c.documentOf uri then (c.put uri e).snapshot? uri else s.snapshotOf? d) :
    Refines { s with latest } (c.put uri e) := by
  refine ⟨h.coherent, h.uris_eq, ?_, ?_⟩
  · intro u hu
    by_cases heq : u = uri
    · exact heq ▸ hmem
    · rw [Catalog.entry_put_of_ne c e heq] at hu
      exact h.listed u hu
  · intro d
    rw [snapshotOf?, hlatest d]
    by_cases hd : d = c.documentOf uri
    · rw [if_pos hd, hd, Catalog.documentOf, Catalog.uris_put, List.getElem?_idxOf hmem,
        Option.bind_some]
    · rw [if_neg hd, h.snapshotOf?_eq, Catalog.uris_put]
      cases hu : c.uris[d.index]? with
      | none => rfl
      | some u =>
        -- the URI in another place is another URI
        have hne : u ≠ uri := by
          rintro rfl
          obtain ⟨hlt, hget⟩ := List.getElem?_eq_some_iff.mp hu
          have hidx := h.distinct.idxOf_getElem d.index hlt
          rw [hget] at hidx
          exact hd (by rw [Catalog.documentOf, hidx])
        rw [Option.bind_some, Option.bind_some, Catalog.snapshot?, Catalog.snapshot?,
          Catalog.entry_put_of_ne c e hne]
        rfl

/-- Entering a URI lists it, in the last place if it is new. -/
theorem enter (h : s.Refines c) (uri : String) :
    Refines { s with registry := (s.registry.intern uri).2 } (c.enter uri) := by
  by_cases hmem : uri ∈ c.uris
  · rw [h.coherent.intern_of_mem (h.uris_eq ▸ hmem), Catalog.enter, if_pos hmem]
    exact h
  · have hentry := Catalog.snapshot?_eq_none_iff.mp (h.snapshot?_of_not_mem hmem)
    refine ⟨h.coherent.intern uri, ?_, ?_, ?_⟩
    · rw [h.coherent.intern_of_not_mem (h.uris_eq ▸ hmem), Catalog.uris_enter_of_not_mem hmem,
        h.uris_eq]
    · intro u hu
      rw [Catalog.entry_enter] at hu
      rw [Catalog.uris_enter_of_not_mem hmem]
      exact List.mem_append_left [uri] (h.listed u hu)
    · intro d
      have hsame := h.snapshotOf?_eq d
      rw [Catalog.uris_enter_of_not_mem hmem]
      by_cases hlt : d.index < c.uris.length
      · rw [List.getElem?_append_left hlt]
        refine hsame.trans ?_
        cases hu : c.uris[d.index]? with
        | none => rfl
        | some u =>
          rw [Option.bind_some, Option.bind_some, Catalog.snapshot?, Catalog.snapshot?,
            Catalog.entry_enter, Catalog.documentOf_enter uri (List.mem_of_getElem? hu)]
      · rw [List.getElem?_append_right (by omega)]
        rw [List.getElem?_eq_none (by omega)] at hsame
        refine hsame.trans ?_
        cases hu : [uri][d.index - c.uris.length]? with
        | none => rfl
        | some u =>
          obtain rfl := List.mem_singleton.mp (List.mem_of_getElem? hu)
          rw [Option.bind_some, Option.bind_none, Catalog.snapshot?, Catalog.entry_enter, hentry]
          rfl

theorem intern_eq (h : s.Refines c) (uri : String) :
    (s.registry.intern uri).1 = (c.enter uri).documentOf uri ∧ uri ∈ (c.enter uri).uris := by
  by_cases hmem : uri ∈ c.uris
  · rw [h.coherent.intern_of_mem (h.uris_eq ▸ hmem), Catalog.enter, if_pos hmem, h.uris_eq]
    exact ⟨rfl, hmem⟩
  · rw [h.coherent.intern_of_not_mem (h.uris_eq ▸ hmem), Catalog.documentOf,
      Catalog.uris_enter_of_not_mem hmem, List.idxOf_append_of_notMem hmem, h.uris_eq]
    simp

/-- A call has the same answer from the store as from the catalog, and what they are after it stands
for the same documents. -/
def Agree (s : Store) (c : Catalog) (call : StoreCall) : Prop :=
  (s.answer call).1 = (c.answer call).1 ∧ (s.answer call).2.Refines (c.answer call).2

theorem agree_openDocument (h : s.Refines c) (uri : String) (version : Int) (text : Text) :
    Agree s c (.openDocument uri version text) := by
  have henter := h.enter uri
  obtain ⟨hd, hmem⟩ := h.intern_eq uri
  have hfound : s.snapshotOf? ((c.enter uri).documentOf uri) = (c.enter uri).snapshot? uri :=
    henter.snapshotOf?_documentOf hmem
  rw [Catalog.snapshot?, Catalog.entry_enter] at hfound
  cases hentry : c.entry uri with
  | some e =>
    rw [hentry, Option.map_some] at hfound
    have hopen : s.openDocument uri version text =
        (.error (.documentAlreadyOpen uri), { s with registry := (s.registry.intern uri).2 }) := by
      simp only [openDocument, hd, hfound]
    have hlisted : uri ∈ c.uris := h.listed uri (by simp [hentry])
    rw [Catalog.enter, if_pos hlisted] at henter
    simp only [Agree, answer, hopen, Catalog.answer, hentry, true_and]
    exact henter
  | none =>
    rw [hentry, Option.map_none] at hfound
    have hopen : s.openDocument uri version text =
        (.ok (.ofText ⟨(c.enter uri).documentOf uri, version⟩ uri text),
          ⟨(s.registry.intern uri).2,
            s.latest ++ [.ofText ⟨(c.enter uri).documentOf uri, version⟩ uri text]⟩) := by
      simp only [openDocument, hd, hfound]
    simp only [Agree, answer, hopen, Catalog.answer, hentry]
    refine ⟨by simp [Catalog.snapshot?, Catalog.documentOf], henter.put hmem ?_⟩
    intro d
    rw [List.find?_append]
    by_cases hdd : d = (c.enter uri).documentOf uri
    · have hbefore : (s.latest.find? fun snapshot => snapshot.id.document = d) = none := by
        rw [hdd]
        exact hfound
      rw [if_pos hdd, hbefore]
      simp [hdd, Snapshot.ofText, Catalog.snapshot?, Catalog.documentOf]
    · have hlast : ([Snapshot.ofText ⟨(c.enter uri).documentOf uri, version⟩ uri text].find?
          fun snapshot => snapshot.id.document = d) = none := by
        simp [Snapshot.ofText, Ne.symm hdd]
      rw [if_neg hdd, hlast, Option.or_none]
      rfl

theorem agree_change (h : s.Refines c) (uri : String) (version : Int)
    (changes : List ContentChange) : Agree s c (.change uri version changes) := by
  cases hbefore : c.snapshot? uri with
  | none =>
    have hchange : s.change uri version changes = .error (.refused (.documentNotOpen uri)) := by
      simp only [change, h.current_of_none hbefore, Failure.ofRefusal_error, error_bind]
    simp only [Agree, answer, hchange, Catalog.answer, hbefore, true_and]
    exact h
  | some before =>
    cases happly : before.applyChanges version changes with
    | error f =>
      have hchange : s.change uri version changes = .error f := by
        simp only [change, h.current_of_some hbefore, Failure.ofRefusal_ok, ok_bind, happly,
          error_bind]
      simp only [Agree, answer, hchange, Catalog.answer, hbefore, happly, true_and]
      exact h
    | ok made =>
      obtain ⟨after, edits⟩ := made
      have hchange : s.change uri version changes =
          .ok (⟨before, after, edits⟩,
            { s with latest := s.others before.id.document ++ [after] }) := by
        simp only [change, h.current_of_some hbefore, Failure.ofRefusal_ok, ok_bind, happly,
          pure_eq_ok]
      simp only [Agree, answer, hchange, Catalog.answer, hbefore, happly, true_and]
      obtain ⟨e, hentry, rfl⟩ := Option.map_eq_some_iff.mp hbefore
      have hmem : uri ∈ c.uris := h.listed uri (by simp [hentry])
      have hafter := Snapshot.eq_ofText_of_applyChanges happly
      refine h.put hmem ?_
      intro d
      have hdocument : (Snapshot.ofText ⟨c.documentOf uri, e.1⟩ uri e.2).id.document =
          c.documentOf uri := rfl
      rw [List.find?_append, find?_others, hdocument]
      by_cases hd : d = c.documentOf uri
      · rw [if_pos hd, if_pos hd, Option.none_or, hafter]
        simp [hd, Snapshot.ofText, Catalog.snapshot?, Catalog.documentOf]
      · have hlast : ([after].find? fun snapshot => snapshot.id.document = d) = none := by
          rw [hafter]
          simp [Snapshot.ofText, Ne.symm hd]
        rw [if_neg hd, if_neg hd, hlast, Option.or_none]

theorem agree_close (h : s.Refines c) (uri : String) : Agree s c (.close uri) := by
  cases hentry : c.entry uri with
  | none =>
    have hnone := Catalog.snapshot?_eq_none_iff.mpr hentry
    have hclose : s.close uri = .error (.documentNotOpen uri) := by
      simp only [close, h.current_of_none hnone, error_bind]
    simp only [Agree, answer, hclose, Catalog.answer, hentry, true_and]
    exact h
  | some e =>
    have hsome : c.snapshot? uri = some (.ofText ⟨c.documentOf uri, e.1⟩ uri e.2) := by
      rw [Catalog.snapshot?, hentry, Option.map_some]
    have hclose : s.close uri =
        .ok (c.documentOf uri, { s with latest := s.others (c.documentOf uri) }) := by
      simp only [close, h.current_of_some hsome, ok_bind, pure_eq_ok, Snapshot.ofText]
    have hmem : uri ∈ c.uris := h.listed uri (by simp [hentry])
    simp only [Agree, answer, hclose, Catalog.answer, hentry, true_and]
    refine h.put hmem ?_
    intro d
    rw [find?_others, Catalog.snapshot?, Catalog.entry_put_self, Option.map_none]

/-- The step lemma: a store and a catalog that stand for the same documents agree on every call. -/
theorem agree (h : s.Refines c) (call : StoreCall) : Agree s c call := by
  cases call with
  | openDocument uri version text => exact h.agree_openDocument uri version text
  | change uri version changes => exact h.agree_change uri version changes
  | close uri => exact h.agree_close uri
  | latest uri =>
    simp only [Agree, answer, Catalog.answer, h.latest?_eq, true_and]
    exact h
  | documentId uri =>
    rw [Agree, answer, Catalog.answer, h.documentId_eq]
    by_cases hmem : uri ∈ c.uris
    · rw [if_pos hmem, if_pos hmem]
      exact ⟨rfl, h⟩
    · rw [if_neg hmem, if_neg hmem]
      exact ⟨rfl, h⟩

theorem answers_eq (h : s.Refines c) (calls : List StoreCall) :
    s.answers calls = c.answers calls ∧ (s.after calls).Refines (c.after calls) := by
  induction calls generalizing s c with
  | nil => exact ⟨rfl, h⟩
  | cons call calls ih =>
    obtain ⟨hanswer, hnext⟩ := h.agree call
    obtain ⟨hanswers, hafter⟩ := ih hnext
    exact ⟨by rw [answers, Catalog.answers, hanswer, hanswers], hafter⟩

/-- A number belongs to the URI in its place and to no other. -/
theorem documentId_eq_ok_iff (h : s.Refines c) {uri : String} {d : DocumentId} :
    s.documentId uri = .ok d ↔ c.uris[d.index]? = some uri := by
  rw [h.documentId_eq]
  constructor
  · intro hd
    by_cases hmem : uri ∈ c.uris
    · rw [if_pos hmem] at hd
      obtain rfl := Except.ok.inj hd
      exact List.getElem?_idxOf hmem
    · simp [hmem] at hd
  · intro hget
    obtain ⟨hlt, heq⟩ := List.getElem?_eq_some_iff.mp hget
    have hidx := h.distinct.idxOf_getElem d.index hlt
    rw [heq] at hidx
    rw [if_pos (List.mem_of_getElem? hget), Catalog.documentOf, hidx]

/-- A call that is refused changes nothing. Only a URI that has been entered is refused to be
opened, so entering it again changes nothing either. -/
theorem answer_of_error (h : s.Refines c) {call : StoreCall} {f : Failure}
    (herror : (s.answer call).1 = .error f) : (s.answer call).2 = s := by
  cases call with
  | openDocument uri version text =>
    have hsame := (h.agree_openDocument uri version text).1
    rw [herror, Catalog.answer] at hsame
    rw [answer] at herror ⊢
    split at hsame
    next e hentry =>
      have hmem : uri ∈ s.registry.uris := h.uris_eq ▸ h.listed uri (by simp [hentry])
      cases hopen : s.openDocument uri version text with | mk opened next
      cases opened with
      | ok snapshot => simp [hopen] at herror
      | error e =>
        simp only [openDocument_of_error hopen, h.coherent.intern_of_mem hmem]
    next => simp at hsame
  | change uri version changes =>
    rw [answer] at herror ⊢
    split at herror
    next => simp at herror
    next => rfl
  | close uri =>
    rw [answer] at herror ⊢
    split at herror
    next => simp at herror
    next => rfl
  | latest uri => rfl
  | documentId uri => rfl

end Refines

end Store

namespace Catalog

variable {c : Catalog}

/-- No call takes a URI from the list or moves it. -/
theorem uris_answer (c : Catalog) (call : StoreCall) : c.uris <+: (c.answer call).2.uris := by
  cases call with
  | openDocument uri version text =>
    rw [answer]
    split
    next => exact List.prefix_rfl
    next =>
      by_cases hmem : uri ∈ c.uris
      · simp [uris_enter_of_mem hmem]
      · rw [uris_put, uris_enter_of_not_mem hmem]
        exact List.prefix_append c.uris [uri]
  | change uri version changes =>
    rw [answer]
    split
    next => exact List.prefix_rfl
    next => split <;> exact List.prefix_rfl
  | close uri =>
    rw [answer]
    split <;> exact List.prefix_rfl
  | latest uri => exact List.prefix_rfl
  | documentId uri =>
    rw [answer]
    split <;> exact List.prefix_rfl

theorem uris_after (c : Catalog) (calls : List StoreCall) : c.uris <+: (c.after calls).uris := by
  induction calls generalizing c with
  | nil => exact List.prefix_rfl
  | cons call calls ih => exact (c.uris_answer call).trans (ih (c.answer call).2)

/-- A call about one URI leaves the entries of all others. -/
theorem entry_answer_of_ne (c : Catalog) {call : StoreCall} {uri : String} (h : uri ≠ call.uri) :
    (c.answer call).2.entry uri = c.entry uri := by
  cases call with
  | openDocument u version text =>
    rw [answer]
    split
    next => rfl
    next =>
      refine (entry_put_of_ne _ _ h).trans ?_
      rw [entry_enter]
  | change u version changes =>
    rw [answer]
    split
    next => rfl
    next =>
      split
      next => exact entry_put_of_ne c _ h
      next => rfl
  | close u =>
    rw [answer]
    split
    next => exact entry_put_of_ne c _ h
    next => rfl
  | latest u => rfl
  | documentId u =>
    rw [answer]
    split <;> rfl

end Catalog

namespace Store

namespace Refines

variable {s : Store} {c : Catalog}

theorem latest?_answer_of_ne (h : s.Refines c) {call : StoreCall} {uri : String}
    (hne : uri ≠ call.uri) : (s.answer call).2.latest? uri = s.latest? uri := by
  rw [(h.agree call).2.latest?_eq, h.latest?_eq, Catalog.snapshot?, Catalog.snapshot?,
    c.entry_answer_of_ne hne]
  cases hentry : c.entry uri with
  | none => rfl
  | some e =>
    have hmem : uri ∈ c.uris := h.listed uri (by simp [hentry])
    obtain ⟨more, hmore⟩ := c.uris_answer call
    rw [Catalog.documentOf, ← hmore, List.idxOf_append_of_mem hmem]
    rfl

/-- A change that is made leads from the latest snapshot to a later one, whose text is what the
changes mean. -/
theorem answer_of_edited (h : s.Refines c) {uri : String} {version : Int}
    {changes : List ContentChange} {d : EditedDocument}
    (hedited : (s.answer (.change uri version changes)).1 = .ok (.edited d)) :
    s.latest? uri = some d.before ∧
      (s.answer (.change uri version changes)).2.latest? uri = some d.after ∧
      d.before.id.version < version ∧ d.after.id.version = version ∧
      ContentChange.MakeAll changes d.before.text d.after.text := by
  obtain ⟨hanswer, hnext⟩ := h.agree_change uri version changes
  rw [hnext.latest?_eq, h.latest?_eq]
  rw [hedited, Catalog.answer] at hanswer
  cases hbefore : c.snapshot? uri with
  | none => simp [hbefore] at hanswer
  | some before =>
    cases happly : before.applyChanges version changes with
    | error f => simp [hbefore, happly] at hanswer
    | ok made =>
      obtain ⟨after, edits⟩ := made
      simp only [hbefore, happly, Except.ok.injEq, StoreAnswer.edited.injEq] at hanswer
      subst hanswer
      obtain ⟨e, hentry, rfl⟩ := Option.map_eq_some_iff.mp hbefore
      obtain ⟨hversion, hid, -, es, hrun, -⟩ := Snapshot.applyChanges_eq_ok happly
      have hafter := Snapshot.eq_ofText_of_applyChanges happly
      have hput : (c.answer (.change uri version changes)).2 =
          c.put uri (some (version, after.text)) := by
        simp only [Catalog.answer, hbefore, happly]
      refine ⟨rfl, ?_, hversion, by rw [hid], (Snapshot.runChanges_makes hrun).1⟩
      rw [hput, Catalog.snapshot?, Catalog.entry_put_self, Option.map_some, hafter]
      rfl

theorem answer_openDocument_of_open (h : s.Refines c) {uri : String} {a : Snapshot}
    (ha : s.latest? uri = some a) (version : Int) (text : Text) :
    (s.answer (.openDocument uri version text)).1 =
      .error (.refused (.documentAlreadyOpen uri)) := by
  rw [h.latest?_eq] at ha
  obtain ⟨e, hentry, -⟩ := Option.map_eq_some_iff.mp ha
  rw [(h.agree_openDocument uri version text).1, Catalog.answer, hentry]

/-- The step lemma for versions: while a document is open, a call leaves its snapshot or changes
it to a later version. -/
theorem latest?_answer (h : s.Refines c) {uri : String} {a : Snapshot}
    (ha : s.latest? uri = some a) {call : StoreCall} (hcall : call ≠ .close uri) :
    ∃ b, (s.answer call).2.latest? uri = some b ∧
      (s.changedBy uri call = none ∧ b = a ∨
        s.changedBy uri call = some b.id.version ∧ a.id.version < b.id.version) := by
  by_cases huri : uri = call.uri
  · cases call with
    | openDocument u version text =>
      obtain rfl : uri = u := huri
      have herror := h.answer_openDocument_of_open ha version text
      refine ⟨a, ?_, .inl ⟨rfl, rfl⟩⟩
      rw [h.answer_of_error herror]
      exact ha
    | change u version changes =>
      obtain rfl : uri = u := huri
      cases hanswer : (s.answer (.change uri version changes)).1 with
      | error f =>
        refine ⟨a, ?_, .inl ⟨by simp [changedBy, hanswer], rfl⟩⟩
        rw [h.answer_of_error hanswer]
        exact ha
      | ok answer =>
        obtain ⟨d, rfl⟩ := edited_of_answer_change hanswer
        obtain ⟨hbefore, hafter, hlt, hversion, -⟩ := h.answer_of_edited hanswer
        obtain rfl : d.before = a := Option.some.inj (hbefore.symm.trans ha)
        exact ⟨d.after, hafter, .inr ⟨by simp [changedBy, hanswer, hversion], by omega⟩⟩
    | close u => exact absurd (congrArg StoreCall.close huri.symm) hcall
    | latest u => exact ⟨a, ha, .inl ⟨rfl, rfl⟩⟩
    | documentId u => exact ⟨a, ha, .inl ⟨rfl, rfl⟩⟩
  · refine ⟨a, (h.latest?_answer_of_ne huri).trans ha, .inl ⟨?_, rfl⟩⟩
    exact changedBy_of_ne huri

/-- The run lemma for versions: until a document is closed, each change of it is to a later version
than the one before. -/
theorem pairwise_versionsOf (h : s.Refines c) {uri : String} {a : Snapshot}
    (ha : s.latest? uri = some a) {calls : List StoreCall} (hcalls : .close uri ∉ calls) :
    (a.id.version :: s.versionsOf uri calls).Pairwise (· < ·) := by
  induction calls generalizing s c a with
  | nil => exact List.pairwise_singleton _ _
  | cons call calls ih =>
    rw [List.mem_cons, not_or] at hcalls
    obtain ⟨b, hb, hstep⟩ := h.latest?_answer ha (Ne.symm hcalls.1)
    have hrest := ih (h.agree call).2 hb hcalls.2
    rw [versionsOf]
    obtain ⟨hnone, rfl⟩ | ⟨hsome, hlt⟩ := hstep
    · rw [hnone]
      exact hrest
    · rw [hsome]
      refine List.pairwise_cons.mpr ⟨?_, hrest⟩
      intro v hv
      obtain rfl | hv := List.mem_cons.mp hv
      · exact hlt
      · exact Int.lt_trans hlt ((List.pairwise_cons.mp hrest).1 v hv)

theorem documentId_after (h : s.Refines c) {uri : String} {d : DocumentId}
    (hd : s.documentId uri = .ok d) (calls : List StoreCall) :
    (s.after calls).documentId uri = .ok d := by
  rw [h.documentId_eq_ok_iff] at hd
  rw [(h.answers_eq calls).2.documentId_eq_ok_iff]
  obtain ⟨more, hmore⟩ := c.uris_after calls
  obtain ⟨hlt, -⟩ := List.getElem?_eq_some_iff.mp hd
  rw [← hmore, List.getElem?_append_left hlt, hd]

end Refines

/-- From the empty store, no calls tell a store from a catalog. The number of a URI is its place in
the list of all URIs, which has none twice, and is for good; the latest snapshot of a URI is the one
that its version and text make. A call that is refused changes nothing and a call about one URI
nothing of another. A change that is made leads to a later version and to the text that the changes
mean, so that versions increase for as long as a document is open. -/
theorem run_refines (calls : List StoreCall) :
    let s := empty.after calls
    let c := Catalog.empty.after calls
    empty.answers calls = Catalog.empty.answers calls ∧
    (s.registry.uris = c.uris ∧ c.uris.Nodup ∧
      ∀ uri d, s.registry.get? uri = some d ↔ s.registry.lookup? d = some uri) ∧
    (∀ uri d, s.documentId uri = .ok d ↔ c.uris[d.index]? = some uri) ∧
    (∀ uri d more, s.documentId uri = .ok d → (s.after more).documentId uri = .ok d) ∧
    (∀ uri, s.latest? uri =
      (c.entry uri).map fun e => .ofText ⟨⟨c.uris.idxOf uri⟩, e.1⟩ uri e.2) ∧
    (∀ call f, (s.answer call).1 = .error f → (s.answer call).2 = s) ∧
    (∀ call uri, uri ≠ call.uri → (s.answer call).2.latest? uri = s.latest? uri) ∧
    (∀ uri version changes d, (s.answer (.change uri version changes)).1 = .ok (.edited d) →
      s.latest? uri = some d.before ∧
      (s.answer (.change uri version changes)).2.latest? uri = some d.after ∧
      d.before.id.version < version ∧ d.after.id.version = version ∧
      ContentChange.MakeAll changes d.before.text d.after.text) ∧
    ∀ uri a more, s.latest? uri = some a → .close uri ∉ more →
      (a.id.version :: s.versionsOf uri more).Pairwise (· < ·) := by
  intro s c
  obtain ⟨hanswers, h⟩ := refines_empty.answers_eq calls
  refine ⟨hanswers, ⟨h.uris_eq, h.distinct, h.coherent⟩, fun uri d => h.documentId_eq_ok_iff,
    fun uri d more hd => h.documentId_after hd more, h.latest?_eq,
    fun call f herror => h.answer_of_error herror, fun call uri hne => h.latest?_answer_of_ne hne,
    fun uri version changes d hedited => h.answer_of_edited hedited,
    fun uri a more ha hmore => h.pairwise_versionsOf ha hmore⟩

/-- Two documents, the first of which is closed and opened again with an earlier version. It keeps
its number, a change to the version that it has is refused, and changes to later ones are made. -/
theorem run_refines_reopened :
    let calls : List StoreCall :=
      [.openDocument "file:///a" 7 "a".toList, .openDocument "file:///b" 1 "b".toList,
        .close "file:///a", .openDocument "file:///a" 3 "c".toList]
    let more : List StoreCall :=
      [.change "file:///a" 3 [], .change "file:///b" 2 [], .change "file:///a" 4 [],
        .openDocument "file:///a" 9 [], .change "file:///a" 6 [.whole "d".toList]]
    let s := empty.after calls
    let a : Snapshot := .ofText ⟨⟨0⟩, 3⟩ "file:///a" "c".toList
    s.documentId "file:///a" = .ok ⟨0⟩ ∧ s.latest? "file:///a" = some a ∧
      s.versionsOf "file:///a" more = [4, 6] ∧
      (a.id.version :: s.versionsOf "file:///a" more).Pairwise (· < ·) ∧
      (s.after more).documentId "file:///a" = .ok ⟨0⟩ := by
  intro calls more s a
  obtain ⟨-, -, -, hnumber, -, -, -, -, hversions⟩ := run_refines calls
  have hd : s.documentId "file:///a" = .ok ⟨0⟩ := by rfl
  have ha : s.latest? "file:///a" = some a := by rfl
  exact ⟨hd, ha, by decide +kernel, hversions _ _ more ha (by decide), hnumber _ _ more hd⟩

end Store

end IncrementalSyntax
