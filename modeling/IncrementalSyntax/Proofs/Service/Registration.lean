import IncrementalSyntax.Proofs.Document.Catalog
import IncrementalSyntax.Proofs.Service.Starts

/-!
Edits that are registered. What is refused is refused for what the edit says, before the service is
looked at, and a service without a base for the edit stays as it is. A base that is found is the
only computation of its document (`VersionedCache.Proper`), so the new one takes its place and no
other has to leave (`entries_replace`). A change that a store has made is never refused: it leads to
a later version of the same document, and its edits can be applied to the text before it
(`Refines.fits_of_edited`).
-/
namespace IncrementalSyntax

namespace VersionedCache

variable {α : Type} {c : VersionedCache α} {before after : SnapshotId} {base : α} {capacity : Nat}

/-- A value that is found leaves no value of its document among the others. -/
theorem Proper.document_ne_of_mem_without (h : c.Proper capacity) (hbefore : before ∈ c.keys)
    {e : SnapshotId × α} (he : e ∈ c.entries.without before) :
    e.1.document ≠ before.document := by
  obtain ⟨hmem, hne⟩ := List.mem_filter.mp he
  have hkey : e.1 ∈ c.keys := List.mem_map.mpr ⟨e, hmem, rfl⟩
  intro hdocument
  simp [h.eq_of_document_eq hkey hbefore hdocument] at hne

theorem Proper.length_without (h : c.Proper capacity) (hbase : (c.get? before).1 = some base) :
    (c.entries.without before).length + 1 = c.size := by
  have hlength := (keys_get?_perm h.distinct.of_map before).length_eq
  rw [keys_get?_of_some hbase, List.length_append, List.length_singleton, ← size_eq] at hlength
  rw [← hlength, ← List.length_map (f := Prod.fst), RecencyCache.keys_without]
  rfl

/-- A later version that is entered after an older one has been found takes the place of that one:
the other entries and their order stay, and there is room for all of them. -/
theorem Proper.entries_replace (h : c.Proper capacity) (hbase : (c.get? before).1 = some base)
    (hprecedes : before.precedes after = true) (a : α) :
    ((c.get? before).2.insert after a).entries.entries =
      c.entries.without before ++ [(after, a)] := by
  obtain ⟨hdocument, hversion⟩ := SnapshotId.precedes_iff.mp hprecedes
  have hbefore := mem_keys_of_get? hbase
  have hothers : ∀ e ∈ c.entries.without before, e.1.document ≠ after.document := by
    rw [← hdocument]
    exact fun e he => h.document_ne_of_mem_without hbefore he
  have hfound : (c.get? before).2 =
      ⟨{ c.entries with entries := c.entries.without before ++ [(before, base)] }⟩ :=
    congrArg VersionedCache.mk (RecencyCache.get?_of_some hbase)
  -- of the entries only the one that was found is superseded
  have hcurrent : ((c.entries.without before ++ [(before, base)]).filter
      fun e => !e.1.isSupersededBy after) = c.entries.without before := by
    have hlast : before.isSupersededBy after = true :=
      SnapshotId.isSupersededBy_iff.mpr ⟨hdocument, Int.le_of_lt hversion⟩
    rw [List.filter_append, List.filter_eq_self.mpr, List.filter_singleton, hlast]
    · simp
    · intro e he
      rw [Bool.not_eq_true', ← Bool.not_eq_true, SnapshotId.isSupersededBy_iff]
      exact fun hsuperseded => hothers e he hsuperseded.1
  have hwithout : ((c.entries.without before).filter fun e => decide (e.1 ≠ after)) =
      c.entries.without before := by
    refine List.filter_eq_self.mpr fun e he => decide_eq_true ?_
    exact fun heq => hothers e he (congrArg SnapshotId.document heq)
  have hroom : (c.entries.without before).length + 1 - c.entries.capacity = 0 := by
    have hsize := h.size_le
    have hcapacity : c.entries.capacity = max capacity 1 := h.capacity_eq
    have hlength := h.length_without hbase
    omega
  rw [hfound]
  simp only [VersionedCache.insert, RecencyCache.eraseAll, RecencyCache.insert, hcurrent]
  simp only [RecencyCache.without] at hwithout hroom ⊢
  simp only [hwithout, hroom, List.drop_zero]

end VersionedCache

namespace Service

variable {σ : Type} {parser : Parser σ} {s : Service σ} {before after : Snapshot} {edits : EditSet}

def checkEdit (before after : Snapshot) (edits : EditSet) : Except Error Unit :=
  if before.id.document ≠ after.id.document then
    .error (.documentMismatch before.id.document after.id.document)
  else if !before.id.precedes after.id then .error (.outOfOrderEdit before.id after.id)
  else edits.checkFits before.text

/-- What becomes of an edit that is not refused. -/
def enterEdit (parser : Parser σ) (s : Service σ) (before after : Snapshot) (edits : EditSet) :
    Registration × List Reused × Service σ :=
  match s.cache.get? before.id with
  | (none, _) => (.noBase, [], s)
  | (some base, cache) =>
    let started := startIncremental parser { s with cache } base after edits
    (.incremental, started.2.1,
      { started.2.2 with cache := started.2.2.cache.insert after.id started.1 })

/-- All that can be refused is refused before the service is looked at. -/
theorem registerEdit_eq (parser : Parser σ) (s : Service σ) (before after : Snapshot)
    (edits : EditSet) :
    s.registerEdit parser before after edits =
      (checkEdit before after edits).map fun _ => s.enterEdit parser before after edits := by
  rw [registerEdit, checkEdit, enterEdit]
  by_cases hdocument : before.id.document = after.id.document
  · cases before.id.precedes after.id with
    | false => simp [hdocument, throw, throwThe, MonadExceptOf.throw, Except.map]
    | true =>
      cases edits.checkFits before.text with
      | error e => simp [hdocument, Except.map]
      | ok _ =>
        rcases s.cache.get? before.id with ⟨_ | base, cache⟩ <;> simp [hdocument, Except.map]
  · simp [hdocument, throw, throwThe, MonadExceptOf.throw, Except.map]

theorem registerEdit_of_error {e : Error} (h : s.registerEdit parser before after edits = .error e)
    (t : Service σ) : t.registerEdit parser before after edits = .error e := by
  rw [registerEdit_eq] at h ⊢
  cases hcheck : checkEdit before after edits with
  | error e' => simpa [hcheck, Except.map] using h
  | ok _ => simp [hcheck, Except.map] at h

theorem eq_of_noBase {reports : List Reused} {t : Service σ}
    (h : s.registerEdit parser before after edits = .ok (.noBase, reports, t)) : t = s := by
  rcases registerEdit_cases h with heq | ⟨base, cache, -, heq⟩
  · exact congrArg (fun answer => answer.2.2) heq
  · simp at heq

/-- An edit with a base enters one computation in the place of another. -/
theorem entries_of_incremental {capacity : Nat} (hs : s.cache.Proper capacity)
    {reports : List Reused} {t : Service σ}
    (h : s.registerEdit parser before after edits = .ok (.incremental, reports, t)) :
    (∃ base, (s.cache.get? before.id).1 = some base) ∧
      ∃ computation, t.cache.entries.entries =
        s.cache.entries.without before.id ++ [(after.id, computation)] := by
  have hprecedes := precedes_of_registerEdit h
  rcases registerEdit_cases h with heq | ⟨base, cache, hget, heq⟩
  · simp at heq
  · have hbase : (s.cache.get? before.id).1 = some base := congrArg Prod.fst hget
    refine ⟨⟨base, hbase⟩, (startIncremental parser { s with cache } base after edits).1, ?_⟩
    obtain ⟨-, heq⟩ := Prod.mk.inj heq
    obtain ⟨-, rfl⟩ := Prod.mk.inj heq
    rw [← hs.entries_replace hbase hprecedes, hget]
    simp only [cache_startIncremental]

/-- An edit that fits and leads to a later version is accepted. Whether a parse is started depends
on whether there is a base for it. -/
theorem registerEdit_of_fits (parser : Parser σ) (s : Service σ)
    (hprecedes : before.id.precedes after.id = true) (hfits : edits.checkFits before.text = .ok ()) :
    ∃ reports next, s.registerEdit parser before after edits =
      .ok (if s.isCached before.id then .incremental else .noBase, reports, next) := by
  obtain ⟨hdocument, -⟩ := SnapshotId.precedes_iff.mp hprecedes
  have hcheck : checkEdit before after edits = .ok () := by
    simp [checkEdit, hdocument, hprecedes, hfits]
  have hcached : s.isCached before.id = (s.cache.get? before.id).1.isSome := by
    rw [VersionedCache.get?, RecencyCache.get?_fst]
    rfl
  rw [registerEdit_eq, hcheck, hcached, enterEdit]
  rcases s.cache.get? before.id with ⟨_ | base, cache⟩
  · exact ⟨_, _, rfl⟩
  · exact ⟨_, _, rfl⟩

end Service

namespace Store

variable {s : Store} {c : Catalog} {uri : String} {version : Int} {changes : List ContentChange}
  {d : EditedDocument}

theorem applyChanges_of_edited
    (hedited : (s.answer (.change uri version changes)).1 = .ok (.edited d)) :
    d.before.applyChanges version changes = .ok (d.after, d.edits) := by
  rw [answer] at hedited
  split at hedited
  next edited next hchange =>
    obtain rfl := StoreAnswer.edited.inj (Except.ok.inj hedited)
    obtain ⟨before, -, hchange⟩ := bind_eq_ok_iff.mp hchange
    obtain ⟨⟨after, edits⟩, happly, hchange⟩ := bind_eq_ok_iff.mp hchange
    obtain ⟨rfl, -⟩ := Prod.mk.inj (Except.ok.inj hchange)
    exact happly
  next => simp at hedited

/-- A change that is made leads to a later version of its document, and its edits fit the text
before it. -/
theorem Refines.fits_of_edited (h : s.Refines c)
    (hedited : (s.answer (.change uri version changes)).1 = .ok (.edited d)) :
    d.before.id.precedes d.after.id = true ∧ d.edits.checkFits d.before.text = .ok () := by
  have happly := applyChanges_of_edited hedited
  obtain ⟨hversion, hid, -⟩ := Snapshot.applyChanges_eq_ok happly
  refine ⟨?_, ?_⟩
  · rw [hid]
    exact SnapshotId.precedes_iff.mpr ⟨rfl, hversion⟩
  · obtain ⟨hlatest, -⟩ := h.answer_of_edited hedited
    rw [h.latest?_eq] at hlatest
    obtain ⟨e, -, hbefore⟩ := Option.map_eq_some_iff.mp hlatest
    have hmade : d.before.Made := hbefore ▸ .ofText ..
    exact EditSet.checkFits_of_apply (Snapshot.apply_of_applyChanges hmade happly)

end Store

namespace Client

variable {σ : Type} {parser : Parser σ} {c : Client σ}

/-- Whatever a store has been asked and whatever a service has, a change that the store makes is
accepted by the service, and starts a parse exactly if there is a computation for the snapshot
before it. That snapshot was the latest one of its URI, and the one after it now is. -/
theorem run_accepts_changes (parser : Parser σ) (config : Config) (state : σ)
    (requests : List Request) (calls : List StoreCall) (uri : String) (version : Int)
    (changes : List ContentChange) (d : EditedDocument)
    (hedited : ((Store.empty.after calls).answer (.change uri version changes)).1 =
      .ok (.edited d)) :
    let store := Store.empty.after calls
    let service := (after parser ⟨.start config state, []⟩ requests).service
    (∃ reports next, service.registerEdit parser d.before d.after d.edits =
      .ok (if service.isCached d.before.id then .incremental else .noBase, reports, next)) ∧
    store.latest? uri = some d.before ∧
      (store.answer (.change uri version changes)).2.latest? uri = some d.after := by
  intro store service
  obtain ⟨-, hrefines⟩ := Store.refines_empty.answers_eq calls
  obtain ⟨hprecedes, hfits⟩ := hrefines.fits_of_edited hedited
  obtain ⟨hbefore, hafter, -⟩ := hrefines.answer_of_edited hedited
  exact ⟨service.registerEdit_of_fits parser hprecedes hfits, hbefore, hafter⟩

/-- Changes of which the second one is of the whole text, with and without a base for them. -/
theorem run_accepts_changes_mixed :
    let calls : List StoreCall := [.openDocument "file:///a" 1 "aé\r\n😀b".toList]
    let changes : List ContentChange :=
      [.within ⟨⟨0, 1⟩, ⟨1, 2⟩⟩ "ü".toList, .whole "aüc\n".toList,
        .within ⟨⟨1, 0⟩, ⟨2, 0⟩⟩ "d".toList]
    let before : Snapshot := .ofText ⟨⟨0⟩, 1⟩ "file:///a" "aé\r\n😀b".toList
    let later : Snapshot := .ofText ⟨⟨0⟩, 2⟩ "file:///a" "aüc\nd".toList
    let edits : EditSet := ⟨[⟨⟨1, 10, by decide⟩, "üc\nd".toList⟩]⟩
    let kept := (after .standard ⟨.start ⟨1⟩ (), []⟩ [.compute before]).service
    let fresh : Service Unit := .start ⟨1⟩ ()
    ((Store.empty.after calls).answer (.change "file:///a" 2 changes)).1 =
        .ok (.edited ⟨before, later, edits⟩) ∧
      (∃ reports next, kept.registerEdit .standard before later edits =
        .ok (.incremental, reports, next)) ∧
      ∃ reports next, fresh.registerEdit .standard before later edits =
        .ok (.noBase, reports, next) := by
  intro calls changes before later edits kept fresh
  have hedited : ((Store.empty.after calls).answer (.change "file:///a" 2 changes)).1 =
      .ok (.edited ⟨before, later, edits⟩) := rfl
  have hkept : kept.isCached before.id = true := by decide +kernel
  have hfresh : fresh.isCached before.id = false := by decide +kernel
  obtain ⟨⟨reports, next, hincremental⟩, -⟩ := run_accepts_changes .standard ⟨1⟩ ()
    [.compute before] calls _ _ _ _ hedited
  obtain ⟨⟨reports', next', hnoBase⟩, -⟩ := run_accepts_changes .standard ⟨1⟩ () [] calls _ _ _ _
    hedited
  rw [if_pos hkept] at hincremental
  rw [if_neg (Bool.not_eq_true _ ▸ hfresh)] at hnoBase
  exact ⟨hedited, ⟨reports, next, hincremental⟩, reports', next', hnoBase⟩

theorem service_answer_register {before later : Snapshot} {edits : EditSet}
    {outcome : Registration} {reports : List Reused} {t : Service σ}
    (h : c.service.registerEdit parser before later edits = .ok (outcome, reports, t)) :
    (c.answer parser (.register before later edits)).2.service = t := by
  rw [answer, h]

/-- An edit leaves everything as it was, unless it is accepted and there is a computation for the
snapshot before it. Then the new computation takes the place of that one, as the most recent, and
the entries of all other documents stay what and where they are. -/
theorem run_register_frame (parser : Parser σ) (config : Config) (state : σ)
    (requests : List Request) (before later : Snapshot) (edits : EditSet) :
    let c := after parser ⟨.start config state, []⟩ requests
    let s := c.service
    let next := (c.answer parser (.register before later edits)).2.service
    (∀ e, s.registerEdit parser before later edits = .error e →
      next = s ∧ ∀ t : Service σ, t.registerEdit parser before later edits = .error e) ∧
    (∀ reports t, s.registerEdit parser before later edits = .ok (.noBase, reports, t) →
      next = s) ∧
    ∀ reports t, s.registerEdit parser before later edits = .ok (.incremental, reports, t) →
      before.id ∈ s.cache.keys ∧
      next.cache.keys = (s.cache.keys.filter fun k => k ≠ before.id) ++ [later.id] ∧
      next.cache.size = s.cache.size ∧
      (next.cache.entries.entries.filter fun e => e.1.document ≠ before.id.document) =
        s.cache.entries.entries.filter fun e => e.1.document ≠ before.id.document := by
  intro c s next
  have hproper : s.cache.Proper config.cacheCapacity :=
    proper_after (VersionedCache.proper_empty _) requests
  refine ⟨?_, ?_, ?_⟩
  · intro e herror
    have hnext : next = s := by simp only [next, answer, herror, s]
    exact ⟨hnext, Service.registerEdit_of_error herror⟩
  · intro reports t hregister
    exact (service_answer_register hregister).trans (Service.eq_of_noBase hregister)
  · intro reports t hregister
    obtain ⟨⟨base, hbase⟩, computation, hentries⟩ := Service.entries_of_incremental hproper hregister
    obtain ⟨hdocument, -⟩ := SnapshotId.precedes_iff.mp (Service.precedes_of_registerEdit hregister)
    have hnext : next = t := service_answer_register hregister
    have hlength := hproper.length_without hbase
    rw [← hnext] at hentries
    refine ⟨VersionedCache.mem_keys_of_get? hbase, ?_, ?_, ?_⟩
    · rw [VersionedCache.keys, RecencyCache.keys, hentries, List.map_append,
        RecencyCache.keys_without]
      rfl
    · rw [VersionedCache.size, RecencyCache.size, hentries, List.length_append,
        List.length_singleton, hlength]
    · rw [hentries, List.filter_append, RecencyCache.without, List.filter_filter]
      have hlast : decide (later.id.document ≠ before.id.document) = false := by simp [hdocument]
      rw [List.filter_singleton, hlast, cond_false, List.append_nil]
      refine List.filter_congr fun e _ => ?_
      by_cases he : e.1 = before.id
      · simp [he]
      · simp [he]

/-- An edit of the less recent of two documents, in a service that has room for no more. -/
theorem run_register_frame_full :
    let first := Snapshot.ofText ⟨⟨0⟩, 1⟩ "file:///a" "let a = 1".toList
    let other := Snapshot.ofText ⟨⟨1⟩, 1⟩ "file:///b" "let b = 1".toList
    let second := Snapshot.ofText ⟨⟨0⟩, 2⟩ "file:///a" "let a = 12".toList
    let edits : EditSet := ⟨[.insert 9 "2".toList]⟩
    let c : Client Unit := after .standard ⟨.start ⟨2⟩ (), []⟩ [.compute first, .compute other]
    let next := (c.answer .standard (.register first second edits)).2.service
    c.service.cache.keys = [first.id, other.id] ∧ next.cache.keys = [other.id, second.id] ∧
      next.cache.size = c.service.cache.size := by
  intro first other second edits
  obtain ⟨-, -, hincremental⟩ := run_register_frame .standard ⟨2⟩ ()
    [.compute first, .compute other] first second edits
  generalize hc : after .standard _ [.compute first, .compute other] = c at hincremental ⊢
  have hkeys : c.service.cache.keys = [first.id, other.id] := by
    rw [← hc]
    decide +kernel
  have hcached : c.service.isCached first.id = true := by
    rw [← hc]
    decide +kernel
  have hprecedes : first.id.precedes second.id = true := by decide
  have hfits : edits.checkFits first.text = .ok () := by decide
  obtain ⟨reports, t, hregister⟩ := c.service.registerEdit_of_fits .standard hprecedes hfits
  rw [if_pos hcached] at hregister
  obtain ⟨-, hnext, hsize, -⟩ := hincremental reports t hregister
  rw [hkeys] at hnext
  exact ⟨hkeys, hnext.trans (by decide), hsize⟩

end Client

end IncrementalSyntax
