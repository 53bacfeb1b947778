import Mathlib.Data.List.Nodup
import IncrementalSyntax.Document.Registry

/-!
The two tables of a registry. They are changed together, and `Coherent` says that they can then be
read one against the other: a URI has a number exactly if the URI stands in the place of that
number. So no URI stands in two places, and the number of a URI is its place.
-/
namespace IncrementalSyntax

namespace Registry

variable {r : Registry} {uri : String} {d : DocumentId}

def Coherent (r : Registry) : Prop :=
  ∀ uri d, r.get? uri = some d ↔ r.lookup? d = some uri

theorem coherent_empty : empty.Coherent := by
  intro uri d
  simp [get?, lookup?, empty]

theorem intern_of_some (h : r.get? uri = some d) : r.intern uri = (d, r) := by
  rw [intern, h]

theorem intern_of_none (h : r.get? uri = none) :
    r.intern uri =
      (⟨r.uris.length⟩, ⟨(uri, ⟨r.uris.length⟩) :: r.ids, r.uris ++ [uri]⟩) := by
  rw [intern, h]

theorem get?_intern_of_none (h : r.get? uri = none) (u : String) :
    (r.intern uri).2.get? u = if u = uri then some ⟨r.uris.length⟩ else r.get? u := by
  rw [intern_of_none h, get?, List.lookup_cons]
  by_cases hu : u = uri
  · simp [hu]
  · have hne : (u == uri) = false := by simpa using hu
    rw [hne, if_neg hu, get?]

theorem lookup?_intern_of_none (h : r.get? uri = none) (d : DocumentId) :
    (r.intern uri).2.lookup? d = if d.index = r.uris.length then some uri else r.lookup? d := by
  rw [intern_of_none h, lookup?, lookup?, List.getElem?_append]
  by_cases hlast : d.index = r.uris.length
  · simp [hlast]
  · by_cases hlt : d.index < r.uris.length
    · rw [if_pos hlt, if_neg hlast]
    · rw [if_neg hlt, if_neg hlast, List.getElem?_eq_none (by simp; omega),
        List.getElem?_eq_none (by omega)]

namespace Coherent

theorem intern (h : r.Coherent) (uri : String) : (r.intern uri).2.Coherent := by
  cases hget : r.get? uri with
  | some d =>
    rw [intern_of_some hget]
    exact h
  | none =>
    intro u d
    rw [get?_intern_of_none hget, lookup?_intern_of_none hget]
    have hold := h u d
    by_cases hu : u = uri
    · -- the new URI stood nowhere before
      rw [hu, hget] at hold
      by_cases hd : d.index = r.uris.length
      · simp [hu, ← hd]
      · have hne : (⟨r.uris.length⟩ : DocumentId) ≠ d := fun heq => hd (heq ▸ rfl)
        simp [hu, hd, hne, ← hold]
    · by_cases hd : d.index = r.uris.length
      · -- there was nothing in the new place before
        have hnone : r.lookup? d = none := List.getElem?_eq_none (Nat.le_of_eq hd.symm)
        simp [hu, hd, Ne.symm hu, hold, hnone]
      · rw [if_neg hu, if_neg hd]
        exact hold

theorem get?_of_mem (h : r.Coherent) (hmem : uri ∈ r.uris) :
    r.get? uri = some ⟨r.uris.idxOf uri⟩ :=
  (h uri _).mpr (List.getElem?_idxOf hmem)

theorem get?_of_not_mem (h : r.Coherent) (hmem : uri ∉ r.uris) : r.get? uri = none := by
  cases hget : r.get? uri with
  | none => rfl
  | some d => exact absurd (List.mem_of_getElem? ((h uri d).mp hget)) hmem

theorem nodup (h : r.Coherent) : r.uris.Nodup := by
  rw [List.nodup_iff_getElem?_ne_getElem?]
  intro i j hij hj heq
  obtain ⟨uri, huri⟩ : ∃ uri, r.uris[j]? = some uri := ⟨_, List.getElem?_eq_getElem hj⟩
  have hfirst := (h uri ⟨i⟩).mpr (heq.trans huri)
  have hsecond := (h uri ⟨j⟩).mpr huri
  have hsame := Option.some.inj (hfirst.symm.trans hsecond)
  exact Nat.ne_of_lt hij (DocumentId.mk.inj hsame)

theorem intern_of_mem (h : r.Coherent) (hmem : uri ∈ r.uris) :
    r.intern uri = (⟨r.uris.idxOf uri⟩, r) := intern_of_some (h.get?_of_mem hmem)

theorem intern_of_not_mem (h : r.Coherent) (hmem : uri ∉ r.uris) :
    r.intern uri =
      (⟨r.uris.length⟩, ⟨(uri, ⟨r.uris.length⟩) :: r.ids, r.uris ++ [uri]⟩) :=
  intern_of_none (h.get?_of_not_mem hmem)

end Coherent

end Registry

end IncrementalSyntax
