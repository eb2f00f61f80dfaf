import AcceptableArguments.Argumentation.SkepticalSearch
import Mathlib.Order.RelIso.Basic

/-!
# Extensions under renaming of the arguments

An isomorphism between two attack relations carries every kind of extension over, and
with it every notion of acceptance. The statements are about preimages, which commute
with membership by definition.
-/

namespace AcceptableArguments.Argumentation

variable {α β : Type*} {r : α → α → Prop} {s : β → β → Prop} (e : r ≃r s)

theorem attackedBy_preimage (T : Set β) :
    attackedBy r (Set.preimage e T) = Set.preimage e (attackedBy s T) := by
  ext y
  constructor
  · intro h
    obtain ⟨x, hx, hxy⟩ := h
    exact ⟨e x, hx, e.map_rel_iff.mpr hxy⟩
  · intro h
    obtain ⟨z, hz, hzy⟩ := h
    obtain ⟨x, rfl⟩ := e.surjective z
    exact ⟨x, hz, e.map_rel_iff.mp hzy⟩

theorem defends_preimage {T : Set β} {x : α} :
    Defends r (Set.preimage e T) x ↔ Defends s T (e x) := by
  unfold Defends
  rw [attackedBy_preimage]
  constructor
  · intro h z hz
    obtain ⟨y, rfl⟩ := e.surjective z
    exact h y (e.map_rel_iff.mp hz)
  · intro h y hy
    exact h (e y) (e.map_rel_iff.mpr hy)

theorem conflictFree_preimage {T : Set β} :
    ConflictFree r (Set.preimage e T) ↔ ConflictFree s T := by
  constructor
  · intro h a ha b hb hab
    obtain ⟨x, rfl⟩ := e.surjective a
    obtain ⟨y, rfl⟩ := e.surjective b
    exact h x ha y hb (e.map_rel_iff.mp hab)
  · intro h x hx y hy hxy
    exact h (e x) hx (e y) hy (e.map_rel_iff.mpr hxy)

theorem admissible_preimage {T : Set β} :
    Admissible r (Set.preimage e T) ↔ Admissible s T := by
  constructor
  · intro h
    refine ⟨(conflictFree_preimage e).mp h.conflictFree, fun z hz => ?_⟩
    obtain ⟨x, rfl⟩ := e.surjective z
    exact (defends_preimage e).mp (h.defends x hz)
  · intro h
    exact ⟨(conflictFree_preimage e).mpr h.conflictFree, fun x hx =>
      (defends_preimage e).mpr (h.defends (e x) hx)⟩

theorem complete_preimage {T : Set β} : Complete r (Set.preimage e T) ↔ Complete s T := by
  constructor
  · intro h
    refine ⟨(admissible_preimage e).mp h.toAdmissible, fun z hz => ?_⟩
    obtain ⟨x, rfl⟩ := e.surjective z
    exact h.closed x ((defends_preimage e).mpr hz)
  · intro h
    exact ⟨(admissible_preimage e).mpr h.toAdmissible, fun x hx =>
      h.closed (e x) ((defends_preimage e).mp hx)⟩

/-- Every set of arguments is a preimage. -/
theorem exists_preimage (S : Set α) : ∃ T : Set β, Set.preimage e T = S :=
  ⟨Set.preimage e.symm S, by
    ext x
    simp⟩

theorem preimage_subset_iff {T T' : Set β} :
    Set.preimage e T ⊆ Set.preimage e T' ↔ T ⊆ T' := e.surjective.preimage_subset_preimage_iff

theorem preferred_preimage {T : Set β} : Preferred r (Set.preimage e T) ↔ Preferred s T := by
  constructor
  · intro h
    refine ⟨(admissible_preimage e).mp h.1, fun T' hT' hsub => ?_⟩
    exact (preimage_subset_iff e).mp
      (h.2 ((admissible_preimage e).mpr hT') ((preimage_subset_iff e).mpr hsub))
  · intro h
    refine ⟨(admissible_preimage e).mpr h.1, fun S hS hsub => ?_⟩
    obtain ⟨T', rfl⟩ := exists_preimage e S
    exact (preimage_subset_iff e).mpr
      (h.2 ((admissible_preimage e).mp hS) ((preimage_subset_iff e).mp hsub))

theorem stable_preimage {T : Set β} : Stable r (Set.preimage e T) ↔ Stable s T := by
  constructor
  · intro h
    refine ⟨(conflictFree_preimage e).mp h.conflictFree, fun z hz => ?_⟩
    obtain ⟨x, rfl⟩ := e.surjective z
    have hx := h.attacks x hz
    rwa [attackedBy_preimage] at hx
  · intro h
    refine ⟨(conflictFree_preimage e).mpr h.conflictFree, fun x hx => ?_⟩
    rw [attackedBy_preimage]
    exact h.attacks (e x) hx

/-- What a family of sets accepts is the same under both names. -/
theorem mem_sUnion_preimage {F : Set (Set α)} {G : Set (Set β)}
    (h : ∀ T, Set.preimage e T ∈ F ↔ T ∈ G) {x : α} : e x ∈ ⋃₀ G ↔ x ∈ ⋃₀ F := by
  constructor
  · intro hx
    obtain ⟨T, hT, hxT⟩ := hx
    exact ⟨Set.preimage e T, (h T).mpr hT, hxT⟩
  · intro hx
    obtain ⟨S, hS, hxS⟩ := hx
    obtain ⟨T, rfl⟩ := exists_preimage e S
    exact ⟨T, (h T).mp hS, hxS⟩

theorem mem_sInter_preimage {F : Set (Set α)} {G : Set (Set β)}
    (h : ∀ T, Set.preimage e T ∈ F ↔ T ∈ G) {x : α} : e x ∈ ⋂₀ G ↔ x ∈ ⋂₀ F := by
  constructor
  · intro hx S hS
    obtain ⟨T, rfl⟩ := exists_preimage e S
    exact hx T ((h T).mp hS)
  · intro hx T hT
    exact hx (Set.preimage e T) ((h T).mpr hT)

theorem compatible_iff {x y : α} : Compatible r x y ↔ Compatible s (e x) (e y) := by
  constructor
  · intro h
    obtain ⟨S, hS, hx, hy⟩ := h
    obtain ⟨T, rfl⟩ := exists_preimage e S
    exact ⟨T, (admissible_preimage e).mp hS, hx, hy⟩
  · intro h
    obtain ⟨T, hT, hx, hy⟩ := h
    exact ⟨Set.preimage e T, (admissible_preimage e).mpr hT, hx, hy⟩

theorem credulous_map {x : α} : Credulous s (e x) ↔ Credulous r x :=
  mem_sUnion_preimage e (F := {P | Preferred r P}) (G := {P | Preferred s P}) fun _ =>
    preferred_preimage e

theorem skeptical_map {x : α} : Skeptical s (e x) ↔ Skeptical r x :=
  mem_sInter_preimage e (F := {P | Preferred r P}) (G := {P | Preferred s P}) fun _ =>
    preferred_preimage e

theorem undisputed_map {x : α} (h : Undisputed r x) : Undisputed s (e x) where
  credulous := (credulous_map e).mpr h.credulous
  not_attacked T hT hx := by
    apply h.not_attacked (Set.preimage e T) ((admissible_preimage e).mpr hT)
    rw [attackedBy_preimage]
    exact hx

include e in
theorem separatedByArguments_iff : SeparatedByArguments r ↔ SeparatedByArguments s := by
  constructor
  · intro h a hcred hnot
    obtain ⟨x, rfl⟩ := e.surjective a
    obtain ⟨y, hy, hincomp⟩ := h x ((credulous_map e).mp hcred)
      (fun hx => hnot ((skeptical_map e).mpr hx))
    exact ⟨e y, (credulous_map e).mpr hy, fun hc => hincomp ((compatible_iff e).mpr hc)⟩
  · intro h x hcred hnot
    obtain ⟨b, hb, hincomp⟩ := h (e x) ((credulous_map e).mpr hcred)
      (fun hx => hnot ((skeptical_map e).mp hx))
    obtain ⟨y, rfl⟩ := e.surjective b
    exact ⟨y, (credulous_map e).mp hb, fun hc => hincomp ((compatible_iff e).mp hc)⟩

end AcceptableArguments.Argumentation
