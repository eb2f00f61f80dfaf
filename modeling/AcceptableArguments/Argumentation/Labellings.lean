import AcceptableArguments.Argumentation.Extensions

/-!
# Labellings and the extensions they describe

A labelling is a pair of a set `A` of accepted and a set `R` of rejected
arguments. Each structure lists the closure conditions of one kind of
labelling; the theorems say which sets `A` occur and how far `R` is determined.
-/

namespace AcceptableArguments.Argumentation

variable {α : Type*} (att : α → α → Prop)

/-- Accepted arguments have only rejected attackers, rejected arguments have an
accepted attacker, and unattacked arguments are accepted. -/
structure AdmissibleLabelling (A R : Set α) : Prop where
  disjoint : ∀ x, x ∈ A → x ∉ R
  initial : initialArgs att ⊆ A
  attackers_rejected : ∀ x ∈ A, ∀ y, att y x → y ∈ R
  rejected_attacked : R ⊆ attackedBy att A

/-- An argument with only rejected attackers is accepted. -/
structure ReinstatingLabelling (A R : Set α) : Prop extends AdmissibleLabelling att A R where
  reinstated : ∀ x, (∀ y, att y x → y ∈ R) → x ∈ A

/-- Moreover every argument with an accepted attacker is rejected. -/
structure CompleteLabelling (A R : Set α) : Prop extends ReinstatingLabelling att A R where
  attacked_rejected : attackedBy att A ⊆ R

/-- A reinstating labelling without undecided arguments. -/
structure StableLabelling (A R : Set α) : Prop extends ReinstatingLabelling att A R where
  total : ∀ x, x ∈ A ∨ x ∈ R

variable {att}

theorem AdmissibleLabelling.admissible {A R : Set α} (h : AdmissibleLabelling att A R) :
    Admissible att A where
  conflictFree := by
    intro x hx y hy hxy
    exact h.disjoint x hx (h.attackers_rejected y hy x hxy)
  defends := by
    intro x hx y hyx
    exact h.rejected_attacked (h.attackers_rejected x hx y hyx)

/-- An admissible set with all unattacked arguments is labelled by rejecting
everything it attacks. -/
theorem Admissible.labelling {A : Set α} (h : Admissible att A)
    (hinit : initialArgs att ⊆ A) : AdmissibleLabelling att A (attackedBy att A) where
  disjoint := fun _ hx => h.not_attacked hx (Set.Subset.refl A)
  initial := hinit
  attackers_rejected := h.defends
  rejected_attacked := Set.Subset.refl _

variable (att) in
/-- The admissible sets that contain every unattacked argument. -/
def admissibleSets : Set (Set α) := {S | Admissible att S ∧ initialArgs att ⊆ S}

theorem Preferred.mem_admissibleSets {P : Set α} (hP : Preferred att P) :
    P ∈ admissibleSets att := ⟨hP.admissible, hP.complete.initialArgs_subset⟩

theorem exists_admissibleLabelling_iff {A : Set α} :
    (∃ R, AdmissibleLabelling att A R) ↔ Admissible att A ∧ initialArgs att ⊆ A := by
  constructor
  · rintro ⟨R, h⟩
    exact ⟨h.admissible, h.initial⟩
  · rintro ⟨h, hinit⟩
    exact ⟨_, h.labelling hinit⟩

/-- Complete labellings are complete sets with the rejected part determined. -/
theorem completeLabelling_iff {A R : Set α} :
    CompleteLabelling att A R ↔ Complete att A ∧ R = attackedBy att A := by
  constructor
  · intro h
    have hR : R = attackedBy att A :=
      Set.Subset.antisymm h.rejected_attacked h.attacked_rejected
    refine ⟨⟨h.admissible, ?_⟩, hR⟩
    intro x hx
    exact h.reinstated x (fun y hyx => hR ▸ hx y hyx)
  · intro hy
    obtain ⟨h, rfl⟩ := hy
    exact {
      toAdmissibleLabelling := h.toAdmissible.labelling h.initialArgs_subset
      reinstated := h.closed
      attacked_rejected := Set.Subset.refl _ }

/-- Stable labellings are stable sets with everything else rejected. -/
theorem stableLabelling_iff {A R : Set α} :
    StableLabelling att A R ↔ Stable att A ∧ R = Aᶜ := by
  constructor
  · intro h
    have hR : R = Aᶜ := by
      ext x
      constructor
      · intro hxR hxA
        exact h.disjoint x hxA hxR
      · intro hxA
        exact (h.total x).resolve_left hxA
    refine ⟨⟨h.admissible.conflictFree, ?_⟩, hR⟩
    intro x hx
    exact h.rejected_attacked (hR ▸ hx)
  · intro hp
    obtain ⟨h, rfl⟩ := hp
    have hrej : ∀ x ∈ A, ∀ y, att y x → y ∈ Aᶜ := by
      intro x hx y hyx hy
      exact h.conflictFree y hy x hx hyx
    have hreinst : ∀ x, (∀ y, att y x → y ∈ Aᶜ) → x ∈ A := by
      intro x hx
      by_contra hxA
      obtain ⟨y, hy, hyx⟩ := h.attacks x hxA
      exact hx y hyx hy
    exact {
      disjoint := fun x hx hxc => hxc hx
      initial := fun x hx => hreinst x (fun y hyx => (hx y hyx).elim)
      attackers_rejected := hrej
      rejected_attacked := fun x hx => h.attacks x hx
      reinstated := hreinst
      total := fun x => Classical.em (x ∈ A) }

/-! ## Labellings without the condition on accepted attackers -/

/-- An admissible set that contains every argument all of whose attackers
attack the set. -/
structure SelfReinstating (att : α → α → Prop) (A : Set α) : Prop
    extends Admissible att A where
  reinstated : ∀ x, (∀ y, att y x → y ∈ attackersOf att A) → x ∈ A

theorem Admissible.attackersOf_subset {A : Set α} (h : Admissible att A) :
    attackersOf att A ⊆ attackedBy att A := by
  intro y hy
  obtain ⟨x, hx, hyx⟩ := hy
  exact h.defends x hx y hyx

/-- Rejecting only the attackers of `A` is the weakest choice. -/
theorem exists_reinstatingLabelling_iff {A : Set α} :
    (∃ R, ReinstatingLabelling att A R) ↔ SelfReinstating att A := by
  constructor
  · intro hy
    obtain ⟨R, h⟩ := hy
    refine ⟨h.admissible, fun x hx => h.reinstated x (fun y hyx => ?_)⟩
    obtain ⟨z, hz, hyz⟩ := hx y hyx
    exact h.attackers_rejected z hz y hyz
  · intro h
    refine ⟨attackersOf att A, ?_⟩
    exact {
      disjoint := fun x hx hxa =>
        h.not_attacked hx (Set.Subset.refl A) (h.attackersOf_subset hxa)
      initial := fun x hx => h.reinstated x (fun y hyx => (hx y hyx).elim)
      attackers_rejected := fun x hx y hyx => ⟨x, hx, hyx⟩
      rejected_attacked := h.attackersOf_subset
      reinstated := h.reinstated }

theorem Complete.selfReinstating {A : Set α} (h : Complete att A) :
    SelfReinstating att A where
  toAdmissible := h.toAdmissible
  reinstated := fun x hx => h.closed x
    (fun y hyx => h.toAdmissible.attackersOf_subset (hx y hyx))

theorem preferredFamily_selfReinstating :
    PreferredFamily att {A | SelfReinstating att A} :=
  ⟨fun _ hA => hA.toAdmissible, fun _ hP => hP.complete.selfReinstating⟩

/-- The two families agree exactly when every admissible set that defends an
argument outside it leaves out an argument all of whose attackers attack it. -/
theorem selfReinstating_iff_complete_iff :
    (∀ A, SelfReinstating att A ↔ Complete att A) ↔
      ∀ A, Admissible att A → (∃ x, x ∉ A ∧ Defends att A x) →
        ∃ x, x ∉ A ∧ ∀ y, att y x → y ∈ attackersOf att A := by
  constructor
  · intro h A hA hp
    obtain ⟨x, hxA, hx⟩ := hp
    by_contra hnone
    push Not at hnone
    have hself : SelfReinstating att A := by
      refine ⟨hA, fun z hz => ?_⟩
      by_contra hzA
      obtain ⟨y, hyz, hy⟩ := hnone z hzA
      exact hy (hz y hyz)
    exact hxA (((h A).mp hself).closed x hx)
  · intro h A
    refine ⟨fun hself => ⟨hself.toAdmissible, fun x hx => ?_⟩, Complete.selfReinstating⟩
    by_contra hxA
    obtain ⟨z, hzA, hz⟩ := h A hself.toAdmissible ⟨x, hxA, hx⟩
    exact hzA (hself.reinstated z hz)

end AcceptableArguments.Argumentation
