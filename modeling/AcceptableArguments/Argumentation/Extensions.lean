import Mathlib.Order.Zorn
import Mathlib.Data.Set.Card
import Mathlib.Data.Set.Lattice

/-!
# Extensions of an abstract attack relation

The carrier is an arbitrary type and the attack relation an arbitrary binary
relation on it. Preferred sets are the maximal admissible ones; existence
above a given admissible set is Zorn's lemma on chains of admissible sets.
-/

namespace AcceptableArguments.Argumentation

variable {α : Type*} (att : α → α → Prop)

/-- The arguments attacked by some member of `S`. -/
def attackedBy (S : Set α) : Set α := {y | ∃ x ∈ S, att x y}

/-- The arguments that attack some member of `S`. -/
def attackersOf (S : Set α) : Set α := {y | ∃ x ∈ S, att y x}

/-- The arguments that nothing attacks. -/
def initialArgs : Set α := {x | ∀ y, ¬ att y x}

/-- Some member of `S` attacks some member of `T`. -/
def Attacks (S T : Set α) : Prop := ∃ x ∈ S, ∃ y ∈ T, att x y

/-- Every attacker of `x` is attacked by `S`. -/
def Defends (S : Set α) (x : α) : Prop := ∀ y, att y x → y ∈ attackedBy att S

/-- No member of `S` attacks a member of `S`. -/
def ConflictFree (S : Set α) : Prop := ∀ x ∈ S, ∀ y ∈ S, ¬ att x y

/-- A conflict-free set that defends each of its members. -/
structure Admissible (S : Set α) : Prop where
  conflictFree : ConflictFree att S
  defends : ∀ x ∈ S, Defends att S x

/-- An admissible set that contains everything it defends. -/
structure Complete (S : Set α) : Prop extends Admissible att S where
  closed : ∀ x, Defends att S x → x ∈ S

/-- A maximal admissible set. -/
def Preferred (S : Set α) : Prop := Maximal (Admissible att) S

/-- A conflict-free set that attacks every argument outside it. -/
structure Stable (S : Set α) : Prop where
  conflictFree : ConflictFree att S
  attacks : ∀ x, x ∉ S → x ∈ attackedBy att S

/-- Membership in at least one preferred set. -/
def Credulous (x : α) : Prop := ∃ P, Preferred att P ∧ x ∈ P

/-- Membership in every preferred set. -/
def Skeptical (x : α) : Prop := ∀ P, Preferred att P → x ∈ P

variable {att}

theorem attackedBy_mono {S T : Set α} (h : S ⊆ T) :
    attackedBy att S ⊆ attackedBy att T := by
  intro y hy
  obtain ⟨x, hx, hxy⟩ := hy
  exact ⟨x, h hx, hxy⟩

theorem Defends.mono {S T : Set α} {x : α} (h : S ⊆ T) (hd : Defends att S x) :
    Defends att T x :=
  fun y hy => attackedBy_mono h (hd y hy)

theorem admissible_empty : Admissible att (∅ : Set α) :=
  ⟨fun _ hx => hx.elim, fun _ hx => hx.elim⟩

/-- An admissible set strikes back at whatever attacks it. -/
theorem Admissible.attacks_of_attacks {S T : Set α} (hS : Admissible att S)
    (h : Attacks att T S) : Attacks att S T := by
  obtain ⟨x, hx, y, hy, hxy⟩ := h
  obtain ⟨z, hz, hzx⟩ := hS.defends y hy x hxy
  exact ⟨z, hz, x, hx, hzx⟩

/-- Members of a common admissible set do not attack one another. -/
theorem Admissible.not_attacked {S T : Set α} {x : α} (hS : Admissible att S)
    (hx : x ∈ S) (hT : T ⊆ S) : x ∉ attackedBy att T := by
  intro h
  obtain ⟨y, hy, hyx⟩ := h
  exact hS.conflictFree y (hT hy) x hx hyx

/-- Two admissible sets that do not attack each other have an admissible union. -/
theorem Admissible.union {S T : Set α} (hS : Admissible att S) (hT : Admissible att T)
    (h : ¬ Attacks att S T) : Admissible att (S ∪ T) := by
  have hTS : ¬ Attacks att T S := fun ha => h (hS.attacks_of_attacks ha)
  constructor
  · rintro x (hx | hx) y (hy | hy) hxy
    · exact hS.conflictFree x hx y hy hxy
    · exact h ⟨x, hx, y, hy, hxy⟩
    · exact hTS ⟨x, hx, y, hy, hxy⟩
    · exact hT.conflictFree x hx y hy hxy
  · intro x hp
    rcases hp with hx | hx
    · exact (hS.defends x hx).mono Set.subset_union_left
    · exact (hT.defends x hx).mono Set.subset_union_right

/-- The fundamental lemma: a defended argument can be added. -/
theorem Admissible.insert {S : Set α} (hS : Admissible att S) {x : α}
    (hx : Defends att S x) : Admissible att (insert x S) := by
  have hxS : ∀ y ∈ S, ¬ att y x := by
    intro y hy hyx
    obtain ⟨z, hz, hzy⟩ := hx y hyx
    exact hS.conflictFree z hz y hy hzy
  have hSx : ∀ y ∈ S, ¬ att x y := by
    intro y hy hxy
    obtain ⟨z, hz, hzx⟩ := hS.defends y hy x hxy
    exact hxS z hz hzx
  have hxx : ¬ att x x := by
    intro h
    obtain ⟨z, hz, hzx⟩ := hx x h
    exact hxS z hz hzx
  constructor
  · rintro y (rfl | hy) z (rfl | hz) hyz
    · exact hxx hyz
    · exact hSx z hz hyz
    · exact hxS y hy hyz
    · exact hS.conflictFree y hy z hz hyz
  · intro y hp
    rcases hp with rfl | hy
    · exact hx.mono (Set.subset_insert _ _)
    · exact (hS.defends y hy).mono (Set.subset_insert _ _)

/-- The union of a nonempty chain of admissible sets is admissible. -/
theorem admissible_sUnion {c : Set (Set α)} (hc : ∀ S ∈ c, Admissible att S)
    (hchain : IsChain (· ⊆ ·) c) : Admissible att (⋃₀ c) := by
  constructor
  · intro x hp y hz hxy
    obtain ⟨S, hS, hx⟩ := hp
    obtain ⟨T, hT, hy⟩ := hz
    rcases hchain.total hS hT with h | h
    · exact (hc T hT).conflictFree x (h hx) y hy hxy
    · exact (hc S hS).conflictFree x hx y (h hy) hxy
  · intro x hp
    obtain ⟨S, hS, hx⟩ := hp
    exact ((hc S hS).defends x hx).mono (Set.subset_sUnion_of_mem hS)

/-- Every admissible set is contained in a preferred one. -/
theorem Admissible.exists_preferred {S : Set α} (hS : Admissible att S) :
    ∃ P, S ⊆ P ∧ Preferred att P := by
  apply zorn_subset_nonempty {T | Admissible att T} _ S hS
  intro c hc hchain _
  exact ⟨⋃₀ c, admissible_sUnion hc hchain, fun T hT => Set.subset_sUnion_of_mem hT⟩

variable (att) in
theorem exists_preferred : ∃ P, Preferred att P := by
  obtain ⟨P, -, hP⟩ := (admissible_empty : Admissible att ∅).exists_preferred
  exact ⟨P, hP⟩

theorem Preferred.admissible {P : Set α} (hP : Preferred att P) : Admissible att P := hP.1

theorem Preferred.eq_of_subset {P S : Set α} (hP : Preferred att P)
    (hS : Admissible att S) (h : P ⊆ S) : S = P :=
  (Maximal.eq_of_subset hP hS h).symm

/-- Preferred sets contain whatever they defend. -/
theorem Preferred.complete {P : Set α} (hP : Preferred att P) : Complete att P where
  toAdmissible := hP.admissible
  closed := by
    intro x hx
    have heq := hP.eq_of_subset (hP.admissible.insert hx) (Set.subset_insert _ _)
    exact heq ▸ Set.mem_insert x P

theorem Complete.initialArgs_subset {S : Set α} (hS : Complete att S) :
    initialArgs att ⊆ S := by
  intro x hx
  exact hS.closed x (fun y hy => (hx y hy).elim)

/-- Distinct preferred sets attack each other. -/
theorem Preferred.attacks_of_ne {P Q : Set α} (hP : Preferred att P)
    (hQ : Preferred att Q) (h : P ≠ Q) : Attacks att P Q := by
  by_contra hna
  have hu := hP.admissible.union hQ.admissible hna
  have hPu := hP.eq_of_subset hu Set.subset_union_left
  have hQu := hQ.eq_of_subset hu Set.subset_union_right
  exact h (hPu.symm.trans hQu)

theorem credulous_iff_admissible {x : α} :
    Credulous att x ↔ ∃ S, Admissible att S ∧ x ∈ S := by
  constructor
  · rintro ⟨P, hP, hx⟩
    exact ⟨P, hP.admissible, hx⟩
  · rintro ⟨S, hS, hx⟩
    obtain ⟨P, hSP, hP⟩ := hS.exists_preferred
    exact ⟨P, hP, hSP hx⟩

/-- An argument attacked by an admissible set is missing from some preferred set. -/
theorem not_skeptical_of_attacked {S : Set α} {x : α} (hS : Admissible att S)
    (hx : x ∈ attackedBy att S) : ¬ Skeptical att x := by
  intro hsk
  obtain ⟨P, hSP, hP⟩ := hS.exists_preferred
  exact hP.admissible.not_attacked (hsk P hP) hSP hx

/-- Some preferred set exists, so skeptical acceptance is the stronger notion. -/
theorem Skeptical.credulous {x : α} (h : Skeptical att x) : Credulous att x := by
  obtain ⟨P, hP⟩ := exists_preferred att
  exact ⟨P, hP, h P hP⟩

/-- Nothing admissible attacks the argument, and something admissible contains it. -/
structure Undisputed (att : α → α → Prop) (x : α) : Prop where
  credulous : Credulous att x
  not_attacked : ∀ S, Admissible att S → x ∉ attackedBy att S

theorem Skeptical.undisputed {x : α} (h : Skeptical att x) : Undisputed att x where
  credulous := h.credulous
  not_attacked _ hS hx := not_skeptical_of_attacked hS hx h

/-- What no credulous argument attacks. -/
theorem Undisputed.not_attacks {x y : α} (hy : Undisputed att y) (hx : Credulous att x) :
    ¬ att x y := by
  intro hxy
  obtain ⟨P, hP, hxP⟩ := hx
  exact hy.not_attacked P hP.admissible ⟨x, hxP, hxy⟩

theorem sUnion_preferred : ⋃₀ {P | Preferred att P} = {x | Credulous att x} := rfl

/-- Every complete set lies in a preferred one, so both have the same members. -/
theorem sUnion_complete : ⋃₀ {S | Complete att S} = ⋃₀ {P | Preferred att P} := by
  rw [sUnion_preferred]
  ext x
  constructor
  · rintro ⟨S, hS, hxS⟩
    exact credulous_iff_admissible.mpr ⟨S, hS.toAdmissible, hxS⟩
  · rintro ⟨P, hP, hxP⟩
    exact ⟨P, hP.complete, hxP⟩

theorem Stable.preferred {S : Set α} (hS : Stable att S) : Preferred att S := by
  constructor
  · exact ⟨hS.conflictFree, fun x hx y hyx =>
      hS.attacks y fun hy => hS.conflictFree y hy x hx hyx⟩
  · intro T hT hST x hxT
    by_contra hxS
    exact hT.not_attacked hxT hST (hS.attacks x hxS)

/-- A stable set attacks whatever it does not contain. -/
theorem Undisputed.mem_stable {S : Set α} {x : α} (hx : Undisputed att x) (hS : Stable att S) :
    x ∈ S := by
  by_contra hxS
  exact hx.not_attacked S hS.preferred.admissible (hS.attacks x hxS)

/-- Stable sets are pairwise incomparable. -/
theorem Stable.eq_of_subset {S T : Set α} (hS : Stable att S) (hT : Stable att T)
    (h : S ⊆ T) : S = T := by
  apply h.antisymm
  intro x hx
  by_contra hxS
  obtain ⟨y, hy, hyx⟩ := hS.attacks x hxS
  exact hT.conflictFree y (h hy) x hx hyx

/-! ## Families squeezed between the preferred and the admissible sets -/

/-- A family of admissible sets that contains all the preferred ones. Its
maximal members are the preferred sets and its union the credulous arguments. -/
structure PreferredFamily (att : α → α → Prop) (F : Set (Set α)) : Prop where
  admissible : ∀ S ∈ F, Admissible att S
  preferred : ∀ P, Preferred att P → P ∈ F

theorem PreferredFamily.exists_preferred {F : Set (Set α)} (hF : PreferredFamily att F)
    {S : Set α} (hS : S ∈ F) : ∃ P ∈ F, S ⊆ P ∧ Preferred att P := by
  obtain ⟨P, hSP, hP⟩ := (hF.admissible S hS).exists_preferred
  exact ⟨P, hF.preferred P hP, hSP, hP⟩

/-- A member without a proper superset in the family is preferred. -/
theorem PreferredFamily.preferred_of_maximal {F : Set (Set α)}
    (hF : PreferredFamily att F) {S : Set α} (hS : S ∈ F)
    (hmax : ∀ T ∈ F, S ⊆ T → T = S) : Preferred att S := by
  obtain ⟨P, hPF, hSP, hP⟩ := hF.exists_preferred hS
  exact hmax P hPF hSP ▸ hP

theorem PreferredFamily.credulous_iff {F : Set (Set α)} (hF : PreferredFamily att F)
    {x : α} : (∃ S ∈ F, x ∈ S) ↔ Credulous att x := by
  constructor
  · rintro ⟨S, hS, hx⟩
    exact credulous_iff_admissible.mpr ⟨S, hF.admissible S hS, hx⟩
  · rintro ⟨P, hP, hx⟩
    exact ⟨P, hF.preferred P hP, hx⟩

theorem preferredFamily_complete : PreferredFamily att {S | Complete att S} :=
  ⟨fun _ hS => hS.toAdmissible, fun _ hP => hP.complete⟩

/-! ## The variant of a search through a family -/

/-- A constraint that some member violates makes a finite family smaller. -/
theorem ncard_sep_lt [Finite α] {G : Set (Set α)} {C : Set α → Prop} {S : Set α}
    (hS : S ∈ G) (hC : ¬ C S) : {T ∈ G | C T}.ncard < G.ncard := by
  apply Set.ncard_lt_ncard _ (Set.toFinite _)
  exact ⟨Set.sep_subset G C, fun h => hC (h hS).2⟩

theorem ncard_le_two_pow {n : Nat} (G : Set (Set (Fin n))) : G.ncard ≤ 2 ^ n := by
  calc
    G.ncard ≤ Nat.card (Set (Fin n)) := Set.ncard_le_card G
    _ = 2 ^ n := by rw [Nat.card_eq_fintype_card, Fintype.card_set, Fintype.card_fin]

end AcceptableArguments.Argumentation
