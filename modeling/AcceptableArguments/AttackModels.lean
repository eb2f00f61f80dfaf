import AcceptableArguments.EncodingModels

/-!
# Models of the attack query

Two copies of the admissible clauses, the second one shifted by `2 * n` variables,
and one variable for each listed attack that is true when the attacker is in the
first set and the target in the second. The last clause asks for such an attack.
-/

namespace AcceptableArguments

open AcceptableArguments.Sat Argumentation Imperative

namespace Encodings

/-- The acceptance variable of the shifted copy. -/
def shiftedAccVar (n i : Nat) : Nat := 2 * n + accVar i

/-- The rejection variable of the shifted copy. -/
def shiftedRejVar (n i : Nat) : Nat := 2 * n + rejVar n i

theorem shiftedAccVar_ne_zero (n i : Nat) : shiftedAccVar n i ≠ 0 := by
  simp only [shiftedAccVar, accVar]
  omega

theorem shiftedRejVar_ne_zero (n i : Nat) : shiftedRejVar n i ≠ 0 := by
  simp only [shiftedRejVar, rejVar]
  omega

theorem attackVar_ne_zero (n k : Nat) : attackVar n k ≠ 0 := Nat.succ_ne_zero _

/-- The three clauses make the attack variable a conjunction. -/
theorem satisfies_attackDefinition (n : Nat) (m : Assignment) (p : (Nat × Nat) × Nat) :
    Satisfies m (attackDefinition n p) ↔
      (m (attackVar n p.2) = true ↔
        m (accVar p.1.1) = true ∧ m (shiftedAccVar n p.1.2) = true) := by
  simp only [attackDefinition, satisfies_cons, satisfies_nil, clauseHolds_cons,
    clauseHolds_nil, litHolds_neg m (attackVar_ne_zero n p.2),
    litHolds_pos m (attackVar_ne_zero n p.2), litHolds_pos m (accVar_ne_zero p.1.1),
    litHolds_neg m (accVar_ne_zero p.1.1)]
  have hpos := litHolds_pos m (shiftedAccVar_ne_zero n p.1.2)
  have hneg := litHolds_neg m (shiftedAccVar_ne_zero n p.1.2)
  simp only [shiftedAccVar] at hpos hneg ⊢
  rw [hpos, hneg]
  cases m (attackVar n p.2) <;> cases m (accVar p.1.1) <;>
    cases m (2 * n + accVar p.1.2) <;> decide

variable {n : Nat} {attackers : List (List Nat)}

theorem mem_attackPairs {b i : Nat} :
    (b, i) ∈ attackPairs attackers (List.range n) ↔ i < n ∧ b ∈ row attackers i := by
  simp only [attackPairs, List.mem_flatMap, List.mem_range, List.mem_map, Prod.mk.injEq]
  constructor
  · rintro ⟨i', hi', b', hb', rfl, rfl⟩
    exact ⟨hi', hb'⟩
  · rintro ⟨hi, hb⟩
    exact ⟨i, hi, b, hb, rfl, rfl⟩

/-- The attack variables are determined, and some listed attack leads from the first
set to the second. -/
theorem satisfies_attacksClauses (hlt : ∀ i, ∀ j ∈ row attackers i, j < n)
    (m : Assignment) :
    Satisfies m (attacksClauses n attackers) ↔
      (∀ p k, (attackPairs attackers (List.range n))[k]? = some p →
        (m (attackVar n k) = true ↔
          m (accVar p.1) = true ∧ m (shiftedAccVar n p.2) = true)) ∧
      Attacks (AF.attOf n attackers) (labelled n accVar m) (labelled n (shiftedAccVar n) m) := by
  set pairs := attackPairs attackers (List.range n) with hpairs
  have hdefs : Satisfies m (attackDefinitions n pairs) ↔
      ∀ p k, pairs[k]? = some p → (m (attackVar n k) = true ↔
        m (accVar p.1) = true ∧ m (shiftedAccVar n p.2) = true) := by
    rw [attackDefinitions, satisfies_flatMap]
    simp only [satisfies_attackDefinition, Prod.forall, List.mem_zipIdx_iff_getElem?]
  rw [attacksClauses, satisfies_append, ← hpairs, hdefs]
  apply and_congr_right
  intro hdef
  rw [satisfies_cons, clauseHolds_map]
  simp only [satisfies_nil, and_true, List.mem_range, litHolds_pos m (attackVar_ne_zero n _)]
  constructor
  · rintro ⟨k, hk, hm⟩
    obtain ⟨⟨b, i⟩, hp⟩ : ∃ p, pairs[k]? = some p := ⟨pairs[k], List.getElem?_eq_getElem hk⟩
    obtain ⟨hb, hi⟩ := (hdef (b, i) k hp).mp hm
    obtain ⟨hin, hbi⟩ := mem_attackPairs.mp (List.mem_of_getElem? hp)
    exact ⟨⟨b, hlt i b hbi⟩, hb, ⟨i, hin⟩, hi, hbi⟩
  · rintro ⟨b, hb, i, hi, hbi⟩
    have hmem : (b.val, i.val) ∈ pairs := mem_attackPairs.mpr ⟨i.2, hbi⟩
    obtain ⟨k, hk⟩ := List.mem_iff_getElem?.mp hmem
    have hlen : k < pairs.length := by
      by_contra hge
      rw [List.getElem?_eq_none (Nat.le_of_not_lt hge)] at hk
      cases hk
    exact ⟨k, hlen, (hdef (b, i) k hk).mpr ⟨hb, hi⟩⟩

/-! ## Building a model -/

/-- The assignment that labels the two copies by `A, R` and `A', R'` and evaluates the
attack variables accordingly. -/
noncomputable def ofLabellings (pairs : List (Nat × Nat)) (A R A' R' : Set (Fin n)) :
    Assignment := fun v =>
  if v ≤ n then flagsOf A (v - 1)
  else if v ≤ 2 * n then flagsOf R (v - n - 1)
  else if v ≤ 3 * n then flagsOf A' (v - 2 * n - 1)
  else if v ≤ 4 * n then flagsOf R' (v - 3 * n - 1)
  else match pairs[v - 4 * n - 1]? with
    | some (b, i) => flagsOf A b && flagsOf A' i
    | none => false

section OfLabellings

variable (pairs : List (Nat × Nat)) (A R A' R' : Set (Fin n))

theorem ofLabellings_accVar {i : Nat} (hi : i < n) :
    ofLabellings pairs A R A' R' (accVar i) = flagsOf A i := by
  rw [ofLabellings, if_pos (by simp only [accVar]; omega)]
  rfl

theorem ofLabellings_rejVar {i : Nat} (hi : i < n) :
    ofLabellings pairs A R A' R' (rejVar n i) = flagsOf R i := by
  have hsub : rejVar n i - n - 1 = i := by simp only [rejVar]; omega
  rw [ofLabellings, if_neg (by simp only [rejVar]; omega),
    if_pos (by simp only [rejVar]; omega), hsub]

theorem ofLabellings_shiftedAccVar {i : Nat} (hi : i < n) :
    ofLabellings pairs A R A' R' (shiftedAccVar n i) = flagsOf A' i := by
  have hsub : shiftedAccVar n i - 2 * n - 1 = i := by simp only [shiftedAccVar, accVar]; omega
  rw [ofLabellings, if_neg (by simp only [shiftedAccVar, accVar]; omega),
    if_neg (by simp only [shiftedAccVar, accVar]; omega),
    if_pos (by simp only [shiftedAccVar, accVar]; omega), hsub]

theorem ofLabellings_shiftedRejVar {i : Nat} (hi : i < n) :
    ofLabellings pairs A R A' R' (shiftedRejVar n i) = flagsOf R' i := by
  have hsub : shiftedRejVar n i - 3 * n - 1 = i := by simp only [shiftedRejVar, rejVar]; omega
  rw [ofLabellings, if_neg (by simp only [shiftedRejVar, rejVar]; omega),
    if_neg (by simp only [shiftedRejVar, rejVar]; omega),
    if_neg (by simp only [shiftedRejVar, rejVar]; omega),
    if_pos (by simp only [shiftedRejVar, rejVar]; omega), hsub]

theorem ofLabellings_attackVar {k b i : Nat} (hk : pairs[k]? = some (b, i)) :
    ofLabellings pairs A R A' R' (attackVar n k) = (flagsOf A b && flagsOf A' i) := by
  have hsub : attackVar n k - 4 * n - 1 = k := by simp only [attackVar]; omega
  rw [ofLabellings, if_neg (by simp only [attackVar]; omega),
    if_neg (by simp only [attackVar]; omega), if_neg (by simp only [attackVar]; omega),
    if_neg (by simp only [attackVar]; omega), hsub, hk]

/-- A labelled set read off variables that carry the flags of `S`. -/
theorem labelled_eq_of_flags {V : Nat → Nat} {m : Assignment} {S : Set (Fin n)}
    (h : ∀ i < n, m (V i) = flagsOf S i) : labelled n V m = S := by
  ext i
  rw [mem_labelled, h i i.2, flagsOf_coe]

end OfLabellings

/-- Two admissible sets with all unattacked arguments label the two copies at the same
time. -/
theorem satisfies_copies (hlt : ∀ i, ∀ j ∈ row attackers i, j < n)
    (pairs : List (Nat × Nat)) {E S : Set (Fin n)}
    (hE : E ∈ admissibleSets (AF.attOf n attackers))
    (hS : S ∈ admissibleSets (AF.attOf n attackers)) {m : Assignment}
    (hm : m = ofLabellings pairs E (attackedBy (AF.attOf n attackers) E) S
      (attackedBy (AF.attOf n attackers) S)) :
    Satisfies m (admissibleClauses n attackers accVar (rejVar n)) ∧
      Satisfies m (admissibleClauses n attackers (shiftedAccVar n) (shiftedRejVar n)) ∧
      labelled n accVar m = E ∧ labelled n (shiftedAccVar n) m = S := by
  subst hm
  have hacc := labelled_eq_of_flags fun i hi =>
    ofLabellings_accVar pairs E (attackedBy (AF.attOf n attackers) E) S
      (attackedBy (AF.attOf n attackers) S) (i := i) hi
  have hrej := labelled_eq_of_flags fun i hi =>
    ofLabellings_rejVar pairs E (attackedBy (AF.attOf n attackers) E) S
      (attackedBy (AF.attOf n attackers) S) (i := i) hi
  have hacc' := labelled_eq_of_flags fun i hi =>
    ofLabellings_shiftedAccVar pairs E (attackedBy (AF.attOf n attackers) E) S
      (attackedBy (AF.attOf n attackers) S) (i := i) hi
  have hrej' := labelled_eq_of_flags fun i hi =>
    ofLabellings_shiftedRejVar pairs E (attackedBy (AF.attOf n attackers) E) S
      (attackedBy (AF.attOf n attackers) S) (i := i) hi
  refine ⟨?_, ?_, hacc, hacc'⟩
  · rw [satisfies_admissibleClauses hlt _ accVar_ne_zero (rejVar_ne_zero n), hacc, hrej]
    exact hE.1.labelling hE.2
  · rw [satisfies_admissibleClauses hlt _ (shiftedAccVar_ne_zero n) (shiftedRejVar_ne_zero n),
      hacc', hrej']
    exact hS.1.labelling hS.2

/-! ## The query -/

/-- The clauses of the attack query before its own clause and assumptions. -/
def attackQueryClauses (n : Nat) (attackers : List (List Nat)) : List Clause :=
  admissibleClauses n attackers accVar (rejVar n) ++
    admissibleClauses n attackers (shiftedAccVar n) (shiftedRejVar n) ++
    attacksClauses n attackers

/-- A model of the shifted copy labels an admissible set. -/
theorem labelled_shifted_mem (hlt : ∀ i, ∀ j ∈ row attackers i, j < n) {m : Assignment}
    (hm : Satisfies m
      (admissibleClauses n attackers (shiftedAccVar n) (shiftedRejVar n))) :
    labelled n (shiftedAccVar n) m ∈ admissibleSets (AF.attOf n attackers) := by
  rw [satisfies_admissibleClauses hlt _ (shiftedAccVar_ne_zero n) (shiftedRejVar_ne_zero n)] at hm
  exact ⟨hm.admissible, hm.initial⟩

theorem labelled_mem_admissibleSets (hlt : ∀ i, ∀ j ∈ row attackers i, j < n) {m : Assignment}
    (hm : Satisfies m (admissibleClauses n attackers accVar (rejVar n))) :
    labelled n accVar m ∈ admissibleSets (AF.attOf n attackers) :=
  (exists_admissibleClauses_iff hlt _).mp ⟨m, hm, rfl⟩

/-- The models of both copies are the pairs of admissible sets. -/
theorem exists_copies_model_iff (hlt : ∀ i, ∀ j ∈ row attackers i, j < n)
    (E S : Set (Fin n)) :
    (∃ m, (Satisfies m (admissibleClauses n attackers accVar (rejVar n)) ∧
        Satisfies m (admissibleClauses n attackers (shiftedAccVar n) (shiftedRejVar n))) ∧
      labelled n accVar m = E ∧ labelled n (shiftedAccVar n) m = S) ↔
      E ∈ admissibleSets (AF.attOf n attackers) ∧
        S ∈ admissibleSets (AF.attOf n attackers) := by
  constructor
  · intro hx
    obtain ⟨m, ⟨hE, hS⟩, rfl, rfl⟩ := hx
    exact ⟨labelled_mem_admissibleSets hlt hE, labelled_shifted_mem hlt hS⟩
  · intro hx
    obtain ⟨hE, hS⟩ := hx
    obtain ⟨hm, hm', hacc, hacc'⟩ := satisfies_copies hlt [] hE hS rfl
    exact ⟨_, ⟨hm, hm'⟩, hacc, hacc'⟩

/-- The models are the pairs of admissible sets of which the first attacks the
second. -/
theorem exists_attackQuery_model_iff (hlt : ∀ i, ∀ j ∈ row attackers i, j < n)
    (E S : Set (Fin n)) :
    (∃ m, Satisfies m (attackQueryClauses n attackers) ∧ labelled n accVar m = E ∧
      labelled n (shiftedAccVar n) m = S) ↔
      E ∈ admissibleSets (AF.attOf n attackers) ∧ S ∈ admissibleSets (AF.attOf n attackers) ∧
        Attacks (AF.attOf n attackers) E S := by
  simp only [attackQueryClauses, satisfies_append, satisfies_attacksClauses hlt]
  constructor
  · intro hx
    obtain ⟨m, ⟨⟨hE, hS⟩, -, hatt⟩, rfl, rfl⟩ := hx
    exact ⟨labelled_mem_admissibleSets hlt hE, labelled_shifted_mem hlt hS, hatt⟩
  · intro hx
    obtain ⟨hE, hS, hatt⟩ := hx
    set m := ofLabellings (attackPairs attackers (List.range n)) E
      (attackedBy (AF.attOf n attackers) E) S (attackedBy (AF.attOf n attackers) S) with hm
    obtain ⟨hsat, hsat', hacc, hacc'⟩ := satisfies_copies hlt _ hE hS hm
    refine ⟨m, ⟨⟨hsat, hsat'⟩, ?_, ?_⟩, hacc, hacc'⟩
    · intro x k hk
      obtain ⟨b, i⟩ := x
      obtain ⟨hin, hbi⟩ := mem_attackPairs.mp (List.mem_of_getElem? hk)
      rw [hm, ofLabellings_attackVar _ _ _ _ _ hk,
        ofLabellings_accVar _ _ _ _ _ (hlt i b hbi), ofLabellings_shiftedAccVar _ _ _ _ _ hin,
        Bool.and_eq_true]
    · rw [hacc, hacc']
      exact hatt

end Encodings

end AcceptableArguments
