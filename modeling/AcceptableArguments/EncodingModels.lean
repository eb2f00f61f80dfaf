import AcceptableArguments.Encodings
import AcceptableArguments.Argumentation.Labellings

/-!
# Models of the encodings

An assignment is read as a labelling: the arguments whose acceptance variable
is true and those whose rejection variable is true. The clauses of each
encoding hold exactly when this labelling satisfies the matching closure
conditions on the attack relation of the framework.
-/

namespace AcceptableArguments

open AcceptableArguments.Sat Argumentation Imperative

namespace Encodings

/-- The arguments whose variable under the numbering `V` is true. -/
def labelled (n : Nat) (V : Nat → Nat) (m : Assignment) : Set (Fin n) :=
  {i | m (V i) = true}

@[simp] theorem mem_labelled {n : Nat} {V : Nat → Nat} {m : Assignment} {i : Fin n} :
    i ∈ labelled n V m ↔ m (V i) = true := Iff.rfl

open Classical in
/-- The flags that mark the members of a set. -/
noncomputable def flagsOf {n : Nat} (S : Set (Fin n)) (i : Nat) : Bool :=
  decide (∃ h : i < n, ⟨i, h⟩ ∈ S)

@[simp] theorem flagsOf_coe {n : Nat} {S : Set (Fin n)} (i : Fin n) :
    flagsOf S i = true ↔ i ∈ S := by
  simp [flagsOf]

theorem flagsOf_eq_true {n : Nat} {S : Set (Fin n)} {i : Nat} (hi : i < n) :
    flagsOf S i = true ↔ ⟨i, hi⟩ ∈ S := flagsOf_coe ⟨i, hi⟩

/-! ## Single clauses -/

section Clauses

variable (m : Assignment) {A R : Nat → Nat} (hA : ∀ i, A i ≠ 0) (hR : ∀ i, R i ≠ 0)

theorem clauseHolds_neg_neg {v w : Nat} (hv : v ≠ 0) (hw : w ≠ 0) :
    clauseHolds m [-(v : Int), -(w : Int)] = true ↔ (m v = true → ¬ m w = true) := by
  simp only [clauseHolds_cons, clauseHolds_nil, litHolds_neg m hv, litHolds_neg m hw]
  cases m v <;> simp

theorem clauseHolds_imp {v w : Nat} (hv : v ≠ 0) (hw : w ≠ 0) :
    clauseHolds m [-(v : Int), (w : Int)] = true ↔ (m v = true → m w = true) := by
  simp only [clauseHolds_cons, clauseHolds_nil, litHolds_neg m hv, litHolds_pos m hw]
  cases m v <;> simp

theorem clauseHolds_unit {v : Nat} (hv : v ≠ 0) :
    clauseHolds m [(v : Int)] = true ↔ m v = true := by
  simp [litHolds_pos m hv]

include hA hR

theorem satisfies_defendClauses (i : Nat) (attackers : List Nat) :
    Satisfies m (defendClauses A R i attackers) ↔
      ∀ b ∈ attackers, m (A i) = true → m (R b) = true := by
  simp only [defendClauses, satisfies_map]
  exact forall₂_congr fun b _ => clauseHolds_imp m (hA i) (hR b)

theorem clauseHolds_outClause (i : Nat) (attackers : List Nat) :
    clauseHolds m (outClause A R i attackers) = true ↔
      (m (R i) = true → ∃ b ∈ attackers, m (A b) = true) := by
  simp only [outClause, clauseHolds_append, Bool.or_eq_true, clauseHolds_map,
    litHolds_pos m (hA _), clauseHolds_cons, clauseHolds_nil, Bool.or_false,
    litHolds_neg m (hR i)]
  cases m (R i) <;> simp

theorem clauseHolds_notoutClause (i : Nat) (attackers : List Nat) :
    clauseHolds m (notoutClause A R i attackers) = true ↔
      ((∀ b ∈ attackers, m (R b) = true) → m (A i) = true) := by
  simp only [notoutClause, clauseHolds_append, Bool.or_eq_true, clauseHolds_map,
    litHolds_neg m (hR _), clauseHolds_cons, clauseHolds_nil, Bool.or_false,
    litHolds_pos m (hA i)]
  cases m (A i) <;> simp

end Clauses

/-! ## Attackers as arguments of the framework -/

section Attackers

variable {n : Nat} {attackers : List (List Nat)}
  (hlt : ∀ i, ∀ j ∈ row attackers i, j < n)

include hlt

theorem mem_initialArgs_iff (i : Fin n) :
    i ∈ initialArgs (AF.attOf n attackers) ↔ (row attackers i).isEmpty = true := by
  rw [List.isEmpty_iff]
  constructor
  · intro h
    apply List.eq_nil_iff_forall_not_mem.mpr
    intro b hb
    exact h ⟨b, hlt i b hb⟩ hb
  · intro h y hy
    simp [AF.attOf, h] at hy

end Attackers

/-! ## Labellings -/

section Labellings

variable {n : Nat} {attackers : List (List Nat)}
  (hlt : ∀ i, ∀ j ∈ row attackers i, j < n) (m : Assignment)
  {A R : Nat → Nat} (hA : ∀ i, A i ≠ 0) (hR : ∀ i, R i ≠ 0)

/-- What one round of an encoding says about argument `i`, apart from the case of
an unattacked argument. -/
structure RoundConditions (attackers : List (List Nat)) (m : Assignment)
    (A R : Nat → Nat) (i : Nat) : Prop where
  disjoint : m (A i) = true → ¬ m (R i) = true
  initial : (row attackers i).isEmpty = true → m (A i) = true
  defended : ∀ b ∈ row attackers i, m (A i) = true → m (R b) = true
  out : m (R i) = true → ∃ b ∈ row attackers i, m (A b) = true

include hlt in
theorem admissibleLabelling_iff :
    AdmissibleLabelling (AF.attOf n attackers) (labelled n A m) (labelled n R m) ↔
      ∀ i < n, RoundConditions attackers m A R i := by
  constructor
  · intro h i hi
    exact {
      disjoint := h.disjoint ⟨i, hi⟩
      initial := fun he => h.initial ((mem_initialArgs_iff hlt ⟨i, hi⟩).mpr he)
      defended := fun b hb ha => h.attackers_rejected ⟨i, hi⟩ ha ⟨b, hlt i b hb⟩ hb
      out := fun hr => by
        obtain ⟨y, hy, hyi⟩ := h.rejected_attacked (show (⟨i, hi⟩ : Fin n) ∈ _ from hr)
        exact ⟨y, hyi, hy⟩ }
  · intro h
    exact {
      disjoint := fun i => (h i i.2).disjoint
      initial := fun i hi => (h i i.2).initial ((mem_initialArgs_iff hlt i).mp hi)
      attackers_rejected := fun i hi y hy => (h i i.2).defended y hy hi
      rejected_attacked := fun i hi => by
        obtain ⟨b, hb, hba⟩ := (h i i.2).out hi
        exact ⟨⟨b, hlt i b hb⟩, hba, hb⟩ }

include hlt in
theorem reinstated_iff :
    (∀ x, (∀ y, AF.attOf n attackers y x → y ∈ labelled n R m) → x ∈ labelled n A m) ↔
      ∀ i < n, (∀ b ∈ row attackers i, m (R b) = true) → m (A i) = true := by
  constructor
  · intro h i hi hb
    exact h ⟨i, hi⟩ (fun y hy => hb y hy)
  · intro h i hi
    exact h i i.2 (fun b hb => hi ⟨b, hlt i b hb⟩ hb)

include hlt in
theorem attacked_rejected_iff :
    attackedBy (AF.attOf n attackers) (labelled n A m) ⊆ labelled n R m ↔
      ∀ i < n, ∀ b ∈ row attackers i, m (A b) = true → m (R i) = true := by
  constructor
  · intro h i hi b hb ha
    exact h (show (⟨i, hi⟩ : Fin n) ∈ _ from ⟨⟨b, hlt i b hb⟩, ha, hb⟩)
  · intro h i hx
    obtain ⟨y, hy, hyi⟩ := hx
    exact h i i.2 y hyi hy

/-- An unattacked argument satisfies the round conditions once it is accepted. -/
theorem roundConditions_of_isEmpty {i : Nat} (he : (row attackers i).isEmpty = true) :
    RoundConditions attackers m A R i ↔
      (m (A i) = true → ¬ m (R i) = true) ∧ m (A i) = true := by
  constructor
  · intro h
    exact ⟨h.disjoint, h.initial he⟩
  · rintro ⟨hd, ha⟩
    rw [List.isEmpty_iff] at he
    exact {
      disjoint := hd
      initial := fun _ => ha
      defended := by simp [he]
      out := fun hr => (hd ha hr).elim }

theorem roundConditions_of_not_isEmpty {i : Nat} (he : (row attackers i).isEmpty = false) :
    RoundConditions attackers m A R i ↔
      (m (A i) = true → ¬ m (R i) = true) ∧
      (∀ b ∈ row attackers i, m (A i) = true → m (R b) = true) ∧
      (m (R i) = true → ∃ b ∈ row attackers i, m (A b) = true) := by
  constructor
  · intro h
    exact ⟨h.disjoint, h.defended, h.out⟩
  · rintro ⟨hd, hdef, hout⟩
    exact {
      disjoint := hd
      initial := by simp [he]
      defended := hdef
      out := hout }

include hA hR

theorem satisfies_admissibleClauses_iff :
    Satisfies m (admissibleClauses n attackers A R) ↔
      ∀ i < n, RoundConditions attackers m A R i := by
  simp only [admissibleClauses, satisfies_flatMap, List.mem_range]
  refine forall₂_congr fun i _ => ?_
  cases he : (row attackers i).isEmpty with
  | true =>
      rw [roundConditions_of_isEmpty m he]
      simp only [if_true, satisfies_cons, satisfies_nil, and_true,
        clauseHolds_neg_neg m (hA i) (hR i), clauseHolds_unit m (hA i)]
  | false =>
      rw [roundConditions_of_not_isEmpty m he]
      simp only [Bool.false_eq_true, if_false, satisfies_cons, satisfies_append, satisfies_nil,
        and_true, clauseHolds_neg_neg m (hA i) (hR i), satisfies_defendClauses m hA hR,
        clauseHolds_outClause m hA hR, List.cons_append]

theorem satisfies_completePerfClauses_iff :
    Satisfies m (completePerfClauses n attackers A R) ↔
      ∀ i < n, RoundConditions attackers m A R i ∧
        (∀ b ∈ row attackers i, m (A b) = true → m (R i) = true) ∧
        ((∀ b ∈ row attackers i, m (R b) = true) → m (A i) = true) := by
  simp only [completePerfClauses, satisfies_flatMap, List.mem_range]
  refine forall₂_congr fun i _ => ?_
  cases he : (row attackers i).isEmpty with
  | true =>
      have hnil := List.isEmpty_iff.mp he
      rw [roundConditions_of_isEmpty m he]
      simp only [if_true, satisfies_cons, satisfies_nil, and_true,
        clauseHolds_neg_neg m (hA i) (hR i), clauseHolds_unit m (hA i), hnil]
      constructor
      · rintro ⟨hd, ha⟩
        exact ⟨⟨hd, ha⟩, by simp, fun _ => ha⟩
      · rintro ⟨h, -, -⟩
        exact h
  | false =>
      rw [roundConditions_of_not_isEmpty m he]
      simp only [Bool.false_eq_true, if_false, satisfies_cons, satisfies_append, satisfies_nil,
        and_true, clauseHolds_neg_neg m (hA i) (hR i), satisfies_flatMap,
        clauseHolds_imp m (hA _) (hR _), clauseHolds_outClause m hA hR,
        clauseHolds_notoutClause m hA hR, List.cons_append, forall_and]
      constructor
      · rintro ⟨hd, ⟨hdef, hatt⟩, hout, hre⟩
        exact ⟨⟨hd, hdef, hout⟩, hatt, hre⟩
      · rintro ⟨⟨hd, hdef, hout⟩, hatt, hre⟩
        exact ⟨hd, ⟨hdef, hatt⟩, hout, hre⟩

theorem satisfies_stableClauses_iff :
    Satisfies m (stableClauses n attackers A R) ↔
      ∀ i < n, RoundConditions attackers m A R i ∧
        (m (A i) = true ∨ m (R i) = true) ∧
        ((∀ b ∈ row attackers i, m (R b) = true) → m (A i) = true) := by
  simp only [stableClauses, satisfies_flatMap, List.mem_range]
  refine forall₂_congr fun i _ => ?_
  have htotal : clauseHolds m [(A i : Int), (R i : Int)] = true ↔
      (m (A i) = true ∨ m (R i) = true) := by
    simp [litHolds_pos m (hA i), litHolds_pos m (hR i)]
  cases he : (row attackers i).isEmpty with
  | true =>
      have hnil := List.isEmpty_iff.mp he
      rw [roundConditions_of_isEmpty m he]
      simp only [if_true, satisfies_cons, satisfies_append, satisfies_nil, and_true,
        clauseHolds_neg_neg m (hA i) (hR i), clauseHolds_unit m (hA i), htotal, hnil]
      constructor
      · rintro ⟨⟨hd, ht⟩, ha⟩
        exact ⟨⟨hd, ha⟩, ht, fun _ => ha⟩
      · rintro ⟨⟨hd, ha⟩, ht, -⟩
        exact ⟨⟨hd, ht⟩, ha⟩
  | false =>
      rw [roundConditions_of_not_isEmpty m he]
      simp only [Bool.false_eq_true, if_false, satisfies_cons, satisfies_append, satisfies_nil,
        and_true, clauseHolds_neg_neg m (hA i) (hR i), satisfies_defendClauses m hA hR, htotal,
        clauseHolds_outClause m hA hR, clauseHolds_notoutClause m hA hR]
      constructor
      · rintro ⟨⟨hd, ht⟩, hdef, hout, hre⟩
        exact ⟨⟨hd, hdef, hout⟩, ht, hre⟩
      · rintro ⟨⟨hd, hdef, hout⟩, ht, hre⟩
        exact ⟨⟨hd, ht⟩, hdef, hout, hre⟩

theorem satisfies_completeClauses_iff {U : Nat → Nat} (hU : ∀ i, U i ≠ 0) :
    Satisfies m (completeClauses n attackers A R U) ↔
      ∀ i < n, RoundConditions attackers m A R i ∧
        ((∀ b ∈ row attackers i, m (R b) = true) → m (A i) = true) ∧
        (m (U i) = true ↔ ¬ m (A i) = true ∧ ¬ m (R i) = true) := by
  simp only [completeClauses, satisfies_flatMap, List.mem_range]
  refine forall₂_congr fun i _ => ?_
  have hbasic : (clauseHolds m [(A i : Int), (R i : Int), (U i : Int)] = true ∧
      clauseHolds m [-(A i : Int), -(R i : Int)] = true ∧
      clauseHolds m [-(A i : Int), -(U i : Int)] = true ∧
      clauseHolds m [-(R i : Int), -(U i : Int)] = true) ↔
      (m (A i) = true → ¬ m (R i) = true) ∧
      (m (U i) = true ↔ ¬ m (A i) = true ∧ ¬ m (R i) = true) := by
    simp only [clauseHolds_cons, clauseHolds_nil, litHolds_pos m (hA i),
      litHolds_pos m (hR i), litHolds_pos m (hU i), litHolds_neg m (hA i),
      litHolds_neg m (hR i), litHolds_neg m (hU i)]
    cases m (A i) <;> cases m (R i) <;> cases m (U i) <;> decide
  cases he : (row attackers i).isEmpty with
  | true =>
      have hnil := List.isEmpty_iff.mp he
      rw [roundConditions_of_isEmpty m he]
      simp only [if_true, satisfies_cons, satisfies_append, satisfies_nil, and_true, hbasic,
        clauseHolds_unit m (hA i), hnil]
      constructor
      · rintro ⟨⟨hd, hu⟩, ha⟩
        exact ⟨⟨hd, ha⟩, fun _ => ha, hu⟩
      · rintro ⟨⟨hd, ha⟩, -, hu⟩
        exact ⟨⟨hd, hu⟩, ha⟩
  | false =>
      rw [roundConditions_of_not_isEmpty m he]
      simp only [Bool.false_eq_true, if_false, satisfies_cons, satisfies_append, satisfies_nil,
        and_true, hbasic, satisfies_defendClauses m hA hR, clauseHolds_outClause m hA hR,
        clauseHolds_notoutClause m hA hR]
      constructor
      · rintro ⟨⟨hd, hu⟩, hdef, hout, hre⟩
        exact ⟨⟨hd, hdef, hout⟩, hre, hu⟩
      · rintro ⟨⟨hd, hdef, hout⟩, hre, hu⟩
        exact ⟨⟨hd, hu⟩, hdef, hout, hre⟩

end Labellings

/-! ## The families of accepted sets -/

theorem accVar_ne_zero (i : Nat) : accVar i ≠ 0 := Nat.succ_ne_zero i

theorem rejVar_ne_zero (n i : Nat) : rejVar n i ≠ 0 := Nat.succ_ne_zero _

theorem undVar_ne_zero (n i : Nat) : undVar n i ≠ 0 := Nat.succ_ne_zero _

section Families

variable {n : Nat} {attackers : List (List Nat)}
  (hlt : ∀ i, ∀ j ∈ row attackers i, j < n) (m : Assignment)

include hlt

theorem satisfies_admissibleClauses {A R : Nat → Nat} (hA : ∀ i, A i ≠ 0)
    (hR : ∀ i, R i ≠ 0) :
    Satisfies m (admissibleClauses n attackers A R) ↔
      AdmissibleLabelling (AF.attOf n attackers) (labelled n A m) (labelled n R m) := by
  rw [satisfies_admissibleClauses_iff m hA hR, admissibleLabelling_iff hlt m]

theorem satisfies_completePerfClauses :
    Satisfies m (completePerfClauses n attackers accVar (rejVar n)) ↔
      CompleteLabelling (AF.attOf n attackers) (labelled n accVar m)
        (labelled n (rejVar n) m) := by
  rw [satisfies_completePerfClauses_iff m accVar_ne_zero (rejVar_ne_zero n)]
  simp only [forall_and]
  rw [← admissibleLabelling_iff hlt m, ← attacked_rejected_iff hlt m, ← reinstated_iff hlt m]
  constructor
  · rintro ⟨hadm, hatt, hre⟩
    exact ⟨⟨hadm, hre⟩, hatt⟩
  · intro h
    exact ⟨h.toAdmissibleLabelling, h.attacked_rejected, h.reinstated⟩

theorem satisfies_stableClauses :
    Satisfies m (stableClauses n attackers accVar (rejVar n)) ↔
      StableLabelling (AF.attOf n attackers) (labelled n accVar m)
        (labelled n (rejVar n) m) := by
  rw [satisfies_stableClauses_iff m accVar_ne_zero (rejVar_ne_zero n)]
  simp only [forall_and]
  rw [← admissibleLabelling_iff hlt m, ← reinstated_iff hlt m]
  constructor
  · rintro ⟨hadm, htot, hre⟩
    exact ⟨⟨hadm, hre⟩, fun x => htot x x.2⟩
  · intro h
    exact ⟨h.toAdmissibleLabelling, fun i hi => h.total ⟨i, hi⟩, h.reinstated⟩

/-- Without PERF_ENC the undecided variables are determined and the labelling is
only required to be reinstating. -/
theorem satisfies_completeClauses :
    Satisfies m (completeClauses n attackers accVar (rejVar n) (undVar n)) ↔
      ReinstatingLabelling (AF.attOf n attackers) (labelled n accVar m)
        (labelled n (rejVar n) m) ∧
      ∀ i < n, (m (undVar n i) = true ↔
        ¬ m (accVar i) = true ∧ ¬ m (rejVar n i) = true) := by
  rw [satisfies_completeClauses_iff m accVar_ne_zero (rejVar_ne_zero n) (undVar_ne_zero n)]
  simp only [forall_and]
  rw [← admissibleLabelling_iff hlt m, ← reinstated_iff hlt m]
  constructor
  · rintro ⟨hadm, hre, hund⟩
    exact ⟨⟨hadm, hre⟩, hund⟩
  · rintro ⟨h, hund⟩
    exact ⟨h.toAdmissibleLabelling, h.reinstated, hund⟩

end Families

/-- The assignment that makes exactly the acceptance variables of `A`, the
rejection variables of `R` and the undecidedness variables of the rest true. -/
noncomputable def ofLabelling (n : Nat) (A R : Set (Fin n)) : Assignment := by
  classical
  exact fun v =>
    decide ((∃ i ∈ A, v = accVar i) ∨ (∃ i ∈ R, v = rejVar n i) ∨
      ∃ i : Fin n, i ∉ A ∧ i ∉ R ∧ v = undVar n i)

section OfLabelling

variable {n : Nat} (A R : Set (Fin n)) (i : Fin n)

theorem ofLabelling_accVar : ofLabelling n A R (accVar i) = true ↔ i ∈ A := by
  simp only [ofLabelling, decide_eq_true_eq]
  constructor
  · intro h
    rcases h with ⟨j, hj, hv⟩ | ⟨j, -, hv⟩ | ⟨j, -, -, hv⟩
    · have hij : i = j := Fin.ext (by simpa [accVar] using hv)
      exact hij ▸ hj
    · have := i.2
      simp only [accVar, rejVar] at hv
      omega
    · have := i.2
      simp only [accVar, undVar] at hv
      omega
  · intro hi
    exact Or.inl ⟨i, hi, rfl⟩

theorem ofLabelling_rejVar : ofLabelling n A R (rejVar n i) = true ↔ i ∈ R := by
  simp only [ofLabelling, decide_eq_true_eq]
  constructor
  · intro h
    rcases h with ⟨j, -, hv⟩ | ⟨j, hj, hv⟩ | ⟨j, -, -, hv⟩
    · have := j.2
      simp only [accVar, rejVar] at hv
      omega
    · have hij : i = j := Fin.ext (by simp only [rejVar] at hv; omega)
      exact hij ▸ hj
    · have := i.2
      simp only [rejVar, undVar] at hv
      omega
  · intro hi
    exact Or.inr (Or.inl ⟨i, hi, rfl⟩)

theorem ofLabelling_undVar :
    ofLabelling n A R (undVar n i) = true ↔ i ∉ A ∧ i ∉ R := by
  simp only [ofLabelling, decide_eq_true_eq]
  constructor
  · intro h
    rcases h with ⟨j, -, hv⟩ | ⟨j, -, hv⟩ | ⟨j, hA, hR, hv⟩
    · have := j.2
      simp only [accVar, undVar] at hv
      omega
    · have := j.2
      simp only [rejVar, undVar] at hv
      omega
    · have hij : i = j := Fin.ext (by simp only [undVar] at hv; omega)
      exact hij ▸ ⟨hA, hR⟩
  · rintro ⟨hA, hR⟩
    exact Or.inr (Or.inr ⟨i, hA, hR, rfl⟩)

@[simp] theorem labelled_ofLabelling_accVar :
    labelled n accVar (ofLabelling n A R) = A :=
  Set.ext fun i => ofLabelling_accVar A R i

@[simp] theorem labelled_ofLabelling_rejVar :
    labelled n (rejVar n) (ofLabelling n A R) = R :=
  Set.ext fun i => ofLabelling_rejVar A R i

end OfLabelling

/-- Clauses whose models are the labellings in `L` accept the first components. -/
theorem exists_model_iff_labelling {n : Nat} {cs : List Clause}
    {L : Set (Fin n) → Set (Fin n) → Prop}
    (hsound : ∀ m, Satisfies m cs → L (labelled n accVar m) (labelled n (rejVar n) m))
    (hreal : ∀ A R, L A R → Satisfies (ofLabelling n A R) cs) (S : Set (Fin n)) :
    (∃ m, Satisfies m cs ∧ labelled n accVar m = S) ↔ ∃ R, L S R := by
  constructor
  · rintro ⟨m, hm, rfl⟩
    exact ⟨_, hsound m hm⟩
  · rintro ⟨R, hR⟩
    exact ⟨ofLabelling n S R, hreal S R hR, labelled_ofLabelling_accVar S R⟩

section AcceptedSets

variable {n : Nat} {attackers : List (List Nat)}
  (hlt : ∀ i, ∀ j ∈ row attackers i, j < n) (S : Set (Fin n))

include hlt

/-- The admissible clauses accept the admissible sets with all unattacked arguments. -/
theorem exists_admissibleClauses_iff :
    (∃ m, Satisfies m (admissibleClauses n attackers accVar (rejVar n)) ∧
        labelled n accVar m = S) ↔ S ∈ admissibleSets (AF.attOf n attackers) := by
  have hiff := fun m =>
    satisfies_admissibleClauses hlt m accVar_ne_zero (rejVar_ne_zero n)
  rw [exists_model_iff_labelling (fun m => (hiff m).mp)
    (fun A R hL => (hiff _).mpr (by simpa using hL)), exists_admissibleLabelling_iff]
  rfl

theorem exists_completePerfClauses_iff :
    (∃ m, Satisfies m (completePerfClauses n attackers accVar (rejVar n)) ∧
        labelled n accVar m = S) ↔ Complete (AF.attOf n attackers) S := by
  have hiff := satisfies_completePerfClauses hlt
  rw [exists_model_iff_labelling (fun m => (hiff m).mp)
    (fun A R hL => (hiff _).mpr (by simpa using hL))]
  simp [completeLabelling_iff]

theorem exists_stableClauses_iff :
    (∃ m, Satisfies m (stableClauses n attackers accVar (rejVar n)) ∧
        labelled n accVar m = S) ↔ Stable (AF.attOf n attackers) S := by
  have hiff := satisfies_stableClauses hlt
  rw [exists_model_iff_labelling (fun m => (hiff m).mp)
    (fun A R hL => (hiff _).mpr (by simpa using hL))]
  simp [stableLabelling_iff]

/-- The three-valued clauses accept every self-reinstating set. -/
theorem exists_completeClauses_iff :
    (∃ m, Satisfies m (completeClauses n attackers accVar (rejVar n) (undVar n)) ∧
        labelled n accVar m = S) ↔ SelfReinstating (AF.attOf n attackers) S := by
  have hiff := satisfies_completeClauses hlt
  rw [exists_model_iff_labelling (L := ReinstatingLabelling (AF.attOf n attackers))
    (fun m hm => ((hiff m).mp hm).1), exists_reinstatingLabelling_iff]
  intro A R hL
  refine (hiff _).mpr ⟨by simpa using hL, fun i hi => ?_⟩
  rw [ofLabelling_undVar A R ⟨i, hi⟩, ofLabelling_accVar A R ⟨i, hi⟩,
    ofLabelling_rejVar A R ⟨i, hi⟩]

end AcceptedSets

end Encodings

end AcceptableArguments
