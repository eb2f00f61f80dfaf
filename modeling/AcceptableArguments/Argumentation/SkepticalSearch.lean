import AcceptableArguments.Argumentation.Labellings
import Mathlib.Logic.Relation

/-!
# A search for skeptical arguments through admissible sets

The state is a pair of a set `T` of accepted arguments and a set `C` of candidates.
No preferred set is computed: a candidate is accepted when no admissible set attacks
an admissible set around it, apart from sets covered by arguments that were found
compatible with it, one by one. The search is right exactly when compatibility can be
decided argument by argument. On every framework it accepts undisputed arguments only.
-/

namespace AcceptableArguments.Argumentation

variable {α : Type*} (att : α → α → Prop)

/-- Some admissible set contains both arguments. -/
def Compatible (a b : α) : Prop := ∃ S, Admissible att S ∧ a ∈ S ∧ b ∈ S

/-- Every credulous argument that is not skeptical is incompatible with some credulous
argument. -/
def SeparatedByArguments : Prop :=
  ∀ a, Credulous att a → ¬ Skeptical att a → ∃ b, Credulous att b ∧ ¬ Compatible att a b

/-- An admissible set outside `S` that attacks an admissible set around `T` and `a`. -/
structure AttackAnswer (T : Set α) (a : α) (S E : Set α) : Prop where
  mem : E ∈ admissibleSets att
  attacks : ∃ X ∈ admissibleSets att, insert a T ⊆ X ∧ Attacks att E X
  not_subset : ¬ E ⊆ S

/-- One update of the state. The sets in `good` are preferred by whoever answers the
attack queries. -/
inductive SearchStep (good : Set (Set α)) : Set α × Set α → Set α × Set α → Prop
  | attacked {T C E : Set α} (hE : E ∈ admissibleSets att) :
      SearchStep good (T, C) (T, C \ attackedBy att E)
  | accept {T C S : Set α} {a : α} (hS : ∀ s ∈ S, Compatible att a s)
      (hjoin : ∃ X ∈ admissibleSets att, insert a T ⊆ X) (hnone : ∀ E, ¬ AttackAnswer att T a S E) :
      SearchStep good (T, C) (insert a T, C \ {a})
  | reject {T C S E : Set α} {a : α} (hE : AttackAnswer att T a S E)
      (hgood : (∃ X ∈ good, AttackAnswer att T a S X) → E ∈ good)
      (hnone : ∀ X ∈ admissibleSets att, ¬ insert a (T ∪ E) ⊆ X) :
      SearchStep good (T, C) (T, C \ {a})

/-- The states that the search reaches from no accepted arguments and all candidates. -/
def Searched (good : Set (Set α)) (T C : Set α) : Prop :=
  Relation.ReflTransGen (SearchStep att good) (∅, Set.univ) (T, C)

/-- No admissible set around `T` contains a candidate. -/
def SearchEnd (T C : Set α) : Prop :=
  ∀ E ∈ admissibleSets att, T ⊆ E → ∀ i ∈ E, i ∉ C

variable {att}

/-- What every step preserves holds of every reached state. -/
theorem Searched.induction {good : Set (Set α)} {J : Set α → Set α → Prop}
    (hstart : J ∅ Set.univ)
    (hstep : ∀ T C T' C', SearchStep att good (T, C) (T', C') → J T C → J T' C')
    {T C : Set α} (h : Searched att good T C) : J T C := by
  suffices hall : ∀ s, Relation.ReflTransGen (SearchStep att good) (∅, Set.univ) s →
      J s.1 s.2 from hall (T, C) h
  intro s hs
  induction hs with
  | refl => exact hstart
  | tail _ hlast ih => exact hstep _ _ _ _ hlast ih

/-- A candidate without an attack answer is not attacked by any admissible set: a set of
compatible arguments contains no attacker, and every other one would be an answer. -/
theorem undisputed_of_no_answer {T S : Set α} {a : α} (hS : ∀ s ∈ S, Compatible att a s)
    (hjoin : ∃ X ∈ admissibleSets att, insert a T ⊆ X)
    (hnone : ∀ E, ¬ AttackAnswer att T a S E) : Undisputed att a := by
  obtain ⟨X, hX, hsub⟩ := hjoin
  have haX : a ∈ X := hsub (Set.mem_insert a T)
  refine ⟨credulous_iff_admissible.mpr ⟨X, hX.1, haX⟩, fun E hE hattacked => ?_⟩
  obtain ⟨x, hx, hxa⟩ := hattacked
  obtain ⟨P, hEP, hP⟩ := hE.exists_preferred
  have hxP : x ∈ P := hEP hx
  apply hnone P
  refine ⟨hP.mem_admissibleSets, ⟨X, hX, hsub, x, hxP, a, haX, hxa⟩, fun hPS => ?_⟩
  obtain ⟨Y, hY, haY, hxY⟩ := hS x (hPS hxP)
  exact hY.conflictFree x hxY a haY hxa

/-- Whatever is preferred among the answers, the search accepts undisputed arguments. -/
theorem Searched.undisputed {good : Set (Set α)} {T C : Set α} (h : Searched att good T C) :
    ∀ i ∈ T, Undisputed att i := by
  refine h.induction (J := fun T _ => ∀ i ∈ T, Undisputed att i) (fun i hi => hi.elim) ?_
  intro T C T' C' hstep hT
  cases hstep with
  | attacked hE => exact hT
  | @accept _ _ S a hS hjoin hnone =>
      intro i hi
      rcases hi with rfl | hi
      · exact undisputed_of_no_answer hS hjoin hnone
      · exact hT i hi
  | reject hE hgood hnone => exact hT

/-! ## Separated frameworks -/

/-- The skeptical arguments that are not accepted are candidates, and only skeptical
arguments are accepted. -/
def Correct (att : α → α → Prop) (T C : Set α) : Prop :=
  (∀ i ∈ T, Skeptical att i) ∧ ∀ i, Skeptical att i → i ∈ T ∨ i ∈ C

theorem preferred_superset_of_skeptical {T P : Set α} (hT : ∀ i ∈ T, Skeptical att i)
    (hP : Preferred att P) : T ⊆ P := fun i hi => hT i hi P hP

/-- A candidate without an attack answer is skeptical in a separated framework. -/
theorem skeptical_of_no_answer (hsep : SeparatedByArguments att) {T S : Set α} {a : α}
    (hT : ∀ i ∈ T, Skeptical att i) (hS : ∀ s ∈ S, Compatible att a s)
    (hcred : Credulous att a) (hnone : ∀ E, ¬ AttackAnswer att T a S E) :
    Skeptical att a := by
  by_contra hnot
  obtain ⟨b, ⟨Pb, hPb, hb⟩, hincomp⟩ := hsep a hcred hnot
  obtain ⟨Pa, hPa, ha⟩ := hcred
  have hne : Pb ≠ Pa := by
    intro h
    subst h
    exact hincomp ⟨Pb, hPb.admissible, ha, hb⟩
  apply hnone Pb
  refine ⟨hPb.mem_admissibleSets, ⟨Pa, hPa.mem_admissibleSets, ?_, hPb.attacks_of_ne hPa hne⟩,
    fun hsub => hincomp (hS b (hsub hb))⟩
  exact Set.insert_subset ha (preferred_superset_of_skeptical hT hPa)

/-- A candidate that cannot be joined to an answer is missing from a preferred set. -/
theorem not_skeptical_of_reject {T E : Set α} {a : α} (hT : ∀ i ∈ T, Skeptical att i)
    (hE : E ∈ admissibleSets att)
    (hnone : ∀ X ∈ admissibleSets att, ¬ insert a (T ∪ E) ⊆ X) : ¬ Skeptical att a := by
  intro hsk
  obtain ⟨P, hEP, hP⟩ := hE.1.exists_preferred
  apply hnone P hP.mem_admissibleSets
  exact Set.insert_subset (hsk P hP)
    (Set.union_subset (preferred_superset_of_skeptical hT hP) hEP)

theorem Correct.step (hsep : SeparatedByArguments att) {good : Set (Set α)}
    {T C T' C' : Set α} (hstep : SearchStep att good (T, C) (T', C'))
    (h : Correct att T C) : Correct att T' C' := by
  obtain ⟨hT, hC⟩ := h
  cases hstep with
  | attacked hE =>
      refine ⟨hT, fun i hi => ?_⟩
      rcases hC i hi with hiT | hiC
      · exact Or.inl hiT
      · exact Or.inr ⟨hiC, fun hatt => not_skeptical_of_attacked hE.1 hatt hi⟩
  | @accept _ _ S a hS hjoin hnone =>
      have hcred := (undisputed_of_no_answer hS hjoin hnone).credulous
      refine ⟨?_, fun i hi => ?_⟩
      · intro i hx
        rcases hx with rfl | hi
        · exact skeptical_of_no_answer hsep hT hS hcred hnone
        · exact hT i hi
      · rcases hC i hi with hiT | hiC
        · exact Or.inl (Or.inr hiT)
        · by_cases hia : i = a
          · exact Or.inl (Or.inl hia)
          · exact Or.inr ⟨hiC, hia⟩
  | @reject _ _ S E a hE hgood hnone =>
      refine ⟨hT, fun i hi => ?_⟩
      rcases hC i hi with hiT | hiC
      · exact Or.inl hiT
      · refine Or.inr ⟨hiC, ?_⟩
        intro heq
        subst heq
        exact not_skeptical_of_reject hT hE.mem hnone hi

/-- In a separated framework every finished search has accepted the skeptical
arguments. -/
theorem Searched.eq_skeptical (hsep : SeparatedByArguments att) {good : Set (Set α)}
    {T C : Set α} (h : Searched att good T C) (hend : SearchEnd att T C) :
    T = {i | Skeptical att i} := by
  obtain ⟨hT, hC⟩ : Correct att T C :=
    h.induction ⟨fun i hi => hi.elim, fun i _ => Or.inr trivial⟩
      (fun _ _ _ _ hstep => Correct.step hsep hstep)
  apply Set.Subset.antisymm hT
  intro i hi
  rcases hC i hi with hiT | hiC
  · exact hiT
  · obtain ⟨P, hP⟩ := exists_preferred att
    have hTP := preferred_superset_of_skeptical hT hP
    exact (hend P hP.mem_admissibleSets hTP i (hi P hP) hiC).elim

/-! ## Frameworks that are not separated -/

section NotSeparated

variable {a : α} (hcred : Credulous att a) (hnot : ¬ Skeptical att a)
  (hcomp : ∀ b, Credulous att b → Compatible att a b)

include hcomp in
theorem not_attacked_of_compatible {E : Set α} (hE : Admissible att E) :
    a ∉ attackedBy att E := by
  intro h
  obtain ⟨x, hx, hxa⟩ := h
  obtain ⟨S, hS, ha, hxS⟩ := hcomp x (credulous_iff_admissible.mpr ⟨E, hE, hx⟩)
  exact hS.conflictFree x hxS a ha hxa

include hnot hcomp in
/-- At least two preferred sets contain `a`. -/
theorem exists_other_preferred {P : Set α} (hP : Preferred att P) (ha : a ∈ P) :
    ∃ Q, Preferred att Q ∧ a ∈ Q ∧ P ≠ Q := by
  by_contra hnone
  push Not at hnone
  apply hnot
  intro P' hP'
  -- Every member of `P'` shares a preferred set with `a`, which can only be `P`.
  have hsub : P' ⊆ P := by
    intro b hb
    obtain ⟨S, hS, haS, hbS⟩ := hcomp b ⟨P', hP', hb⟩
    obtain ⟨Q, hSQ, hQ⟩ := hS.exists_preferred
    rw [hnone Q hQ (hSQ haS)]
    exact hSQ hbS
  exact hP'.eq_of_subset hP.admissible hsub ▸ ha

include hnot hcomp in
/-- Whenever an attack query for `a` has an answer, a preferred set with `a` is one. -/
theorem AttackAnswer.exists_preferred {T S E : Set α} (hT : ∀ i ∈ T, Skeptical att i)
    (hE : AttackAnswer att T a S E) :
    ∃ P, (Preferred att P ∧ a ∈ P) ∧ AttackAnswer att T a S P := by
  obtain ⟨b, hbE, hbS⟩ := Set.not_subset.mp hE.not_subset
  obtain ⟨X, hX, haX, hbX⟩ := hcomp b (credulous_iff_admissible.mpr ⟨E, hE.mem.1, hbE⟩)
  obtain ⟨P, hXP, hP⟩ := hX.exists_preferred
  obtain ⟨Q, hQ, haQ, hne⟩ := exists_other_preferred hnot hcomp hP (hXP haX)
  refine ⟨P, ⟨hP, hXP haX⟩, hP.mem_admissibleSets, ⟨Q, hQ.mem_admissibleSets, ?_, ?_⟩, ?_⟩
  · exact Set.insert_subset haQ (preferred_superset_of_skeptical hT hQ)
  · exact hP.attacks_of_ne hQ hne
  · exact fun hsub => hbS (hsub (hXP hbX))

include hnot hcomp in
/-- As long as only skeptical arguments are accepted, `a` remains a candidate. -/
theorem candidate_step {T C T' C' : Set α}
    (hstep : SearchStep att {P | Preferred att P ∧ a ∈ P} (T, C) (T', C'))
    (h : (∀ i ∈ T, Skeptical att i) → a ∈ C) :
    (∀ i ∈ T', Skeptical att i) → a ∈ C' := by
  intro hT'
  cases hstep with
  | attacked hE => exact ⟨h hT', not_attacked_of_compatible hcomp hE.1⟩
  | @accept _ _ S b hS hjoin hnone =>
      refine ⟨h (fun i hi => hT' i (Or.inr hi)), ?_⟩
      intro heq
      subst heq
      exact hnot (hT' a (Or.inl rfl))
  | @reject _ _ S E b hE hgood hnone =>
      refine ⟨h hT', ?_⟩
      intro heq
      subst heq
      obtain ⟨P, hP, hans⟩ := hE.exists_preferred hnot hcomp hT'
      obtain ⟨hEpref, haE⟩ := hgood ⟨P, hP, hans⟩
      apply hnone E hE.mem
      exact Set.insert_subset haE
        (Set.union_subset (preferred_superset_of_skeptical hT' hEpref) Set.Subset.rfl)

include hcred hnot hcomp in
/-- A search whose attack queries are answered by preferred sets with `a` accepts an
argument that is not skeptical. -/
theorem Searched.exists_not_skeptical {T C : Set α}
    (h : Searched att {P | Preferred att P ∧ a ∈ P} T C) (hend : SearchEnd att T C) :
    ∃ i ∈ T, ¬ Skeptical att i := by
  by_contra hnone
  push Not at hnone
  have haC : (∀ i ∈ T, Skeptical att i) → a ∈ C :=
    h.induction (J := fun T C => (∀ i ∈ T, Skeptical att i) → a ∈ C) (fun _ => trivial)
      (fun _ _ _ _ hstep => candidate_step hnot hcomp hstep)
  obtain ⟨P, hP, haP⟩ := hcred
  exact hend P hP.mem_admissibleSets (preferred_superset_of_skeptical hnone hP) a haP
    (haC hnone)

end NotSeparated

end AcceptableArguments.Argumentation
