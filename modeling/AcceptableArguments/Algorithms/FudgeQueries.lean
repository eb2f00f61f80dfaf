import AcceptableArguments.Algorithms.Fudge
import AcceptableArguments.Argumentation.SkepticalSearch

/-!
# The queries of FUDGE in terms of admissible sets
-/

namespace AcceptableArguments.Algorithms

open AcceptableArguments.Sat Imperative Argumentation Encodings

section Queries

variable {perfEnc : Bool} {af : AF} (h : AF.Ready perfEnc af) {O : Oracle}
  {w : List Event} {E : Halt Fault → List Event → Prop}

include h

/-! ## The encodings -/

theorem admissible_false_eq : Encodings.admissible af false =
    some (admissibleClauses af.args af.attackers accVar (rejVar af.args)) := by
  rw [Encodings.admissible_eq h]
  simp

theorem admissible_true_eq : Encodings.admissible af true =
    some (admissibleClauses af.args af.attackers (shiftedAccVar af.args)
      (shiftedRejVar af.args)) := by
  rw [Encodings.admissible_eq h]
  rfl

/-- The admissible clauses accept the admissible sets with all unattacked arguments. -/
theorem family_admissibleClauses :
    family af.args (admissibleClauses af.args af.attackers accVar (rejVar af.args)) =
      admissibleSets af.att :=
  Set.ext (exists_admissibleClauses_iff h.attackers_lt)

/-! ## `AdmExt'` -/

theorem admExtCandidate_scan {solver : SatSolver} (t c : Nat → Bool)
    {Q : SatSolver × Clause → List Event → Prop}
    (hQ : ∀ w', Q ({ solver with assumptions := solver.assumptions ++ accLits af.args t },
      accLits af.args c) w') :
    Ensures ((List.range af.args).foldlM
      (admExtCandidateStep O af (vec af.args t) (vec af.args c)) (solver, [])) w Q E := by
  refine (ensures_foldlM_range (fun k st _ =>
    st = ({ solver with assumptions := solver.assumptions ++ accLits k t }, accLits k c))
    af.args ?_ ?_).post ?_
  · intro k hk _ w' heq
    subst heq
    simp only [admExtCandidateStep, vec_get t hk, vec_get c hk, h.acceptedVar_get hk, bounds,
      Run.ofOption_some, Run.pure_bind, accLits, picks_succ]
    cases ht : t k <;> cases hc : c k
    · apply ensures_pure
      simp
    · apply ensures_pure
      simp
    · apply ensures_bind
      apply SatSolver.ensures_assume
      apply ensures_pure
      simp
    · apply ensures_bind
      apply SatSolver.ensures_assume
      apply ensures_pure
      simp
  · simp [accLits]
  · intro _ w' heq
    subst heq
    exact hQ w'

/-- An admissible set through a candidate and all accepted arguments. -/
theorem admExtCandidate_ensures (hO : O.Correct) (t c : Nat → Bool)
    {Q : Verdict × SatSolver → List Event → Prop}
    (hunsat : SearchEnd af.att (toSet af.args t) (toSet af.args c) →
      ∀ solver' w', Q (.UNSAT_V, solver') w')
    (hsat : ∀ p, toSet af.args p ∈ admissibleSets af.att →
      toSet af.args t ⊆ toSet af.args p →
      (∃ i ∈ toSet af.args p, i ∈ toSet af.args c) → ∀ solver' w',
      solver'.extension = (List.range af.args).filter p → Q (.SAT_V, solver') w') :
    Ensures (admExtCandidate O af (vec af.args t) (vec af.args c)) w Q E := by
  unfold admExtCandidate
  simp only [admissible_false_eq h, bounds, Run.ofOption_some, Run.pure_bind]
  apply ensures_bind
  apply SatSolver.ensures_addClauses
  apply ensures_bind
  apply admExtCandidate_scan h
  intro w'
  apply ensures_bind
  apply SatSolver.ensures_addClause
  have hstart := searches_encoded (n := af.args) (2 * af.args)
    (admissibleClauses af.args af.attackers accVar (rejVar af.args))
  rw [family_admissibleClauses h] at hstart
  have hsearch := (hstart.assumeAll (A := {S | toSet af.args t ⊆ S})
    (fun m => allHold_accLits)).addClause (c := accLits af.args c)
    (C := fun S => ∃ i ∈ toSet af.args c, i ∈ S) (fun m _ => clauseHolds_accLits)
  apply hsearch.ensures_solveExtension hO
  · intro hno solver' w' _
    apply hunsat
    intro X hX hTX i hi hic
    exact hno X ⟨hX, i, hic, hi⟩ hTX
  · intro p hx htp solver' w' _ _ hext
    obtain ⟨hp, i, hic, hip⟩ := hx
    exact hsat p hp htp ⟨i, hip, hic⟩ solver' w' hext

/-! ## `AdmExt` -/

theorem admExt_scan {solver : SatSolver} (t p : Nat → Bool) (a : Nat)
    {Q : SatSolver → List Event → Prop}
    (hQ : ∀ w', Q { solver with
        assumptions := solver.assumptions ++
          accLits af.args (fun i => decide (a = i) || p i || t i) } w') :
    Ensures ((List.range af.args).foldlM
      (admExtStep O af (vec af.args t) (vec af.args p) a) solver) w Q E := by
  refine (ensures_foldlM_range (fun k st _ =>
    st = { solver with
      assumptions := solver.assumptions ++
        accLits k (fun i => decide (a = i) || p i || t i) }) af.args ?_ ?_).post ?_
  · intro k hk _ w' heq
    subst heq
    simp only [admExtStep, vec_get t hk, vec_get p hk, h.acceptedVar_get hk, bounds,
      Run.ofOption_some, Run.pure_bind, accLits, picks_succ]
    by_cases hcond : a = k ∨ p k = true ∨ t k = true
    · rw [if_pos hcond]
      apply SatSolver.ensures_assume
      have : (decide (a = k) || p k || t k) = true := by simpa [or_assoc] using hcond
      simp [this]
    · rw [if_neg hcond]
      apply ensures_pure
      have : ¬ (decide (a = k) || p k || t k) = true := by simpa [or_assoc] using hcond
      simp [this]
  · simp [accLits]
  · intro _ w' heq
    subst heq
    exact hQ w'

/-- An admissible set around the answer, the accepted arguments and `a`. -/
theorem admExt_ensures (hO : O.Correct) (t p : Nat → Bool) (a : Fin af.args)
    {solver3 : SatSolver}
    (hsearch : Searches af.args (admissibleSets af.att) Set.univ solver3)
    {Q : Verdict × SatSolver → List Event → Prop}
    (hunsat : (∀ X ∈ admissibleSets af.att,
        ¬ insert a (toSet af.args t ∪ toSet af.args p) ⊆ X) →
      ∀ solver' w', Searches af.args (admissibleSets af.att) Set.univ solver' →
        Q (.UNSAT_V, solver') w')
    (hsat : ∀ q, toSet af.args q ∈ admissibleSets af.att →
      insert a (toSet af.args t ∪ toSet af.args p) ⊆ toSet af.args q → ∀ solver' w',
      Searches af.args (admissibleSets af.att) Set.univ solver' →
      solver'.extension = (List.range af.args).filter q → Q (.SAT_V, solver') w') :
    Ensures (admExt O af (vec af.args t) (vec af.args p) a solver3) w Q E := by
  have hset : toSet af.args (fun i => decide (a.val = i) || p i || t i) =
      insert a (toSet af.args t ∪ toSet af.args p) := by
    ext i
    simp only [mem_toSet, Bool.or_eq_true, decide_eq_true_eq, Set.mem_insert_iff, Set.mem_union,
      Fin.ext_iff]
    tauto
  unfold admExt
  apply ensures_bind
  apply admExt_scan h
  intro w'
  have hassumed := hsearch.assumeAll
    (A := {S | insert a (toSet af.args t ∪ toSet af.args p) ⊆ S})
    (fun m => by rw [allHold_accLits, hset]; rfl)
  apply hassumed.ensures_solveExtension hO
  · intro hno solver' w' hsearch'
    exact hunsat hno solver' w' hsearch'
  · intro q hq hsub solver' w' hsearch' _ hext
    exact hsat q hq hsub solver' w' hsearch' hext

/-! ## `AdmExtAtt` -/

theorem admExtAtt_scan {solver : SatSolver} (t s : Nat → Bool) (a : Nat)
    {Q : SatSolver × Clause → List Event → Prop}
    (hQ : ∀ w', Q ({ solver with
        assumptions := solver.assumptions ++ picks af.args (fun i => decide (i = a) || t i)
          (fun i => (shiftedAccVar af.args i : Int)) }, complement af.args s) w') :
    Ensures ((List.range af.args).foldlM
      (admExtAttStep O af (vec af.args t) (vec af.args s) a) (solver, [])) w Q E := by
  refine (ensures_foldlM_range (fun k st _ =>
    st = ({ solver with
      assumptions := solver.assumptions ++ picks k (fun i => decide (i = a) || t i)
        (fun i => (shiftedAccVar af.args i : Int)) }, complement k s)) af.args ?_ ?_).post ?_
  · intro k hk _ w' heq
    subst heq
    simp only [admExtAttStep, vec_get t hk, vec_get s hk, h.acceptedVar_get hk, bounds,
      Run.ofOption_some, Run.pure_bind, complement, accLits, picks_succ]
    by_cases hcond : k = a ∨ t k = true
    · rw [if_pos hcond]
      apply ensures_bind
      apply SatSolver.ensures_assume
      apply ensures_pure
      have : (decide (k = a) || t k) = true := by simpa using hcond
      cases s k <;> simp [this, shiftedAccVar]
    · rw [if_neg hcond]
      apply ensures_pure
      have : ¬ (decide (k = a) || t k) = true := by simpa using hcond
      cases s k <;> simp [this]
  · simp [complement, accLits]
  · intro _ w' heq
    subst heq
    exact hQ w'

omit h in
theorem allHold_shifted {n : Nat} (m : Assignment) (t : Nat → Bool) (a : Fin n) :
    AllHold m (picks n (fun i => decide (i = a.val) || t i)
        (fun i => (shiftedAccVar n i : Int))) ↔
      insert a (toSet n t) ⊆ labelled n (shiftedAccVar n) m := by
  constructor
  · intro hall i hi
    have hflag : (decide (i.val = a.val) || t i) = true := by
      simpa [Fin.ext_iff] using hi
    have := hall _ (mem_picks.mpr ⟨i, i.2, hflag, rfl⟩)
    rwa [litHolds_pos m (shiftedAccVar_ne_zero n i)] at this
  · intro hsub l hl
    obtain ⟨i, hi, hflag, rfl⟩ := mem_picks.mp hl
    rw [litHolds_pos m (shiftedAccVar_ne_zero n i)]
    have hmem : (⟨i, hi⟩ : Fin n) ∈ insert a (toSet n t) := by
      simpa [Fin.ext_iff] using hflag
    exact hsub hmem

theorem admExtAttQuery_ensures (t s : Nat → Bool) (a : Fin af.args)
    {Q : SatSolver → List Event → Prop}
    (hQ : ∀ w', Q { SatSolver.new (4 * af.args + af.attacks) af.args with
      clauses := attackQueryClauses af.args af.attackers ++ [complement af.args s]
      assumptions := picks af.args (fun i => decide (i = a.val) || t i)
        (fun i => (shiftedAccVar af.args i : Int)) } w') :
    Ensures (admExtAttQuery O af (vec af.args t) (vec af.args s) a) w Q E := by
  unfold admExtAttQuery
  simp only [admissible_false_eq h, admissible_true_eq h, Encodings.attacks_eq h, bounds,
    Run.ofOption_some, Run.pure_bind]
  apply ensures_bind
  apply SatSolver.ensures_addClauses
  apply ensures_bind
  apply SatSolver.ensures_addClauses
  apply ensures_bind
  apply SatSolver.ensures_addClauses
  apply ensures_bind
  apply admExtAtt_scan h
  intro w'
  apply SatSolver.ensures_addClause
  exact hQ _

/-- The models of the whole query are the attack answers. -/
theorem exists_attackAnswer_iff (t s : Nat → Bool) (a : Fin af.args)
    (X : Set (Fin af.args)) :
    (∃ m, (Satisfies m (attackQueryClauses af.args af.attackers ++ [complement af.args s]) ∧
        AllHold m (picks af.args (fun i => decide (i = a.val) || t i)
          (fun i => (shiftedAccVar af.args i : Int)))) ∧ labelled af.args accVar m = X) ↔
      AttackAnswer af.att (toSet af.args t) a (toSet af.args s) X := by
  simp only [satisfies_append, satisfies_cons, satisfies_nil, and_true,
    clauseHolds_complement, allHold_shifted]
  constructor
  · intro hx
    obtain ⟨m, ⟨⟨hm, hnot⟩, hsub⟩, rfl⟩ := hx
    obtain ⟨hX, hS, hatt⟩ := (exists_attackQuery_model_iff h.attackers_lt _ _).mp
      ⟨m, hm, rfl, rfl⟩
    exact ⟨hX, ⟨_, hS, hsub, hatt⟩, hnot⟩
  · intro hx
    obtain ⟨hX, ⟨S, hS, hsub, hatt⟩, hnot⟩ := hx
    obtain ⟨m, hm, rfl, rfl⟩ := (exists_attackQuery_model_iff h.attackers_lt _ _).mpr
      ⟨hX, hS, hatt⟩
    exact ⟨m, ⟨⟨hm, hnot⟩, hsub⟩, rfl⟩

/-- The query returns an attack answer, a good one if the oracle prefers those. -/
theorem admExtAtt_ensures (hO : O.Correct) (t s : Nat → Bool) (a : Fin af.args)
    {good : Set (Set (Fin af.args))}
    (hgood : O.Prefers (fun m => labelled af.args accVar m ∈ good))
    {Q : Verdict × SatSolver → List Event → Prop}
    (hunsat : (∀ X, ¬ AttackAnswer af.att (toSet af.args t) a (toSet af.args s) X) →
      ∀ solver' w', Q (.UNSAT_V, solver') w')
    (hsat : ∀ p, AttackAnswer af.att (toSet af.args t) a (toSet af.args s) (toSet af.args p) →
      ((∃ X ∈ good, AttackAnswer af.att (toSet af.args t) a (toSet af.args s) X) →
        toSet af.args p ∈ good) → ∀ solver' w', solver'.model = vec af.args p →
      solver'.extension = (List.range af.args).filter p → Q (.SAT_V, solver') w') :
    Ensures (admExtAtt O af (vec af.args t) (vec af.args s) a) w Q E := by
  unfold admExtAtt
  apply ensures_bind
  apply admExtAttQuery_ensures h
  intro w'
  apply SatSolver.ensures_solveExtension_prefers hO
  · intro hno w''
    apply hunsat
    intro X hX
    obtain ⟨m, hm, -⟩ := (exists_attackAnswer_iff h t s a X).mpr hX
    exact hno ⟨m, hm⟩
  · intro m hm hpref cost w''
    refine hsat (fun i => m (i + 1)) ((exists_attackAnswer_iff h t s a _).mp ⟨m, hm, rfl⟩) ?_
      _ _ rfl rfl
    intro hx
    obtain ⟨X, hXgood, hX⟩ := hx
    obtain ⟨m', hm', rfl⟩ := (exists_attackAnswer_iff h t s a X).mpr hX
    exact hpref _ hgood ⟨m', hm', hXgood⟩

end Queries

end AcceptableArguments.Algorithms
