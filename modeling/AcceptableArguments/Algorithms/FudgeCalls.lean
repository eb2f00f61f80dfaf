import AcceptableArguments.Algorithms.FudgeCorrectness
import AcceptableArguments.Algorithms.SolverCalls

/-!
# FUDGE asks quadratically many queries

A candidate is tested once, since it is no candidate afterwards, and each round of its
test enlarges `included`. The candidates pay for the queries.
-/

namespace AcceptableArguments.Algorithms

open AcceptableArguments.Sat Imperative Argumentation Encodings

/-! ## The queries -/

section Calls

variable (O : Oracle) (af : AF)

theorem costs_solveExtension (solver : SatSolver) :
    Costs solvesIn (solver.solveExtension O) 1 := by
  apply (costs_solve O solver).before
  intro x
  obtain ⟨sat, solver'⟩ := x
  cases sat with
  | UNSAT_V => exact costs_pure _
  | SAT_V => exact costs_pure _

theorem costs_admExtCandidate (accepted candidate : List Bool) :
    Costs solvesIn (admExtCandidate O af accepted candidate) 1 := by
  apply (costs_bounds _).after
  intro clauses
  apply (costs_addClauses _ clauses).after
  intro solver1
  apply Costs.after
  · apply Costs.foldlM_zero
    intro st i
    apply (costs_bounds _).after
    intro lit
    apply (costs_bounds _).after
    intro isCandidate
    apply (costs_bounds _).after
    intro isAccepted
    exact costs_ite ((costs_assume _ _).after fun _ => costs_pure _) (costs_pure _)
  · intro st
    exact (costs_addClause _ _).after fun _ => costs_solveExtension O _

theorem costs_admExtAttQuery (accepted included : List Bool) (a : Nat) :
    Costs solvesIn (admExtAttQuery O af accepted included a) 0 := by
  apply (costs_bounds _).after
  intro clauses
  apply (costs_addClauses _ clauses).after
  intro solver2
  apply (costs_bounds _).after
  intro clauses
  apply (costs_addClauses _ clauses).after
  intro solver2
  apply (costs_bounds _).after
  intro clauses
  apply (costs_addClauses _ clauses).after
  intro solver2
  apply Costs.after
  · apply Costs.foldlM_zero
    intro st i
    apply (costs_bounds _).after
    intro lit
    apply (costs_bounds _).after
    intro isIncluded
    apply (costs_bounds _).after
    intro isAccepted
    exact costs_ite ((costs_assume _ _).after fun _ => costs_pure _) (costs_pure _)
  · intro st
    exact costs_addClause _ _

theorem costs_admExtAtt (accepted included : List Bool) (a : Nat) :
    Costs solvesIn (admExtAtt O af accepted included a) 1 :=
  (costs_admExtAttQuery O af accepted included a).after fun solver2 =>
    costs_solveExtension O solver2

theorem costs_admExt (accepted model : List Bool) (a : Nat) (solver3 : SatSolver) :
    Costs solvesIn (admExt O af accepted model a solver3) 1 := by
  apply Costs.after
  · apply Costs.foldlM_zero
    intro solver3 i
    apply (costs_bounds _).after
    intro isMember
    apply (costs_bounds _).after
    intro isAccepted
    exact costs_ite ((costs_bounds _).after fun lit => costs_assume _ lit) (costs_pure _)
  · exact fun solver3 => costs_solveExtension O solver3

/-- A round of the inner loop asks `AdmExtAtt`, and `AdmExt` if there was an answer. -/
theorem costs_fudgeInnerRound (a : Nat) (st : FudgeState SatSolver × List Bool) :
    CostsAtMost solvesIn (fudgeInnerRound O af a st) (1 + 1) := by
  obtain ⟨st, included⟩ := st
  apply (costs_admExtAtt O af st.accepted included a).bindAtMost
  intro x
  apply costsAtMost_ite
  · apply Costs.atMost (c := 0) _ (Nat.zero_le 1)
    exact (costs_bounds _).after fun _ => costs_pure _
  · apply Costs.atMost (c := 1) _ le_rfl
    apply (costs_bounds _).after
    intro candidates
    apply (costs_admExt O af _ _ a _).before
    intro y
    apply costs_ite
    · exact (costs_bounds _).after fun _ => costs_pure _
    · exact (costs_bounds _).after fun _ => (costs_bounds _).after fun _ => costs_pure _

end Calls

/-! ## The loops -/

section Loops

variable {perfEnc : Bool} {af : AF} (h : AF.Ready perfEnc af) {O : Oracle} (hO : O.Correct)
  {w : List Event} {fuel : Nat} (hfuel : af.args < fuel)

include h hO hfuel

theorem fudgeInner_calls {X C : Set (Fin af.args)} {a : Fin af.args} {t : Nat → Bool}
    {st : FudgeState SatSolver} (hX : X ∈ admissibleSets af.att) (haX : a ∈ X)
    (hrel : FudgeRel af ∅ t C st) (htX : toSet af.args t ⊆ X) (haC : a ∈ C) :
    Ensures (whileTrue (fudgeInnerRound O af a) fuel (st, List.replicate af.args false)) w
      (fun st' w' => Processed af ∅ X C a st' ∧
        solvesIn w' ≤ solvesIn w + (af.args + 1) * 2) (fun _ _ => False) := by
  have hstart : InnerInv af ∅ X C a t (fun _ => false) C
      (st, List.replicate af.args false) :=
    ⟨hrel, replicate_eq_vec _ _, htX, Set.Subset.rfl, haC, by simp⟩
  have hcard : (toSet af.args (fun _ => false))ᶜ.ncard = af.args := by
    rw [toSet_none, Set.compl_empty, Set.ncard_univ, Nat.card_fin]
  apply ensures_whileTrue_costs (costs_fudgeInnerRound O af a)
    (fun k st' => ∃ s C', InnerInv af ∅ X C a t s C' st' ∧ (toSet af.args s)ᶜ.ncard = k)
    (fun st' => Processed af ∅ X C a st') ?_ ⟨_, _, hstart, hcard⟩ hfuel
  intro k st' w' hk
  obtain ⟨s, C', hinv, rfl⟩ := hk
  apply (fudgeInnerRound_ensures h hO (prefers_empty O af.args) hX haX hinv).post
  intro x w'' hx
  cases x with
  | inl st'' =>
      obtain ⟨s', C'', hinv', hlt⟩ := hx
      exact ⟨_, Set.ncard_lt_ncard (compl_lt_compl_iff_lt.mpr hlt), s', C'', hinv', rfl⟩
  | inr st'' => exact hx

/-- The candidate that is tested pays for the test. -/
theorem fudgeCandidate_calls {X C : Set (Fin af.args)} {a : Fin af.args} {t : Nat → Bool}
    {st : FudgeState SatSolver} (hX : X ∈ admissibleSets af.att) (haX : a ∈ X)
    (hrel : FudgeRel af ∅ t C st) (htX : toSet af.args t ⊆ X) :
    Ensures (fudgeCandidate O af fuel st a) w
      (fun st' w' => ∃ t' C', FudgeRel af ∅ t' C' st' ∧ toSet af.args t' ⊆ X ∧ C' ⊆ C ∧
        a ∉ C' ∧ solvesIn w' + C'.ncard * ((af.args + 1) * 2) ≤
          solvesIn w + C.ncard * ((af.args + 1) * 2)) (fun _ _ => False) := by
  obtain ⟨c, hc, hC, -⟩ := hrel.counts
  unfold fudgeCandidate
  simp only [hc, vec_get c a.2, bounds, Run.ofOption_some, Run.pure_bind]
  by_cases hca : c a = true
  · rw [if_pos hca]
    have haC : a ∈ C := by
      rw [← hC]
      exact hca
    apply (fudgeInner_calls h hO hfuel hX haX hrel htX haC).post
    intro st' w' hx
    obtain ⟨⟨t', C', hrel', htX', hCC', haC'⟩, hcalls⟩ := hx
    refine ⟨t', C', hrel', htX', hCC', haC', ?_⟩
    have hlt : C'.ncard < C.ncard := Set.ncard_lt_ncard ⟨hCC', fun hback => haC' (hback haC)⟩
    have hpaid : (C'.ncard + 1) * ((af.args + 1) * 2) ≤ C.ncard * ((af.args + 1) * 2) :=
      Nat.mul_le_mul_right _ hlt
    rw [Nat.succ_mul] at hpaid
    omega
  · rw [if_neg hca]
    apply ensures_pure
    refine ⟨t, C, hrel, htX, Set.Subset.rfl, ?_, le_rfl⟩
    rw [← hC]
    exact hca

theorem fudgeCandidates_calls {p t : Nat → Bool} {C : Set (Fin af.args)} {st : FudgeState SatSolver}
    (hp : toSet af.args p ∈ admissibleSets af.att) (hrel : FudgeRel af ∅ t C st)
    (htp : toSet af.args t ⊆ toSet af.args p) :
    Ensures (((List.range af.args).filter p).foldlM (fudgeCandidate O af fuel) st) w
      (fun st' w' => ∃ t' C', FudgeRel af ∅ t' C' st' ∧ C' ⊆ C ∧
        (∀ i ∈ toSet af.args p, i ∉ C') ∧
        solvesIn w' + C'.ncard * ((af.args + 1) * 2) ≤
          solvesIn w + C.ncard * ((af.args + 1) * 2)) (fun _ _ => False) := by
  refine (ensures_foldlM (fun pre st' w' => ∃ t' C', FudgeRel af ∅ t' C' st' ∧
    toSet af.args t' ⊆ toSet af.args p ∧ C' ⊆ C ∧
    (∀ i : Fin af.args, i.val ∈ pre → i ∉ C') ∧
    solvesIn w' + C'.ncard * ((af.args + 1) * 2) ≤
      solvesIn w + C.ncard * ((af.args + 1) * 2)) _ ?_ ?_).post ?_
  · intro pre a post st' w' hl hInv
    obtain ⟨t', C', hrel', ht', hC', hpre, hcalls⟩ := hInv
    have ha : a ∈ (List.range af.args).filter p := by
      rw [hl]
      simp
    obtain ⟨halt, hpa⟩ := List.mem_filter.mp ha
    have halt := List.mem_range.mp halt
    apply (fudgeCandidate_calls h hO hfuel (a := ⟨a, halt⟩) hp hpa hrel' ht').post
    intro st'' w'' hx
    obtain ⟨t'', C'', hrel'', ht'', hC'', ha'', hcalls'⟩ := hx
    refine ⟨t'', C'', hrel'', ht'', hC''.trans hC', ?_, by omega⟩
    intro i hi hiC
    cases List.mem_append.mp hi with
    | inl hi => exact hpre i hi (hC'' hiC)
    | inr hi =>
        have hia : i = ⟨a, halt⟩ := Fin.ext (List.mem_singleton.mp hi)
        exact ha'' (hia ▸ hiC)
  · exact ⟨t, C, hrel, htp, Set.Subset.rfl, by simp, le_rfl⟩
  · intro st' w' hInv
    obtain ⟨t', C', hrel', -, hC', hall, hcalls⟩ := hInv
    refine ⟨t', C', hrel', hC', fun i hi => hall i ?_, hcalls⟩
    simpa using hi

theorem fudgeRound_calls {t : Nat → Bool} {C : Set (Fin af.args)} {st : FudgeState SatSolver}
    (hrel : FudgeRel af ∅ t C st) :
    Ensures (fudgeRound O af fuel st) w (fun x w' => match x with
      | .inl st' => ∃ t' C', FudgeRel af ∅ t' C' st' ∧ C' ⊂ C ∧
          solvesIn w' + C'.ncard * ((af.args + 1) * 2) ≤
            solvesIn w + C.ncard * ((af.args + 1) * 2) + 1
      | .inr _ => solvesIn w' ≤ solvesIn w + 1) (fun _ _ => False) := by
  obtain ⟨result, accepted, ⟨candidate, num⟩, solver3⟩ := st
  have haccepted : accepted = vec af.args t := hrel.accepted_eq
  subst haccepted
  obtain ⟨c, hc, hC, -⟩ := hrel.counts
  simp only at hc
  subst hc
  unfold fudgeRound
  by_cases hzero : num = 0
  · rw [if_pos hzero]
    exact ensures_pure (Nat.le_succ _)
  · rw [if_neg hzero]
    apply ensures_bind
    have hquery : Ensures (admExtCandidate O af (vec af.args t) (vec af.args c)) w
        (fun x _ => x.1 = .UNSAT_V ∨ x.1 = .SAT_V ∧ ∃ p,
          toSet af.args p ∈ admissibleSets af.att ∧ toSet af.args t ⊆ toSet af.args p ∧
          (∃ i ∈ toSet af.args p, i ∈ toSet af.args c) ∧
          x.2.extension = (List.range af.args).filter p) (fun _ _ => False) := by
      apply admExtCandidate_ensures h hO t c
      · intro hend solver1 w'
        exact Or.inl rfl
      · intro p hp htp hx solver1 w' hext
        exact Or.inr ⟨rfl, p, hp, htp, hx, hext⟩
    apply (hquery.costs (costs_admExtCandidate O af _ _)).post
    intro x w' hx
    obtain ⟨sat, solver1⟩ := x
    obtain ⟨hanswer, hcalls⟩ := hx
    cases hanswer with
    | inl hsat =>
        simp only at hsat
        subst hsat
        exact ensures_pure hcalls.le
    | inr hanswer =>
        obtain ⟨hsat, p, hp, htp, ⟨i, hip, hic⟩, hext⟩ := hanswer
        obtain ⟨c₁, hc₁, hcounts₁⟩ := hrel.counts.removeAttacked h p
        simp only at hsat hext
        subst hsat
        simp only [reduceCtorEq, if_false, Oracle.extension_eq, hext, hc₁, bounds,
          Run.ofOption_some, Run.pure_bind]
        apply ensures_bind
        apply (fudgeCandidates_calls h hO hfuel hp (hrel.attacked hp hcounts₁ hrel.searches)
          htp).post
        intro st' w'' hx
        obtain ⟨t', C', hrel', hC', hout, hcalls'⟩ := hx
        apply ensures_pure
        have hsubset : C' ⊆ C := hC'.trans Set.sdiff_subset
        refine ⟨t', C', hrel', ⟨hsubset, fun hback => ?_⟩, ?_⟩
        · exact hout i hip (hback (hC ▸ hic))
        · have hpaid : (C \ attackedBy af.att (toSet af.args p)).ncard * ((af.args + 1) * 2) ≤
              C.ncard * ((af.args + 1) * 2) :=
            Nat.mul_le_mul_right _ (Set.ncard_le_ncard Set.sdiff_subset)
          omega

theorem fudgeSkep_calls :
    Ensures (fudgeSkep O af fuel) w
      (fun _ w' => solvesIn w' ≤ solvesIn w + af.args * (2 * af.args + 3) + 1)
      (fun _ _ => False) := by
  unfold fudgeSkep
  simp only [admissible_false_eq h, bounds, Run.ofOption_some, Run.pure_bind]
  apply ensures_bind
  apply ensures_addClauses_calls
  intro w₀ hw₀
  rw [← hw₀]
  have hsearch := searches_encoded (n := af.args) (2 * af.args)
    (admissibleClauses af.args af.attackers accVar (rejVar af.args))
  rw [family_admissibleClauses h] at hsearch
  have hcard : (Set.univ : Set (Fin af.args)).ncard = af.args := by
    rw [Set.ncard_univ, Nat.card_fin]
  refine ensures_whileTrue (fun k st w' => ∃ t C, FudgeRel af ∅ t C st ∧ C.ncard = k ∧
    solvesIn w' + k * (2 * af.args + 3) ≤ solvesIn w₀ + af.args * (2 * af.args + 3)) _ ?_
    ⟨_, _, fudgeRel_start hsearch, hcard, le_rfl⟩ hfuel
  intro k st w' hk
  obtain ⟨t, C, hrel, rfl, hcalls⟩ := hk
  apply (fudgeRound_calls h hO hfuel hrel).post
  intro x w'' hx
  cases x with
  | inl st' =>
      obtain ⟨t', C', hrel', hlt, hcalls'⟩ := hx
      have hfewer := Set.ncard_lt_ncard hlt
      refine ⟨_, hfewer, t', C', hrel', rfl, ?_⟩
      -- A candidate pays for its test and for one query of the outer loop.
      have hprice : ∀ j, j * (2 * af.args + 3) = j * ((af.args + 1) * 2) + j := by
        intro j
        have hsum : 2 * af.args + 3 = (af.args + 1) * 2 + 1 := by omega
        rw [hsum, Nat.mul_succ]
      rw [hprice C.ncard] at hcalls
      rw [hprice C'.ncard]
      omega
  | inr r =>
      dsimp only at hx
      omega

end Loops

/-- Whatever models the solver returns, `fudge_skep` ends after at most quadratically many
queries in the number of arguments, also where its answer is wrong. -/
theorem fudge_calls (perfEnc : Bool) (names : List String) (atts : List (String × String))
    (O : Oracle) (hO : O.Correct) :
    ∃ af, AF.build perfEnc names atts = some af ∧ ∀ fuel > af.args, ∀ log,
      ∃ result log', fudgeSkep O af fuel log = (.ok result, log') ∧
        solvesIn log' ≤ solvesIn log + names.length * (2 * names.length + 3) + 1 := by
  obtain ⟨af, haf, hready, -, hargs⟩ := AF.build_spec perfEnc names atts
  refine ⟨af, haf, ?_⟩
  rw [← hargs]
  exact fun fuel hfuel log => (fudgeSkep_calls hready hO hfuel).exists_ok

theorem fudge_calls_mutual : ∃ af,
    AF.build true ["a", "b"] [("a", "b"), ("b", "a")] = some af ∧ ∀ fuel > af.args, ∀ log,
      ∃ result log', fudgeSkep Oracle.exhaustive af fuel log = (.ok result, log') ∧
        solvesIn log' ≤ solvesIn log + 2 * (2 * 2 + 3) + 1 :=
  fudge_calls true ["a", "b"] [("a", "b"), ("b", "a")] Oracle.exhaustive
    Oracle.exhaustive_correct

end AcceptableArguments.Algorithms
