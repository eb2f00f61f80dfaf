import AcceptableArguments.Algorithms.FudgeCorrectness
import AcceptableArguments.Imperative.Heads

/-!
# The loop heads of FUDGE

`fudge_skep` once more, with its locals noted at the head of each of its loops: the outer
and the inner `while`, the loops that set up the three queries, the nested loops that
remove attacked candidates, the loop over the extension and the one that enlarges
`included`.
-/

namespace AcceptableArguments.Algorithms

open AcceptableArguments.Sat Imperative Argumentation Encodings

/-- Runs that note the locals at loop heads. -/
abbrev HeadM := Run Fault (List Event × List (FudgeState SatSolver))

/-! ## The runs -/

def removeAttackedHeads (af : AF) (st : FudgeState SatSolver) (extension : List Nat) :
    HeadM Candidates :=
  foldNoting (fun c => { st with candidates := c })
    (fun c i => do
      let attacked ← (bounds af.attacked[i]?).beside
      foldNoting (fun c => { st with candidates := c })
        (fun c j => (bounds (c.remove j)).beside) attacked c)
    extension st.candidates

def admExtCandidateHeads (O : Oracle) (af : AF) (st : FudgeState SatSolver) :
    HeadM (Verdict × SatSolver) := do
  let solver1 := SatSolver.new (2 * af.args) af.args
  let clauses ← (bounds (Encodings.admissible af false)).beside
  let solver1 ← (solver1.addClauses clauses).beside
  let (solver1, intersectClause) ← foldNoting (fun _ => st)
    (fun x i => (admExtCandidateStep O af st.accepted st.candidates.candidate x i).beside)
    (List.range af.args) (solver1, [])
  let solver1 ← (solver1.addClause intersectClause).beside
  (solver1.solveExtension O).beside

def admExtAttHeads (O : Oracle) (af : AF) (st : FudgeState SatSolver) (included : List Bool)
    (a : Nat) : HeadM (Verdict × SatSolver) := do
  let solver2 := SatSolver.new (4 * af.args + af.attacks) af.args
  let clauses ← (bounds (Encodings.admissible af false)).beside
  let solver2 ← (solver2.addClauses clauses).beside
  let clauses ← (bounds (Encodings.admissible af true)).beside
  let solver2 ← (solver2.addClauses clauses).beside
  let clauses ← (bounds (Encodings.attacks af)).beside
  let solver2 ← (solver2.addClauses clauses).beside
  let (solver2, nonsubsetClause) ← foldNoting (fun _ => st)
    (fun x i => (admExtAttStep O af st.accepted included a x i).beside)
    (List.range af.args) (solver2, [])
  let solver2 ← (solver2.addClause nonsubsetClause).beside
  (solver2.solveExtension O).beside

def admExtHeads (O : Oracle) (af : AF) (st : FudgeState SatSolver) (model : List Bool) (a : Nat) :
    HeadM (Verdict × SatSolver) := do
  let solver3 ← foldNoting (fun _ => st)
    (fun x i => (admExtStep O af st.accepted model a x i).beside)
    (List.range af.args) st.solver3
  (solver3.solveExtension O).beside

def includeAllHeads (st : FudgeState SatSolver) (included : List Bool) (extension : List Nat) :
    HeadM (List Bool) :=
  foldNoting (fun _ => st)
    (fun included i => (bounds (do
      if ← included[i]? then return included else setAt included i true)).beside)
    extension included

def fudgeInnerRoundHeads (O : Oracle) (af : AF) (a : Nat) (st : FudgeState SatSolver × List Bool) :
    HeadM ((FudgeState SatSolver × List Bool) ⊕ FudgeState SatSolver) := do
  let (st, included) := st
  let (sat, solver2) ← admExtAttHeads O af st included a
  if sat = .UNSAT_V then
    return .inr (← (bounds (st.accept af a)).beside)
  else
    let candidates ← removeAttackedHeads af st solver2.extension
    let (sat, solver3) ← admExtHeads O af { st with candidates := candidates } solver2.model a
    if sat = .UNSAT_V then
      let candidates ← (bounds (candidates.remove a)).beside
      return .inr { st with candidates := candidates, solver3 := solver3 }
    else
      let st := { st with candidates := candidates, solver3 := solver3 }
      let candidates ← removeAttackedHeads af st solver3.extension
      let st := { st with candidates := candidates }
      let included ← includeAllHeads st included solver3.extension
      return .inl (st, included)

def fudgeCandidateHeads (O : Oracle) (af : AF) (fuel : Nat) (st : FudgeState SatSolver) (a : Nat) :
    HeadM (FudgeState SatSolver) := do
  if ← (bounds st.candidates.candidate[a]?).beside then
    whileNoting Prod.fst (fudgeInnerRoundHeads O af a) fuel (st, List.replicate af.args false)
  else
    return st

def fudgeRoundHeads (O : Oracle) (af : AF) (fuel : Nat) (st : FudgeState SatSolver) :
    HeadM (FudgeState SatSolver ⊕ List String) := do
  if st.candidates.numCandidates = 0 then
    return .inr st.result
  else
    let (sat, solver1) ← admExtCandidateHeads O af st
    if sat = .UNSAT_V then
      return .inr st.result
    else
      let candidates ← removeAttackedHeads af st solver1.extension
      let st ← foldNoting id (fudgeCandidateHeads O af fuel) solver1.extension
        { st with candidates := candidates }
      return .inl st

/-- `fudge_skep` with its locals at every loop head. -/
def fudgeHeads (O : Oracle) (af : AF) (fuel : Nat) : HeadM (List String) := do
  let solver3 := SatSolver.new (2 * af.args) af.args
  let clauses ← (bounds (Encodings.admissible af false)).beside
  let solver3 ← (solver3.addClauses clauses).beside
  whileNoting id (fudgeRoundHeads O af fuel) fuel
    { result := []
      accepted := List.replicate af.args false
      candidates := ⟨List.replicate af.args true, af.args⟩
      solver3 := solver3 }

/-! ## The loops that leave the locals alone -/

section Queries

variable {P : FudgeState SatSolver → Prop} {st : FudgeState SatSolver} (hst : P st) {w : List Event}

include hst

theorem admExtCandidateHeads_visits (O : Oracle) (af : AF) :
    Visits P (admExtCandidateHeads O af st)
      (admExtCandidate O af st.accepted st.candidates.candidate) w (fun _ => True) := by
  apply (visits_beside_any _).bind
  intro clauses w₁ _
  apply (visits_beside_any _).bind
  intro solver1 w₂ _
  apply (visits_foldNoting (fun _ => True) (fun _ _ => hst)
    (fun _ _ _ _ _ => visits_beside_any _) trivial).bind
  intro x w₃ _
  apply (visits_beside_any _).bind
  intro solver1 w₄ _
  exact visits_beside_any _

theorem admExtAttHeads_visits (O : Oracle) (af : AF) (included : List Bool) (a : Nat) :
    Visits P (admExtAttHeads O af st included a) (admExtAtt O af st.accepted included a) w
      (fun _ => True) := by
  unfold admExtAtt admExtAttQuery
  simp only [Run.bind_assoc]
  apply (visits_beside_any _).bind
  intro clauses w₁ _
  apply (visits_beside_any _).bind
  intro solver2 w₂ _
  apply (visits_beside_any _).bind
  intro clauses w₃ _
  apply (visits_beside_any _).bind
  intro solver2 w₄ _
  apply (visits_beside_any _).bind
  intro clauses w₅ _
  apply (visits_beside_any _).bind
  intro solver2 w₆ _
  apply (visits_foldNoting (fun _ => True) (fun _ _ => hst)
    (fun _ _ _ _ _ => visits_beside_any _) trivial).bind
  intro x w₇ _
  apply (visits_beside_any _).bind
  intro solver2 w₈ _
  exact visits_beside_any _

theorem admExtHeads_visits (O : Oracle) (af : AF) (model : List Bool) (a : Nat) :
    Visits P (admExtHeads O af st model a) (admExt O af st.accepted model a st.solver3) w
      (fun _ => True) := by
  apply (visits_foldNoting (fun _ => True) (fun _ _ => hst)
    (fun _ _ _ _ _ => visits_beside_any _) trivial).bind
  intro solver3 w₁ _
  exact visits_beside_any _

theorem includeAllHeads_visits (included : List Bool) (extension : List Nat) :
    Visits P (includeAllHeads st included extension) (bounds (includeAll included extension)) w
      (fun _ => True) := by
  unfold bounds includeAll
  rw [ofOption_foldlM]
  exact visits_foldNoting (fun _ => True) (fun _ _ => hst)
    (fun _ _ _ _ _ => visits_beside_any _) trivial

end Queries

/-- The loops that remove attacked candidates. At their heads the candidates are some of
those before the loops. -/
theorem removeAttackedHeads_visits {perfEnc : Bool} {af : AF} (h : AF.Ready perfEnc af)
    {P : FudgeState SatSolver → Prop} {st : FudgeState SatSolver} {C : Set (Fin af.args)}
    {extension : List Nat} {w : List Event} (hext : ∀ i ∈ extension, i < af.args)
    (hcounts : Counts af.args C st.candidates)
    (hst : ∀ c C', C' ⊆ C → Counts af.args C' c → P { st with candidates := c }) :
    Visits P (removeAttackedHeads af st extension)
      (bounds (removeAttacked af extension st.candidates)) w
      (fun c => ∃ C' ⊆ C, Counts af.args C' c) := by
  have hhead : ∀ c, (∃ C' ⊆ C, Counts af.args C' c) → P { st with candidates := c } := by
    intro c hc
    obtain ⟨C', hsub, hc⟩ := hc
    exact hst c C' hsub hc
  unfold removeAttackedHeads removeAttacked bounds
  rw [ofOption_foldlM]
  apply visits_foldNoting _ hhead ?_ ⟨C, Set.Subset.rfl, hcounts⟩
  intro c w₁ hc i hi
  rw [ofOption_bind, h.attacked_get (hext i hi)]
  apply (visits_beside (Q := fun attacked => ∀ j ∈ attacked, j < af.args) ?_).bind
  · intro attacked w₂ hattacked
    rw [ofOption_foldlM]
    apply visits_foldNoting _ hhead ?_ hc
    intro c w₃ hc j hj
    obtain ⟨C', hsub, hc⟩ := hc
    obtain ⟨c', hc', hcounts'⟩ := hc.remove ⟨j, hattacked j hj⟩
    apply visits_beside
    exact ensures_ofOption hc' ⟨_, Set.sdiff_subset.trans hsub, hcounts'⟩
  · apply ensures_ofOption rfl
    intro j hj
    have hmem := (mem_of_mem_row ((h.attacked_iff i j).mp hj)).1
    rwa [h.attackers_length] at hmem

/-! ## The invariant -/

/-- What holds at every loop head. -/
structure LoopInvariant (af : AF) (st : FudgeState SatSolver) : Prop where
  candidate_length : st.candidates.candidate.length = af.args
  accepted_length : st.accepted.length = af.args
  count : st.candidates.numCandidates = st.candidates.candidate.count true
  disjoint : ∀ i : Nat, st.candidates.candidate[i]? = some true → st.accepted[i]? ≠ some true
  reports : Reports af (flagged af.args st.accepted) st.result
  admissible : ∃ S, Admissible af.att S ∧ flagged af.args st.accepted ⊆ S

theorem ncard_toSet (n : Nat) (p : Nat → Bool) : (toSet n p).ncard = (vec n p).count true := by
  have himage : Fin.val '' toSet n p = (((List.range n).filter p).toFinset : Set Nat) := by
    ext i
    simp only [Set.mem_image, mem_toSet, List.coe_toFinset, List.mem_filter, List.mem_range,
      Set.mem_ofPred_eq]
    constructor
    · intro hx
      obtain ⟨k, hk, rfl⟩ := hx
      exact ⟨k.2, hk⟩
    · intro hx
      exact ⟨⟨i, hx.1⟩, hx.2, rfl⟩
  calc (toSet n p).ncard
      = (Fin.val '' toSet n p).ncard := (Set.ncard_image_of_injective _ Fin.val_injective).symm
    _ = ((List.range n).filter p).toFinset.card := by rw [himage, Set.ncard_coe_finset]
    _ = ((List.range n).filter p).length :=
        List.toFinset_card_of_nodup (List.nodup_range.filter _)
    _ = (vec n p).count true := by
        rw [vec, List.count, List.countP_map, List.countP_eq_length_filter]
        congr 1
        apply List.filter_congr
        intro i _
        simp

/-- The invariant in terms of the abstract search: `C` is a set of candidates and `X` an
admissible set around the accepted arguments. -/
theorem FudgeRel.loopInvariant {af : AF} {good : Set (Set (Fin af.args))} {t : Nat → Bool}
    {C X : Set (Fin af.args)} {st : FudgeState SatSolver} (hrel : FudgeRel af good t C st)
    (hX : Admissible af.att X) (htX : toSet af.args t ⊆ X) {c : Candidates}
    {C' : Set (Fin af.args)} (hsub : C' ⊆ C) (hcounts : Counts af.args C' c)
    (solver3 : SatSolver) :
    LoopInvariant af { st with candidates := c, solver3 := solver3 } := by
  obtain ⟨p, hp, rfl, hnum⟩ := hcounts
  constructor <;> simp only [hrel.accepted_eq, hp, flagged_vec]
  · exact length_vec _ _
  · exact length_vec _ _
  · rw [hnum, ncard_toSet]
  · intro i hi hacc
    have hlt : i < af.args := by
      by_contra hge
      rw [List.getElem?_eq_none (by simpa using hge)] at hi
      cases hi
    rw [vec_get _ hlt] at hi hacc
    exact hrel.disjoint ⟨i, hlt⟩ (hsub (Option.some.inj hi)) (Option.some.inj hacc)
  · exact hrel.reports
  · exact ⟨X, hX, htX⟩

/-! ## The loops -/

section Loops

variable {perfEnc : Bool} {af : AF} (h : AF.Ready perfEnc af) {O : Oracle}
  (hO : O.Correct) {good : Set (Set (Fin af.args))}
  (hgood : O.Prefers (fun m => labelled af.args accVar m ∈ good)) {w : List Event}

omit h hO hgood in
theorem mem_filter_range_lt {n : Nat} {p : Nat → Bool} :
    ∀ i ∈ (List.range n).filter p, i < n := fun _ hi =>
  List.mem_range.mp (List.mem_of_mem_filter hi)

include h hO hgood

theorem fudgeInnerRoundHeads_visits {X C₀ C : Set (Fin af.args)} {a : Fin af.args}
    {t s : Nat → Bool} {st : FudgeState SatSolver × List Bool} (hX : X ∈ admissibleSets af.att)
    (haX : a ∈ X) (hinv : InnerInv af good X C₀ a t s C st) :
    Visits (LoopInvariant af) (fudgeInnerRoundHeads O af a st) (fudgeInnerRound O af a st) w
      (Sum.elim (fun st' => ∃ s' C', InnerInv af good X C₀ a t s' C' st')
        (Processed af good X C₀ a)) := by
  have hround := fudgeInnerRound_ensures (w := w) h hO hgood hX haX hinv
  suffices hvisits : Visits (LoopInvariant af) (fudgeInnerRoundHeads O af a st)
      (fudgeInnerRound O af a st) w (fun _ => True) by
    apply hvisits.ensures
    apply hround.post
    intro x w' hx
    cases x with
    | inl st' =>
        obtain ⟨s', C', hinv', -⟩ := hx
        exact ⟨s', C', hinv'⟩
    | inr st' => exact hx
  clear hround
  obtain ⟨⟨result, accepted, candidates, solver3⟩, included⟩ := st
  have haccepted : accepted = vec af.args t := hinv.rel.accepted_eq
  have hincluded : included = vec af.args s := hinv.included_eq
  subst haccepted hincluded
  have hcounts : Counts af.args C candidates := hinv.rel.counts
  have hhead : ∀ c C', C' ⊆ C → Counts af.args C' c → ∀ solver3,
      LoopInvariant af ⟨result, vec af.args t, c, solver3⟩ := fun c C' hsub hc =>
    hinv.rel.loopInvariant hX.1 hinv.accepted_subset hsub hc
  apply (admExtAttHeads_visits (hhead _ C Set.Subset.rfl hcounts solver3) O af _ a).bind_ensures
  apply admExtAtt_ensures h hO t s a hgood
  · intro _ solver2 w₁
    simp only [if_true]
    apply (visits_beside_any _).bind
    intro st' w₂ _
    exact visits_pure trivial
  · intro p _ _ solver2 w₁ hmodel2 hext2
    simp only [reduceCtorEq, if_false, Oracle.extension_eq, Oracle.model_eq, hext2, hmodel2]
    apply (removeAttackedHeads_visits h mem_filter_range_lt hcounts
      (fun c C' hsub hc => hhead c C' hsub hc solver3)).bind
    intro c₁ w₂ hc
    obtain ⟨C₁, hsub₁, hcounts₁⟩ := hc
    apply (admExtHeads_visits (hhead c₁ C₁ hsub₁ hcounts₁ solver3) O af _ a).bind_ensures
    apply admExt_ensures h hO t p a hinv.rel.searches
    · intro _ solver3' w₃ _
      simp only [if_true]
      apply (visits_beside_any _).bind
      intro c₂ w₄ _
      exact visits_pure trivial
    · intro q _ _ solver3' w₃ _ hext3
      simp only [reduceCtorEq, if_false, hext3]
      apply (removeAttackedHeads_visits h mem_filter_range_lt (C := C₁) hcounts₁
        (fun c C' hsub hc => hhead c C' (hsub.trans hsub₁) hc solver3')).bind
      intro c₂ w₄ hc
      obtain ⟨C₂, hsub₂, hcounts₂⟩ := hc
      apply (includeAllHeads_visits (hhead c₂ C₂ (hsub₂.trans hsub₁) hcounts₂ solver3') _ _).bind
      intro included' w₅ _
      exact visits_pure trivial

/-- One candidate of the extension. -/
theorem fudgeCandidateHeads_visits {X C : Set (Fin af.args)} {a : Fin af.args}
    {t : Nat → Bool} {st : FudgeState SatSolver} {fuel : Nat} (hX : X ∈ admissibleSets af.att)
    (haX : a ∈ X) (hrel : FudgeRel af good t C st) (htX : toSet af.args t ⊆ X) :
    Visits (LoopInvariant af) (fudgeCandidateHeads O af fuel st a)
      (fudgeCandidate O af fuel st a) w (Processed af good X C a) := by
  obtain ⟨c, hc, hC, hnum⟩ := id hrel.counts
  unfold fudgeCandidateHeads fudgeCandidate
  simp only [hc, vec_get c a.2]
  apply (visits_beside (Q := fun member => member = c a) (ensures_ofOption rfl rfl)).bind
  intro member w' hmember
  subst hmember
  by_cases hca : c a = true
  · rw [if_pos hca, if_pos hca]
    have haC : a ∈ C := by
      rw [← hC]
      exact hca
    apply visits_whileNoting (fun st' => ∃ s' C', InnerInv af good X C a t s' C' st')
    · intro st' hinv
      obtain ⟨s', C', hinv⟩ := hinv
      exact hinv.rel.loopInvariant hX.1 htX Set.Subset.rfl hinv.rel.counts _
    · intro st' w'' hinv
      obtain ⟨s', C', hinv⟩ := hinv
      exact fudgeInnerRoundHeads_visits h hO hgood hX haX hinv
    · exact ⟨fun _ => false, C, hrel, replicate_eq_vec _ _, htX, Set.Subset.rfl, haC, by simp⟩
  · rw [if_neg hca, if_neg hca]
    apply visits_pure
    refine ⟨t, C, hrel, htX, Set.Subset.rfl, ?_⟩
    rw [← hC]
    exact hca

omit h hO hgood in
/-- At the head of the outer loop the accepted arguments lie in an admissible set. -/
def OuterInv (af : AF) (good : Set (Set (Fin af.args))) (st : FudgeState SatSolver) : Prop :=
  ∃ t C X, FudgeRel af good t C st ∧ Admissible af.att X ∧ toSet af.args t ⊆ X

/-- A round of the outer loop. -/
theorem fudgeRoundHeads_visits {st : FudgeState SatSolver} {fuel : Nat}
    (hinv : OuterInv af good st) :
    Visits (LoopInvariant af) (fudgeRoundHeads O af fuel st) (fudgeRound O af fuel st) w
      (Sum.elim (OuterInv af good) (fun _ => True)) := by
  obtain ⟨t, C, X, hrel, hX, htX⟩ := hinv
  obtain ⟨result, accepted, ⟨candidate, num⟩, solver3⟩ := st
  have haccepted : accepted = vec af.args t := hrel.accepted_eq
  subst haccepted
  obtain ⟨c, hc, hC, -⟩ := id hrel.counts
  simp only at hc
  subst hc hC
  unfold fudgeRoundHeads fudgeRound
  split
  · exact visits_pure trivial
  · apply (admExtCandidateHeads_visits
      (hrel.loopInvariant hX htX Set.Subset.rfl hrel.counts solver3) O af).bind_ensures
    apply admExtCandidate_ensures h hO t c
    · intro _ solver1 w₁
      exact visits_pure trivial
    · intro p hp htp _ solver1 w₁ hext
      simp only [reduceCtorEq, if_false, Oracle.extension_eq, hext]
      apply (removeAttackedHeads_visits h mem_filter_range_lt hrel.counts
        (fun c' C' hsub hc' => hrel.loopInvariant hp.1 htp hsub hc' solver3)).bind_ensures
      obtain ⟨c₁, hc₁, hcounts₁⟩ := hrel.counts.removeAttacked h p
      apply ensures_ofOption hc₁
      have hrel₁ := hrel.attacked hp hcounts₁ hrel.searches
      -- Over the extension all accepted arguments stay inside it.
      apply (visits_foldNoting (fun st' => ∃ t' C', FudgeRel af good t' C' st' ∧
        toSet af.args t' ⊆ toSet af.args p) ?_ ?_ ⟨t, _, hrel₁, htp⟩).bind
      · intro st' w₂ hst'
        obtain ⟨t', C', hrel', htp'⟩ := hst'
        exact visits_pure ⟨t', C', _, hrel', hp.1, htp'⟩
      · intro st' hst'
        obtain ⟨t', C', hrel', htp'⟩ := hst'
        exact hrel'.loopInvariant hp.1 htp' Set.Subset.rfl hrel'.counts _
      · intro st' w₂ hst' a ha
        obtain ⟨t', C', hrel', htp'⟩ := hst'
        obtain ⟨halt, hpa⟩ := List.mem_filter.mp ha
        apply (fudgeCandidateHeads_visits (a := ⟨a, List.mem_range.mp halt⟩) h hO hgood hp hpa
          hrel' htp').mono
        intro st'' hst''
        obtain ⟨t'', C'', hrel'', htp'', -⟩ := hst''
        exact ⟨t'', C'', hrel'', htp''⟩

/-- The whole run. -/
theorem fudgeHeads_visits (fuel : Nat) :
    Visits (LoopInvariant af) (fudgeHeads O af fuel) (fudgeSkep O af fuel) w
      (fun _ => True) := by
  unfold fudgeHeads fudgeSkep
  apply (visits_beside (Q := fun clauses => clauses =
    admissibleClauses af.args af.attackers accVar (rejVar af.args))
    (ensures_ofOption (admissible_false_eq h) rfl)).bind
  intro clauses w₁ hclauses
  subst hclauses
  apply (visits_beside_any _).bind_ensures
  apply SatSolver.ensures_addClauses
  have hsearch := searches_encoded (n := af.args) (2 * af.args)
    (admissibleClauses af.args af.attackers accVar (rejVar af.args))
  rw [family_admissibleClauses h] at hsearch
  apply visits_whileNoting (OuterInv af good)
  · intro st hinv
    obtain ⟨t, C, X, hrel, hX, htX⟩ := hinv
    exact hrel.loopInvariant hX htX Set.Subset.rfl hrel.counts _
  · intro st w₂ hinv
    exact fudgeRoundHeads_visits h hO hgood hinv
  · refine ⟨fun _ => false, Set.univ, ∅, fudgeRel_start hsearch, admissible_empty, ?_⟩
    simp [toSet]

end Loops

/-- On every framework, also with repeated names, and for every correct oracle: at the
head of every loop that `fudge_skep` reaches, the counter is the number of candidates, no
candidate is accepted, `result` lists the accepted arguments once each, and these lie in
one admissible set. With enough fuel the run is complete. -/
theorem fudge_skep_loop_heads (perfEnc : Bool) (names : List String)
    (atts : List (String × String)) (O : Oracle) (hO : O.Correct) :
    ∃ af, AF.build perfEnc names atts = some af ∧
      ∀ fuel log, ∃ heads, fudgeHeads O af fuel (log, []) =
          ((fudgeSkep O af fuel log).1, (fudgeSkep O af fuel log).2, heads) ∧
        (∀ head ∈ heads, LoopInvariant af head) ∧
        (af.args < fuel → ∃ result log', fudgeSkep O af fuel log = (.ok result, log')) := by
  obtain ⟨af, haf, hready, -, -⟩ := AF.build_spec perfEnc names atts
  have hgood := prefers_empty O af.args
  refine ⟨af, haf, ?_⟩
  intro fuel log
  obtain ⟨heads, hrun, hheads, -⟩ := fudgeHeads_visits (w := log) hready hO hgood fuel []
  refine ⟨heads, hrun, hheads, fun hfuel => ?_⟩
  obtain ⟨result, log', hok, -⟩ :=
    (fudgeSkep_ensures (w := log) hready hO hgood hfuel).exists_ok
  exact ⟨result, log', hok⟩

theorem fudge_skep_loop_heads_mutual :
    ∃ af, AF.build true ["a", "b"] [("a", "b"), ("b", "a")] = some af ∧
      ∀ fuel log, ∃ heads, fudgeHeads Oracle.exhaustive af fuel (log, []) =
          ((fudgeSkep Oracle.exhaustive af fuel log).1,
            (fudgeSkep Oracle.exhaustive af fuel log).2, heads) ∧
        (∀ head ∈ heads, LoopInvariant af head) ∧
        (af.args < fuel → ∃ result log',
          fudgeSkep Oracle.exhaustive af fuel log = (.ok result, log')) :=
  fudge_skep_loop_heads true ["a", "b"] [("a", "b"), ("b", "a")] Oracle.exhaustive
    Oracle.exhaustive_correct

end AcceptableArguments.Algorithms
