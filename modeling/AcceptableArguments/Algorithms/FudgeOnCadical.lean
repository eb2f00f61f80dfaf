import AcceptableArguments.Algorithms.OnWrappers

/-!
# FUDGE on CaDiCaL

The CaDiCaL wrapper is the only one with `solve_extension`, so it is the only one that FUDGE
can be compiled with. The run uses a solver for each of its queries and one that lives as
long as the run; it follows the run of the same algorithm on the solver with an oracle.
-/

namespace AcceptableArguments

open AcceptableArguments.Sat Imperative

/-! ## The wrapper with its extension -/

/-- The class with the member `extension`, which only `solve_extension` writes. -/
structure CadicalExtensionSolver where
  base : CadicalSatSolver
  extension : List Nat

namespace CadicalExtensionSolver

def new (nVars nArgs : Nat) : CadicalExtensionSolver where
  base := CadicalSatSolver.new nVars nArgs
  extension := List.replicate nArgs 0

/-- One step of the loop that reads the answer. -/
def pushMember (solver : CaDiCaL.Solver) (st : List Bool × List Nat) (i : Nat) :
    List Bool × List Nat :=
  if solver.val ((i + 1 : Nat) : Int) > 0 then (st.1 ++ [true], st.2 ++ [i])
  else (st.1 ++ [false], st.2)

/-- `CadicalSatSolver::solve_extension` -/
def solveExtension (C : Core Int) (s : CadicalExtensionSolver) :
    Except Fault (Verdict × CadicalExtensionSolver) :=
  let (sat, solver) := s.base.solver.solve C
  if ¬ (sat = Verdict.SAT_V.code ∨ sat = Verdict.UNSAT_V.code) then
    .error (.exit 1 "Problem\n")
  else if sat = Verdict.SAT_V.code then
    let (model, extension) := (List.range s.base.decisionVars).foldl (pushMember solver) ([], [])
    .ok (.SAT_V, ⟨{ s.base with solver := solver, model := model }, extension⟩)
  else
    .ok (.UNSAT_V, { s with base := { s.base with solver := solver } })

variable (C : Core Int)

def addClauseM (s : CadicalExtensionSolver) (clause : Clause) :
    WrapperM Int CadicalExtensionSolver := do
  return { s with base := ← (Wrapper.cadical C).addClauseM s.base clause }

def assumeM (s : CadicalExtensionSolver) (lit : Int) : WrapperM Int CadicalExtensionSolver := do
  return { s with base := ← (Wrapper.cadical C).assumeM s.base lit }

/-- `solve()`, which leaves the extension as it is. -/
def solveM (s : CadicalExtensionSolver) : WrapperM Int (Verdict × CadicalExtensionSolver) := do
  let (verdict, base) ← (Wrapper.cadical C).solveM s.base
  return (verdict, { s with base := base })

def solveExtensionM (s : CadicalExtensionSolver) :
    WrapperM Int (Verdict × CadicalExtensionSolver) := do
  let (verdict, s) ← Run.ofExcept (s.solveExtension C)
  Run.modify (· ++ [(Wrapper.cadical C).visible verdict s.base])
  return (verdict, s)

end CadicalExtensionSolver

/-- The class that FUDGE is compiled with. -/
instance : ExtensionInterface (Core Int) (List (Solved Int)) CadicalExtensionSolver where
  new _ := CadicalExtensionSolver.new
  addClause := CadicalExtensionSolver.addClauseM
  assume := CadicalExtensionSolver.assumeM
  solve := CadicalExtensionSolver.solveM
  model _ s := s.base.model
  solveExtension := CadicalExtensionSolver.solveExtensionM
  extension _ := CadicalExtensionSolver.extension

section Interface

open SolverInterface ExtensionInterface

variable (C : Core Int) (s : CadicalExtensionSolver)

theorem cadical_model_eq : model C s = s.base.model := rfl

theorem cadical_extension_eq : extension C s = s.extension := rfl

/-- The clauses go to the solver below. -/
theorem cadical_addClauses_eq (cs : List Clause) :
    addClauses C s cs = (addClauses (Wrapper.cadical C) s.base cs >>= fun base =>
      pure { s with base := base }) := by
  induction cs generalizing s with
  | nil => rfl
  | cons c cs ih =>
      have hadd : addClause C s c = (addClause (Wrapper.cadical C) s.base c >>= fun base =>
          pure { s with base := base }) := rfl
      simp only [addClauses, List.foldlM_cons] at ih ⊢
      simp only [hadd, Run.bind_assoc, Run.pure_bind, ih]

end Interface

namespace CadicalExtensionSolver

theorem foldl_pushMember (solver : CaDiCaL.Solver) (n : Nat) :
    (List.range n).foldl (pushMember solver) ([], []) =
      (vec n (fun i => decide (solver.val ((i + 1 : Nat) : Int) > 0)),
        (List.range n).filter (fun i => decide (solver.val ((i + 1 : Nat) : Int) > 0))) := by
  induction n with
  | zero => rfl
  | succ n ih =>
      rw [List.range_succ, List.foldl_append, ih, List.foldl_cons, List.foldl_nil, pushMember]
      by_cases hval : solver.val ((n + 1 : Nat) : Int) > 0
      · simp only [if_pos hval, vec, List.range_succ, List.map_append, List.map_cons,
          List.map_nil, List.filter_append, List.filter_cons, List.filter_nil,
          decide_eq_true hval, if_true]
      · simp only [if_neg hval, vec, List.range_succ, List.map_append, List.map_cons,
          List.map_nil, List.filter_append, List.filter_cons, List.filter_nil,
          decide_eq_false hval, Bool.false_eq_true, if_false, List.append_nil]

/-- Apart from the extension, `solve_extension` does what `solve` does. -/
theorem solveExtension_of_solve {C : Core Int} {s : CadicalExtensionSolver} {verdict : Verdict}
    {base : CadicalSatSolver} (h : s.base.solve C = .ok (verdict, base)) :
    ∃ extension, s.solveExtension C = .ok (verdict, ⟨base, extension⟩) ∧
      ∀ n p, verdict = .SAT_V → base.model = vec n p → extension = (List.range n).filter p := by
  unfold CadicalSatSolver.solve at h
  unfold solveExtension
  generalize s.base.solver.solve C = answer at h ⊢
  obtain ⟨sat, solver⟩ := answer
  dsimp only at h ⊢
  split at h
  · cases h
  · rename_i hcode
    rw [if_neg hcode]
    split at h
    · rename_i hsat
      cases h
      rw [if_pos hsat, foldl_pushMember, foldl_append_range]
      refine ⟨_, rfl, fun n p _ hp => ?_⟩
      have hn : s.base.decisionVars = n := by simpa using congrArg List.length hp
      subst hn
      apply List.filter_congr
      intro i hi
      have hi := List.mem_range.mp hi
      have hget := congrArg (fun l => l[i]?) hp
      simpa only [vec_get _ hi, Option.some.injEq] using hget
    · rename_i hsat
      cases h
      rw [if_neg hsat]
      exact ⟨s.extension, rfl, fun n p hverdict => by cases hverdict⟩

end CadicalExtensionSolver

/-! ## The simulation -/

/-- The wrapper has received the calls of the solver. -/
def TracksBase (C : Core Int) (nVars nArgs : Nat) (s : CadicalExtensionSolver) (d : SatSolver) :
    Prop :=
  Tracks (Wrapper.cadical C) C cadicalEncoding nVars nArgs none s.base d

/-- The same verdict and, if there is a model, the same model and extension. -/
def TracksExtension (C : Core Int) (nVars nArgs : Nat)
    (x : Verdict × CadicalExtensionSolver) (y : Verdict × SatSolver) : Prop :=
  x.1 = .UNSAT_V ∧ y.1 = .UNSAT_V ∧ TracksBase C nVars nArgs x.2 y.2 ∨
    x.1 = .SAT_V ∧ y.1 = .SAT_V ∧ TracksBase C nVars nArgs x.2 y.2 ∧
      x.2.base.model = y.2.model ∧ x.2.extension = y.2.extension

section Calls

variable {C : Core Int} (hC : C.Correct litHolds) {nVars nArgs : Nat}
  {s : CadicalExtensionSolver} {d : SatSolver}

include hC

theorem TracksBase.addClause (h : TracksBase C nVars nArgs s d) {c : Clause}
    (hc : ∀ l ∈ c, InRange nVars l) :
    Follows solvesIn (TracksBase C nVars nArgs) (s.addClauseM C c)
      (fun _ : List (Solved Int) => d.addClause c) :=
  (Tracks.addClause (cadical_reliable hC) h hc).map fun _ _ hbase => hbase

theorem TracksBase.addClauses (h : TracksBase C nVars nArgs s d) {cs : List Clause}
    (hcs : ∀ c ∈ cs, ∀ l ∈ c, InRange nVars l) :
    Follows solvesIn (TracksBase C nVars nArgs) (SolverInterface.addClauses C s cs)
      (fun _ : List (Solved Int) => d.addClauses cs) :=
  Follows.foldlM (fun _ _ h c hc => h.addClause hC (hcs c hc)) h

theorem TracksBase.assume (h : TracksBase C nVars nArgs s d) {l : Int}
    (hl : InRange nVars l) :
    Follows solvesIn (TracksBase C nVars nArgs) (s.assumeM C l)
      (fun _ : List (Solved Int) => d.assume l) :=
  (Tracks.assume (cadical_reliable hC) h hl).map fun _ _ hbase => hbase

/-- A solver of its own for a query. -/
theorem tracksBase_encoded {cs : List Clause} (hcs : Algorithms.Encodes nVars nArgs cs) :
    Follows solvesIn (TracksBase C nVars nArgs)
      (SolverInterface.addClauses C (CadicalExtensionSolver.new nVars nArgs) cs)
      (fun _ : List (Solved Int) => (SatSolver.new nVars nArgs).addClauses cs) := by
  rw [cadical_addClauses_eq]
  exact (tracks_encoded (cadical_reliable hC) hcs.1 hcs.2).map fun _ _ hbase => hbase

theorem TracksBase.solveExtension (h : TracksBase C nVars nArgs s d) :
    Follows solvesIn (TracksExtension C nVars nArgs) (s.solveExtensionM C)
      (fun shown => d.solveExtension (Wrapper.oracle C cadicalEncoding shown)) := by
  obtain ⟨R, p, hR, hsp, -, -, hcovers⟩ := h.pending
  obtain ⟨verdict, base, hsolve, -, -⟩ := hR.solve hsp hcovers
  obtain ⟨extension, hext, hfilter⟩ := CadicalExtensionSolver.solveExtension_of_solve hsolve
  intro t w hw
  have hs := Tracks.solve (cadical_reliable hC) h t w hw
  have hx : s.solveExtensionM C t = (.ok (verdict, ⟨base, extension⟩),
      t ++ [(Wrapper.cadical C).visible verdict base]) := by
    rw [CadicalExtensionSolver.solveExtensionM, hext]
    rfl
  rw [Wrapper.solveM_of_solve hsolve t] at hs
  rw [hx]
  obtain ⟨hgrow, y, w', hans, hw', hy⟩ := hs
  obtain ⟨verdict', d'⟩ := y
  refine ⟨hgrow, ?_⟩
  dsimp only at hy
  simp only [SatSolver.solveExtension, Run.bind_apply]
  cases hans with
  | inl hunsat =>
      obtain ⟨hverdict, hverdict', htracks⟩ := hunsat
      simp only at hverdict'
      subst hverdict'
      refine ⟨(.UNSAT_V, d'), w', Or.inl ⟨hverdict, rfl, htracks⟩, hw', fun shown hshown => ?_⟩
      rw [hy shown hshown]
      rfl
  | inr hsat =>
      obtain ⟨hverdict, hverdict', q, htracks⟩ := hsat
      simp only at hverdict'
      subst hverdict'
      obtain ⟨hmodel, hmodel'⟩ := htracks.model_eq q rfl
      refine ⟨(.SAT_V, { d' with
          extension := (List.range d'.decisionVars).filter (fun i => d'.model.getD i false) }),
        w', Or.inr ⟨hverdict, rfl, ?_, ?_, ?_⟩, hw', fun shown hshown => ?_⟩
      · exact ⟨htracks.pending, htracks.nonzero, htracks.decisionVars_eq, by simp⟩
      · exact hmodel.trans hmodel'.symm
      · have hvars := htracks.decisionVars_eq
        simp only at hvars hmodel'
        simp only [hvars, hmodel', SatSolver.filter_getD_vec]
        exact hfilter nArgs q hverdict hmodel
      · rw [hy shown hshown]
        rfl

omit hC in
/-- What follows an answer, by verdict. -/
theorem Imperative.Follows.extension_cases {α β : Type} {T : α → β → Prop}
    {x : WrapperM Int (Verdict × CadicalExtensionSolver)}
    {y : List (Solved Int) → SolveM (Verdict × SatSolver)}
    (h : Follows solvesIn (TracksExtension C nVars nArgs) x y)
    {f : Verdict × CadicalExtensionSolver → WrapperM Int α}
    {g : List (Solved Int) → Verdict × SatSolver → SolveM β}
    (hunsat : ∀ s d, TracksBase C nVars nArgs s d →
      Follows solvesIn T (f (.UNSAT_V, s)) (fun shown => g shown (.UNSAT_V, d)))
    (hsat : ∀ s d, TracksBase C nVars nArgs s d → s.base.model = d.model →
      s.extension = d.extension →
      Follows solvesIn T (f (.SAT_V, s)) (fun shown => g shown (.SAT_V, d))) :
    Follows solvesIn T (x >>= f) (fun shown => y shown >>= g shown) := by
  apply h.bind
  intro a b hab
  obtain ⟨verdict, s⟩ := a
  obtain ⟨verdict', d⟩ := b
  cases hab with
  | inl hab =>
      obtain ⟨rfl, rfl, h⟩ := hab
      exact hunsat s d h
  | inr hab =>
      obtain ⟨rfl, rfl, h, hmodel, hext⟩ := hab
      exact hsat s d h hmodel hext

end Calls

namespace Algorithms

open Encodings

section Fudge

variable {C : Core Int} (hC : C.Correct litHolds) {perfEnc : Bool} {af : AF}
  (h : AF.Ready perfEnc af)

include h in
theorem admissible_encodes {nVars : Nat} (hmem : nVars ∈ solverSizes af) :
    ∃ cs, Encodings.admissible af false = some cs ∧ Encodes nVars af.args cs := by
  refine ⟨_, admissible_eq h false, ?_⟩
  simp only [Bool.false_eq_true, if_false, Nat.zero_add]
  refine encodes_of_conflicts (R := rejVar af.args)
    (admissibleClauses_range (accVars h hmem) (rejVars h hmem) h.attackers_lt) fun i hi => ?_
  refine List.mem_flatMap.mpr ⟨i, List.mem_range.mpr hi, ?_⟩
  split <;> simp

/-- The loops that set up a query: the solver and the clause that they collect. -/
def SetupTracks (C : Core Int) (nVars nArgs : Nat) (st : CadicalExtensionSolver × Clause)
    (st' : SatSolver × Clause) : Prop :=
  TracksBase C nVars nArgs st.1 st'.1 ∧ st.2 = st'.2 ∧ ∀ l ∈ st'.2, InRange nVars l

include hC h

theorem admExtCandidate_follows (accepted candidate : List Bool) :
    Follows solvesIn (TracksExtension C (2 * af.args) af.args)
      (admExtCandidate C af accepted candidate)
      (fun shown => admExtCandidate (Wrapper.oracle C cadicalEncoding shown) af accepted
        candidate) := by
  obtain ⟨cs, hcs, hencodes⟩ := admissible_encodes h two_mul_mem
  simp only [admExtCandidate, hcs, bounds, Run.ofOption_some, Run.pure_bind]
  apply (tracksBase_encoded hC hencodes).bind
  intro s d hsd
  refine Follows.bind (R := SetupTracks C (2 * af.args) af.args)
    (Follows.foldlM ?_ ⟨hsd, rfl, by simp⟩) ?_
  · intro st st' hst i hi
    obtain ⟨s, clause⟩ := st
    obtain ⟨d, clause'⟩ := st'
    obtain ⟨hsd, rfl, hclause⟩ := hst
    have hi := List.mem_range.mp hi
    have hvar := (accVars h two_mul_mem).pos hi
    simp only [admExtCandidateStep, h.acceptedVar_get hi, bounds, Run.ofOption_some,
      Run.pure_bind]
    apply follows_ofOption
    intro member _
    apply follows_ofOption
    intro taken _
    have hclause' : ∀ l ∈ if member = true then clause ++ [(accVar i : Int)] else clause,
        InRange (2 * af.args) l := by
      split
      · exact range_append hclause (by simpa using hvar)
      · exact hclause
    cases taken with
    | true =>
        apply (hsd.assume hC hvar).bind
        intro s d hsd
        exact follows_pure ⟨hsd, rfl, hclause'⟩
    | false => exact follows_pure ⟨hsd, rfl, hclause'⟩
  · intro st st' hst
    obtain ⟨s, clause⟩ := st
    obtain ⟨d, clause'⟩ := st'
    obtain ⟨hsd, rfl, hclause⟩ := hst
    apply (hsd.addClause hC hclause).bind
    intro s d hsd
    exact hsd.solveExtension hC

theorem admExtAtt_follows (accepted included : List Bool) (a : Nat) :
    Follows solvesIn (TracksExtension C (4 * af.args + af.attacks) af.args)
      (admExtAtt C af accepted included a)
      (fun shown => admExtAtt (Wrapper.oracle C cadicalEncoding shown) af accepted
        included a) := by
  obtain ⟨cs, hcs, hencodes⟩ := admissible_encodes h attack_size_mem
  have hshifted : ∀ c ∈ admissibleClauses af.args af.attackers _ _, ∀ l ∈ c,
      InRange (4 * af.args + af.attacks) l := admissibleClauses_range
    (shiftedAccVar_upTo (Nat.le_add_right _ _)) (shiftedRejVar_upTo (Nat.le_add_right _ _))
    h.attackers_lt
  have hattacks : ∀ c ∈ attacksClauses af.args af.attackers, ∀ l ∈ c,
      InRange (4 * af.args + af.attacks) l :=
    attacksClauses_range h.attackers_lt (by rw [length_attackPairs h])
  simp only [admExtAtt, admExtAttQuery, hcs, admissible_eq h true, attacks_eq h, bounds,
    Run.ofOption_some, Run.pure_bind, Run.bind_assoc]
  apply (tracksBase_encoded hC hencodes).bind
  intro s d hsd
  apply (hsd.addClauses hC hshifted).bind
  intro s d hsd
  apply (hsd.addClauses hC hattacks).bind
  intro s d hsd
  refine Follows.bind (R := SetupTracks C (4 * af.args + af.attacks) af.args)
    (Follows.foldlM ?_ ⟨hsd, rfl, by simp⟩) ?_
  · intro st st' hst i hi
    obtain ⟨s, clause⟩ := st
    obtain ⟨d, clause'⟩ := st'
    obtain ⟨hsd, rfl, hclause⟩ := hst
    have hi := List.mem_range.mp hi
    have hshift : InRange (4 * af.args + af.attacks)
        (((2 * af.args : Nat) : Int) + (accVar i : Int)) :=
      (shiftedAccVar_upTo (Nat.le_add_right _ _)).pos hi
    simp only [admExtAttStep, h.acceptedVar_get hi, bounds, Run.ofOption_some, Run.pure_bind]
    apply follows_ofOption
    intro member _
    apply follows_ofOption
    intro taken _
    have hclause' : ∀ l ∈ if member = true then clause else clause ++ [(accVar i : Int)],
        InRange (4 * af.args + af.attacks) l := by
      split
      · exact hclause
      · exact range_append hclause (by simpa using (accVars h attack_size_mem).pos hi)
    by_cases hcond : i = a ∨ taken = true
    · simp only [if_pos hcond]
      apply (hsd.assume hC hshift).bind
      intro s d hsd
      exact follows_pure ⟨hsd, rfl, hclause'⟩
    · simp only [if_neg hcond]
      exact follows_pure ⟨hsd, rfl, hclause'⟩
  · intro st st' hst
    obtain ⟨s, clause⟩ := st
    obtain ⟨d, clause'⟩ := st'
    obtain ⟨hsd, rfl, hclause⟩ := hst
    apply (hsd.addClause hC hclause).bind
    intro s d hsd
    exact hsd.solveExtension hC

theorem admExt_follows (accepted model : List Bool) (a : Nat) {s : CadicalExtensionSolver}
    {d : SatSolver} (hsd : TracksBase C (2 * af.args) af.args s d) :
    Follows solvesIn (TracksExtension C (2 * af.args) af.args)
      (admExt C af accepted model a s)
      (fun shown => admExt (Wrapper.oracle C cadicalEncoding shown) af accepted model a d) := by
  refine Follows.bind (R := TracksBase C (2 * af.args) af.args) (Follows.foldlM ?_ hsd)
    fun s d hsd => hsd.solveExtension hC
  intro s d hsd i hi
  have hi := List.mem_range.mp hi
  simp only [admExtStep, h.acceptedVar_get hi, bounds, Run.ofOption_some, Run.pure_bind]
  apply follows_ofOption
  intro member _
  apply follows_ofOption
  intro taken _
  by_cases hcond : a = i ∨ member = true ∨ taken = true
  · simp only [if_pos hcond]
    exact hsd.assume hC ((accVars h two_mul_mem).pos hi)
  · simp only [if_neg hcond]
    exact follows_pure hsd

/-- The locals of `fudge_skep` that live across its loops. -/
structure FudgeTracks (C : Core Int) (af : AF) (st : FudgeState CadicalExtensionSolver)
    (st' : FudgeState SatSolver) : Prop where
  result_eq : st.result = st'.result
  accepted_eq : st.accepted = st'.accepted
  candidates_eq : st.candidates = st'.candidates
  solver3 : TracksBase C (2 * af.args) af.args st.solver3 st'.solver3

omit hC h in
/-- Accepting a candidate changes what both have in common. -/
theorem FudgeTracks.accept {st : FudgeState CadicalExtensionSolver} {st' : FudgeState SatSolver}
    (hst : FudgeTracks C af st st') (a : Nat) :
    Follows solvesIn (FudgeTracks C af) (bounds (st.accept af a) : WrapperM Int _)
      (fun _ : List (Solved Int) => bounds (st'.accept af a)) := by
  obtain ⟨result, accepted, candidates, solver3⟩ := st
  obtain ⟨result', accepted', candidates', solver3'⟩ := st'
  obtain ⟨rfl, rfl, rfl, hsolver3⟩ := hst
  simp only [FudgeState.accept]
  cases setAt accepted a true with
  | none => exact follows_throw _
  | some accepted' =>
      cases af.intToArg[a]? with
      | none => exact follows_throw _
      | some name =>
          cases setAt candidates.candidate a false with
          | none => exact follows_throw _
          | some candidate => exact follows_pure ⟨rfl, rfl, rfl, hsolver3⟩

theorem fudgeInnerRound_follows (a : Nat) {st : FudgeState CadicalExtensionSolver × List Bool}
    {st' : FudgeState SatSolver × List Bool} (hst : FudgeTracks C af st.1 st'.1 ∧ st.2 = st'.2) :
    Follows solvesIn
      (Sum.LiftRel (fun st st' => FudgeTracks C af st.1 st'.1 ∧ st.2 = st'.2) (FudgeTracks C af))
      (fudgeInnerRound C af a st)
      (fun shown => fudgeInnerRound (Wrapper.oracle C cadicalEncoding shown) af a st') := by
  obtain ⟨⟨result, accepted, candidates, s⟩, included⟩ := st
  obtain ⟨⟨result', accepted', candidates', d⟩, included'⟩ := st'
  obtain ⟨hst, rfl⟩ := hst
  obtain ⟨rfl, rfl, rfl, hsolver3⟩ := id hst
  apply (admExtAtt_follows hC h accepted included a).extension_cases
  · intro s d _
    exact (hst.accept a).bind fun st st' hst => follows_pure (.inr hst)
  · intro s d _ hmodel hext
    simp only [reduceCtorEq, if_false, cadical_model_eq, cadical_extension_eq, Oracle.model_eq,
      Oracle.extension_eq, hmodel, hext]
    apply follows_ofOption
    intro candidates _
    apply (admExt_follows hC h accepted d.model a hsolver3).extension_cases
    · intro s d hsd
      apply follows_ofOption
      intro candidates _
      exact follows_pure (.inr ⟨rfl, rfl, rfl, hsd⟩)
    · intro s d hsd _ hext
      simp only [reduceCtorEq, if_false, hext]
      apply follows_ofOption
      intro candidates _
      apply follows_ofOption
      intro included _
      exact follows_pure (.inl ⟨⟨rfl, rfl, rfl, hsd⟩, rfl⟩)

theorem fudgeCandidate_follows (fuel : Nat) {st : FudgeState CadicalExtensionSolver}
    {st' : FudgeState SatSolver} (hst : FudgeTracks C af st st') (a : Nat) :
    Follows solvesIn (FudgeTracks C af) (fudgeCandidate C af fuel st a)
      (fun shown => fudgeCandidate (Wrapper.oracle C cadicalEncoding shown) af fuel st' a) := by
  simp only [fudgeCandidate, hst.candidates_eq]
  apply follows_ofOption
  intro member _
  cases member with
  | false => exact follows_pure hst
  | true =>
      simp only [if_true]
      exact Follows.whileTrue (fun st st' hst => fudgeInnerRound_follows hC h a hst) fuel
        ⟨hst, rfl⟩

theorem fudgeRound_follows (fuel : Nat) {st : FudgeState CadicalExtensionSolver}
    {st' : FudgeState SatSolver} (hst : FudgeTracks C af st st') :
    Follows solvesIn (Sum.LiftRel (FudgeTracks C af) Eq) (fudgeRound C af fuel st)
      (fun shown => fudgeRound (Wrapper.oracle C cadicalEncoding shown) af fuel st') := by
  obtain ⟨result, accepted, candidates, s⟩ := st
  obtain ⟨result', accepted', candidates', d⟩ := st'
  obtain ⟨rfl, rfl, rfl, hsolver3⟩ := hst
  simp only [fudgeRound]
  by_cases hzero : candidates.numCandidates = 0
  · simp only [if_pos hzero]
    exact follows_pure (.inr rfl)
  · simp only [if_neg hzero]
    apply (admExtCandidate_follows hC h accepted candidates.candidate).extension_cases
    · intro s d _
      exact follows_pure (.inr rfl)
    · intro s d _ _ hext
      simp only [reduceCtorEq, if_false, cadical_extension_eq, Oracle.extension_eq, hext]
      apply follows_ofOption
      intro candidates _
      refine Follows.bind (R := FudgeTracks C af)
        (Follows.foldlM ?_ ⟨rfl, rfl, rfl, hsolver3⟩) fun st st' hst => follows_pure (.inl hst)
      intro st st' hst a _
      exact fudgeCandidate_follows hC h fuel hst a

/-- FUDGE on CaDiCaL follows FUDGE on the solver with an oracle. -/
theorem fudgeSkep_follows (fuel : Nat) :
    Follows solvesIn Eq (fudgeSkep C af fuel)
      (fun shown => fudgeSkep (Wrapper.oracle C cadicalEncoding shown) af fuel) := by
  obtain ⟨cs, hcs, hencodes⟩ := admissible_encodes h two_mul_mem
  simp only [fudgeSkep, hcs, bounds, Run.ofOption_some,
    Run.pure_bind]
  apply (tracksBase_encoded hC hencodes).bind
  intro s d hsd
  exact Follows.whileTrue (fun st st' hst => fudgeRound_follows hC h fuel hst) fuel
    ⟨rfl, rfl, rfl, hsd⟩

end Fudge

end Algorithms

end AcceptableArguments
