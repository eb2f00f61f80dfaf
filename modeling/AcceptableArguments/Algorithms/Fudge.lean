import AcceptableArguments.Algorithms.Common
import AcceptableArguments.AttackModels
import AcceptableArguments.Imperative.Traces

/-!
# FUDGE: skeptical acceptance without computing preferred extensions

`T` is the set of accepted arguments and `C` the set of candidates. An admissible
set through a candidate is computed, and each candidate `a` in it is tested against
admissible sets that attack an admissible set around `T` and `a`; `S` collects what
was already compatible with `a`. The comments on the three queries are those of the
source.
-/

namespace AcceptableArguments.Algorithms

open AcceptableArguments.Sat Imperative Argumentation Encodings SolverInterface
open ExtensionInterface

/-- The candidates with their counter, a signed integer in the source. -/
structure Candidates where
  candidate : List Bool
  numCandidates : Int

/-- `if (candidate[j]) { candidate[j] = false; num_candidates--; }` -/
def Candidates.remove (c : Candidates) (j : Nat) : Option Candidates := do
  if ← c.candidate[j]? then
    return ⟨← setAt c.candidate j false, c.numCandidates - 1⟩
  else
    return c

/-- The loops that remove everything attacked by the listed arguments. -/
def removeAttacked (af : AF) (extension : List Nat) (c : Candidates) : Option Candidates :=
  extension.foldlM (fun c i => do (← af.attacked[i]?).foldlM Candidates.remove c) c

/-! ## The queries -/

section Definitions

variable {Lib σ S : Type} [ExtensionInterface Lib σ S] (lib : Lib)

/-- One step of the loop that sets up `AdmExt'`. -/
def admExtCandidateStep (af : AF) (accepted candidate : List Bool)
    (st : S × Clause) (i : Nat) : Run Fault σ (S × Clause) := do
  let accVar ← bounds af.acceptedVar[i]?
  let clause := if ← bounds candidate[i]? then st.2 ++ [accVar] else st.2
  if ← bounds accepted[i]? then
    return (← assume lib st.1 accVar, clause)
  else
    return (st.1, clause)

/-- `E := AdmExt'(af, T, C)`. -/
def admExtCandidate (af : AF) (accepted candidate : List Bool) : Run Fault σ (Verdict × S) := do
  let solver1 := new lib (2 * af.args) af.args
  let solver1 ← addClauses lib solver1 (← bounds (Encodings.admissible af false))
  let (solver1, intersectClause) ←
    (List.range af.args).foldlM (admExtCandidateStep lib af accepted candidate) (solver1, [])
  let solver1 ← addClause lib solver1 intersectClause
  solveExtension lib solver1

/-- One step of the loop that sets up `AdmExtAtt`. -/
def admExtAttStep (af : AF) (accepted included : List Bool) (a : Nat)
    (st : S × Clause) (i : Nat) : Run Fault σ (S × Clause) := do
  let accVar ← bounds af.acceptedVar[i]?
  let clause := if ← bounds included[i]? then st.2 else st.2 ++ [accVar]
  if i = a ∨ (← bounds accepted[i]?) = true then
    return (← assume lib st.1 (((2 * af.args : Nat) : Int) + accVar), clause)
  else
    return (st.1, clause)

/-- `solver2` when it is asked. -/
def admExtAttQuery (af : AF) (accepted included : List Bool) (a : Nat) : Run Fault σ S := do
  let solver2 := new lib (4 * af.args + af.attacks) af.args
  let solver2 ← addClauses lib solver2 (← bounds (Encodings.admissible af false))
  let solver2 ← addClauses lib solver2 (← bounds (Encodings.admissible af true))
  let solver2 ← addClauses lib solver2 (← bounds (Encodings.attacks af))
  let (solver2, nonsubsetClause) ←
    (List.range af.args).foldlM (admExtAttStep lib af accepted included a) (solver2, [])
  addClause lib solver2 nonsubsetClause

/-- `E' := AdmExtAtt(af, T \cup {a}, S)`. -/
def admExtAtt (af : AF) (accepted included : List Bool) (a : Nat) :
    Run Fault σ (Verdict × S) := do
  let solver2 ← admExtAttQuery lib af accepted included a
  solveExtension lib solver2

/-- One step of the loop that sets up `AdmExt`. -/
def admExtStep (af : AF) (accepted model : List Bool) (a : Nat) (solver3 : S)
    (i : Nat) : Run Fault σ S := do
  if a = i ∨ (← bounds model[i]?) = true ∨ (← bounds accepted[i]?) = true then
    assume lib solver3 (← bounds af.acceptedVar[i]?)
  else
    return solver3

/-- `E'' = AdmExt(af, E' \cup T \cup {a})`. -/
def admExt (af : AF) (accepted model : List Bool) (a : Nat)
    (solver3 : S) : Run Fault σ (Verdict × S) := do
  let solver3 ← (List.range af.args).foldlM (admExtStep lib af accepted model a) solver3
  solveExtension lib solver3

/-! ## The algorithm -/

/-- The locals of `fudge_skep` that live across its loops. -/
structure FudgeState (S : Type) where
  result : List String
  accepted : List Bool
  candidates : Candidates
  solver3 : S

/-- `T := T \cup {a}` and `C := C \setminus {a}`; the counter is lowered without a
test. -/
def FudgeState.accept (af : AF) (a : Nat) (st : FudgeState S) : Option (FudgeState S) := do
  return { st with
    accepted := ← setAt st.accepted a true
    result := st.result ++ [← af.intToArg[a]?]
    candidates := ⟨← setAt st.candidates.candidate a false,
      st.candidates.numCandidates - 1⟩ }

/-- `S := S \cup E''`. -/
def includeAll (included : List Bool) (extension : List Nat) : Option (List Bool) :=
  extension.foldlM
    (fun included i => do
      if ← included[i]? then return included else setAt included i true)
    included

/-- A round of the inner loop for the candidate `a`; the second component of the loop
state is `included`. -/
def fudgeInnerRound (af : AF) (a : Nat) (st : FudgeState S × List Bool) :
    Run Fault σ ((FudgeState S × List Bool) ⊕ FudgeState S) := do
  let (st, included) := st
  let (sat, solver2) ← admExtAtt lib af st.accepted included a
  if sat = .UNSAT_V then
    return .inr (← bounds (st.accept af a))
  else
    let candidates ← bounds (removeAttacked af (extension lib solver2) st.candidates)
    let (sat, solver3) ← admExt lib af st.accepted (model lib solver2) a st.solver3
    if sat = .UNSAT_V then
      let candidates ← bounds (candidates.remove a)
      return .inr { st with candidates := candidates, solver3 := solver3 }
    else
      let candidates ← bounds (removeAttacked af (extension lib solver3) candidates)
      let included ← bounds (includeAll included (extension lib solver3))
      return .inl ({ st with candidates := candidates, solver3 := solver3 }, included)

/-- The body of the loop over `solver1.extension`. -/
def fudgeCandidate (af : AF) (fuel : Nat) (st : FudgeState S) (a : Nat) :
    Run Fault σ (FudgeState S) := do
  if ← bounds st.candidates.candidate[a]? then
    whileTrue (fudgeInnerRound lib af a) fuel (st, List.replicate af.args false)
  else
    return st

/-- A round of the outer loop. -/
def fudgeRound (af : AF) (fuel : Nat) (st : FudgeState S) :
    Run Fault σ (FudgeState S ⊕ List String) := do
  if st.candidates.numCandidates = 0 then
    return .inr st.result
  else
    let (sat, solver1) ← admExtCandidate lib af st.accepted st.candidates.candidate
    if sat = .UNSAT_V then
      return .inr st.result
    else
      let candidates ← bounds (removeAttacked af (extension lib solver1) st.candidates)
      let st ← (extension lib solver1).foldlM (fudgeCandidate lib af fuel)
        { st with candidates := candidates }
      return .inl st

/-- `Algorithms::fudge_skep`. -/
def fudgeSkep (af : AF) (fuel : Nat) : Run Fault σ (List String) := do
  let solver3 := new lib (2 * af.args) af.args
  let solver3 ← addClauses lib solver3 (← bounds (Encodings.admissible af false))
  whileTrue (fudgeRound lib af fuel) fuel
    { result := []
      accepted := List.replicate af.args false
      candidates := ⟨List.replicate af.args true, af.args⟩
      solver3 := solver3 }

/-! ## Records of the loops -/

/-- `fudgeCandidate` that also records the vectors `included` at the end of the
continuing rounds of its inner loop. -/
def fudgeCandidateTrace (af : AF) (fuel : Nat)
    (st : FudgeState S × List (List (List Bool))) (a : Nat) :
    Run Fault σ (FudgeState S × List (List (List Bool))) := do
  if ← bounds st.1.candidates.candidate[a]? then
    let (rounds, st') ← whileTrace (fudgeInnerRound lib af a) fuel
      (st.1, List.replicate af.args false)
    return (st', st.2 ++ [rounds.map Prod.snd])
  else
    return st

/-- `fudgeRound` with the records of the inner loops that it runs. -/
def fudgeRoundTrace (af : AF) (fuel : Nat)
    (st : FudgeState S × List (List (List Bool))) :
    Run Fault σ ((FudgeState S × List (List (List Bool))) ⊕ List String) := do
  if st.1.candidates.numCandidates = 0 then
    return .inr st.1.result
  else
    let (sat, solver1) ← admExtCandidate lib af st.1.accepted st.1.candidates.candidate
    if sat = .UNSAT_V then
      return .inr st.1.result
    else
      let candidates ← bounds (removeAttacked af (extension lib solver1) st.1.candidates)
      let st' ← (extension lib solver1).foldlM (fudgeCandidateTrace lib af fuel)
        ({ st.1 with candidates := candidates }, [])
      return .inl st'

/-- `fudge_skep` with the states at the end of the rounds of its outer loop and, for each
of them, the records of the inner loops. -/
def fudgeTrace (af : AF) (fuel : Nat) :
    Run Fault σ (List (FudgeState S × List (List (List Bool))) × List String) := do
  let solver3 := new lib (2 * af.args) af.args
  let solver3 ← addClauses lib solver3 (← bounds (Encodings.admissible af false))
  whileTrace (fudgeRoundTrace lib af fuel) fuel
    ({ result := []
       accepted := List.replicate af.args false
       candidates := ⟨List.replicate af.args true, af.args⟩
       solver3 := solver3 }, [])

theorem fudgeCandidateTrace_mirrors (af : AF) (fuel : Nat)
    (st : FudgeState S × List (List (List Bool))) (a : Nat) :
    Mirrors Prod.fst (fudgeCandidateTrace lib af fuel st a)
      (fudgeCandidate lib af fuel st.1 a) := by
  apply mirrors_bind
  intro member
  cases member with
  | false => exact mirrors_pure rfl
  | true =>
      have hloop := Mirrors.whileTrue (π := id) (ψ := id)
        (fun b => by simpa using mirrors_refl (fudgeInnerRound lib af a b)) fuel
        (st.1, List.replicate af.args false)
      intro s
      have hs := hloop s
      simp only [id_eq] at hs
      simp only [if_true]
      rw [hs, Run.bind_apply]
      rcases whileTrace (fudgeInnerRound lib af a) fuel (st.1, List.replicate af.args false) s with
        ⟨e | x, s'⟩ <;> rfl

theorem fudgeRoundTrace_mirrors (af : AF) (fuel : Nat)
    (st : FudgeState S × List (List (List Bool))) :
    Mirrors (Sum.map Prod.fst id) (fudgeRoundTrace lib af fuel st)
      (fudgeRound lib af fuel st.1) := by
  unfold fudgeRoundTrace fudgeRound
  split
  · exact mirrors_pure rfl
  · apply mirrors_bind
    intro x
    obtain ⟨sat, solver1⟩ := x
    dsimp only
    split
    · exact mirrors_pure rfl
    · apply mirrors_bind
      intro candidates
      apply (Mirrors.foldlM (π := Prod.fst)
        (fun st' a => fudgeCandidateTrace_mirrors lib af fuel st' a) _ _).bind
      intro st'
      exact mirrors_pure rfl

/-- The run with records is the run of `fudge_skep`. -/
theorem fudgeTrace_mirrors (af : AF) (fuel : Nat) :
    Mirrors Prod.snd (fudgeTrace lib af fuel) (fudgeSkep lib af fuel) := by
  apply mirrors_bind
  intro clauses
  apply mirrors_bind
  intro solver3
  exact Mirrors.whileTrue (π := Prod.fst) (ψ := id)
    (fun st => fudgeRoundTrace_mirrors lib af fuel st) fuel _

end Definitions

end AcceptableArguments.Algorithms
