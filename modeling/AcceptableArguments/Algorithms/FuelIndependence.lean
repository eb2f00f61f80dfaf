import AcceptableArguments.Algorithms.BuildVariants
import AcceptableArguments.Algorithms.CredulousAnswers
import AcceptableArguments.Algorithms.SkepticalStable
import AcceptableArguments.Algorithms.Safety
import AcceptableArguments.Imperative.Approximations

/-!
# The answers do not depend on the fuel

The loops of the algorithms are endless loops of the source, and fuel is only a device of
the model. Two runs that both have enough of it go through the same states.
-/

namespace AcceptableArguments.Algorithms

open AcceptableArguments.Sat Imperative

section Fuel

variable {fuel fuel' : Nat} (hfuel : fuel ≤ fuel') (O : Oracle) (perfEnc : Bool) (af : AF)

include hfuel

/-- More fuel for the inner loop continues it and changes no finished round. -/
theorem skepticalRound_approximates (assumptions : List Int) (solver : SatSolver) :
    Approximates (skepticalRound O af fuel assumptions solver)
      (skepticalRound O af fuel' assumptions solver) := by
  apply approximates_bind
  intro x
  obtain ⟨sat, solver⟩ := x
  dsimp only
  split
  · exact approximates_refl _
  · exact (Approximates.whileTrue (fun st => approximates_refl (growRound O af st)) hfuel _).bind
      fun _ => approximates_refl _

/-- Only the test for a preferred extension has endless loops. -/
theorem iaqSkep_approximates (sem : Semantics) :
    Approximates (iaqSkep O perfEnc af sem fuel) (iaqSkep O perfEnc af sem fuel') := by
  cases sem with
  | CO => exact approximates_refl _
  | UNKNOWN_SEM => exact approximates_refl _
  | ST => exact approximates_refl _
  | PR =>
      apply Approximates.foldlM
      intro result i
      refine Approximates.bind ?_ fun _ => approximates_refl _
      apply approximates_bind
      intro clauses
      apply approximates_bind
      intro solver
      apply approximates_bind
      intro var
      exact Approximates.whileTrue (skepticalRound_approximates hfuel O af _) hfuel solver

/-- The loop that enumerates is the only one. -/
theorem eeeCred_approximates (sem : Semantics) :
    Approximates (eeeCred O perfEnc af sem fuel) (eeeCred O perfEnc af sem fuel') := by
  refine Approximates.bind ?_ fun _ => approximates_refl _
  apply approximates_bind
  intro clauses
  apply approximates_bind
  intro solver
  exact Approximates.whileTrace (fun st => approximates_refl (eeeCredRound O af st)) hfuel _

/-- The loop that maximises stands inside the loop that enumerates. -/
theorem eeeSkepRoundPR_approximates (st : EeeSkepState SatSolver) :
    Approximates (eeeSkepRoundPR O af fuel st) (eeeSkepRoundPR O af fuel' st) :=
  (Approximates.whileTrue (fun st => approximates_refl (maximiseRound O af st)) hfuel _).bind
    fun _ => approximates_refl _

/-- Both loops of the preferred semantics get the greater fuel. -/
theorem eeeSkep_approximates (sem : Semantics) :
    Approximates (eeeSkep O perfEnc af sem fuel) (eeeSkep O perfEnc af sem fuel') := by
  cases sem with
  | CO => exact approximates_refl _
  | UNKNOWN_SEM => exact approximates_refl _
  | ST =>
      refine Approximates.bind ?_ fun _ => approximates_refl _
      apply approximates_bind
      intro clauses
      apply approximates_bind
      intro solver
      exact Approximates.whileTrace (fun st => approximates_refl (eeeSkepRoundST O af st)) hfuel _
  | PR =>
      refine Approximates.bind ?_ fun _ => approximates_refl _
      apply approximates_bind
      intro clauses
      apply approximates_bind
      intro solver
      exact Approximates.whileTrace (eeeSkepRoundPR_approximates hfuel O af) hfuel _

theorem seeCred_approximates (sem : Semantics) :
    Approximates (seeCred O perfEnc af sem fuel) (seeCred O perfEnc af sem fuel') := by
  apply approximates_bind
  intro clauses
  apply approximates_bind
  intro solver
  exact Approximates.whileTrue (fun st => approximates_refl (seeCredRound O af st)) hfuel _

theorem seeSkep_approximates (sem : Semantics) :
    Approximates (seeSkep O af sem fuel) (seeSkep O af sem fuel') := by
  unfold seeSkep
  split
  · exact approximates_refl _
  · apply approximates_bind
    intro clauses
    apply approximates_bind
    intro solver
    exact (Approximates.whileTrue (fun st => approximates_refl (seeSkepRound O af st))
      hfuel _).bind fun _ => approximates_refl _

theorem seemCred_approximates (sem : Semantics) :
    Approximates (seemCred O perfEnc af sem fuel) (seemCred O perfEnc af sem fuel') := by
  unfold seemCred
  split
  · exact Approximates.whileTrue
      (fun st => approximates_refl (seemCredRound O perfEnc af sem st)) hfuel _
  · exact approximates_refl _

theorem seemSkep_approximates (sem : Semantics) :
    Approximates (seemSkep O af sem fuel) (seemSkep O af sem fuel') := by
  unfold seemSkep
  split
  · exact approximates_refl _
  · apply approximates_bind
    intro clauses
    apply approximates_bind
    intro solver
    exact (Approximates.whileTrue (fun st => approximates_refl (seemSkepRound O af st))
      hfuel _).bind fun _ => approximates_refl _

/-- A candidate that was dropped meanwhile has no loop to run. -/
theorem fudgeCandidate_approximates (st : FudgeState SatSolver) (a : Nat) :
    Approximates (fudgeCandidate O af fuel st a) (fudgeCandidate O af fuel' st a) := by
  apply approximates_bind
  intro member
  cases member with
  | false => exact approximates_refl _
  | true =>
      exact Approximates.whileTrue (fun st => approximates_refl (fudgeInnerRound O af a st))
        hfuel _

/-- The round runs the inner loop once for every argument of the extension. -/
theorem fudgeRound_approximates (st : FudgeState SatSolver) :
    Approximates (fudgeRound O af fuel st) (fudgeRound O af fuel' st) := by
  unfold fudgeRound
  split
  · exact approximates_refl _
  · apply approximates_bind
    intro x
    obtain ⟨sat, solver1⟩ := x
    dsimp only
    split
    · exact approximates_refl _
    · apply approximates_bind
      intro candidates
      exact (Approximates.foldlM (fudgeCandidate_approximates hfuel O af) _ _).bind
        fun _ => approximates_refl _

/-- The outer loop, the loop over an extension and the inner loop, from the inside out. -/
theorem fudgeSkep_approximates :
    Approximates (fudgeSkep O af fuel) (fudgeSkep O af fuel') := by
  apply approximates_bind
  intro clauses
  apply approximates_bind
  intro solver3
  exact Approximates.whileTrue (fudgeRound_approximates hfuel O af) hfuel _

end Fuel

end AcceptableArguments.Algorithms
