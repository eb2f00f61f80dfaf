import AcceptableArguments.ProgramAnswers
import AcceptableArguments.Algorithms.FudgeOnCadical
import AcceptableArguments.Algorithms.SeemOnCgss2
import AcceptableArguments.Wrappers.Cgss2AsSatSolver

/-!
# The executables

The Makefile links an algorithm with a solver: IAQ, EEE and SEE with any of the SAT
solvers or with CGSS2, FUDGE with CaDiCaL and SEEM with CGSS2. What an executable does on an
input is what the program does with some oracle that keeps the contract of the build. So the
theorems about all oracles are theorems about the executables. One problem is left out: for
ES-ST the SEEM executable solves with soft literals again and again, and CGSS2 is not made
incremental for that.
-/

namespace AcceptableArguments.MainProgram

open AcceptableArguments.Sat Imperative Algorithms Readers

/-! ## Builds with their solvers -/

def SatAlgorithm.build : SatAlgorithm → Build
  | .IAQ => .IAQ
  | .EEE => .EEE
  | .SEE => .SEE

theorem SatAlgorithm.acceptableArguments_eq (alg : SatAlgorithm) (O : Oracle) (perfEnc : Bool)
    (argv0 : String) (aaf : AF) (task : Task) (sem : Semantics) (fuel : Nat) :
    acceptableArguments alg.build O perfEnc argv0 aaf task sem fuel =
      alg.run O perfEnc argv0 aaf task sem fuel := by
  cases alg <;> rfl

/-- An algorithm and the library that it is linked with. -/
inductive Executable where
  | cadical (alg : SatAlgorithm) (C : Core Int)
  | cryptoMiniSat (alg : SatAlgorithm) (C : Core PackedLit)
  | glucose (alg : SatAlgorithm) (C : Core PackedLit)
  | cgss2 (alg : SatAlgorithm) (B : Ipamir.Library)
  | fudge (C : Core Int)
  | seem (B : Ipamir.Library)

namespace Executable

def build : Executable → Build
  | .cadical alg _ | .cryptoMiniSat alg _ | .glucose alg _ | .cgss2 alg _ => alg.build
  | .fudge _ => .FUDGE
  | .seem _ => .SEEM

/-- The library does what its interface says. -/
def Sound : Executable → Prop
  | .cadical _ C | .fudge C => C.Correct litHolds
  | .cryptoMiniSat _ C | .glucose _ C => C.Correct PackedLit.holds
  | .cgss2 _ B | .seem B => B.Contract

/-- The contract of the library speaks of every solve of a run on this problem. For SEEM it
does unless one object solves several times with soft literals. -/
def InContract : Executable → Task → Semantics → Prop
  | .seem _, task, sem => ¬ (task = .ES ∧ sem = .ST)
  | .cadical _ _, _, _ | .cryptoMiniSat _ _, _, _ | .glucose _ _, _, _ | .cgss2 _ _, _, _
  | .fudge _, _, _ => True

/-- How the call of the algorithm ends. -/
def acceptableArguments (x : Executable) (perfEnc : Bool) (argv0 : String) (aaf : AF)
    (task : Task) (sem : Semantics) (fuel : Nat) : Except (Halt Fault) (List String) :=
  match x with
  | .cadical alg C => (alg.run (Wrapper.cadical C) perfEnc argv0 aaf task sem fuel []).1
  | .cryptoMiniSat alg C => (alg.run (Wrapper.cryptoMiniSat C) perfEnc argv0 aaf task sem fuel []).1
  | .glucose alg C => (alg.run (Wrapper.glucose C) perfEnc argv0 aaf task sem fuel []).1
  | .cgss2 alg B => (alg.run (Wrapper.cgss2 B) perfEnc argv0 aaf task sem fuel []).1
  | .fudge C => (fudgeRun C argv0 aaf task sem fuel []).1
  | .seem B => (seemRun B perfEnc argv0 aaf task sem fuel []).1

/-- How often the call of the algorithm solves, over all of its solvers. -/
def solves (x : Executable) (perfEnc : Bool) (argv0 : String) (aaf : AF) (task : Task)
    (sem : Semantics) (fuel : Nat) : Nat :=
  match x with
  | .cadical alg C => (alg.run (Wrapper.cadical C) perfEnc argv0 aaf task sem fuel []).2.length
  | .cryptoMiniSat alg C =>
      (alg.run (Wrapper.cryptoMiniSat C) perfEnc argv0 aaf task sem fuel []).2.length
  | .glucose alg C => (alg.run (Wrapper.glucose C) perfEnc argv0 aaf task sem fuel []).2.length
  | .cgss2 alg B => (alg.run (Wrapper.cgss2 B) perfEnc argv0 aaf task sem fuel []).2.length
  | .fudge C => (fudgeRun C argv0 aaf task sem fuel []).2.length
  | .seem B => (seemRun B perfEnc argv0 aaf task sem fuel []).2.length

end Executable

/-! ## The algorithms -/

section Algorithms

variable {perfEnc : Bool} {aaf : AF} (h : AF.Ready perfEnc aaf) (argv0 : String) (task : Task)
  (sem : Semantics) (fuel : Nat)

include h

theorem SatAlgorithm.run_follows {L S : Type} {W : Wrapper L S} {C : Core L} {e : Encoding L}
    (hW : W.Reliable C e) (alg : SatAlgorithm) :
    Follows solvesIn Eq (alg.run W perfEnc argv0 aaf task sem fuel)
      (fun shown => alg.run (Wrapper.oracle C e shown) perfEnc argv0 aaf task sem fuel) := by
  cases task with
  | UNKNOWN_TASK => exact follows_throw _
  | EC =>
      cases alg with
      | IAQ => exact iaqCred_follows hW h sem
      | EEE => exact eeeCred_follows hW h sem fuel
      | SEE => exact seeCred_follows hW h sem fuel
  | ES =>
      cases alg with
      | IAQ => exact iaqSkep_follows hW h sem fuel
      | EEE => exact eeeSkep_follows hW h sem fuel
      | SEE => exact seeSkep_follows hW h sem fuel

theorem fudgeRun_follows {C : Core Int} (hC : C.Correct litHolds) :
    Follows solvesIn Eq (fudgeRun C argv0 aaf task sem fuel)
      (fun shown => fudgeRun (Wrapper.oracle C cadicalEncoding shown) argv0 aaf task sem
        fuel) := by
  cases task with
  | UNKNOWN_TASK => exact follows_throw _
  | EC => exact follows_pure rfl
  | ES =>
      simp only [fudgeRun]
      by_cases hsem : sem ≠ .PR
      · simp only [if_pos hsem]
        exact follows_throw _
      · simp only [if_neg hsem]
        exact fudgeSkep_follows hC h fuel

theorem seemRun_follows {B : Ipamir.Library} (hB : B.Contract)
    (hproblem : ¬ (task = .ES ∧ sem = .ST)) :
    Follows solvesIn Eq (seemRun B perfEnc argv0 aaf task sem fuel)
      (fun replies => seemRun (Ipamir.Library.replay replies) perfEnc argv0 aaf task sem
        fuel) := by
  cases task with
  | UNKNOWN_TASK => exact follows_throw _
  | EC => exact seemCred_follows hB h sem fuel
  | ES =>
      have hsem : sem ≠ .ST := fun heq => hproblem ⟨rfl, heq⟩
      simp only [seemRun, seemSkep, if_pos hsem]
      exact follows_throw _

/-- A run on a library ends like a run with an oracle and solves as often. -/
theorem SatAlgorithm.exists_oracle {L S : Type} {W : Wrapper L S} {C : Core L} {e : Encoding L}
    (hW : W.Reliable C e) (alg : SatAlgorithm) :
    ∃ O w', alg.build.Contract O ∧
      acceptableArguments alg.build O perfEnc argv0 aaf task sem fuel [] =
        ((alg.run W perfEnc argv0 aaf task sem fuel []).1, w') ∧
      ∀ answer, (alg.run W perfEnc argv0 aaf task sem fuel []).1 = .ok answer →
        solvesIn w' = (alg.run W perfEnc argv0 aaf task sem fuel []).2.length := by
  obtain ⟨shown, w', hrun, hsolves⟩ :=
    (alg.run_follows h argv0 task sem fuel hW).exists_script solvesIn_nil
  rw [← alg.acceptableArguments_eq] at hrun
  refine ⟨Wrapper.oracle C e shown, w', ?_, hrun, hsolves⟩
  cases alg with
  | IAQ => exact Wrapper.oracle_correct C e shown
  | EEE => exact Wrapper.oracle_correct C e shown
  | SEE => exact Wrapper.oracle_correct C e shown

theorem Executable.exists_oracle {x : Executable} (hx : x.Sound)
    (hproblem : x.InContract task sem) :
    ∃ O w', x.build.Contract O ∧
      MainProgram.acceptableArguments x.build O perfEnc argv0 aaf task sem fuel [] =
        (x.acceptableArguments perfEnc argv0 aaf task sem fuel, w') ∧
      ∀ answer, x.acceptableArguments perfEnc argv0 aaf task sem fuel = .ok answer →
        solvesIn w' = x.solves perfEnc argv0 aaf task sem fuel := by
  cases x with
  | cadical alg C => exact alg.exists_oracle h argv0 task sem fuel (cadical_reliable hx)
  | cryptoMiniSat alg C =>
      exact alg.exists_oracle h argv0 task sem fuel (cryptoMiniSat_reliable hx)
  | glucose alg C => exact alg.exists_oracle h argv0 task sem fuel (glucose_reliable hx)
  | cgss2 alg B => exact alg.exists_oracle h argv0 task sem fuel (cgss2_reliable hx)
  | fudge C =>
      obtain ⟨shown, w', hrun⟩ :=
        (fudgeRun_follows h argv0 task sem fuel hx).exists_script solvesIn_nil
      exact ⟨_, w', Wrapper.oracle_correct C cadicalEncoding shown, hrun⟩
  | seem B =>
      obtain ⟨replies, w', hrun⟩ :=
        (seemRun_follows h argv0 task sem fuel hx hproblem).exists_script solvesIn_nil
      exact ⟨_, w', Ipamir.Library.replay_optimal replies, hrun⟩

end Algorithms

/-! ## The program -/

section SolveWith

variable {compute : Computation} {perfEnc : Bool} {task : List Char} {fuel : Nat} {aaf : AF}
  {comments : List CommentLine}

end SolveWith

/-- Only the framework that was read matters. -/
theorem programWith_congr {build : Build} {compute compute' : Computation} {perfEnc : Bool}
    {opts : Options} {input : Option (List Char)} {fuel : Nat}
    (h : ∀ text aaf, input = some text →
      (readInput opts.argv0 opts.fileformat fuel (InStream.ofText text)).1 = .ok aaf →
      compute (aaf.initializeVars perfEnc) (stringToTask opts.task) (stringToSem opts.task)
          fuel =
        compute' (aaf.initializeVars perfEnc) (stringToTask opts.task) (stringToSem opts.task)
          fuel) :
    programWith build compute perfEnc opts input fuel =
      programWith build compute' perfEnc opts input fuel := by
  cases input with
  | none => rfl
  | some text =>
      unfold programWith
      dsimp only
      generalize hread : (readInput opts.argv0 opts.fileformat fuel (InStream.ofText text)).1 =
        read
      cases read with
      | error e =>
          cases e with
          | outOfFuel => rfl
          | error fault => cases fault <;> rfl
      | ok aaf =>
          have hsolve : solveWith compute perfEnc opts.task fuel aaf =
              solveWith compute' perfEnc opts.task fuel aaf := by
            rw [solveWith, solveWith, h text aaf rfl hread]
          simp only [hsolve]

namespace Executable

/-- The libraries of these executables write nothing to standard output. -/
def computation (x : Executable) (perfEnc : Bool) (argv0 : String) : Computation :=
  fun aaf task sem fuel => (x.acceptableArguments perfEnc argv0 aaf task sem fuel, [])

/-- `main` of the executable. -/
def mainProgram (x : Executable) (perfEnc : Bool) (opts : Options)
    (input : Option (List Char)) (fuel : Nat) : Except Stuck Outcome :=
  programWith x.build (x.computation perfEnc opts.argv0) perfEnc opts input fuel

/-- The run of the executable ends with this outcome. -/
def Ends (x : Executable) (perfEnc : Bool) (opts : Options) (text : List Char)
    (out : Outcome) : Prop :=
  ∃ fuel, x.mainProgram perfEnc opts (some text) fuel = .ok out

end Executable

/-- On frameworks in shape an executable does what the program does with some oracle that
keeps the contract. -/
theorem Executable.mainProgram_refines {x : Executable} (hx : x.Sound) {perfEnc : Bool}
    {opts : Options} (hproblem : x.InContract (stringToTask opts.task) (stringToSem opts.task))
    {input : Option (List Char)}
    (hready : ∀ text aaf, input = some text → Reads opts.fileformat text aaf →
      AF.Ready perfEnc (aaf.initializeVars perfEnc)) (fuel : Nat) :
    ∃ O, x.build.Contract O ∧ x.mainProgram perfEnc opts input fuel =
      MainProgram.mainProgram x.build O perfEnc opts input fuel := by
  by_cases hread : ∃ text aaf, input = some text ∧
      (readInput opts.argv0 opts.fileformat fuel (InStream.ofText text)).1 = .ok aaf
  · obtain ⟨text, aaf, htext, haaf⟩ := hread
    have hreads : Reads opts.fileformat text aaf := ⟨opts.argv0, fuel, _, Prod.ext haaf rfl⟩
    obtain ⟨O, w', hO, hrun, -⟩ := Executable.exists_oracle (hready text aaf htext hreads)
      opts.argv0 (stringToTask opts.task) (stringToSem opts.task) fuel hx hproblem
    refine ⟨O, hO, ?_⟩
    apply programWith_congr
    intro text' aaf' htext' haaf'
    rw [htext] at htext'
    cases htext'
    rw [haaf] at haaf'
    cases haaf'
    exact congrArg (·, []) (congrArg Prod.fst hrun).symm
  · -- Without a framework no solver is called and any oracle will do.
    obtain ⟨O, hO⟩ := x.build.exists_contract
    refine ⟨O, hO, ?_⟩
    exact programWith_congr fun text aaf htext haaf => absurd ⟨text, aaf, htext, haaf⟩ hread

/-- Every executable with a sound library refines the program: with every option, on every
input and with every bound on the loops it does what the program does with some oracle that
keeps the contract of the build. A tgf text needs its separating line, and SEEM is not asked
for ES-ST. -/
theorem executable_refines_program (x : Executable) (hx : x.Sound) (perfEnc : Bool)
    (opts : Options) (hproblem : x.InContract (stringToTask opts.task) (stringToSem opts.task))
    (input : Option (List Char))
    (hinput : ∀ text, input = some text → Separated opts.fileformat text) (fuel : Nat) :
    ∃ O, x.build.Contract O ∧ x.mainProgram perfEnc opts input fuel =
      mainProgram x.build O perfEnc opts input fuel :=
  Executable.mainProgram_refines hx hproblem
    (fun text _ htext haaf => (hinput text htext).ready haaf perfEnc) fuel

theorem sound_cadical_exhaustive (alg : SatAlgorithm) :
    (Executable.cadical alg (Core.exhaustive litHolds Int.natAbs)).Sound :=
  Core.exhaustive_correct fun _ _ _ => litHolds_congr

theorem executable_refines_program_attack :
    ∃ O, Build.SEE.Contract O ∧
      (Executable.cadical .SEE (Core.exhaustive litHolds Int.natAbs)).mainProgram true
        (plainOptions "EC-ST".toList) (some "p af 2\n1 2".toList) 5 =
      mainProgram .SEE O true (plainOptions "EC-ST".toList) (some "p af 2\n1 2".toList) 5 :=
  executable_refines_program (.cadical .SEE (Core.exhaustive litHolds Int.natAbs))
    (sound_cadical_exhaustive .SEE) true (plainOptions "EC-ST".toList) trivial _
    (fun _ _ htgf => absurd htgf (by decide)) 5

/-- On every well-formed text every executable with a sound library ends, and however it
ends, it has printed the arguments that the problem asks for, each of them once. IAQ and the
skeptical problems keep the order of the input. FUDGE is asked about frameworks only whose
answer does not depend on the solver, and SEEM not for ES-ST. -/
theorem executable_prints_accepted (x : Executable) (hx : x.Sound) (perfEnc : Bool)
    (opts : Options) (problem : List Char) (hopts : opts.Asks problem)
    (hlisted : problem ∈ advertised x.build)
    (hproblem : x.InContract (stringToTask problem) (stringToSem problem)) (text : List Char)
    (htext : WellFormed opts.fileformat text)
    (hdecides : x.build.Decides (describe opts.fileformat text).att) :
    (∃ out, x.Ends perfEnc opts text out) ∧ ∀ out, x.Ends perfEnc opts text out →
      ∃ answer : List String, out = printed answer ∧ answer.Nodup ∧
        (∀ s, s ∈ answer ↔ s ∈ accepted (describe opts.fileformat text) (stringToTask problem)
          (stringToSem problem)) ∧
        (x.build.InOrder (stringToTask problem) → answer =
          acceptedInOrder (describe opts.fileformat text) (stringToTask problem)
            (stringToSem problem)) := by
  have hready : ∀ text' aaf, some text = some text' → Reads opts.fileformat text' aaf →
      AF.Ready perfEnc (aaf.initializeVars perfEnc) := by
    intro text' aaf htext' haaf
    cases htext'
    exact htext.separated.ready haaf perfEnc
  have hasked : x.InContract (stringToTask opts.task) (stringToSem opts.task) := by
    rwa [hopts.task_eq]
  constructor
  · obtain ⟨fuel, hfuel⟩ := exists_fuel_answers perfEnc hopts hlisted htext
    obtain ⟨O, hO, hmain⟩ := Executable.mainProgram_refines hx hasked hready fuel
    obtain ⟨S, answer, -, hanswer⟩ := hfuel O hO
    exact ⟨printed answer, fuel, hmain.trans hanswer⟩
  · intro out hends
    obtain ⟨fuel, hout⟩ := hends
    obtain ⟨O, hO, hmain⟩ := Executable.mainProgram_refines hx hasked hready fuel
    obtain ⟨S, answer, hanswer, hprints⟩ := ends_with_answer perfEnc hopts hlisted htext hO
    exact ⟨answer, (hprints out).mp ⟨fuel, hmain.symm.trans hout⟩, hanswer.nodup,
      hanswer.mem_accepted hdecides, hanswer.in_order⟩

/-- One attack between two arguments, with EEE on CaDiCaL. -/
theorem executable_prints_accepted_attack :
    ∃ out, (Executable.cadical .EEE (Core.exhaustive litHolds Int.natAbs)).Ends false
      (plainOptions "EC-CO".toList) "p af 2\n1 2".toList out :=
  (executable_prints_accepted (.cadical .EEE (Core.exhaustive litHolds Int.natAbs))
    (sound_cadical_exhaustive .EEE) false (plainOptions "EC-CO".toList) "EC-CO".toList
    (plainOptions_asks _) (by decide) trivial _ wellFormed_attack trivial).1

end AcceptableArguments.MainProgram
