import AcceptableArguments.Executables
import AcceptableArguments.Algorithms.FudgeCalls
import AcceptableArguments.Algorithms.SkepticalCalls

/-!
# How often the executables solve

A run of an executable is a run of the program with some oracle and as many solves. So the
counts that hold for all oracles are counts of calls to the linked library.
-/

namespace AcceptableArguments.MainProgram

open AcceptableArguments.Sat Imperative Algorithms Argumentation

/-- What the answer to a listed problem costs in solver calls. -/
def Build.Price (build : Build) (perfEnc : Bool) (af : AF) (task : Task) (sem : Semantics)
    (answer : List String) (calls : Nat) : Prop :=
  match build, task with
  | .IAQ, .EC => calls = af.args
  | .EEE, .EC => calls = (sem.visited perfEnc af.att).ncard + 1
  | .SEE, .EC => calls ≤ answer.length + 2 ∧ calls ≤ (sem.visited perfEnc af.att).ncard + 1
  | .SEEM, .EC => calls ≤ answer.length + 1
  | .IAQ, .ES =>
      if sem = .ST then calls = af.args
      else calls ≤ ∑ arg : Fin af.args, ((setsWithout perfEnc af arg).ncard * (af.args + 2) + 1)
  | .EEE, .ES =>
      if sem = .ST then calls = {S | Stable af.att S}.ncard + 1
      else {S | Preferred af.att S}.ncard * 2 + 1 ≤ calls ∧
        calls ≤ {S | Preferred af.att S}.ncard * (af.args + 2) + 1
  | .SEE, .ES =>
      calls + answer.length ≤ af.args + 2 ∧ calls ≤ {S | Stable af.att S}.ncard + 1
  | .SEEM, .ES => calls + answer.length ≤ af.args + 1
  | .FUDGE, .ES => calls ≤ af.args * (2 * af.args + 3) + 1
  | _, _ => True

section Price

variable {perfEnc : Bool} {af : AF} (h : AF.Ready perfEnc af) {O : Oracle} {build : Build}
  {fuel : Nat} (hfuel : 2 ^ af.args < fuel)

include h hfuel

theorem credulous_price (argv0 : String) (hbuild : build ≠ .FUDGE) (hO : build.Contract O)
    {sem : Semantics} (hsem : sem = .CO ∨ sem = .PR ∨ sem = .ST) :
    Ensures (acceptableArguments build O perfEnc argv0 af .EC sem fuel) []
      (fun answer log => build.Price perfEnc af .EC sem answer (solvesIn log))
      (fun _ _ => False) := by
  cases build with
  | IAQ =>
      obtain ⟨cs, hcs, -⟩ := encodeCred_members h hsem
      apply ((iaqCred_ensures h hO hcs).costs (costs_iaqCred O perfEnc af sem)).post
      intro answer log hx
      simpa [Build.Price] using hx.2
  | EEE =>
      apply (eeeCred_calls h hO hfuel hsem).post
      intro answer log hx
      simpa [Build.Price] using hx
  | SEE =>
      apply (seeCred_calls h hO hfuel hsem).post
      intro answer log hx
      simpa [Build.Price] using hx
  | SEEM =>
      apply (seemCred_calls h hO (Nat.lt_two_pow_self.trans hfuel) hsem).post
      intro answer log hx
      simpa [Build.Price] using hx
  | FUDGE => exact absurd rfl hbuild

theorem stable_price (argv0 : String) (hbuild : build ≠ .FUDGE) (hO : build.Contract O) :
    Ensures (acceptableArguments build O perfEnc argv0 af .ES .ST fuel) []
      (fun answer log => build.Price perfEnc af .ES .ST answer (solvesIn log))
      (fun _ _ => False) := by
  cases build with
  | IAQ =>
      apply ((iaqSkep_ST_ensures h hO fuel).costs (costs_iaqSkep_ST O perfEnc af fuel)).post
      intro answer log hx
      simpa [Build.Price] using hx.2
  | EEE =>
      apply (eeeSkep_ST_calls h hO hfuel).post
      intro answer log hx
      simpa [Build.Price] using hx
  | SEE =>
      apply (seeSkep_calls h hO hfuel).post
      intro answer log hx
      simpa [Build.Price] using hx
  | SEEM =>
      apply (seemSkep_calls h hO (Nat.lt_two_pow_self.trans hfuel)).post
      intro answer log hx
      simpa [Build.Price] using hx
  | FUDGE => exact absurd rfl hbuild

theorem preferred_price (argv0 : String) (hbuild : .PR ∈ skeptical build)
    (hO : build.Contract O) :
    Ensures (acceptableArguments build O perfEnc argv0 af .ES .PR fuel) []
      (fun answer log => build.Price perfEnc af .ES .PR answer (solvesIn log))
      (fun _ _ => False) := by
  cases build with
  | IAQ =>
      apply (iaqSkep_PR_calls h hO hfuel).post
      intro answer log hx
      simpa [Build.Price] using hx
  | EEE =>
      apply (eeeSkep_PR_calls h hO hfuel).post
      intro answer log hx
      simpa [Build.Price] using hx
  | SEE => exact absurd hbuild (by decide)
  | SEEM => exact absurd hbuild (by decide)
  | FUDGE =>
      apply (fudgeSkep_calls h hO (Nat.lt_two_pow_self.trans hfuel)).post
      intro answer log hx
      simpa [Build.Price] using hx

theorem acceptableArguments_price (argv0 : String) (hO : build.Contract O) {task : Task}
    {sem : Semantics} (hlisted : (task, sem) ∈ build.supported) :
    Ensures (acceptableArguments build O perfEnc argv0 af task sem fuel) []
      (fun answer log => build.Price perfEnc af task sem answer (solvesIn log))
      (fun _ _ => False) := by
  cases supported_cases hlisted with
  | inl hEC =>
      obtain ⟨rfl, hbuild, hsem⟩ := hEC
      exact credulous_price h hfuel argv0 hbuild hO hsem
  | inr hES =>
      obtain ⟨rfl, ⟨rfl, hbuild⟩ | ⟨rfl, hbuild⟩⟩ := hES
      · exact stable_price h hfuel argv0 hbuild hO
      · exact preferred_price h hfuel argv0 hbuild hO

end Price

/-- Every executable with a sound library answers each problem that it lists, and what it
pays in calls of the library's `solve` is what the build promises. SEEM is not asked for
ES-ST. -/
theorem executable_calls (x : Executable) (hx : x.Sound) (perfEnc : Bool) (argv0 : String)
    (names : List String) (atts : List (String × String)) :
    ∃ af, AF.build perfEnc names atts = some af ∧ ∀ fuel > 2 ^ af.args, ∀ task sem,
      (task, sem) ∈ x.build.supported → x.InContract task sem →
      ∃ answer, x.acceptableArguments perfEnc argv0 af task sem fuel = .ok answer ∧
        x.build.Price perfEnc af task sem answer
          (x.solves perfEnc argv0 af task sem fuel) := by
  obtain ⟨af, haf, hready, -⟩ := AF.build_spec perfEnc names atts
  refine ⟨af, haf, ?_⟩
  intro fuel hfuel task sem hlisted hproblem
  obtain ⟨O, log, hO, hrun, hsolves⟩ :=
    Executable.exists_oracle hready argv0 task sem fuel hx hproblem
  obtain ⟨answer, log', hanswer, hprice⟩ :=
    (acceptableArguments_price hready hfuel argv0 hO hlisted).exists_ok
  rw [hrun] at hanswer
  obtain ⟨hok, hlog⟩ := Prod.mk.inj hanswer
  subst hlog
  rw [hsolves answer hok] at hprice
  exact ⟨answer, hok, hprice⟩

theorem executable_calls_mutual : ∃ af,
    AF.build true ["a", "b"] [("a", "b"), ("b", "a")] = some af ∧
      ∀ fuel > 2 ^ af.args, ∀ task sem, (task, sem) ∈ Build.SEE.supported →
      ∃ answer, (Executable.cadical .SEE (Core.exhaustive litHolds Int.natAbs)).acceptableArguments
          true "solver" af task sem fuel = .ok answer ∧
        Build.SEE.Price true af task sem answer
          ((Executable.cadical .SEE (Core.exhaustive litHolds Int.natAbs)).solves true "solver"
            af task sem fuel) := by
  obtain ⟨af, haf, hcalls⟩ := executable_calls (.cadical .SEE (Core.exhaustive litHolds Int.natAbs))
    (sound_cadical_exhaustive .SEE) true "solver" ["a", "b"] [("a", "b"), ("b", "a")]
  exact ⟨af, haf, fun fuel hfuel task sem hlisted => hcalls fuel hfuel task sem hlisted trivial⟩

end AcceptableArguments.MainProgram
