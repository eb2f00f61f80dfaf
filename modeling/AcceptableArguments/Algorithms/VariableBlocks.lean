import AcceptableArguments.Algorithms.Safety

/-!
# The blocks of variables in 32-bit arithmetic

The accepted, rejected, shifted and attack variables form consecutive intervals. The
source computes them with 32-bit integers, partly unsigned; below `2 ^ 31` variables
these computations agree with the integers of the model. The counter of the attack
variables is covered up to the last variable that is used.
-/

namespace AcceptableArguments.Algorithms

open AcceptableArguments.Sat Imperative Encodings

inductive Block where
  | accepted | rejected | shiftedAccepted | shiftedRejected | attack
  deriving DecidableEq, Repr

/-- The variables of a block as integers. -/
def Block.vars (af : AF) : Block → List Int
  | .accepted => af.acceptedVar
  | .rejected => af.rejectedVar
  | .shiftedAccepted => af.acceptedVar.map (((2 * af.args : Nat) : Int) + ·)
  | .shiftedRejected => af.rejectedVar.map (((2 * af.args : Nat) : Int) + ·)
  | .attack => (List.range af.attacks).map
      fun k : Nat => ((2 * af.args : Nat) : Int) + ((2 * af.args : Nat) : Int) + 1 + k

/-- `int32_t offset = 2*af.args;` -/
def machineOffset (af : AF) : BitVec 32 := 2 * BitVec.ofNat 32 af.args

/-- The same variables, computed with 32-bit arithmetic. -/
def Block.machineVars (af : AF) : Block → List (BitVec 32)
  | .accepted => af.acceptedVar.map (BitVec.ofInt 32)
  | .rejected => af.rejectedVar.map (BitVec.ofInt 32)
  | .shiftedAccepted => af.acceptedVar.map fun v => machineOffset af + BitVec.ofInt 32 v
  | .shiftedRejected => af.rejectedVar.map fun v => machineOffset af + BitVec.ofInt 32 v
  | .attack => (List.range af.attacks).map fun k =>
      machineOffset af + 2 * BitVec.ofNat 32 af.args + 1 + BitVec.ofNat 32 k

/-- The constructor arguments, computed with 32-bit arithmetic. -/
def machineSizes (af : AF) : List (BitVec 32) :=
  [BitVec.ofNat 32 af.count, 2 * BitVec.ofNat 32 af.args,
    4 * BitVec.ofNat 32 af.args + BitVec.ofNat 32 af.attacks]

/-- The first variable before each block. -/
def Block.base (n : Nat) : Block → Nat
  | .accepted => 0
  | .rejected => n
  | .shiftedAccepted => 2 * n
  | .shiftedRejected => 3 * n
  | .attack => 4 * n

def Block.size (af : AF) : Block → Nat
  | .attack => af.attacks
  | _ => af.args

section Blocks

variable {af : AF} (h : AF.Ready true af)

include h

/-- Every block is an interval of variables. -/
theorem Block.mem_vars {b : Block} {v : Int} :
    v ∈ b.vars af ↔ ((b.base af.args : Nat) : Int) < v ∧
      v ≤ ((b.base af.args + b.size af : Nat) : Int) := by
  have hinterval : ∀ base size : Nat, v ∈ (List.range size).map
      (fun k => ((base + k + 1 : Nat) : Int)) ↔ (base : Int) < v ∧
        v ≤ ((base + size : Nat) : Int) := by
    intro base size
    simp only [List.mem_map, List.mem_range]
    constructor
    · intro hx
      obtain ⟨k, hk, rfl⟩ := hx
      omega
    · intro hx
      obtain ⟨hlow, hhigh⟩ := hx
      exact ⟨(v - base - 1).toNat, by omega, by omega⟩
  have hvars : b.vars af = (List.range (b.size af)).map
      (fun k => ((b.base af.args + k + 1 : Nat) : Int)) := by
    cases b <;> simp only [Block.vars, Block.base, Block.size, h.acceptedVar_eq,
      h.rejectedVar_eq, accVar, rejVar, List.map_map, Function.comp_def] <;>
    · apply List.map_congr_left
      intro k _
      omega
  rw [hvars, hinterval]

theorem Block.disjoint {b c : Block} (hbc : b ≠ c) : (b.vars af).Disjoint (c.vars af) := by
  intro v hb hc
  rw [Block.mem_vars h] at hb hc
  cases b <;> cases c <;> simp only [Block.base, Block.size] at hb hc <;>
    first | exact hbc rfl | omega

theorem Block.le_size {b : Block} {v : Int} (hv : v ∈ b.vars af) :
    0 < v ∧ v ≤ ((4 * af.args + af.attacks : Nat) : Int) := by
  rw [Block.mem_vars h] at hv
  cases b <;> simp only [Block.base, Block.size] at hv <;> omega

end Blocks

/-! ## 32-bit arithmetic -/

theorem toInt_ofInt_of_inRange {n : Nat} (hn : n < 2 ^ 31) {l : Int} (hl : InRange n l) :
    (BitVec.ofInt 32 l).toInt = l := by
  obtain ⟨-, hle⟩ := hl
  apply BitVec.toInt_ofInt_eq_self (by decide) <;> omega

/-- The machine expressions are the integers of the model modulo `2 ^ 32`. -/
theorem Block.machineVars_eq (af : AF) (b : Block) :
    b.machineVars af = (b.vars af).map (BitVec.ofInt 32) := by
  cases b <;> simp only [Block.machineVars, Block.vars, List.map_map] <;>
    · apply List.map_congr_left
      intro v _
      simp [machineOffset, BitVec.ofInt_add, BitVec.ofInt_mul]

theorem Block.toInt_machineVars {af : AF} (h : AF.Ready true af)
    (hsize : 4 * af.args + af.attacks < 2 ^ 31) (b : Block) :
    (b.machineVars af).map BitVec.toInt = b.vars af := by
  rw [Block.machineVars_eq, List.map_map]
  conv_rhs => rw [← List.map_id (b.vars af)]
  apply List.map_congr_left
  intro v hv
  obtain ⟨hpos, hle⟩ := Block.le_size h hv
  exact toInt_ofInt_of_inRange hsize ⟨by omega, by omega⟩

theorem solverSizes_lt {af : AF} (h : AF.Ready true af)
    (hsize : 4 * af.args + af.attacks < 2 ^ 31) {n : Nat} (hn : n ∈ solverSizes af) :
    n < 2 ^ 31 := by
  simp only [solverSizes, List.mem_cons, List.not_mem_nil, or_false, h.count_eq,
    if_true] at hn
  omega

theorem toInt_machineSizes {af : AF} (h : AF.Ready true af)
    (hsize : 4 * af.args + af.attacks < 2 ^ 31) :
    (machineSizes af).map BitVec.toInt = (solverSizes af).map Nat.cast := by
  have hmachine : machineSizes af = (solverSizes af).map (BitVec.ofNat 32) := by
    simp [machineSizes, solverSizes, BitVec.ofNat_add, BitVec.ofNat_mul]
  rw [hmachine, List.map_map]
  apply List.map_congr_left
  intro n hn
  have hlt := solverSizes_lt h hsize hn
  change (BitVec.ofInt 32 (n : Int)).toInt = (n : Int)
  apply BitVec.toInt_ofInt_eq_self (by decide) <;> omega

/-! ## All algorithms -/

inductive Algorithm where
  | iaqCred | iaqSkep | eeeCred | eeeSkep | seeCred | seeSkep | seemCred | seemSkep
  | fudgeSkep
  deriving DecidableEq, Repr

/-- `fudge_skep` is called without a semantics. -/
def Algorithm.run (O : Oracle) (perfEnc : Bool) (af : AF) (sem : Semantics) (fuel : Nat) :
    Algorithm → SolveM (List String)
  | .iaqCred => Algorithms.iaqCred O perfEnc af sem
  | .iaqSkep => Algorithms.iaqSkep O perfEnc af sem fuel
  | .eeeCred => Algorithms.eeeCred O perfEnc af sem fuel
  | .eeeSkep => Algorithms.eeeSkep O perfEnc af sem fuel
  | .seeCred => Algorithms.seeCred O perfEnc af sem fuel
  | .seeSkep => Algorithms.seeSkep O af sem fuel
  | .seemCred => Algorithms.seemCred O perfEnc af sem fuel
  | .seemSkep => Algorithms.seemSkep O af sem fuel
  | .fudgeSkep => Algorithms.fudgeSkep O af fuel

/-- Every algorithm is safe, and a list that it returns has no index twice. -/
theorem Algorithm.run_safe {perfEnc : Bool} {af : AF} (h : AF.Ready perfEnc af) (O : Oracle)
    (sem : Semantics) (fuel : Nat) (alg : Algorithm) :
    Safe af (alg.run O perfEnc af sem fuel) (Listing af) := by
  cases alg with
  | iaqCred => exact iaqCred_safe h O sem
  | iaqSkep => exact iaqSkep_safe h O sem fuel
  | eeeCred => exact eeeCred_safe h O sem fuel
  | eeeSkep => exact eeeSkep_safe h O sem fuel
  | seeCred => exact seeCred_safe h O sem fuel
  | seeSkep => exact seeSkep_safe h O sem fuel
  | seemCred => exact seemCred_safe h O sem fuel
  | seemSkep => exact seemSkep_safe h O sem fuel
  | fudgeSkep => exact fudgeSkep_safe h O fuel

/-- Every run makes valid calls only and never leaves a vector, for all answers of the
solvers and at every point of the run. The blocks of variables are disjoint, and the
32-bit computations of variables and sizes are exact. -/
theorem literals_in_range (names : List String) (atts : List (String × String)) (af : AF)
    (haf : AF.build true names atts = some af) (hsize : 4 * af.args + af.attacks < 2 ^ 31) :
    (∀ (alg : Algorithm) (O : Oracle) (sem : Semantics) (fuel : Nat),
      (∀ e ∈ (alg.run O true af sem fuel []).2, e.Valid af) ∧
      (alg.run O true af sem fuel []).1 ≠ .error (.error .outOfBounds)) ∧
    ((Encodings.complete true af).isSome ∧ (Encodings.stable af).isSome ∧
      (∀ isAttackedSet, (Encodings.admissible af isAttackedSet).isSome) ∧
      (Encodings.attacks af).isSome) ∧
    (∀ b c : Block, b ≠ c → (b.vars af).Disjoint (c.vars af)) ∧
    (∀ b : Block, (b.machineVars af).map BitVec.toInt = b.vars af) ∧
    (machineSizes af).map BitVec.toInt = (solverSizes af).map Nat.cast ∧
    ∀ n ∈ solverSizes af, ∀ l, InRange n l → (BitVec.ofInt 32 l).toInt = l := by
  obtain ⟨h, -, -⟩ := AF.ready_of_build haf
  refine ⟨fun alg O sem fuel => ?_, ⟨?_, ?_, fun isAttackedSet => ?_, ?_⟩,
    fun b c => Block.disjoint h, Block.toInt_machineVars h hsize,
    toInt_machineSizes h hsize, fun n hn l hl => ?_⟩
  · have hstart : ValidLog af [] := by simp [ValidLog]
    obtain ⟨hlog, hstop⟩ := (alg.run_safe h O sem fuel).outcome hstart
    exact ⟨hlog, fun heq => hstop _ heq rfl⟩
  · rw [complete_perf_eq h]
    rfl
  · rw [stable_eq h]
    rfl
  · rw [admissible_eq h]
    rfl
  · rw [attacks_eq h]
    rfl
  · exact toInt_ofInt_of_inRange (solverSizes_lt h hsize hn) hl

/-- The framework of two arguments that attack each other. -/
def mutualAttack : AF :=
  (AF.build true ["a", "b"] [("a", "b"), ("b", "a")]).getD AF.empty

theorem literals_in_range_mutual :
    AF.build true ["a", "b"] [("a", "b"), ("b", "a")] = some mutualAttack ∧
      4 * mutualAttack.args + mutualAttack.attacks = 10 ∧
      ∀ (alg : Algorithm) (O : Oracle) (sem : Semantics) (fuel : Nat),
        (∀ e ∈ (alg.run O true mutualAttack sem fuel []).2, e.Valid mutualAttack) ∧
        (alg.run O true mutualAttack sem fuel []).1 ≠ .error (.error .outOfBounds) :=
  ⟨rfl, rfl, (literals_in_range ["a", "b"] [("a", "b"), ("b", "a")] mutualAttack rfl
    (by decide)).1⟩

end AcceptableArguments.Algorithms
