import AcceptableArguments.Solver

/-!
# The MaxSAT wrapper

`Cgss2MaxSatSolver` hands its calls to a library with the IPAMIR interface: a clause
literal by literal and closed by a zero, a soft literal with its weight, an assumption
for the next solve. What the library decides at each solve is a parameter, and may depend on
all the solves before it: the constructor leaves out `make_incremental`, so the unit clauses
with which the library hardens soft literals during one solve stay for the later ones.
-/

namespace AcceptableArguments

open AcceptableArguments.Sat Imperative

/-! ## The interface -/

namespace Ipamir

/-- The outcomes of `ipamir_solve`. -/
inductive Answer where
  | interrupted
  | feasible (m : Assignment) (obj : Nat)
  | unsat
  | optimal (m : Assignment) (obj : Nat)
  | error

/-- The codes of `ipamir.h`. -/
def Answer.code : Answer → Nat
  | .interrupted => 0
  | .feasible _ _ => 10
  | .unsat => 20
  | .optimal _ _ => 30
  | .error => 40

/-- What a library decides, after the instances that it solved before. -/
abbrev Library := List Query → Query → Answer

/-- The answer of `ipamir_solve` is right: no feasible solution is reported only when there
is none, and otherwise an optimal one with its objective value. -/
def Answer.Right (q : Query) : Answer → Prop
  | .unsat => ¬ ∃ m, q.Model m
  | .optimal m obj => q.Model m ∧ obj = cost m q.soft ∧
      ∀ m', q.Model m' → obj ≤ cost m' q.soft
  | .interrupted | .feasible _ _ | .error => False

/-- The library answers its first solve rightly, and the later ones as long as no soft
literal was declared. Nothing is said of a later solve with soft literals, for which the
interface would have to be made incremental. -/
def Library.Contract (B : Library) : Prop :=
  ∀ earlier q, earlier = [] ∨ (∀ p ∈ earlier ++ [q], p.soft = []) → (B earlier q).Right q

/-- The object behind the interface: the clause in progress, the instance, the assumptions of
the next solve, the instances solved so far and the last solution. -/
structure Solver where
  clause : List Int
  hard : List Clause
  soft : List (Int × Nat)
  assumptions : List Int
  earlier : List Query
  vals : Assignment
  obj : Nat

namespace Solver

/-- The constructor and `init_default`. -/
def new : Solver where
  clause := []
  hard := []
  soft := []
  assumptions := []
  earlier := []
  vals := fun _ => false
  obj := 0

/-- `ipamir_add_hard`; a zero ends the current clause. -/
def addHard (solver : Solver) (lit : Int) : Solver :=
  if lit = 0 then { solver with hard := solver.hard ++ [solver.clause], clause := [] }
  else { solver with clause := solver.clause ++ [lit] }

/-- `ipamir_add_soft_lit`. -/
def addSoftLit (solver : Solver) (lit : Int) (weight : Nat) : Solver :=
  { solver with soft := declare solver.soft lit weight }

/-- `ipamir_assume`. -/
def assume (solver : Solver) (lit : Int) : Solver :=
  { solver with assumptions := solver.assumptions ++ [lit] }

/-- The instance of the next solve. -/
def query (solver : Solver) : Query where
  clauses := solver.hard
  assumptions := solver.assumptions
  soft := solver.soft

/-- `ipamir_solve`; the assumptions are cleared by every solve. -/
def solve (B : Library) (solver : Solver) : Nat × Solver :=
  let answer := B solver.earlier solver.query
  let solved : Solver :=
    { solver with assumptions := [], earlier := solver.earlier ++ [solver.query] }
  match answer with
  | .feasible m obj | .optimal m obj => (answer.code, { solved with vals := m, obj := obj })
  | .interrupted | .unsat | .error => (answer.code, solved)

/-- `ipamir_val_lit`: the literal itself if it is true in the solution, its negation
otherwise. -/
def valLit (solver : Solver) (lit : Int) : Int :=
  if litHolds solver.vals lit then lit else -lit

end Solver

end Ipamir

/-! ## The wrapper -/

/-- The members `solver`, `decision_vars` and `model` of the class. -/
structure Cgss2MaxSatSolver where
  solver : Ipamir.Solver
  decisionVars : Nat
  model : List Bool

namespace Cgss2MaxSatSolver

/-- The constant `ERROR_V`. -/
def ERROR_V : Nat := 0

/-- The constant `UNSAT_V`. -/
def UNSAT_V : Nat := 20

/-- The constant `SAT_V`. -/
def SAT_V : Nat := 30

/-- The constructor; `make_incremental` stands in a comment of the source. -/
def new (_nVars nArgs : Nat) : Cgss2MaxSatSolver where
  solver := Ipamir.Solver.new
  decisionVars := nArgs
  model := List.replicate nArgs false

/-- `add_clause`. -/
def addClause (s : Cgss2MaxSatSolver) (clause : List Int) : Cgss2MaxSatSolver :=
  { s with solver := (clause.foldl Ipamir.Solver.addHard s.solver).addHard 0 }

/-- `add_clause_1`. -/
def addClause1 (s : Cgss2MaxSatSolver) (lit : Int) : Cgss2MaxSatSolver :=
  { s with solver := (s.solver.addHard lit).addHard 0 }

/-- `add_clause_2`. -/
def addClause2 (s : Cgss2MaxSatSolver) (lit1 lit2 : Int) : Cgss2MaxSatSolver :=
  { s with solver := ((s.solver.addHard lit1).addHard lit2).addHard 0 }

/-- `add_clause_3`. -/
def addClause3 (s : Cgss2MaxSatSolver) (lit1 lit2 lit3 : Int) : Cgss2MaxSatSolver :=
  { s with solver := (((s.solver.addHard lit1).addHard lit2).addHard lit3).addHard 0 }

/-- `add_soft_constraint`. -/
def addSoftConstraint (s : Cgss2MaxSatSolver) (lit : Int) : Cgss2MaxSatSolver :=
  { s with solver := s.solver.addSoftLit lit 1 }

/-- `disable_soft_constraint`. -/
def disableSoftConstraint (s : Cgss2MaxSatSolver) (lit : Int) : Cgss2MaxSatSolver :=
  { s with solver := s.solver.addSoftLit lit 0 }

/-- `assume`. -/
def assume (s : Cgss2MaxSatSolver) (lit : Int) : Cgss2MaxSatSolver :=
  { s with solver := s.solver.assume lit }

/-- `model[i-1] = solver->ipamir_val_lit(i)>0 ? true: false`, from `i = 0` on. -/
def setModel (solver : Ipamir.Solver) (model : List Bool) (i : Nat) :
    Except Fault (List Bool) :=
  match setAt model i (decide (solver.valLit ((i + 1 : Nat) : Int) > 0)) with
  | some model => .ok model
  | none => .error .outOfBounds

/-- `solve`; a result other than the three constants is returned as it is. -/
def solve (B : Ipamir.Library) (s : Cgss2MaxSatSolver) :
    Except Fault (Nat × Cgss2MaxSatSolver) := do
  let (sat, solver) := s.solver.solve B
  if sat = ERROR_V then .error (.exit 1 "Problem\n")
  else if sat = SAT_V then
    let model ← (List.range s.decisionVars).foldlM (setModel solver) s.model
    return (sat, { s with solver := solver, model := model })
  else return (sat, { s with solver := solver })

/-- `solve` with a vector of assumptions. -/
def solveAssuming (B : Ipamir.Library) (s : Cgss2MaxSatSolver) (assumptions : List Int) :
    Except Fault (Nat × Cgss2MaxSatSolver) :=
  (assumptions.foldl assume s).solve B

/-- `get_optimal_cost`. -/
def getOptimalCost (s : Cgss2MaxSatSolver) : Nat := s.solver.obj

end Cgss2MaxSatSolver

/-! ## Calls -/

/-- The number of solves in a history. -/
def solvesIn (log : List Event) : Nat :=
  log.countP fun
    | .answer _ => true
    | _ => false

theorem foldl_addHard {clause : List Int} (h : 0 ∉ clause) (solver : Ipamir.Solver) :
    clause.foldl Ipamir.Solver.addHard solver =
      { solver with clause := solver.clause ++ clause } := by
  induction clause generalizing solver with
  | nil => simp
  | cons l clause ih =>
      have hl : l ≠ 0 := fun h0 => h (by simp [h0])
      rw [List.foldl_cons, ih (fun h0 => h (by simp [h0])), Ipamir.Solver.addHard, if_neg hl]
      simp

section Calls

variable {B : Ipamir.Library} {c : Cgss2MaxSatSolver}

/-- The loop that overwrites the model reads the solution. -/
theorem foldlM_setModel_valLit {n : Nat} (solver : Ipamir.Solver) {old : List Bool}
    (hold : old.length = n) :
    (List.range n).foldlM (Cgss2MaxSatSolver.setModel solver) old =
      .ok (vec n (fun i => solver.vals (i + 1))) := by
  obtain ⟨q, rfl⟩ : ∃ q, old = vec n q := ⟨_, eq_vec_of_length hold false⟩
  have hscan := foldlM_range_ok (n := n) (f := Cgss2MaxSatSolver.setModel solver)
    (fun k => updated n k (fun i => solver.vals (i + 1)) q) ?_
  · rwa [updated_zero, updated_all] at hscan
  · intro k hk
    have hval : decide (solver.valLit ((k + 1 : Nat) : Int) > 0) = solver.vals (k + 1) := by
      rw [Ipamir.Solver.valLit, litHolds_pos solver.vals (by omega)]
      cases solver.vals (k + 1) with
      | false => exact decide_eq_false (by rw [if_neg (by decide)]; omega)
      | true => exact decide_eq_true (by rw [if_pos rfl]; omega)
    rw [Cgss2MaxSatSolver.setModel, hval, setAt_updated hk rfl]

theorem Cgss2MaxSatSolver.solve_unsat
    (hans : B c.solver.earlier c.solver.query = .unsat) :
    c.solve B = .ok (UNSAT_V, { c with solver :=
      { c.solver with assumptions := [], earlier := c.solver.earlier ++ [c.solver.query] } }) := by
  simp only [Cgss2MaxSatSolver.solve, Ipamir.Solver.solve, hans]
  rfl

theorem Cgss2MaxSatSolver.solve_optimal {m : Assignment} {obj : Nat}
    (hans : B c.solver.earlier c.solver.query = .optimal m obj)
    (hlen : c.model.length = c.decisionVars) :
    c.solve B = .ok (SAT_V, { c with
      solver := { c.solver with
        assumptions := [], earlier := c.solver.earlier ++ [c.solver.query], vals := m, obj := obj }
      model := vec c.decisionVars (fun i => m (i + 1)) }) := by
  have hne : ¬ (30 : Nat) = ERROR_V := by decide
  simp only [Cgss2MaxSatSolver.solve, Ipamir.Solver.solve, hans, Ipamir.Answer.code, if_neg hne,
    SAT_V, if_true, foldlM_setModel_valLit _ hlen]
  rfl

end Calls

end AcceptableArguments
