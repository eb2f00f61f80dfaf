import AcceptableArguments.Solver
import AcceptableArguments.Sat.Incremental

/-!
# The CaDiCaL, CryptoMiniSat and Glucose wrappers

The part of each library that a wrapper talks to is modelled from its interface: CaDiCaL
keeps the assumptions itself and drops them at the first call after an answer, the other
two receive them with each solve. What a library decides is a parameter, the core.
A literal whose variable does not exist in the library is an access out of bounds.
-/

namespace AcceptableArguments

open AcceptableArguments.Sat Imperative

/-- The constants `SAT_V` and `UNSAT_V`. -/
def Verdict.code : Verdict → Nat
  | .SAT_V => 10
  | .UNSAT_V => 20

/-- The lifted booleans of the two libraries that have them. -/
inductive LBool where
  | l_True | l_False | l_Undef
  deriving DecidableEq, Repr

/-- `toLbool`, of a truth value of the solution. -/
def LBool.ofBool : Bool → LBool
  | true => .l_True
  | false => .l_False

/-- `v[i]` -/
def entry {α : Type} (v : List α) (i : Nat) : Except Fault α :=
  match v[i]? with
  | some x => .ok x
  | none => .error .outOfBounds

/-! ## CaDiCaL -/

namespace CaDiCaL

/-- The states of the interface between two calls, under the library's names. -/
inductive State where
  | CONFIGURING | STEADY | ADDING | SATISFIED | UNSATISFIED
  deriving DecidableEq, Repr

/-- The object behind the interface: its state, the greatest variable, the clause in progress,
the assumptions, the calls that reached the search and the last solution. -/
structure Solver where
  state : State
  maxVar : Nat
  clause : List Int
  assumptions : List Int
  history : List (CoreCall Int)
  vals : Assignment

namespace Solver

/-- The constructor. -/
def new : Solver where
  state := .CONFIGURING
  maxVar := 0
  clause := []
  assumptions := []
  history := []
  vals := fun _ => false

/-- `transition_to_steady_state`; the assumptions of the last solve are only dropped here. -/
def transitionToSteadyState (solver : Solver) : Solver :=
  match solver.state with
  | .SATISFIED | .UNSATISFIED => { solver with assumptions := [], state := .STEADY }
  | .CONFIGURING | .STEADY | .ADDING => { solver with state := .STEADY }

/-- `add`; a zero ends the current clause. -/
def add (solver : Solver) (lit : Int) : Solver :=
  let solver := solver.transitionToSteadyState
  if lit = 0 then
    { solver with
      history := solver.history ++ [.add solver.clause], clause := [], state := .STEADY }
  else
    { solver with
      clause := solver.clause ++ [lit], maxVar := max solver.maxVar lit.natAbs
      state := .ADDING }

/-- `assume`. -/
def assume (solver : Solver) (lit : Int) : Solver :=
  let solver := solver.transitionToSteadyState
  { solver with
    assumptions := solver.assumptions ++ [lit], maxVar := max solver.maxVar lit.natAbs }

/-- `solve`; the codes of its answers are 10, 20 and 0. -/
def solve (C : Core Int) (solver : Solver) : Nat × Solver :=
  let solver := solver.transitionToSteadyState
  let solved : Solver :=
    { solver with history := solver.history ++ [.solve solver.assumptions] }
  match C solver.history solver.assumptions with
  | .sat m => (10, { solved with state := .SATISFIED, vals := m })
  | .unsat => (20, { solved with state := .UNSATISFIED })
  | .unknown => (0, { solved with state := .STEADY, assumptions := [] })

/-- `val`: the literal itself if it is true, its negation otherwise. Variables that never
occurred are false. -/
def val (solver : Solver) (lit : Int) : Int :=
  let idx := lit.natAbs
  let res : Int := if solver.maxVar < idx then -idx else if solver.vals idx then idx else -idx
  if lit < 0 then -res else res

end Solver

end CaDiCaL

/-- The members `solver`, `decision_vars` and `model` of the class. -/
structure CadicalSatSolver where
  solver : CaDiCaL.Solver
  decisionVars : Nat
  model : List Bool

namespace CadicalSatSolver

/-- The constructor. -/
def new (_nVars nArgs : Nat) : CadicalSatSolver where
  solver := CaDiCaL.Solver.new
  decisionVars := nArgs
  model := List.replicate nArgs false

/-- `add_clause`. -/
def addClause (s : CadicalSatSolver) (clause : List Int) : CadicalSatSolver :=
  { s with solver := (clause.foldl CaDiCaL.Solver.add s.solver).add 0 }

/-- `add_clause_1`. -/
def addClause1 (s : CadicalSatSolver) (lit : Int) : CadicalSatSolver :=
  { s with solver := (s.solver.add lit).add 0 }

/-- `add_clause_2`. -/
def addClause2 (s : CadicalSatSolver) (lit1 lit2 : Int) : CadicalSatSolver :=
  { s with solver := ((s.solver.add lit1).add lit2).add 0 }

/-- `add_clause_3`. -/
def addClause3 (s : CadicalSatSolver) (lit1 lit2 lit3 : Int) : CadicalSatSolver :=
  { s with solver := (((s.solver.add lit1).add lit2).add lit3).add 0 }

/-- `assume`. -/
def assume (s : CadicalSatSolver) (lit : Int) : CadicalSatSolver :=
  { s with solver := s.solver.assume lit }

/-- `solve`; the model is built anew with the `push_back` of each variable. -/
def solve (C : Core Int) (s : CadicalSatSolver) : Except Fault (Verdict × CadicalSatSolver) :=
  let (sat, solver) := s.solver.solve C
  if ¬ (sat = Verdict.SAT_V.code ∨ sat = Verdict.UNSAT_V.code) then
    .error (.exit 1 "Problem\n")
  else if sat = Verdict.SAT_V.code then
    let model := (List.range s.decisionVars).foldl
      (fun model i => model ++ [decide (solver.val ((i + 1 : Nat) : Int) > 0)]) []
    .ok (.SAT_V, { s with solver := solver, model := model })
  else
    .ok (.UNSAT_V, { s with solver := solver })

end CadicalSatSolver

/-! ## CryptoMiniSat -/

namespace CMSat

/-- The object behind the interface: the number of variables, the calls that reached the
search and the last solution. -/
structure SATSolver where
  nVars : Nat
  history : List (CoreCall PackedLit)
  model : List LBool

namespace SATSolver

/-- The constructor. -/
def new : SATSolver where
  nVars := 0
  history := []
  model := []

/-- `new_vars`. -/
def newVars (solver : SATSolver) (n : Nat) : SATSolver :=
  { solver with nVars := solver.nVars + n }

/-- `add_clause`. -/
def addClause (solver : SATSolver) (lits : List PackedLit) : Except Fault SATSolver :=
  if lits.all (·.var < solver.nVars) then
    .ok { solver with history := solver.history ++ [.add lits] }
  else
    .error .outOfBounds

/-- `solve` with a vector of assumptions; `get_model` is kept in `model`. -/
def solve (C : Core PackedLit) (solver : SATSolver) (assumptions : List PackedLit) :
    Except Fault (LBool × SATSolver) :=
  if assumptions.all (·.var < solver.nVars) then
    let solved : SATSolver :=
      { solver with history := solver.history ++ [.solve assumptions] }
    match C solver.history assumptions with
    | .sat m => .ok (.l_True,
        { solved with model := vec solver.nVars (fun v => LBool.ofBool (m v)) })
    | .unsat => .ok (.l_False, solved)
    | .unknown => .ok (.l_Undef, solved)
  else
    .error .outOfBounds

end SATSolver

end CMSat

/-- The members `solver`, `assumptions`, `decision_vars` and `model` of the class. -/
structure CryptoMiniSatSolver where
  solver : CMSat.SATSolver
  assumptions : List PackedLit
  decisionVars : Nat
  model : List Bool

namespace CryptoMiniSatSolver

/-- `Lit(abs(lit)-1, lit < 0)`, for a nonzero literal. -/
def lit (l : Int) : PackedLit := PackedLit.ofVar (l.natAbs - 1) (decide (l < 0))

/-- The constructor. -/
def new (nVars nArgs : Nat) : CryptoMiniSatSolver where
  solver := CMSat.SATSolver.new.newVars nVars
  assumptions := []
  decisionVars := nArgs
  model := List.replicate nArgs false

/-- `add_clause`. -/
def addClause (s : CryptoMiniSatSolver) (clause : List Int) :
    Except Fault CryptoMiniSatSolver := do
  return { s with solver := ← s.solver.addClause (clause.map lit) }

/-- `add_clause_1`. -/
def addClause1 (s : CryptoMiniSatSolver) (lit1 : Int) : Except Fault CryptoMiniSatSolver := do
  return { s with solver := ← s.solver.addClause [lit lit1] }

/-- `add_clause_2`. -/
def addClause2 (s : CryptoMiniSatSolver) (lit1 lit2 : Int) :
    Except Fault CryptoMiniSatSolver := do
  return { s with solver := ← s.solver.addClause [lit lit1, lit lit2] }

/-- `add_clause_3`. -/
def addClause3 (s : CryptoMiniSatSolver) (lit1 lit2 lit3 : Int) :
    Except Fault CryptoMiniSatSolver := do
  return { s with solver := ← s.solver.addClause [lit lit1, lit lit2, lit lit3] }

/-- `assume`. -/
def assume (s : CryptoMiniSatSolver) (l : Int) : CryptoMiniSatSolver :=
  { s with assumptions := s.assumptions ++ [lit l] }

/-- `model[i] = (solver.get_model()[i] == l_True ? 1 : 0);` -/
def setModel (values : List LBool) (model : List Bool) (i : Nat) : Except Fault (List Bool) := do
  let value ← entry values i
  if i < model.length then return model.set i (decide (value = .l_True))
  else throw .outOfBounds

/-- `solve`; an undecided answer counts as `UNSAT_V`. -/
def solve (C : Core PackedLit) (s : CryptoMiniSatSolver) :
    Except Fault (Verdict × CryptoMiniSatSolver) := do
  let (answer, solver) ← s.solver.solve C s.assumptions
  if answer = .l_True then
    let model ← (List.range s.decisionVars).foldlM (setModel solver.model) s.model
    return (.SAT_V, { s with solver := solver, model := model, assumptions := [] })
  else
    return (.UNSAT_V, { s with solver := solver, assumptions := [] })

end CryptoMiniSatSolver

/-! ## Glucose -/

namespace Glucose

/-- The object behind the interface: the number of variables, the calls that reached the
search and the last solution. -/
structure Solver where
  nVars : Nat
  history : List (CoreCall PackedLit)
  model : List LBool

namespace Solver

/-- The constructor; `initNbInitialVars` creates no variables. -/
def new : Solver where
  nVars := 0
  history := []
  model := []

/-- `newVar`. -/
def newVar (solver : Solver) : Solver := { solver with nVars := solver.nVars + 1 }

/-- `addClause_`, to which the other forms of `addClause` come down. -/
def addClause (solver : Solver) (lits : List PackedLit) : Except Fault Solver :=
  if lits.all (·.var < solver.nVars) then
    .ok { solver with history := solver.history ++ [.add lits] }
  else
    .error .outOfBounds

/-- `solve`; the result is whether the answer is `l_True`. -/
def solve (C : Core PackedLit) (solver : Solver) (assumptions : List PackedLit) :
    Except Fault (Bool × Solver) :=
  if assumptions.all (·.var < solver.nVars) then
    let solved : Solver :=
      { solver with history := solver.history ++ [.solve assumptions], model := [] }
    match C solver.history assumptions with
    | .sat m => .ok (true,
        { solved with model := vec solver.nVars (fun v => LBool.ofBool (m v)) })
    | .unsat => .ok (false, solved)
    | .unknown => .ok (false, solved)
  else
    .error .outOfBounds

/-- `modelValue`, of a variable. -/
def modelValue (solver : Solver) (v : Nat) : Except Fault LBool := entry solver.model v

end Solver

end Glucose

/-- The members `solver`, `assumptions`, `decision_vars` and `model` of the class. -/
structure GlucoseSatSolver where
  solver : Glucose.Solver
  assumptions : List PackedLit
  decisionVars : Nat
  model : List Bool

namespace GlucoseSatSolver

/-- `(lit > 0) ? mkLit(var) : ~mkLit(var)`, for a nonzero literal. -/
def lit (l : Int) : PackedLit :=
  if l > 0 then PackedLit.ofVar (l.natAbs - 1) false
  else (PackedLit.ofVar (l.natAbs - 1) false).compl

/-- `while (var >= solver->nVars()) solver->newVar();` for the variable of a literal. -/
def reserve (solver : Glucose.Solver) (l : Int) : Glucose.Solver :=
  Glucose.Solver.newVar^[l.natAbs - 1 + 1 - solver.nVars] solver

/-- The constructor; the model is empty until the first answer. -/
def new (_nVars nArgs : Nat) : GlucoseSatSolver where
  solver := Glucose.Solver.new
  assumptions := []
  decisionVars := nArgs
  model := []

/-- `add_clause`; the variables of the whole clause are created first. -/
def addClause (s : GlucoseSatSolver) (clause : List Int) :
    Except Fault GlucoseSatSolver := do
  let (solver, lits) := clause.foldl (fun (st : Glucose.Solver × List PackedLit) l =>
    (reserve st.1 l, st.2 ++ [lit l])) (s.solver, [])
  return { s with solver := ← solver.addClause lits }

/-- `add_clause_1`. -/
def addClause1 (s : GlucoseSatSolver) (lit1 : Int) : Except Fault GlucoseSatSolver := do
  let solver := reserve s.solver lit1
  return { s with solver := ← solver.addClause [lit lit1] }

/-- `add_clause_2`. -/
def addClause2 (s : GlucoseSatSolver) (lit1 lit2 : Int) : Except Fault GlucoseSatSolver := do
  let solver := reserve (reserve s.solver lit1) lit2
  return { s with solver := ← solver.addClause [lit lit1, lit lit2] }

/-- `add_clause_3`. -/
def addClause3 (s : GlucoseSatSolver) (lit1 lit2 lit3 : Int) :
    Except Fault GlucoseSatSolver := do
  let solver := reserve (reserve (reserve s.solver lit1) lit2) lit3
  return { s with solver := ← solver.addClause [lit lit1, lit lit2, lit lit3] }

/-- `assume`; the variable is created if need be. -/
def assume (s : GlucoseSatSolver) (l : Int) : GlucoseSatSolver :=
  { s with solver := reserve s.solver l, assumptions := s.assumptions ++ [lit l] }

/-- `model.push_back(solver->modelValue(i) == l_True ? 1 : 0);` -/
def pushModel (solver : Glucose.Solver) (model : List Bool) (i : Nat) :
    Except Fault (List Bool) := do
  let value ← solver.modelValue i
  return model ++ [decide (value = .l_True)]

/-- `solve`. -/
def solve (C : Core PackedLit) (s : GlucoseSatSolver) :
    Except Fault (Verdict × GlucoseSatSolver) := do
  let (sat, solver) ← s.solver.solve C s.assumptions
  if sat then
    let model ← (List.range s.decisionVars).foldlM (pushModel solver) []
    return (.SAT_V, { s with solver := solver, model := model, assumptions := [] })
  else
    return (.UNSAT_V, { s with solver := solver, assumptions := [] })

end GlucoseSatSolver

end AcceptableArguments
