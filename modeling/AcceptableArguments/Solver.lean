import AcceptableArguments.Imperative.Run
import AcceptableArguments.Imperative.Vectors
import AcceptableArguments.Sat.Weighted
import Mathlib.Data.List.Dedup
import Mathlib.Data.List.MinMax

/-!
# The solver interface of the algorithms

`SolverInterface` is what an algorithm calls of its `SAT_Solver`, whatever the program is
linked with. The solver that most results are about is `SatSolver`: the clauses added so
far, the literals assumed since the last solve, the soft literals of the MaxSAT
variant, and the model and extension read after a satisfiable answer. Which
model is returned is the choice of an oracle. The oracle sees the whole history
of calls on all solver instances, so it may answer the same question in
different ways.

Every literal that is handed to a solver is recorded in the history together
with the number of variables that the solver was constructed for.
-/

namespace AcceptableArguments

open AcceptableArguments.Sat Imperative

inductive Verdict where
  | SAT_V | UNSAT_V
  deriving DecidableEq, Repr

/-- Ends of a run without a result. An access outside a vector is undefined
behaviour in the source. -/
inductive Fault where
  | outOfBounds
  | exit (code : Nat) (message : String)
  deriving DecidableEq, Repr

/-- The value of a vector access. -/
def bounds {σ α : Type} (o : Option α) : Run Fault σ α := Run.ofOption .outOfBounds o

/-! ## The interface -/

/-- `SAT_Solver` as the algorithms use it. What decides the queries is a value of `Lib`, the
solver objects have type `S`, and a run that calls them has the state `σ`. -/
class SolverInterface (Lib : Type) (σ S : outParam Type) where
  /-- The constructor `SAT_Solver(n_vars, n_args)`. -/
  new : Lib → Nat → Nat → S
  /-- `add_clause`, also for the variants with one, two and three literals. -/
  addClause : Lib → S → Clause → Run Fault σ S
  assume : Lib → S → Int → Run Fault σ S
  /-- `solve()` -/
  solve : Lib → S → Run Fault σ (Verdict × S)
  /-- The member `model`. -/
  model : Lib → S → List Bool

/-- The class of FUDGE, which also lists the true variables. -/
class ExtensionInterface (Lib : Type) (σ S : outParam Type)
    extends SolverInterface Lib σ S where
  /-- `solve_extension()` -/
  solveExtension : Lib → S → Run Fault σ (Verdict × S)
  /-- The member `extension`. -/
  extension : Lib → S → List Nat

/-- The class of SEEM, a MaxSAT solver. -/
class MaxSatInterface (Lib : Type) (σ S : outParam Type)
    extends SolverInterface Lib σ S where
  addSoftConstraint : Lib → S → Int → Run Fault σ S
  disableSoftConstraint : Lib → S → Int → Run Fault σ S
  /-- `get_optimal_cost()` -/
  optimalCost : Lib → S → Nat

namespace SolverInterface

variable {Lib σ S : Type} [SolverInterface Lib σ S] (lib : Lib)

/-- The clauses of an encoding, added one by one. -/
def addClauses (solver : S) (clauses : List Clause) : Run Fault σ S :=
  clauses.foldlM (addClause lib) solver

/-- `solve(assumptions)` -/
def solveAssuming (solver : S) (assumptions : List Int) : Run Fault σ (Verdict × S) := do
  let solver ← assumptions.foldlM (assume lib) solver
  solve lib solver

end SolverInterface

/-! ## The solver with an oracle -/

/-- A call on some solver instance; `nVars` is the first constructor argument of
that instance. -/
inductive Event where
  | clause (nVars : Nat) (lits : Clause)
  | assumption (nVars : Nat) (lit : Int)
  | soft (nVars : Nat) (lit : Int) (weight : Nat)
  | answer (model : Option (List Bool))
  deriving DecidableEq, Repr

/-- What a solver instance is asked: clauses, assumptions and weighted soft
literals, each of which costs its weight when true. -/
structure Query where
  clauses : List Clause
  assumptions : List Int
  soft : List (Int × Nat)

/-- The assignment satisfies the clauses and the assumptions. -/
def Query.Model (q : Query) (m : Assignment) : Prop :=
  Satisfies m q.clauses ∧ AllHold m q.assumptions

/-- The answer to a query after a history of calls: no model, or a model with the
reported cost. -/
abbrev Oracle := List Event → Query → Option (Assignment × Nat)

/-- An oracle that answers UNSAT only when there is no model and otherwise returns
some model. -/
def Oracle.Correct (O : Oracle) : Prop :=
  ∀ log q, match O log q with
    | none => ¬ ∃ m, q.Model m
    | some (m, _) => q.Model m

instance (q : Query) (m : Assignment) : Decidable (q.Model m) :=
  inferInstanceAs (Decidable (Satisfies m q.clauses ∧ AllHold m q.assumptions))

/-- The variables that occur in a query. -/
def Query.vars (q : Query) : List Nat :=
  ((q.clauses.flatten ++ q.assumptions).map Int.natAbs).dedup

theorem Query.Model.congr {q : Query} {m m' : Assignment} (hm : q.Model m)
    (h : ∀ v ∈ q.vars, m v = m' v) : q.Model m' := by
  have hvar : ∀ l ∈ q.clauses.flatten ++ q.assumptions, m l.natAbs = m' l.natAbs :=
    fun l hl => h _ (List.mem_dedup.mpr (List.mem_map_of_mem hl))
  constructor
  · refine hm.1.congr fun c hc l hl => hvar l ?_
    exact List.mem_append_left _ (List.mem_flatten_of_mem hc hl)
  · exact hm.2.congr fun l hl => hvar l (List.mem_append_right _ hl)

/-- The oracle that tries the valuations of the occurring variables one by one. -/
def Oracle.exhaustive : Oracle := fun _ q =>
  ((assignments q.vars).find? (fun m => decide (q.Model m))).map (fun m => (m, 0))

theorem Oracle.exhaustive_correct : Oracle.exhaustive.Correct := by
  intro log q
  unfold Oracle.exhaustive
  cases hfind : (assignments q.vars).find? (fun m => decide (q.Model m)) with
  | none =>
      intro h
      obtain ⟨m, hm⟩ := h
      obtain ⟨m', hm', hagree, -⟩ := exists_mem_assignments q.vars m
      have hnot := List.find?_eq_none.mp hfind m' hm'
      exact hnot (decide_eq_true (hm.congr fun v hv => (hagree v hv).symm))
  | some m =>
      change q.Model m
      simpa using List.find?_some hfind

/-- The contract of IPAMIR: a soft literal costs its weight when true, UNSAT is answered
only when the hard clauses have no model under the assumptions, and otherwise some
optimal model is returned together with its cost. -/
def Oracle.Optimal (O : Oracle) : Prop :=
  ∀ log q, match O log q with
    | none => ¬ ∃ m, q.Model m
    | some (m, value) => q.Model m ∧ value = cost m q.soft ∧
        ∀ m', q.Model m' → value ≤ cost m' q.soft

/-- The oracle that compares the costs of all valuations of the occurring variables. -/
def Oracle.cheapest : Oracle := fun _ q =>
  (((assignments (q.vars ++ q.soft.map fun p => p.1.natAbs)).filter
    (fun m => decide (q.Model m))).argmin (fun m => cost m q.soft)).map
      (fun m => (m, cost m q.soft))

theorem Oracle.cheapest_optimal : Oracle.cheapest.Optimal := by
  intro log q
  set candidates := (assignments (q.vars ++ q.soft.map fun p => p.1.natAbs)).filter
    (fun m => decide (q.Model m)) with hcandidates
  -- Every model costs as much as some candidate.
  have hcandidate : ∀ m, q.Model m → ∃ m' ∈ candidates, cost m' q.soft = cost m q.soft := by
    intro m hm
    obtain ⟨m', hm', hagree, -⟩ :=
      exists_mem_assignments (q.vars ++ q.soft.map fun p => p.1.natAbs) m
    have hmodel : q.Model m' :=
      hm.congr fun v hv => (hagree v (List.mem_append_left _ hv)).symm
    refine ⟨m', List.mem_filter.mpr ⟨hm', decide_eq_true hmodel⟩, cost_congr ?_⟩
    intro p hp
    exact hagree _ (List.mem_append_right _ (List.mem_map_of_mem hp))
  unfold Oracle.cheapest
  rw [← hcandidates]
  cases hmin : candidates.argmin (fun m => cost m q.soft) with
  | none =>
      intro h
      obtain ⟨m, hm⟩ := h
      obtain ⟨m', hm', -⟩ := hcandidate m hm
      rw [List.argmin_eq_none.mp hmin] at hm'
      cases hm'
  | some m =>
      refine ⟨?_, rfl, ?_⟩
      · simpa using (List.mem_filter.mp (List.argmin_mem hmin)).2
      · intro m' hm'
        obtain ⟨m'', hm'', hcost⟩ := hcandidate m' hm'
        rw [← hcost]
        exact List.le_of_mem_argmin hm'' hmin

/-- The oracle returns a good model whenever there is one. -/
def Oracle.Prefers (O : Oracle) (good : Assignment → Prop) : Prop :=
  ∀ log q m cost, O log q = some (m, cost) → (∃ m', q.Model m' ∧ good m') → good m

open Classical in
/-- A correct oracle with a preference. -/
noncomputable def Oracle.preferring (good : Assignment → Prop) : Oracle := fun _ q =>
  if h : ∃ m, q.Model m ∧ good m then some (h.choose, 0)
  else if h : ∃ m, q.Model m then some (h.choose, 0)
  else none

theorem Oracle.preferring_correct (good : Assignment → Prop) :
    (Oracle.preferring good).Correct := by
  intro log q
  unfold Oracle.preferring
  by_cases hgood : ∃ m, q.Model m ∧ good m
  · rw [dif_pos hgood]
    exact hgood.choose_spec.1
  · by_cases hany : ∃ m, q.Model m
    · rw [dif_neg hgood, dif_pos hany]
      exact hany.choose_spec
    · rw [dif_neg hgood, dif_neg hany]
      exact hany

theorem Oracle.preferring_prefers (good : Assignment → Prop) :
    (Oracle.preferring good).Prefers good := by
  intro log q m cost hans hgood
  rw [Oracle.preferring, dif_pos hgood] at hans
  cases hans
  exact hgood.choose_spec.2

/-- Runs of the algorithms. -/
abbrev SolveM := Run Fault (List Event)

/-- Record a call. -/
def record (e : Event) : SolveM Unit := Run.modify (· ++ [e])

structure SatSolver where
  nVars : Nat
  decisionVars : Nat
  clauses : List Clause
  assumptions : List Int
  soft : List (Int × Nat)
  model : List Bool
  extension : List Nat
  optimalCost : Nat

namespace SatSolver

def new (nVars nArgs : Nat) : SatSolver where
  nVars := nVars
  decisionVars := nArgs
  clauses := []
  assumptions := []
  soft := []
  model := List.replicate nArgs false
  extension := List.replicate nArgs 0
  optimalCost := 0

def query (solver : SatSolver) : Query where
  clauses := solver.clauses
  assumptions := solver.assumptions
  soft := solver.soft

def addClause (solver : SatSolver) (clause : Clause) : SolveM SatSolver := do
  record (.clause solver.nVars clause)
  return { solver with clauses := solver.clauses ++ [clause] }

/-- The clauses of an encoding, added one by one. -/
def addClauses (solver : SatSolver) (clauses : List Clause) : SolveM SatSolver :=
  clauses.foldlM addClause solver

def assume (solver : SatSolver) (lit : Int) : SolveM SatSolver := do
  record (.assumption solver.nVars lit)
  return { solver with assumptions := solver.assumptions ++ [lit] }

/-- Set the weight of a soft literal; weight zero removes it. -/
def setWeight (solver : SatSolver) (lit : Int) (weight : Nat) : SolveM SatSolver := do
  record (.soft solver.nVars lit weight)
  let others := solver.soft.filter (fun p => p.1 ≠ lit)
  return { solver with soft := if weight = 0 then others else others ++ [(lit, weight)] }

def addSoftConstraint (solver : SatSolver) (lit : Int) : SolveM SatSolver :=
  solver.setWeight lit 1

def disableSoftConstraint (solver : SatSolver) (lit : Int) : SolveM SatSolver :=
  solver.setWeight lit 0

/-- `solve()`: the assumptions are consumed, and a satisfiable answer sets the
values of the first `decision_vars` variables as the model. -/
def solve (O : Oracle) (solver : SatSolver) : SolveM (Verdict × SatSolver) := do
  let log ← Run.get
  match O log solver.query with
  | none =>
      record (.answer none)
      return (.UNSAT_V, { solver with assumptions := [] })
  | some (m, cost) =>
      let model := vec solver.decisionVars (fun i => m (i + 1))
      record (.answer (some model))
      return (.SAT_V, { solver with
        assumptions := [], model := model, optimalCost := cost })

/-- `solve_extension()`: a satisfiable answer also lists the indices of the true
variables. -/
def solveExtension (O : Oracle) (solver : SatSolver) : SolveM (Verdict × SatSolver) := do
  let (sat, solver) ← solver.solve O
  match sat with
  | .UNSAT_V => return (sat, solver)
  | .SAT_V =>
      let extension := (List.range solver.decisionVars).filter
        (fun i => solver.model.getD i false)
      return (sat, { solver with extension := extension })

/-- `solve(assumptions)`. -/
def solveAssuming (O : Oracle) (solver : SatSolver) (assumptions : List Int) :
    SolveM (Verdict × SatSolver) := do
  let solver ← assumptions.foldlM assume solver
  solver.solve O

end SatSolver

instance : SolverInterface Oracle (List Event) SatSolver where
  new _ := SatSolver.new
  addClause _ := SatSolver.addClause
  assume _ := SatSolver.assume
  solve := SatSolver.solve
  model _ := SatSolver.model

instance : ExtensionInterface Oracle (List Event) SatSolver where
  solveExtension := SatSolver.solveExtension
  extension _ := SatSolver.extension

instance : MaxSatInterface Oracle (List Event) SatSolver where
  addSoftConstraint _ := SatSolver.addSoftConstraint
  disableSoftConstraint _ := SatSolver.disableSoftConstraint
  optimalCost _ := SatSolver.optimalCost

namespace Oracle

open SolverInterface ExtensionInterface MaxSatInterface

variable (O : Oracle) (solver : SatSolver)

@[simp] theorem new_eq (nVars nArgs : Nat) : new O nVars nArgs = SatSolver.new nVars nArgs := rfl

@[simp] theorem model_eq : model O solver = solver.model := rfl

@[simp] theorem extension_eq : extension O solver = solver.extension := rfl

@[simp] theorem optimalCost_eq : optimalCost O solver = solver.optimalCost := rfl

end Oracle

/-! ## Specifications -/

section Specs

variable {α : Type} {w : List Event} {E : Halt Fault → List Event → Prop}

theorem ensures_bounds {o : Option α} {a : α} {Q : α → List Event → Prop}
    (ho : o = some a) (h : Q a w) : Ensures (bounds o) w Q E :=
  ensures_ofOption ho h

namespace SatSolver

variable {solver : SatSolver}

theorem ensures_addClause {clause : Clause} {Q : SatSolver → List Event → Prop}
    (h : Q { solver with clauses := solver.clauses ++ [clause] }
      (w ++ [.clause solver.nVars clause])) :
    Ensures (solver.addClause clause) w Q E := h

theorem ensures_assume {lit : Int} {Q : SatSolver → List Event → Prop}
    (h : Q { solver with assumptions := solver.assumptions ++ [lit] }
      (w ++ [.assumption solver.nVars lit])) :
    Ensures (solver.assume lit) w Q E := h

theorem ensures_setWeight {lit : Int} {weight : Nat} {Q : SatSolver → List Event → Prop}
    (h : ∀ soft, Q { solver with soft := soft } (w ++ [.soft solver.nVars lit weight])) :
    Ensures (solver.setWeight lit weight) w Q E := h _

/-- Setting a weight with its effect on the soft literals. -/
theorem ensures_setWeight_declare {lit : Int} {weight : Nat}
    {Q : SatSolver → List Event → Prop}
    (h : Q { solver with soft := declare solver.soft lit weight }
      (w ++ [.soft solver.nVars lit weight])) :
    Ensures (solver.setWeight lit weight) w Q E := h

theorem ensures_addClauses {clauses : List Clause} {Q : SatSolver → List Event → Prop}
    (h : Q { solver with clauses := solver.clauses ++ clauses }
      (w ++ clauses.map (.clause solver.nVars))) :
    Ensures (solver.addClauses clauses) w Q E := by
  unfold addClauses
  induction clauses generalizing solver w with
  | nil =>
      apply ensures_pure
      simpa using h
  | cons clause clauses ih =>
      rw [List.foldlM_cons]
      apply ensures_bind
      apply ensures_addClause
      apply ih
      simpa using h

theorem ensures_assumeAll {lits : List Int} {Q : SatSolver → List Event → Prop}
    (h : Q { solver with assumptions := solver.assumptions ++ lits }
      (w ++ lits.map (.assumption solver.nVars))) :
    Ensures (lits.foldlM assume solver) w Q E := by
  induction lits generalizing solver w with
  | nil =>
      apply ensures_pure
      simpa using h
  | cons lit lits ih =>
      rw [List.foldlM_cons]
      apply ensures_bind
      apply ensures_assume
      apply ih
      simpa using h

/-- One answer of an arbitrary oracle. -/
theorem ensures_solve_any {O : Oracle} {Q : Verdict × SatSolver → List Event → Prop}
    (hunsat : Q (.UNSAT_V, { solver with assumptions := [] }) (w ++ [.answer none]))
    (hsat : ∀ (m : Assignment) (cost : Nat), Q (.SAT_V, { solver with
        assumptions := [], model := vec solver.decisionVars (fun i => m (i + 1)),
        optimalCost := cost })
      (w ++ [.answer (some (vec solver.decisionVars (fun i => m (i + 1))))])) :
    Ensures (solver.solve O) w Q E := by
  unfold solve
  apply ensures_bind
  change Ensures (match O w solver.query with
    | none => _
    | some (m, cost) => _) w Q E
  cases O w solver.query with
  | none => exact hunsat
  | some answer => exact hsat answer.1 answer.2

/-- One answer of a correct oracle, which is good for every preference it has. -/
theorem ensures_solve_prefers {O : Oracle} (hO : O.Correct)
    {Q : Verdict × SatSolver → List Event → Prop}
    (hunsat : (¬ ∃ m, solver.query.Model m) →
      ∀ w', Q (.UNSAT_V, { solver with assumptions := [] }) w')
    (hsat : ∀ m, solver.query.Model m →
      (∀ good, O.Prefers good → (∃ m', solver.query.Model m' ∧ good m') → good m) →
      ∀ cost w', Q (.SAT_V, { solver with
        assumptions := [], model := vec solver.decisionVars (fun i => m (i + 1)),
        optimalCost := cost }) w') :
    Ensures (solver.solve O) w Q E := by
  unfold solve
  apply ensures_bind
  change Ensures (match O w solver.query with
    | none => _
    | some (m, cost) => _) w Q E
  have hOw := hO w solver.query
  cases hans : O w solver.query with
  | none =>
      rw [hans] at hOw
      exact hunsat hOw _
  | some answer =>
      rw [hans] at hOw
      exact hsat answer.1 hOw (fun good hgood => hgood _ _ _ _ hans) answer.2 _

/-- One answer of a correct oracle. -/
theorem ensures_solve {O : Oracle} (hO : O.Correct)
    {Q : Verdict × SatSolver → List Event → Prop}
    (hunsat : (¬ ∃ m, solver.query.Model m) →
      ∀ w', Q (.UNSAT_V, { solver with assumptions := [] }) w')
    (hsat : ∀ m, solver.query.Model m → ∀ cost w', Q (.SAT_V, { solver with
        assumptions := [], model := vec solver.decisionVars (fun i => m (i + 1)),
        optimalCost := cost }) w') :
    Ensures (solver.solve O) w Q E :=
  ensures_solve_prefers hO hunsat fun m hm _ => hsat m hm

/-- One answer of a MaxSAT oracle. -/
theorem ensures_solve_optimal {O : Oracle} (hO : O.Optimal)
    {Q : Verdict × SatSolver → List Event → Prop}
    (hunsat : (¬ ∃ m, solver.query.Model m) →
      ∀ w', Q (.UNSAT_V, { solver with assumptions := [] }) w')
    (hsat : ∀ m, solver.query.Model m →
      (∀ m', solver.query.Model m' → cost m solver.soft ≤ cost m' solver.soft) →
      ∀ w', Q (.SAT_V, { solver with
        assumptions := [], model := vec solver.decisionVars (fun i => m (i + 1)),
        optimalCost := cost m solver.soft }) w') :
    Ensures (solver.solve O) w Q E := by
  unfold solve
  apply ensures_bind
  change Ensures (match O w solver.query with
    | none => _
    | some (m, value) => _) w Q E
  have hOw := hO w solver.query
  cases hans : O w solver.query with
  | none =>
      rw [hans] at hOw
      exact hunsat hOw _
  | some answer =>
      obtain ⟨m, value⟩ := answer
      rw [hans] at hOw
      obtain ⟨hm, rfl, hopt⟩ := hOw
      exact hsat m hm hopt _

theorem filter_getD_vec (n : Nat) (p : Nat → Bool) :
    (List.range n).filter (fun i => (vec n p).getD i false) = (List.range n).filter p := by
  apply List.filter_congr
  intro i hi
  simp [List.getD_eq_getElem?_getD, vec_get p (List.mem_range.mp hi)]

/-- `solve_extension` answers as `solve` does. -/
theorem ensures_solveExtension_of_solve {O : Oracle}
    {Q : Verdict × SatSolver → List Event → Prop}
    (h : Ensures (solver.solve O) w (fun r w' => match r.1 with
      | .UNSAT_V => Q r w'
      | .SAT_V => Q (.SAT_V, { r.2 with
          extension := (List.range r.2.decisionVars).filter
            (fun i => r.2.model.getD i false) }) w') E) :
    Ensures (solver.solveExtension O) w Q E := by
  apply ensures_bind
  apply h.post
  intro x w' hQ
  obtain ⟨sat, solver'⟩ := x
  cases sat with
  | SAT_V => exact hQ
  | UNSAT_V => exact hQ

theorem ensures_solveExtension_prefers {O : Oracle} (hO : O.Correct)
    {Q : Verdict × SatSolver → List Event → Prop}
    (hunsat : (¬ ∃ m, solver.query.Model m) →
      ∀ w', Q (.UNSAT_V, { solver with assumptions := [] }) w')
    (hsat : ∀ m, solver.query.Model m →
      (∀ good, O.Prefers good → (∃ m', solver.query.Model m' ∧ good m') → good m) →
      ∀ cost w', Q (.SAT_V, { solver with
        assumptions := [], model := vec solver.decisionVars (fun i => m (i + 1)),
        optimalCost := cost,
        extension := (List.range solver.decisionVars).filter (fun i => m (i + 1)) }) w') :
    Ensures (solver.solveExtension O) w Q E := by
  apply ensures_solveExtension_of_solve
  apply ensures_solve_prefers hO
  · exact hunsat
  · intro m hm hpref cost w'
    simp only [filter_getD_vec]
    exact hsat m hm hpref cost w'

end SatSolver

end Specs

end AcceptableArguments
