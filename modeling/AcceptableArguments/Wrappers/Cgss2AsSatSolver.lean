import AcceptableArguments.Wrappers.ScriptedOracle

/-!
# The MaxSAT wrapper as a SAT solver

The algorithms that declare no soft literals can be linked with `Cgss2MaxSatSolver` as well.
Its library keeps instances and not calls, so a record of the calls is carried along. Without
soft literals an optimal model is any model, every solve is covered by the contract, and the
library decides like a SAT solver.
-/

namespace AcceptableArguments

open AcceptableArguments.Sat Imperative

/-! ## The wrapper with a record of its calls -/

/-- The instances of a history, without soft literals: the clauses so far and the solves. -/
def instancesOf (history : List (CoreCall Int)) : List Clause × List Query :=
  history.foldl (fun st call =>
    match call with
    | .add clause => (st.1 ++ [clause], st.2)
    | .solve assumptions => (st.1, st.2 ++ [⟨st.1, assumptions, []⟩])) ([], [])

/-- The instances that a history has solved. -/
def solvedIn (history : List (CoreCall Int)) : List Query :=
  (instancesOf history).2

/-- The clauses of the next instance are those added so far. -/
theorem instancesOf_fst (history : List (CoreCall Int)) :
    (instancesOf history).1 = addedClauses history := by
  induction history using List.reverseRecOn with
  | nil => rfl
  | append_singleton history call ih =>
      rw [instancesOf, List.foldl_append, ← instancesOf]
      cases call with
      | add clause => simp [ih]
      | solve assumptions => simp [ih]

@[simp] theorem solvedIn_nil : solvedIn [] = [] := rfl

@[simp] theorem solvedIn_add (history : List (CoreCall Int)) (clause : List Int) :
    solvedIn (history ++ [.add clause]) = solvedIn history := by
  simp [solvedIn, instancesOf]

@[simp] theorem solvedIn_solve (history : List (CoreCall Int)) (assumptions : List Int) :
    solvedIn (history ++ [.solve assumptions]) =
      solvedIn history ++ [⟨addedClauses history, assumptions, []⟩] := by
  rw [← instancesOf_fst]
  simp [solvedIn, instancesOf]

/-- No instance of a history has a soft literal. -/
theorem soft_of_mem_solvedIn {history : List (CoreCall Int)} {p : Query}
    (h : p ∈ solvedIn history) : p.soft = [] := by
  induction history using List.reverseRecOn with
  | nil => cases h
  | append_singleton history call ih =>
      cases call with
      | add clause => exact ih (by simpa using h)
      | solve assumptions =>
          rw [solvedIn_solve, List.mem_append, List.mem_singleton] at h
          rcases h with h | rfl
          · exact ih h
          · rfl

/-- What the library decides when no soft literal was declared. -/
def Ipamir.Library.core (B : Ipamir.Library) : Core Int := fun history assumptions =>
  match B (solvedIn history) ⟨addedClauses history, assumptions, []⟩ with
  | .optimal m _ => .sat m
  | .unsat => .unsat
  | .interrupted | .feasible _ _ | .error => .unknown

/-- The record is not a part of the class. -/
structure Cgss2Recorded where
  solver : Cgss2MaxSatSolver
  history : List (CoreCall Int)

namespace Cgss2Recorded

/-- The constructor, with an empty record. -/
def new (nVars nArgs : Nat) : Cgss2Recorded where
  solver := Cgss2MaxSatSolver.new nVars nArgs
  history := []

/-- The result of `solve`. The contract excludes the codes that are no verdict; the
algorithms compare with the two constants only. -/
def solve (B : Ipamir.Library) (s : Cgss2Recorded) : Except Fault (Verdict × Cgss2Recorded) := do
  let (sat, solver) ← s.solver.solve B
  let s := ⟨solver, s.history ++ [.solve s.solver.solver.assumptions]⟩
  if sat = Cgss2MaxSatSolver.SAT_V then return (.SAT_V, s)
  else if sat = Cgss2MaxSatSolver.UNSAT_V then return (.UNSAT_V, s)
  else .error .outOfBounds

end Cgss2Recorded

/-- The methods of `Cgss2MaxSatSolver` that the class shares with the SAT wrappers. -/
def Wrapper.cgss2 (B : Ipamir.Library) : Wrapper Int Cgss2Recorded where
  new := Cgss2Recorded.new
  addClause s clause := .ok ⟨s.solver.addClause clause, s.history ++ [.add clause]⟩
  addClause1 s lit := .ok ⟨s.solver.addClause1 lit, s.history ++ [.add [lit]]⟩
  addClause2 s lit1 lit2 := .ok ⟨s.solver.addClause2 lit1 lit2, s.history ++ [.add [lit1, lit2]]⟩
  addClause3 s lit1 lit2 lit3 :=
    .ok ⟨s.solver.addClause3 lit1 lit2 lit3, s.history ++ [.add [lit1, lit2, lit3]]⟩
  assume s lit := .ok ⟨s.solver.assume lit, s.history⟩
  solve := Cgss2Recorded.solve B
  model s := s.solver.model
  history s := s.history

/-! ## What it decides -/

/-- The solves of a run without soft literals are all covered by the contract. -/
theorem Ipamir.Library.Contract.right_of_history {B : Ipamir.Library} (hB : B.Contract)
    (history : List (CoreCall Int)) (assumptions : List Int) :
    (B (solvedIn history) ⟨addedClauses history, assumptions, []⟩).Right
      ⟨addedClauses history, assumptions, []⟩ := by
  apply hB
  right
  intro p hp
  rcases List.mem_append.mp hp with hp | hp
  · exact soft_of_mem_solvedIn hp
  · rw [List.mem_singleton.mp hp]

/-- Without soft literals the library is a correct SAT solver. -/
theorem Ipamir.Library.Contract.core_correct {B : Ipamir.Library} (hB : B.Contract) :
    B.core.Correct litHolds := by
  intro history assumptions
  have hright := hB.right_of_history history assumptions
  unfold Ipamir.Library.core
  cases hans : B (solvedIn history) ⟨addedClauses history, assumptions, []⟩ with
  | interrupted => simp [hans, Ipamir.Answer.Right] at hright
  | feasible m obj => simp [hans, Ipamir.Answer.Right] at hright
  | error => simp [hans, Ipamir.Answer.Right] at hright
  | unsat =>
      rw [hans] at hright
      exact hright
  | optimal m obj =>
      rw [hans] at hright
      exact hright.1

/-- The library and the record hold what is pending, and nothing is soft. -/
structure Cgss2Pending (nArgs : Nat) (s : Cgss2Recorded) (p : Pending) : Prop where
  decisionVars_eq : s.solver.decisionVars = nArgs
  model_length : s.solver.model.length = nArgs
  clause_eq : s.solver.solver.clause = []
  hard_eq : s.solver.solver.hard = p.clauses
  assumptions_eq : s.solver.solver.assumptions = p.assumed
  soft_eq : s.solver.solver.soft = []
  earlier_eq : s.solver.solver.earlier = solvedIn s.history
  history_eq : addedClauses s.history = p.clauses

section Pending

variable {B : Ipamir.Library} {nVars nArgs : Nat} {s : Cgss2Recorded} {p : Pending}

/-- The constructor leaves nothing pending and nothing solved. -/
theorem cgss2Pending_new (nVars nArgs : Nat) :
    Cgss2Pending nArgs (Cgss2Recorded.new nVars nArgs) .empty := by
  refine ⟨rfl, ?_, rfl, rfl, rfl, rfl, rfl, rfl⟩
  simp [Cgss2Recorded.new, Cgss2MaxSatSolver.new]

/-- Adding a clause appends it to the hard clauses and to the record. -/
theorem Cgss2Pending.addClause (h : Cgss2Pending nArgs s p) {c : List Int}
    (hc : ∀ l ∈ c, InRange nVars l) :
    Cgss2Pending nArgs ⟨s.solver.addClause c, s.history ++ [.add c]⟩ (p.add c) := by
  have hadd : s.solver.addClause c = { s.solver with
      solver := { s.solver.solver with hard := s.solver.solver.hard ++ [c] } } := by
    have hzero : 0 ∉ c := fun hmem => (hc 0 hmem).1 rfl
    simp [Cgss2MaxSatSolver.addClause, foldl_addHard hzero, Ipamir.Solver.addHard, h.clause_eq]
  rw [hadd]
  refine ⟨h.decisionVars_eq, h.model_length, h.clause_eq, ?_, h.assumptions_eq, h.soft_eq, ?_, ?_⟩
  · rw [h.hard_eq, Pending.add]
  · rw [solvedIn_add, h.earlier_eq]
  · rw [addedClauses_add, h.history_eq, Pending.add]

theorem Cgss2Pending.assume (h : Cgss2Pending nArgs s p) (l : Int) :
    Cgss2Pending nArgs ⟨s.solver.assume l, s.history⟩ (p.assume [l]) := by
  refine ⟨h.decisionVars_eq, h.model_length, h.clause_eq, h.hard_eq, ?_, h.soft_eq, h.earlier_eq,
    h.history_eq⟩
  rw [Cgss2MaxSatSolver.assume, Ipamir.Solver.assume, h.assumptions_eq, Pending.assume]

/-- The next instance of the library is the one that the record tells. -/
theorem Cgss2Pending.query_eq (h : Cgss2Pending nArgs s p) :
    s.solver.solver.query =
      ⟨addedClauses s.history, s.solver.solver.assumptions, []⟩ := by
  rw [Ipamir.Solver.query, h.hard_eq, h.history_eq, h.soft_eq]

/-- The core that the record defines answers as the library does. -/
theorem Cgss2Pending.core_eq (h : Cgss2Pending nArgs s p) :
    B.core s.history s.solver.solver.assumptions =
      match B s.solver.solver.earlier s.solver.solver.query with
      | .optimal m _ => .sat m
      | .unsat => .unsat
      | .interrupted | .feasible _ _ | .error => .unknown := by
  rw [Ipamir.Library.core, h.query_eq, h.earlier_eq]

/-- The library and the record after an answer. -/
def Cgss2Recorded.answered (s : Cgss2Recorded) (vals : Assignment) (obj : Nat)
    (model : List Bool) : Cgss2Recorded where
  solver := { s.solver with
    solver := { s.solver.solver with
      assumptions := [], earlier := s.solver.solver.earlier ++ [s.solver.solver.query],
      vals := vals, obj := obj }
    model := model }
  history := s.history ++ [.solve s.solver.solver.assumptions]

/-- An answer clears the assumptions and adds one instance to those solved. -/
theorem Cgss2Pending.answered (h : Cgss2Pending nArgs s p) (vals : Assignment) (obj : Nat)
    {model : List Bool} (hmodel : model.length = nArgs) :
    Cgss2Pending nArgs (s.answered vals obj model) p.solved where
  decisionVars_eq := h.decisionVars_eq
  model_length := hmodel
  clause_eq := h.clause_eq
  hard_eq := h.hard_eq
  assumptions_eq := rfl
  soft_eq := h.soft_eq
  earlier_eq := by
    simp [Cgss2Recorded.answered, h.earlier_eq, h.query_eq]
  history_eq := by simp [Cgss2Recorded.answered, h.history_eq, Pending.solved]

/-- A solve returns a verdict, and its model is the one of the core. -/
theorem Cgss2Pending.solve (hB : B.Contract) (h : Cgss2Pending nArgs s p) :
    ∃ verdict s', s.solve B = .ok (verdict, s') ∧ Cgss2Pending nArgs s' p.solved ∧
      Answers B.core cadicalEncoding nArgs p.query ⟨verdict, s'.solver.model, s'.history⟩ := by
  have hright : (B s.solver.solver.earlier s.solver.solver.query).Right s.solver.solver.query := by
    rw [h.query_eq, h.earlier_eq]
    exact hB.right_of_history s.history _
  have hcore := h.core_eq (B := B)
  have hclauses : addedClauses s.history = p.query.clauses.map (List.map cadicalEncoding.lit) := by
    simp [h.history_eq, Pending.query, cadicalEncoding]
  have hassumed : s.solver.solver.assumptions =
      p.query.assumptions.map cadicalEncoding.lit := by
    simp [h.assumptions_eq, Pending.query, cadicalEncoding]
  cases hans : B s.solver.solver.earlier s.solver.solver.query with
  | interrupted => simp [hans, Ipamir.Answer.Right] at hright
  | feasible m obj => simp [hans, Ipamir.Answer.Right] at hright
  | error => simp [hans, Ipamir.Answer.Right] at hright
  | unsat =>
      rw [hans] at hcore
      refine ⟨.UNSAT_V, s.answered s.solver.solver.vals s.solver.solver.obj s.solver.model, ?_,
        h.answered _ _ h.model_length, _, _, rfl, hclauses, hassumed, by rw [hcore]⟩
      rw [Cgss2Recorded.solve, Cgss2MaxSatSolver.solve_unsat hans]
      rfl
  | optimal m obj =>
      rw [hans] at hcore
      have hvars := h.decisionVars_eq
      refine ⟨.SAT_V, s.answered m obj (vec s.solver.decisionVars (fun i => m (i + 1))), ?_,
        h.answered _ _ ((length_vec _ _).trans hvars), _, _, rfl, hclauses, hassumed, ?_⟩
      · rw [Cgss2Recorded.solve,
          Cgss2MaxSatSolver.solve_optimal hans (h.model_length.trans hvars.symm)]
        rfl
      · rw [hcore, hvars]
        exact ⟨rfl, rfl⟩

end Pending

/-- The wrapper with its record refines the pending clauses and assumptions. -/
theorem cgss2_refines_pending {B : Ipamir.Library} (hB : B.Contract) (nVars nArgs : Nat) :
    (Wrapper.cgss2 B).Refines B.core cadicalEncoding nVars nArgs (Cgss2Pending nArgs) where
  new := cgss2Pending_new nVars nArgs
  addClause1_eq _ _ := rfl
  addClause2_eq _ _ _ := rfl
  addClause3_eq _ _ _ _ := rfl
  addClause h hc := ⟨_, rfl, h.addClause hc⟩
  assume {_ _ l} h _ := ⟨_, rfl, h.assume l⟩
  solve h _ := h.solve hB

/-- The algorithms without soft literals may be linked with the MaxSAT wrapper. -/
theorem cgss2_reliable {B : Ipamir.Library} (hB : B.Contract) :
    (Wrapper.cgss2 B).Reliable B.core cadicalEncoding where
  refines nVars nArgs := ⟨_, cgss2_refines_pending hB nVars nArgs⟩
  addClause_model h := by
    cases h
    rfl
  assume_model h := by
    cases h
    rfl
  decides := (cadical_reliable hB.core_correct).decides

end AcceptableArguments
