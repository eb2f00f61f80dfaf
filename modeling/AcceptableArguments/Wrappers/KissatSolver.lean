import AcceptableArguments.Wrappers.ScriptedOracle

/-!
# The Kissat wrapper

Kissat is not incremental. The library counts its searches and aborts the process when a
literal or another search follows the first one, and the wrapper exits when a literal is
assumed. So a run on this wrapper is given at most one answer. The wrapper sets no option,
so the library reports the progress of its search in comment lines on standard output; these
are a matter of the program and not of the wrapper.
-/

namespace AcceptableArguments

open AcceptableArguments.Sat Imperative

/-! ## The library -/

namespace Kissat

/-- What the search decides about the clauses. The wrapper sets no limits, so the search
does decide; nothing was asked before it. -/
abbrev Search := List Clause → Option Assignment

def Search.Correct (S : Search) : Prop :=
  ∀ cs, match S cs with
    | some m => Satisfies m cs
    | none => ¬ ∃ m, Satisfies m cs

/-- `EXTERNAL_MAX_VAR` -/
def externalMaxVar : Nat := 2 ^ 28 - 1

/-- What `kissat_require` does if its condition fails. The status is the one of a process
that called `abort`. -/
def fatal (function message : String) : Fault :=
  .exit 134 ("kissat: fatal error: calling '" ++ function ++ "': " ++ message ++ "\n")

/-- `kissat_require_valid_external_internal` -/
def requireValid (function : String) (lit : Int) : Except Fault Unit :=
  if lit = -2 ^ 31 then
    .error (fatal function ("invalid literal '" ++ toString lit ++ "' (INT_MIN)"))
  else if externalMaxVar < lit.natAbs then
    .error (fatal function ("invalid literal '" ++ toString lit ++ "' (variable larger than " ++
      toString externalMaxVar ++ ")"))
  else
    .ok ()

/-- The object behind `kissat.h`; `imported` lists the variables that it has seen. -/
structure Solver where
  searches : Nat
  imported : List Nat
  clause : List Int
  clauses : List Clause
  vals : Assignment

namespace Solver

/-- `kissat_init`. -/
def new : Solver where
  searches := 0
  imported := []
  clause := []
  clauses := []
  vals := fun _ => false

/-- `kissat_add`; a zero ends the current clause. -/
def add (solver : Solver) (lit : Int) : Except Fault Solver :=
  if solver.searches ≠ 0 then
    .error (fatal "kissat_add" "incremental solving not supported")
  else if lit = 0 then
    .ok { solver with clauses := solver.clauses ++ [solver.clause], clause := [] }
  else do
    requireValid "kissat_add" lit
    return { solver with
      clause := solver.clause ++ [lit], imported := solver.imported ++ [lit.natAbs] }

/-- `kissat_solve`, which searches once. -/
def solve (S : Search) (solver : Solver) : Except Fault (Nat × Solver) :=
  if solver.clause ≠ [] then
    .error (fatal "kissat_solve" "incomplete clause (terminating zero not added)")
  else if solver.searches ≠ 0 then
    .error (fatal "kissat_solve" "incremental solving not supported")
  else
    let solved : Solver := { solver with searches := solver.searches + 1 }
    match S solver.clauses with
    | some m => .ok (10, { solved with vals := m })
    | none => .ok (20, solved)

/-- `kissat_value`: the literal if it is true, its negation if it is false, zero if its variable
is not known. -/
def value (solver : Solver) (lit : Int) : Int :=
  if lit.natAbs ∉ solver.imported then 0
  else if litHolds solver.vals lit then lit
  else -lit

end Solver

end Kissat

/-! ## The wrapper -/

/-- The members `solver`, `decision_vars` and `model` of the class. -/
structure KissatSolver where
  solver : Kissat.Solver
  decisionVars : Nat
  model : List Bool

namespace KissatSolver

/-- The constructor; `kissat_reserve` only prepares the library for the variables. -/
def new (_nVars nArgs : Nat) : KissatSolver where
  solver := Kissat.Solver.new
  decisionVars := nArgs
  model := List.replicate nArgs false

/-- `add_clause`. -/
def addClause (s : KissatSolver) (clause : List Int) : Except Fault KissatSolver := do
  let solver ← clause.foldlM Kissat.Solver.add s.solver
  return { s with solver := ← solver.add 0 }

/-- `add_clause_1`. -/
def addClause1 (s : KissatSolver) (lit : Int) : Except Fault KissatSolver := do
  let solver ← s.solver.add lit
  return { s with solver := ← solver.add 0 }

/-- `add_clause_2`. -/
def addClause2 (s : KissatSolver) (lit1 lit2 : Int) : Except Fault KissatSolver := do
  let solver ← s.solver.add lit1
  let solver ← solver.add lit2
  return { s with solver := ← solver.add 0 }

/-- `add_clause_3`. -/
def addClause3 (s : KissatSolver) (lit1 lit2 lit3 : Int) : Except Fault KissatSolver := do
  let solver ← s.solver.add lit1
  let solver ← solver.add lit2
  let solver ← solver.add lit3
  return { s with solver := ← solver.add 0 }

/-- `assume` exits. -/
def assume (_s : KissatSolver) (_lit : Int) : Except Fault KissatSolver :=
  .error (.exit 1 "Assumptions not supported for this SAT-Solver\n")

/-- `solve`; the model is written again from the first variable on. -/
def solve (S : Kissat.Search) (s : KissatSolver) : Except Fault (Verdict × KissatSolver) := do
  let (sat, solver) ← s.solver.solve S
  if sat = Verdict.SAT_V.code then
    let model := (List.range s.decisionVars).foldl
      (fun model i => model ++ [decide (solver.value ((i + 1 : Nat) : Int) > 0)]) []
    return (.SAT_V, { s with solver := solver, model := model })
  else
    return (.UNSAT_V, { s with solver := solver })

end KissatSolver

/-- The class as the algorithms see it. -/
def Wrapper.kissat (S : Kissat.Search) : Wrapper Int KissatSolver where
  new := KissatSolver.new
  addClause := KissatSolver.addClause
  addClause1 := KissatSolver.addClause1
  addClause2 := KissatSolver.addClause2
  addClause3 := KissatSolver.addClause3
  assume := KissatSolver.assume
  solve := KissatSolver.solve S
  model s := s.model
  history s := s.solver.clauses.map .add

/-! ## What the calls do -/

/-- The run ends the process with a status that is not zero. -/
def Exits (e : Halt Fault) : Prop :=
  ∃ code message, e = .error (.exit code message) ∧ code ≠ 0

namespace KissatSolver

/-- The clauses are in the library and nothing was searched yet. -/
structure Loaded (nArgs : Nat) (cs : List Clause) (s : KissatSolver) : Prop where
  searches_eq : s.solver.searches = 0
  clause_eq : s.solver.clause = []
  clauses_eq : s.solver.clauses = cs
  imported : ∀ c ∈ cs, ∀ l ∈ c, l.natAbs ∈ s.solver.imported
  decisionVars_eq : s.decisionVars = nArgs

theorem loaded_new (nVars nArgs : Nat) : Loaded nArgs [] (new nVars nArgs) where
  searches_eq := rfl
  clause_eq := rfl
  clauses_eq := rfl
  imported := by simp
  decisionVars_eq := rfl

section Calls

variable {S : Kissat.Search} {nVars nArgs : Nat} {cs : List Clause} {s : KissatSolver}
  {w : List (Solved Int)}

/-- The literals of a clause, before the first search. -/
theorem foldlM_add (hvars : nVars ≤ Kissat.externalMaxVar) {c : Clause}
    (hc : ∀ l ∈ c, InRange nVars l) {solver : Kissat.Solver} (hsearches : solver.searches = 0) :
    c.foldlM Kissat.Solver.add solver = .ok { solver with
      clause := solver.clause ++ c, imported := solver.imported ++ c.map Int.natAbs } := by
  induction c generalizing solver with
  | nil => simp [pure, Except.pure]
  | cons l c ih =>
      obtain ⟨hl, hle⟩ := hc l (by simp)
      have hmin : l ≠ -2 ^ 31 := by
        rintro rfl
        have : Kissat.externalMaxVar < (-2 ^ 31 : Int).natAbs := by decide
        omega
      have hvalid : Kissat.requireValid "kissat_add" l = .ok () := by
        rw [Kissat.requireValid, if_neg hmin, if_neg (by omega)]
      have hadd : solver.add l = .ok { solver with
          clause := solver.clause ++ [l], imported := solver.imported ++ [l.natAbs] } := by
        rw [Kissat.Solver.add, if_neg (by simp [hsearches]), if_neg hl, hvalid]
        rfl
      set solver' : Kissat.Solver := { solver with
        clause := solver.clause ++ [l], imported := solver.imported ++ [l.natAbs] } with hsolver'
      have hrest : c.foldlM Kissat.Solver.add solver' = _ :=
        ih (fun k hk => hc k (by simp [hk])) hsearches
      rw [List.foldlM_cons, hadd]
      refine hrest.trans ?_
      simp [hsolver']

theorem Loaded.addClause (h : Loaded nArgs cs s) (hvars : nVars ≤ Kissat.externalMaxVar)
    {c : Clause} (hc : ∀ l ∈ c, InRange nVars l) :
    ∃ s', s.addClause c = .ok s' ∧ Loaded nArgs (cs ++ [c]) s' := by
  refine ⟨{ s with solver := { s.solver with
    clauses := cs ++ [c], clause := [], imported := s.solver.imported ++ c.map Int.natAbs } },
    ?_, ?_⟩
  · rw [KissatSolver.addClause, foldlM_add hvars hc h.searches_eq]
    simp [Kissat.Solver.add, h.searches_eq, h.clause_eq, h.clauses_eq, bind, Except.bind, pure,
      Except.pure]
  · refine ⟨h.searches_eq, rfl, rfl, fun c' hc' l hl => ?_, h.decisionVars_eq⟩
    cases List.mem_append.mp hc' with
    | inl hc' => exact List.mem_append_left _ (h.imported c' hc' l hl)
    | inr hc' =>
        rw [List.mem_singleton.mp hc'] at hl
        exact List.mem_append_right _ (List.mem_map_of_mem hl)

/-- Before the first search all clauses of an encoding can be added. -/
theorem ensures_addClauses (hvars : nVars ≤ Kissat.externalMaxVar)
    (hcs : ∀ c ∈ cs, ∀ l ∈ c, InRange nVars l) :
    Ensures (SolverInterface.addClauses (Wrapper.kissat S) (new nVars nArgs) cs) w
      (fun s _ => Loaded nArgs cs s) (fun _ _ => False) := by
  apply ensures_foldlM (fun pre (s : KissatSolver) _ => Loaded nArgs pre s)
  · intro pre c post s w' hsplit hs
    obtain ⟨s', hadd, hs'⟩ := hs.addClause hvars (hcs c (by rw [hsplit]; simp))
    change Ensures (Run.ofExcept (s.addClause c)) w' _ _
    rw [hadd]
    exact ensures_pure hs'
  · exact loaded_new nVars nArgs

theorem ensures_assume (l : Int) :
    Ensures ((Wrapper.kissat S).assumeM s l) w (fun _ _ => False) (fun e _ => Exits e) :=
  ⟨_, _, rfl, by decide⟩

end Calls

end KissatSolver

end AcceptableArguments
