import AcceptableArguments.Algorithms.OnWrappers

/-!
# SEEM on CGSS2

SEEM needs soft constraints, which only the MaxSAT wrapper has. The credulous algorithm
constructs a solver in every round and solves once with it, so its run follows its run on the
solver with an oracle that returns optimal models. The skeptical one solves again and again
with one object, for which the library is not set up, and the contract of the library says
nothing about it.
-/

namespace AcceptableArguments

open AcceptableArguments.Sat Imperative

/-! ## Calls on the MaxSAT wrapper -/

/-- Runs on the MaxSAT wrapper; the state lists the replies of its library. -/
abbrev LibraryM := Run Fault (List Reply)

def Ipamir.Answer.reply : Ipamir.Answer → Reply
  | .optimal m obj => some (m, obj)
  | .interrupted | .feasible _ _ | .unsat | .error => none

/-- What SEEM learns from the result of `solve`, which it compares with `UNSAT_V` only. -/
def Cgss2MaxSatSolver.verdict (sat : Nat) : Verdict :=
  if sat = UNSAT_V then .UNSAT_V else .SAT_V

def Cgss2MaxSatSolver.solveM (B : Ipamir.Library) (s : Cgss2MaxSatSolver) :
    LibraryM (Verdict × Cgss2MaxSatSolver) := do
  let (sat, s') ← Run.ofExcept (s.solve B)
  Run.modify (· ++ [(B s.solver.earlier s.solver.query).reply])
  return (verdict sat, s')

/-- The class that SEEM is compiled with. -/
instance : MaxSatInterface Ipamir.Library (List Reply) Cgss2MaxSatSolver where
  new _ := Cgss2MaxSatSolver.new
  addClause _ s clause := pure (s.addClause clause)
  assume _ s lit := pure (s.assume lit)
  solve B s := s.solveM B
  model _ := Cgss2MaxSatSolver.model
  addSoftConstraint _ s lit := pure (s.addSoftConstraint lit)
  disableSoftConstraint _ s lit := pure (s.disableSoftConstraint lit)
  optimalCost _ := Cgss2MaxSatSolver.getOptimalCost

section Interface

open SolverInterface MaxSatInterface

variable (B : Ipamir.Library) (s : Cgss2MaxSatSolver)

theorem cgss2_model_eq : model B s = s.model := rfl

theorem cgss2_addSoftConstraint_eq (lit : Int) :
    addSoftConstraint B s lit = pure (s.addSoftConstraint lit) := rfl

theorem cgss2_optimalCost_eq : optimalCost B s = s.getOptimalCost := rfl

end Interface

/-- The oracle that gives the replies of the library again. -/
noncomputable def Ipamir.Library.replay (replies : List Reply) : Oracle :=
  Oracle.scripted Reply.Optimal Oracle.cheapest replies

theorem Oracle.Optimal.reply {O : Oracle} (h : O.Optimal) (log : List Event) (q : Query) :
    Reply.Optimal q (O log q) := by
  have hq := h log q
  cases hans : O log q with
  | none =>
      rw [hans] at hq
      exact hq
  | some answer =>
      rw [hans] at hq
      exact hq

theorem Ipamir.Library.replay_optimal (replies : List Reply) :
    (Ipamir.Library.replay replies).Optimal := by
  intro log q
  have hq : Reply.Optimal q (Ipamir.Library.replay replies log q) :=
    Oracle.scripted_right Oracle.cheapest_optimal.reply replies log q
  cases hans : Ipamir.Library.replay replies log q with
  | none =>
      rw [hans] at hq
      exact hq
  | some answer =>
      rw [hans] at hq
      exact hq

/-! ## The simulation -/

/-- The library holds what the solver of the algorithms holds, and has not solved yet. -/
structure TracksMax (c : Cgss2MaxSatSolver) (d : SatSolver) : Prop where
  earlier_eq : c.solver.earlier = []
  clause_eq : c.solver.clause = []
  hard_eq : c.solver.hard = d.clauses
  assumptions_eq : c.solver.assumptions = d.assumptions
  soft_eq : c.solver.soft = d.soft
  decisionVars_eq : c.decisionVars = d.decisionVars
  model_length : c.model.length = c.decisionVars

/-- The same verdict and, if there is a model, the same model and cost. -/
def TracksMaxAnswer (x : Verdict × Cgss2MaxSatSolver) (y : Verdict × SatSolver) : Prop :=
  x.1 = .UNSAT_V ∧ y.1 = .UNSAT_V ∨
    x.1 = .SAT_V ∧ y.1 = .SAT_V ∧
      x.2.model = y.2.model ∧ x.2.getOptimalCost = y.2.optimalCost

@[simp] theorem solvesIn_soft (nVars : Nat) (lit : Int) (weight : Nat) :
    solvesIn [.soft nVars lit weight] = 0 := rfl

section Calls

variable {B : Ipamir.Library} {c : Cgss2MaxSatSolver} {d : SatSolver}

theorem tracksMax_new (nVars nArgs : Nat) :
    TracksMax (.new nVars nArgs) (.new nVars nArgs) :=
  ⟨rfl, rfl, rfl, rfl, rfl, rfl, by simp [Cgss2MaxSatSolver.new]⟩

theorem TracksMax.addClause (h : TracksMax c d) {clause : Clause} (hclause : 0 ∉ clause) :
    TracksMax (c.addClause clause) { d with clauses := d.clauses ++ [clause] } := by
  have hadd : c.addClause clause =
      { c with solver := { c.solver with hard := c.solver.hard ++ [clause] } } := by
    simp [Cgss2MaxSatSolver.addClause, foldl_addHard hclause, Ipamir.Solver.addHard, h.clause_eq]
  rw [hadd]
  exact ⟨h.earlier_eq, h.clause_eq, by rw [h.hard_eq], h.assumptions_eq, h.soft_eq,
    h.decisionVars_eq, h.model_length⟩

theorem TracksMax.addClauses (h : TracksMax c d) {cs : List Clause} (hcs : ∀ c ∈ cs, 0 ∉ c) :
    Follows solvesIn TracksMax (SolverInterface.addClauses B c cs)
      (fun _ : List Reply => d.addClauses cs) := by
  refine Follows.foldlM ?_ h
  intro c d h clause hclause t w hw
  have hw' : solvesIn (w ++ [.clause d.nVars clause]) = t.length := by simpa using hw
  exact follows_pure (h.addClause (hcs clause hclause)) t _ hw'

theorem TracksMax.setWeight (h : TracksMax c d) (lit : Int) (weight : Nat) {α β : Type}
    {T : α → β → Prop} {x : LibraryM α} {g : List Reply → SatSolver → SolveM β}
    (hg : ∀ d', TracksMax { c with solver := c.solver.addSoftLit lit weight } d' →
      Follows solvesIn T x (fun replies => g replies d')) :
    Follows solvesIn T x (fun replies => d.setWeight lit weight >>= g replies) := by
  intro t w hw
  have hd' : TracksMax { c with solver := c.solver.addSoftLit lit weight }
      { d with soft := declare d.soft lit weight } :=
    ⟨h.earlier_eq, h.clause_eq, h.hard_eq, h.assumptions_eq,
      by rw [Ipamir.Solver.addSoftLit, h.soft_eq], h.decisionVars_eq, h.model_length⟩
  exact hg _ hd' t (w ++ [.soft d.nVars lit weight]) (by simpa using hw)

/-- The first solve of an object is covered by the contract. -/
theorem TracksMax.solve (hB : B.Contract) (h : TracksMax c d) :
    Follows solvesIn TracksMaxAnswer (c.solveM B)
      (fun replies => d.solve (Ipamir.Library.replay replies)) := by
  have hquery : c.solver.query = d.query := by
    rw [Ipamir.Solver.query, SatSolver.query, h.hard_eq, h.assumptions_eq, h.soft_eq]
  have hright := hB c.solver.earlier c.solver.query (Or.inl h.earlier_eq)
  intro t w hw
  have hget : ∀ reply replies, t ++ [reply] <+: replies → replies[solvesIn w]? = some reply := by
    intro reply replies hreplies
    obtain ⟨rest, rfl⟩ := hreplies
    simp [hw]
  cases hans : B c.solver.earlier c.solver.query with
  | interrupted => simp [hans, Ipamir.Answer.Right] at hright
  | feasible m obj => simp [hans, Ipamir.Answer.Right] at hright
  | error => simp [hans, Ipamir.Answer.Right] at hright
  | unsat =>
      rw [hans] at hright
      have hx : c.solveM B t = (.ok (.UNSAT_V, { c with solver :=
          { c.solver with assumptions := [], earlier := c.solver.earlier ++ [c.solver.query] } }),
          t ++ [none]) := by
        rw [Cgss2MaxSatSolver.solveM, Cgss2MaxSatSolver.solve_unsat hans, hans]
        rfl
      rw [hx]
      refine ⟨List.prefix_append t _, (.UNSAT_V, { d with assumptions := [] }),
        w ++ [.answer none], Or.inl ⟨rfl, rfl⟩, by simpa using hw,
        fun replies hreplies => SatSolver.solve_of_none ?_⟩
      refine Oracle.scripted_eq (hget none replies hreplies) ?_
      rw [← hquery]
      exact hright
  | optimal m obj =>
      rw [hans] at hright
      have hx : c.solveM B t = (.ok (.SAT_V, { c with
          solver := { c.solver with
            assumptions := [], earlier := c.solver.earlier ++ [c.solver.query], vals := m,
            obj := obj }
          model := vec c.decisionVars (fun i => m (i + 1)) }), t ++ [some (m, obj)]) := by
        rw [Cgss2MaxSatSolver.solveM, Cgss2MaxSatSolver.solve_optimal hans h.model_length, hans]
        rfl
      rw [hx]
      refine ⟨List.prefix_append t _, (.SAT_V, { d with
          assumptions := [], model := vec d.decisionVars (fun i => m (i + 1))
          optimalCost := obj }),
        w ++ [.answer (some (vec d.decisionVars (fun i => m (i + 1))))],
        Or.inr ⟨rfl, rfl, ?_, rfl⟩, by simpa using hw,
        fun replies hreplies => SatSolver.solve_of_some ?_⟩
      · simp only [h.decisionVars_eq]
      · refine Oracle.scripted_eq (hget (some (m, obj)) replies hreplies) ?_
        rw [← hquery]
        exact hright

/-- What follows an answer, by verdict. -/
theorem Imperative.Follows.optimum_cases {α β : Type} {T : α → β → Prop}
    {x : LibraryM (Verdict × Cgss2MaxSatSolver)} {y : List Reply → SolveM (Verdict × SatSolver)}
    (h : Follows solvesIn TracksMaxAnswer x y) {f : Verdict × Cgss2MaxSatSolver → LibraryM α}
    {g : List Reply → Verdict × SatSolver → SolveM β}
    (hunsat : ∀ c d, Follows solvesIn T
      (f (.UNSAT_V, c)) (fun replies => g replies (.UNSAT_V, d)))
    (hsat : ∀ c d, c.model = d.model → c.getOptimalCost = d.optimalCost →
      Follows solvesIn T
        (f (.SAT_V, c)) (fun replies => g replies (.SAT_V, d))) :
    Follows solvesIn T (x >>= f) (fun replies => y replies >>= g replies) := by
  apply h.bind
  intro a b hab
  obtain ⟨verdict', c⟩ := a
  obtain ⟨verdict, d⟩ := b
  cases hab with
  | inl hab =>
      obtain ⟨rfl, rfl⟩ := hab
      exact hunsat c d
  | inr hab =>
      obtain ⟨rfl, rfl, hmodel, hcost⟩ := hab
      exact hsat c d hmodel hcost

end Calls

namespace Algorithms

open Encodings

section Seem

variable {B : Ipamir.Library} (hB : B.Contract) {perfEnc : Bool} {af : AF}
  (h : AF.Ready perfEnc af)

/-- A solver with the clauses of an encoding. -/
theorem follows_encodeMax {nVars nArgs : Nat} {o : Option (List Clause)}
    (ho : ∃ cs, o = some cs ∧ Encodes nVars nArgs cs) {α β : Type} {T : α → β → Prop}
    {f : Cgss2MaxSatSolver → LibraryM α} {g : List Reply → SatSolver → SolveM β}
    (hf : ∀ c d, TracksMax c d → Follows solvesIn T (f c) (fun replies => g replies d)) :
    Follows solvesIn T
      (bounds o >>= fun cs =>
        SolverInterface.addClauses B (Cgss2MaxSatSolver.new nVars nArgs) cs >>= f)
      (fun replies => bounds o >>= fun cs =>
        (SatSolver.new nVars nArgs).addClauses cs >>= g replies) := by
  obtain ⟨cs, rfl, hrange, -⟩ := ho
  have hzero : ∀ c ∈ cs, 0 ∉ c := fun c hc h0 => (hrange c hc 0 h0).1 rfl
  exact ((tracksMax_new nVars nArgs).addClauses hzero).bind hf

include h in
theorem follows_encodeCredMax (sem : Semantics) {α β : Type} {T : α → β → Prop}
    {f : Cgss2MaxSatSolver → LibraryM α} {g : List Reply → SatSolver → SolveM β}
    (hf : ∀ c d, TracksMax c d → Follows solvesIn T (f c) (fun replies => g replies d)) :
    Follows solvesIn T
      (encodeCred perfEnc af sem >>= fun cs =>
        SolverInterface.addClauses B (Cgss2MaxSatSolver.new af.count af.args) cs >>= f)
      (fun replies => encodeCred perfEnc af sem >>= fun cs =>
        (SatSolver.new af.count af.args).addClauses cs >>= g replies) := by
  cases sem with
  | CO => exact follows_encodeMax (complete_encodes h) hf
  | PR => exact follows_encodeMax (complete_encodes h) hf
  | ST => exact follows_encodeMax (stable_encodes h) hf
  | UNKNOWN_SEM => exact follows_throw _

/-- The loops over the soft literals: the solver and the weight so far. -/
def SoftTracks (st : Cgss2MaxSatSolver × Nat) (st' : SatSolver × Nat) : Prop :=
  TracksMax st.1 st'.1 ∧ st.2 = st'.2

include hB h

theorem seemCredRound_follows (sem : Semantics) (st : SeemCredState) :
    Follows solvesIn (Sum.LiftRel Eq Eq) (seemCredRound B perfEnc af sem st)
      (fun replies => seemCredRound (Ipamir.Library.replay replies) perfEnc af sem st) := by
  apply follows_encodeCredMax h sem
  intro c d hcd
  refine Follows.bind (R := SoftTracks) (Follows.foldlM ?_ ⟨hcd, rfl⟩) ?_
  · intro x y hxy i hi
    obtain ⟨c, weight⟩ := x
    obtain ⟨d, weight'⟩ := y
    obtain ⟨hcd, rfl⟩ := hxy
    have hi := List.mem_range.mp hi
    simp only [seemCredSoftStep, h.acceptedVar_get hi, bounds, Run.ofOption_some, Run.pure_bind]
    apply follows_ofOption
    intro member _
    cases member with
    | true =>
        simp only [if_true, cgss2_addSoftConstraint_eq, Run.pure_bind]
        apply hcd.setWeight (-(accVar i : Int)) 1
        intro d hcd
        exact follows_pure ⟨hcd, rfl⟩
    | false => exact follows_pure ⟨hcd, rfl⟩
  · intro x y hxy
    obtain ⟨c, weight⟩ := x
    obtain ⟨d, weight'⟩ := y
    obtain ⟨hcd, rfl⟩ := hxy
    apply (hcd.solve hB).optimum_cases
    · intro c d
      simp only [true_or, if_true]
      exact follows_pure (.inr rfl)
    · intro c d hmodel hcost
      simp only [reduceCtorEq, false_or, cgss2_model_eq, cgss2_optimalCost_eq, Oracle.model_eq,
        Oracle.optimalCost_eq, hcost, hmodel]
      by_cases hmax : d.optimalCost ≥ weight
      · simp only [if_pos hmax]
        exact follows_pure (.inr rfl)
      · simp only [if_neg hmax]
        apply follows_ofOption
        intro st' _
        exact follows_pure (.inl rfl)

theorem seemCred_follows (sem : Semantics) (fuel : Nat) :
    Follows solvesIn Eq (seemCred B perfEnc af sem fuel)
      (fun replies => seemCred (Ipamir.Library.replay replies) perfEnc af sem fuel) := by
  unfold seemCred
  by_cases hsem : sem = .CO ∨ sem = .PR ∨ sem = .ST
  · simp only [if_pos hsem]
    refine Follows.whileTrue ?_ fuel rfl
    intro st st' hst
    subst hst
    exact seemCredRound_follows hB h sem st
  · simp only [if_neg hsem]
    exact follows_throw _

end Seem

end Algorithms

end AcceptableArguments
