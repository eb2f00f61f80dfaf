import AcceptableArguments.Wrappers.CallSequences
import AcceptableArguments.Wrappers.IncrementalSolvers

/-!
# The wrappers decide what the calls say

Each wrapper refines the pending state of a sequence of calls. CaDiCaL still stores
the assumptions of an answered solve, the other two have cleared them; in both cases
nothing of them is pending. Since every wrapper asks its core for the same query, the
verdicts agree.
-/

namespace AcceptableArguments

open AcceptableArguments.Sat Imperative

namespace Wrapper

def cadical (C : Core Int) : Wrapper Int CadicalSatSolver where
  new := CadicalSatSolver.new
  addClause s clause := .ok (s.addClause clause)
  addClause1 s lit := .ok (s.addClause1 lit)
  addClause2 s lit1 lit2 := .ok (s.addClause2 lit1 lit2)
  addClause3 s lit1 lit2 lit3 := .ok (s.addClause3 lit1 lit2 lit3)
  assume s lit := .ok (s.assume lit)
  solve := CadicalSatSolver.solve C
  model s := s.model
  history s := s.solver.history

def cryptoMiniSat (C : Core PackedLit) : Wrapper PackedLit CryptoMiniSatSolver where
  new := CryptoMiniSatSolver.new
  addClause := CryptoMiniSatSolver.addClause
  addClause1 := CryptoMiniSatSolver.addClause1
  addClause2 := CryptoMiniSatSolver.addClause2
  addClause3 := CryptoMiniSatSolver.addClause3
  assume s lit := .ok (s.assume lit)
  solve := CryptoMiniSatSolver.solve C
  model s := s.model
  history s := s.solver.history

def glucose (C : Core PackedLit) : Wrapper PackedLit GlucoseSatSolver where
  new := GlucoseSatSolver.new
  addClause := GlucoseSatSolver.addClause
  addClause1 := GlucoseSatSolver.addClause1
  addClause2 := GlucoseSatSolver.addClause2
  addClause3 := GlucoseSatSolver.addClause3
  assume s lit := .ok (s.assume lit)
  solve := GlucoseSatSolver.solve C
  model s := s.model
  history s := s.solver.history

end Wrapper

/-- A loop that appends one entry per index. -/
theorem foldl_append_range {α : Type} (n : Nat) (f : Nat → α) :
    (List.range n).foldl (fun acc i => acc ++ [f i]) [] = vec n f := by
  induction n with
  | zero => rfl
  | succ n ih => simp [List.range_succ, ih, vec]

/-! ## CaDiCaL -/

section Cadical

open CaDiCaL

@[simp] theorem CaDiCaL.Solver.transition_clause (solver : Solver) :
    solver.transitionToSteadyState.clause = solver.clause := by
  cases hs : solver.state <;> simp [transitionToSteadyState, hs]

@[simp] theorem CaDiCaL.Solver.transition_history (solver : Solver) :
    solver.transitionToSteadyState.history = solver.history := by
  cases hs : solver.state <;> simp [transitionToSteadyState, hs]

@[simp] theorem CaDiCaL.Solver.transition_maxVar (solver : Solver) :
    solver.transitionToSteadyState.maxVar = solver.maxVar := by
  cases hs : solver.state <;> simp [transitionToSteadyState, hs]

@[simp] theorem CaDiCaL.Solver.transition_state (solver : Solver) :
    solver.transitionToSteadyState.state = .STEADY := by
  cases hs : solver.state <;> simp [transitionToSteadyState, hs]

/-- Between two answers the assumptions are kept. -/
theorem CaDiCaL.Solver.transition_assumptions {solver : Solver}
    (h : solver.state = .STEADY ∨ solver.state = .ADDING) :
    solver.transitionToSteadyState.assumptions = solver.assumptions := by
  rcases h with hs | hs <;> simp [transitionToSteadyState, hs]

theorem CaDiCaL.Solver.transition_assumptions_answered {solver : Solver}
    (h : solver.state = .SATISFIED ∨ solver.state = .UNSATISFIED) :
    solver.transitionToSteadyState.assumptions = [] := by
  rcases h with hs | hs <;> simp [transitionToSteadyState, hs]

/-- The literals and the zero of one clause. -/
theorem CaDiCaL.Solver.addClause_spec {clause : List Int} (solver : Solver)
    (hclause : ∀ l ∈ clause, l ≠ 0) :
    let solver' := (clause.foldl Solver.add solver).add 0
    solver'.state = .STEADY ∧ solver'.clause = [] ∧
      solver'.assumptions = solver.transitionToSteadyState.assumptions ∧
      solver'.history = solver.history ++ [.add (solver.clause ++ clause)] ∧
      solver.maxVar ≤ solver'.maxVar ∧ ∀ l ∈ clause, l.natAbs ≤ solver'.maxVar := by
  induction clause generalizing solver with
  | nil => simp [Solver.add]
  | cons lit clause ih =>
      have hlit : lit ≠ 0 := hclause lit (by simp)
      obtain ⟨hstate, hnil, hass, hhist, hmax, hlits⟩ :=
        ih (solver.add lit) (fun l hl => hclause l (by simp [hl]))
      have hkept : (solver.add lit).transitionToSteadyState.assumptions =
          solver.transitionToSteadyState.assumptions := by
        rw [transition_assumptions (Or.inr (by simp [Solver.add, hlit]))]
        simp [Solver.add, hlit]
      have hlow : max solver.maxVar lit.natAbs ≤
          ((clause.foldl Solver.add (solver.add lit)).add 0).maxVar := by
        simpa [Solver.add, hlit] using hmax
      refine ⟨hstate, hnil, hass.trans hkept, ?_, (Nat.le_max_left _ _).trans hlow, ?_⟩
      · rw [List.foldl_cons, hhist]
        simp [Solver.add, hlit]
      · intro l hl
        rcases List.mem_cons.mp hl with rfl | hl
        · exact (Nat.le_max_right _ _).trans hlow
        · exact hlits l hl

/-- Assumptions that an earlier solve consumed are not pending, although the library
still stores them. -/
structure CadicalRel (nArgs : Nat) (s : CadicalSatSolver) (p : Pending) : Prop where
  decisionVars_eq : s.decisionVars = nArgs
  clause_eq : s.solver.clause = []
  clauses_eq : addedClauses s.solver.history = p.clauses
  assumptions_eq : s.solver.transitionToSteadyState.assumptions = p.assumed
  seen_le : ∀ l ∈ p.seen, l.natAbs ≤ s.solver.maxVar

def cadicalEncoding : Encoding Int where
  lit := id
  value m v := m v

theorem cadical_val {solver : Solver} {v : Nat} (h1 : 1 ≤ v) (hv : v ≤ solver.maxVar) :
    decide (solver.val (v : Int) > 0) = solver.vals v := by
  have hnot : ¬ solver.maxVar < v := by omega
  have hpos : ¬ (v : Int) < 0 := by omega
  simp only [Solver.val, Int.natAbs_natCast, hnot, hpos, if_false]
  cases hval : solver.vals v with
  | false => simp
  | true => simpa using Nat.lt_of_lt_of_le Nat.zero_lt_one h1

section Relation

variable {nVars nArgs : Nat} {s : CadicalSatSolver} {p : Pending}

theorem CadicalRel.addClause (hR : CadicalRel nArgs s p) {c : List Int}
    (hc : ∀ l ∈ c, InRange nVars l) : CadicalRel nArgs (s.addClause c) (p.add c) := by
  obtain ⟨hsteady, hclause, hass, hhist, hmax, hlits⟩ :=
    s.solver.addClause_spec (fun l hl => (hc l hl).1)
  refine ⟨hR.decisionVars_eq, hclause, ?_, ?_, ?_⟩
  · simp [CadicalSatSolver.addClause, hhist, hR.clauses_eq, hR.clause_eq, Pending.add]
  · rw [CadicalSatSolver.addClause, Solver.transition_assumptions (Or.inl hsteady)]
    exact hass.trans hR.assumptions_eq
  · intro l hl
    rcases List.mem_append.mp hl with hl | hl
    · exact (hR.seen_le l hl).trans hmax
    · exact hlits l hl

theorem CadicalRel.assume (hR : CadicalRel nArgs s p) (l : Int) :
    CadicalRel nArgs (s.assume l) (p.assume [l]) := by
  refine ⟨hR.decisionVars_eq, ?_, ?_, ?_, ?_⟩
  · simp [CadicalSatSolver.assume, Solver.assume, hR.clause_eq]
  · simp [CadicalSatSolver.assume, Solver.assume, hR.clauses_eq, Pending.assume]
  · have hsteady : (s.assume l).solver.state = .STEADY := by
      simp [CadicalSatSolver.assume, Solver.assume]
    rw [Solver.transition_assumptions (Or.inl hsteady)]
    simp [CadicalSatSolver.assume, Solver.assume, hR.assumptions_eq, Pending.assume]
  · intro k hk
    simp only [CadicalSatSolver.assume, Solver.assume, Solver.transition_maxVar]
    rcases List.mem_append.mp hk with hk | hk
    · exact (hR.seen_le k hk).trans (Nat.le_max_left _ _)
    · rw [List.mem_singleton.mp hk]
      exact Nat.le_max_right _ _

/-- The library after an answer. -/
def CaDiCaL.Solver.answered (solver : Solver) (state : State) (vals : Assignment) : Solver :=
  { solver.transitionToSteadyState with
    history := solver.history ++ [.solve solver.transitionToSteadyState.assumptions]
    state := state
    vals := vals }

theorem CadicalSatSolver.solve_unsat {C : Core Int}
    (hans : C s.solver.history s.solver.transitionToSteadyState.assumptions = .unsat) :
    s.solve C = .ok (.UNSAT_V, { s with
      solver := s.solver.answered .UNSATISFIED s.solver.transitionToSteadyState.vals }) := by
  simp [CadicalSatSolver.solve, Solver.solve, Solver.answered, hans, Verdict.code]

theorem CadicalSatSolver.solve_sat {C : Core Int} {m : Assignment}
    (hans : C s.solver.history s.solver.transitionToSteadyState.assumptions = .sat m)
    (hmax : s.decisionVars ≤ s.solver.maxVar) :
    s.solve C = .ok (.SAT_V, { s with
      solver := s.solver.answered .SATISFIED m
      model := vec s.decisionVars (fun i => m (i + 1)) }) := by
  have hsolve : s.solver.solve C = (10, s.solver.answered .SATISFIED m) := by
    simp [Solver.solve, Solver.answered, hans]
  have hmodel : (List.range s.decisionVars).foldl (fun model i =>
      model ++ [decide ((s.solver.answered .SATISFIED m).val ((i + 1 : Nat) : Int) > 0)]) [] =
      vec s.decisionVars (fun i => m (i + 1)) := by
    rw [foldl_append_range]
    apply vec_congr
    intro i hi
    exact cadical_val (by omega) (by simp [Solver.answered]; omega)
  simp only [CadicalSatSolver.solve, hsolve, hmodel]
  rfl

/-- The relation after an answer in either state. -/
theorem CadicalRel.answered (hR : CadicalRel nArgs s p) {state : State}
    (hstate : state = .SATISFIED ∨ state = .UNSATISFIED) (vals : Assignment)
    (model : List Bool) :
    CadicalRel nArgs { s with solver := s.solver.answered state vals, model := model }
      p.solved where
  decisionVars_eq := hR.decisionVars_eq
  clause_eq := by simp [Solver.answered, hR.clause_eq]
  clauses_eq := by simp [Solver.answered, hR.clauses_eq, Pending.solved]
  assumptions_eq := Solver.transition_assumptions_answered hstate
  seen_le := by simpa [Solver.answered, Pending.solved] using hR.seen_le

theorem CadicalRel.solve {C : Core Int} (hC : C.Correct litHolds) (hR : CadicalRel nArgs s p)
    (hcovers : p.Covers nArgs) : ∃ verdict s', s.solve C = .ok (verdict, s') ∧
      CadicalRel nArgs s' p.solved ∧
      Answers C cadicalEncoding nArgs p.query ⟨verdict, s'.model, s'.solver.history⟩ := by
  have hdecide := hC s.solver.history s.solver.transitionToSteadyState.assumptions
  have hclauses : addedClauses s.solver.history =
      p.query.clauses.map (List.map cadicalEncoding.lit) := by
    simp [hR.clauses_eq, Pending.query, cadicalEncoding]
  have hassumed : s.solver.transitionToSteadyState.assumptions =
      p.query.assumptions.map cadicalEncoding.lit := by
    simp [hR.assumptions_eq, Pending.query, cadicalEncoding]
  cases hans : C s.solver.history s.solver.transitionToSteadyState.assumptions with
  | unknown =>
      rw [hans] at hdecide
      exact hdecide.elim
  | unsat =>
      refine ⟨_, _, CadicalSatSolver.solve_unsat hans, hR.answered (Or.inr rfl) _ _, ?_⟩
      exact ⟨_, _, rfl, hclauses, hassumed, by simp [hans]⟩
  | sat m =>
      have hmax : s.decisionVars ≤ s.solver.maxVar := by
        rw [hR.decisionVars_eq]
        exact hcovers.le hR.seen_le
      refine ⟨_, _, CadicalSatSolver.solve_sat hans hmax, hR.answered (Or.inl rfl) _ _, ?_⟩
      refine ⟨_, _, rfl, hclauses, hassumed, ?_⟩
      rw [hans, hR.decisionVars_eq]
      exact ⟨rfl, rfl⟩

end Relation

theorem cadical_refines {C : Core Int} (hC : C.Correct litHolds) (nVars nArgs : Nat) :
    (Wrapper.cadical C).Refines C cadicalEncoding nVars nArgs (CadicalRel nArgs) where
  new := ⟨rfl, rfl, rfl, rfl, by simp [Pending.empty]⟩
  addClause1_eq _ _ := rfl
  addClause2_eq _ _ _ := rfl
  addClause3_eq _ _ _ _ := rfl
  addClause hR hc := ⟨_, rfl, hR.addClause hc⟩
  assume {_ _ l} hR _ := ⟨_, rfl, hR.assume l⟩
  solve hR hcovers := hR.solve hC hcovers

end Cadical

/-! ## Packed literals -/

/-- What the two wrappers with packed literals share. The library has `N` variables. -/
structure PackedRel (t : Int → PackedLit) (N : Nat) (history : List (CoreCall PackedLit))
    (assumptions : List PackedLit) (p : Pending) : Prop where
  clauses_eq : addedClauses history = p.clauses.map (List.map t)
  assumptions_eq : assumptions = p.assumed.map t
  seen_le : ∀ l ∈ p.seen, l.natAbs ≤ N
  assumed_range : ∀ l ∈ p.assumed, InRange N l

def packedEncoding (t : Int → PackedLit) : Encoding PackedLit where
  lit := t
  value m v := m (v - 1)

section PackedRelation

variable {t : Int → PackedLit} {N N' : Nat} {history : List (CoreCall PackedLit)}
  {assumptions : List PackedLit} {p : Pending}

theorem packedRel_empty (t : Int → PackedLit) (N : Nat) : PackedRel t N [] [] .empty where
  clauses_eq := rfl
  assumptions_eq := rfl
  seen_le := by simp [Pending.empty]
  assumed_range := by simp [Pending.empty]

/-- New variables do no harm. -/
theorem PackedRel.grow (hR : PackedRel t N history assumptions p) (hN : N ≤ N') :
    PackedRel t N' history assumptions p where
  clauses_eq := hR.clauses_eq
  assumptions_eq := hR.assumptions_eq
  seen_le l hl := (hR.seen_le l hl).trans hN
  assumed_range l hl := ⟨(hR.assumed_range l hl).1, (hR.assumed_range l hl).2.trans hN⟩

theorem PackedRel.add (hR : PackedRel t N history assumptions p) {c : List Int}
    (hc : ∀ l ∈ c, InRange N l) :
    PackedRel t N (history ++ [.add (c.map t)]) assumptions (p.add c) where
  clauses_eq := by simp [hR.clauses_eq, Pending.add]
  assumptions_eq := hR.assumptions_eq
  seen_le := by
    intro l hl
    rcases List.mem_append.mp hl with hl | hl
    · exact hR.seen_le l hl
    · exact (hc l hl).2
  assumed_range := hR.assumed_range

theorem PackedRel.assume (hR : PackedRel t N history assumptions p) {l : Int}
    (hl : InRange N l) : PackedRel t N history (assumptions ++ [t l]) (p.assume [l]) where
  clauses_eq := hR.clauses_eq
  assumptions_eq := by simp [hR.assumptions_eq, Pending.assume]
  seen_le := by
    intro k hk
    rcases List.mem_append.mp hk with hk | hk
    · exact hR.seen_le k hk
    · rw [List.mem_singleton.mp hk]
      exact hl.2
  assumed_range := by
    intro k hk
    rcases List.mem_append.mp hk with hk | hk
    · exact hR.assumed_range k hk
    · rw [List.mem_singleton.mp hk]
      exact hl

theorem PackedRel.solved (hR : PackedRel t N history assumptions p) :
    PackedRel t N (history ++ [.solve assumptions]) [] p.solved where
  clauses_eq := by simp [hR.clauses_eq, Pending.solved]
  assumptions_eq := rfl
  seen_le := hR.seen_le
  assumed_range := by simp [Pending.solved]

/-- The library accepts translated literals of its variables. -/
theorem all_var_lt (ht : ∀ l, (t l).var = l.natAbs - 1) {lits : List Int}
    (hlits : ∀ l ∈ lits, InRange N l) : (lits.map t).all (·.var < N) = true := by
  simp only [List.all_map, List.all_eq_true, Function.comp_apply, decide_eq_true_eq]
  intro l hl
  obtain ⟨h0, hN⟩ := hlits l hl
  rw [ht]
  omega

/-- The answer of the core to a solve with the stored assumptions. -/
theorem PackedRel.answers {C : Core PackedLit} {nArgs : Nat} {m : Assignment}
    (hR : PackedRel t N history assumptions p) (hans : C history assumptions = .sat m) :
    Answers C (packedEncoding t) nArgs p.query
      ⟨.SAT_V, vec nArgs m, history ++ [.solve assumptions]⟩ := by
  refine ⟨_, _, rfl, hR.clauses_eq, hR.assumptions_eq, ?_⟩
  rw [hans]
  exact ⟨rfl, vec_congr fun i _ => rfl⟩

theorem PackedRel.answers_unsat {C : Core PackedLit} {nArgs : Nat} {model : List Bool}
    (hR : PackedRel t N history assumptions p) (hans : C history assumptions = .unsat) :
    Answers C (packedEncoding t) nArgs p.query
      ⟨.UNSAT_V, model, history ++ [.solve assumptions]⟩ :=
  ⟨_, _, rfl, hR.clauses_eq, hR.assumptions_eq, by simp [hans]⟩

end PackedRelation

theorem cryptoMiniSat_lit_var (l : Int) : (CryptoMiniSatSolver.lit l).var = l.natAbs - 1 := by
  simp [CryptoMiniSatSolver.lit]

theorem glucose_lit_eq {l : Int} (hl : l ≠ 0) :
    GlucoseSatSolver.lit l = CryptoMiniSatSolver.lit l := by
  rcases Int.lt_or_gt_of_ne hl with hneg | hpos
  · have hnot : ¬ 0 < l := by omega
    simp [GlucoseSatSolver.lit, CryptoMiniSatSolver.lit, hnot, hneg, PackedLit.compl_ofVar]
  · have hnot : ¬ l < 0 := by omega
    simp [GlucoseSatSolver.lit, CryptoMiniSatSolver.lit, hpos, hnot]

theorem glucose_lit_var (l : Int) : (GlucoseSatSolver.lit l).var = l.natAbs - 1 := by
  unfold GlucoseSatSolver.lit
  split <;> simp [PackedLit.compl_ofVar]

/-- A stored lifted boolean. -/
theorem entry_ofBool {n i : Nat} (m : Assignment) (hi : i < n) :
    entry (vec n (fun v => LBool.ofBool (m v))) i = .ok (LBool.ofBool (m i)) := by
  simp [entry, vec_get _ hi]

theorem decide_ofBool (b : Bool) : decide (LBool.ofBool b = .l_True) = b := by
  cases b <;> rfl

/-! ## CryptoMiniSat -/

structure CryptoMiniSatRel (nVars nArgs : Nat) (s : CryptoMiniSatSolver) (p : Pending) :
    Prop where
  decisionVars_eq : s.decisionVars = nArgs
  model_length : s.model.length = nArgs
  nVars_eq : s.solver.nVars = nVars
  packed : PackedRel CryptoMiniSatSolver.lit nVars s.solver.history s.assumptions p

/-- The loop that overwrites the model entry by entry. -/
theorem foldlM_setModel {n N : Nat} (hn : n ≤ N) (m : Assignment) {old : List Bool}
    (hold : old.length = n) :
    (List.range n).foldlM
      (CryptoMiniSatSolver.setModel (vec N (fun v => LBool.ofBool (m v)))) old =
      .ok (vec n m) := by
  obtain ⟨q, rfl⟩ : ∃ q, old = vec n q := ⟨_, eq_vec_of_length hold false⟩
  have hscan := foldlM_range_ok (n := n)
    (f := CryptoMiniSatSolver.setModel (vec N (fun v => LBool.ofBool (m v))))
    (fun k => updated n k m q) ?_
  · rwa [updated_zero, updated_all] at hscan
  · intro k hk
    have hlen : k < (updated n k m q).length := by simpa [updated] using hk
    have hset : setAt (updated n k m q) k (m k) = some (updated n (k + 1) m q) :=
      setAt_updated hk rfl
    rw [setAt, if_pos hlen, Option.some.injEq] at hset
    rw [CryptoMiniSatSolver.setModel, entry_ofBool m (by omega : k < N)]
    change (if k < (updated n k m q).length then
      pure ((updated n k m q).set k (decide (LBool.ofBool (m k) = .l_True))) else _) = _
    rw [if_pos hlen, decide_ofBool, hset]
    rfl

section CryptoMiniSat

variable {nVars nArgs : Nat} {s : CryptoMiniSatSolver} {p : Pending}

theorem CryptoMiniSatRel.addClause (hR : CryptoMiniSatRel nVars nArgs s p) {c : List Int}
    (hc : ∀ l ∈ c, InRange nVars l) :
    ∃ s', s.addClause c = .ok s' ∧ CryptoMiniSatRel nVars nArgs s' (p.add c) := by
  have hall := all_var_lt cryptoMiniSat_lit_var hc
  rw [← hR.nVars_eq] at hall
  refine ⟨{ s with solver := { s.solver with
    history := s.solver.history ++ [.add (c.map CryptoMiniSatSolver.lit)] } }, ?_, ?_⟩
  · rw [CryptoMiniSatSolver.addClause, CMSat.SATSolver.addClause, if_pos hall]
    rfl
  · exact ⟨hR.decisionVars_eq, hR.model_length, hR.nVars_eq, hR.packed.add hc⟩

/-- The wrapper after an answer. -/
def CryptoMiniSatSolver.answered (s : CryptoMiniSatSolver) (values : List LBool)
    (model : List Bool) : CryptoMiniSatSolver :=
  { s with
    solver := { s.solver with
      history := s.solver.history ++ [.solve s.assumptions], model := values }
    assumptions := []
    model := model }

theorem CryptoMiniSatRel.answered (hR : CryptoMiniSatRel nVars nArgs s p)
    (values : List LBool) {model : List Bool} (hmodel : model.length = nArgs) :
    CryptoMiniSatRel nVars nArgs (s.answered values model) p.solved :=
  ⟨hR.decisionVars_eq, hmodel, hR.nVars_eq, hR.packed.solved⟩

theorem CryptoMiniSatRel.solve {C : Core PackedLit} (hC : C.Correct PackedLit.holds)
    (hR : CryptoMiniSatRel nVars nArgs s p) (hcovers : p.Covers nArgs) :
    ∃ verdict s', s.solve C = .ok (verdict, s') ∧ CryptoMiniSatRel nVars nArgs s' p.solved ∧
      Answers C (packedEncoding CryptoMiniSatSolver.lit) nArgs p.query
        ⟨verdict, s'.model, s'.solver.history⟩ := by
  have hall := all_var_lt cryptoMiniSat_lit_var hR.packed.assumed_range
  rw [← hR.packed.assumptions_eq, ← hR.nVars_eq] at hall
  have hdecide := hC s.solver.history s.assumptions
  unfold CryptoMiniSatSolver.solve
  rw [CMSat.SATSolver.solve, if_pos hall]
  cases hans : C s.solver.history s.assumptions with
  | unknown =>
      rw [hans] at hdecide
      exact hdecide.elim
  | unsat =>
      exact ⟨.UNSAT_V, s.answered s.solver.model s.model, rfl,
        hR.answered _ hR.model_length, hR.packed.answers_unsat hans⟩
  | sat m =>
      have hle : nArgs ≤ s.solver.nVars := by
        rw [hR.nVars_eq]
        exact hcovers.le hR.packed.seen_le
      have hloop : (List.range s.decisionVars).foldlM (CryptoMiniSatSolver.setModel
          (vec s.solver.nVars (fun v => LBool.ofBool (m v)))) s.model = .ok (vec nArgs m) := by
        rw [hR.decisionVars_eq]
        exact foldlM_setModel hle m hR.model_length
      refine ⟨.SAT_V, s.answered (vec s.solver.nVars (fun v => LBool.ofBool (m v)))
        (vec nArgs m), ?_, hR.answered _ (by simp), hR.packed.answers hans⟩
      change ((List.range s.decisionVars).foldlM (CryptoMiniSatSolver.setModel
        (vec s.solver.nVars (fun v => LBool.ofBool (m v)))) s.model >>= fun model => _) = _
      rw [hloop]
      rfl

theorem cryptoMiniSat_refines {C : Core PackedLit} (hC : C.Correct PackedLit.holds)
    (nVars nArgs : Nat) :
    (Wrapper.cryptoMiniSat C).Refines C (packedEncoding CryptoMiniSatSolver.lit) nVars nArgs
      (CryptoMiniSatRel nVars nArgs) where
  new := ⟨rfl, by simp [Wrapper.cryptoMiniSat, CryptoMiniSatSolver.new],
    by simp [Wrapper.cryptoMiniSat, CryptoMiniSatSolver.new, CMSat.SATSolver.newVars,
      CMSat.SATSolver.new], packedRel_empty _ _⟩
  addClause1_eq _ _ := rfl
  addClause2_eq _ _ _ := rfl
  addClause3_eq _ _ _ _ := rfl
  addClause hR hc := hR.addClause hc
  assume hR hl := ⟨_, rfl, hR.decisionVars_eq, hR.model_length, hR.nVars_eq,
    hR.packed.assume hl⟩
  solve hR hcovers := hR.solve hC hcovers

end CryptoMiniSat

/-! ## Glucose -/

/-- The library has created every variable that was used. -/
structure GlucoseRel (nArgs : Nat) (s : GlucoseSatSolver) (p : Pending) : Prop where
  decisionVars_eq : s.decisionVars = nArgs
  packed : PackedRel GlucoseSatSolver.lit s.solver.nVars s.solver.history s.assumptions p

section Glucose

variable {nVars nArgs : Nat} {s : GlucoseSatSolver} {p : Pending}

/-- The creating loop changes the number of variables only. -/
theorem GlucoseSatSolver.reserve_eq (solver : Glucose.Solver) (l : Int) :
    reserve solver l =
      { solver with nVars := max solver.nVars (l.natAbs - 1 + 1) } := by
  have hiter : ∀ k (solver : Glucose.Solver), Glucose.Solver.newVar^[k] solver =
      { solver with nVars := solver.nVars + k } := by
    intro k
    induction k with
    | zero =>
        intro solver
        rfl
    | succ k ih =>
        intro solver
        rw [Function.iterate_succ_apply, ih, Glucose.Solver.newVar]
        simp only [Nat.add_assoc, Nat.add_comm 1 k]
  rw [reserve, hiter]
  congr 1
  omega

/-- The loop over a clause creates the variables and collects the literals. -/
theorem GlucoseSatSolver.addClause_loop (clause : List Int) (solver : Glucose.Solver)
    (lits : List PackedLit) :
    ∃ N, solver.nVars ≤ N ∧ (∀ l ∈ clause, l.natAbs ≤ N) ∧
      clause.foldl (fun (st : Glucose.Solver × List PackedLit) l =>
        (reserve st.1 l, st.2 ++ [lit l])) (solver, lits) =
      ({ solver with nVars := N }, lits ++ clause.map lit) := by
  induction clause generalizing solver lits with
  | nil => exact ⟨solver.nVars, Nat.le_refl _, by simp, by simp⟩
  | cons l clause ih =>
      obtain ⟨N, hN, hlits, hfold⟩ := ih (reserve solver l) (lits ++ [lit l])
      rw [reserve_eq] at hN
      refine ⟨N, (Nat.le_max_left _ _).trans hN, ?_, ?_⟩
      · have hl := (Nat.le_max_right solver.nVars _).trans hN
        simp only [List.mem_cons, forall_eq_or_imp]
        exact ⟨by omega, hlits⟩
      · rw [List.foldl_cons, hfold, reserve_eq]
        simp

theorem GlucoseRel.addClause (hR : GlucoseRel nArgs s p) {c : List Int}
    (hc : ∀ l ∈ c, InRange nVars l) :
    ∃ s', s.addClause c = .ok s' ∧ GlucoseRel nArgs s' (p.add c) := by
  obtain ⟨N, hN, hlits, hfold⟩ := GlucoseSatSolver.addClause_loop c s.solver []
  have hc' : ∀ l ∈ c, InRange N l := fun l hl => ⟨(hc l hl).1, hlits l hl⟩
  have hall := all_var_lt glucose_lit_var hc'
  refine ⟨{ s with solver := { s.solver with
    nVars := N, history := s.solver.history ++ [.add (c.map GlucoseSatSolver.lit)] } }, ?_, ?_⟩
  · rw [GlucoseSatSolver.addClause, hfold]
    simp only [List.nil_append, Glucose.Solver.addClause, hall, if_true]
    rfl
  · exact ⟨hR.decisionVars_eq, (hR.packed.grow hN).add hc'⟩

theorem GlucoseRel.assume (hR : GlucoseRel nArgs s p) {l : Int} (hl : InRange nVars l) :
    GlucoseRel nArgs (s.assume l) (p.assume [l]) := by
  refine ⟨hR.decisionVars_eq, ?_⟩
  simp only [GlucoseSatSolver.assume, GlucoseSatSolver.reserve_eq]
  exact (hR.packed.grow (Nat.le_max_left _ _)).assume ⟨hl.1, by omega⟩

theorem foldlM_pushModel {solver : Glucose.Solver} {n N : Nat} (hn : n ≤ N) {m : Assignment}
    (hmodel : solver.model = vec N (fun v => LBool.ofBool (m v))) :
    (List.range n).foldlM (GlucoseSatSolver.pushModel solver) [] = .ok (vec n m) := by
  refine foldlM_range_ok (fun k => vec k m) ?_
  intro k hk
  rw [GlucoseSatSolver.pushModel, Glucose.Solver.modelValue, hmodel,
    entry_ofBool m (by omega : k < N)]
  change Except.ok (vec k m ++ [decide (LBool.ofBool (m k) = .l_True)]) = _
  rw [decide_ofBool]
  simp [vec, List.range_succ]

/-- The wrapper after an answer. -/
def GlucoseSatSolver.answered (s : GlucoseSatSolver) (values : List LBool)
    (model : List Bool) : GlucoseSatSolver :=
  { s with
    solver := { s.solver with
      history := s.solver.history ++ [.solve s.assumptions], model := values }
    assumptions := []
    model := model }

theorem GlucoseRel.answered (hR : GlucoseRel nArgs s p) (values : List LBool)
    (model : List Bool) : GlucoseRel nArgs (s.answered values model) p.solved :=
  ⟨hR.decisionVars_eq, hR.packed.solved⟩

theorem GlucoseRel.solve {C : Core PackedLit} (hC : C.Correct PackedLit.holds)
    (hR : GlucoseRel nArgs s p) (hcovers : p.Covers nArgs) :
    ∃ verdict s', s.solve C = .ok (verdict, s') ∧ GlucoseRel nArgs s' p.solved ∧
      Answers C (packedEncoding GlucoseSatSolver.lit) nArgs p.query
        ⟨verdict, s'.model, s'.solver.history⟩ := by
  have hall := all_var_lt glucose_lit_var hR.packed.assumed_range
  rw [← hR.packed.assumptions_eq] at hall
  have hdecide := hC s.solver.history s.assumptions
  unfold GlucoseSatSolver.solve
  rw [Glucose.Solver.solve, if_pos hall]
  cases hans : C s.solver.history s.assumptions with
  | unknown =>
      rw [hans] at hdecide
      exact hdecide.elim
  | unsat =>
      exact ⟨.UNSAT_V, s.answered [] s.model, rfl, hR.answered _ _,
        hR.packed.answers_unsat hans⟩
  | sat m =>
      have hle : nArgs ≤ s.solver.nVars := hcovers.le hR.packed.seen_le
      have hloop : (List.range s.decisionVars).foldlM (GlucoseSatSolver.pushModel (s.answered
          (vec s.solver.nVars (fun v => LBool.ofBool (m v))) []).solver) [] =
          .ok (vec s.decisionVars m) :=
        foldlM_pushModel (hR.decisionVars_eq ▸ hle) rfl
      refine ⟨.SAT_V, s.answered (vec s.solver.nVars (fun v => LBool.ofBool (m v)))
        (vec s.decisionVars m), ?_, hR.answered _ _, ?_⟩
      · change ((List.range s.decisionVars).foldlM (GlucoseSatSolver.pushModel (s.answered
          (vec s.solver.nVars (fun v => LBool.ofBool (m v))) []).solver) [] >>=
            fun model => _) = _
        rw [hloop]
        rfl
      · rw [hR.decisionVars_eq]
        exact hR.packed.answers hans

theorem glucose_refines {C : Core PackedLit} (hC : C.Correct PackedLit.holds)
    (nVars nArgs : Nat) :
    (Wrapper.glucose C).Refines C (packedEncoding GlucoseSatSolver.lit) nVars nArgs
      (GlucoseRel nArgs) where
  new := ⟨rfl, packedRel_empty _ _⟩
  addClause1_eq _ _ := rfl
  addClause2_eq _ _ _ := rfl
  addClause3_eq _ _ _ _ := rfl
  addClause hR hc := hR.addClause hc
  assume hR hl := ⟨_, rfl, hR.assume hl⟩
  solve hR hcovers := hR.solve hC hcovers

end Glucose

/-! ## Verdicts -/

/-- A packed literal has the value of the integer literal that it translates. -/
theorem holds_lit (m : Assignment) {l : Int} (hl : l ≠ 0) :
    PackedLit.holds (fun v => m (v + 1)) (CryptoMiniSatSolver.lit l) = litHolds m l := by
  have hvar : l.natAbs - 1 + 1 = l.natAbs := by omega
  simp only [PackedLit.holds, CryptoMiniSatSolver.lit, PackedLit.var_ofVar,
    PackedLit.sign_ofVar, hvar, litHolds, hl, if_false]
  rcases Int.lt_or_gt_of_ne hl with hneg | hpos
  · have hnot : ¬ 0 < l := by omega
    cases m l.natAbs <;> simp [hneg, hnot]
  · have hnot : ¬ l < 0 := by omega
    cases m l.natAbs <;> simp [hpos, hnot]

/-- The literals of a query are not zero. -/
def Query.Nonzero (q : Query) : Prop :=
  (∀ c ∈ q.clauses, ∀ l ∈ c, l ≠ 0) ∧ ∀ l ∈ q.assumptions, l ≠ 0

theorem exists_meets_packed {t : Int → PackedLit}
    (ht : ∀ l, l ≠ 0 → t l = CryptoMiniSatSolver.lit l) {q : Query} (hq : q.Nonzero) :
    (∃ m, Meets PackedLit.holds m (q.clauses.map (List.map t)) (q.assumptions.map t)) ↔
      ∃ m, q.Model m := by
  have hiff : ∀ m : Assignment, Meets PackedLit.holds (fun v => m (v + 1))
      (q.clauses.map (List.map t)) (q.assumptions.map t) ↔ q.Model m := by
    intro m
    apply meets_map
    · intro c hc l hl
      rw [ht l (hq.1 c hc l hl), holds_lit m (hq.1 c hc l hl)]
    · intro l hl
      rw [ht l (hq.2 l hl), holds_lit m (hq.2 l hl)]
  constructor
  · intro h
    obtain ⟨m, hm⟩ := h
    exact ⟨fun v => m (v - 1), (hiff _).mp hm⟩
  · intro h
    obtain ⟨m, hm⟩ := h
    exact ⟨_, (hiff m).mpr hm⟩

/-- The verdict on a query does not depend on the wrapper. -/
theorem Answers.verdict_iff {L : Type} {C : Core L} {holds : Assignment → L → Bool}
    (hC : C.Correct holds) {e : Encoding L} {nArgs : Nat} {q : Query} {r : Solved L}
    (h : Answers C e nArgs q r)
    (hq : (∃ m, Meets holds m (q.clauses.map (List.map e.lit)) (q.assumptions.map e.lit)) ↔
      ∃ m, q.Model m) :
    r.verdict = .SAT_V ↔ ∃ m, q.Model m := by
  obtain ⟨before, assumptions, -, hclauses, rfl, hmatch⟩ := h
  have hdecide := hC before (q.assumptions.map e.lit)
  rw [← hq, ← hclauses]
  cases hans : C before (q.assumptions.map e.lit) with
  | unknown =>
      rw [hans] at hdecide
      exact hdecide.elim
  | unsat =>
      rw [hans] at hdecide hmatch
      simp only at hdecide hmatch
      simp [hmatch, hdecide]
  | sat m =>
      rw [hans] at hdecide hmatch
      simp only at hdecide hmatch
      exact iff_of_true hmatch.1 ⟨m, hdecide⟩

theorem Pending.nonzero_step {p : Pending} (hp : p.query.Nonzero) {c : Call}
    (hc : ∀ l ∈ c.literals, l ≠ 0) :
    (p.step c).2.query.Nonzero ∧ ∀ q ∈ (p.step c).1, q.Nonzero := by
  have hadd : ∀ clause, (∀ l ∈ clause, l ≠ 0) → (p.add clause).query.Nonzero := by
    intro clause hclause
    refine ⟨fun c' hc' => ?_, hp.2⟩
    rcases List.mem_append.mp hc' with hc' | hc'
    · exact hp.1 c' hc'
    · rw [List.mem_singleton.mp hc']
      exact hclause
  have hassume : ∀ lits, (∀ l ∈ lits, l ≠ 0) → (p.assume lits).query.Nonzero := by
    intro lits hlits
    refine ⟨hp.1, fun l hl => ?_⟩
    rcases List.mem_append.mp hl with hl | hl
    · exact hp.2 l hl
    · exact hlits l hl
  cases c with
  | addClause clause => exact ⟨hadd _ hc, by simp [Pending.step]⟩
  | addClause1 lit => exact ⟨hadd _ hc, by simp [Pending.step]⟩
  | addClause2 lit1 lit2 => exact ⟨hadd _ hc, by simp [Pending.step]⟩
  | addClause3 lit1 lit2 lit3 => exact ⟨hadd _ hc, by simp [Pending.step]⟩
  | assume lit => exact ⟨hassume _ hc, by simp [Pending.step]⟩
  | solve => exact ⟨⟨hp.1, by simp [Pending.step, Pending.query, Pending.solved]⟩,
      by simpa [Pending.step] using hp⟩
  | solveAssuming assumptions =>
      exact ⟨⟨hp.1, by simp [Pending.step, Pending.query, Pending.solved]⟩,
        by simpa [Pending.step] using hassume assumptions hc⟩

theorem Pending.nonzero_queries {calls : List Call} {p : Pending} (hp : p.query.Nonzero)
    (hcalls : ∀ c ∈ calls, ∀ l ∈ c.literals, l ≠ 0) : ∀ q ∈ p.queries calls, q.Nonzero := by
  induction calls generalizing p with
  | nil => simp [Pending.queries]
  | cons c calls ih =>
      obtain ⟨hnext, hout⟩ := Pending.nonzero_step hp (hcalls c (by simp))
      intro q hq
      rcases List.mem_append.mp hq with hq | hq
      · exact hout q hq
      · exact ih hnext (fun c' hc' => hcalls c' (by simp [hc'])) q hq

/-- Right verdicts, one for each query. -/
def Decides (qs : List Query) (verdicts : List Verdict) : Prop :=
  List.Forall₂ (fun q v => v = .SAT_V ↔ ∃ m, q.Model m) qs verdicts

theorem decides_of_answers {L : Type} {C : Core L} {holds : Assignment → L → Bool}
    (hC : C.Correct holds) {e : Encoding L} {nArgs : Nat} {qs : List Query}
    {rs : List (Solved L)} (h : List.Forall₂ (Answers C e nArgs) qs rs)
    (hqs : ∀ q ∈ qs,
      (∃ m, Meets holds m (q.clauses.map (List.map e.lit)) (q.assumptions.map e.lit)) ↔
        ∃ m, q.Model m) : Decides qs (rs.map (·.verdict)) := by
  induction h with
  | nil => exact .nil
  | cons hans _ ih =>
      exact .cons (hans.verdict_iff hC (hqs _ (by simp))) (ih fun q hq => hqs q (by simp [hq]))

theorem Decides.unique {qs : List Query} {vs vs' : List Verdict} (h : Decides qs vs)
    (h' : Decides qs vs') : vs = vs' := by
  induction h generalizing vs' with
  | nil =>
      cases h'
      rfl
  | @cons q v qs vs hv _ ih =>
      cases h' with
      | @cons _ v' _ _ hv' hrest =>
          have hverdict : v = v' := by
            have hiff := hv.trans hv'.symm
            cases v <;> cases v' <;> simp_all
          rw [hverdict, ih hrest]

/-- On every sequence of calls the wrappers ask their cores for exactly the pending
clauses and assumptions, report the answers, and agree on the verdicts. -/
theorem wrappers_agree (nVars nArgs : Nat) (calls : List Call)
    (hrange : ∀ c ∈ calls, ∀ l ∈ c.literals, InRange nVars l)
    (hvars : ∀ v, 1 ≤ v → v ≤ nArgs → ∃ l ∈ literalsBeforeSolve calls, l.natAbs = v)
    (C₁ : Core Int) (C₂ C₃ : Core PackedLit) (h₁ : C₁.Correct litHolds)
    (h₂ : C₂.Correct PackedLit.holds) (h₃ : C₃.Correct PackedLit.holds) :
    ∃ r₁ r₂ r₃,
      (Wrapper.cadical C₁).run (CadicalSatSolver.new nVars nArgs) calls = .ok r₁ ∧
      (Wrapper.cryptoMiniSat C₂).run (CryptoMiniSatSolver.new nVars nArgs) calls = .ok r₂ ∧
      (Wrapper.glucose C₃).run (GlucoseSatSolver.new nVars nArgs) calls = .ok r₃ ∧
      List.Forall₂ (Answers C₁ cadicalEncoding nArgs) (Pending.empty.queries calls) r₁ ∧
      List.Forall₂ (Answers C₂ (packedEncoding CryptoMiniSatSolver.lit) nArgs)
        (Pending.empty.queries calls) r₂ ∧
      List.Forall₂ (Answers C₃ (packedEncoding GlucoseSatSolver.lit) nArgs)
        (Pending.empty.queries calls) r₃ ∧
      Decides (Pending.empty.queries calls) (r₁.map (·.verdict)) ∧
      r₂.map (·.verdict) = r₁.map (·.verdict) ∧ r₃.map (·.verdict) = r₁.map (·.verdict) ∧
      ∀ l : Int, l ≠ 0 → GlucoseSatSolver.lit l = CryptoMiniSatSolver.lit l ∧
        (CryptoMiniSatSolver.lit l).var + 1 = l.natAbs ∧
        ((CryptoMiniSatSolver.lit l).sign = true ↔ l < 0) := by
  have hvars' : ∀ v, 1 ≤ v → v ≤ nArgs →
      ∃ l ∈ Pending.empty.seen ++ literalsBeforeSolve calls, l.natAbs = v := hvars
  obtain ⟨r₁, hr₁, ha₁⟩ := (cadical_refines h₁ nVars nArgs).run
    (cadical_refines h₁ nVars nArgs).new hrange hvars'
  obtain ⟨r₂, hr₂, ha₂⟩ := (cryptoMiniSat_refines h₂ nVars nArgs).run
    (cryptoMiniSat_refines h₂ nVars nArgs).new hrange hvars'
  obtain ⟨r₃, hr₃, ha₃⟩ := (glucose_refines h₃ nVars nArgs).run
    (glucose_refines h₃ nVars nArgs).new hrange hvars'
  have hempty : Pending.empty.query.Nonzero :=
    ⟨by simp [Pending.empty, Pending.query], by simp [Pending.empty, Pending.query]⟩
  have hnonzero : ∀ q ∈ Pending.empty.queries calls, q.Nonzero :=
    Pending.nonzero_queries hempty (fun c hc l hl => (hrange c hc l hl).1)
  have hd₁ := decides_of_answers h₁ ha₁ (fun q _ => by
    simp only [cadicalEncoding, List.map_id_fun, List.map_id]
    exact Iff.rfl)
  have hd₂ := decides_of_answers h₂ ha₂ (fun q hq =>
    exists_meets_packed (fun _ _ => rfl) (hnonzero q hq))
  have hd₃ := decides_of_answers h₃ ha₃ (fun q hq =>
    exists_meets_packed (fun _ => glucose_lit_eq) (hnonzero q hq))
  refine ⟨r₁, r₂, r₃, hr₁, hr₂, hr₃, ha₁, ha₂, ha₃, hd₁, hd₂.unique hd₁, hd₃.unique hd₁, ?_⟩
  intro l hl
  refine ⟨glucose_lit_eq hl, ?_, by simp [CryptoMiniSatSolver.lit]⟩
  rw [cryptoMiniSat_lit_var]
  omega

/-- Assumptions before and after a clause, in a parameter and across solves. -/
def sampleCalls : List Call :=
  [.assume 2, .addClause2 1 (-2), .solve, .solveAssuming [-1, 2], .addClause1 (-1), .solve]

theorem wrappers_agree_sample : ∃ r₁ r₂ r₃,
    (Wrapper.cadical (Core.exhaustive litHolds Int.natAbs)).run
      (CadicalSatSolver.new 2 1) sampleCalls = .ok r₁ ∧
    (Wrapper.cryptoMiniSat (Core.exhaustive PackedLit.holds PackedLit.var)).run
      (CryptoMiniSatSolver.new 2 1) sampleCalls = .ok r₂ ∧
    (Wrapper.glucose (Core.exhaustive PackedLit.holds PackedLit.var)).run
      (GlucoseSatSolver.new 2 1) sampleCalls = .ok r₃ ∧
    r₂.map (·.verdict) = r₁.map (·.verdict) ∧ r₃.map (·.verdict) = r₁.map (·.verdict) := by
  have hcadical : (Core.exhaustive litHolds Int.natAbs).Correct litHolds :=
    Core.exhaustive_correct fun _ _ _ => litHolds_congr
  have hpacked : (Core.exhaustive PackedLit.holds PackedLit.var).Correct PackedLit.holds :=
    Core.exhaustive_correct fun _ _ _ h => by rw [PackedLit.holds, PackedLit.holds, h]
  have hvars : ∀ v, 1 ≤ v → v ≤ 1 → ∃ l ∈ literalsBeforeSolve sampleCalls, l.natAbs = v := by
    intro v h1 hv
    exact ⟨1, by decide, by omega⟩
  obtain ⟨r₁, r₂, r₃, hr₁, hr₂, hr₃, -, -, -, -, hv₂, hv₃, -⟩ :=
    wrappers_agree 2 1 sampleCalls (by decide) hvars _ _ _ hcadical hpacked hpacked
  exact ⟨r₁, r₂, r₃, hr₁, hr₂, hr₃, hv₂, hv₃⟩

end AcceptableArguments
