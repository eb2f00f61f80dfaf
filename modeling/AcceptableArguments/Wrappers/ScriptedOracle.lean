import AcceptableArguments.Imperative.Simulations
import AcceptableArguments.Wrappers.IncrementalCorrectness
import AcceptableArguments.Wrappers.MaxSatSolver

/-!
# Algorithms on a wrapper follow a scripted oracle

An algorithm calls the wrapper that its build was compiled with. Its run is compared with
the run of the same algorithm on the solver with an oracle, where the oracle gives the
answers of the library in the order in which the wrapper received them. The oracle checks
each answer of the script, so that it keeps its contract for every script.
-/

namespace AcceptableArguments

open AcceptableArguments.Sat Imperative

/-! ## Scripts -/

/-- A reply of a library: no model, or a model with its cost. -/
abbrev Reply := Option (Assignment × Nat)

/-- What the contract of a SAT solver says about one reply. -/
def Reply.Correct (q : Query) : Reply → Prop
  | none => ¬ ∃ m, q.Model m
  | some (m, _) => q.Model m

/-- What the contract of a MaxSAT solver says about one reply. -/
def Reply.Optimal (q : Query) : Reply → Prop
  | none => ¬ ∃ m, q.Model m
  | some (m, value) => q.Model m ∧ value = cost m q.soft ∧
      ∀ m', q.Model m' → value ≤ cost m' q.soft

open Classical in
/-- The reply of the script to the solve that comes next, if it is right. -/
noncomputable def Oracle.scripted (right : Query → Reply → Prop) (other : Oracle)
    (script : List Reply) : Oracle := fun log q =>
  match script[solvesIn log]? with
  | some reply => if right q reply then reply else other log q
  | none => other log q

/-- Every reply is right if those of the other oracle are. -/
theorem Oracle.scripted_right {right : Query → Reply → Prop} {other : Oracle}
    (h : ∀ log q, right q (other log q)) (script : List Reply) (log : List Event) (q : Query) :
    right q (Oracle.scripted right other script log q) := by
  unfold Oracle.scripted
  split
  · split
    · assumption
    · exact h log q
  · exact h log q

theorem Oracle.scripted_eq {right : Query → Reply → Prop} {other : Oracle}
    {script : List Reply} {log : List Event} {q : Query} {reply : Reply}
    (hget : script[solvesIn log]? = some reply) (hright : right q reply) :
    Oracle.scripted right other script log q = reply := by
  rw [Oracle.scripted, hget]
  exact if_pos hright

theorem Oracle.correct_of_forall {O : Oracle} (h : ∀ log q, Reply.Correct q (O log q)) :
    O.Correct := by
  intro log q
  have hq := h log q
  cases hans : O log q with
  | none =>
      rw [hans] at hq
      exact hq
  | some answer =>
      rw [hans] at hq
      exact hq

theorem Oracle.Correct.reply {O : Oracle} (h : O.Correct) (log : List Event) (q : Query) :
    Reply.Correct q (O log q) := by
  have hq := h log q
  cases hans : O log q with
  | none =>
      rw [hans] at hq
      exact hq
  | some answer =>
      rw [hans] at hq
      exact hq

@[simp] theorem solvesIn_nil : solvesIn [] = 0 := rfl

@[simp] theorem solvesIn_append (log log' : List Event) :
    solvesIn (log ++ log') = solvesIn log + solvesIn log' := List.countP_append

@[simp] theorem solvesIn_clause (nVars : Nat) (lits : Clause) :
    solvesIn [.clause nVars lits] = 0 := rfl

@[simp] theorem solvesIn_assumption (nVars : Nat) (lit : Int) :
    solvesIn [.assumption nVars lit] = 0 := rfl

@[simp] theorem solvesIn_answer (model : Option (List Bool)) :
    solvesIn [.answer model] = 1 := rfl

@[simp] theorem solvesIn_map_clause (nVars : Nat) (clauses : List Clause) :
    solvesIn (clauses.map (Event.clause nVars)) = 0 := by
  simp [solvesIn, List.countP_map]

/-! ## Calls of an algorithm on a wrapper -/

/-- Runs of an algorithm on a wrapper; the state lists what its solves have shown. -/
abbrev WrapperM (L : Type) := Run Fault (List (Solved L))

namespace Wrapper

variable {L S : Type} (W : Wrapper L S)

def addClauseM (s : S) (clause : Clause) : WrapperM L S :=
  Run.ofExcept (W.addClause s clause)

def assumeM (s : S) (lit : Int) : WrapperM L S :=
  Run.ofExcept (W.assume s lit)

def solveM (s : S) : WrapperM L (Verdict × S) := do
  let (verdict, s) ← Run.ofExcept (W.solve s)
  Run.modify (· ++ [W.visible verdict s])
  return (verdict, s)

theorem solveM_of_solve {W : Wrapper L S} {s s' : S} {verdict : Verdict}
    (h : W.solve s = .ok (verdict, s')) (shown : List (Solved L)) :
    W.solveM s shown = (.ok (verdict, s'), shown ++ [W.visible verdict s']) := by
  rw [solveM, h]
  rfl

/-- What the algorithms rely on: the calls reach the core, only a solve writes the model, and
the core decides the queries. -/
structure Reliable (C : Core L) (e : Encoding L) : Prop where
  refines : ∀ nVars nArgs, ∃ R, W.Refines C e nVars nArgs R
  addClause_model : ∀ {s c s'}, W.addClause s c = .ok s' → W.model s' = W.model s
  assume_model : ∀ {s l s'}, W.assume s l = .ok s' → W.model s' = W.model s
  decides : ∀ {q : Query} {before : List (CoreCall L)}, q.Nonzero →
    addedClauses before = q.clauses.map (List.map e.lit) →
    match C before (q.assumptions.map e.lit) with
    | .sat m => q.Model (e.value m)
    | .unsat => ¬ ∃ m, q.Model m
    | .unknown => False

end Wrapper

/-- `Refines` says that the variants of `add_clause` with one, two and three literals do the
same as `add_clause`. -/
instance {L S : Type} : SolverInterface (Wrapper L S) (List (Solved L)) S where
  new := Wrapper.new
  addClause := Wrapper.addClauseM
  assume := Wrapper.assumeM
  solve := Wrapper.solveM
  model := Wrapper.model

section Interface

variable {L S : Type} (W : Wrapper L S) (s : S)

@[simp] theorem Wrapper.addClause_eq : SolverInterface.addClause W s = W.addClauseM s := rfl

@[simp] theorem Wrapper.model_eq : SolverInterface.model W s = W.model s := rfl

end Interface

/-! ## The libraries -/

theorem cadical_reliable {C : Core Int} (hC : C.Correct litHolds) :
    (Wrapper.cadical C).Reliable C cadicalEncoding where
  refines nVars nArgs := ⟨_, cadical_refines hC nVars nArgs⟩
  addClause_model h := by
    cases h
    rfl
  assume_model h := by
    cases h
    rfl
  decides {q before} _ hclauses := by
    have hdecide := hC before (q.assumptions.map cadicalEncoding.lit)
    simp only [cadicalEncoding, List.map_id_fun, List.map_id] at hclauses hdecide ⊢
    rw [hclauses] at hdecide
    exact hdecide

/-- A core on packed literals decides the queries over signed ones. -/
theorem packed_decides {C : Core PackedLit} (hC : C.Correct PackedLit.holds)
    {t : Int → PackedLit} (ht : ∀ l, l ≠ 0 → t l = CryptoMiniSatSolver.lit l) {q : Query}
    {before : List (CoreCall PackedLit)} (hq : q.Nonzero)
    (hclauses : addedClauses before = q.clauses.map (List.map t)) :
    match C before (q.assumptions.map t) with
    | .sat m => q.Model ((packedEncoding t).value m)
    | .unsat => ¬ ∃ m, q.Model m
    | .unknown => False := by
  have hdecide := hC before (q.assumptions.map t)
  rw [hclauses] at hdecide
  cases hans : C before (q.assumptions.map t) with
  | unknown =>
      rw [hans] at hdecide
      exact hdecide
  | unsat =>
      rw [hans] at hdecide
      rw [exists_meets_packed ht hq] at hdecide
      exact hdecide
  | sat m =>
      rw [hans] at hdecide
      have hlit : ∀ l, l ≠ 0 →
          PackedLit.holds m (t l) = litHolds ((packedEncoding t).value m) l := by
        intro l hl
        rw [ht l hl]
        exact holds_lit ((packedEncoding t).value m) hl
      exact (meets_map (fun c hc l hl => hlit l (hq.1 c hc l hl))
        (fun l hl => hlit l (hq.2 l hl))).mp hdecide

theorem cryptoMiniSat_reliable {C : Core PackedLit} (hC : C.Correct PackedLit.holds) :
    (Wrapper.cryptoMiniSat C).Reliable C (packedEncoding CryptoMiniSatSolver.lit) where
  refines nVars nArgs := ⟨_, cryptoMiniSat_refines hC nVars nArgs⟩
  addClause_model {s c s'} h := by
    simp only [Wrapper.cryptoMiniSat, CryptoMiniSatSolver.addClause] at h
    cases hadd : s.solver.addClause (c.map CryptoMiniSatSolver.lit) with
    | error e =>
        rw [hadd] at h
        cases h
    | ok solver =>
        rw [hadd] at h
        cases h
        rfl
  assume_model h := by
    cases h
    rfl
  decides hq hclauses := packed_decides hC (fun _ _ => rfl) hq hclauses

theorem glucose_reliable {C : Core PackedLit} (hC : C.Correct PackedLit.holds) :
    (Wrapper.glucose C).Reliable C (packedEncoding GlucoseSatSolver.lit) where
  refines nVars nArgs := ⟨_, glucose_refines hC nVars nArgs⟩
  addClause_model {s c s'} h := by
    obtain ⟨N, -, -, hloop⟩ := GlucoseSatSolver.addClause_loop c s.solver []
    simp only [Wrapper.glucose, GlucoseSatSolver.addClause, hloop] at h
    cases hadd : Glucose.Solver.addClause { s.solver with nVars := N }
        ([] ++ c.map GlucoseSatSolver.lit) with
    | error e =>
        rw [hadd] at h
        cases h
    | ok solver =>
        rw [hadd] at h
        cases h
        rfl
  assume_model h := by
    cases h
    rfl
  decides hq hclauses := packed_decides hC (fun _ => glucose_lit_eq) hq hclauses

/-! ## The simulation -/

section Replies

variable {L S : Type} {W : Wrapper L S} {C : Core L} {e : Encoding L} {nArgs : Nat}

/-- What the core replied to the last solve of a history. -/
def Solved.reply (C : Core L) (e : Encoding L) (r : Solved L) : Reply :=
  match r.history.getLast? with
  | some (.solve assumptions) =>
      match C r.history.dropLast assumptions with
      | .sat m => some (e.value m, 0)
      | .unsat | .unknown => none
  | _ => none

/-- The oracle that gives the replies of the core again. -/
noncomputable def Wrapper.oracle (C : Core L) (e : Encoding L) (shown : List (Solved L)) :
    Oracle :=
  Oracle.scripted Reply.Correct Oracle.exhaustive (shown.map (Solved.reply C e))

theorem Wrapper.oracle_correct (C : Core L) (e : Encoding L) (shown : List (Solved L)) :
    (Wrapper.oracle C e shown).Correct :=
  Oracle.correct_of_forall (Oracle.scripted_right Oracle.exhaustive_correct.reply _)

/-- A solve shows the reply of the core, and the reply is right. -/
theorem Wrapper.Reliable.reply (hW : W.Reliable C e) {q : Query} (hq : q.Nonzero)
    {r : Solved L} (h : Answers C e nArgs q r) :
    (r.verdict = .UNSAT_V ∧ r.reply C e = none ∧ ¬ ∃ m, q.Model m) ∨
      ∃ m, r.verdict = .SAT_V ∧ r.reply C e = some (m, 0) ∧ q.Model m ∧
        r.model = vec nArgs (fun i => m (i + 1)) := by
  obtain ⟨before, assumptions, hhistory, hclauses, rfl, hmatch⟩ := h
  have hdecide := hW.decides hq hclauses
  cases hans : C before (q.assumptions.map e.lit) with
  | unknown =>
      rw [hans] at hmatch
      exact hmatch.elim
  | unsat =>
      rw [hans] at hmatch hdecide
      refine Or.inl ⟨hmatch, ?_, hdecide⟩
      simp [Solved.reply, hhistory, hans]
  | sat m =>
      rw [hans] at hmatch hdecide
      refine Or.inr ⟨e.value m, hmatch.1, ?_, hdecide, hmatch.2⟩
      simp [Solved.reply, hhistory, hans]

end Replies

namespace SatSolver

variable {O : Oracle} {solver : SatSolver} {log : List Event}

theorem solve_of_none (h : O log solver.query = none) :
    solver.solve O log = (.ok (.UNSAT_V, { solver with assumptions := [] }),
      log ++ [.answer none]) := by
  simp only [solve, Run.bind_apply, Run.get, h]
  rfl

theorem solve_of_some {m : Assignment} {value : Nat}
    (h : O log solver.query = some (m, value)) :
    solver.solve O log = (.ok (.SAT_V, { solver with
        assumptions := [], model := vec solver.decisionVars (fun i => m (i + 1))
        optimalCost := value }),
      log ++ [.answer (some (vec solver.decisionVars (fun i => m (i + 1))))]) := by
  simp only [solve, Run.bind_apply, Run.get, h]
  rfl

end SatSolver

section Tracking

variable {L S : Type} {W : Wrapper L S} {C : Core L} {e : Encoding L} {nVars nArgs : Nat}

/-- The wrapper has received the calls of the solver. If `known` is a model, both show it;
before the first answer the wrappers do not agree on what they show. -/
structure Tracks (W : Wrapper L S) (C : Core L) (e : Encoding L) (nVars nArgs : Nat)
    (known : Option (Nat → Bool)) (s : S) (d : SatSolver) : Prop where
  pending : ∃ R p, W.Refines C e nVars nArgs R ∧ R s p ∧ p.clauses = d.clauses ∧
    p.assumed = d.assumptions ∧ p.Covers nArgs
  nonzero : d.query.Nonzero
  decisionVars_eq : d.decisionVars = nArgs
  model_eq : ∀ p ∈ known, W.model s = vec nArgs p ∧ d.model = vec nArgs p

theorem Tracks.forget {known : Option (Nat → Bool)} {s : S} {d : SatSolver}
    (h : Tracks W C e nVars nArgs known s d) : Tracks W C e nVars nArgs none s d :=
  ⟨h.pending, h.nonzero, h.decisionVars_eq, by simp⟩

/-- More literals cover at least as many variables. -/
theorem Pending.Covers.grow {p p' : Pending} (h : p.Covers nArgs)
    (hseen : ∀ l ∈ p.seen, l ∈ p'.seen) : p'.Covers nArgs := by
  intro v h1 hv
  obtain ⟨l, hl, hlv⟩ := h v h1 hv
  exact ⟨l, hseen l hl, hlv⟩

variable (hW : W.Reliable C e)

include hW

theorem Tracks.addClause {known : Option (Nat → Bool)} {s : S} {d : SatSolver}
    (h : Tracks W C e nVars nArgs known s d) {c : Clause} (hc : ∀ l ∈ c, InRange nVars l) :
    Follows solvesIn (Tracks W C e nVars nArgs known) (W.addClauseM s c)
      (fun _ : List (Solved L) => d.addClause c) := by
  obtain ⟨⟨R, p, hR, hsp, hclauses, hassumed, hcovers⟩, hnonzero, hvars, hmodel⟩ := h
  obtain ⟨s', hs', hsp'⟩ := hR.addClause hsp hc
  intro t w hw
  have hx : W.addClauseM s c t = (.ok s', t) := by
    rw [Wrapper.addClauseM, hs']
    rfl
  rw [hx]
  refine ⟨List.prefix_refl t, { d with clauses := d.clauses ++ [c] },
    w ++ [.clause d.nVars c], ⟨⟨R, p.add c, hR, hsp', ?_, hassumed, ?_⟩, ⟨?_, hnonzero.2⟩, hvars,
    fun q hq => ?_⟩, by simpa using hw, fun _ _ => rfl⟩
  · rw [Pending.add, hclauses]
  · exact hcovers.grow fun l hl => List.mem_append_left _ hl
  · intro c' hc'
    cases List.mem_append.mp hc' with
    | inl hold => exact hnonzero.1 c' hold
    | inr hnew =>
        rw [List.mem_singleton.mp hnew]
        exact fun l hl => (hc l hl).1
  · rw [hW.addClause_model hs']
    exact hmodel q hq

theorem Tracks.assume {known : Option (Nat → Bool)} {s : S} {d : SatSolver}
    (h : Tracks W C e nVars nArgs known s d) {l : Int} (hl : InRange nVars l) :
    Follows solvesIn (Tracks W C e nVars nArgs known) (W.assumeM s l)
      (fun _ : List (Solved L) => d.assume l) := by
  obtain ⟨⟨R, p, hR, hsp, hclauses, hassumed, hcovers⟩, hnonzero, hvars, hmodel⟩ := h
  obtain ⟨s', hs', hsp'⟩ := hR.assume hsp hl
  intro t w hw
  have hx : W.assumeM s l t = (.ok s', t) := by
    rw [Wrapper.assumeM, hs']
    rfl
  rw [hx]
  refine ⟨List.prefix_refl t, { d with assumptions := d.assumptions ++ [l] },
    w ++ [.assumption d.nVars l], ⟨⟨R, p.assume [l], hR, hsp', hclauses, ?_, ?_⟩,
    ⟨hnonzero.1, ?_⟩, hvars, fun q hq => ?_⟩, by simpa using hw, fun _ _ => rfl⟩
  · rw [Pending.assume, hassumed]
  · exact hcovers.grow fun l hl => List.mem_append_left _ hl
  · intro l' hl'
    cases List.mem_append.mp hl' with
    | inl hold => exact hnonzero.2 l' hold
    | inr hnew =>
        rw [List.mem_singleton.mp hnew]
        exact hl.1
  · rw [hW.assume_model hs']
    exact hmodel q hq

/-- The same verdict and, if there is a model, the same model. -/
def TracksAnswer (W : Wrapper L S) (C : Core L) (e : Encoding L) (nVars nArgs : Nat)
    (x : Verdict × S) (y : Verdict × SatSolver) : Prop :=
  x.1 = .UNSAT_V ∧ y.1 = .UNSAT_V ∧ Tracks W C e nVars nArgs none x.2 y.2 ∨
    x.1 = .SAT_V ∧ y.1 = .SAT_V ∧ ∃ p, Tracks W C e nVars nArgs (some p) x.2 y.2

theorem Tracks.solve {known : Option (Nat → Bool)} {s : S} {d : SatSolver}
    (h : Tracks W C e nVars nArgs known s d) :
    Follows solvesIn (TracksAnswer W C e nVars nArgs) (W.solveM s)
      (fun shown => d.solve (Wrapper.oracle C e shown)) := by
  obtain ⟨⟨R, p, hR, hsp, hclauses, hassumed, hcovers⟩, hnonzero, hvars, -⟩ := h
  obtain ⟨verdict, s', hs', hsp', hans⟩ := hR.solve hsp hcovers
  have hquery : p.query = ⟨d.clauses, d.assumptions, []⟩ := by
    rw [Pending.query, hclauses, hassumed]
  rw [hquery] at hans
  intro t w hw
  rw [Wrapper.solveM_of_solve hs' t]
  refine ⟨List.prefix_append t _, ?_⟩
  have hget : ∀ shown, t ++ [W.visible verdict s'] <+: shown →
      (shown.map (Solved.reply C e))[solvesIn w]? =
        some ((W.visible verdict s').reply C e) := by
    intro shown hshown
    obtain ⟨rest, rfl⟩ := hshown
    simp [hw]
  have hpending : ∃ R p', W.Refines C e nVars nArgs R ∧ R s' p' ∧ p'.clauses = d.clauses ∧
      p'.assumed = [] ∧ p'.Covers nArgs := ⟨R, p.solved, hR, hsp', hclauses, rfl, hcovers⟩
  have hnonzero' : (∀ c ∈ d.clauses, ∀ l ∈ c, l ≠ 0) ∧ ∀ l ∈ ([] : List Int), l ≠ 0 :=
    ⟨hnonzero.1, by simp⟩
  cases hW.reply hnonzero hans with
  | inl hunsat =>
      obtain ⟨hverdict, hreply, hno⟩ := hunsat
      refine ⟨(.UNSAT_V, { d with assumptions := [] }), w ++ [.answer none],
        Or.inl ⟨hverdict, rfl, hpending, hnonzero', hvars, by simp⟩, by simpa using hw,
        fun shown hshown => SatSolver.solve_of_none ?_⟩
      exact Oracle.scripted_eq ((hget shown hshown).trans (congrArg some hreply)) hno
  | inr hsat =>
      obtain ⟨m, hverdict, hreply, hm, hmodel⟩ := hsat
      refine ⟨(.SAT_V, { d with
          assumptions := [], model := vec d.decisionVars (fun i => m (i + 1))
          optimalCost := 0 }),
        w ++ [.answer (some (vec d.decisionVars (fun i => m (i + 1))))],
        Or.inr ⟨hverdict, rfl, fun i => m (i + 1), hpending, hnonzero', hvars, ?_⟩,
        by simpa using hw, fun shown hshown => SatSolver.solve_of_some ?_⟩
      · intro q hq
        cases hq
        exact ⟨hmodel, by rw [hvars]⟩
      · exact Oracle.scripted_eq ((hget shown hshown).trans (congrArg some hreply)) hm

theorem Tracks.solveAssuming {known : Option (Nat → Bool)} {s : S} {d : SatSolver}
    (h : Tracks W C e nVars nArgs known s d) {lits : List Int}
    (hlits : ∀ l ∈ lits, InRange nVars l) :
    Follows solvesIn (TracksAnswer W C e nVars nArgs) (SolverInterface.solveAssuming W s lits)
      (fun shown => d.solveAssuming (Wrapper.oracle C e shown) lits) := by
  have hassume : Follows solvesIn (Tracks W C e nVars nArgs known) (lits.foldlM W.assumeM s)
      (fun _ : List (Solved L) => lits.foldlM SatSolver.assume d) :=
    Follows.foldlM (fun s d h l hl => h.assume hW (hlits l hl)) h
  exact hassume.bind fun s' d' h' => h'.solve hW

omit hW in
/-- What follows an answer, by verdict. -/
theorem Imperative.Follows.answer_cases {α β : Type} {T : α → β → Prop}
    {x : WrapperM L (Verdict × S)} {y : List (Solved L) → SolveM (Verdict × SatSolver)}
    (h : Follows solvesIn (TracksAnswer W C e nVars nArgs) x y)
    {f : Verdict × S → WrapperM L α}
    {g : List (Solved L) → Verdict × SatSolver → SolveM β}
    (hunsat : ∀ s d, Tracks W C e nVars nArgs none s d →
      Follows solvesIn T (f (.UNSAT_V, s)) (fun shown => g shown (.UNSAT_V, d)))
    (hsat : ∀ p s d, Tracks W C e nVars nArgs (some p) s d →
      Follows solvesIn T (f (.SAT_V, s)) (fun shown => g shown (.SAT_V, d))) :
    Follows solvesIn T (x >>= f) (fun shown => y shown >>= g shown) := by
  apply h.bind
  intro a b hab
  obtain ⟨verdict, s⟩ := a
  obtain ⟨verdict', d⟩ := b
  cases hab with
  | inl hab =>
      obtain ⟨rfl, rfl, h⟩ := hab
      exact hunsat s d h
  | inr hab =>
      obtain ⟨rfl, rfl, p, h⟩ := hab
      exact hsat p s d h

omit hW in
/-- The clauses of an encoding, one by one. -/
theorem Wrapper.Refines.addClauses {R : S → Pending → Prop}
    (hR : W.Refines C e nVars nArgs R) {cs : List Clause}
    (hcs : ∀ c ∈ cs, ∀ l ∈ c, InRange nVars l) {s : S} {p : Pending} (hsp : R s p)
    (t : List (Solved L)) :
    ∃ s', SolverInterface.addClauses W s cs t = (.ok s', t) ∧
      R s' { p with clauses := p.clauses ++ cs, seen := p.seen ++ cs.flatten } := by
  induction cs generalizing s p with
  | nil => exact ⟨s, rfl, by simpa using hsp⟩
  | cons c cs ih =>
      obtain ⟨s₁, hs₁, hsp₁⟩ := hR.addClause hsp (hcs c (by simp))
      obtain ⟨s', hs', hsp'⟩ := ih (fun c' hc' => hcs c' (by simp [hc'])) hsp₁
      refine ⟨s', ?_, by simpa [Pending.add] using hsp'⟩
      rw [SolverInterface.addClauses, List.foldlM_cons, Wrapper.addClause_eq,
        Wrapper.addClauseM, hs₁]
      exact hs'

/-- A solver that has received the clauses of an encoding in which every decision variable
occurs. -/
theorem tracks_encoded {cs : List Clause} (hrange : ∀ c ∈ cs, ∀ l ∈ c, InRange nVars l)
    (hcovers : ∀ v, 1 ≤ v → v ≤ nArgs → ∃ c ∈ cs, ∃ l ∈ c, l.natAbs = v) :
    Follows solvesIn (Tracks W C e nVars nArgs none)
      (SolverInterface.addClauses W (W.new nVars nArgs) cs)
      (fun _ : List (Solved L) => (SatSolver.new nVars nArgs).addClauses cs) := by
  obtain ⟨R, hR⟩ := hW.refines nVars nArgs
  intro t w hw
  obtain ⟨s', hx, hsp'⟩ := hR.addClauses hrange hR.new t
  rw [hx]
  have hadd : Ensures ((SatSolver.new nVars nArgs).addClauses cs) w (fun d w' =>
      d = { SatSolver.new nVars nArgs with clauses := [] ++ cs } ∧
        solvesIn w' = solvesIn w) (fun _ _ => False) :=
    SatSolver.ensures_addClauses ⟨rfl, by simp⟩
  obtain ⟨d, w', hy, hd, hw'⟩ := hadd.exists_ok
  refine ⟨List.prefix_refl t, d, w', ?_, hw'.trans hw, fun _ _ => hy⟩
  subst hd
  refine ⟨⟨R, _, hR, hsp', rfl, rfl, ?_⟩, ⟨?_, ?_⟩, rfl, by simp⟩
  · intro v h1 hv
    obtain ⟨c, hc, l, hl, hlv⟩ := hcovers v h1 hv
    exact ⟨l, List.mem_append_right _ (List.mem_flatten_of_mem hc hl), hlv⟩
  · intro c hc l hl
    exact (hrange c hc l hl).1
  · simp [SatSolver.query, SatSolver.new]

end Tracking

end AcceptableArguments
