import AcceptableArguments.Imperative.Invariants
import AcceptableArguments.Algorithms.IAQ
import AcceptableArguments.Algorithms.EEE
import AcceptableArguments.Algorithms.SEE
import AcceptableArguments.Algorithms.SEEM
import AcceptableArguments.Algorithms.Fudge

/-!
# Every literal names a variable of its solver

The bounds hold for both build variants, whatever the oracle answers and however far a
run gets. A run is safe when all calls recorded so far are in range and it does not
stop at an access outside a vector; the rules for safe runs follow the rules for the
calls on a solver.
-/

namespace AcceptableArguments

open AcceptableArguments.Sat Imperative Encodings

/-- The values of `n_vars` that the algorithms pass to a solver. -/
def solverSizes (af : AF) : List Nat := [af.count, 2 * af.args, 4 * af.args + af.attacks]

/-- The solver has one of the known sizes, and every literal of the call is nonzero
with a variable up to that size. -/
def Event.Valid (af : AF) : Event → Prop
  | .clause nVars lits => nVars ∈ solverSizes af ∧ ∀ l ∈ lits, InRange nVars l
  | .assumption nVars lit => nVars ∈ solverSizes af ∧ InRange nVars lit
  | .soft nVars lit _ => nVars ∈ solverSizes af ∧ InRange nVars lit
  | .answer _ => True

def ValidLog (af : AF) (log : List Event) : Prop := ∀ e ∈ log, e.Valid af

/-- The run makes valid calls only and stays inside its vectors. -/
abbrev Safe {α : Type} (af : AF) (x : SolveM α) (Q : α → Prop) : Prop :=
  Keeps (ValidLog af) (· ≠ .error .outOfBounds) x Q

/-! ## Calls on a solver -/

/-- A vector of flags, one for each of `n` arguments. -/
def Flags (n : Nat) (v : List Bool) : Prop := ∃ p, v = vec n p

theorem flags_replicate (n : Nat) (b : Bool) : Flags n (List.replicate n b) :=
  ⟨_, replicate_eq_vec n b⟩

/-- A solver that an algorithm constructed with `n_vars` variables. -/
structure Fits (af : AF) (nVars : Nat) (solver : SatSolver) : Prop where
  mem : nVars ∈ solverSizes af
  nVars_eq : solver.nVars = nVars
  decisionVars_eq : solver.decisionVars = af.args
  model_flags : Flags af.args solver.model
  extension_lt : ∀ i ∈ solver.extension, i < af.args

section Calls

variable {af : AF} {nVars : Nat} {solver : SatSolver}

theorem fits_new (h : nVars ∈ solverSizes af) : Fits af nVars (SatSolver.new nVars af.args) where
  mem := h
  nVars_eq := rfl
  decisionVars_eq := rfl
  model_flags := flags_replicate af.args false
  extension_lt := by
    intro i hi
    obtain ⟨hn, rfl⟩ := List.mem_replicate.mp hi
    exact Nat.pos_of_ne_zero hn

theorem ValidLog.append {log : List Event} {e : Event} (h : ValidLog af log)
    (he : e.Valid af) : ValidLog af (log ++ [e]) := by
  intro e' he'
  rcases List.mem_append.mp he' with he' | he'
  · exact h e' he'
  · rw [List.mem_singleton.mp he']
    exact he

theorem safe_addClause (h : Fits af nVars solver) {clause : Clause}
    (hc : ∀ l ∈ clause, InRange nVars l) :
    Safe af (solver.addClause clause) (Fits af nVars) := by
  intro log hlog
  apply SatSolver.ensures_addClause
  refine ⟨hlog.append ?_, h.mem, h.nVars_eq, h.decisionVars_eq, h.model_flags, h.extension_lt⟩
  rw [h.nVars_eq]
  exact ⟨h.mem, hc⟩

theorem safe_addClauses (h : Fits af nVars solver) {clauses : List Clause}
    (hcs : ∀ c ∈ clauses, ∀ l ∈ c, InRange nVars l) :
    Safe af (solver.addClauses clauses) (Fits af nVars) :=
  keeps_foldlM (fun _ hsolver c hc => safe_addClause hsolver (hcs c hc)) h

theorem safe_assume (h : Fits af nVars solver) {lit : Int} (hl : InRange nVars lit) :
    Safe af (solver.assume lit) (Fits af nVars) := by
  intro log hlog
  apply SatSolver.ensures_assume
  refine ⟨hlog.append ?_, h.mem, h.nVars_eq, h.decisionVars_eq, h.model_flags, h.extension_lt⟩
  rw [h.nVars_eq]
  exact ⟨h.mem, hl⟩

theorem safe_setWeight (h : Fits af nVars solver) {lit : Int} (hl : InRange nVars lit)
    (weight : Nat) : Safe af (solver.setWeight lit weight) (Fits af nVars) := by
  intro log hlog
  apply SatSolver.ensures_setWeight
  intro soft
  refine ⟨hlog.append ?_, h.mem, h.nVars_eq, h.decisionVars_eq, h.model_flags, h.extension_lt⟩
  rw [h.nVars_eq]
  exact ⟨h.mem, hl⟩

theorem safe_solve (O : Oracle) (h : Fits af nVars solver) :
    Safe af (solver.solve O) (fun r => Fits af nVars r.2) := by
  intro log hlog
  apply SatSolver.ensures_solve_any
  · exact ⟨hlog.append trivial, h.mem, h.nVars_eq, h.decisionVars_eq, h.model_flags,
      h.extension_lt⟩
  · intro m cost
    exact ⟨hlog.append trivial, h.mem, h.nVars_eq, h.decisionVars_eq,
      ⟨fun i => m (i + 1), by rw [h.decisionVars_eq]⟩, h.extension_lt⟩

/-- What follows a solve, by verdict. -/
theorem safe_solve_cases (O : Oracle) (h : Fits af nVars solver) {α : Type}
    {f : Verdict × SatSolver → SolveM α} {Q : α → Prop}
    (hunsat : ∀ solver', Fits af nVars solver' → Safe af (f (.UNSAT_V, solver')) Q)
    (hsat : ∀ solver' p, Fits af nVars solver' → solver'.model = vec af.args p →
      Safe af (f (.SAT_V, solver')) Q) : Safe af (solver.solve O >>= f) Q := by
  apply (safe_solve O h).bind
  intro x h'
  obtain ⟨sat, solver'⟩ := x
  cases sat with
  | UNSAT_V => exact hunsat solver' h'
  | SAT_V =>
      obtain ⟨p, hp⟩ := h'.model_flags
      exact hsat solver' p h' hp

theorem safe_solveExtension (O : Oracle) (h : Fits af nVars solver) :
    Safe af (solver.solveExtension O) (fun r => Fits af nVars r.2) := by
  apply (safe_solve O h).bind
  intro x h'
  obtain ⟨sat, solver'⟩ := x
  cases sat with
  | UNSAT_V => exact keeps_pure h'
  | SAT_V =>
      refine keeps_pure ⟨h'.mem, h'.nVars_eq, h'.decisionVars_eq, h'.model_flags, ?_⟩
      intro i hi
      have hlt := List.mem_range.mp (List.mem_of_mem_filter hi)
      exact h'.decisionVars_eq ▸ hlt

theorem safe_solveAssuming (O : Oracle) (h : Fits af nVars solver) {lits : List Int}
    (hlits : ∀ l ∈ lits, InRange nVars l) :
    Safe af (solver.solveAssuming O lits) (fun r => Fits af nVars r.2) := by
  apply (keeps_foldlM (fun _ hs l hl => safe_assume hs (hlits l hl)) h).bind
  exact fun _ => safe_solve O

theorem safe_bounds {α : Type} {o : Option α} {Q : α → Prop}
    (h : ∃ a, o = some a ∧ Q a) : Safe af (bounds o) Q :=
  keeps_ofOption h

theorem safe_unsupported {α : Type} {Q : α → Prop} (sem : Semantics) :
    Safe af (unsupported sem : SolveM α) Q :=
  keeps_throw (by simp)

end Calls

/-! ## The clauses of the encodings -/

/-- The variables of the first `n` arguments lie between 1 and `N`. -/
def VarsUpTo (n N : Nat) (A : Nat → Nat) : Prop := ∀ i < n, A i ≠ 0 ∧ A i ≤ N

section Clauses

variable {n N : Nat} {A R : Nat → Nat} {attackers : List (List Nat)}

theorem VarsUpTo.pos (h : VarsUpTo n N A) {i : Nat} (hi : i < n) : InRange N (A i : Int) :=
  inRange_pos (h i hi).1 (h i hi).2

theorem VarsUpTo.neg (h : VarsUpTo n N A) {i : Nat} (hi : i < n) :
    InRange N (-(A i : Int)) :=
  inRange_neg (h i hi).1 (h i hi).2

theorem range_append {ls ks : List Int} (hls : ∀ l ∈ ls, InRange N l)
    (hks : ∀ l ∈ ks, InRange N l) : ∀ l ∈ ls ++ ks, InRange N l := by
  intro l hl
  rcases List.mem_append.mp hl with hl | hl
  · exact hls l hl
  · exact hks l hl

theorem outClause_range (hA : VarsUpTo n N A) (hR : VarsUpTo n N R) {i : Nat} (hi : i < n)
    {bs : List Nat} (hbs : ∀ b ∈ bs, b < n) : ∀ l ∈ outClause A R i bs, InRange N l := by
  simp only [outClause, List.mem_append, List.mem_map, List.mem_singleton]
  intro l h
  rcases h with ⟨b, hb, rfl⟩ | rfl
  · exact hA.pos (hbs b hb)
  · exact hR.neg hi

theorem notoutClause_range (hA : VarsUpTo n N A) (hR : VarsUpTo n N R) {i : Nat}
    (hi : i < n) {bs : List Nat} (hbs : ∀ b ∈ bs, b < n) :
    ∀ l ∈ notoutClause A R i bs, InRange N l := by
  simp only [notoutClause, List.mem_append, List.mem_map, List.mem_singleton]
  intro l h
  rcases h with ⟨b, hb, rfl⟩ | rfl
  · exact hR.neg (hbs b hb)
  · exact hA.pos hi

theorem defendClauses_range (hA : VarsUpTo n N A) (hR : VarsUpTo n N R) {i : Nat}
    (hi : i < n) {bs : List Nat} (hbs : ∀ b ∈ bs, b < n) :
    ∀ c ∈ defendClauses A R i bs, ∀ l ∈ c, InRange N l := by
  simp only [defendClauses, List.mem_map]
  intro _ h
  obtain ⟨b, hb, rfl⟩ := h
  simp [hA.neg hi, hR.pos (hbs b hb)]

theorem admissibleClauses_range (hA : VarsUpTo n N A) (hR : VarsUpTo n N R)
    (hatt : ∀ i, ∀ b ∈ row attackers i, b < n) :
    ∀ c ∈ admissibleClauses n attackers A R, ∀ l ∈ c, InRange N l := by
  simp only [admissibleClauses, List.mem_flatMap, List.mem_range]
  intro c h
  obtain ⟨i, hi, hc⟩ := h
  split at hc
  · simp only [List.mem_cons, List.not_mem_nil, or_false] at hc
    rcases hc with rfl | rfl <;> simp [hA.neg hi, hR.neg hi, hA.pos hi]
  · simp only [List.cons_append, List.mem_cons, List.mem_append, List.not_mem_nil,
      or_false] at hc
    rcases hc with rfl | hc | rfl
    · simp [hA.neg hi, hR.neg hi]
    · exact defendClauses_range hA hR hi (hatt i) c hc
    · exact outClause_range hA hR hi (hatt i)

theorem completeClauses_range {U : Nat → Nat} (hA : VarsUpTo n N A) (hR : VarsUpTo n N R)
    (hU : VarsUpTo n N U) (hatt : ∀ i, ∀ b ∈ row attackers i, b < n) :
    ∀ c ∈ completeClauses n attackers A R U, ∀ l ∈ c, InRange N l := by
  simp only [completeClauses, List.mem_flatMap, List.mem_range, List.mem_append]
  intro c h
  obtain ⟨i, hi, hc | hc⟩ := h
  · simp only [List.mem_cons, List.not_mem_nil, or_false] at hc
    rcases hc with rfl | rfl | rfl | rfl <;>
      simp [hA.neg hi, hR.neg hi, hU.neg hi, hA.pos hi, hR.pos hi, hU.pos hi]
  · split at hc
    · rw [List.mem_singleton.mp hc]
      simp [hA.pos hi]
    · simp only [List.mem_append, List.mem_cons, List.not_mem_nil, or_false] at hc
      rcases hc with hc | rfl | rfl
      · exact defendClauses_range hA hR hi (hatt i) c hc
      · exact outClause_range hA hR hi (hatt i)
      · exact notoutClause_range hA hR hi (hatt i)

theorem completePerfClauses_range (hA : VarsUpTo n N A) (hR : VarsUpTo n N R)
    (hatt : ∀ i, ∀ b ∈ row attackers i, b < n) :
    ∀ c ∈ completePerfClauses n attackers A R, ∀ l ∈ c, InRange N l := by
  simp only [completePerfClauses, List.mem_flatMap, List.mem_range]
  intro c h
  obtain ⟨i, hi, hc⟩ := h
  split at hc
  · simp only [List.mem_cons, List.not_mem_nil, or_false] at hc
    rcases hc with rfl | rfl <;> simp [hA.neg hi, hR.neg hi, hA.pos hi]
  · simp only [List.cons_append, List.mem_cons, List.mem_append, List.mem_flatMap,
      List.not_mem_nil, or_false] at hc
    rcases hc with rfl | ⟨b, hb, rfl | rfl⟩ | rfl | rfl
    · simp [hA.neg hi, hR.neg hi]
    · simp [hA.neg hi, hR.pos (hatt i b hb)]
    · simp [hA.neg (hatt i b hb), hR.pos hi]
    · exact outClause_range hA hR hi (hatt i)
    · exact notoutClause_range hA hR hi (hatt i)

theorem stableClauses_range (hA : VarsUpTo n N A) (hR : VarsUpTo n N R)
    (hatt : ∀ i, ∀ b ∈ row attackers i, b < n) :
    ∀ c ∈ stableClauses n attackers A R, ∀ l ∈ c, InRange N l := by
  simp only [stableClauses, List.mem_flatMap, List.mem_range, List.mem_append]
  intro c h
  obtain ⟨i, hi, hc | hc⟩ := h
  · simp only [List.mem_cons, List.not_mem_nil, or_false] at hc
    rcases hc with rfl | rfl <;> simp [hA.neg hi, hR.neg hi, hA.pos hi, hR.pos hi]
  · split at hc
    · rw [List.mem_singleton.mp hc]
      simp [hA.pos hi]
    · simp only [List.mem_append, List.mem_cons, List.not_mem_nil, or_false] at hc
      rcases hc with hc | rfl | rfl
      · exact defendClauses_range hA hR hi (hatt i) c hc
      · exact outClause_range hA hR hi (hatt i)
      · exact notoutClause_range hA hR hi (hatt i)

theorem accVar_upTo (hN : 2 * n ≤ N) : VarsUpTo n N accVar := by
  intro i hi
  simp only [accVar]
  omega

theorem rejVar_upTo (hN : 2 * n ≤ N) : VarsUpTo n N (rejVar n) := by
  intro i hi
  simp only [rejVar]
  omega

theorem undVar_upTo (hN : 3 * n ≤ N) : VarsUpTo n N (undVar n) := by
  intro i hi
  simp only [undVar]
  omega

theorem shiftedAccVar_upTo (hN : 4 * n ≤ N) : VarsUpTo n N (shiftedAccVar n) := by
  intro i hi
  simp only [shiftedAccVar, accVar]
  omega

theorem shiftedRejVar_upTo (hN : 4 * n ≤ N) : VarsUpTo n N (shiftedRejVar n) := by
  intro i hi
  simp only [shiftedRejVar, rejVar]
  omega

/-- The attack variables follow the two copies of the argument variables. -/
theorem attacksClauses_range (hatt : ∀ i, ∀ b ∈ row attackers i, b < n)
    (hN : 4 * n + (attackPairs attackers (List.range n)).length ≤ N) :
    ∀ c ∈ attacksClauses n attackers, ∀ l ∈ c, InRange N l := by
  have hacc : VarsUpTo n N accVar := accVar_upTo (by omega)
  have hshift : VarsUpTo n N (shiftedAccVar n) := shiftedAccVar_upTo (by omega)
  have hvar : VarsUpTo (attackPairs attackers (List.range n)).length N (attackVar n) := by
    intro k hk
    simp only [attackVar]
    omega
  simp only [attacksClauses, attackDefinitions, List.mem_append, List.mem_flatMap,
    List.mem_singleton]
  intro c h
  rcases h with ⟨⟨⟨b, i⟩, k⟩, hmem, hc⟩ | rfl
  · have hk : k < (attackPairs attackers (List.range n)).length := (List.mem_zipIdx' hmem).1
    have hpair : (b, i) ∈ attackPairs attackers (List.range n) :=
      List.fst_mem_of_mem_zipIdx hmem
    obtain ⟨hi, hb⟩ := mem_attackPairs.mp hpair
    simp only [attackDefinition, List.mem_cons, List.not_mem_nil, or_false] at hc
    rcases hc with rfl | rfl | rfl <;>
      simp only [List.mem_cons, List.not_mem_nil, or_false, forall_eq_or_imp, forall_eq]
    · exact ⟨hvar.neg hk, hacc.pos (hatt i b hb)⟩
    · exact ⟨hvar.neg hk, hshift.pos hi⟩
    · exact ⟨hvar.pos hk, hshift.neg hi, hacc.neg (hatt i b hb)⟩
  · simp only [List.mem_map, List.mem_range]
    intro _ h
    obtain ⟨k, hk, rfl⟩ := h
    exact hvar.pos hk

/-- The literals that a loop over the arguments collects. -/
theorem VarsUpTo.picks (h : VarsUpTo n N A) (p : Nat → Bool) :
    ∀ l ∈ picks n p (fun i => (A i : Int)), InRange N l := by
  intro l hl
  obtain ⟨i, hi, -, rfl⟩ := mem_picks.mp hl
  exact h.pos hi

theorem VarsUpTo.picks_neg (h : VarsUpTo n N A) (p : Nat → Bool) :
    ∀ l ∈ Imperative.picks n p (fun i => -(A i : Int)), InRange N l := by
  intro l hl
  obtain ⟨i, hi, -, rfl⟩ := mem_picks.mp hl
  exact h.neg hi

end Clauses

end AcceptableArguments
