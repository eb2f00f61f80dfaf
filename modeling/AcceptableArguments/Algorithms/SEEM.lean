import AcceptableArguments.Algorithms.Common
import Mathlib.Order.CompletePartialOrder

/-!
# SEEM: selective enumeration with a MaxSAT solver

The soft literals make each answer cover as many open arguments as possible. The
search stops when the optimal cost shows that no open argument can be covered.
-/

namespace AcceptableArguments.Algorithms

open AcceptableArguments.Sat Imperative Argumentation Encodings SolverInterface MaxSatInterface

section Definitions

variable {Lib σ S : Type} [MaxSatInterface Lib σ S] (lib : Lib)

/-! ## Credulous acceptance -/

/-- The locals of the loop of `seem_cred`. -/
structure SeemCredState where
  result : List String
  included : List Bool
  unvisited : List Bool

/-- One step of the loop that adds the soft constraints in `seem_cred`. -/
def seemCredSoftStep (af : AF) (unvisited : List Bool) (st : S × Nat) (i : Nat) :
    Run Fault σ (S × Nat) := do
  if ← bounds unvisited[i]? then
    let solver ← addSoftConstraint lib st.1 (-(← bounds af.acceptedVar[i]?))
    return (solver, st.2 + 1)
  else
    return st

/-- One step of the scan over the model in `seem_cred`. -/
def seemCredStep (af : AF) (model : List Bool) (st : SeemCredState) (i : Nat) :
    Option SeemCredState := do
  if ← model[i]? then
    if ← st.included[i]? then
      return { st with unvisited := ← setAt st.unvisited i false }
    else
      return ⟨st.result ++ [← af.intToArg[i]?], ← setAt st.included i true,
        ← setAt st.unvisited i false⟩
  else
    return st

/-- A round of the loop of `seem_cred`, with a solver of its own. -/
def seemCredRound (perfEnc : Bool) (af : AF) (sem : Semantics)
    (st : SeemCredState) : Run Fault σ (SeemCredState ⊕ List String) := do
  let solver := new lib af.count af.args
  let solver ← addClauses lib solver (← encodeCred perfEnc af sem)
  let (solver, maxWeight) ←
    (List.range af.args).foldlM (seemCredSoftStep lib af st.unvisited) (solver, 0)
  let (sat, solver) ← solve lib solver
  if sat = .UNSAT_V ∨ optimalCost lib solver ≥ maxWeight then
    return .inr st.result
  else
    let st ← bounds ((List.range af.args).foldlM (seemCredStep af (model lib solver)) st)
    return .inl st

/-- `Algorithms::seem_cred`. -/
def seemCred (perfEnc : Bool) (af : AF) (sem : Semantics) (fuel : Nat) :
    Run Fault σ (List String) := do
  if sem = .CO ∨ sem = .PR ∨ sem = .ST then
    whileTrue (seemCredRound lib perfEnc af sem) fuel
      ⟨[], List.replicate af.args false, List.replicate af.args true⟩
  else
    unsupported sem

/-! ## Skeptical acceptance -/

/-- One step of the loop that updates the soft constraints in `seem_skep`. -/
def seemSkepSoftStep (af : AF) (included : List Bool) (st : S × Nat) (i : Nat) :
    Run Fault σ (S × Nat) := do
  if ← bounds included[i]? then
    let solver ← addSoftConstraint lib st.1 (-(← bounds af.rejectedVar[i]?))
    return (solver, st.2 + 1)
  else
    let solver ← disableSoftConstraint lib st.1 (-(← bounds af.rejectedVar[i]?))
    return (solver, st.2)

/-- `included[i] = included[i] && solver.model[i];` -/
def seemSkepStep (model : List Bool) (included : List Bool) (i : Nat) :
    Option (List Bool) := do
  setAt included i ((← included[i]?) && (← model[i]?))

/-- A round of the loop of `seem_skep`. -/
def seemSkepRound (af : AF) (st : S × List Bool) : Run Fault σ ((S × List Bool) ⊕ List Bool) := do
  let (solver, maxWeight) ←
    (List.range af.args).foldlM (seemSkepSoftStep lib af st.2) (st.1, 0)
  let (sat, solver) ← solve lib solver
  if sat = .UNSAT_V ∨ optimalCost lib solver ≥ maxWeight then
    return .inr st.2
  else
    let included ← bounds ((List.range af.args).foldlM (seemSkepStep (model lib solver)) st.2)
    return .inl (solver, included)

/-- `Algorithms::seem_skep`. -/
def seemSkep (af : AF) (sem : Semantics) (fuel : Nat) : Run Fault σ (List String) := do
  if sem ≠ .ST then
    unsupported sem
  else
    let solver := new lib af.count af.args
    let solver ← addClauses lib solver (← bounds (Encodings.stable af))
    let included ← whileTrue (seemSkepRound lib af) fuel (solver, List.replicate af.args true)
    bounds (includedNames af included)

end Definitions

/-! ## The scans over a model -/

/-- The result grows by the members of the model that are new. -/
theorem seemCredStep_scan {perfEnc : Bool} {af : AF} (h : AF.Ready perfEnc af)
    (result : List String) (p q u : Nat → Bool) :
    (List.range af.args).foldlM (seemCredStep af (vec af.args p))
        ⟨result, vec af.args q, vec af.args u⟩ =
      some ⟨result ++ picks af.args (fun i => p i && !q i) af.name,
        vec af.args (fun i => q i || p i), vec af.args (fun i => u i && !p i)⟩ := by
  have hscan := foldlM_range (n := af.args) (f := seemCredStep af (vec af.args p))
    (fun k => ⟨result ++ picks k (fun i => p i && !q i) af.name,
      updated af.args k (fun i => q i || p i) q,
      updated af.args k (fun i => u i && !p i) u⟩) ?_
  · simp only [updated_zero, updated_all, picks_zero, List.append_nil] at hscan
    exact hscan
  · intro k hk
    simp only [seemCredStep, vec_get p hk, updated_get _ q hk, picks_succ, h.intToArg_get hk,
      Option.bind_eq_bind, Option.bind_some, Option.pure_def]
    cases hp : p k <;> cases hq : q k
    · simp [updated_succ_of_eq, hp]
    · simp [updated_succ_of_eq, hp, hq]
    · simp [setAt_updated hk, hp]
    · simp [updated_succ_of_eq, setAt_updated hk, hp, hq]

theorem seemSkepStep_scan (n : Nat) (p q : Nat → Bool) :
    (List.range n).foldlM (seemSkepStep (vec n p)) (vec n q) =
      some (vec n (fun i => q i && p i)) := by
  have hscan := foldlM_range (n := n) (f := seemSkepStep (vec n p))
    (fun k => updated n k (fun i => q i && p i) q) ?_
  · rwa [updated_zero, updated_all] at hscan
  · intro k hk
    simp only [seemSkepStep, vec_get p hk, updated_get _ q hk, setAt_updated hk rfl,
      Option.bind_eq_bind, Option.bind_some]

/-! ## The loops over the soft literals -/

theorem filter_ne_picks {k : Nat} {q : Nat → Bool} {f : Nat → Int}
    (hf : ∀ i < k, f i ≠ f k) : (picks k q f).filter (· ≠ f k) = picks k q f := by
  apply List.filter_eq_self.mpr
  intro l hl
  obtain ⟨i, hi, -, rfl⟩ := mem_picks.mp hl
  exact decide_eq_true (hf i hi)

/-- The soft literals after the first `k` have been declared again. -/
def redeclared (old : List Int) (q : Nat → Bool) (f : Nat → Int) (k : Nat) : List Int :=
  old.filter (fun l => decide (l ∉ (List.range k).map f)) ++ picks k q f

/-- Forgetting one more literal leaves those declared in this loop. -/
theorem filter_ne_redeclared {old : List Int} {q : Nat → Bool} {f : Nat → Int} {k : Nat}
    (hf : ∀ i < k, f i ≠ f k) :
    (redeclared old q f k).filter (· ≠ f k) =
      old.filter (fun l => decide (l ∉ (List.range (k + 1)).map f)) ++ picks k q f := by
  rw [redeclared, List.filter_append, filter_ne_picks hf, List.filter_filter]
  congr 1
  apply List.filter_congr
  intro l _
  simp only [List.range_succ, List.map_append, List.mem_append, List.map_cons, List.map_nil,
    List.mem_singleton, not_or, ne_eq, Bool.decide_and, Bool.and_comm]

theorem redeclared_all {old : List Int} {q : Nat → Bool} {f : Nat → Int} {n : Nat}
    (hold : ∀ l ∈ old, ∃ i < n, l = f i) : redeclared old q f n = picks n q f := by
  have hnone : old.filter (fun l => decide (l ∉ (List.range n).map f)) = [] := by
    apply List.filter_eq_nil_iff.mpr
    intro l hl
    obtain ⟨i, hi, rfl⟩ := hold l hl
    simpa using ⟨i, hi, rfl⟩
  rw [redeclared, hnone, List.nil_append]

section Scans

variable {perfEnc : Bool} {af : AF} (h : AF.Ready perfEnc af) {w : List Event}
  {E : Halt Fault → List Event → Prop} {solver : SatSolver}
  {Q : SatSolver × Nat → List Event → Prop}

include h

/-- A fresh solver gets one soft literal per unvisited argument. -/
theorem seemCredSoftStep_scan (O : Oracle) (hsoft : solver.soft = []) (u : Nat → Bool)
    (hQ : ∀ w', Q ({ solver with
        soft := units (picks af.args u (fun i => -(accVar i : Int))) },
      (picks af.args u (fun i => -(accVar i : Int))).length) w') :
    Ensures ((List.range af.args).foldlM (seemCredSoftStep O af (vec af.args u)) (solver, 0)) w
      Q E := by
  refine (ensures_foldlM_range (fun k st _ => st =
    ({ solver with soft := units (picks k u (fun i => -(accVar i : Int))) },
      (picks k u (fun i => -(accVar i : Int))).length)) af.args ?_ ?_).post ?_
  · intro k hk _ w' heq
    subst heq
    have hne : ∀ i < k, -(accVar i : Int) ≠ -(accVar k : Int) := by
      intro i hi
      simp only [accVar]
      omega
    simp only [seemCredSoftStep, vec_get u hk, h.acceptedVar_get hk, bounds,
      Run.ofOption_some, Run.pure_bind, picks_succ]
    cases hu : u k
    · apply ensures_pure
      simp
    · apply ensures_bind
      apply SatSolver.ensures_setWeight_declare
      apply ensures_pure
      simp only [declare_units_one, filter_ne_picks hne]
      simp
  · simp [← hsoft]
  · intro _ w' heq
    subst heq
    exact hQ w'

/-- On a reused solver the loop replaces the soft literals of the previous round. -/
theorem seemSkepSoftStep_scan (O : Oracle) {old : List Int}
    (hsoft : solver.soft = units old)
    (hold : ∀ l ∈ old, ∃ i < af.args, l = -(rejVar af.args i : Int)) (q : Nat → Bool)
    (hQ : ∀ w', Q ({ solver with
        soft := units (picks af.args q (fun i => -(rejVar af.args i : Int))) },
      (picks af.args q (fun i => -(rejVar af.args i : Int))).length) w') :
    Ensures ((List.range af.args).foldlM (seemSkepSoftStep O af (vec af.args q)) (solver, 0)) w
      Q E := by
  set f : Nat → Int := fun i => -(rejVar af.args i : Int) with hf
  refine (ensures_foldlM_range (fun k st _ => st =
    ({ solver with soft := units (redeclared old q f k) }, (picks k q f).length))
    af.args ?_ ?_).post ?_
  · intro k hk _ w' heq
    subst heq
    have hne : ∀ i < k, f i ≠ f k := by
      intro i hi
      simp only [hf, rejVar]
      omega
    have hlit : -(rejVar af.args k : Int) = f k := rfl
    simp only [seemSkepSoftStep, vec_get q hk, h.rejectedVar_get hk, bounds,
      Run.ofOption_some, Run.pure_bind, picks_succ, hlit]
    cases hq : q k
    · apply ensures_bind
      apply SatSolver.ensures_setWeight_declare
      apply ensures_pure
      simp only [declare_units_zero, filter_ne_redeclared hne]
      simp [redeclared, picks_succ, hq]
    · apply ensures_bind
      apply SatSolver.ensures_setWeight_declare
      apply ensures_pure
      simp only [declare_units_one, filter_ne_redeclared hne]
      simp [redeclared, picks_succ, hq]
  · simp [redeclared, ← hsoft]
  · intro _ w' heq
    subst heq
    rw [redeclared_all hold]
    exact hQ w'

end Scans

/-! ## What an optimal answer says -/

/-- All negated acceptance literals of the unmarked arguments are true when only marked
ones are accepted. -/
theorem allHold_neg_unmarked {n : Nat} {q : Nat → Bool} {m : Assignment} :
    AllHold m (picks n (fun i => !q i) (fun i => -(accVar i : Int))) ↔
      labelled n accVar m ⊆ toSet n q := by
  rw [allHold_picks]
  constructor
  · intro hopen i hi
    by_contra hnot
    exact (litHolds_neg_accVar i).mp (hopen i (by simpa using hnot)) hi
  · intro hsub i hi
    rw [litHolds_neg_accVar]
    intro him
    have hiq := hsub him
    simp only [mem_toSet, Bool.not_eq_true'] at hi hiq
    rw [hi] at hiq
    cases hiq

/-- All negated rejection literals of a set are true when the set is accepted. -/
theorem allHold_neg_rejLits {n : Nat} {p : Nat → Bool} {m : Assignment}
    (hm : labelled n (rejVar n) m = (labelled n accVar m)ᶜ) :
    AllHold m (picks n p (fun i => -(rejVar n i : Int))) ↔
      toSet n p ⊆ labelled n accVar m := by
  simp only [allHold_picks, litHolds_neg_rejVar hm]
  rfl

/-- Soft literals do not change what is searched. -/
theorem Searches.withSoft {n : Nat} {G A : Set (Set (Fin n))} {solver : SatSolver}
    (h : Searches n G A solver) (soft : List (Int × Nat)) :
    Searches n G A { solver with soft := soft } :=
  ⟨h.decisionVars_eq, h.family_eq, h.assumptions_iff⟩

/-- One answer over soft literals of weight one that are all true exactly for the sets
with `D`. An optimum that reaches their number leaves them true in every model; below
it the model found violates `D`. -/
theorem Searches.ensures_solve_optimal {O : Oracle} (hO : O.Optimal) {n : Nat}
    {G : Set (Set (Fin n))} {solver : SatSolver} (h : Searches n G Set.univ solver)
    {lits : List Int} (hsoft : solver.soft = units lits) {D : Set (Fin n) → Prop}
    (hlits : ∀ m, Satisfies m solver.clauses → (AllHold m lits ↔ D (labelled n accVar m)))
    {w : List Event} {E : Halt Fault → List Event → Prop}
    {Q : Verdict × SatSolver → List Event → Prop}
    (hunsat : (∀ S, S ∉ G) → ∀ solver' w', Q (.UNSAT_V, solver') w')
    (hstop : (∀ S ∈ G, D S) → ∀ solver' w', lits.length ≤ solver'.optimalCost →
      Q (.SAT_V, solver') w')
    (hsat : ∀ p, toSet n p ∈ G → ¬ D (toSet n p) → ∀ solver' w',
      ¬ lits.length ≤ solver'.optimalCost → Searches n G Set.univ solver' →
      solver'.clauses = solver.clauses → solver'.soft = units lits →
      solver'.model = vec n p → Q (.SAT_V, solver') w') :
    Ensures (solver.solve O) w Q E := by
  have hmodel : ∀ m, solver.query.Model m ↔ Satisfies m solver.clauses := fun m =>
    and_iff_left ((h.assumptions_iff m).mpr trivial)
  apply SatSolver.ensures_solve_optimal hO
  · intro hno w'
    apply hunsat
    intro S hS
    rw [← h.family_eq] at hS
    obtain ⟨m, hm, -⟩ := hS
    exact hno ⟨m, (hmodel m).mpr hm⟩
  · intro m hm hopt w'
    rw [hsoft] at hopt ⊢
    have hm := (hmodel m).mp hm
    by_cases hreach : lits.length ≤ cost m (units lits)
    · refine hstop ?_ _ w' hreach
      rw [← h.family_eq]
      intro _ hx
      obtain ⟨m', hm', rfl⟩ := hx
      have hcost : lits.length ≤ cost m' (units lits) := by
        calc
          lits.length ≤ cost m (units lits) := hreach
          _ ≤ cost m' (units lits) := hopt m' ((hmodel m').mpr hm')
      exact (hlits m' hm').mp ((length_le_cost_units m' lits).mp hcost)
    · refine hsat (fun i => m (i + 1)) ?_ ?_ _ w' hreach ?_ rfl rfl ?_
      · rw [← h.family_eq]
        exact labelled_mem_family hm
      · intro hD
        exact hreach ((length_le_cost_units m lits).mpr ((hlits m hm).mpr hD))
      · exact ⟨h.decisionVars_eq, h.family_eq, by simp⟩
      · simp only [h.decisionVars_eq]

section Correctness

variable {perfEnc : Bool} {af : AF} {O : Oracle} {w : List Event}

/-! ## Correctness of the credulous search -/

/-- The loop head of `seem_cred`: the included arguments are those visited, and each of
them occurs in an accepted set. -/
structure SeemCredInv (af : AF) (F : Set (Set (Fin af.args))) (q : Nat → Bool)
    (st : SeemCredState) : Prop where
  included_eq : st.included = vec af.args q
  unvisited_eq : st.unvisited = vec af.args (fun i => !q i)
  occurs : toSet af.args q ⊆ ⋃₀ F
  reports : Reports af (toSet af.args q) st.result

/-- The search is over once every member of an accepted set is included. -/
theorem SeemCredInv.reports_all {F : Set (Set (Fin af.args))} {q : Nat → Bool}
    {st : SeemCredState} (hinv : SeemCredInv af F q st)
    (hall : ∀ S ∈ F, S ⊆ toSet af.args q) : Reports af (⋃₀ F) st.result := by
  have heq : ⋃₀ F = toSet af.args q := (Set.sUnion_subset hall).antisymm hinv.occurs
  rw [heq]
  exact hinv.reports

/-- A model with an argument that was not included yet. -/
theorem SeemCredInv.extend {F : Set (Set (Fin af.args))} {q p : Nat → Bool}
    {st : SeemCredState} (hinv : SeemCredInv af F q st) (hp : toSet af.args p ∈ F) :
    SeemCredInv af F (fun i => q i || p i)
      ⟨st.result ++ picks af.args (fun i => p i && !q i) af.name,
        vec af.args (fun i => q i || p i), vec af.args (fun i => !q i && !p i)⟩ := by
  refine ⟨rfl, by simp, ?_, ?_⟩
  · rw [toSet_or]
    exact Set.union_subset hinv.occurs (Set.subset_sUnion_of_mem hp)
  · rw [toSet_or]
    apply hinv.reports.append_new
    simp

theorem seemCredRound_ensures (h : AF.Ready perfEnc af) (hO : O.Optimal) {sem : Semantics}
    {cs : List Clause} (hcs : (encodeCred perfEnc af sem : SolveM _) = pure cs) {q : Nat → Bool}
    {st : SeemCredState} (hinv : SeemCredInv af (family af.args cs) q st) :
    Ensures (seemCredRound O perfEnc af sem st) w (fun x _ => match x with
      | .inl st' => ∃ q', SeemCredInv af (family af.args cs) q' st' ∧
          toSet af.args q ⊂ toSet af.args q'
      | .inr r => Reports af (⋃₀ family af.args cs) r) (fun _ _ => False) := by
  obtain ⟨result, included, unvisited⟩ := st
  have hincluded : included = vec af.args q := hinv.included_eq
  have hunvisited : unvisited = vec af.args (fun i => !q i) := hinv.unvisited_eq
  subst hincluded hunvisited
  unfold seemCredRound
  rw [hcs, Run.pure_bind]
  apply ensures_bind
  apply SatSolver.ensures_addClauses
  apply ensures_bind
  apply seemCredSoftStep_scan h O rfl
  intro w'
  have hstart := searches_encoded (n := af.args) af.count cs
  have hsearch := Searches.withSoft hstart
    (units (picks af.args (fun i => !q i) (fun i => -(accVar i : Int))))
  apply ensures_bind
  apply hsearch.ensures_solve_optimal (D := fun S => S ⊆ toSet af.args q) hO rfl
    (fun m _ => allHold_neg_unmarked)
  · intro hno solver' w''
    apply ensures_pure
    exact hinv.reports_all fun S hS => (hno S hS).elim
  · intro hall solver' w'' hreach
    simp only [Oracle.optimalCost_eq, ge_iff_le, hreach, or_true, if_true]
    apply ensures_pure
    exact hinv.reports_all hall
  · intro p hp hnew solver' w'' hreach _ _ _ hmodel'
    simp only [reduceCtorEq, Oracle.optimalCost_eq, ge_iff_le, hreach, or_self, if_false,
      Oracle.model_eq, hmodel', seemCredStep_scan h, bounds, Run.ofOption_some, Run.pure_bind]
    apply ensures_pure
    refine ⟨_, hinv.extend hp, ?_, ?_⟩
    · intro i hi
      simp only [mem_toSet] at hi ⊢
      simp [hi]
    · intro hsub
      apply hnew
      intro i hi
      apply hsub
      simp only [mem_toSet] at hi ⊢
      simp [hi]

/-- Before the first round. -/
theorem seemCredInv_start (af : AF) (F : Set (Set (Fin af.args))) :
    SeemCredInv af F (fun _ => false)
      ⟨[], List.replicate af.args false, List.replicate af.args true⟩ where
  included_eq := replicate_eq_vec _ _
  unvisited_eq := replicate_eq_vec _ _
  occurs := by simp [toSet]
  reports := by simpa [toSet] using reports_nil af

/-- Every round that continues includes a further argument, so the loop ends. -/
theorem seemCred_ensures (h : AF.Ready perfEnc af) (hO : O.Optimal) {sem : Semantics}
    (hsem : sem = .CO ∨ sem = .PR ∨ sem = .ST) {fuel : Nat} (hfuel : af.args < fuel) :
    Ensures (seemCred O perfEnc af sem fuel) w
      (fun r _ => Reports af (⋃₀ sem.extensions af.att) r) (fun _ _ => False) := by
  obtain ⟨cs, hcs, hunion⟩ := encodeCred_members h hsem
  unfold seemCred
  rw [if_pos hsem, ← hunion]
  have hcard : (toSet af.args (fun _ => false))ᶜ.ncard = af.args := by
    simp [toSet, Set.ncard_univ]
  refine ensures_whileTrue (fun k st _ => ∃ q, SeemCredInv af (family af.args cs) q st ∧
    (toSet af.args q)ᶜ.ncard = k) _ ?_ ⟨_, seemCredInv_start af _, hcard⟩ hfuel
  intro k st w' hInv
  obtain ⟨q, hinv, rfl⟩ := hInv
  apply (seemCredRound_ensures h hO hcs hinv).post
  intro x w'' hx
  rcases x with st' | r
  · obtain ⟨q', hinv', hlt⟩ := hx
    exact ⟨_, Set.ncard_lt_ncard (compl_lt_compl_iff_lt.mpr hlt) (Set.toFinite _), q', hinv',
      rfl⟩
  · exact hx

/-! ## Correctness of the skeptical search -/

/-- The loop head of `seem_skep`: the solver searches the stable sets, its soft literals
are those of some earlier round, and every argument that is no longer included is
missing from some stable set. -/
structure SeemSkepInv (af : AF) (F : Set (Set (Fin af.args))) (q : Nat → Bool)
    (st : SatSolver × List Bool) : Prop where
  searches : Searches af.args F Set.univ st.1
  dual : ∀ m, Satisfies m st.1.clauses →
    labelled af.args (rejVar af.args) m = (labelled af.args accVar m)ᶜ
  soft_eq : ∃ old, st.1.soft = units old ∧
    ∀ l ∈ old, ∃ i < af.args, l = -(rejVar af.args i : Int)
  included_eq : st.2 = vec af.args q
  missing : ∀ i : Fin af.args, i ∉ toSet af.args q → ∃ S ∈ F, i ∉ S

theorem seemSkepRound_ensures (h : AF.Ready perfEnc af) (hO : O.Optimal)
    {F : Set (Set (Fin af.args))} {q : Nat → Bool} {st : SatSolver × List Bool}
    (hinv : SeemSkepInv af F q st) :
    Ensures (seemSkepRound O af st) w (fun x _ => match x with
      | .inl st' => ∃ q', SeemSkepInv af F q' st' ∧ toSet af.args q' ⊂ toSet af.args q
      | .inr included => ∃ q, included = vec af.args q ∧ toSet af.args q = ⋂₀ F)
      (fun _ _ => False) := by
  obtain ⟨solver, included⟩ := st
  have hincluded : included = vec af.args q := hinv.included_eq
  subst hincluded
  obtain ⟨old, hsoft, hold⟩ := hinv.soft_eq
  unfold seemSkepRound
  apply ensures_bind
  apply seemSkepSoftStep_scan h O hsoft hold
  intro w'
  have hsearch := hinv.searches.withSoft
    (units (picks af.args q (fun i => -(rejVar af.args i : Int))))
  apply ensures_bind
  apply hsearch.ensures_solve_optimal (D := fun S => toSet af.args q ⊆ S) hO rfl
    (fun m hm => allHold_neg_rejLits (hinv.dual m hm))
  · intro hno solver' w''
    apply ensures_pure
    exact ⟨q, rfl, eq_sInter_of_missing hinv.missing fun S hS => (hno S hS).elim⟩
  · intro hall solver' w'' hreach
    simp only [Oracle.optimalCost_eq, ge_iff_le, hreach, or_true, if_true]
    apply ensures_pure
    exact ⟨q, rfl, eq_sInter_of_missing hinv.missing hall⟩
  · intro p hp hnew solver' w'' hreach hsearch' hclauses hsoft' hmodel'
    simp only [reduceCtorEq, Oracle.optimalCost_eq, ge_iff_le, hreach, or_self, if_false,
      Oracle.model_eq, hmodel', seemSkepStep_scan, bounds, Run.ofOption_some, Run.pure_bind]
    apply ensures_pure
    refine ⟨fun i => q i && p i,
      ⟨hsearch', ?_, ⟨_, hsoft', ?_⟩, rfl, missing_meet hinv.missing hp⟩,
      toSet_and_subset_left q p, ?_⟩
    · rw [hclauses]
      exact hinv.dual
    · intro l hl
      obtain ⟨i, hi, -, rfl⟩ := mem_picks.mp hl
      exact ⟨i, hi, rfl⟩
    · intro hsub
      apply hnew
      exact hsub.trans (toSet_and_subset_right q p)

/-- Before the first round. -/
theorem seemSkepInv_start {cs : List Clause} (hfam : family af.args cs = {S | Stable af.att S})
    (hdual : ∀ m, Satisfies m cs →
      labelled af.args (rejVar af.args) m = (labelled af.args accVar m)ᶜ) :
    SeemSkepInv af {S | Stable af.att S} (fun _ => true)
      ({ SatSolver.new af.count af.args with
        clauses := (SatSolver.new af.count af.args).clauses ++ cs },
        List.replicate af.args true) where
  searches := by simpa [hfam] using searches_encoded (n := af.args) af.count cs
  dual := by simpa [SatSolver.new] using hdual
  soft_eq := ⟨[], rfl, by simp⟩
  included_eq := replicate_eq_vec _ _
  missing := by simp

/-- Every round that continues excludes an argument, so the loop ends. -/
theorem seemSkep_ensures (h : AF.Ready perfEnc af) (hO : O.Optimal) {fuel : Nat}
    (hfuel : af.args < fuel) :
    Ensures (seemSkep O af .ST fuel) w
      (fun r _ => r = namesOf af (⋂₀ {S | Stable af.att S})) (fun _ _ => False) := by
  obtain ⟨cs, hcs, hfam, hdual⟩ := stable_spec h
  unfold seemSkep
  simp only [ne_eq, not_true_eq_false, if_false, hcs, bounds, Run.ofOption_some, Run.pure_bind]
  apply ensures_bind
  apply SatSolver.ensures_addClauses
  have hcard : (toSet af.args (fun _ => true)).ncard = af.args := by
    simp [toSet, Set.ncard_univ]
  apply ensures_bind
  refine (ensures_whileTrue (fun k st _ => ∃ q, SeemSkepInv af {S | Stable af.att S} q st ∧
      (toSet af.args q).ncard = k)
    (fun included _ => ∃ q, included = vec af.args q ∧
      toSet af.args q = ⋂₀ {S | Stable af.att S}) ?_
    ⟨_, seemSkepInv_start hfam hdual, hcard⟩ hfuel).post ?_
  · intro k st w' hInv
    obtain ⟨q, hinv, rfl⟩ := hInv
    apply (seemSkepRound_ensures h hO hinv).post
    intro x w'' hx
    rcases x with st' | included
    · obtain ⟨q', hinv', hlt⟩ := hx
      exact ⟨_, Set.ncard_lt_ncard hlt (Set.toFinite _), q', hinv', rfl⟩
    · exact hx
  · intro included w' hy
    obtain ⟨q, rfl, hq⟩ := hy
    exact ensures_bounds (includedNames_sInter h hq) rfl

end Correctness

/-- With a MaxSAT solver that keeps the contract of IPAMIR, `seem_cred` terminates and
reports each argument of some extension once. -/
theorem seem_cred_reports_members (perfEnc : Bool) (names : List String)
    (atts : List (String × String)) (hnames : names.Nodup) (sem : Semantics)
    (hsem : sem = .CO ∨ sem = .PR ∨ sem = .ST) (O : Oracle) (hO : O.Optimal) :
    ∃ af, AF.build perfEnc names atts = some af ∧
      ∀ fuel > af.args, ∀ log, ∃ result log',
        seemCred O perfEnc af sem fuel log = (.ok result, log') ∧ result.Nodup ∧
        ∀ s, s ∈ result ↔ s ∈ namesOf af (⋃₀ sem.extensions af.att) := by
  obtain ⟨af, haf, hready, hnames', -⟩ := AF.build_spec perfEnc names atts
  refine ⟨af, haf, ?_⟩
  intro fuel hfuel log
  obtain ⟨result, log', hrun, hrep⟩ :=
    (seemCred_ensures (w := log) hready hO hsem hfuel).exists_ok
  exact ⟨result, log', hrun, hrep.nodup hready (hnames' ▸ hnames), hrep.mem_iff⟩

theorem seem_cred_reports_members_mutual :
    ∃ af, AF.build true ["a", "b"] [("a", "b"), ("b", "a")] = some af ∧
      ∀ fuel > af.args, ∀ log, ∃ result log',
        seemCred Oracle.cheapest true af .CO fuel log = (.ok result, log') ∧ result.Nodup ∧
        ∀ s, s ∈ result ↔ s ∈ namesOf af (⋃₀ Semantics.CO.extensions af.att) :=
  seem_cred_reports_members true ["a", "b"] [("a", "b"), ("b", "a")] (by decide) .CO
    (Or.inl rfl) Oracle.cheapest Oracle.cheapest_optimal

/-- With a MaxSAT solver that keeps the contract of IPAMIR over repeated solves on one
instance, `seem_skep` under ST terminates and reports the intersection of the stable
extensions in index order: all arguments when there is none. -/
theorem seem_skep_stable (perfEnc : Bool) (names : List String)
    (atts : List (String × String)) (hnames : names.Nodup) (O : Oracle) (hO : O.Optimal) :
    ∃ af, AF.build perfEnc names atts = some af ∧
      ∀ fuel > af.args, ∀ log, ∃ result log',
        seemSkep O af .ST fuel log = (.ok result, log') ∧
        result = namesOf af (⋂₀ {S | Stable af.att S}) ∧ result.Nodup ∧
        ((¬ ∃ S, Stable af.att S) → result = names) := by
  obtain ⟨af, haf, hready, hnames', -⟩ := AF.build_spec perfEnc names atts
  refine ⟨af, haf, ?_⟩
  intro fuel hfuel log
  obtain ⟨result, log', hrun, rfl⟩ :=
    (seemSkep_ensures (w := log) hready hO hfuel).exists_ok
  exact ⟨_, log', hrun, rfl, namesOf_sInter hready hnames' hnames _⟩

theorem seem_skep_stable_mutual :
    ∃ af, AF.build true ["a", "b"] [("a", "b"), ("b", "a")] = some af ∧
      ∀ fuel > af.args, ∀ log, ∃ result log',
        seemSkep Oracle.cheapest af .ST fuel log = (.ok result, log') ∧
        result = namesOf af (⋂₀ {S | Stable af.att S}) ∧ result.Nodup ∧
        ((¬ ∃ S, Stable af.att S) → result = ["a", "b"]) :=
  seem_skep_stable true ["a", "b"] [("a", "b"), ("b", "a")] (by decide) Oracle.cheapest
    Oracle.cheapest_optimal

end AcceptableArguments.Algorithms
