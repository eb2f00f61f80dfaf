import AcceptableArguments.Algorithms.Common
import Mathlib.Order.CompletePartialOrder

/-!
# EEE: exhaustive enumeration of extensions

Every accepted set is visited once on a single solver. Credulous acceptance
excludes exactly the sets already seen. Skeptical acceptance under preferred
semantics grows each model to a maximal one before the next round starts, and
excludes all subsets of everything seen on the way.
-/

namespace AcceptableArguments.Algorithms

open AcceptableArguments.Sat Imperative Argumentation Encodings SolverInterface

section Definitions

variable {Lib σ S : Type} [SolverInterface Lib σ S] (lib : Lib)

/-! ## Credulous acceptance -/

/-- The locals of the loop of `eee_cred`. -/
structure EeeCredState (S : Type) where
  result : List String
  included : List Bool
  solver : S

/-- One step of the scan over the model in `eee_cred`. -/
def eeeCredStep (af : AF) (model : List Bool) (st : List String × List Bool × Clause)
    (i : Nat) : Option (List String × List Bool × Clause) := do
  let (result, included, complementClause) := st
  if ← model[i]? then
    if ← included[i]? then
      return (result, included, complementClause ++ [-(← af.acceptedVar[i]?)])
    else
      return (result ++ [← af.intToArg[i]?], ← setAt included i true,
        complementClause ++ [-(← af.acceptedVar[i]?)])
  else
    return (result, included, complementClause ++ [← af.acceptedVar[i]?])

/-- A round of the loop of `eee_cred`. -/
def eeeCredRound (af : AF) (st : EeeCredState S) :
    Run Fault σ (EeeCredState S ⊕ List String) := do
  let (sat, solver) ← solve lib st.solver
  if sat = .UNSAT_V then
    return .inr st.result
  else
    let (result, included, complementClause) ← bounds
      ((List.range af.args).foldlM (eeeCredStep af (model lib solver)) (st.result, st.included, []))
    let solver ← addClause lib solver complementClause
    return .inl ⟨result, included, solver⟩

/-- `eee_cred` with the states at the end of its rounds. -/
def eeeCredRounds (perfEnc : Bool) (af : AF) (sem : Semantics) (fuel : Nat) :
    Run Fault σ (List (EeeCredState S) × List String) := do
  let solver := new lib af.count af.args
  let solver ← addClauses lib solver (← encodeCred perfEnc af sem)
  whileTrace (eeeCredRound lib af) fuel ⟨[], List.replicate af.args false, solver⟩

/-- `Algorithms::eee_cred`. -/
def eeeCred (perfEnc : Bool) (af : AF) (sem : Semantics) (fuel : Nat) :
    Run Fault σ (List String) := do
  let (_, result) ← eeeCredRounds lib perfEnc af sem fuel
  return result

/-! ## Skeptical acceptance -/

/-- The locals of the inner loop of `eee_skep`. -/
structure MaximiseState (S : Type) where
  solver : S
  extension : List Bool
  noFurther : Bool

/-- One step of the scan in the inner loop of `eee_skep`: members are marked and
assumed, arguments outside go into the blocking clause. -/
def maximiseStep (af : AF) (st : S × List Bool × Clause) (i : Nat) :
    Run Fault σ (S × List Bool × Clause) := do
  let (solver, extension, clause) := st
  if ← bounds (model lib solver)[i]? then
    let extension ← bounds (setAt extension i true)
    let solver ← assume lib solver (← bounds af.acceptedVar[i]?)
    return (solver, extension, clause)
  else
    return (solver, extension, clause ++ [← bounds af.acceptedVar[i]?])

/-- A round of the inner loop of `eee_skep`. -/
def maximiseRound (af : AF) (st : MaximiseState S) :
    Run Fault σ (MaximiseState S ⊕ MaximiseState S) := do
  let (sat, solver) ← solve lib st.solver
  if sat = .UNSAT_V then
    return .inr { st with solver := solver }
  else
    let (solver, extension, clause) ←
      (List.range af.args).foldlM (maximiseStep lib af) (solver, st.extension, [])
    let solver ← addClause lib solver clause
    return .inl ⟨solver, extension, false⟩

/-- The locals of the outer loop of `eee_skep`. -/
structure EeeSkepState (S : Type) where
  solver : S
  included : List Bool
  extension : List Bool

/-- One step of the loop that intersects `included` with the extension. -/
def meetStep (af : AF) (extension : List Bool) (st : List Bool × Clause) (i : Nat) :
    Option (List Bool × Clause) := do
  let (included, clause) := st
  let member ← extension[i]?
  let included ← setAt included i ((← included[i]?) && member)
  if member then
    return (included, clause)
  else
    return (included, clause ++ [← af.acceptedVar[i]?])

/-- A round of the outer loop of `eee_skep` under PR. -/
def eeeSkepRoundPR (af : AF) (fuel : Nat) (st : EeeSkepState S) :
    Run Fault σ (EeeSkepState S ⊕ List Bool) := do
  let st' ← whileTrue (maximiseRound lib af) fuel ⟨st.solver, resize [] af.args false, true⟩
  if st'.noFurther then
    return .inr st.included
  else
    let (included, clause) ← bounds
      ((List.range af.args).foldlM (meetStep af st'.extension) (st.included, []))
    let solver ← addClause lib st'.solver clause
    return .inl ⟨solver, included, st'.extension⟩

/-- The PR branch of `eee_skep` with the states at the end of its rounds. -/
def eeeSkepRoundsPR (perfEnc : Bool) (af : AF) (fuel : Nat) :
    Run Fault σ (List (EeeSkepState S) × List Bool) := do
  let solver := new lib af.count af.args
  let solver ← addClauses lib solver (← bounds (Encodings.complete perfEnc af))
  whileTrace (eeeSkepRoundPR lib af fuel) fuel
    ⟨solver, List.replicate af.args true, List.replicate af.args false⟩

/-- One step of the scan over the model in the ST branch of `eee_skep`. -/
def eeeSkepStepST (af : AF) (model : List Bool) (st : List Bool × Clause) (i : Nat) :
    Option (List Bool × Clause) := do
  let (included, complementClause) := st
  let member ← model[i]?
  let included ← setAt included i ((← included[i]?) && member)
  if member then
    return (included, complementClause ++ [-(← af.acceptedVar[i]?)])
  else
    return (included, complementClause)

/-- A round of the ST branch of `eee_skep`. -/
def eeeSkepRoundST (af : AF) (st : S × List Bool) :
    Run Fault σ ((S × List Bool) ⊕ List Bool) := do
  let (sat, solver) ← solve lib st.1
  if sat = .UNSAT_V then
    return .inr st.2
  else
    let (included, complementClause) ← bounds
      ((List.range af.args).foldlM (eeeSkepStepST af (model lib solver)) (st.2, []))
    let solver ← addClause lib solver complementClause
    return .inl (solver, included)

/-- The ST branch of `eee_skep` with the states at the end of its rounds. -/
def eeeSkepRoundsST (af : AF) (fuel : Nat) : Run Fault σ (List (S × List Bool) × List Bool) := do
  let solver := new lib af.count af.args
  let solver ← addClauses lib solver (← bounds (Encodings.stable af))
  whileTrace (eeeSkepRoundST lib af) fuel (solver, List.replicate af.args true)

/-- `Algorithms::eee_skep`. -/
def eeeSkep (perfEnc : Bool) (af : AF) (sem : Semantics) (fuel : Nat) :
    Run Fault σ (List String) :=
  match sem with
  | .PR => do
      let (_, included) ← eeeSkepRoundsPR lib perfEnc af fuel
      bounds (includedNames af included)
  | .ST => do
      let (_, included) ← eeeSkepRoundsST lib af fuel
      bounds (includedNames af included)
  | .CO | .UNKNOWN_SEM => unsupported sem

end Definitions

/-! ## The scans over a model -/

/-- The literals that exclude exactly the marked set. -/
def difference (n : Nat) (p : Nat → Bool) : Clause :=
  (List.range n).map fun i => if p i then -(accVar i : Int) else (accVar i : Int)

theorem clauseHolds_difference {n : Nat} {p : Nat → Bool} {m : Assignment} :
    clauseHolds m (difference n p) = true ↔ labelled n accVar m ≠ toSet n p := by
  rw [difference, clauseHolds_map, Ne, Set.ext_iff, not_forall]
  constructor
  · intro h
    obtain ⟨i, hi, hm⟩ := h
    refine ⟨⟨i, List.mem_range.mp hi⟩, ?_⟩
    cases hp : p i
    · have hmi : m (accVar i) = true := by simpa [hp, litHolds_pos m (accVar_ne_zero i)] using hm
      simp [hp, hmi]
    · have hmi : m (accVar i) = false := by simpa [hp, litHolds_neg m (accVar_ne_zero i)] using hm
      simp [hp, hmi]
  · intro h
    obtain ⟨i, hi⟩ := h
    refine ⟨i, List.mem_range.mpr i.2, ?_⟩
    cases hp : p i
    · simpa [hp, litHolds_pos m (accVar_ne_zero i)] using hi
    · simpa [hp, litHolds_neg m (accVar_ne_zero i)] using hi

section Scans

variable {perfEnc : Bool} {af : AF} (h : AF.Ready perfEnc af)

include h

theorem eeeCredStep_scan (result : List String) (p q : Nat → Bool) :
    (List.range af.args).foldlM (eeeCredStep af (vec af.args p))
        (result, vec af.args q, []) =
      some (result ++ picks af.args (fun i => p i && !q i) af.name,
        vec af.args (fun i => q i || p i), difference af.args p) := by
  have hscan := foldlM_range (n := af.args) (f := eeeCredStep af (vec af.args p))
    (fun k => (result ++ picks k (fun i => p i && !q i) af.name,
      updated af.args k (fun i => q i || p i) q, difference k p)) ?_
  · rw [updated_zero, updated_all] at hscan
    simpa [difference] using hscan
  · intro k hk
    simp only [eeeCredStep, vec_get p hk, updated_get _ q hk, difference, picks_succ,
      h.acceptedVar_get hk, h.intToArg_get hk, Option.bind_eq_bind, Option.bind_some,
      Option.pure_def, List.range_succ, List.map_append]
    cases hp : p k <;> cases hq : q k
    · simp [updated_succ_of_eq, hp]
    · simp [updated_succ_of_eq, hp, hq]
    · simp [setAt_updated hk, hp]
    · simp [updated_succ_of_eq, hp, hq]

theorem meetStep_scan (p q : Nat → Bool) :
    (List.range af.args).foldlM (meetStep af (vec af.args p)) (vec af.args q, []) =
      some (vec af.args (fun i => q i && p i), complement af.args p) := by
  have hscan := foldlM_range (n := af.args) (f := meetStep af (vec af.args p))
    (fun k => (updated af.args k (fun i => q i && p i) q, complement k p)) ?_
  · rw [updated_zero, updated_all] at hscan
    simpa [complement, accLits] using hscan
  · intro k hk
    simp only [meetStep, vec_get p hk, updated_get _ q hk, setAt_updated hk rfl, complement,
      accLits, picks_succ, h.acceptedVar_get hk, Option.bind_eq_bind, Option.bind_some,
      Option.pure_def]
    cases hp : p k <;> simp

theorem eeeSkepStepST_scan (p q : Nat → Bool) :
    (List.range af.args).foldlM (eeeSkepStepST af (vec af.args p)) (vec af.args q, []) =
      some (vec af.args (fun i => q i && p i),
        picks af.args p (fun i => -(accVar i : Int))) := by
  have hscan := foldlM_range (n := af.args) (f := eeeSkepStepST af (vec af.args p))
    (fun k => (updated af.args k (fun i => q i && p i) q,
      picks k p (fun i => -(accVar i : Int)))) ?_
  · rw [updated_zero, updated_all] at hscan
    exact hscan
  · intro k hk
    simp only [eeeSkepStepST, vec_get p hk, updated_get _ q hk, setAt_updated hk rfl, picks_succ,
      h.acceptedVar_get hk, Option.bind_eq_bind, Option.bind_some, Option.pure_def]
    cases hp : p k <;> simp

/-- The scan of the inner loop marks and assumes the members of the model. -/
theorem maximiseStep_scan {O : Oracle} {w : List Event}
    {E : Halt Fault → List Event → Prop} {solver : SatSolver} {p e : Nat → Bool}
    (hmodel : solver.model = vec af.args p)
    {Q : SatSolver × List Bool × Clause → List Event → Prop}
    (hQ : ∀ w', Q ({ solver with assumptions := solver.assumptions ++ accLits af.args p },
      vec af.args (fun i => e i || p i), complement af.args p) w') :
    Ensures ((List.range af.args).foldlM (maximiseStep O af) (solver, vec af.args e, [])) w
      Q E := by
  refine (ensures_foldlM_range (fun k st _ =>
    st = ({ solver with assumptions := solver.assumptions ++ accLits k p },
      updated af.args k (fun i => e i || p i) e, complement k p)) af.args ?_ ?_).post ?_
  · intro k hk _ w' heq
    subst heq
    simp only [maximiseStep, Oracle.model_eq, hmodel, vec_get p hk, h.acceptedVar_get hk, bounds,
      Run.ofOption_some, Run.pure_bind, complement, accLits, picks_succ]
    cases hp : p k
    · apply ensures_pure
      simp [updated_succ_of_eq, hp]
    · have hset : setAt (updated af.args k (fun i => e i || p i) e) k true =
          some (updated af.args (k + 1) (fun i => e i || p i) e) :=
        setAt_updated hk (by simp [hp])
      simp only [if_true, hset, Run.ofOption_some, Run.pure_bind]
      apply ensures_bind
      apply SatSolver.ensures_assume
      apply ensures_pure
      simp
  · simp [updated_zero, complement, accLits]
  · intro _ w' heq
    subst heq
    rw [updated_all]
    exact hQ w'

end Scans

/-! ## Correctness of the credulous enumeration -/

section Correctness

variable {perfEnc : Bool} {af : AF} {O : Oracle} {w : List Event}

/-- The loop head of `eee_cred` after the sets in `seen` have been visited. -/
structure EeeCredInv (af : AF) (F : Set (Set (Fin af.args)))
    (seen : List (Set (Fin af.args))) (st : EeeCredState SatSolver) : Prop where
  searches : Searches af.args {S ∈ F | S ∉ seen} Set.univ st.solver
  nodup : seen.Nodup
  subset : ∀ S ∈ seen, S ∈ F
  included_eq : ∃ q, st.included = vec af.args q ∧ toSet af.args q = {i | ∃ S ∈ seen, i ∈ S}
  reports : Reports af {i | ∃ S ∈ seen, i ∈ S} st.result

theorem eeeCredRound_ensures (h : AF.Ready perfEnc af) (hO : O.Correct)
    {F : Set (Set (Fin af.args))} {seen : List (Set (Fin af.args))} {st : EeeCredState SatSolver}
    (hinv : EeeCredInv af F seen st) :
    Ensures (eeeCredRound O af st) w (fun x _ => match x with
      | .inl st' => EeeCredInv af F (seen ++ [flagged af.args st'.solver.model]) st' ∧
          flagged af.args st'.solver.model ∈ {S ∈ F | S ∉ seen}
      | .inr r => seen.Nodup ∧ (∀ S, S ∈ seen ↔ S ∈ F) ∧ Reports af (⋃₀ F) r)
      (fun _ _ => False) := by
  obtain ⟨result, included, solver⟩ := st
  obtain ⟨hsearch, hnodup, hsub, ⟨q, hq, hseen⟩, hrep⟩ := hinv
  simp only at hsearch hq hrep
  unfold eeeCredRound
  apply ensures_bind
  apply hsearch.ensures_solve hO
  · intro hno solver' w' _
    apply ensures_pure
    have hall : ∀ S, S ∈ seen ↔ S ∈ F := by
      intro S
      refine ⟨hsub S, fun hS => ?_⟩
      by_contra hnot
      exact hno S ⟨hS, hnot⟩ trivial
    refine ⟨hnodup, hall, ?_⟩
    simpa only [hall, ← Set.mem_sUnion, Set.ofPred_mem_eq] using hrep
  · intro p hp _ solver' w' hsearch' hmodel'
    simp only [reduceCtorEq, if_false, Oracle.model_eq, hmodel', hq, eeeCredStep_scan h, bounds,
      Run.ofOption_some, Run.pure_bind]
    apply ensures_bind
    apply SatSolver.ensures_addClause
    apply ensures_pure
    have hunion : {i | ∃ S ∈ seen ++ [toSet af.args p], i ∈ S} =
        {i | ∃ S ∈ seen, i ∈ S} ∪ toSet af.args p := by
      ext i
      simp [or_and_right, exists_or]
    have hflag : flagged af.args solver'.model = toSet af.args p := by
      rw [hmodel', flagged_vec]
    change EeeCredInv af F (seen ++ [flagged af.args solver'.model]) _ ∧
      flagged af.args solver'.model ∈ _
    rw [hflag]
    refine ⟨⟨?_, ?_, ?_, ⟨_, rfl, ?_⟩, ?_⟩, hp⟩
    · have hsearch'' := hsearch'.addClause (C := fun S => S ≠ toSet af.args p)
        (fun m _ => clauseHolds_difference)
      have hG : {S | S ∈ {S | S ∈ F ∧ S ∉ seen} ∧ S ≠ toSet af.args p} =
          {S | S ∈ F ∧ S ∉ seen ++ [toSet af.args p]} := by
        ext S
        simp [and_assoc]
      rwa [hG] at hsearch''
    · rw [← List.concat_eq_append]
      exact hnodup.concat hp.2
    · exact List.forall_mem_append.mpr ⟨hsub, List.forall_mem_singleton.mpr hp.1⟩
    · rw [hunion, ← hseen, toSet_or]
    · rw [hunion]
      apply hrep.append_new
      intro i
      rw [← hseen]
      simp

/-- Every accepted set is visited exactly once, and the result is their union. -/
theorem eeeCredRounds_ensures (h : AF.Ready perfEnc af) (hO : O.Correct) {sem : Semantics}
    {cs : List Clause} (hcs : (encodeCred perfEnc af sem : SolveM _) = pure cs) {fuel : Nat}
    (hfuel : 2 ^ af.args < fuel) :
    Ensures (eeeCredRounds O perfEnc af sem fuel) w
      (fun x _ => (x.1.map fun st => flagged af.args st.solver.model).Nodup ∧
        (∀ S, S ∈ (x.1.map fun st => flagged af.args st.solver.model) ↔
          S ∈ family af.args cs) ∧
        Reports af (⋃₀ family af.args cs) x.2) (fun _ _ => False) := by
  unfold eeeCredRounds
  rw [hcs, Run.pure_bind]
  apply ensures_bind
  apply SatSolver.ensures_addClauses
  set F := family af.args cs
  have hstart : EeeCredInv af F [] ⟨[], List.replicate af.args false,
      { SatSolver.new af.count af.args with
        clauses := (SatSolver.new af.count af.args).clauses ++ cs }⟩ := by
    refine ⟨?_, List.nodup_nil, by simp, ⟨fun _ => false, replicate_eq_vec _ _, ?_⟩, ?_⟩
    · simpa using searches_encoded af.count cs
    · simp [toSet]
    · simpa using reports_nil af
  refine ensures_whileTrace (fun k rounds st _ =>
    EeeCredInv af F (rounds.map fun st => flagged af.args st.solver.model) st ∧
      {S ∈ F | S ∉ rounds.map fun st => flagged af.args st.solver.model}.ncard = k)
    (fun rounds r _ => (rounds.map fun st => flagged af.args st.solver.model).Nodup ∧
        (∀ S, S ∈ (rounds.map fun st => flagged af.args st.solver.model) ↔ S ∈ F) ∧
        Reports af (⋃₀ F) r) ?_ ⟨hstart, rfl⟩
    (Nat.lt_of_le_of_lt (ncard_le_two_pow _) hfuel)
  intro k rounds st w' hInv
  obtain ⟨hinv, rfl⟩ := hInv
  apply (eeeCredRound_ensures h hO hinv).post
  intro y w'' hx
  rcases y with st' | r
  · obtain ⟨hinv', hmem⟩ := hx
    refine ⟨_, ?_, by simpa using hinv', rfl⟩
    have hlt := ncard_sep_lt hmem (C := fun S => S ≠ flagged af.args st'.solver.model)
      (fun hne => hne rfl)
    convert hlt using 2
    ext S
    simp [and_assoc]
  · exact hx

theorem eeeCred_ensures (h : AF.Ready perfEnc af) (hO : O.Correct) {sem : Semantics}
    {cs : List Clause} (hcs : (encodeCred perfEnc af sem : SolveM _) = pure cs) {fuel : Nat}
    (hfuel : 2 ^ af.args < fuel) :
    Ensures (eeeCred O perfEnc af sem fuel) w
      (fun r _ => Reports af (⋃₀ family af.args cs) r) (fun _ _ => False) := by
  apply ensures_bind
  apply (eeeCredRounds_ensures h hO hcs hfuel).post
  intro x w' hx
  obtain ⟨rounds, result⟩ := x
  obtain ⟨-, -, hrep⟩ := hx
  exact hrep

/-! ## Correctness of the enumeration of preferred extensions -/

/-- The head of the inner loop. `G` is the family at the start of the loop, `H` the
family that is still searched, and the next model must contain the marked set. -/
structure MaximiseInv {n : Nat} (G H : Set (Set (Fin n))) (e : Nat → Bool)
    (st : MaximiseState SatSolver) : Prop where
  searches : Searches n H {S | toSet n e ⊆ S} st.solver
  extension_eq : st.extension = vec n e
  fresh : st.noFurther = true → H = G
  grown : st.noFurther = false → toSet n e ∈ G ∧ H = {S ∈ G | ¬ S ⊆ toSet n e}

/-- The end of the inner loop: nothing was found, or the marked set is maximal. -/
def Maximised {n : Nat} (G : Set (Set (Fin n))) (st : MaximiseState SatSolver) : Prop :=
  (st.noFurther = true ∧ ∀ S, S ∉ G) ∨
  (st.noFurther = false ∧ ∃ e, st.extension = vec n e ∧ toSet n e ∈ G ∧
    (∀ S ∈ G, toSet n e ⊆ S → S ⊆ toSet n e) ∧
    Searches n {S ∈ G | ¬ S ⊆ toSet n e} Set.univ st.solver)

/-- Without a further model the loop has reached a maximal set, unless there was no
model at all. -/
theorem MaximiseInv.maximised {n : Nat} {G H : Set (Set (Fin n))} {e : Nat → Bool}
    {st : MaximiseState SatSolver} {solver : SatSolver} (hinv : MaximiseInv G H e st)
    (hfresh : st.noFurther = true → toSet n e = ∅)
    (hno : ∀ S ∈ H, S ∉ {S | toSet n e ⊆ S}) (hsearch : Searches n H Set.univ solver) :
    Maximised G { st with solver := solver } := by
  cases hst : st.noFurther with
  | true =>
      refine Or.inl ⟨rfl, fun S hS => ?_⟩
      rw [← hinv.fresh hst] at hS
      exact hno S hS (by simp [hfresh hst])
  | false =>
      obtain ⟨hmem, hH⟩ := hinv.grown hst
      refine Or.inr ⟨rfl, e, hinv.extension_eq, hmem, ?_, hH ▸ hsearch⟩
      intro S hS heS
      by_contra hnot
      exact hno S (hH ▸ ⟨hS, hnot⟩) heS

/-- A further model contains the marked set and replaces it. -/
theorem MaximiseInv.blocked_eq {n : Nat} {G H : Set (Set (Fin n))} {e : Nat → Bool}
    {st : MaximiseState SatSolver} (hinv : MaximiseInv G H e st) {X : Set (Fin n)}
    (hX : toSet n e ⊆ X) :
    {S ∈ H | ¬ S ⊆ X} = {S ∈ G | ¬ S ⊆ X} := by
  cases hst : st.noFurther with
  | true => rw [hinv.fresh hst]
  | false =>
      obtain ⟨-, hH⟩ := hinv.grown hst
      ext S
      rw [hH]
      constructor
      · intro h
        obtain ⟨⟨hS, -⟩, hSX⟩ := h
        exact ⟨hS, hSX⟩
      · intro h
        obtain ⟨hS, hSX⟩ := h
        exact ⟨⟨hS, fun hSe => hSX (hSe.trans hX)⟩, hSX⟩

theorem MaximiseInv.subset {n : Nat} {G H : Set (Set (Fin n))} {e : Nat → Bool}
    {st : MaximiseState SatSolver} (hinv : MaximiseInv G H e st) : H ⊆ G := by
  cases hst : st.noFurther with
  | true => rw [hinv.fresh hst]
  | false =>
      rw [(hinv.grown hst).2]
      exact Set.sep_subset _ _

theorem maximiseRound_ensures (h : AF.Ready perfEnc af) (hO : O.Correct)
    {G H : Set (Set (Fin af.args))} {e : Nat → Bool} {st : MaximiseState SatSolver}
    (hinv : MaximiseInv G H e st) (hfresh : st.noFurther = true → toSet af.args e = ∅) :
    Ensures (maximiseRound O af st) w (fun x _ => match x with
      | .inl st' => ∃ H' e', MaximiseInv G H' e' st' ∧ st'.noFurther = false ∧
          H'.ncard < H.ncard ∧ (st.noFurther = false → toSet af.args e ⊂ toSet af.args e')
      | .inr st' => Maximised G st' ∧ st'.noFurther = st.noFurther) (fun _ _ => False) := by
  unfold maximiseRound
  apply ensures_bind
  apply hinv.searches.ensures_solve hO
  · intro hno solver' w' hsearch'
    apply ensures_pure
    exact ⟨hinv.maximised hfresh hno hsearch', rfl⟩
  · intro p hp hep solver' w' hsearch' hmodel'
    simp only [reduceCtorEq, if_false, hinv.extension_eq]
    apply ensures_bind
    apply maximiseStep_scan h hmodel'
    intro w''
    apply ensures_bind
    apply SatSolver.ensures_addClause
    apply ensures_pure
    have hor : toSet af.args (fun i => e i || p i) = toSet af.args p := by
      rw [toSet_or, Set.union_eq_right.mpr hep]
    have hassumed := hsearch'.assumeAll (A := {S | toSet af.args p ⊆ S})
      (fun m => allHold_accLits)
    refine ⟨{S ∈ H | ¬ S ⊆ toSet af.args p}, fun i => e i || p i, ⟨?_, rfl, ?_, ?_⟩, rfl,
      ncard_sep_lt hp (fun hn => hn (Set.Subset.refl _)), ?_⟩
    · rw [hor]
      exact hassumed.block p
    · simp
    · intro _
      rw [hor]
      exact ⟨hinv.subset hp, hinv.blocked_eq hep⟩
    · intro hst
      obtain ⟨-, hH⟩ := hinv.grown hst
      rw [hor]
      exact ⟨hep, (hH ▸ hp).2⟩

/-- Before the first round. -/
theorem maximiseInv_start {G : Set (Set (Fin af.args))} {solver : SatSolver}
    (hsearch : Searches af.args G Set.univ solver) :
    MaximiseInv G G (fun _ => false) ⟨solver, resize [] af.args false, true⟩ where
  searches := by simpa [toSet] using hsearch
  extension_eq := by rw [resize_nil, replicate_eq_vec]
  fresh _ := rfl
  grown := by simp

/-- The inner loop terminates with a maximal set of the family. -/
theorem maximise_ensures (h : AF.Ready perfEnc af) (hO : O.Correct)
    {G : Set (Set (Fin af.args))} {solver : SatSolver}
    (hsearch : Searches af.args G Set.univ solver) {fuel : Nat}
    (hfuel : 2 ^ af.args < fuel) :
    Ensures (whileTrue (maximiseRound O af) fuel ⟨solver, resize [] af.args false, true⟩) w
      (fun st' _ => Maximised G st') (fun _ _ => False) := by
  refine ensures_whileTrue (fun k st _ => ∃ H e, MaximiseInv G H e st ∧
    (st.noFurther = true → toSet af.args e = ∅) ∧ H.ncard = k) _ ?_
    ⟨G, _, maximiseInv_start hsearch, fun _ => by simp [toSet], rfl⟩
    (Nat.lt_of_le_of_lt (ncard_le_two_pow G) hfuel)
  intro k st w' hInv
  obtain ⟨H, e, hinv, hfresh, rfl⟩ := hInv
  apply (maximiseRound_ensures h hO hinv hfresh).post
  intro x w'' hx
  rcases x with st' | st'
  · obtain ⟨H', e', hinv', hst', hlt, -⟩ := hx
    exact ⟨_, hlt, H', e', hinv', by simp [hst'], rfl⟩
  · exact hx.1

/-- The head of the outer loop after the extensions in `found` have been obtained. -/
structure EeeSkepInv (af : AF) (F : Set (Set (Fin af.args)))
    (found : List (Set (Fin af.args))) (st : EeeSkepState SatSolver) : Prop where
  searches : Searches af.args {S ∈ F | ∀ P ∈ found, ¬ S ⊆ P} Set.univ st.solver
  nodup : found.Nodup
  preferred : ∀ P ∈ found, Preferred af.att P
  included_eq : ∃ q, st.included = vec af.args q ∧
    toSet af.args q = {i | ∀ P ∈ found, i ∈ P}

/-- A maximal set that no found extension contains is preferred. -/
theorem preferred_of_unblocked {n : Nat} {att : Fin n → Fin n → Prop}
    {F : Set (Set (Fin n))} (hF : PreferredFamily att F) {found : List (Set (Fin n))}
    {X : Set (Fin n)} (hX : X ∈ {S ∈ F | ∀ P ∈ found, ¬ S ⊆ P})
    (hmax : ∀ S ∈ {S ∈ F | ∀ P ∈ found, ¬ S ⊆ P}, X ⊆ S → S ⊆ X) : Preferred att X := by
  apply hF.preferred_of_maximal hX.1
  intro T hT hXT
  have hTfree : ∀ P ∈ found, ¬ T ⊆ P := fun P hP hTP => hX.2 P hP (hXT.trans hTP)
  exact (hmax T ⟨hT, hTfree⟩ hXT).antisymm hXT

theorem eeeSkepRoundPR_ensures (h : AF.Ready perfEnc af) (hO : O.Correct)
    {F : Set (Set (Fin af.args))} (hF : PreferredFamily af.att F)
    {found : List (Set (Fin af.args))} {st : EeeSkepState SatSolver}
    (hinv : EeeSkepInv af F found st) {fuel : Nat} (hfuel : 2 ^ af.args < fuel) :
    Ensures (eeeSkepRoundPR O af fuel st) w (fun x _ => match x with
      | .inl st' => EeeSkepInv af F (found ++ [flagged af.args st'.extension]) st' ∧
          flagged af.args st'.extension ∈ {S ∈ F | ∀ P ∈ found, ¬ S ⊆ P}
      | .inr included => found.Nodup ∧ (∀ S, S ∈ found ↔ Preferred af.att S) ∧
          ∃ q, included = vec af.args q ∧ toSet af.args q = {i | Skeptical af.att i})
      (fun _ _ => False) := by
  obtain ⟨q, hq, hmeet⟩ := hinv.included_eq
  unfold eeeSkepRoundPR
  apply ensures_bind
  apply (maximise_ensures h hO hinv.searches hfuel).post
  intro st' w' hx
  rcases hx with ⟨hst', hnone⟩ | ⟨hst', e, he, hmem, hmax, hsearch⟩
  · rw [if_pos hst']
    apply ensures_pure
    have hall : ∀ S, S ∈ found ↔ Preferred af.att S := by
      intro S
      refine ⟨hinv.preferred S, fun hS => ?_⟩
      -- A preferred extension outside `found` would still be searched.
      by_contra hnot
      refine hnone S ⟨hF.preferred S hS, fun P hP hSP => hnot ?_⟩
      rwa [← hS.eq_of_subset (hinv.preferred P hP).admissible hSP]
    refine ⟨hinv.nodup, hall, q, hq, ?_⟩
    simpa only [hall, Skeptical] using hmeet
  · rw [if_neg (by simp [hst'])]
    simp only [he, hq, meetStep_scan h, bounds, Run.ofOption_some, Run.pure_bind]
    apply ensures_bind
    apply SatSolver.ensures_addClause
    apply ensures_pure
    simp only [flagged_vec]
    refine ⟨⟨?_, ?_, ?_, _, rfl, ?_⟩, hmem⟩
    · have hsearch' := hsearch.block e
      have hG : {S | S ∈ {S | S ∈ {S | S ∈ F ∧ ∀ P ∈ found, ¬ S ⊆ P} ∧ ¬ S ⊆ toSet af.args e} ∧
          ¬ S ⊆ toSet af.args e} =
          {S | S ∈ F ∧ ∀ P ∈ found ++ [toSet af.args e], ¬ S ⊆ P} := by
        ext S
        simp [and_assoc, or_imp, forall_and]
      rwa [hG] at hsearch'
    · rw [← List.concat_eq_append]
      exact hinv.nodup.concat fun hfound => hmem.2 _ hfound (Set.Subset.refl _)
    · exact List.forall_mem_append.mpr
        ⟨hinv.preferred, List.forall_mem_singleton.mpr (preferred_of_unblocked hF hmem hmax)⟩
    · exact toSet_meet hmeet e

/-- Before the first round. -/
theorem eeeSkepInv_start (cs : List Clause) :
    EeeSkepInv af (family af.args cs) [] ⟨{ SatSolver.new af.count af.args with
      clauses := (SatSolver.new af.count af.args).clauses ++ cs },
      List.replicate af.args true, List.replicate af.args false⟩ := by
  refine ⟨?_, List.nodup_nil, by simp, fun _ => true, replicate_eq_vec _ _, ?_⟩
  · simpa using searches_encoded af.count cs
  · simp [toSet]

/-- The outer loop terminates, its rounds obtain each preferred extension once, and
the included arguments are their intersection. -/
theorem eeeSkepRoundsPR_ensures (h : AF.Ready perfEnc af) (hO : O.Correct) {fuel : Nat}
    (hfuel : 2 ^ af.args < fuel) :
    Ensures (eeeSkepRoundsPR O perfEnc af fuel) w
      (fun x _ => (x.1.map fun st => flagged af.args st.extension).Nodup ∧
        (∀ S, S ∈ (x.1.map fun st => flagged af.args st.extension) ↔ Preferred af.att S) ∧
        ∃ q, x.2 = vec af.args q ∧ toSet af.args q = {i | Skeptical af.att i})
      (fun _ _ => False) := by
  obtain ⟨cs, hcs, hF⟩ := complete_spec h
  unfold eeeSkepRoundsPR
  simp only [hcs, bounds, Run.ofOption_some, Run.pure_bind]
  apply ensures_bind
  apply SatSolver.ensures_addClauses
  set F := family af.args cs
  refine ensures_whileTrace (fun k rounds st _ =>
    EeeSkepInv af F (rounds.map fun st => flagged af.args st.extension) st ∧
      {S ∈ F | ∀ P ∈ rounds.map fun st => flagged af.args st.extension, ¬ S ⊆ P}.ncard = k)
    (fun rounds included _ => (rounds.map fun st => flagged af.args st.extension).Nodup ∧
        (∀ S, S ∈ (rounds.map fun st => flagged af.args st.extension) ↔
          Preferred af.att S) ∧
        ∃ q, included = vec af.args q ∧ toSet af.args q = {i | Skeptical af.att i}) ?_
    ⟨eeeSkepInv_start cs, rfl⟩ (Nat.lt_of_le_of_lt (ncard_le_two_pow _) hfuel)
  intro k rounds st w' hInv
  obtain ⟨hinv, rfl⟩ := hInv
  apply (eeeSkepRoundPR_ensures h hO hF hinv hfuel).post
  intro y w'' hx
  rcases y with st' | included
  · obtain ⟨hinv', hmem⟩ := hx
    refine ⟨_, ?_, by simpa using hinv', rfl⟩
    have hlt := ncard_sep_lt hmem (C := fun S => ¬ S ⊆ flagged af.args st'.extension)
      (fun hn => hn (Set.Subset.refl _))
    convert hlt using 2
    ext S
    simp [and_assoc, or_imp, forall_and]
  · exact hx

theorem eeeSkep_PR_ensures (h : AF.Ready perfEnc af) (hO : O.Correct) {fuel : Nat}
    (hfuel : 2 ^ af.args < fuel) :
    Ensures (eeeSkep O perfEnc af .PR fuel) w
      (fun r _ => r = namesOf af {i | Skeptical af.att i}) (fun _ _ => False) := by
  apply ensures_bind
  apply (eeeSkepRoundsPR_ensures h hO hfuel).post
  intro x w' hx
  obtain ⟨rounds, included⟩ := x
  obtain ⟨-, -, q, rfl, hq⟩ := hx
  apply ensures_bounds (includedNames_vec h q)
  apply picks_name
  intro i
  rw [← hq]
  rfl

end Correctness

/-- `eee_skep` under PR terminates, the extensions at the end of its rounds are the
preferred extensions without repetition, and it reports their intersection in index
order. -/
theorem eee_skep_preferred (perfEnc : Bool) (names : List String)
    (atts : List (String × String)) (hnames : names.Nodup) (O : Oracle) (hO : O.Correct) :
    ∃ af, AF.build perfEnc names atts = some af ∧
      ∀ fuel > 2 ^ af.args, ∀ log,
        (∃ rounds included log',
          eeeSkepRoundsPR O perfEnc af fuel log = (.ok (rounds, included), log') ∧
          (rounds.map fun st => flagged af.args st.extension).Nodup ∧
          ∀ S, S ∈ (rounds.map fun st => flagged af.args st.extension) ↔
            Preferred af.att S) ∧
        ∃ result log', eeeSkep O perfEnc af .PR fuel log = (.ok result, log') ∧
          result = namesOf af (⋂₀ {P | Preferred af.att P}) ∧ result.Nodup := by
  obtain ⟨af, haf, hready, hnames', -⟩ := AF.build_spec perfEnc names atts
  refine ⟨af, haf, fun fuel hfuel log => ⟨?_, ?_⟩⟩
  · obtain ⟨⟨rounds, included⟩, log', hrun, hnodup, hmem, -⟩ :=
      (eeeSkepRoundsPR_ensures (w := log) hready hO hfuel).exists_ok
    exact ⟨rounds, included, log', hrun, hnodup, hmem⟩
  · obtain ⟨result, log', hrun, hresult⟩ :=
      (eeeSkep_PR_ensures (w := log) hready hO hfuel).exists_ok
    refine ⟨result, log', hrun, hresult, ?_⟩
    rw [hresult]
    exact (reports_namesOf af _).nodup hready (hnames' ▸ hnames)

theorem eee_skep_preferred_mutual : ∃ af,
    AF.build true ["a", "b"] [("a", "b"), ("b", "a")] = some af ∧
      ∀ fuel > 2 ^ af.args, ∀ log,
        (∃ rounds included log',
          eeeSkepRoundsPR Oracle.exhaustive true af fuel log =
            (.ok (rounds, included), log') ∧
          (rounds.map fun st => flagged af.args st.extension).Nodup ∧
          ∀ S, S ∈ (rounds.map fun st => flagged af.args st.extension) ↔
            Preferred af.att S) ∧
        ∃ result log', eeeSkep Oracle.exhaustive true af .PR fuel log =
            (.ok result, log') ∧
          result = namesOf af (⋂₀ {P | Preferred af.att P}) ∧ result.Nodup :=
  eee_skep_preferred true ["a", "b"] [("a", "b"), ("b", "a")] (by decide)
    Oracle.exhaustive Oracle.exhaustive_correct

end AcceptableArguments.Algorithms
