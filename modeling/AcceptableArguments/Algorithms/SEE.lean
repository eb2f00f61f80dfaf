import AcceptableArguments.Algorithms.Common

/-!
# SEE: selective enumeration of extensions

Credulous acceptance asks for an extension with an argument that has not been
seen yet. Skeptical acceptance under stable semantics asks for an extension that
rejects an argument which all extensions so far contain.
-/

namespace AcceptableArguments.Algorithms

open AcceptableArguments.Sat Imperative Argumentation Encodings SolverInterface

section Definitions

variable {Lib σ S : Type} [SolverInterface Lib σ S] (lib : Lib)

/-! ## Credulous acceptance -/

/-- The locals of the loop of `see_cred`. -/
structure SeeCredState (S : Type) where
  result : List String
  unvisited : List Bool
  solver : S

/-- One step of the scan over the model in `see_cred`. -/
def seeCredStep (af : AF) (model : List Bool) (st : List String × List Bool × Clause)
    (i : Nat) : Option (List String × List Bool × Clause) := do
  let (result, unvisited, unvisitedClause) := st
  if ← unvisited[i]? then
    if ← model[i]? then
      return (result ++ [← af.intToArg[i]?], ← setAt unvisited i false, unvisitedClause)
    else
      return (result, unvisited, unvisitedClause ++ [← af.acceptedVar[i]?])
  else
    return (result, unvisited, unvisitedClause)

/-- A round of the loop of `see_cred`. -/
def seeCredRound (af : AF) (st : SeeCredState S) :
    Run Fault σ (SeeCredState S ⊕ List String) := do
  let (sat, solver) ← solve lib st.solver
  if sat = .UNSAT_V then
    return .inr st.result
  else
    let (result, unvisited, unvisitedClause) ← bounds
      ((List.range af.args).foldlM (seeCredStep af (model lib solver))
        (st.result, st.unvisited, []))
    let solver ← addClause lib solver unvisitedClause
    return .inl ⟨result, unvisited, solver⟩

/-- `Algorithms::see_cred`. -/
def seeCred (perfEnc : Bool) (af : AF) (sem : Semantics) (fuel : Nat) :
    Run Fault σ (List String) := do
  let solver := new lib af.count af.args
  let solver ← addClauses lib solver (← encodeCred perfEnc af sem)
  whileTrue (seeCredRound lib af) fuel ⟨[], List.replicate af.args true, solver⟩

/-! ## Skeptical acceptance -/

/-- One step of the scan over the model in `see_skep`. -/
def seeSkepStep (af : AF) (model : List Bool) (st : List Bool × Clause) (i : Nat) :
    Option (List Bool × Clause) := do
  let (included, complementClause) := st
  let still := (← included[i]?) && (← model[i]?)
  let included ← setAt included i still
  if still then
    return (included, complementClause ++ [← af.rejectedVar[i]?])
  else
    return (included, complementClause)

/-- A round of the loop of `see_skep`. -/
def seeSkepRound (af : AF) (st : S × List Bool) : Run Fault σ ((S × List Bool) ⊕ List Bool) := do
  let (sat, solver) ← solve lib st.1
  if sat = .UNSAT_V then
    return .inr st.2
  else
    let (included, complementClause) ← bounds
      ((List.range af.args).foldlM (seeSkepStep af (model lib solver)) (st.2, []))
    let solver ← addClause lib solver complementClause
    return .inl (solver, included)

/-- `Algorithms::see_skep`. -/
def seeSkep (af : AF) (sem : Semantics) (fuel : Nat) : Run Fault σ (List String) := do
  if sem ≠ .ST then
    unsupported sem
  else
    let solver := new lib af.count af.args
    let solver ← addClauses lib solver (← bounds (Encodings.stable af))
    let included ← whileTrue (seeSkepRound lib af) fuel (solver, List.replicate af.args true)
    bounds (includedNames af included)

end Definitions

/-! ## The scan over a model -/

theorem seeCredStep_scan {perfEnc : Bool} {af : AF} (h : AF.Ready perfEnc af)
    (result : List String) (p u : Nat → Bool) :
    (List.range af.args).foldlM (seeCredStep af (vec af.args p))
        (result, vec af.args u, []) =
      some (result ++ picks af.args (fun i => p i && u i) af.name,
        vec af.args (fun i => u i && !p i), accLits af.args (fun i => u i && !p i)) := by
  have hscan := foldlM_range (n := af.args) (f := seeCredStep af (vec af.args p))
    (fun k => (result ++ picks k (fun i => p i && u i) af.name,
      updated af.args k (fun i => u i && !p i) u, accLits k (fun i => u i && !p i))) ?_
  · rw [updated_zero, updated_all] at hscan
    simpa [accLits] using hscan
  · intro k hk
    simp only [seeCredStep, vec_get p hk, updated_get _ u hk, accLits, picks_succ,
      h.acceptedVar_get hk, h.intToArg_get hk, Option.bind_eq_bind, Option.bind_some,
      Option.pure_def]
    cases hp : p k <;> cases hu : u k
    · simp [updated_succ_of_eq, hu]
    · simp [updated_succ_of_eq, hp, hu]
    · simp [updated_succ_of_eq, hu]
    · simp [setAt_updated hk, hp]

theorem seeSkepStep_scan {perfEnc : Bool} {af : AF} (h : AF.Ready perfEnc af)
    (p q : Nat → Bool) :
    (List.range af.args).foldlM (seeSkepStep af (vec af.args p)) (vec af.args q, []) =
      some (vec af.args (fun i => q i && p i),
        picks af.args (fun i => q i && p i) (fun i => (rejVar af.args i : Int))) := by
  have hscan := foldlM_range (n := af.args) (f := seeSkepStep af (vec af.args p))
    (fun k => (updated af.args k (fun i => q i && p i) q,
      picks k (fun i => q i && p i) (fun i => (rejVar af.args i : Int)))) ?_
  · rw [updated_zero, updated_all] at hscan
    exact hscan
  · intro k hk
    simp only [seeSkepStep, vec_get p hk, updated_get _ q hk, setAt_updated hk rfl, picks_succ,
      h.rejectedVar_get hk, Option.bind_eq_bind, Option.bind_some, Option.pure_def]
    cases hqp : q k && p k <;> simp

/-! ## Correctness of the credulous search -/

section Correctness

variable {perfEnc : Bool} {af : AF} {O : Oracle} {w : List Event}

/-- The loop head of `see_cred`: sets that are no longer searched consist of visited
arguments, and all visited arguments occur in an accepted set. -/
structure SeeCredInv (af : AF) (F G : Set (Set (Fin af.args))) (u : Nat → Bool)
    (st : SeeCredState SatSolver) : Prop where
  searches : Searches af.args G Set.univ st.solver
  subset : G ⊆ F
  unvisited_eq : st.unvisited = vec af.args u
  visited : ∀ S ∈ F, S ∉ G → ∀ i ∈ S, u i = false
  occurs : ∀ i : Fin af.args, u i = false → ∃ S ∈ F, i ∈ S
  reports : Reports af {i | u i = false} st.result

theorem seeCredRound_ensures (h : AF.Ready perfEnc af) (hO : O.Correct)
    {F G : Set (Set (Fin af.args))} {u : Nat → Bool} {st : SeeCredState SatSolver}
    (hinv : SeeCredInv af F G u st) :
    Ensures (seeCredRound O af st) w (fun x _ => match x with
      | .inl st' => ∃ G' u', SeeCredInv af F G' u' st' ∧ G'.ncard < G.ncard ∧
          (∀ S ∈ G', (S ∩ toSet af.args u').Nonempty) ∧
          ∃ S ∈ G, toSet af.args u' = toSet af.args u \ S
      | .inr r => Reports af (⋃₀ F) r) (fun _ _ => False) := by
  unfold seeCredRound
  apply ensures_bind
  apply hinv.searches.ensures_solve hO
  · intro hno solver' w' _
    apply ensures_pure
    have hall : {i : Fin af.args | u i = false} = ⋃₀ F := by
      ext i
      refine ⟨hinv.occurs i, ?_⟩
      intro hx
      obtain ⟨S, hS, hi⟩ := hx
      exact hinv.visited S hS (fun hSG => hno S hSG trivial) i hi
    exact hall ▸ hinv.reports
  · intro p hp _ solver' w' hsearch' hmodel'
    simp only [reduceCtorEq, if_false, Oracle.model_eq, hmodel', hinv.unvisited_eq,
      seeCredStep_scan h, bounds, Run.ofOption_some, Run.pure_bind]
    apply ensures_bind
    apply SatSolver.ensures_addClause
    apply ensures_pure
    set u' : Nat → Bool := fun i => u i && !p i
    have hu' : ∀ i, u' i = false ↔ u i = false ∨ p i = true := by
      intro i
      simp only [u', Bool.and_eq_false_iff, Bool.not_eq_false']
    -- The new clause asks for an argument that is still unvisited.
    have hsearch'' := hsearch'.addClause (c := accLits af.args u')
      (C := fun S => ∃ i ∈ toSet af.args u', i ∈ S) (fun m _ => clauseHolds_accLits)
    refine ⟨_, u', ⟨hsearch'', (Set.sep_subset _ _).trans hinv.subset, rfl, ?_, ?_, ?_⟩, ?_, ?_,
      toSet af.args p, hp, ?_⟩
    · intro S hS hSG i hi
      by_cases hmem : S ∈ G
      · by_contra hne
        exact hSG ⟨hmem, i, by simpa using hne, hi⟩
      · exact (hu' i).mpr (Or.inl (hinv.visited S hS hmem i hi))
    · intro i hi
      rcases (hu' i).mp hi with hi | hi
      · exact hinv.occurs i hi
      · exact ⟨_, hinv.subset hp, hi⟩
    · have hvisited : {i : Fin af.args | u' i = false} =
          {i : Fin af.args | u i = false} ∪ toSet af.args p := by
        ext i
        exact hu' i
      rw [hvisited]
      apply hinv.reports.append_new
      simp
    · apply ncard_sep_lt hp
      intro hx
      obtain ⟨i, hi, hip⟩ := hx
      have hfalse := (hu' i).mpr (Or.inr hip)
      simp only [mem_toSet, hfalse] at hi
      exact absurd hi (by simp)
    · intro S hS
      obtain ⟨i, hi, hiS⟩ := hS.2
      exact ⟨i, hiS, hi⟩
    · ext i
      simp [u']

/-- Before the first round. -/
theorem seeCredInv_start (cs : List Clause) :
    SeeCredInv af (family af.args cs) (family af.args cs) (fun _ => true)
      ⟨[], List.replicate af.args true, { SatSolver.new af.count af.args with
        clauses := (SatSolver.new af.count af.args).clauses ++ cs }⟩ where
  searches := searches_encoded af.count cs
  subset := Set.Subset.rfl
  unvisited_eq := replicate_eq_vec _ _
  visited S hS hSG := (hSG hS).elim
  occurs := by simp
  reports := by simpa using reports_nil af

theorem seeCred_ensures (h : AF.Ready perfEnc af) (hO : O.Correct) {sem : Semantics}
    {cs : List Clause} (hcs : (encodeCred perfEnc af sem : SolveM _) = pure cs) {fuel : Nat}
    (hfuel : 2 ^ af.args < fuel) :
    Ensures (seeCred O perfEnc af sem fuel) w
      (fun r _ => Reports af (⋃₀ family af.args cs) r) (fun _ _ => False) := by
  unfold seeCred
  rw [hcs, Run.pure_bind]
  apply ensures_bind
  apply SatSolver.ensures_addClauses
  refine ensures_whileTrue (fun k st _ => ∃ G u, SeeCredInv af (family af.args cs) G u st ∧
    G.ncard = k) _ ?_ ⟨_, _, seeCredInv_start cs, rfl⟩
    (Nat.lt_of_le_of_lt (ncard_le_two_pow _) hfuel)
  intro k st w' hInv
  obtain ⟨G, u, hinv, rfl⟩ := hInv
  apply (seeCredRound_ensures h hO hinv).post
  intro x w'' hx
  rcases x with st' | r
  · obtain ⟨G', u', hinv', hlt, -⟩ := hx
    exact ⟨_, hlt, G', u', hinv', rfl⟩
  · exact hx

end Correctness

end AcceptableArguments.Algorithms
