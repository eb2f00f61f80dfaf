import AcceptableArguments.Algorithms.Common
import Mathlib.Order.CompletePartialOrder

/-!
# IAQ: one query per argument

Credulous acceptance asks one query per argument on a single solver. Skeptical
acceptance under preferred semantics searches for a preferred extension without
the argument: a candidate is grown while it avoids the argument, the subsets of
every intermediate model are blocked permanently, and the final candidate is
tested for a superset that contains the argument.
-/

namespace AcceptableArguments.Algorithms

open AcceptableArguments.Sat Imperative Argumentation Encodings SolverInterface

section Definitions

variable {Lib σ S : Type} [SolverInterface Lib σ S] (lib : Lib)

/-- The round of `iaq_cred` for argument `i`. -/
def iaqCredRound (af : AF) (st : List String × S) (i : Nat) : Run Fault σ (List String × S) := do
  let solver ← assume lib st.2 (← bounds af.acceptedVar[i]?)
  let (sat, solver) ← solve lib solver
  if sat = .SAT_V then
    return (st.1 ++ [← bounds af.intToArg[i]?], solver)
  else
    return (st.1, solver)

/-- `Algorithms::iaq_cred`. -/
def iaqCred (perfEnc : Bool) (af : AF) (sem : Semantics) : Run Fault σ (List String) := do
  let solver := new lib af.count af.args
  let solver ← addClauses lib solver (← encodeCred perfEnc af sem)
  let (result, _) ← (List.range af.args).foldlM (iaqCredRound lib af) ([], solver)
  return result

/-! ## Skeptical acceptance under preferred semantics -/

/-- One step of the scan over the model: new members are assumed, arguments
outside go into the blocking clause. -/
def growStep (af : AF) (model : List Bool) (st : List Int × List Bool × Clause) (i : Nat) :
    Option (List Int × List Bool × Clause) := do
  let (newAssumptions, visited, complementClause) := st
  if ← model[i]? then
    if ← visited[i]? then
      return (newAssumptions, visited, complementClause)
    else
      return (newAssumptions ++ [← af.acceptedVar[i]?], ← setAt visited i true,
        complementClause)
  else
    return (newAssumptions, visited, complementClause ++ [← af.acceptedVar[i]?])

/-- The locals of the inner loop of `is_skeptically_preferred`. -/
structure GrowState (S : Type) where
  solver : S
  newAssumptions : List Int
  visited : List Bool

/-- A round of the inner loop of `is_skeptically_preferred`. -/
def growRound (af : AF) (st : GrowState S) : Run Fault σ (GrowState S ⊕ (S × List Int)) := do
  let (newAssumptions, visited, complementClause) ← bounds
    ((List.range af.args).foldlM (growStep af (model lib st.solver))
      (st.newAssumptions, st.visited, []))
  let solver ← addClause lib st.solver complementClause
  let (supersetExists, solver) ← solveAssuming lib solver newAssumptions
  if supersetExists = .UNSAT_V then
    return .inr (solver, newAssumptions)
  else
    return .inl ⟨solver, newAssumptions, visited⟩

/-- `new_assumptions[0] = -new_assumptions[0];` -/
def flipFirst (lits : List Int) : Option (List Int) := do
  setAt lits 0 (-(← lits[0]?))

/-- A round of the outer loop of `is_skeptically_preferred`. -/
def skepticalRound (af : AF) (fuel : Nat) (assumptions : List Int)
    (solver : S) : Run Fault σ (S ⊕ Bool) := do
  let (sat, solver) ← solveAssuming lib solver assumptions
  if sat = .UNSAT_V then
    return .inr true
  else
    let (solver, newAssumptions) ← whileTrue (growRound lib af) fuel
      ⟨solver, assumptions, List.replicate af.args false⟩
    let newAssumptions ← bounds (flipFirst newAssumptions)
    let (sat, solver) ← solveAssuming lib solver newAssumptions
    if sat = .UNSAT_V then
      return .inr false
    else
      return .inl solver

/-- `Algorithms::is_skeptically_preferred`. -/
def isSkepticallyPreferred (perfEnc : Bool) (af : AF) (arg fuel : Nat) : Run Fault σ Bool := do
  let solver := new lib af.count af.args
  let solver ← addClauses lib solver (← bounds (Encodings.complete perfEnc af))
  let assumptions := [-(← bounds af.acceptedVar[arg]?)]
  whileTrue (skepticalRound lib af fuel assumptions) fuel solver

/-- The round of the PR branch of `iaq_skep` for argument `i`. -/
def iaqSkepRoundPR (perfEnc : Bool) (af : AF) (fuel : Nat)
    (result : List String) (i : Nat) : Run Fault σ (List String) := do
  if ← isSkepticallyPreferred lib perfEnc af i fuel then
    return result ++ [← bounds af.intToArg[i]?]
  else
    return result

/-- The round of the ST branch of `iaq_skep` for argument `i`. -/
def iaqSkepRoundST (af : AF) (st : List String × S) (i : Nat) :
    Run Fault σ (List String × S) := do
  let solver ← assume lib st.2 (-(← bounds af.acceptedVar[i]?))
  let (sat, solver) ← solve lib solver
  if sat = .UNSAT_V then
    return (st.1 ++ [← bounds af.intToArg[i]?], solver)
  else
    return (st.1, solver)

/-- `Algorithms::iaq_skep`. -/
def iaqSkep (perfEnc : Bool) (af : AF) (sem : Semantics) (fuel : Nat) :
    Run Fault σ (List String) :=
  match sem with
  | .PR => (List.range af.args).foldlM (iaqSkepRoundPR lib perfEnc af fuel) []
  | .ST => do
      let solver := new lib af.count af.args
      let solver ← addClauses lib solver (← bounds (Encodings.stable af))
      let (result, _) ← (List.range af.args).foldlM (iaqSkepRoundST lib af) ([], solver)
      return result
  | .CO | .UNKNOWN_SEM => unsupported sem

end Definitions

/-! ## The scan over a model -/

theorem growStep_scan {perfEnc : Bool} {af : AF} (h : AF.Ready perfEnc af)
    (lits : List Int) (p v : Nat → Bool) :
    (List.range af.args).foldlM (growStep af (vec af.args p)) (lits, vec af.args v, []) =
      some (lits ++ accLits af.args (fun i => p i && !v i), vec af.args (fun i => v i || p i),
        complement af.args p) := by
  have hscan := foldlM_range (n := af.args) (f := growStep af (vec af.args p))
    (fun k => (lits ++ accLits k (fun i => p i && !v i),
      updated af.args k (fun i => v i || p i) v, complement k p)) ?_
  · rw [updated_zero, updated_all] at hscan
    simpa [accLits, complement] using hscan
  · intro k hk
    simp only [growStep, vec_get p hk, updated_get _ v hk, accLits, complement, picks_succ,
      h.acceptedVar_get hk, Option.bind_eq_bind, Option.bind_some, Option.pure_def]
    cases hp : p k <;> cases hv : v k
    · simp [updated_succ_of_eq, hp]
    · simp [updated_succ_of_eq, hv]
    · simp [setAt_updated hk, hp]
    · simp [updated_succ_of_eq, hv]

/-! ## Credulous acceptance -/

section Correctness

variable {perfEnc : Bool} {af : AF} {O : Oracle} {w : List Event}

/-- Assuming one acceptance variable. -/
theorem allHold_accVar {n : Nat} (i : Fin n) (m : Assignment) :
    AllHold m [(accVar i : Int)] ↔ labelled n accVar m ∈ {S | i ∈ S} := by
  rw [allHold_cons, litHolds_accVar]
  simp

/-- Assuming the negation of one acceptance variable. -/
theorem allHold_neg_accVar {n : Nat} (i : Fin n) (m : Assignment) :
    AllHold m [-(accVar i : Int)] ↔ labelled n accVar m ∈ {S | i ∉ S} := by
  rw [allHold_cons, litHolds_neg_accVar]
  simp

/-- The query for argument `k` on the shared solver, whatever was assumed before. -/
theorem iaqCredRound_ensures (h : AF.Ready perfEnc af) (hO : O.Correct)
    {F : Set (Set (Fin af.args))} {k : Nat} (hk : k < af.args)
    {st : List String × SatSolver} (hsolver : Searches af.args F Set.univ st.2)
    (hresult : st.1 = picks k (flagsOf (⋃₀ F)) af.name) :
    Ensures (iaqCredRound O af st k) w
      (fun st' _ => Searches af.args F Set.univ st'.2 ∧
        st'.1 = picks (k + 1) (flagsOf (⋃₀ F)) af.name) (fun _ _ => False) := by
  simp only [iaqCredRound, h.acceptedVar_get hk, h.intToArg_get hk, bounds,
    Run.ofOption_some, Run.pure_bind]
  apply ensures_bind
  apply SatSolver.ensures_assume
  apply ensures_bind
  apply (hsolver.assumeAll (allHold_accVar ⟨k, hk⟩)).ensures_solve hO
  · intro hno solver' w' hsolver'
    apply ensures_pure
    refine ⟨hsolver', ?_⟩
    have hflag : ¬ flagsOf (⋃₀ F) k = true := by
      rw [flagsOf_eq_true hk]
      intro hmem
      obtain ⟨S, hS, hkS⟩ := hmem
      exact hno S hS hkS
    simp [picks_succ, hflag, hresult]
  · intro p hp hkp solver' w' hsolver' _
    apply ensures_pure
    refine ⟨hsolver', ?_⟩
    have hflag : flagsOf (⋃₀ F) k = true := (flagsOf_eq_true hk).mpr ⟨_, hp, hkp⟩
    simp [picks_succ, hflag, hresult]

/-- Every argument of some accepted set is reported. -/
theorem iaqCred_ensures (h : AF.Ready perfEnc af) (hO : O.Correct) {sem : Semantics}
    {cs : List Clause} (hcs : (encodeCred perfEnc af sem : SolveM _) = pure cs) :
    Ensures (iaqCred O perfEnc af sem) w
      (fun r _ => r = namesOf af (⋃₀ family af.args cs)) (fun _ _ => False) := by
  unfold iaqCred
  rw [hcs, Run.pure_bind]
  apply ensures_bind
  apply SatSolver.ensures_addClauses
  apply ensures_bind
  refine (ensures_foldlM_range (fun k st _ =>
    Searches af.args (family af.args cs) Set.univ st.2 ∧
      st.1 = picks k (flagsOf (⋃₀ family af.args cs)) af.name) af.args ?_ ?_).post ?_
  · intro k hk st w' hst
    exact iaqCredRound_ensures h hO hk hst.1 hst.2
  · exact ⟨searches_encoded af.count cs, rfl⟩
  · intro st w' hst
    apply ensures_pure
    exact hst.2.trans (picks_name flagsOf_coe)

/-! ## Skeptical acceptance under preferred semantics -/

/-- The assumptions of the search: avoid `arg` and contain the marked set. -/
def Growing {n : Nat} (arg : Fin n) (v : Nat → Bool) (lits : List Int) : Prop :=
  ∃ rest, lits = -(accVar arg : Int) :: rest ∧
    ∀ m, AllHold m rest ↔ toSet n v ⊆ labelled n accVar m

theorem Growing.allHold {n : Nat} {arg : Fin n} {v : Nat → Bool} {lits : List Int}
    (h : Growing arg v lits) (m : Assignment) :
    AllHold m lits ↔ labelled n accVar m ∈ {S | arg ∉ S ∧ toSet n v ⊆ S} := by
  obtain ⟨rest, rfl, hrest⟩ := h
  simp [litHolds_neg m (accVar_ne_zero arg), hrest m]

/-- Flipping the first assumption asks for `arg` instead. -/
theorem Growing.flipFirst {n : Nat} {arg : Fin n} {v : Nat → Bool} {lits : List Int}
    (h : Growing arg v lits) :
    ∃ flipped, flipFirst lits = some flipped ∧
      ∀ m, AllHold m flipped ↔ labelled n accVar m ∈ {S | arg ∈ S ∧ toSet n v ⊆ S} := by
  obtain ⟨rest, rfl, hrest⟩ := h
  refine ⟨(accVar arg : Int) :: rest, by simp [Algorithms.flipFirst, setAt], fun m => ?_⟩
  simp [litHolds_pos m (accVar_ne_zero arg), hrest m]

/-- What holds of the sets that are no longer searched: they avoid `arg`, and some
accepted set with `arg` or the set `X` lies above them. -/
def Discarded {n : Nat} (F G : Set (Set (Fin n))) (arg : Fin n) (X : Set (Fin n)) : Prop :=
  ∀ S ∈ F, S ∉ G → arg ∉ S ∧ (S ⊆ X ∨ ∃ T ∈ F, arg ∈ T ∧ S ⊆ T)

/-- The head of the inner loop: `p` is the current candidate and `v` the part of it
that is already assumed. -/
structure GrowInv {n : Nat} (F G : Set (Set (Fin n))) (arg : Fin n) (p v : Nat → Bool)
    (st : GrowState SatSolver) : Prop where
  searches : Searches n G Set.univ st.solver
  subset : G ⊆ F
  model_eq : st.solver.model = vec n p
  mem : toSet n p ∈ G
  avoids : arg ∉ toSet n p
  visited_eq : st.visited = vec n v
  visited_subset : toSet n v ⊆ toSet n p
  growing : Growing arg v st.newAssumptions
  discarded : Discarded F G arg (toSet n p)

/-- The set whose subsets the last clause blocks. -/
def lastBlocked (n : Nat) (solver : SatSolver) : Set (Fin n) :=
  {i | (accVar i : Int) ∉ solver.clauses.getLastD []}

theorem lastBlocked_complement {n : Nat} {solver : SatSolver} {p : Nat → Bool}
    (h : solver.clauses.getLast? = some (complement n p)) : lastBlocked n solver = toSet n p := by
  have hmem : ∀ i : Fin n, (accVar i : Int) ∈ complement n p ↔ p i = false := by
    intro i
    simp [complement, accLits, picks, accVar]
  ext i
  rw [lastBlocked, Set.mem_ofPred_eq, List.getLastD_eq_getLast?, h, Option.getD_some, hmem,
    mem_toSet, Bool.not_eq_false]

/-- The end of the inner loop: no searched set above the candidate avoids `arg`. -/
structure GrowDone {n : Nat} (F G : Set (Set (Fin n))) (arg : Fin n) (p : Nat → Bool)
    (solver : SatSolver) (lits : List Int) : Prop where
  searches : Searches n G Set.univ solver
  subset : G ⊆ F
  mem : toSet n p ∈ F
  growing : Growing arg p lits
  closed : ∀ S ∈ G, toSet n p ⊆ S → arg ∈ S
  blocks : solver.clauses.getLast? = some (complement n p)
  discarded : Discarded F G arg (toSet n p)

/-- Blocking the subsets of the candidate discards only sets below it. -/
theorem Discarded.block {n : Nat} {F G : Set (Set (Fin n))} {arg : Fin n}
    {X : Set (Fin n)} (h : Discarded F G arg X) (hX : arg ∉ X) :
    Discarded F {S ∈ G | ¬ S ⊆ X} arg X := by
  intro S hS hSG
  by_cases hmem : S ∈ G
  · have hSX : S ⊆ X := by
      by_contra hn
      exact hSG ⟨hmem, hn⟩
    exact ⟨fun ha => hX (hSX ha), Or.inl hSX⟩
  · exact h S hS hmem

theorem Discarded.mono {n : Nat} {F G : Set (Set (Fin n))} {arg : Fin n}
    {X Y : Set (Fin n)} (h : Discarded F G arg X) (hXY : X ⊆ Y) : Discarded F G arg Y := by
  intro S hS hSG
  obtain ⟨ha, hsub | hT⟩ := h S hS hSG
  · exact ⟨ha, Or.inl (hsub.trans hXY)⟩
  · exact ⟨ha, Or.inr hT⟩

/-- The scan of the inner loop extends the assumptions to the whole candidate. -/
theorem Growing.scan {n : Nat} {arg : Fin n} {p v : Nat → Bool} {lits : List Int}
    (h : Growing arg v lits) (hvp : toSet n v ⊆ toSet n p) :
    Growing arg p (lits ++ accLits n (fun i => p i && !v i)) := by
  obtain ⟨rest, rfl, hrest⟩ := h
  refine ⟨rest ++ accLits n (fun i => p i && !v i), rfl, fun m => ?_⟩
  rw [allHold_append, hrest m, allHold_accLits]
  constructor
  · intro hx i hi
    obtain ⟨hv, hpv⟩ := hx
    by_cases hiv : i ∈ toSet n v
    · exact hv hiv
    · apply hpv
      simp only [mem_toSet] at hi hiv ⊢
      simp [hi, hiv]
  · intro hp
    exact ⟨hvp.trans hp, (toSet_and_subset_left _ _).trans hp⟩

theorem growRound_ensures (h : AF.Ready perfEnc af) (hO : O.Correct)
    {F G : Set (Set (Fin af.args))} {arg : Fin af.args} {p v : Nat → Bool}
    {st : GrowState SatSolver} (hst : GrowInv F G arg p v st) :
    Ensures (growRound O af st) w (fun x _ => match x with
      | .inl st' => ∃ p' v', toSet af.args p ⊂ toSet af.args p' ∧
          GrowInv F {S ∈ G | ¬ S ⊆ toSet af.args p} arg p' v' st'
      | .inr (solver, lits) => GrowDone F {S ∈ G | ¬ S ⊆ toSet af.args p} arg p solver lits)
      (fun _ _ => False) := by
  obtain ⟨solver, lits, visited⟩ := st
  obtain ⟨hsearch, hGF, hmodel, hmem, havoid, hvisited, hvp, hgrow, hdisc⟩ := hst
  simp only at hsearch hmodel hvisited hgrow
  have hor : toSet af.args (fun i => v i || p i) = toSet af.args p := by
    rw [toSet_or, Set.union_eq_right.mpr hvp]
  have hgrow' := hgrow.scan hvp
  unfold growRound
  simp only [Oracle.model_eq, hmodel, hvisited, growStep_scan h, bounds, Run.ofOption_some,
    Run.pure_bind]
  apply ensures_bind
  apply SatSolver.ensures_addClause
  apply ensures_bind
  apply (hsearch.block p).ensures_solveAssuming_clauses hO hgrow'.allHold
  · intro hno solver' w' hsearch' hclauses
    apply ensures_pure
    refine ⟨hsearch', (Set.sep_subset _ _).trans hGF, hGF hmem, hgrow', ?_, ?_,
      hdisc.block havoid⟩
    · intro S hS hpS
      by_contra ha
      exact hno S hS ⟨ha, hpS⟩
    · rw [hclauses]
      exact List.getLast?_concat
  · intro q hq hx solver' w' hsearch' _ hmodel'
    obtain ⟨haq, hpq⟩ := hx
    apply ensures_pure
    refine ⟨q, _, ⟨hpq, hq.2⟩, ⟨hsearch', (Set.sep_subset _ _).trans hGF, hmodel', hq, haq, rfl,
      ?_, ?_, (hdisc.block havoid).mono hpq⟩⟩
    · rw [hor]
      exact hpq
    · obtain ⟨rest, hrest, hall⟩ := hgrow'
      exact ⟨rest, hrest, fun m => by rw [hor]; exact hall m⟩

/-- The inner loop terminates with a candidate that cannot grow without `arg`. Each round
but the last adds an argument to it, and all that it blocks are the subsets of the last
candidate. -/
theorem growRounds_ensures (h : AF.Ready perfEnc af) (hO : O.Correct)
    {F G : Set (Set (Fin af.args))} {arg : Fin af.args} {p v : Nat → Bool}
    {st : GrowState SatSolver} (hst : GrowInv F G arg p v st) {fuel : Nat}
    (hfuel : 2 ^ af.args < fuel) :
    Ensures (whileTrace (growRound O af) fuel st) w
      (fun x _ => ∃ p', toSet af.args p' ∈ {S ∈ G | arg ∉ S} ∧
        x.1.length ≤ (toSet af.args p').ncard ∧
        GrowDone F {S ∈ G | ¬ S ⊆ toSet af.args p'} arg p' x.2.1 x.2.2)
      (fun _ _ => False) := by
  refine ensures_whileTrace (fun k rounds st _ => ∃ G' p' v', GrowInv F G' arg p' v' st ∧
      G' ⊆ G ∧ {S ∈ G' | ¬ S ⊆ toSet af.args p'} = {S ∈ G | ¬ S ⊆ toSet af.args p'} ∧
      rounds.length ≤ (toSet af.args p').ncard ∧ G'.ncard = k)
    (fun rounds (x : SatSolver × List Int) _ => ∃ p', toSet af.args p' ∈ {S ∈ G | arg ∉ S} ∧
      rounds.length ≤ (toSet af.args p').ncard ∧
      GrowDone F {S ∈ G | ¬ S ⊆ toSet af.args p'} arg p' x.1 x.2) ?_
    ⟨G, p, v, hst, Set.Subset.rfl, rfl, Nat.zero_le _, rfl⟩
    (Nat.lt_of_le_of_lt (ncard_le_two_pow G) hfuel)
  intro k rounds st' w' hy
  obtain ⟨G', p', v', hst', hsub, hsame, hlen, rfl⟩ := hy
  apply (growRound_ensures h hO hst').post
  intro y w'' hx
  cases y with
  | inl st'' =>
      obtain ⟨q, u, hlt, hst''⟩ := hx
      have hfewer : {S ∈ G' | ¬ S ⊆ toSet af.args p'}.ncard < G'.ncard :=
        ncard_sep_lt hst'.mem (fun hn => hn (Set.Subset.refl _))
      refine ⟨_, hfewer, _, q, u, hst'', (Set.sep_subset _ _).trans hsub, ?_, ?_, rfl⟩
      · -- What lies below the old candidate lies below the new one.
        rw [hsame]
        ext S
        exact ⟨fun hS => ⟨hS.1.1, hS.2⟩, fun hS => ⟨⟨hS.1, fun hle => hS.2 (hle.trans hlt.1)⟩,
          hS.2⟩⟩
      · have hmore := Set.ncard_lt_ncard hlt
        rw [List.length_append, List.length_singleton]
        omega
  | inr x => exact ⟨p', ⟨hsub hst'.mem, hst'.avoids⟩, hlen, hsame ▸ hx⟩

theorem grow_ensures (h : AF.Ready perfEnc af) (hO : O.Correct)
    {F G : Set (Set (Fin af.args))} {arg : Fin af.args} {p v : Nat → Bool}
    {st : GrowState SatSolver} (hst : GrowInv F G arg p v st) {fuel : Nat}
    (hfuel : 2 ^ af.args < fuel) :
    Ensures (whileTrue (growRound O af) fuel st) w
      (fun x _ => ∃ p', toSet af.args p' ∈ {S ∈ G | arg ∉ S} ∧
        GrowDone F {S ∈ G | ¬ S ⊆ toSet af.args p'} arg p' x.1 x.2)
      (fun _ _ => False) := by
  apply ensures_whileTrue_of_trace
  apply (growRounds_ensures h hO hst hfuel).post
  intro x w' hx
  obtain ⟨p', hp', -, hdone⟩ := hx
  exact ⟨p', hp', hdone⟩

/-- The head of the outer loop: whatever is no longer searched avoids `arg` and lies
below an accepted set with `arg`. -/
structure SkepticalInv {n : Nat} (F G : Set (Set (Fin n))) (arg : Fin n)
    (solver : SatSolver) : Prop where
  searches : Searches n G Set.univ solver
  subset : G ⊆ F
  covered : ∀ S ∈ F, S ∉ G → arg ∉ S ∧ ∃ T ∈ F, arg ∈ T ∧ S ⊆ T

/-- No set without `arg` is left: `arg` is in every preferred extension. -/
theorem SkepticalInv.skeptical {n : Nat} {att : Fin n → Fin n → Prop}
    {F G : Set (Set (Fin n))} {arg : Fin n} {solver : SatSolver}
    (hF : PreferredFamily att F) (h : SkepticalInv F G arg solver)
    (hno : ∀ S ∈ G, S ∉ {S | arg ∉ S}) : Skeptical att arg := by
  intro P hP
  by_cases hPG : P ∈ G
  · exact Classical.not_not.mp (hno P hPG)
  · obtain ⟨-, T, hTF, ha, hPT⟩ := h.covered P (hF.preferred P hP) hPG
    rwa [hP.eq_of_subset (hF.admissible T hTF) hPT] at ha

/-- No searched set lies above the candidate: a preferred extension avoids `arg`. -/
theorem GrowDone.not_skeptical {n : Nat} {att : Fin n → Fin n → Prop}
    {F G : Set (Set (Fin n))} {arg : Fin n} {p : Nat → Bool} {solver : SatSolver}
    {lits : List Int} (hF : PreferredFamily att F) (h : GrowDone F G arg p solver lits)
    (hno : ∀ S ∈ G, S ∉ {S | arg ∈ S ∧ toSet n p ⊆ S}) : ¬ Skeptical att arg := by
  intro hsk
  obtain ⟨P, hPF, hpP, hP⟩ := hF.exists_preferred h.mem
  by_cases hPG : P ∈ G
  · exact hno P hPG ⟨h.closed P hPG hpP, hpP⟩
  · exact (h.discarded P hPF hPG).1 (hsk P hP)

/-- A set with `arg` above the candidate covers what the inner loop discarded. -/
theorem GrowDone.skepticalInv {n : Nat} {F G : Set (Set (Fin n))} {arg : Fin n}
    {p : Nat → Bool} {solver solver' : SatSolver} {lits : List Int}
    (h : GrowDone F G arg p solver lits) (hsearch : Searches n G Set.univ solver')
    {T : Set (Fin n)} (hT : T ∈ G) (ha : arg ∈ T) (hpT : toSet n p ⊆ T) :
    SkepticalInv F G arg solver' where
  searches := hsearch
  subset := h.subset
  covered := by
    intro S hS hSG
    obtain ⟨haS, hsub | hcov⟩ := h.discarded S hS hSG
    · exact ⟨haS, T, h.subset hT, ha, hsub.trans hpT⟩
    · exact ⟨haS, hcov⟩

/-- The candidate is maximal among the searched sets that avoid `arg`. -/
theorem GrowDone.maximal {n : Nat} {F G : Set (Set (Fin n))} {arg : Fin n} {p : Nat → Bool}
    {solver : SatSolver} {lits : List Int}
    (h : GrowDone F {S ∈ G | ¬ S ⊆ toSet n p} arg p solver lits)
    (hp : toSet n p ∈ {S ∈ G | arg ∉ S}) : Maximal (· ∈ {S ∈ G | arg ∉ S}) (toSet n p) := by
  refine ⟨hp, fun S hS hpS => ?_⟩
  by_contra hn
  exact hS.2 (h.closed S ⟨hS.1, hn⟩ hpS)

/-- The head of the inner loop after the first query of a round of the outer one. -/
theorem SkepticalInv.growInv {n : Nat} {F G : Set (Set (Fin n))} {arg : Fin n}
    {solver solver' : SatSolver} (h : SkepticalInv F G arg solver) {p : Nat → Bool}
    (hp : toSet n p ∈ G) (havoid : arg ∉ toSet n p) (hsearch : Searches n G Set.univ solver')
    (hmodel : solver'.model = vec n p) :
    GrowInv F G arg p (fun _ => false)
      ⟨solver', [-(accVar arg : Int)], List.replicate n false⟩ where
  searches := hsearch
  subset := h.subset
  model_eq := hmodel
  mem := hp
  avoids := havoid
  visited_eq := replicate_eq_vec n false
  visited_subset := fun i hi => by simp at hi
  growing := ⟨[], rfl, fun m => by simp [toSet]⟩
  discarded := fun S hS hSG => ⟨(h.covered S hS hSG).1, Or.inr (h.covered S hS hSG).2⟩

/-- A round of the outer loop answers, or it blocks the subsets of a maximal set without
`arg`. -/
theorem skepticalRound_ensures (h : AF.Ready perfEnc af) (hO : O.Correct)
    {F G : Set (Set (Fin af.args))} (hF : PreferredFamily af.att F) {arg : Fin af.args}
    {solver : SatSolver} (hinv : SkepticalInv F G arg solver) {fuel : Nat}
    (hfuel : 2 ^ af.args < fuel) :
    Ensures (skepticalRound O af fuel [-(accVar arg : Int)] solver) w (fun x _ => match x with
      | .inl solver' => Maximal (· ∈ {T ∈ G | arg ∉ T}) (lastBlocked af.args solver') ∧
          SkepticalInv F {T ∈ G | ¬ T ⊆ lastBlocked af.args solver'} arg solver'
      | .inr b => b = true ↔ Skeptical af.att arg) (fun _ _ => False) := by
  unfold skepticalRound
  apply ensures_bind
  apply hinv.searches.ensures_solveAssuming hO (allHold_neg_accVar arg)
  · intro hno solver' w' _
    apply ensures_pure
    exact iff_of_true rfl (hinv.skeptical hF hno)
  · intro p hp hap solver' w' hsearch' hmodel'
    apply ensures_bind
    apply (grow_ensures h hO (hinv.growInv hp hap hsearch' hmodel') hfuel).post
    intro y w₁ hx
    obtain ⟨solver₁, lits⟩ := y
    obtain ⟨q, hq, hdone⟩ := hx
    obtain ⟨flipped, hflip, hflipped⟩ := hdone.growing.flipFirst
    simp only [hflip, bounds, Run.ofOption_some, Run.pure_bind]
    apply ensures_bind
    apply hdone.searches.ensures_solveAssuming_clauses hO hflipped
    · intro hno solver₂ w₂ _ _
      apply ensures_pure
      exact iff_of_false (by simp) (hdone.not_skeptical hF hno)
    · intro q' hq' hx solver₂ w₂ hsearch₂ hclauses _
      obtain ⟨ha, hsub⟩ := hx
      have hlast : lastBlocked af.args solver₂ = toSet af.args q :=
        lastBlocked_complement (by rw [hclauses]; exact hdone.blocks)
      apply ensures_pure
      simp only [hlast]
      exact ⟨hdone.maximal hq, hdone.skepticalInv hsearch₂ hq' ha hsub⟩

/-- The search terminates and decides skeptical acceptance. -/
theorem isSkepticallyPreferred_ensures (h : AF.Ready perfEnc af) (hO : O.Correct)
    (arg : Fin af.args) {fuel : Nat} (hfuel : 2 ^ af.args < fuel) :
    Ensures (isSkepticallyPreferred O perfEnc af arg fuel) w
      (fun b _ => b = true ↔ Skeptical af.att arg) (fun _ _ => False) := by
  obtain ⟨cs, hcs, hF⟩ := complete_spec h
  unfold isSkepticallyPreferred
  simp only [hcs, h.acceptedVar_get arg.2, bounds, Run.ofOption_some, Run.pure_bind]
  apply ensures_bind
  apply SatSolver.ensures_addClauses
  have hstart : SkepticalInv (family af.args cs) (family af.args cs) arg
      { SatSolver.new af.count af.args with
        clauses := (SatSolver.new af.count af.args).clauses ++ cs } :=
    ⟨searches_encoded af.count cs, Set.Subset.rfl, fun S hS hSG => (hSG hS).elim⟩
  refine ensures_whileTrue (fun k solver _ => ∃ G,
    SkepticalInv (family af.args cs) G arg solver ∧ G.ncard = k) _ ?_
    ⟨_, hstart, rfl⟩ (Nat.lt_of_le_of_lt (ncard_le_two_pow _) hfuel)
  intro k solver w' hInv
  obtain ⟨G, hinv, rfl⟩ := hInv
  apply (skepticalRound_ensures h hO hF hinv hfuel).post
  intro x w'' hx
  cases x with
  | inl solver' =>
      obtain ⟨hS, hinv'⟩ := hx
      have hlt : {T ∈ G | ¬ T ⊆ lastBlocked af.args solver'}.ncard < G.ncard :=
        ncard_sep_lt hS.prop.1 (fun hn => hn (Set.Subset.refl _))
      exact ⟨_, hlt, _, hinv', rfl⟩
  | inr b => exact hx

theorem iaqSkep_PR_ensures (h : AF.Ready perfEnc af) (hO : O.Correct) {fuel : Nat}
    (hfuel : 2 ^ af.args < fuel) :
    Ensures (iaqSkep O perfEnc af .PR fuel) w
      (fun r _ => r = namesOf af {i | Skeptical af.att i}) (fun _ _ => False) := by
  refine (ensures_foldlM_range (fun k result _ =>
    result = picks k (flagsOf {i | Skeptical af.att i}) af.name) af.args ?_ rfl).post ?_
  · intro k hk result w' heq
    subst heq
    unfold iaqSkepRoundPR
    apply ensures_bind
    apply (isSkepticallyPreferred_ensures h hO ⟨k, hk⟩ hfuel).post
    intro b w'' hb
    have hflag : flagsOf {i | Skeptical af.att i} k = b := by
      rw [Bool.eq_iff_iff, hb]
      exact flagsOf_eq_true hk
    cases b with
    | true =>
        simp only [if_true, h.intToArg_get hk, bounds, Run.ofOption_some, Run.pure_bind]
        apply ensures_pure
        simp [picks_succ, hflag]
    | false =>
        apply ensures_pure
        simp [picks_succ, hflag]
  · intro result w' heq
    subst heq
    exact picks_name flagsOf_coe

end Correctness

/-- `is_skeptically_preferred` terminates and decides membership in all preferred
extensions, and `iaq_skep` reports the skeptical arguments in index order. -/
theorem iaq_skep_preferred (perfEnc : Bool) (names : List String)
    (atts : List (String × String)) (hnames : names.Nodup) (O : Oracle) (hO : O.Correct) :
    ∃ af, AF.build perfEnc names atts = some af ∧
      ∀ fuel > 2 ^ af.args, ∀ log,
        (∀ arg : Fin af.args, ∃ b log',
          isSkepticallyPreferred O perfEnc af arg fuel log = (.ok b, log') ∧
          (b = true ↔ Skeptical af.att arg)) ∧
        ∃ result log', iaqSkep O perfEnc af .PR fuel log = (.ok result, log') ∧
          result = namesOf af {i | Skeptical af.att i} ∧ result.Nodup := by
  obtain ⟨af, haf, hready, hnames', -⟩ := AF.build_spec perfEnc names atts
  refine ⟨af, haf, fun fuel hfuel log => ⟨fun arg => ?_, ?_⟩⟩
  · exact (isSkepticallyPreferred_ensures hready hO arg hfuel).exists_ok
  · obtain ⟨result, log', hrun, hresult⟩ :=
      (iaqSkep_PR_ensures (w := log) hready hO hfuel).exists_ok
    refine ⟨result, log', hrun, hresult, ?_⟩
    rw [hresult]
    exact (reports_namesOf af _).nodup hready (hnames' ▸ hnames)

theorem iaq_skep_preferred_mutual : ∃ af,
    AF.build true ["a", "b"] [("a", "b"), ("b", "a")] = some af ∧
      ∀ fuel > 2 ^ af.args, ∀ log,
        (∀ arg : Fin af.args, ∃ b log',
          isSkepticallyPreferred Oracle.exhaustive true af arg fuel log = (.ok b, log') ∧
          (b = true ↔ Skeptical af.att arg)) ∧
        ∃ result log', iaqSkep Oracle.exhaustive true af .PR fuel log = (.ok result, log') ∧
          result = namesOf af {i | Skeptical af.att i} ∧ result.Nodup :=
  iaq_skep_preferred true ["a", "b"] [("a", "b"), ("b", "a")] (by decide)
    Oracle.exhaustive Oracle.exhaustive_correct

end AcceptableArguments.Algorithms
