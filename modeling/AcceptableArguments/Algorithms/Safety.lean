import AcceptableArguments.Algorithms.LiteralRanges

/-!
# The algorithms are safe

One lemma for each loop of each algorithm, with the invariant that the loop keeps:
the solver has its constructed size, every vector of flags has one entry per argument,
every collected literal is in range and no argument is listed twice.
-/

namespace AcceptableArguments.Algorithms

open AcceptableArguments.Sat Imperative Encodings

/-! ## Lists of names -/

/-- The list names arguments of the framework, each index at most once. -/
def Listing (af : AF) (result : List String) : Prop := ∃ S, Reports af S result

theorem Reports.listing {af : AF} {S : Set (Fin af.args)} {result : List String}
    (h : Reports af S result) : Listing af result := ⟨S, h⟩

/-- The list names arguments below `k`, as it does in a loop over the arguments. -/
def ListedBelow (af : AF) (k : Nat) (result : List String) : Prop :=
  ∃ S, Reports af S result ∧ ∀ i ∈ S, i.val < k

theorem listedBelow_nil (af : AF) : ListedBelow af 0 [] := ⟨∅, reports_nil af, by simp⟩

theorem ListedBelow.listing {af : AF} {k : Nat} {result : List String}
    (h : ListedBelow af k result) : Listing af result := by
  obtain ⟨S, hS, -⟩ := h
  exact hS.listing

theorem ListedBelow.succ {af : AF} {k : Nat} {result : List String}
    (h : ListedBelow af k result) : ListedBelow af (k + 1) result := by
  obtain ⟨S, hS, hlt⟩ := h
  exact ⟨S, hS, fun i hi => Nat.lt_succ_of_lt (hlt i hi)⟩

/-- The index of the round is new, so its name is listed once. -/
theorem ListedBelow.append_name {af : AF} {k : Nat} {result : List String}
    (h : ListedBelow af k result) (hk : k < af.args) :
    ListedBelow af (k + 1) (result ++ [af.name k]) := by
  obtain ⟨S, hS, hlt⟩ := h
  refine ⟨insert ⟨k, hk⟩ S, hS.append_name fun hmem => Nat.lt_irrefl k (hlt _ hmem), ?_⟩
  intro i hi
  rcases Set.mem_insert_iff.mp hi with rfl | hi
  · exact Nat.lt_succ_self k
  · exact Nat.lt_succ_of_lt (hlt i hi)

section Safety

variable {perfEnc : Bool} {af : AF} (h : AF.Ready perfEnc af) {nVars : Nat} (O : Oracle)

include h

theorem two_mul_args_le (hmem : nVars ∈ solverSizes af) : 2 * af.args ≤ nVars := by
  have hcount := h.count_eq
  simp only [solverSizes, List.mem_cons, List.not_mem_nil, or_false] at hmem
  split at hcount <;> omega

theorem accVars (hmem : nVars ∈ solverSizes af) : VarsUpTo af.args nVars accVar :=
  accVar_upTo (two_mul_args_le h hmem)

theorem rejVars (hmem : nVars ∈ solverSizes af) : VarsUpTo af.args nVars (rejVar af.args) :=
  rejVar_upTo (two_mul_args_le h hmem)

/-! ## The encodings -/

omit h in
theorem count_mem : af.count ∈ solverSizes af := by simp [solverSizes]

/-- The two forms of the complete encoding use the variables that the framework counts. -/
theorem safe_complete :
    Safe af (bounds (Encodings.complete perfEnc af))
      (fun cs => ∀ c ∈ cs, ∀ l ∈ c, InRange af.count l) := by
  have hacc := accVars h count_mem
  have hrej := rejVars h count_mem
  cases perfEnc with
  | true =>
      exact safe_bounds ⟨_, complete_perf_eq h,
        completePerfClauses_range hacc hrej h.attackers_lt⟩
  | false =>
      have hund : VarsUpTo af.args af.count (undVar af.args) :=
        undVar_upTo (by simp [h.count_eq])
      exact safe_bounds ⟨_, complete_eq h,
        completeClauses_range hacc hrej hund h.attackers_lt⟩

theorem safe_stable (hmem : nVars ∈ solverSizes af) :
    Safe af (bounds (Encodings.stable af)) (fun cs => ∀ c ∈ cs, ∀ l ∈ c, InRange nVars l) :=
  safe_bounds ⟨_, stable_eq h,
    stableClauses_range (accVars h hmem) (rejVars h hmem) h.attackers_lt⟩

/-- The encodings of the credulous tasks, and the exit for the other semantics. -/
theorem safe_encodeCred (sem : Semantics) :
    Safe af (encodeCred perfEnc af sem)
      (fun cs => ∀ c ∈ cs, ∀ l ∈ c, InRange af.count l) := by
  cases sem with
  | CO => exact safe_complete h
  | PR => exact safe_complete h
  | ST => exact safe_stable h count_mem
  | UNKNOWN_SEM => exact safe_unsupported _

omit h in
/-- A solver that has received the clauses of the chosen encoding. -/
theorem safe_encode {encode : SolveM (List Clause)} (hmem : nVars ∈ solverSizes af)
    (hencode : Safe af encode (fun cs => ∀ c ∈ cs, ∀ l ∈ c, InRange nVars l)) {α : Type}
    {f : SatSolver → SolveM α} {Q : α → Prop}
    (hf : ∀ solver, Fits af nVars solver → Safe af (f solver) Q) :
    Safe af (do
      let solver ← (SatSolver.new nVars af.args).addClauses (← encode)
      f solver) Q := by
  apply hencode.bind
  intro cs hcs
  exact (safe_addClauses (fits_new hmem) hcs).bind hf

/-! ## IAQ -/

omit h in
/-- A query with one assumption. -/
theorem safe_assume_solve {solver : SatSolver} (hsolver : Fits af nVars solver) {lit : Int}
    (hlit : InRange nVars lit) {α : Type} {f : Verdict × SatSolver → SolveM α} {Q : α → Prop}
    (hf : ∀ sat solver', Fits af nVars solver' → Safe af (f (sat, solver')) Q) :
    Safe af (do
      let solver ← solver.assume lit
      let answer ← solver.solve O
      f answer) Q := by
  apply (safe_assume hsolver hlit).bind
  intro solver hsolver
  apply (safe_solve O hsolver).bind
  intro x hsolver
  obtain ⟨sat, solver⟩ := x
  exact hf sat solver hsolver

/-- The list holds accepted arguments below the index of the round. -/
theorem iaqCred_safe (sem : Semantics) :
    Safe af (iaqCred O perfEnc af sem) (Listing af) := by
  apply safe_encode count_mem (safe_encodeCred h sem)
  intro solver hsolver
  refine (keeps_foldlM_range (fun k st => Fits af af.count st.2 ∧ ListedBelow af k st.1)
    af.args ?_ ⟨hsolver, listedBelow_nil af⟩).bind fun _ hst => keeps_pure hst.2.listing
  intro i hi x hst
  obtain ⟨result, solver⟩ := x
  obtain ⟨hsolver, hlisted⟩ := hst
  simp only [iaqCredRound, h.acceptedVar_get hi, h.intToArg_get hi, bounds, Run.ofOption_some,
    Run.pure_bind]
  apply safe_assume_solve O hsolver ((accVars h hsolver.mem).pos hi)
  intro sat solver hsolver
  cases sat with
  | SAT_V => exact keeps_pure ⟨hsolver, hlisted.append_name hi⟩
  | UNSAT_V => exact keeps_pure ⟨hsolver, hlisted.succ⟩

/-- The assumptions of the inner loop are in range, and there is a first one. -/
structure GrowFits (af : AF) (nVars : Nat) (solver : SatSolver) (lits : List Int) : Prop where
  fits : Fits af nVars solver
  range : ∀ l ∈ lits, InRange nVars l
  ne_nil : lits ≠ []

/-- The assumptions of the inner loop only get arguments of the model appended. -/
theorem growRound_safe {st : GrowState SatSolver}
    (hst : GrowFits af nVars st.solver st.newAssumptions ∧ Flags af.args st.visited) :
    Safe af (growRound O af st) (Sum.elim
      (fun st' => GrowFits af nVars st'.solver st'.newAssumptions ∧ Flags af.args st'.visited)
      (fun r => GrowFits af nVars r.1 r.2)) := by
  obtain ⟨solver, lits, visited⟩ := st
  obtain ⟨⟨hsolver, hlits, hne⟩, v, hv⟩ := hst
  obtain ⟨p, hp⟩ := hsolver.model_flags
  simp only at hv hp
  unfold growRound
  simp only [Oracle.model_eq, hp, hv, growStep_scan h, bounds, Run.ofOption_some, Run.pure_bind]
  apply (safe_addClause hsolver ((accVars h hsolver.mem).picks _)).bind
  intro solver' hsolver'
  have hlits' : ∀ l ∈ lits ++ accLits af.args (fun i => p i && !v i), InRange nVars l :=
    range_append hlits ((accVars h hsolver.mem).picks _)
  have hne' : lits ++ accLits af.args (fun i => p i && !v i) ≠ [] := by simp [hne]
  apply (safe_solveAssuming O hsolver' hlits').bind
  intro x hsolver''
  obtain ⟨sat, solver''⟩ := x
  cases sat with
  | UNSAT_V => exact keeps_pure ⟨hsolver'', hlits', hne'⟩
  | SAT_V => exact keeps_pure ⟨⟨hsolver'', hlits', hne'⟩, _, rfl⟩

omit h in
/-- There is a first assumption to negate, and its negation names the same variable. -/
theorem flipFirst_range {lits : List Int} (hlits : ∀ l ∈ lits, InRange nVars l)
    (hne : lits ≠ []) : ∃ flipped, flipFirst lits = some flipped ∧
      ∀ l ∈ flipped, InRange nVars l := by
  obtain ⟨l, rest, rfl⟩ := List.exists_cons_of_ne_nil hne
  refine ⟨-l :: rest, by simp [flipFirst, setAt], ?_⟩
  simp only [List.mem_cons, forall_eq_or_imp] at hlits ⊢
  refine ⟨?_, hlits.2⟩
  simpa [InRange] using hlits.1

/-- The assumptions of the outer loop are those it was entered with. -/
theorem skepticalRound_safe (fuel : Nat) {assumptions : List Int} {solver : SatSolver}
    (hst : GrowFits af nVars solver assumptions) :
    Safe af (skepticalRound O af fuel assumptions solver)
      (Sum.elim (fun solver' => GrowFits af nVars solver' assumptions) (fun _ => True)) := by
  apply (safe_solveAssuming O hst.fits hst.range).bind
  intro x hsolver
  obtain ⟨sat, solver⟩ := x
  cases sat with
  | UNSAT_V => exact keeps_pure trivial
  | SAT_V =>
      simp only [reduceCtorEq, if_false]
      have hstart : GrowFits af nVars solver assumptions ∧
          Flags af.args (List.replicate af.args false) :=
        ⟨⟨hsolver, hst.range, hst.ne_nil⟩, flags_replicate _ _⟩
      apply (keeps_whileTrue
        (fun st : GrowState SatSolver => GrowFits af nVars st.solver st.newAssumptions ∧
          Flags af.args st.visited) (by simp)
        (fun st hst => growRound_safe h O hst) fuel hstart).bind
      intro x hdone
      obtain ⟨solver, lits⟩ := x
      apply (safe_bounds (flipFirst_range hdone.range hdone.ne_nil)).bind
      intro flipped hflipped
      apply (safe_solveAssuming O hdone.fits hflipped).bind
      intro x hsolver
      obtain ⟨sat, solver⟩ := x
      cases sat with
      | UNSAT_V => exact keeps_pure trivial
      | SAT_V => exact keeps_pure ⟨hsolver, hst.range, hst.ne_nil⟩

/-- The only assumption at the start is the negated argument. -/
theorem isSkepticallyPreferred_safe {arg : Nat} (harg : arg < af.args) (fuel : Nat) :
    Safe af (isSkepticallyPreferred O perfEnc af arg fuel) (fun _ => True) := by
  apply safe_encode count_mem (safe_complete h)
  intro solver hsolver
  simp only [h.acceptedVar_get harg, bounds, Run.ofOption_some, Run.pure_bind]
  refine keeps_whileTrue (fun solver => GrowFits af af.count solver [-(accVar arg : Int)])
    (by simp) (fun solver hst => skepticalRound_safe h O fuel hst) fuel ⟨hsolver, ?_, ?_⟩
  · simp [(accVars h count_mem).neg harg]
  · simp

/-- Each argument is decided on its own, and listed in its round or not at all. -/
theorem iaqSkep_safe (sem : Semantics) (fuel : Nat) :
    Safe af (iaqSkep O perfEnc af sem fuel) (Listing af) := by
  cases sem with
  | CO => exact safe_unsupported _
  | UNKNOWN_SEM => exact safe_unsupported _
  | PR =>
      refine Keeps.mono (keeps_foldlM_range (ListedBelow af) af.args ?_ (listedBelow_nil af))
        fun _ hlisted => hlisted.listing
      intro i hi result hlisted
      simp only [iaqSkepRoundPR, h.intToArg_get hi, bounds, Run.ofOption_some, Run.pure_bind]
      apply (isSkepticallyPreferred_safe h O hi fuel).bind
      intro b _
      cases b with
      | true => exact keeps_pure (hlisted.append_name hi)
      | false => exact keeps_pure hlisted.succ
  | ST =>
      apply safe_encode count_mem (safe_stable h count_mem)
      intro solver hsolver
      refine (keeps_foldlM_range (fun k st => Fits af af.count st.2 ∧ ListedBelow af k st.1)
        af.args ?_ ⟨hsolver, listedBelow_nil af⟩).bind fun _ hst => keeps_pure hst.2.listing
      intro i hi x hst
      obtain ⟨result, solver⟩ := x
      obtain ⟨hsolver, hlisted⟩ := hst
      simp only [iaqSkepRoundST, h.acceptedVar_get hi, h.intToArg_get hi, bounds,
        Run.ofOption_some, Run.pure_bind]
      apply safe_assume_solve O hsolver ((accVars h hsolver.mem).neg hi)
      intro sat solver hsolver
      cases sat with
      | SAT_V => exact keeps_pure ⟨hsolver, hlisted.succ⟩
      | UNSAT_V => exact keeps_pure ⟨hsolver, hlisted.append_name hi⟩

/-! ## EEE -/

omit h in
/-- The clause of `difference` has one literal for each argument. -/
theorem difference_range {N : Nat} (hN : 2 * af.args ≤ N) (p : Nat → Bool) :
    ∀ l ∈ difference af.args p, InRange N l := by
  simp only [difference, List.mem_map, List.mem_range]
  intro _ h
  obtain ⟨i, hi, rfl⟩ := h
  split
  · exact (accVar_upTo hN).neg hi
  · exact (accVar_upTo hN).pos hi

/-- What the credulous loops keep of their list and the flags of the listed arguments. -/
def ListedFlags (af : AF) (result : List String) (included : List Bool) : Prop :=
  ∃ q, included = vec af.args q ∧ Reports af (toSet af.args q) result

omit h in
theorem listedFlags_nil : ListedFlags af [] (List.replicate af.args false) := by
  refine ⟨fun _ => false, replicate_eq_vec _ _, ?_⟩
  rw [toSet_none]
  exact reports_nil af

omit h in
/-- A model adds the arguments that are not listed yet. -/
theorem reports_or {result : List String} {q : Nat → Bool}
    (hreports : Reports af (toSet af.args q) result) (p : Nat → Bool) :
    Reports af (toSet af.args (fun i => q i || p i))
      (result ++ picks af.args (fun i => p i && !q i) af.name) := by
  rw [toSet_or]
  apply hreports.append_new
  simp [mem_toSet]

/-- The flags tell which arguments are listed, so that none is listed twice. -/
theorem eeeCredRound_safe {st : EeeCredState SatSolver}
    (hst : Fits af nVars st.solver ∧ ListedFlags af st.result st.included) :
    Safe af (eeeCredRound O af st) (Sum.elim
      (fun st' => Fits af nVars st'.solver ∧ ListedFlags af st'.result st'.included)
      (Listing af)) := by
  obtain ⟨hsolver, q, hq, hreports⟩ := hst
  apply safe_solve_cases O hsolver
  · exact fun _ _ => keeps_pure hreports.listing
  · intro solver p hsolver hp
    simp only [reduceCtorEq, if_false, Oracle.model_eq, hp, hq, eeeCredStep_scan h, bounds,
      Run.ofOption_some, Run.pure_bind]
    apply (safe_addClause hsolver
      (difference_range (two_mul_args_le h hsolver.mem) p)).bind
    intro solver hsolver
    exact keeps_pure ⟨hsolver, _, rfl, reports_or hreports p⟩

/-- The flags and the list start empty together. -/
theorem eeeCred_safe (sem : Semantics) (fuel : Nat) :
    Safe af (eeeCred O perfEnc af sem fuel) (Listing af) := by
  unfold eeeCred eeeCredRounds
  refine Keeps.bind (P := fun x => Listing af x.2) ?_ fun _ hx => keeps_pure hx
  apply safe_encode count_mem (safe_encodeCred h sem)
  intro solver hsolver
  exact keeps_whileTrace
    (fun st : EeeCredState SatSolver =>
      Fits af af.count st.solver ∧ ListedFlags af st.result st.included)
    (by simp) (fun st hst => eeeCredRound_safe h O hst) fuel ⟨hsolver, listedFlags_nil⟩

/-- The loop over the model fills the clause with variables of arguments. -/
theorem maximiseRound_safe {st : MaximiseState SatSolver}
    (hst : Fits af nVars st.solver ∧ Flags af.args st.extension) :
    Safe af (maximiseRound O af st) (Sum.elim
      (fun st' => Fits af nVars st'.solver ∧ Flags af.args st'.extension)
      (fun st' => Fits af nVars st'.solver ∧ Flags af.args st'.extension)) := by
  obtain ⟨hsolver, hflags⟩ := hst
  apply (safe_solve O hsolver).bind
  intro x hsolver
  obtain ⟨sat, solver⟩ := x
  cases sat with
  | UNSAT_V => exact keeps_pure ⟨hsolver, hflags⟩
  | SAT_V =>
      simp only [reduceCtorEq, if_false]
      refine (keeps_foldlM (R := fun st => Fits af nVars st.1 ∧ Flags af.args st.2.1 ∧
        ∀ l ∈ st.2.2, InRange nVars l) ?_ ⟨hsolver, hflags, by simp⟩).bind ?_
      · intro x hx i hi
        obtain ⟨solver, extension, clause⟩ := x
        obtain ⟨hsolver, ⟨e, he⟩, hclause⟩ := hx
        have hi := List.mem_range.mp hi
        obtain ⟨p, hp⟩ := hsolver.model_flags
        simp only at he hclause hp
        simp only [maximiseStep, Oracle.model_eq, hp, he, vec_get p hi, setAt_vec e true hi,
          h.acceptedVar_get hi, bounds, Run.ofOption_some, Run.pure_bind]
        cases p i with
        | true =>
            apply (safe_assume hsolver ((accVars h hsolver.mem).pos hi)).bind
            intro solver hsolver
            exact keeps_pure ⟨hsolver, ⟨_, rfl⟩, hclause⟩
        | false =>
            have hvar := (accVars h hsolver.mem).pos hi
            exact keeps_pure ⟨hsolver, ⟨_, rfl⟩, range_append hclause (by simpa using hvar)⟩
      · intro x hx
        obtain ⟨solver, extension, clause⟩ := x
        obtain ⟨hsolver, hflags, hclause⟩ := hx
        apply (safe_addClause hsolver hclause).bind
        intro solver hsolver
        exact keeps_pure ⟨hsolver, hflags⟩

/-- A maximised extension has one flag per argument, as has the intersection. -/
theorem eeeSkepRoundPR_safe (fuel : Nat) {st : EeeSkepState SatSolver}
    (hst : Fits af nVars st.solver ∧ Flags af.args st.included) :
    Safe af (eeeSkepRoundPR O af fuel st) (Sum.elim
      (fun st' => Fits af nVars st'.solver ∧ Flags af.args st'.included)
      (Flags af.args)) := by
  obtain ⟨hsolver, q, hq⟩ := hst
  have hresize : Flags af.args (resize [] af.args false) := by
    rw [resize_nil]
    exact flags_replicate _ _
  apply (keeps_whileTrue
    (fun st : MaximiseState SatSolver => Fits af nVars st.solver ∧ Flags af.args st.extension)
    (by simp) (fun st hst => maximiseRound_safe h O hst) fuel ⟨hsolver, hresize⟩).bind
  intro x hx
  obtain ⟨solver, extension, noFurther⟩ := x
  obtain ⟨hsolver, e, he⟩ := hx
  simp only at he
  cases noFurther with
  | true => exact keeps_pure ⟨q, hq⟩
  | false =>
      simp only [Bool.false_eq_true, if_false, he, hq, meetStep_scan h, bounds,
        Run.ofOption_some, Run.pure_bind]
      apply (safe_addClause hsolver ((accVars h hsolver.mem).picks _)).bind
      intro solver hsolver
      exact keeps_pure ⟨hsolver, _, rfl⟩

/-- The blocking clause negates the arguments of the model. -/
theorem eeeSkepRoundST_safe {st : SatSolver × List Bool}
    (hst : Fits af nVars st.1 ∧ Flags af.args st.2) :
    Safe af (eeeSkepRoundST O af st) (Sum.elim
      (fun st' => Fits af nVars st'.1 ∧ Flags af.args st'.2) (Flags af.args)) := by
  obtain ⟨hsolver, q, hq⟩ := hst
  apply safe_solve_cases O hsolver
  · exact fun _ _ => keeps_pure ⟨q, hq⟩
  · intro solver p hsolver hp
    simp only [reduceCtorEq, if_false, Oracle.model_eq, hp, hq, eeeSkepStepST_scan h, bounds,
      Run.ofOption_some, Run.pure_bind]
    apply (safe_addClause hsolver ((accVars h hsolver.mem).picks_neg p)).bind
    intro solver hsolver
    exact keeps_pure ⟨hsolver, _, rfl⟩

/-- The list is read off one flag per argument. -/
theorem includedNames_safe {included : List Bool} (hflags : Flags af.args included) :
    Safe af (bounds (includedNames af included)) (Listing af) := by
  obtain ⟨p, rfl⟩ := hflags
  refine safe_bounds ⟨_, includedNames_vec h p, ?_⟩
  rw [picks_name (fun i => mem_toSet.symm)]
  exact (reports_namesOf af _).listing

/-- The list is only made at the end, from the flags of the last round. -/
theorem eeeSkep_safe (sem : Semantics) (fuel : Nat) :
    Safe af (eeeSkep O perfEnc af sem fuel) (Listing af) := by
  cases sem with
  | CO => exact safe_unsupported _
  | UNKNOWN_SEM => exact safe_unsupported _
  | PR =>
      refine Keeps.bind (P := fun x => Flags af.args x.2) ?_
        fun x hx => includedNames_safe h hx
      apply safe_encode count_mem (safe_complete h)
      intro solver hsolver
      exact keeps_whileTrace
        (fun st : EeeSkepState SatSolver => Fits af af.count st.solver ∧ Flags af.args st.included)
        (by simp) (fun st hst => eeeSkepRoundPR_safe h O fuel hst) fuel
        ⟨hsolver, flags_replicate _ _⟩
  | ST =>
      refine Keeps.bind (P := fun x => Flags af.args x.2) ?_
        fun x hx => includedNames_safe h hx
      apply safe_encode count_mem (safe_stable h count_mem)
      intro solver hsolver
      exact keeps_whileTrace
        (fun st : SatSolver × List Bool => Fits af af.count st.1 ∧ Flags af.args st.2)
        (by simp) (fun st hst => eeeSkepRoundST_safe h O hst) fuel
        ⟨hsolver, flags_replicate _ _⟩

/-! ## SEE -/

/-- The list holds the arguments that are no longer unvisited. -/
def ListedVisited (af : AF) (result : List String) (unvisited : List Bool) : Prop :=
  ∃ u, unvisited = vec af.args u ∧ Reports af {i | u i = false} result

omit h in
theorem listedVisited_nil : ListedVisited af [] (List.replicate af.args true) := by
  refine ⟨fun _ => true, replicate_eq_vec _ _, ?_⟩
  simpa using reports_nil af

/-- A model lists its unvisited arguments, which are then visited. -/
theorem seeCredRound_safe {st : SeeCredState SatSolver}
    (hst : Fits af nVars st.solver ∧ ListedVisited af st.result st.unvisited) :
    Safe af (seeCredRound O af st) (Sum.elim
      (fun st' => Fits af nVars st'.solver ∧ ListedVisited af st'.result st'.unvisited)
      (Listing af)) := by
  obtain ⟨hsolver, u, hu, hreports⟩ := hst
  apply safe_solve_cases O hsolver
  · exact fun _ _ => keeps_pure hreports.listing
  · intro solver p hsolver hp
    simp only [reduceCtorEq, if_false, Oracle.model_eq, hp, hu, seeCredStep_scan h, bounds,
      Run.ofOption_some, Run.pure_bind]
    apply (safe_addClause hsolver ((accVars h hsolver.mem).picks _)).bind
    intro solver hsolver
    refine keeps_pure ⟨hsolver, fun i => u i && !p i, rfl, ?_⟩
    have hunion : {i : Fin af.args | (u i && !p i) = false} =
        {i : Fin af.args | u i = false} ∪ toSet af.args p := by
      ext i
      simp only [Set.mem_ofPred_eq, Set.mem_union, mem_toSet, Bool.and_eq_false_iff,
        Bool.not_eq_false']
    rw [hunion]
    apply hreports.append_new
    simp

theorem seeCred_safe (sem : Semantics) (fuel : Nat) :
    Safe af (seeCred O perfEnc af sem fuel) (Listing af) := by
  apply safe_encode count_mem (safe_encodeCred h sem)
  intro solver hsolver
  exact keeps_whileTrue
    (fun st : SeeCredState SatSolver =>
      Fits af af.count st.solver ∧ ListedVisited af st.result st.unvisited)
    (by simp) (fun st hst => seeCredRound_safe h O hst) fuel ⟨hsolver, listedVisited_nil⟩

/-- The clause asks for an argument of the intersection to be rejected. -/
theorem seeSkepRound_safe {st : SatSolver × List Bool}
    (hst : Fits af nVars st.1 ∧ Flags af.args st.2) :
    Safe af (seeSkepRound O af st) (Sum.elim
      (fun st' => Fits af nVars st'.1 ∧ Flags af.args st'.2) (Flags af.args)) := by
  obtain ⟨hsolver, q, hq⟩ := hst
  apply safe_solve_cases O hsolver
  · exact fun _ _ => keeps_pure ⟨q, hq⟩
  · intro solver p hsolver hp
    simp only [reduceCtorEq, if_false, Oracle.model_eq, hp, hq, seeSkepStep_scan h, bounds,
      Run.ofOption_some, Run.pure_bind]
    apply (safe_addClause hsolver ((rejVars h hsolver.mem).picks _)).bind
    intro solver hsolver
    exact keeps_pure ⟨hsolver, _, rfl⟩

theorem seeSkep_safe (sem : Semantics) (fuel : Nat) :
    Safe af (seeSkep O af sem fuel) (Listing af) := by
  unfold seeSkep
  split
  · exact safe_unsupported _
  · apply safe_encode count_mem (safe_stable h count_mem)
    intro solver hsolver
    exact (keeps_whileTrue
      (fun st : SatSolver × List Bool => Fits af af.count st.1 ∧ Flags af.args st.2)
      (by simp) (fun st hst => seeSkepRound_safe h O hst) fuel
      ⟨hsolver, flags_replicate _ _⟩).bind fun _ hincluded => includedNames_safe h hincluded

/-! ## SEEM -/

/-- The soft literals are arguments, and a model lists the arguments that are not included yet. -/
theorem seemCredRound_safe (sem : Semantics) {st : SeemCredState}
    (hst : ListedFlags af st.result st.included ∧ Flags af.args st.unvisited) :
    Safe af (seemCredRound O perfEnc af sem st) (Sum.elim
      (fun st' => ListedFlags af st'.result st'.included ∧ Flags af.args st'.unvisited)
      (Listing af)) := by
  obtain ⟨result, included, unvisited⟩ := st
  obtain ⟨⟨q, rfl, hreports⟩, u, rfl⟩ := hst
  apply safe_encode count_mem (safe_encodeCred h sem)
  intro solver hsolver
  refine (keeps_foldlM (R := fun st => Fits af af.count st.1) ?_ hsolver).bind ?_
  · intro x hsolver i hi
    obtain ⟨solver, maxWeight⟩ := x
    have hi := List.mem_range.mp hi
    simp only [seemCredSoftStep, vec_get u hi, h.acceptedVar_get hi, bounds, Run.ofOption_some,
      Run.pure_bind]
    cases u i with
    | true =>
        apply (safe_setWeight hsolver ((accVars h hsolver.mem).neg hi) 1).bind
        exact fun solver hsolver => keeps_pure hsolver
    | false => exact keeps_pure hsolver
  · intro x hsolver
    obtain ⟨solver, maxWeight⟩ := x
    apply (safe_solve O hsolver).bind
    intro x hsolver
    obtain ⟨sat, solver⟩ := x
    obtain ⟨p, hp⟩ := hsolver.model_flags
    simp only at hp ⊢
    split
    · exact keeps_pure hreports.listing
    · rw [Oracle.model_eq, hp]
      apply (safe_bounds ⟨_, seemCredStep_scan h result p q u, rfl⟩).bind
      intro _ heq
      subst heq
      exact keeps_pure ⟨⟨_, rfl, reports_or hreports p⟩, _, rfl⟩

theorem seemCred_safe (sem : Semantics) (fuel : Nat) :
    Safe af (seemCred O perfEnc af sem fuel) (Listing af) := by
  unfold seemCred
  split
  · exact keeps_whileTrue
      (fun st : SeemCredState =>
        ListedFlags af st.result st.included ∧ Flags af.args st.unvisited)
      (by simp) (fun st hst => seemCredRound_safe h O sem hst) fuel
      ⟨listedFlags_nil, flags_replicate _ _⟩
  · exact safe_unsupported _

/-- The soft literals are rejected arguments, declared in the order of the indices. -/
theorem seemSkepRound_safe {st : SatSolver × List Bool}
    (hst : Fits af nVars st.1 ∧ Flags af.args st.2) :
    Safe af (seemSkepRound O af st) (Sum.elim
      (fun st' => Fits af nVars st'.1 ∧ Flags af.args st'.2) (Flags af.args)) := by
  obtain ⟨solver, included⟩ := st
  obtain ⟨hsolver, q, rfl⟩ := hst
  refine (keeps_foldlM (R := fun st => Fits af nVars st.1) ?_ hsolver).bind ?_
  · intro x hsolver i hi
    obtain ⟨solver, maxWeight⟩ := x
    have hi := List.mem_range.mp hi
    simp only [seemSkepSoftStep, vec_get q hi, h.rejectedVar_get hi, bounds, Run.ofOption_some,
      Run.pure_bind]
    cases q i with
    | true =>
        apply (safe_setWeight hsolver ((rejVars h hsolver.mem).neg hi) 1).bind
        exact fun solver hsolver => keeps_pure hsolver
    | false =>
        apply (safe_setWeight hsolver ((rejVars h hsolver.mem).neg hi) 0).bind
        exact fun solver hsolver => keeps_pure hsolver
  · intro x hsolver
    obtain ⟨solver, maxWeight⟩ := x
    apply (safe_solve O hsolver).bind
    intro x hsolver
    obtain ⟨sat, solver⟩ := x
    obtain ⟨p, hp⟩ := hsolver.model_flags
    simp only at hp ⊢
    split
    · exact keeps_pure ⟨q, rfl⟩
    · rw [Oracle.model_eq, hp]
      apply (safe_bounds ⟨_, seemSkepStep_scan af.args p q, rfl⟩).bind
      intro _ heq
      subst heq
      exact keeps_pure ⟨hsolver, _, rfl⟩

theorem seemSkep_safe (sem : Semantics) (fuel : Nat) :
    Safe af (seemSkep O af sem fuel) (Listing af) := by
  unfold seemSkep
  split
  · exact safe_unsupported _
  · apply safe_encode count_mem (safe_stable h count_mem)
    intro solver hsolver
    exact (keeps_whileTrue
      (fun st : SatSolver × List Bool => Fits af af.count st.1 ∧ Flags af.args st.2)
      (by simp) (fun st hst => seemSkepRound_safe h O hst) fuel
      ⟨hsolver, flags_replicate _ _⟩).bind fun _ hincluded => includedNames_safe h hincluded

/-! ## FUDGE -/

omit h in
theorem two_mul_mem : 2 * af.args ∈ solverSizes af := by simp [solverSizes]

omit h in
theorem attack_size_mem : 4 * af.args + af.attacks ∈ solverSizes af := by simp [solverSizes]

theorem safe_admissible (hmem : nVars ∈ solverSizes af) :
    Safe af (bounds (Encodings.admissible af false))
      (fun cs => ∀ c ∈ cs, ∀ l ∈ c, InRange nVars l) := by
  refine safe_bounds ⟨_, admissible_eq h false, ?_⟩
  simp only [Bool.false_eq_true, if_false, Nat.zero_add]
  exact admissibleClauses_range (accVars h hmem) (rejVars h hmem) h.attackers_lt

/-- The shifted copy of the admissible encoding ends with variable `4 * args`. -/
theorem safe_admissible_shifted :
    Safe af (bounds (Encodings.admissible af true))
      (fun cs => ∀ c ∈ cs, ∀ l ∈ c, InRange (4 * af.args + af.attacks) l) :=
  safe_bounds ⟨_, admissible_eq h true, admissibleClauses_range
    (shiftedAccVar_upTo (Nat.le_add_right _ _)) (shiftedRejVar_upTo (Nat.le_add_right _ _))
    h.attackers_lt⟩

/-- One auxiliary variable for each known attack, after the two copies. -/
theorem safe_attacks :
    Safe af (bounds (Encodings.attacks af))
      (fun cs => ∀ c ∈ cs, ∀ l ∈ c, InRange (4 * af.args + af.attacks) l) := by
  refine safe_bounds ⟨_, attacks_eq h, attacksClauses_range h.attackers_lt ?_⟩
  rw [length_attackPairs h]

/-- The candidates have one flag per argument and none of them is among the accepted
arguments `t`; the counter does not matter here. -/
def CandidateFlags (n : Nat) (t : Nat → Bool) (c : Candidates) : Prop :=
  ∃ p, c.candidate = vec n p ∧ ∀ i, p i = true → t i = false

omit h in
/-- Dropping a candidate reads and writes one flag. -/
theorem remove_flags {t : Nat → Bool} {c : Candidates} (hc : CandidateFlags af.args t c)
    {j : Nat} (hj : j < af.args) :
    ∃ c', c.remove j = some c' ∧ CandidateFlags af.args t c' := by
  obtain ⟨candidate, num⟩ := c
  obtain ⟨p, rfl, hpt⟩ := hc
  simp only [Candidates.remove, vec_get p hj, setAt_vec p false hj, Option.bind_eq_bind,
    Option.bind_some, Option.pure_def]
  cases p j with
  | true =>
      refine ⟨_, rfl, _, rfl, ?_⟩
      intro i hi
      split at hi
      · cases hi
      · exact hpt i hi
  | false => exact ⟨_, rfl, p, rfl, hpt⟩

/-- The arguments attacked by an extension are indices of the framework. -/
theorem removeAttacked_flags {extension : List Nat} (hext : ∀ i ∈ extension, i < af.args)
    {t : Nat → Bool} {c : Candidates} (hc : CandidateFlags af.args t c) :
    ∃ c', removeAttacked af extension c = some c' ∧ CandidateFlags af.args t c' := by
  refine exists_foldlM (P := CandidateFlags af.args t) ?_ hc
  intro c hc i hi
  rw [h.attacked_get (hext i hi)]
  refine exists_foldlM (P := CandidateFlags af.args t) ?_ hc
  intro c hc j hj
  have hrow := (mem_of_mem_row ((h.attacked_iff i j).mp hj)).1
  exact remove_flags hc (h.attackers_length ▸ hrow)

omit h in
/-- The indices of an extension are in range of the flags. -/
theorem includeAll_flags {extension : List Nat} (hext : ∀ i ∈ extension, i < af.args)
    {included : List Bool} (hflags : Flags af.args included) :
    ∃ included', includeAll included extension = some included' ∧
      Flags af.args included' := by
  refine exists_foldlM (P := Flags af.args) ?_ hflags
  intro _ h i hi
  obtain ⟨s, rfl⟩ := h
  rw [vec_get s (hext i hi), setAt_vec s true (hext i hi)]
  cases hs : s i with
  | true => exact ⟨_, rfl, s, rfl⟩
  | false => exact ⟨_, rfl, _, rfl⟩

/-- The clause over the candidates ranges over the arguments. -/
theorem admExtCandidate_safe {accepted candidate : List Bool}
    (haccepted : Flags af.args accepted) (hcandidate : Flags af.args candidate) :
    Safe af (admExtCandidate O af accepted candidate)
      (fun r => Fits af (2 * af.args) r.2) := by
  obtain ⟨t, rfl⟩ := haccepted
  obtain ⟨c, rfl⟩ := hcandidate
  apply safe_encode two_mul_mem (safe_admissible h two_mul_mem)
  intro solver hsolver
  refine (keeps_foldlM (R := fun st => Fits af (2 * af.args) st.1 ∧
    ∀ l ∈ st.2, InRange (2 * af.args) l) ?_ ⟨hsolver, by simp⟩).bind ?_
  · intro x hx i hi
    obtain ⟨solver, clause⟩ := x
    obtain ⟨hsolver, hclause⟩ := hx
    have hi := List.mem_range.mp hi
    have hvar := (accVars h hsolver.mem).pos hi
    have hclause' : ∀ l ∈ if c i = true then clause ++ [(accVar i : Int)] else clause,
        InRange (2 * af.args) l := by
      split
      · exact range_append hclause (by simpa using hvar)
      · exact hclause
    simp only [admExtCandidateStep, vec_get t hi, vec_get c hi, h.acceptedVar_get hi, bounds,
      Run.ofOption_some, Run.pure_bind]
    cases t i with
    | true =>
        apply (safe_assume hsolver hvar).bind
        exact fun solver hsolver => keeps_pure ⟨hsolver, hclause'⟩
    | false => exact keeps_pure ⟨hsolver, hclause'⟩
  · intro x hx
    obtain ⟨solver, clause⟩ := x
    obtain ⟨hsolver, hclause⟩ := hx
    apply (safe_addClause hsolver hclause).bind
    exact fun solver hsolver => safe_solveExtension O hsolver

/-- The query about attackers assumes arguments of the shifted copy and asks for a new one of
the first copy. -/
theorem admExtAtt_safe {accepted included : List Bool}
    (haccepted : Flags af.args accepted) (hincluded : Flags af.args included) (a : Nat) :
    Safe af (admExtAtt O af accepted included a)
      (fun r => Fits af (4 * af.args + af.attacks) r.2) := by
  obtain ⟨t, rfl⟩ := haccepted
  obtain ⟨s, rfl⟩ := hincluded
  unfold admExtAtt admExtAttQuery
  simp only [Run.bind_assoc]
  apply safe_encode attack_size_mem (safe_admissible h attack_size_mem)
  intro solver hsolver
  apply (safe_admissible_shifted h).bind
  intro cs hcs
  apply (safe_addClauses hsolver hcs).bind
  intro solver hsolver
  apply (safe_attacks h).bind
  intro cs hcs
  apply (safe_addClauses hsolver hcs).bind
  intro solver hsolver
  refine (keeps_foldlM (R := fun st => Fits af (4 * af.args + af.attacks) st.1 ∧
    ∀ l ∈ st.2, InRange (4 * af.args + af.attacks) l) ?_ ⟨hsolver, by simp⟩).bind ?_
  · intro x hx i hi
    obtain ⟨solver, clause⟩ := x
    obtain ⟨hsolver, hclause⟩ := hx
    have hi := List.mem_range.mp hi
    have hshift : InRange (4 * af.args + af.attacks)
        (((2 * af.args : Nat) : Int) + (accVar i : Int)) :=
      (shiftedAccVar_upTo (Nat.le_add_right _ _)).pos hi
    have hclause' : ∀ l ∈ if s i = true then clause else clause ++ [(accVar i : Int)],
        InRange (4 * af.args + af.attacks) l := by
      split
      · exact hclause
      · exact range_append hclause (by simpa using (accVars h hsolver.mem).pos hi)
    simp only [admExtAttStep, vec_get t hi, vec_get s hi, h.acceptedVar_get hi, bounds,
      Run.ofOption_some, Run.pure_bind]
    by_cases hcond : i = a ∨ t i = true
    · rw [if_pos hcond]
      apply (safe_assume hsolver hshift).bind
      exact fun solver hsolver => keeps_pure ⟨hsolver, hclause'⟩
    · rw [if_neg hcond]
      exact keeps_pure ⟨hsolver, hclause'⟩
  · intro x hx
    obtain ⟨solver, clause⟩ := x
    obtain ⟨hsolver, hclause⟩ := hx
    apply (safe_addClause hsolver hclause).bind
    exact fun solver hsolver => safe_solveExtension O hsolver

/-- The assumptions of the last query are arguments. -/
theorem admExt_safe {accepted model : List Bool} (haccepted : Flags af.args accepted)
    (hmodel : Flags af.args model) (a : Nat) {solver3 : SatSolver}
    (hsolver : Fits af nVars solver3) :
    Safe af (admExt O af accepted model a solver3) (fun r => Fits af nVars r.2) := by
  obtain ⟨t, rfl⟩ := haccepted
  obtain ⟨p, rfl⟩ := hmodel
  refine (keeps_foldlM (R := Fits af nVars) ?_ hsolver).bind
    fun solver hsolver => safe_solveExtension O hsolver
  intro solver hsolver i hi
  have hi := List.mem_range.mp hi
  simp only [admExtStep, vec_get t hi, vec_get p hi, h.acceptedVar_get hi, bounds,
    Run.ofOption_some, Run.pure_bind]
  by_cases hcond : a = i ∨ p i = true ∨ t i = true
  · rw [if_pos hcond]
    exact safe_assume hsolver ((accVars h hsolver.mem).pos hi)
  · rw [if_neg hcond]
    exact keeps_pure hsolver

/-- What the loops of `fudge_skep` keep. -/
structure FudgeFits (af : AF) (t : Nat → Bool) (st : FudgeState SatSolver) : Prop where
  accepted_eq : st.accepted = vec af.args t
  candidates : CandidateFlags af.args t st.candidates
  reports : Reports af (toSet af.args t) st.result
  solver3 : Fits af (2 * af.args) st.solver3

omit h in
theorem FudgeFits.accepted_flags {t : Nat → Bool} {st : FudgeState SatSolver}
    (hst : FudgeFits af t st) : Flags af.args st.accepted := ⟨t, hst.accepted_eq⟩

omit h in
theorem FudgeFits.candidate_flags {t : Nat → Bool} {st : FudgeState SatSolver}
    (hst : FudgeFits af t st) : Flags af.args st.candidates.candidate := by
  obtain ⟨c, hc, -⟩ := hst.candidates
  exact ⟨c, hc⟩

/-- A candidate is not accepted yet, so its name is listed once. -/
theorem accept_fits {t : Nat → Bool} {st : FudgeState SatSolver} (hst : FudgeFits af t st)
    {a : Fin af.args} (ha : t a = false) :
    ∃ st', st.accept af a = some st' ∧
      FudgeFits af (fun k => if k = a.val then true else t k) st' := by
  obtain ⟨c, hc, hct⟩ := hst.candidates
  simp only [FudgeState.accept, hst.accepted_eq, hc, setAt_vec t true a.2, setAt_vec c false a.2,
    h.intToArg_get a.2, Option.bind_eq_bind, Option.bind_some, Option.pure_def]
  refine ⟨_, rfl, rfl, ⟨_, rfl, ?_⟩, ?_, hst.solver3⟩
  · intro i hi
    by_cases hia : i = a.val
    · simp [hia] at hi
    · simp only [hia, if_false] at hi ⊢
      exact hct i hi
  · rw [toSet_mark]
    exact hst.reports.append_name (by simp [ha])

/-- The inner loop accepts its candidate, drops it or widens the included arguments. -/
theorem fudgeInnerRound_safe {t : Nat → Bool} {a : Fin af.args} (ha : t a = false)
    {st : FudgeState SatSolver × List Bool} (hst : FudgeFits af t st.1 ∧ Flags af.args st.2) :
    Safe af (fudgeInnerRound O af a st) (Sum.elim
      (fun st' => FudgeFits af t st'.1 ∧ Flags af.args st'.2)
      (fun st' => ∃ t', FudgeFits af t' st')) := by
  obtain ⟨st, included⟩ := st
  obtain ⟨hst, hincluded⟩ := hst
  apply (admExtAtt_safe h O hst.accepted_flags hincluded a).bind
  intro x hsolver2
  obtain ⟨sat, solver2⟩ := x
  cases sat with
  | UNSAT_V =>
      apply (safe_bounds (accept_fits h hst ha)).bind
      exact fun st' hst' => keeps_pure ⟨_, hst'⟩
  | SAT_V =>
      apply (safe_bounds (removeAttacked_flags h hsolver2.extension_lt hst.candidates)).bind
      intro candidates hcandidates
      apply (admExt_safe h O hst.accepted_flags hsolver2.model_flags a hst.solver3).bind
      intro x hsolver3
      obtain ⟨sat, solver3⟩ := x
      cases sat with
      | UNSAT_V =>
          apply (safe_bounds (remove_flags hcandidates a.2)).bind
          exact fun candidates hcandidates =>
            keeps_pure ⟨t, hst.accepted_eq, hcandidates, hst.reports, hsolver3⟩
      | SAT_V =>
          apply (safe_bounds (removeAttacked_flags h hsolver3.extension_lt hcandidates)).bind
          intro candidates hcandidates
          apply (safe_bounds (includeAll_flags hsolver3.extension_lt hincluded)).bind
          exact fun included hincluded =>
            keeps_pure ⟨⟨hst.accepted_eq, hcandidates, hst.reports, hsolver3⟩, hincluded⟩

/-- A candidate that was dropped meanwhile is passed over. -/
theorem fudgeCandidate_safe (fuel : Nat) {st : FudgeState SatSolver} (hst : ∃ t, FudgeFits af t st)
    {a : Nat} (ha : a < af.args) :
    Safe af (fudgeCandidate O af fuel st a) (fun st' => ∃ t, FudgeFits af t st') := by
  obtain ⟨t, hst⟩ := hst
  obtain ⟨c, hc, hct⟩ := hst.candidates
  simp only [fudgeCandidate, hc, vec_get c ha, bounds, Run.ofOption_some, Run.pure_bind]
  cases hca : c a with
  | true =>
      exact keeps_whileTrue
        (fun st : FudgeState SatSolver × List Bool => FudgeFits af t st.1 ∧ Flags af.args st.2)
        (by simp) (fun st hst => fudgeInnerRound_safe h O (a := ⟨a, ha⟩) (hct a hca) hst) fuel
        ⟨hst, flags_replicate _ _⟩
  | false => exact keeps_pure ⟨t, hst⟩

/-- The extension of the first query holds indices only, so every candidate is in range. -/
theorem fudgeRound_safe (fuel : Nat) {st : FudgeState SatSolver} (hst : ∃ t, FudgeFits af t st) :
    Safe af (fudgeRound O af fuel st)
      (Sum.elim (fun st' => ∃ t, FudgeFits af t st') (Listing af)) := by
  obtain ⟨t, hst⟩ := hst
  unfold fudgeRound
  split
  · exact keeps_pure hst.reports.listing
  · apply (admExtCandidate_safe h O hst.accepted_flags hst.candidate_flags).bind
    intro x hsolver1
    obtain ⟨sat, solver1⟩ := x
    cases sat with
    | UNSAT_V => exact keeps_pure hst.reports.listing
    | SAT_V =>
        apply (safe_bounds (removeAttacked_flags h hsolver1.extension_lt hst.candidates)).bind
        intro candidates hcandidates
        have hstart : FudgeFits af t { st with candidates := candidates } :=
          ⟨hst.accepted_eq, hcandidates, hst.reports, hst.solver3⟩
        refine (keeps_foldlM (R := fun st => ∃ t, FudgeFits af t st) (fun st hst a ha => ?_)
          ⟨t, hstart⟩).bind fun st hst => keeps_pure hst
        exact fudgeCandidate_safe h O fuel hst (hsolver1.extension_lt a ha)

/-- At the start nothing is accepted and everything is a candidate. -/
theorem fudgeSkep_safe (fuel : Nat) : Safe af (fudgeSkep O af fuel) (Listing af) := by
  apply safe_encode two_mul_mem (safe_admissible h two_mul_mem)
  intro solver3 hsolver3
  refine keeps_whileTrue (fun st => ∃ t, FudgeFits af t st) (by simp)
    (fun st hst => fudgeRound_safe h O fuel hst) fuel ⟨fun _ => false, ?_, ?_, ?_, hsolver3⟩
  · exact replicate_eq_vec _ _
  · exact ⟨fun _ => true, replicate_eq_vec _ _, fun _ _ => rfl⟩
  · rw [toSet_none]
    exact reports_nil af

end Safety

end AcceptableArguments.Algorithms
