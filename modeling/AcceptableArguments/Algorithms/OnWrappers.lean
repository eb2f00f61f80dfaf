import AcceptableArguments.Algorithms.Safety
import AcceptableArguments.Wrappers.ScriptedOracle

/-!
# The algorithms on the wrappers

IAQ, EEE and SEE as they are compiled: `SAT_Solver` is the wrapper of the build, and what
it answers comes out of its library. Each run follows the run of the same algorithm on the
solver with an oracle, loop by loop. The locals of a loop are related by equality, the two
solvers by `Tracks`.
-/

namespace AcceptableArguments.Algorithms

open AcceptableArguments.Sat Imperative Encodings SolverInterface

/-! ## Rounds with one scan -/

section Rounds

variable {Lib σ S : Type} [SolverInterface Lib σ S] (lib : Lib)

/-- A round of `eee_cred` and `see_cred`: one scan over each model, with the locals packed
by `mk`. -/
def listRound {α : Type} (af : AF) (mk : List String → List Bool → S → α)
    (step : List Bool → List String × List Bool × Clause → Nat →
      Option (List String × List Bool × Clause))
    (result : List String) (flags : List Bool) (solver : S) :
    Run Fault σ (α ⊕ List String) := do
  let (sat, solver) ← solve lib solver
  if sat = .UNSAT_V then
    return .inr result
  else
    let (result, flags, clause) ← bounds
      ((List.range af.args).foldlM (step (model lib solver)) (result, flags, []))
    let solver ← addClause lib solver clause
    return .inl (mk result flags solver)

theorem eeeCredRound_eq (af : AF) (st : EeeCredState S) :
    eeeCredRound lib af st =
      listRound lib af EeeCredState.mk (eeeCredStep af) st.result st.included st.solver := rfl

theorem seeCredRound_eq (af : AF) (st : SeeCredState S) :
    seeCredRound lib af st =
      listRound lib af SeeCredState.mk (seeCredStep af) st.result st.unvisited st.solver := rfl

/-- A round of the skeptical algorithms under ST: one scan over each model. -/
def flagRound (af : AF)
    (step : List Bool → List Bool × Clause → Nat → Option (List Bool × Clause))
    (st : S × List Bool) : Run Fault σ ((S × List Bool) ⊕ List Bool) := do
  let (sat, solver) ← solve lib st.1
  if sat = .UNSAT_V then
    return .inr st.2
  else
    let (included, clause) ← bounds
      ((List.range af.args).foldlM (step (model lib solver)) (st.2, []))
    let solver ← addClause lib solver clause
    return .inl (solver, included)

theorem eeeSkepRoundST_eq (af : AF) :
    eeeSkepRoundST lib af = flagRound lib af (eeeSkepStepST af) := rfl

theorem seeSkepRound_eq (af : AF) :
    seeSkepRound lib af = flagRound lib af (seeSkepStep af) := rfl

/-- The run without the states that it passes through. -/
theorem eeeCred_eq (perfEnc : Bool) (af : AF) (sem : Semantics) (fuel : Nat) :
    eeeCred lib perfEnc af sem fuel = (encodeCred perfEnc af sem >>= fun cs =>
      addClauses lib (new lib af.count af.args) cs >>= fun solver =>
        whileTrue (eeeCredRound lib af) fuel ⟨[], List.replicate af.args false, solver⟩) := by
  simp only [eeeCred, eeeCredRounds, whileTrue, Run.bind_assoc]

theorem eeeSkep_PR_eq (perfEnc : Bool) (af : AF) (fuel : Nat) :
    eeeSkep lib perfEnc af .PR fuel = (bounds (Encodings.complete perfEnc af) >>= fun cs =>
      addClauses lib (new lib af.count af.args) cs >>= fun solver =>
        whileTrue (eeeSkepRoundPR lib af fuel) fuel
          ⟨solver, List.replicate af.args true, List.replicate af.args false⟩ >>=
            fun included => bounds (includedNames af included)) := by
  simp only [eeeSkep, eeeSkepRoundsPR, whileTrue, Run.bind_assoc]
  rfl

theorem eeeSkep_ST_eq (perfEnc : Bool) (af : AF) (fuel : Nat) :
    eeeSkep lib perfEnc af .ST fuel = (bounds (Encodings.stable af) >>= fun cs =>
      addClauses lib (new lib af.count af.args) cs >>= fun solver =>
        whileTrue (eeeSkepRoundST lib af) fuel (solver, List.replicate af.args true) >>=
          fun included => bounds (includedNames af included)) := by
  simp only [eeeSkep, eeeSkepRoundsST, whileTrue, Run.bind_assoc]
  rfl

end Rounds

/-! ## Encodings on a wrapper -/

/-- The clauses fit into a solver of the given sizes and mention every decision variable. -/
def Encodes (nVars nArgs : Nat) (cs : List Clause) : Prop :=
  (∀ c ∈ cs, ∀ l ∈ c, InRange nVars l) ∧
    ∀ v, 1 ≤ v → v ≤ nArgs → ∃ c ∈ cs, ∃ l ∈ c, l.natAbs = v

/-- Every encoding forbids for each argument that it is both accepted and rejected. -/
theorem encodes_of_conflicts {nVars nArgs : Nat} {R : Nat → Nat} {cs : List Clause}
    (hrange : ∀ c ∈ cs, ∀ l ∈ c, InRange nVars l)
    (hmem : ∀ i < nArgs, [-(accVar i : Int), -(R i : Int)] ∈ cs) : Encodes nVars nArgs cs := by
  refine ⟨hrange, fun v h1 hv => ?_⟩
  refine ⟨_, hmem (v - 1) (by omega), _, List.mem_cons_self, ?_⟩
  simp only [accVar, Int.natAbs_neg, Int.natAbs_natCast]
  omega

section Encodings

variable {perfEnc : Bool} {af : AF} (h : AF.Ready perfEnc af)

include h

theorem complete_encodes :
    ∃ cs, Encodings.complete perfEnc af = some cs ∧ Encodes af.count af.args cs := by
  have hacc := accVars h count_mem
  have hrej := rejVars h count_mem
  cases perfEnc with
  | true =>
      refine ⟨_, complete_perf_eq h, encodes_of_conflicts (R := rejVar af.args)
        (completePerfClauses_range hacc hrej h.attackers_lt) fun i hi => ?_⟩
      refine List.mem_flatMap.mpr ⟨i, List.mem_range.mpr hi, ?_⟩
      split <;> simp
  | false =>
      have hund : VarsUpTo af.args af.count (undVar af.args) :=
        undVar_upTo (by simp [h.count_eq])
      refine ⟨_, complete_eq h, encodes_of_conflicts (R := rejVar af.args)
        (completeClauses_range hacc hrej hund h.attackers_lt) fun i hi => ?_⟩
      refine List.mem_flatMap.mpr ⟨i, List.mem_range.mpr hi, ?_⟩
      simp

theorem stable_encodes :
    ∃ cs, Encodings.stable af = some cs ∧ Encodes af.count af.args cs := by
  refine ⟨_, stable_eq h, encodes_of_conflicts (R := rejVar af.args)
    (stableClauses_range (accVars h count_mem) (rejVars h count_mem) h.attackers_lt)
    fun i hi => ?_⟩
  refine List.mem_flatMap.mpr ⟨i, List.mem_range.mpr hi, ?_⟩
  simp

end Encodings

/-! ## The simulations -/

section Simulations

variable {L S : Type} {W : Wrapper L S} {C : Core L} {e : Encoding L} (hW : W.Reliable C e)
  {perfEnc : Bool} {af : AF} (h : AF.Ready perfEnc af)

include hW

/-- A solver with the clauses of an encoding. -/
theorem follows_encode {nVars nArgs : Nat} {o : Option (List Clause)}
    (ho : ∃ cs, o = some cs ∧ Encodes nVars nArgs cs) {α β : Type} {T : α → β → Prop}
    {f : S → WrapperM L α} {g : List (Solved L) → SatSolver → SolveM β}
    (hf : ∀ s d, Tracks W C e nVars nArgs none s d →
      Follows solvesIn T (f s) (fun shown => g shown d)) :
    Follows solvesIn T
      (bounds o >>= fun cs => addClauses W (new W nVars nArgs) cs >>= f)
      (fun shown => bounds o >>= fun cs =>
        (SatSolver.new nVars nArgs).addClauses cs >>= g shown) := by
  obtain ⟨cs, rfl, hrange, hcovers⟩ := ho
  exact (tracks_encoded hW hrange hcovers).bind hf

include h

/-- The encoding that the credulous algorithms choose, if they know the semantics. -/
theorem follows_encodeCred (sem : Semantics) {α β : Type} {T : α → β → Prop}
    {f : S → WrapperM L α} {g : List (Solved L) → SatSolver → SolveM β}
    (hf : ∀ s d, Tracks W C e af.count af.args none s d →
      Follows solvesIn T (f s) (fun shown => g shown d)) :
    Follows solvesIn T
      (encodeCred perfEnc af sem >>= fun cs =>
        addClauses W (new W af.count af.args) cs >>= f)
      (fun shown => encodeCred perfEnc af sem >>= fun cs =>
        (SatSolver.new af.count af.args).addClauses cs >>= g shown) := by
  cases sem with
  | CO => exact follows_encode hW (complete_encodes h) hf
  | PR => exact follows_encode hW (complete_encodes h) hf
  | ST => exact follows_encode hW (stable_encodes h) hf
  | UNKNOWN_SEM => exact follows_throw _

theorem iaqCred_follows (sem : Semantics) :
    Follows solvesIn Eq (iaqCred W perfEnc af sem)
      (fun shown => iaqCred (Wrapper.oracle C e shown) perfEnc af sem) := by
  apply follows_encodeCred hW h sem
  intro s d hsd
  refine Follows.bind (R := fun st st' => st.1 = st'.1 ∧
    Tracks W C e af.count af.args none st.2 st'.2) (Follows.foldlM ?_ ⟨rfl, hsd⟩)
    fun st st' hst => follows_pure hst.1
  intro st st' hst i hi
  obtain ⟨result, s⟩ := st
  obtain ⟨result', d⟩ := st'
  obtain ⟨rfl, hsd⟩ := hst
  have hi := List.mem_range.mp hi
  simp only [iaqCredRound, h.acceptedVar_get hi, h.intToArg_get hi,
    bounds, Run.ofOption_some, Run.pure_bind]
  apply (hsd.assume hW ((accVars h count_mem).pos hi)).bind
  intro s d hsd
  apply (hsd.solve hW).answer_cases
  · intro s d hsd
    exact follows_pure ⟨rfl, hsd⟩
  · intro p s d hsd
    exact follows_pure ⟨rfl, hsd.forget⟩

/-! ### IAQ under preferred semantics -/

/-- The inner loop: both show the same model, and the assumptions are in range. -/
structure GrowTracks (W : Wrapper L S) (C : Core L) (e : Encoding L) (af : AF)
    (st : GrowState S) (st' : GrowState SatSolver) : Prop where
  tracks : ∃ p, Tracks W C e af.count af.args (some p) st.solver st'.solver
  newAssumptions_eq : st.newAssumptions = st'.newAssumptions
  visited_eq : st.visited = st'.visited
  flags : Flags af.args st'.visited
  range : ∀ l ∈ st'.newAssumptions, InRange af.count l
  ne_nil : st'.newAssumptions ≠ []

/-- The end of the inner loop. -/
structure GrownTracks (W : Wrapper L S) (C : Core L) (e : Encoding L) (af : AF)
    (r : S × List Int) (r' : SatSolver × List Int) : Prop where
  tracks : Tracks W C e af.count af.args none r.1 r'.1
  newAssumptions_eq : r.2 = r'.2
  range : ∀ l ∈ r'.2, InRange af.count l
  ne_nil : r'.2 ≠ []

theorem growRound_follows {st : GrowState S} {st' : GrowState SatSolver}
    (hst : GrowTracks W C e af st st') :
    Follows solvesIn (Sum.LiftRel (GrowTracks W C e af) (GrownTracks W C e af))
      (growRound W af st) (fun shown => growRound (Wrapper.oracle C e shown) af st') := by
  obtain ⟨s, lits, visited⟩ := st
  obtain ⟨d, lits', visited'⟩ := st'
  obtain ⟨⟨p, hsd⟩, rfl, rfl, ⟨v, rfl⟩, hrange, hne⟩ := hst
  obtain ⟨hmodel, hmodel'⟩ := hsd.model_eq p rfl
  simp only at hmodel hmodel' hrange hne
  have hrange' : ∀ l ∈ lits ++ accLits af.args (fun i => p i && !v i), InRange af.count l :=
    range_append hrange ((accVars h count_mem).picks _)
  have hne' : lits ++ accLits af.args (fun i => p i && !v i) ≠ [] := by simp [hne]
  simp only [growRound, Wrapper.model_eq, Oracle.model_eq, hmodel, hmodel', growStep_scan h,
    bounds, Run.ofOption_some, Run.pure_bind]
  apply (hsd.addClause hW ((accVars h count_mem).picks _)).bind
  intro s d hsd
  apply (hsd.solveAssuming hW hrange').answer_cases
  · intro s d hsd
    exact follows_pure (.inr ⟨hsd, rfl, hrange', hne'⟩)
  · intro q s d hsd
    exact follows_pure (.inl ⟨⟨q, hsd⟩, rfl, rfl, ⟨_, rfl⟩, hrange', hne'⟩)

theorem skepticalRound_follows (fuel : Nat) {assumptions : List Int}
    (hrange : ∀ l ∈ assumptions, InRange af.count l) (hne : assumptions ≠ []) {s : S}
    {d : SatSolver} (hsd : Tracks W C e af.count af.args none s d) :
    Follows solvesIn (Sum.LiftRel (Tracks W C e af.count af.args none) Eq)
      (skepticalRound W af fuel assumptions s)
      (fun shown => skepticalRound (Wrapper.oracle C e shown) af fuel assumptions d) := by
  apply (hsd.solveAssuming hW hrange).answer_cases
  · intro s d hsd
    exact follows_pure (.inr rfl)
  · intro p s d hsd
    have hloop := Follows.whileTrue (fun st st' hst => growRound_follows hW h hst) fuel
      (c := ⟨s, assumptions, List.replicate af.args false⟩)
      (d := ⟨d, assumptions, List.replicate af.args false⟩)
      ⟨⟨p, hsd⟩, rfl, rfl, flags_replicate _ _, hrange, hne⟩
    apply hloop.bind
    intro r r' hr
    obtain ⟨s, lits⟩ := r
    obtain ⟨d, lits'⟩ := r'
    obtain ⟨hsd, rfl, hlits, hlits_ne⟩ := hr
    obtain ⟨flipped, hflip, hflipped⟩ := flipFirst_range hlits hlits_ne
    simp only at hflip
    simp only [hflip, bounds, Run.ofOption_some, Run.pure_bind]
    apply (hsd.solveAssuming hW hflipped).answer_cases
    · intro s d hsd
      exact follows_pure (.inr rfl)
    · intro q s d hsd
      exact follows_pure (.inl hsd.forget)

theorem isSkepticallyPreferred_follows {arg : Nat} (harg : arg < af.args) (fuel : Nat) :
    Follows solvesIn Eq (isSkepticallyPreferred W perfEnc af arg fuel)
      (fun shown => isSkepticallyPreferred (Wrapper.oracle C e shown) perfEnc af arg fuel) := by
  apply follows_encode hW (complete_encodes h)
  intro s d hsd
  simp only [h.acceptedVar_get harg, bounds, Run.ofOption_some, Run.pure_bind]
  exact Follows.whileTrue (fun s d hsd => skepticalRound_follows hW h fuel
    (by simpa using (accVars h count_mem).neg harg) (by simp) hsd) fuel hsd

theorem iaqSkep_follows (sem : Semantics) (fuel : Nat) :
    Follows solvesIn Eq (iaqSkep W perfEnc af sem fuel)
      (fun shown => iaqSkep (Wrapper.oracle C e shown) perfEnc af sem fuel) := by
  cases sem with
  | CO => exact follows_throw _
  | UNKNOWN_SEM => exact follows_throw _
  | PR =>
      refine Follows.foldlM ?_ rfl
      intro result result' hresult i hi
      subst hresult
      have hi := List.mem_range.mp hi
      simp only [iaqSkepRoundPR, h.intToArg_get hi, bounds, Run.ofOption_some, Run.pure_bind]
      apply (isSkepticallyPreferred_follows hW h hi fuel).bind
      intro b b' hb
      subst hb
      cases b with
      | true => exact follows_pure rfl
      | false => exact follows_pure rfl
  | ST =>
      apply follows_encode hW (stable_encodes h)
      intro s d hsd
      refine Follows.bind (R := fun st st' => st.1 = st'.1 ∧
        Tracks W C e af.count af.args none st.2 st'.2) (Follows.foldlM ?_ ⟨rfl, hsd⟩)
        fun st st' hst => follows_pure hst.1
      intro st st' hst i hi
      obtain ⟨result, s⟩ := st
      obtain ⟨result', d⟩ := st'
      obtain ⟨rfl, hsd⟩ := hst
      have hi := List.mem_range.mp hi
      simp only [iaqSkepRoundST, h.acceptedVar_get hi,
        h.intToArg_get hi, bounds, Run.ofOption_some, Run.pure_bind]
      apply (hsd.assume hW ((accVars h count_mem).neg hi)).bind
      intro s d hsd
      apply (hsd.solve hW).answer_cases
      · intro s d hsd
        exact follows_pure ⟨rfl, hsd⟩
      · intro p s d hsd
        exact follows_pure ⟨rfl, hsd.forget⟩

/-! ### EEE -/

/-- The states of the credulous loops, which are packed with `mk` and `mk'`. -/
inductive ListTracks (W : Wrapper L S) (C : Core L) (e : Encoding L) (af : AF) {α β : Type}
    (mk : List String → List Bool → S → α) (mk' : List String → List Bool → SatSolver → β) :
    α → β → Prop
  | intro {result : List String} {q : Nat → Bool} {s : S} {d : SatSolver}
      (tracks : Tracks W C e af.count af.args none s d) :
      ListTracks W C e af mk mk' (mk result (vec af.args q) s) (mk' result (vec af.args q) d)

omit h in
/-- A round of the credulous loops: both scan the same model, and the clause that the scan
learns is in range. -/
theorem listRound_follows {α β : Type} {mk : List String → List Bool → S → α}
    {mk' : List String → List Bool → SatSolver → β}
    {step : List Bool → List String × List Bool × Clause → Nat →
      Option (List String × List Bool × Clause)}
    (hscan : ∀ result p q, ∃ result' q' clause,
      (List.range af.args).foldlM (step (vec af.args p)) (result, vec af.args q, []) =
        some (result', vec af.args q', clause) ∧ ∀ l ∈ clause, InRange af.count l)
    {result : List String} {q : Nat → Bool} {s : S} {d : SatSolver}
    (hsd : Tracks W C e af.count af.args none s d) :
    Follows solvesIn (Sum.LiftRel (ListTracks W C e af mk mk') Eq)
      (listRound W af mk step result (vec af.args q) s)
      (fun shown =>
        listRound (Wrapper.oracle C e shown) af mk' step result (vec af.args q) d) := by
  apply (hsd.solve hW).answer_cases
  · intro s d hsd
    exact follows_pure (.inr rfl)
  · intro p s d hsd
    obtain ⟨hmodel, hmodel'⟩ := hsd.model_eq p rfl
    obtain ⟨result', q', clause, hrun, hclause⟩ := hscan result p q
    simp only [reduceCtorEq, if_false, Wrapper.model_eq, Oracle.model_eq, hmodel, hmodel', hrun,
      bounds,
      Run.ofOption_some, Run.pure_bind]
    apply (hsd.addClause hW hclause).bind
    intro s d hsd
    exact follows_pure (.inl ⟨hsd.forget⟩)

theorem eeeCred_follows (sem : Semantics) (fuel : Nat) :
    Follows solvesIn Eq (eeeCred W perfEnc af sem fuel)
      (fun shown => eeeCred (Wrapper.oracle C e shown) perfEnc af sem fuel) := by
  simp only [eeeCred_eq]
  apply follows_encodeCred hW h sem
  intro s d hsd
  rw [replicate_eq_vec]
  refine Follows.whileTrue (T := ListTracks W C e af EeeCredState.mk EeeCredState.mk) ?_
    fuel ⟨hsd⟩
  rintro _ _ ⟨hsd⟩
  simp only [eeeCredRound_eq]
  refine listRound_follows hW (fun result p q => ?_) hsd
  exact ⟨_, _, _, eeeCredStep_scan h result p q,
    difference_range (two_mul_args_le h count_mem) p⟩

/-- The state of the inner loop of `eee_skep`. -/
structure MaximiseTracks (W : Wrapper L S) (C : Core L) (e : Encoding L) (af : AF)
    (st : MaximiseState S) (st' : MaximiseState SatSolver) : Prop where
  tracks : Tracks W C e af.count af.args none st.solver st'.solver
  extension_eq : st.extension = st'.extension
  noFurther_eq : st.noFurther = st'.noFurther
  flags : Flags af.args st'.extension

/-- The scan in the inner loop of `eee_skep`, over a model that both show. -/
structure ScanTracks (W : Wrapper L S) (C : Core L) (e : Encoding L) (af : AF) (p : Nat → Bool)
    (st : S × List Bool × Clause) (st' : SatSolver × List Bool × Clause) : Prop where
  tracks : Tracks W C e af.count af.args (some p) st.1 st'.1
  extension_eq : st.2.1 = st'.2.1
  clause_eq : st.2.2 = st'.2.2
  flags : Flags af.args st'.2.1
  range : ∀ l ∈ st'.2.2, InRange af.count l

theorem maximiseStep_follows {p : Nat → Bool} {st : S × List Bool × Clause}
    {st' : SatSolver × List Bool × Clause} (hst : ScanTracks W C e af p st st') {i : Nat}
    (hi : i < af.args) :
    Follows solvesIn (ScanTracks W C e af p) (maximiseStep W af st i)
      (fun shown => maximiseStep (Wrapper.oracle C e shown) af st' i) := by
  obtain ⟨s, extension, clause⟩ := st
  obtain ⟨d, extension', clause'⟩ := st'
  obtain ⟨hsd, rfl, rfl, ⟨v, rfl⟩, hclause⟩ := hst
  obtain ⟨hmodel, hmodel'⟩ := hsd.model_eq p rfl
  simp only at hmodel hmodel' hclause
  have hvar := (accVars h count_mem).pos hi
  simp only [maximiseStep, Wrapper.model_eq, Oracle.model_eq, hmodel, hmodel', vec_get p hi,
    setAt_vec v true hi, h.acceptedVar_get hi, bounds, Run.ofOption_some,
    Run.pure_bind]
  cases p i with
  | true =>
      apply (hsd.assume hW hvar).bind
      intro s d hsd
      exact follows_pure ⟨hsd, rfl, rfl, ⟨_, rfl⟩, hclause⟩
  | false =>
      exact follows_pure ⟨hsd, rfl, rfl, ⟨_, rfl⟩, range_append hclause (by simpa using hvar)⟩

theorem maximiseRound_follows {st : MaximiseState S} {st' : MaximiseState SatSolver}
    (hst : MaximiseTracks W C e af st st') :
    Follows solvesIn (Sum.LiftRel (MaximiseTracks W C e af) (MaximiseTracks W C e af))
      (maximiseRound W af st)
      (fun shown => maximiseRound (Wrapper.oracle C e shown) af st') := by
  obtain ⟨s, extension, noFurther⟩ := st
  obtain ⟨d, extension', noFurther'⟩ := st'
  obtain ⟨hsd, rfl, rfl, hflags⟩ := hst
  apply (hsd.solve hW).answer_cases
  · intro s d hsd
    exact follows_pure (.inr ⟨hsd, rfl, rfl, hflags⟩)
  · intro p s d hsd
    have hstart : ScanTracks W C e af p (s, extension, []) (d, extension, []) :=
      ⟨hsd, rfl, rfl, hflags, by simp⟩
    have hscan : Follows solvesIn (ScanTracks W C e af p)
        ((List.range af.args).foldlM (maximiseStep W af) (s, extension, []))
        (fun shown => (List.range af.args).foldlM
          (maximiseStep (Wrapper.oracle C e shown) af) (d, extension, [])) := by
      refine Follows.foldlM ?_ hstart
      intro st st' hst i hi
      exact maximiseStep_follows hW h hst (List.mem_range.mp hi)
    apply hscan.bind
    intro st st' hst
    obtain ⟨s, extension, clause⟩ := st
    obtain ⟨d, extension', clause'⟩ := st'
    obtain ⟨hsd, rfl, rfl, hflags, hclause⟩ := hst
    apply (hsd.addClause hW hclause).bind
    intro s d hsd
    exact follows_pure (.inl ⟨hsd.forget, rfl, rfl, hflags⟩)

/-- The state of the loops that keep a vector of flags. -/
structure FlagTracks (W : Wrapper L S) (C : Core L) (e : Encoding L) (af : AF)
    (st : S × List Bool) (st' : SatSolver × List Bool) : Prop where
  tracks : Tracks W C e af.count af.args none st.1 st'.1
  included_eq : st.2 = st'.2
  flags : Flags af.args st'.2

/-- The end of the loops that keep a vector of flags. -/
def SameFlags (af : AF) (included included' : List Bool) : Prop :=
  included = included' ∧ Flags af.args included'

theorem eeeSkepRoundPR_follows (fuel : Nat) {st : EeeSkepState S} {st' : EeeSkepState SatSolver}
    (hst : FlagTracks W C e af (st.solver, st.included) (st'.solver, st'.included)) :
    Follows solvesIn
      (Sum.LiftRel (fun st st' => FlagTracks W C e af (st.solver, st.included)
        (st'.solver, st'.included)) (SameFlags af))
      (eeeSkepRoundPR W af fuel st)
      (fun shown => eeeSkepRoundPR (Wrapper.oracle C e shown) af fuel st') := by
  obtain ⟨s, included, extension⟩ := st
  obtain ⟨d, included', extension'⟩ := st'
  obtain ⟨hsd, hincluded, q, hq⟩ := hst
  obtain rfl : included = included' := hincluded
  obtain rfl : included = vec af.args q := hq
  have hresize : Flags af.args (resize [] af.args false) := by
    rw [resize_nil]
    exact flags_replicate _ _
  have hloop := Follows.whileTrue (fun st st' hst => maximiseRound_follows hW h hst) fuel
    (c := ⟨s, resize [] af.args false, true⟩) (d := ⟨d, resize [] af.args false, true⟩)
    ⟨hsd, rfl, rfl, hresize⟩
  apply hloop.bind
  intro st st' hst
  obtain ⟨s, extension, noFurther⟩ := st
  obtain ⟨d, extension', noFurther'⟩ := st'
  obtain ⟨hsd, rfl, rfl, ⟨v, rfl⟩⟩ := hst
  cases noFurther with
  | true => exact follows_pure (.inr ⟨rfl, q, rfl⟩)
  | false =>
      simp only [Bool.false_eq_true, if_false, meetStep_scan h, bounds,
        Run.ofOption_some, Run.pure_bind]
      apply (hsd.addClause hW ((accVars h count_mem).picks _)).bind
      intro s d hsd
      exact follows_pure (.inl ⟨hsd, rfl, _, rfl⟩)

omit hW in
/-- The last loop of the skeptical algorithms. -/
theorem includedNames_follows {included included' : List Bool}
    (hincluded : SameFlags af included included') :
    Follows solvesIn Eq (bounds (includedNames af included) : WrapperM L (List String))
      (fun _ : List (Solved L) => bounds (includedNames af included')) := by
  obtain ⟨rfl, q, rfl⟩ := hincluded
  simp only [includedNames_vec h, bounds, Run.ofOption_some]
  exact follows_pure rfl

omit h in
/-- A round of the skeptical loops under ST: both scan the same model, and the clause that
the scan learns is in range. -/
theorem flagRound_follows
    {step : List Bool → List Bool × Clause → Nat → Option (List Bool × Clause)}
    (hscan : ∀ p q, ∃ q' clause,
      (List.range af.args).foldlM (step (vec af.args p)) (vec af.args q, []) =
        some (vec af.args q', clause) ∧ ∀ l ∈ clause, InRange af.count l)
    {st : S × List Bool} {st' : SatSolver × List Bool} (hst : FlagTracks W C e af st st') :
    Follows solvesIn (Sum.LiftRel (FlagTracks W C e af) (SameFlags af)) (flagRound W af step st)
      (fun shown => flagRound (Wrapper.oracle C e shown) af step st') := by
  obtain ⟨s, included⟩ := st
  obtain ⟨d, included'⟩ := st'
  obtain ⟨hsd, rfl, q, rfl⟩ := hst
  apply (hsd.solve hW).answer_cases
  · intro s d hsd
    exact follows_pure (.inr ⟨rfl, q, rfl⟩)
  · intro p s d hsd
    obtain ⟨hmodel, hmodel'⟩ := hsd.model_eq p rfl
    obtain ⟨q', clause, hrun, hclause⟩ := hscan p q
    simp only [reduceCtorEq, if_false, Wrapper.model_eq, Oracle.model_eq, hmodel, hmodel', hrun,
      bounds,
      Run.ofOption_some, Run.pure_bind]
    apply (hsd.addClause hW hclause).bind
    intro s d hsd
    exact follows_pure (.inl ⟨hsd.forget, rfl, q', rfl⟩)

theorem eeeSkep_follows (sem : Semantics) (fuel : Nat) :
    Follows solvesIn Eq (eeeSkep W perfEnc af sem fuel)
      (fun shown => eeeSkep (Wrapper.oracle C e shown) perfEnc af sem fuel) := by
  cases sem with
  | CO => exact follows_throw _
  | UNKNOWN_SEM => exact follows_throw _
  | PR =>
      simp only [eeeSkep_PR_eq]
      apply follows_encode hW (complete_encodes h)
      intro s d hsd
      exact (Follows.whileTrue (fun st st' hst => eeeSkepRoundPR_follows hW h fuel hst) fuel
        ⟨hsd, rfl, flags_replicate _ _⟩).bind fun r r' hr => includedNames_follows h hr
  | ST =>
      simp only [eeeSkep_ST_eq, eeeSkepRoundST_eq]
      apply follows_encode hW (stable_encodes h)
      intro s d hsd
      refine Follows.bind (R := SameFlags af) (Follows.whileTrue (T := FlagTracks W C e af) ?_
        fuel ⟨hsd, rfl, flags_replicate _ _⟩) fun r r' hr => includedNames_follows h hr
      intro st st' hst
      refine flagRound_follows hW (fun p q => ?_) hst
      exact ⟨_, _, eeeSkepStepST_scan h p q, (accVars h count_mem).picks_neg p⟩

/-! ### SEE -/

theorem seeCred_follows (sem : Semantics) (fuel : Nat) :
    Follows solvesIn Eq (seeCred W perfEnc af sem fuel)
      (fun shown => seeCred (Wrapper.oracle C e shown) perfEnc af sem fuel) := by
  apply follows_encodeCred hW h sem
  intro s d hsd
  rw [replicate_eq_vec]
  refine Follows.whileTrue (T := ListTracks W C e af SeeCredState.mk SeeCredState.mk) ?_
    fuel ⟨hsd⟩
  rintro _ _ ⟨hsd⟩
  simp only [seeCredRound_eq]
  refine listRound_follows hW (fun result p q => ?_) hsd
  exact ⟨_, _, _, seeCredStep_scan h result p q, (accVars h count_mem).picks _⟩

theorem seeSkep_follows (sem : Semantics) (fuel : Nat) :
    Follows solvesIn Eq (seeSkep W af sem fuel)
      (fun shown => seeSkep (Wrapper.oracle C e shown) af sem fuel) := by
  unfold seeSkep
  by_cases hsem : sem = .ST
  · simp only [hsem, ne_eq, not_true_eq_false, if_false, seeSkepRound_eq]
    apply follows_encode hW (stable_encodes h)
    intro s d hsd
    refine Follows.bind (R := SameFlags af) (Follows.whileTrue (T := FlagTracks W C e af) ?_
      fuel ⟨hsd, rfl, flags_replicate _ _⟩) fun r r' hr => includedNames_follows h hr
    intro st st' hst
    refine flagRound_follows hW (fun p q => ?_) hst
    exact ⟨_, _, seeSkepStep_scan h p q, (rejVars h count_mem).picks _⟩
  · simp only [ne_eq, hsem, not_false_eq_true, if_true]
    exact follows_throw _

end Simulations

end AcceptableArguments.Algorithms
