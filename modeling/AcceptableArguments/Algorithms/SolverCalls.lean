import AcceptableArguments.Imperative.Costs
import AcceptableArguments.Algorithms.CredulousAnswers
import AcceptableArguments.Algorithms.SkepticalStable
import AcceptableArguments.Algorithms.SEEM
import AcceptableArguments.Wrappers.ScriptedOracle

/-!
# How often the solver is asked

IAQ asks one query for each argument. EEE asks one for each set that the encoding accepts
and one more, which is why PERF_ENC never makes it slower in this respect. SEE and SEEM
stop when nothing new is left, so the answer itself bounds their queries.
-/

namespace AcceptableArguments

open AcceptableArguments.Sat Imperative Argumentation Encodings

/-- The sets that the encoding of a build accepts, which `eee_cred` goes through. -/
def Semantics.visited {α : Type*} (perfEnc : Bool) (att : α → α → Prop) :
    Semantics → Set (Set α)
  | .CO | .PR => if perfEnc then {S | Complete att S} else {S | SelfReinstating att S}
  | .ST => {S | Stable att S}
  | .UNKNOWN_SEM => ∅

namespace Algorithms

/-! ## The calls -/

theorem costs_record {e : Event} (he : solvesIn [e] = 0) : Costs solvesIn (record e) 0 := by
  intro log a log' h
  cases h
  rw [solvesIn_append, he]

theorem costs_bounds {α : Type} (o : Option α) : Costs solvesIn (bounds o) 0 :=
  costs_ofOption _ o

section Calls

variable (O : Oracle) (solver : SatSolver)

theorem costs_addClause (clause : Clause) : Costs solvesIn (solver.addClause clause) 0 :=
  (costs_record (solvesIn_clause _ _)).after fun _ => costs_pure _

theorem costs_addClauses (clauses : List Clause) : Costs solvesIn (solver.addClauses clauses) 0 :=
  Costs.foldlM_zero costs_addClause clauses solver

/-- Only the number of answers in the log matters below. -/
theorem ensures_addClauses_calls {clauses : List Clause} {w : List Event}
    {Q : SatSolver → List Event → Prop} {E : Halt Fault → List Event → Prop}
    (h : ∀ w', solvesIn w' = solvesIn w →
      Q { solver with clauses := solver.clauses ++ clauses } w') :
    Ensures (solver.addClauses clauses) w Q E := by
  apply SatSolver.ensures_addClauses
  apply h
  rw [solvesIn_append, solvesIn_map_clause, Nat.add_zero]

theorem costs_assume (lit : Int) : Costs solvesIn (solver.assume lit) 0 :=
  (costs_record (solvesIn_assumption _ _)).after fun _ => costs_pure _

theorem costs_setWeight (lit : Int) (weight : Nat) :
    Costs solvesIn (solver.setWeight lit weight) 0 :=
  (costs_record rfl).after fun _ => costs_pure _

theorem costs_solve : Costs solvesIn (solver.solve O) 1 := by
  intro log x log' h
  cases hans : O log solver.query with
  | none =>
      rw [SatSolver.solve_of_none hans] at h
      cases h
      rw [solvesIn_append, solvesIn_answer]
  | some answer =>
      obtain ⟨m, value⟩ := answer
      rw [SatSolver.solve_of_some hans] at h
      cases h
      rw [solvesIn_append, solvesIn_answer]

theorem costs_encodeCred (perfEnc : Bool) (af : AF) (sem : Semantics) :
    Costs solvesIn (encodeCred perfEnc af sem) 0 := by
  cases sem with
  | CO => exact costs_bounds _
  | PR => exact costs_bounds _
  | ST => exact costs_bounds _
  | UNKNOWN_SEM => exact costs_throw _ 0

end Calls

/-! ## One query for each argument -/

section IAQ

variable (O : Oracle) (perfEnc : Bool) (af : AF)

theorem costs_iaqCredRound (st : List String × SatSolver) (i : Nat) :
    Costs solvesIn (iaqCredRound O af st i) 1 := by
  apply (costs_bounds _).after
  intro lit
  apply (costs_assume _ lit).after
  intro solver
  apply (costs_solve O solver).before
  intro x
  exact costs_ite ((costs_bounds _).after fun _ => costs_pure _) (costs_pure _)

theorem costs_iaqCred (sem : Semantics) : Costs solvesIn (iaqCred O perfEnc af sem) af.args := by
  apply (costs_encodeCred perfEnc af sem).after
  intro cs
  apply (costs_addClauses _ cs).after
  intro solver
  apply Costs.before
  · simpa using Costs.foldlM (costs_iaqCredRound O af) (List.range af.args) ([], solver)
  · exact fun _ => costs_pure _

theorem costs_iaqSkepRoundST (st : List String × SatSolver) (i : Nat) :
    Costs solvesIn (iaqSkepRoundST O af st i) 1 := by
  apply (costs_bounds _).after
  intro lit
  apply (costs_assume _ (-lit)).after
  intro solver
  apply (costs_solve O solver).before
  intro x
  exact costs_ite ((costs_bounds _).after fun _ => costs_pure _) (costs_pure _)

theorem costs_iaqSkep_ST (fuel : Nat) :
    Costs solvesIn (iaqSkep O perfEnc af .ST fuel) af.args := by
  apply (costs_bounds _).after
  intro cs
  apply (costs_addClauses _ cs).after
  intro solver
  apply Costs.before
  · simpa using Costs.foldlM (costs_iaqSkepRoundST O af) (List.range af.args) ([], solver)
  · exact fun _ => costs_pure _

end IAQ

/-! ## One query for each accepted set -/

theorem encodeCred_visited {perfEnc : Bool} {af : AF} (h : AF.Ready perfEnc af) {sem : Semantics}
    (hsem : sem = .CO ∨ sem = .PR ∨ sem = .ST) :
    ∃ cs, (encodeCred perfEnc af sem : SolveM _) = pure cs ∧
      family af.args cs = sem.visited perfEnc af.att := by
  cases perfEnc with
  | true =>
      obtain ⟨cs, hcs, hfamily⟩ := encodeCred_perf h hsem
      refine ⟨cs, hcs, hfamily.trans ?_⟩
      cases sem <;> rfl
  | false =>
      have hcomplete : family af.args
          (completeClauses af.args af.attackers accVar (rejVar af.args) (undVar af.args)) =
          {S | SelfReinstating af.att S} := Set.ext (exists_completeClauses_iff h.attackers_lt)
      obtain ⟨cs, hcs, hstable, -⟩ := stable_spec h
      cases sem with
      | CO =>
          refine ⟨_, ?_, hcomplete⟩
          simp only [encodeCred, bounds, complete_eq h, Run.ofOption_some]
      | PR =>
          refine ⟨_, ?_, hcomplete⟩
          simp only [encodeCred, bounds, complete_eq h, Run.ofOption_some]
      | ST => exact ⟨cs, by simp only [encodeCred, bounds, hcs, Run.ofOption_some], hstable⟩
      | UNKNOWN_SEM => simp at hsem

/-- A list that goes through a set once. -/
theorem length_eq_ncard {α : Type*} {l : List α} {F : Set α} (hnodup : l.Nodup)
    (hmem : ∀ x, x ∈ l ↔ x ∈ F) : l.length = F.ncard := by
  classical
  have hF : F = (l.toFinset : Set α) := by
    ext x
    simp [hmem]
  rw [hF, Set.ncard_coe_finset, List.toFinset_card_of_nodup hnodup]

theorem ncard_le_args {af : AF} (S : Set (Fin af.args)) : S.ncard ≤ af.args := by
  simpa using Set.ncard_le_card S

section EEE

variable (O : Oracle) (perfEnc : Bool) (af : AF)

theorem costs_eeeCredRound (st : EeeCredState SatSolver) :
    Costs solvesIn (eeeCredRound O af st) 1 := by
  apply (costs_solve O st.solver).before
  intro x
  apply costs_ite (costs_pure _)
  exact (costs_bounds _).after fun y => (costs_addClause _ _).after fun _ => costs_pure _

theorem costs_eeeCredRounds (sem : Semantics) (fuel : Nat) :
    CostsBy solvesIn (eeeCredRounds O perfEnc af sem fuel) (fun x => x.1.length + 1) := by
  apply (costs_encodeCred perfEnc af sem).after
  intro cs
  apply (costs_addClauses _ cs).after
  intro solver
  simpa using Costs.whileTrace (costs_eeeCredRound O af) fuel
    ⟨[], List.replicate af.args false, solver⟩

theorem costs_eeeSkepRoundST (st : SatSolver × List Bool) :
    Costs solvesIn (eeeSkepRoundST O af st) 1 := by
  apply (costs_solve O st.1).before
  intro x
  apply costs_ite (costs_pure _)
  exact (costs_bounds _).after fun y => (costs_addClause _ _).after fun _ => costs_pure _

theorem costs_eeeSkepRoundsST (fuel : Nat) :
    CostsBy solvesIn (eeeSkepRoundsST O af fuel) (fun x => x.1.length + 1) := by
  apply (costs_bounds _).after
  intro cs
  apply (costs_addClauses _ cs).after
  intro solver
  simpa using Costs.whileTrace (costs_eeeSkepRoundST O af) fuel
    (solver, List.replicate af.args true)

theorem costs_maximiseRound (st : MaximiseState SatSolver) :
    Costs solvesIn (maximiseRound O af st) 1 := by
  apply (costs_solve O st.solver).before
  intro x
  apply costs_ite (costs_pure _)
  apply Costs.after
  · apply Costs.foldlM_zero
    intro y i
    apply (costs_bounds _).after
    intro member
    apply costs_ite
    · exact (costs_bounds _).after fun _ => (costs_bounds _).after fun lit =>
        (costs_assume _ lit).after fun _ => costs_pure _
    · exact (costs_bounds _).after fun _ => costs_pure _
  · exact fun y => (costs_addClause _ _).after fun _ => costs_pure _

variable {O perfEnc af} (h : AF.Ready perfEnc af) (hO : O.Correct) {fuel : Nat}
  (hfuel : 2 ^ af.args < fuel) {w : List Event}

include h hO hfuel

theorem eeeCred_calls {sem : Semantics} (hsem : sem = .CO ∨ sem = .PR ∨ sem = .ST) :
    Ensures (eeeCred O perfEnc af sem fuel) w
      (fun _ w' => solvesIn w' = solvesIn w + ((sem.visited perfEnc af.att).ncard + 1))
      (fun _ _ => False) := by
  obtain ⟨cs, hcs, hfamily⟩ := encodeCred_visited h hsem
  apply ensures_bind
  apply ((eeeCredRounds_ensures h hO hcs hfuel).costs
    (costs_eeeCredRounds O perfEnc af sem fuel)).post
  intro x w' hx
  obtain ⟨⟨hnodup, hvisited, -⟩, hcalls⟩ := hx
  apply ensures_pure
  have hlength := length_eq_ncard hnodup hvisited
  rw [List.length_map, hfamily] at hlength
  rw [hcalls, hlength]

theorem eeeSkep_ST_calls :
    Ensures (eeeSkep O perfEnc af .ST fuel) w
      (fun _ w' => solvesIn w' = solvesIn w + ({S | Stable af.att S}.ncard + 1))
      (fun _ _ => False) := by
  apply ensures_bind
  apply ((eeeSkepRoundsST_ensures h hO hfuel).costs (costs_eeeSkepRoundsST O af fuel)).post
  intro x w' hx
  obtain ⟨⟨hnodup, hvisited, q, hq, hset⟩, hcalls⟩ := hx
  have hlength := length_eq_ncard (F := {S | Stable af.att S}) hnodup hvisited
  rw [List.length_map] at hlength
  have hnames : includedNames af x.2 = _ := hq ▸ includedNames_sInter h hset
  apply ensures_ofOption hnames
  rw [hcalls, hlength]

/-! ### Growing a model to a preferred extension -/

/-- The inner loop completes no round when nothing is left. Otherwise each round but the
first one adds an argument to the set that is grown. -/
theorem maximiseRounds_ensures {G : Set (Set (Fin af.args))} {solver : SatSolver}
    (hsearch : Searches af.args G Set.univ solver) :
    Ensures (whileTrace (maximiseRound O af) fuel ⟨solver, resize [] af.args false, true⟩) w
      (fun x _ => Maximised G x.2 ∧ (x.2.noFurther = true → x.1 = []) ∧
        (x.2.noFurther = false → x.1 ≠ [] ∧ x.1.length ≤ af.args + 1)) (fun _ _ => False) := by
  refine ensures_whileTrace (fun k rounds st _ => ∃ H e, MaximiseInv G H e st ∧
      (st.noFurther = true → toSet af.args e = ∅ ∧ rounds = []) ∧
      (st.noFurther = false → rounds ≠ [] ∧ rounds.length ≤ (toSet af.args e).ncard + 1) ∧
      H.ncard = k)
    (fun rounds st _ => Maximised G st ∧ (st.noFurther = true → rounds = []) ∧
      (st.noFurther = false → rounds ≠ [] ∧ rounds.length ≤ af.args + 1)) ?_
    ⟨G, _, maximiseInv_start hsearch, fun _ => ⟨toSet_none, rfl⟩, by simp, rfl⟩
    (Nat.lt_of_le_of_lt (ncard_le_two_pow G) hfuel)
  intro k rounds st w' hInv
  obtain ⟨H, e, hinv, hfresh, hgrown, rfl⟩ := hInv
  apply (maximiseRound_ensures h hO hinv fun hst => (hfresh hst).1).post
  intro x w'' hx
  cases x with
  | inl st' =>
      obtain ⟨H', e', hinv', hst', hlt, hstrict⟩ := hx
      refine ⟨_, hlt, H', e', hinv', by simp [hst'], fun _ => ⟨by simp, ?_⟩, rfl⟩
      rw [List.length_append, List.length_singleton]
      cases hst : st.noFurther with
      | true => simp [(hfresh hst).2]
      | false =>
          have hle := (hgrown hst).2
          have hmore := Set.ncard_lt_ncard (hstrict hst)
          omega
  | inr st' =>
      obtain ⟨hmax, hsame⟩ := hx
      refine ⟨hmax, ?_, ?_⟩
      · intro hst
        exact (hfresh (hsame ▸ hst)).2
      · intro hst
        obtain ⟨hne, hle⟩ := hgrown (hsame ▸ hst)
        exact ⟨hne, hle.trans (Nat.succ_le_succ (ncard_le_args _))⟩

theorem maximise_calls {G : Set (Set (Fin af.args))} {solver : SatSolver}
    (hsearch : Searches af.args G Set.univ solver) :
    Ensures (whileTrue (maximiseRound O af) fuel ⟨solver, resize [] af.args false, true⟩) w
      (fun st w' => Maximised G st ∧
        (st.noFurther = true → solvesIn w' = solvesIn w + 1) ∧
        (st.noFurther = false → solvesIn w + 2 ≤ solvesIn w' ∧
          solvesIn w' ≤ solvesIn w + (af.args + 2))) (fun _ _ => False) := by
  apply ensures_whileTrue_of_trace
  apply ((maximiseRounds_ensures h hO hfuel hsearch).costs
    (Costs.whileTrace (costs_maximiseRound O af) fuel _)).post
  intro x w' hx
  obtain ⟨⟨hmax, hnone, hsome⟩, hcalls⟩ := hx
  refine ⟨hmax, ?_, ?_⟩
  · intro hst
    rw [hcalls, hnone hst, List.length_nil]
  · intro hst
    obtain ⟨hne, hle⟩ := hsome hst
    have hpos := List.length_pos_iff.mpr hne
    omega

theorem eeeSkepRoundPR_calls {F : Set (Set (Fin af.args))}
    {found : List (Set (Fin af.args))} {st : EeeSkepState SatSolver}
    (hinv : EeeSkepInv af F found st) :
    Ensures (eeeSkepRoundPR O af fuel st) w (fun x w' => match x with
      | .inl _ => solvesIn w + 2 ≤ solvesIn w' ∧ solvesIn w' ≤ solvesIn w + (af.args + 2)
      | .inr _ => solvesIn w' = solvesIn w + 1) (fun _ _ => False) := by
  obtain ⟨q, hq, -⟩ := hinv.included_eq
  apply ensures_bind
  apply (maximise_calls h hO hfuel hinv.searches).post
  intro st' w' hx
  obtain ⟨hmax, hnone, hsome⟩ := hx
  cases hmax with
  | inl hmax =>
      rw [if_pos hmax.1]
      exact ensures_pure (hnone hmax.1)
  | inr hmax =>
      obtain ⟨hst, e, he, -⟩ := hmax
      rw [if_neg (by simp [hst])]
      simp only [he, hq, meetStep_scan h, bounds, Run.ofOption_some, Run.pure_bind]
      apply ensures_bind
      apply SatSolver.ensures_addClause
      apply ensures_pure
      rw [solvesIn_append, solvesIn_clause, Nat.add_zero]
      exact hsome hst

theorem eeeSkep_PR_calls :
    Ensures (eeeSkep O perfEnc af .PR fuel) w
      (fun _ w' => solvesIn w + {S | Preferred af.att S}.ncard * 2 + 1 ≤ solvesIn w' ∧
        solvesIn w' ≤ solvesIn w + {S | Preferred af.att S}.ncard * (af.args + 2) + 1)
      (fun _ _ => False) := by
  obtain ⟨cs, hcs, hF⟩ := complete_spec h
  unfold eeeSkep eeeSkepRoundsPR
  simp only [hcs, bounds, Run.ofOption_some, Run.pure_bind]
  apply ensures_bind
  apply ensures_bind
  apply ensures_addClauses_calls
  intro w₀ hw₀
  rw [← hw₀]
  set F := family af.args cs
  refine (ensures_whileTrace (fun k rounds st w' =>
    EeeSkepInv af F (rounds.map fun st => flagged af.args st.extension) st ∧
      {S ∈ F | ∀ P ∈ rounds.map fun st => flagged af.args st.extension, ¬ S ⊆ P}.ncard = k ∧
      solvesIn w₀ + rounds.length * 2 ≤ solvesIn w' ∧
      solvesIn w' ≤ solvesIn w₀ + rounds.length * (af.args + 2))
    (fun _ included w' => (∃ q, included = vec af.args q) ∧
      solvesIn w₀ + {S | Preferred af.att S}.ncard * 2 + 1 ≤ solvesIn w' ∧
      solvesIn w' ≤ solvesIn w₀ + {S | Preferred af.att S}.ncard * (af.args + 2) + 1) ?_
    ⟨eeeSkepInv_start cs, rfl, by simp, by simp⟩
    (Nat.lt_of_le_of_lt (ncard_le_two_pow _) hfuel)).post ?_
  · intro k rounds st w' hInv
    obtain ⟨hinv, rfl, hlower, hupper⟩ := hInv
    apply ((eeeSkepRoundPR_ensures h hO hF hinv hfuel).and
      (eeeSkepRoundPR_calls h hO hfuel hinv)).post
    intro y w'' hx
    cases y with
    | inl st' =>
        obtain ⟨⟨hinv', hmem⟩, hcalls⟩ := hx
        refine ⟨_, ?_, by simpa using hinv', rfl, ?_, ?_⟩
        · have hlt := ncard_sep_lt hmem (C := fun S => ¬ S ⊆ flagged af.args st'.extension)
            (fun hn => hn (Set.Subset.refl _))
          convert hlt using 2
          ext S
          simp [and_assoc, or_imp, forall_and]
        · rw [List.length_append, List.length_singleton, Nat.succ_mul]
          omega
        · rw [List.length_append, List.length_singleton, Nat.succ_mul]
          omega
    | inr included =>
        obtain ⟨⟨hnodup, hall, q, hq, -⟩, hcalls⟩ := hx
        have hlength := length_eq_ncard (F := {S | Preferred af.att S}) hnodup hall
        rw [List.length_map] at hlength
        rw [← hlength]
        exact ⟨⟨q, hq⟩, by omega, by omega⟩
  · intro x w' hx
    obtain ⟨⟨q, hq⟩, hcalls⟩ := hx
    have hnames : includedNames af x.2 = _ := hq ▸ includedNames_vec h q
    exact ensures_ofOption hnames hcalls

end EEE

/-! ## At most one query for each accepted argument -/

theorem Reports.length_eq {af : AF} {S : Set (Fin af.args)} {result : List String}
    (h : Reports af S result) : result.length = S.ncard := by
  obtain ⟨order, hnodup, hmem, rfl⟩ := h
  rw [List.length_map, length_eq_ncard hnodup hmem]

theorem toSet_true (n : Nat) : toSet n (fun _ => true) = Set.univ :=
  Set.eq_univ_of_forall fun _ => rfl

theorem ncard_succ_lt {af : AF} (S : Set (Fin af.args)) {fuel : Nat} (hfuel : 2 ^ af.args < fuel) :
    S.ncard + 1 < fuel := by
  have hpow : af.args < 2 ^ af.args := Nat.lt_two_pow_self
  have hcard := ncard_le_args S
  omega

section SEE

variable (O : Oracle) (af : AF)

theorem costs_seeCredRound (st : SeeCredState SatSolver) :
    Costs solvesIn (seeCredRound O af st) 1 := by
  apply (costs_solve O st.solver).before
  intro x
  apply costs_ite (costs_pure _)
  exact (costs_bounds _).after fun y => (costs_addClause _ _).after fun _ => costs_pure _

theorem costs_seeSkepRound (st : SatSolver × List Bool) :
    Costs solvesIn (seeSkepRound O af st) 1 := by
  apply (costs_solve O st.1).before
  intro x
  apply costs_ite (costs_pure _)
  exact (costs_bounds _).after fun y => (costs_addClause _ _).after fun _ => costs_pure _

/-- The loop head of `see_cred` after a first model: every set that is left has an
unvisited argument, and `k` accepted arguments are unvisited. -/
def SeeCredOpen (af : AF) (F : Set (Set (Fin af.args))) (k : Nat)
    (st : SeeCredState SatSolver) : Prop :=
  ∃ G u, SeeCredInv af F G u st ∧ (∀ S ∈ G, (S ∩ toSet af.args u).Nonempty) ∧
    (⋃₀ F ∩ toSet af.args u).ncard = k

/-- The loop head of `see_skep` after a first model: every set that is left rejects an
included argument, and `k` included arguments are not in all sets. -/
def SeeSkepOpen (af : AF) (F : Set (Set (Fin af.args))) (k : Nat)
    (st : SatSolver × List Bool) : Prop :=
  ∃ G q, SeeSkepInv af F G q st ∧ (∀ S ∈ G, ¬ toSet af.args q ⊆ S) ∧
    (toSet af.args q \ ⋂₀ F).ncard = k

variable {O af} {perfEnc : Bool} (h : AF.Ready perfEnc af) (hO : O.Correct)

include h hO

theorem seeCredRound_open {F G : Set (Set (Fin af.args))} {u : Nat → Bool}
    {st : SeeCredState SatSolver} (hinv : SeeCredInv af F G u st) (w : List Event) :
    Ensures (seeCredRound O af st) w (fun x _ => match x with
      | .inl st' => ∃ k ≤ (⋃₀ F ∩ toSet af.args u).ncard, SeeCredOpen af F k st' ∧
          ((∀ S ∈ G, (S ∩ toSet af.args u).Nonempty) → k < (⋃₀ F ∩ toSet af.args u).ncard)
      | .inr _ => True) (fun _ _ => False) := by
  apply (seeCredRound_ensures h hO hinv).post
  intro x w' hx
  cases x with
  | inr r => trivial
  | inl st' =>
      obtain ⟨G', u', hinv', -, hnew, S, hS, hu'⟩ := hx
      have hsubset : ⋃₀ F ∩ toSet af.args u' ⊆ ⋃₀ F ∩ toSet af.args u := by
        rw [hu']
        exact Set.inter_subset_inter_right _ Set.sdiff_subset
      refine ⟨_, Set.ncard_le_ncard hsubset, ⟨G', u', hinv', hnew, rfl⟩, ?_⟩
      intro hall
      obtain ⟨i, hiS, hiu⟩ := hall S hS
      refine Set.ncard_lt_ncard ⟨hsubset, fun hback => ?_⟩
      have hi := hback ⟨⟨S, hinv.subset hS, hiS⟩, hiu⟩
      rw [hu'] at hi
      exact hi.2.2 hiS

theorem seeSkepRound_open {F G : Set (Set (Fin af.args))} {q : Nat → Bool}
    {st : SatSolver × List Bool} (hinv : SeeSkepInv af F G q st) (w : List Event) :
    Ensures (seeSkepRound O af st) w (fun x _ => match x with
      | .inl st' => ∃ k ≤ (toSet af.args q \ ⋂₀ F).ncard, SeeSkepOpen af F k st' ∧
          ((∀ S ∈ G, ¬ toSet af.args q ⊆ S) → k < (toSet af.args q \ ⋂₀ F).ncard)
      | .inr included => ∃ q, included = vec af.args q) (fun _ _ => False) := by
  apply (seeSkepRound_ensures h hO hinv).post
  intro x w' hx
  cases x with
  | inr included =>
      obtain ⟨q', hq', -⟩ := hx
      exact ⟨q', hq'⟩
  | inl st' =>
      obtain ⟨G', q', hinv', -, hnew, S, hS, hq'⟩ := hx
      have hsubset : toSet af.args q' \ ⋂₀ F ⊆ toSet af.args q \ ⋂₀ F := by
        rw [hq']
        exact Set.sdiff_subset_sdiff_left Set.inter_subset_left
      refine ⟨_, Set.ncard_le_ncard hsubset, ⟨G', q', hinv', hnew, rfl⟩, ?_⟩
      intro hall
      obtain ⟨i, hiq, hiS⟩ := Set.not_subset.mp (hall S hS)
      refine Set.ncard_lt_ncard ⟨hsubset, fun hback => ?_⟩
      have hi := hback ⟨hiq, fun hmem => hiS (hmem S (hinv.subset hS))⟩
      rw [hq'] at hi
      exact hiS hi.1.2

variable {fuel : Nat} (hfuel : 2 ^ af.args < fuel) {w : List Event}

include hfuel

theorem seeCredLoop_calls {F G : Set (Set (Fin af.args))} {u : Nat → Bool}
    {st : SeeCredState SatSolver} (hinv : SeeCredInv af F G u st) :
    Ensures (whileTrue (seeCredRound O af) fuel st) w
      (fun _ w' => solvesIn w' ≤ solvesIn w + (⋃₀ F ∩ toSet af.args u).ncard + 2 ∧
        solvesIn w' ≤ solvesIn w + G.ncard + 1) (fun _ _ => False) := by
  have hnew : Ensures (whileTrue (seeCredRound O af) fuel st) w
      (fun _ w' => True ∧ solvesIn w' ≤ solvesIn w + ((⋃₀ F ∩ toSet af.args u).ncard + 2) * 1)
      (fun _ _ => False) := by
    apply ensures_whileTrue_costs_of_first
      (fun st => (costs_seeCredRound O af st).atMost le_rfl) (SeeCredOpen af F) (fun _ => True)
      ?_ ?_ (ncard_succ_lt _ hfuel)
    · intro w'
      apply (seeCredRound_open h hO hinv w').post
      intro x w'' hx
      cases x with
      | inr r => trivial
      | inl st' =>
          obtain ⟨k, hle, hopen, -⟩ := hx
          exact ⟨k, hle, hopen⟩
    · intro k st' w' hk
      obtain ⟨G', u', hinv', hall, rfl⟩ := hk
      apply (seeCredRound_open h hO hinv' w').post
      intro x w'' hx
      cases x with
      | inr r => trivial
      | inl st'' =>
          obtain ⟨k, -, hopen, hlt⟩ := hx
          exact ⟨k, hlt hall, hopen⟩
  have hsets : Ensures (whileTrue (seeCredRound O af) fuel st) w
      (fun _ w' => True ∧ solvesIn w' ≤ solvesIn w + (G.ncard + 1) * 1) (fun _ _ => False) := by
    apply ensures_whileTrue_costs (fun st => (costs_seeCredRound O af st).atMost le_rfl)
      (fun k st => ∃ G u, SeeCredInv af F G u st ∧ G.ncard = k) (fun _ => True) ?_
      ⟨_, _, hinv, rfl⟩ (Nat.lt_of_le_of_lt (ncard_le_two_pow _) hfuel)
    intro k st' w' hk
    obtain ⟨G', u', hinv', rfl⟩ := hk
    apply (seeCredRound_ensures h hO hinv').post
    intro x w'' hx
    cases x with
    | inr r => trivial
    | inl st'' =>
        obtain ⟨G'', u'', hinv'', hlt, -⟩ := hx
        exact ⟨_, hlt, G'', u'', hinv'', rfl⟩
  apply (hnew.and hsets).post
  intro r w' hr
  omega

theorem seeSkepLoop_calls {F G : Set (Set (Fin af.args))} {q : Nat → Bool}
    {st : SatSolver × List Bool} (hinv : SeeSkepInv af F G q st) :
    Ensures (whileTrue (seeSkepRound O af) fuel st) w
      (fun included w' => (∃ q, included = vec af.args q) ∧
        solvesIn w' ≤ solvesIn w + (toSet af.args q \ ⋂₀ F).ncard + 2 ∧
        solvesIn w' ≤ solvesIn w + G.ncard + 1) (fun _ _ => False) := by
  have hnew : Ensures (whileTrue (seeSkepRound O af) fuel st) w
      (fun included w' => (∃ q, included = vec af.args q) ∧
        solvesIn w' ≤ solvesIn w + ((toSet af.args q \ ⋂₀ F).ncard + 2) * 1)
      (fun _ _ => False) := by
    apply ensures_whileTrue_costs_of_first
      (fun st => (costs_seeSkepRound O af st).atMost le_rfl) (SeeSkepOpen af F)
      (fun included => ∃ q, included = vec af.args q) ?_ ?_ (ncard_succ_lt _ hfuel)
    · intro w'
      apply (seeSkepRound_open h hO hinv w').post
      intro x w'' hx
      cases x with
      | inr included => exact hx
      | inl st' =>
          obtain ⟨k, hle, hopen, -⟩ := hx
          exact ⟨k, hle, hopen⟩
    · intro k st' w' hk
      obtain ⟨G', q', hinv', hall, rfl⟩ := hk
      apply (seeSkepRound_open h hO hinv' w').post
      intro x w'' hx
      cases x with
      | inr included => exact hx
      | inl st'' =>
          obtain ⟨k, -, hopen, hlt⟩ := hx
          exact ⟨k, hlt hall, hopen⟩
  have hsets : Ensures (whileTrue (seeSkepRound O af) fuel st) w
      (fun _ w' => True ∧ solvesIn w' ≤ solvesIn w + (G.ncard + 1) * 1) (fun _ _ => False) := by
    apply ensures_whileTrue_costs (fun st => (costs_seeSkepRound O af st).atMost le_rfl)
      (fun k st => ∃ G q, SeeSkepInv af F G q st ∧ G.ncard = k) (fun _ => True) ?_
      ⟨_, _, hinv, rfl⟩ (Nat.lt_of_le_of_lt (ncard_le_two_pow _) hfuel)
    intro k st' w' hk
    obtain ⟨G', q', hinv', rfl⟩ := hk
    apply (seeSkepRound_ensures h hO hinv').post
    intro x w'' hx
    cases x with
    | inr r => trivial
    | inl st'' =>
        obtain ⟨G'', q'', hinv'', hlt, -⟩ := hx
        exact ⟨_, hlt, G'', q'', hinv'', rfl⟩
  apply (hnew.and hsets).post
  intro included w' hr
  obtain ⟨⟨hshape, hle⟩, -, hle'⟩ := hr
  exact ⟨hshape, by omega, by omega⟩

/-- SEE needs at most one query for each argument that it reports, and two more. -/
theorem seeCred_calls {sem : Semantics} (hsem : sem = .CO ∨ sem = .PR ∨ sem = .ST) :
    Ensures (seeCred O perfEnc af sem fuel) w
      (fun r w' => solvesIn w' ≤ solvesIn w + r.length + 2 ∧
        solvesIn w' ≤ solvesIn w + (sem.visited perfEnc af.att).ncard + 1)
      (fun _ _ => False) := by
  obtain ⟨cs, hcs, hfamily⟩ := encodeCred_visited h hsem
  have hloop : Ensures (seeCred O perfEnc af sem fuel) w
      (fun _ w' => solvesIn w' ≤ solvesIn w + (⋃₀ family af.args cs).ncard + 2 ∧
        solvesIn w' ≤ solvesIn w + (family af.args cs).ncard + 1) (fun _ _ => False) := by
    unfold seeCred
    rw [hcs, Run.pure_bind]
    apply ensures_bind
    apply ensures_addClauses_calls
    intro w₀ hw₀
    simpa [toSet_true, hw₀] using seeCredLoop_calls h hO hfuel (w := w₀) (seeCredInv_start cs)
  apply ((seeCred_ensures h hO hcs hfuel).and hloop).post
  intro r w' hr
  obtain ⟨hreports, hcalls⟩ := hr
  rwa [hreports.length_eq, ← hfamily]

/-- The skeptical search needs at most one query for each argument that it leaves out. -/
theorem seeSkep_calls :
    Ensures (seeSkep O af .ST fuel) w
      (fun r w' => solvesIn w' + r.length ≤ solvesIn w + af.args + 2 ∧
        solvesIn w' ≤ solvesIn w + {S | Stable af.att S}.ncard + 1) (fun _ _ => False) := by
  obtain ⟨cs, hcs, hfam, hdual⟩ := stable_spec h
  have hloop : Ensures (seeSkep O af .ST fuel) w
      (fun _ w' => solvesIn w' ≤ solvesIn w + (⋂₀ {S | Stable af.att S})ᶜ.ncard + 2 ∧
        solvesIn w' ≤ solvesIn w + {S | Stable af.att S}.ncard + 1) (fun _ _ => False) := by
    unfold seeSkep
    simp only [ne_eq, not_true_eq_false, if_false, hcs, bounds, Run.ofOption_some, Run.pure_bind]
    apply ensures_bind
    apply ensures_addClauses_calls
    intro w₀ hw₀
    apply ensures_bind
    apply (seeSkepLoop_calls h hO hfuel (seeSkepInv_start hfam hdual)).post
    intro included w' hx
    obtain ⟨⟨q, rfl⟩, hcalls⟩ := hx
    apply ensures_bounds (includedNames_vec h q)
    rwa [toSet_true, ← Set.compl_eq_univ_sdiff, hw₀] at hcalls
  apply ((seeSkep_ensures h hO hfuel).and hloop).post
  intro r w' hr
  obtain ⟨rfl, hcalls⟩ := hr
  rw [(reports_namesOf af _).length_eq]
  have hcompl := Set.ncard_add_ncard_compl (⋂₀ {S | Stable af.att S})
  rw [Nat.card_eq_fintype_card, Fintype.card_fin] at hcompl
  omega

end SEE

section SEEM

variable (O : Oracle) (perfEnc : Bool) (af : AF)

theorem costs_seemCredRound (sem : Semantics) (st : SeemCredState) :
    Costs solvesIn (seemCredRound O perfEnc af sem st) 1 := by
  apply (costs_encodeCred perfEnc af sem).after
  intro cs
  apply (costs_addClauses _ cs).after
  intro solver
  apply Costs.after
  · apply Costs.foldlM_zero
    intro y i
    apply (costs_bounds _).after
    intro unvisited
    apply costs_ite
    · exact (costs_bounds _).after fun lit => (costs_setWeight _ _ _).after fun _ => costs_pure _
    · exact costs_pure _
  · intro y
    apply (costs_solve O _).before
    intro x
    exact costs_ite (costs_pure _) ((costs_bounds _).after fun _ => costs_pure _)

theorem costs_seemSkepRound (st : SatSolver × List Bool) :
    Costs solvesIn (seemSkepRound O af st) 1 := by
  apply Costs.after
  · apply Costs.foldlM_zero
    intro y i
    apply (costs_bounds _).after
    intro included
    apply costs_ite
    · exact (costs_bounds _).after fun lit => (costs_setWeight _ _ _).after fun _ => costs_pure _
    · exact (costs_bounds _).after fun lit => (costs_setWeight _ _ _).after fun _ => costs_pure _
  · intro y
    apply (costs_solve O _).before
    intro x
    exact costs_ite (costs_pure _) ((costs_bounds _).after fun _ => costs_pure _)

variable {O perfEnc af} (h : AF.Ready perfEnc af) (hO : O.Optimal) {fuel : Nat}
  (hfuel : af.args < fuel) {w : List Event}

include h hO hfuel

/-- Each query but the last one adds an argument to the result. -/
theorem seemCred_calls {sem : Semantics} (hsem : sem = .CO ∨ sem = .PR ∨ sem = .ST) :
    Ensures (seemCred O perfEnc af sem fuel) w
      (fun r w' => solvesIn w' ≤ solvesIn w + r.length + 1) (fun _ _ => False) := by
  obtain ⟨cs, hcs, -⟩ := encodeCred_members h hsem
  unfold seemCred
  rw [if_pos hsem]
  set F := family af.args cs
  have hloop := ensures_whileTrue_costs
    (fun st => (costs_seemCredRound O perfEnc af sem st).atMost le_rfl)
    (fun k st => ∃ q, SeemCredInv af F q st ∧ (⋃₀ F \ toSet af.args q).ncard = k)
    (fun r => Reports af (⋃₀ F) r) (s := w) (E := fun _ _ => False) ?_
    ⟨_, seemCredInv_start af F, rfl⟩ (Nat.lt_of_le_of_lt (ncard_le_args _) hfuel)
  · apply hloop.post
    intro r w' hr
    obtain ⟨hreports, hcalls⟩ := hr
    rw [hreports.length_eq]
    rwa [toSet_none, Set.sdiff_empty, Nat.mul_one, ← Nat.add_assoc] at hcalls
  · intro k st w' hk
    obtain ⟨q, hinv, rfl⟩ := hk
    apply (seemCredRound_ensures h hO hcs hinv).post
    intro x w'' hx
    cases x with
    | inr r => exact hx
    | inl st' =>
        obtain ⟨q', hinv', hsubset, hnew⟩ := hx
        refine ⟨_, ?_, q', hinv', rfl⟩
        obtain ⟨i, hi, hnot⟩ := Set.not_subset.mp hnew
        refine Set.ncard_lt_ncard ⟨Set.sdiff_subset_sdiff_right hsubset, fun hback => ?_⟩
        exact (hback ⟨hinv'.occurs hi, hnot⟩).2 hi

/-- Each query but the last one leaves an argument out. -/
theorem seemSkep_calls :
    Ensures (seemSkep O af .ST fuel) w
      (fun r w' => solvesIn w' + r.length ≤ solvesIn w + af.args + 1) (fun _ _ => False) := by
  obtain ⟨cs, hcs, hfam, hdual⟩ := stable_spec h
  unfold seemSkep
  simp only [ne_eq, not_true_eq_false, if_false, hcs, bounds, Run.ofOption_some, Run.pure_bind]
  apply ensures_bind
  apply ensures_addClauses_calls
  intro w₀ hw₀
  apply ensures_bind
  set F := {S | Stable af.att S}
  have hloop := ensures_whileTrue_costs (fun st => (costs_seemSkepRound O af st).atMost le_rfl)
    (fun k st => ∃ q, SeemSkepInv af F q st ∧ (toSet af.args q \ ⋂₀ F).ncard = k)
    (fun included => ∃ q, included = vec af.args q ∧ toSet af.args q = ⋂₀ F) (s := w₀)
    (E := fun _ _ => False) ?_ ⟨_, seemSkepInv_start hfam hdual, rfl⟩
    (Nat.lt_of_le_of_lt (ncard_le_args _) hfuel)
  · apply hloop.post
    intro included w' hx
    obtain ⟨⟨q, rfl, hq⟩, hcalls⟩ := hx
    apply ensures_bounds (includedNames_sInter h hq)
    rw [(reports_namesOf af _).length_eq]
    rw [toSet_true, ← Set.compl_eq_univ_sdiff, hw₀] at hcalls
    have hcompl := Set.ncard_add_ncard_compl (⋂₀ F)
    rw [Nat.card_eq_fintype_card, Fintype.card_fin] at hcompl
    omega
  · intro k st w' hk
    obtain ⟨q, hinv, rfl⟩ := hk
    apply (seemSkepRound_ensures h hO hinv).post
    intro x w'' hx
    cases x with
    | inr included => exact hx
    | inl st' =>
        obtain ⟨q', hinv', hsubset, hnew⟩ := hx
        refine ⟨_, ?_, q', hinv', rfl⟩
        obtain ⟨i, hi, hnot⟩ := Set.not_subset.mp hnew
        refine Set.ncard_lt_ncard ⟨Set.sdiff_subset_sdiff_left hsubset, fun hback => ?_⟩
        refine hnot (hback ⟨hi, fun hmem => ?_⟩).1
        obtain ⟨S, hS, hiS⟩ := hinv'.missing i hnot
        exact hiS (hmem S hS)

end SEEM

/-! ## The builds compared -/

theorem visited_perf_subset {α : Type*} (att : α → α → Prop) (sem : Semantics) :
    sem.visited true att ⊆ sem.visited false att := by
  cases sem with
  | CO => exact fun S hS => Complete.selfReinstating hS
  | PR => exact fun S hS => Complete.selfReinstating hS
  | ST => exact Set.Subset.rfl
  | UNKNOWN_SEM => exact Set.Subset.rfl

/-- IAQ asks exactly one query for each argument of the file. EEE asks exactly one for each
set that its encoding accepts, and one more; under PR it asks at least two and at most
linearly many for each preferred extension, and one more. -/
theorem iaq_eee_calls (perfEnc : Bool) (names : List String) (atts : List (String × String))
    (O : Oracle) (hO : O.Correct) :
    ∃ af, AF.build perfEnc names atts = some af ∧ ∀ fuel > 2 ^ af.args, ∀ log,
      (∀ sem, sem = .CO ∨ sem = .PR ∨ sem = .ST →
        (∃ result log', iaqCred O perfEnc af sem log = (.ok result, log') ∧
          solvesIn log' = solvesIn log + names.length) ∧
        ∃ result log', eeeCred O perfEnc af sem fuel log = (.ok result, log') ∧
          solvesIn log' = solvesIn log + ((sem.visited perfEnc af.att).ncard + 1)) ∧
      (∃ result log', iaqSkep O perfEnc af .ST fuel log = (.ok result, log') ∧
        solvesIn log' = solvesIn log + names.length) ∧
      (∃ result log', eeeSkep O perfEnc af .ST fuel log = (.ok result, log') ∧
        solvesIn log' = solvesIn log + ({S | Stable af.att S}.ncard + 1)) ∧
      ∃ result log', eeeSkep O perfEnc af .PR fuel log = (.ok result, log') ∧
        solvesIn log + {S | Preferred af.att S}.ncard * 2 + 1 ≤ solvesIn log' ∧
        solvesIn log' ≤
          solvesIn log + {S | Preferred af.att S}.ncard * (names.length + 2) + 1 := by
  obtain ⟨af, haf, hready, -, hargs⟩ := AF.build_spec perfEnc names atts
  refine ⟨af, haf, ?_⟩
  rw [← hargs]
  intro fuel hfuel log
  refine ⟨fun sem hsem => ⟨?_, ?_⟩, ?_, ?_, ?_⟩
  · obtain ⟨cs, hcs, -⟩ := encodeCred_members hready hsem
    obtain ⟨result, log', hrun, -, hcalls⟩ :=
      ((iaqCred_ensures (w := log) hready hO hcs).costs (costs_iaqCred O perfEnc af sem)).exists_ok
    exact ⟨result, log', hrun, hcalls⟩
  · exact (eeeCred_calls hready hO hfuel hsem).exists_ok
  · obtain ⟨result, log', hrun, -, hcalls⟩ := ((iaqSkep_ST_ensures (w := log) hready hO fuel).costs
      (costs_iaqSkep_ST O perfEnc af fuel)).exists_ok
    exact ⟨result, log', hrun, hcalls⟩
  · exact (eeeSkep_ST_calls hready hO hfuel).exists_ok
  · exact (eeeSkep_PR_calls hready hO hfuel).exists_ok

theorem iaq_eee_calls_mutual : ∃ af,
    AF.build true ["a", "b"] [("a", "b"), ("b", "a")] = some af ∧ ∀ fuel > 2 ^ af.args, ∀ log,
      (∀ sem, sem = .CO ∨ sem = .PR ∨ sem = .ST →
        (∃ result log', iaqCred Oracle.exhaustive true af sem log = (.ok result, log') ∧
          solvesIn log' = solvesIn log + 2) ∧
        ∃ result log', eeeCred Oracle.exhaustive true af sem fuel log = (.ok result, log') ∧
          solvesIn log' = solvesIn log + ((sem.visited true af.att).ncard + 1)) ∧
      (∃ result log', iaqSkep Oracle.exhaustive true af .ST fuel log = (.ok result, log') ∧
        solvesIn log' = solvesIn log + 2) ∧
      (∃ result log', eeeSkep Oracle.exhaustive true af .ST fuel log = (.ok result, log') ∧
        solvesIn log' = solvesIn log + ({S | Stable af.att S}.ncard + 1)) ∧
      ∃ result log', eeeSkep Oracle.exhaustive true af .PR fuel log = (.ok result, log') ∧
        solvesIn log + {S | Preferred af.att S}.ncard * 2 + 1 ≤ solvesIn log' ∧
        solvesIn log' ≤ solvesIn log + {S | Preferred af.att S}.ncard * (2 + 2) + 1 :=
  iaq_eee_calls true ["a", "b"] [("a", "b"), ("b", "a")] Oracle.exhaustive
    Oracle.exhaustive_correct

/-- Whatever models the two solvers return, EEE with PERF_ENC never asks more queries than
without it, and as many only if every set that the plain encoding accepts is complete. -/
theorem perf_enc_saves_calls (names : List String) (atts : List (String × String))
    (O O' : Oracle) (hO : O.Correct) (hO' : O'.Correct) (sem : Semantics)
    (hsem : sem = .CO ∨ sem = .PR) :
    ∃ af af', AF.build true names atts = some af ∧ AF.build false names atts = some af' ∧
      ∀ fuel > 2 ^ names.length, ∀ fuel' > 2 ^ names.length, ∀ log log',
        ∃ r w k r' w' k', eeeCred O true af sem fuel log = (.ok r, w) ∧
          solvesIn w = solvesIn log + k ∧
          eeeCred O' false af' sem fuel' log' = (.ok r', w') ∧
          solvesIn w' = solvesIn log' + k' ∧
          k ≤ k' ∧ (k = k' ↔ ∀ S, SelfReinstating af'.att S → Complete af'.att S) := by
  obtain ⟨af, haf, hready, -, hargs⟩ := AF.build_spec true names atts
  obtain ⟨af', haf', hready', -, hargs'⟩ := AF.build_spec false names atts
  refine ⟨af, af', haf, haf', ?_⟩
  intro fuel hfuel fuel' hfuel' log log'
  have hsem' : sem = .CO ∨ sem = .PR ∨ sem = .ST := by tauto
  rw [← hargs] at hfuel
  rw [← hargs'] at hfuel'
  obtain ⟨r, w, hrun, hw⟩ := (eeeCred_calls hready hO hfuel (w := log) hsem').exists_ok
  obtain ⟨r', w', hrun', hw'⟩ := (eeeCred_calls hready' hO' hfuel' (w := log') hsem').exists_ok
  refine ⟨r, w, _, r', w', _, hrun, hw, hrun', hw', ?_⟩
  have hsame : (sem.visited true af.att).ncard = (sem.visited true af'.att).ncard := by
    obtain ⟨hargs, -, hatt⟩ := AF.build_agree haf haf'
    unfold AF.att
    rw [hargs, hatt]
  have hsubset := visited_perf_subset af'.att sem
  have hle := Set.ncard_le_ncard hsubset
  refine ⟨by omega, ?_⟩
  have hiff : (sem.visited true af'.att).ncard = (sem.visited false af'.att).ncard ↔
      sem.visited false af'.att ⊆ sem.visited true af'.att := by
    constructor
    · intro heq
      exact (Set.eq_of_subset_of_ncard_le hsubset heq.ge).ge
    · intro hback
      rw [hsubset.antisymm hback]
  have hcomplete : sem.visited false af'.att ⊆ sem.visited true af'.att ↔
      ∀ S, SelfReinstating af'.att S → Complete af'.att S := by
    cases hsem with
    | inl hsem => exact hsem ▸ Iff.rfl
    | inr hsem => exact hsem ▸ Iff.rfl
  rw [← hcomplete, ← hiff]
  omega

theorem perf_enc_saves_calls_mutual : ∃ af af',
    AF.build true ["a", "b"] [("a", "b"), ("b", "a")] = some af ∧
      AF.build false ["a", "b"] [("a", "b"), ("b", "a")] = some af' ∧
      ∀ fuel > 2 ^ 2, ∀ fuel' > 2 ^ 2, ∀ log log',
        ∃ r w k r' w' k', eeeCred Oracle.exhaustive true af .CO fuel log = (.ok r, w) ∧
          solvesIn w = solvesIn log + k ∧
          eeeCred Oracle.exhaustive false af' .CO fuel' log' = (.ok r', w') ∧
          solvesIn w' = solvesIn log' + k' ∧
          k ≤ k' ∧ (k = k' ↔ ∀ S, SelfReinstating af'.att S → Complete af'.att S) :=
  perf_enc_saves_calls ["a", "b"] [("a", "b"), ("b", "a")] Oracle.exhaustive Oracle.exhaustive
    Oracle.exhaustive_correct Oracle.exhaustive_correct .CO (Or.inl rfl)

/-- SEE never asks more queries than EEE, whatever models the two solvers return, and the
answer bounds its queries: one for each argument that is reported, or under skeptical
acceptance for each one that is left out, and two more. -/
theorem see_calls (perfEnc : Bool) (names : List String) (atts : List (String × String))
    (O O' : Oracle) (hO : O.Correct) (hO' : O'.Correct) :
    ∃ af, AF.build perfEnc names atts = some af ∧ ∀ fuel > 2 ^ af.args, ∀ log log',
      (∀ sem, sem = .CO ∨ sem = .PR ∨ sem = .ST →
        ∃ r w r' w' k, seeCred O perfEnc af sem fuel log = (.ok r, w) ∧
          eeeCred O' perfEnc af sem fuel log' = (.ok r', w') ∧
          solvesIn w' = solvesIn log' + k ∧ solvesIn w ≤ solvesIn log + k ∧
          solvesIn w ≤ solvesIn log + r.length + 2) ∧
      ∃ r w r' w' k, seeSkep O af .ST fuel log = (.ok r, w) ∧
        eeeSkep O' perfEnc af .ST fuel log' = (.ok r', w') ∧
        solvesIn w' = solvesIn log' + k ∧ solvesIn w ≤ solvesIn log + k ∧
        solvesIn w + r.length ≤ solvesIn log + names.length + 2 := by
  obtain ⟨af, haf, hready, -, hargs⟩ := AF.build_spec perfEnc names atts
  refine ⟨af, haf, ?_⟩
  rw [← hargs]
  intro fuel hfuel log log'
  constructor
  · intro sem hsem
    obtain ⟨r, w, hrun, hr, hsets⟩ := (seeCred_calls hready hO hfuel (w := log) hsem).exists_ok
    obtain ⟨r', w', hrun', hw'⟩ := (eeeCred_calls hready hO' hfuel (w := log') hsem).exists_ok
    exact ⟨r, w, r', w', _, hrun, hrun', hw', by omega, by omega⟩
  · obtain ⟨r, w, hrun, hr, hsets⟩ := (seeSkep_calls hready hO hfuel (w := log)).exists_ok
    obtain ⟨r', w', hrun', hw'⟩ := (eeeSkep_ST_calls hready hO' hfuel (w := log')).exists_ok
    exact ⟨r, w, r', w', _, hrun, hrun', hw', by omega, by omega⟩

theorem see_calls_mutual : ∃ af,
    AF.build false ["a", "b"] [("a", "b"), ("b", "a")] = some af ∧
      ∀ fuel > 2 ^ af.args, ∀ log log',
      (∀ sem, sem = .CO ∨ sem = .PR ∨ sem = .ST →
        ∃ r w r' w' k, seeCred Oracle.exhaustive false af sem fuel log = (.ok r, w) ∧
          eeeCred Oracle.exhaustive false af sem fuel log' = (.ok r', w') ∧
          solvesIn w' = solvesIn log' + k ∧ solvesIn w ≤ solvesIn log + k ∧
          solvesIn w ≤ solvesIn log + r.length + 2) ∧
      ∃ r w r' w' k, seeSkep Oracle.exhaustive af .ST fuel log = (.ok r, w) ∧
        eeeSkep Oracle.exhaustive false af .ST fuel log' = (.ok r', w') ∧
        solvesIn w' = solvesIn log' + k ∧ solvesIn w ≤ solvesIn log + k ∧
        solvesIn w + r.length ≤ solvesIn log + 2 + 2 :=
  see_calls false ["a", "b"] [("a", "b"), ("b", "a")] Oracle.exhaustive Oracle.exhaustive
    Oracle.exhaustive_correct Oracle.exhaustive_correct

/-- SEEM asks at most one query more than there are arguments in a credulous answer, or
outside of a skeptical one. -/
theorem seem_calls (perfEnc : Bool) (names : List String) (atts : List (String × String))
    (O : Oracle) (hO : O.Optimal) :
    ∃ af, AF.build perfEnc names atts = some af ∧ ∀ fuel > af.args, ∀ log,
      (∀ sem, sem = .CO ∨ sem = .PR ∨ sem = .ST → ∃ result log',
        seemCred O perfEnc af sem fuel log = (.ok result, log') ∧
        solvesIn log' ≤ solvesIn log + result.length + 1) ∧
      ∃ result log', seemSkep O af .ST fuel log = (.ok result, log') ∧
        solvesIn log' + result.length ≤ solvesIn log + names.length + 1 := by
  obtain ⟨af, haf, hready, -, hargs⟩ := AF.build_spec perfEnc names atts
  refine ⟨af, haf, ?_⟩
  rw [← hargs]
  intro fuel hfuel log
  constructor
  · exact fun sem hsem => (seemCred_calls hready hO hfuel hsem).exists_ok
  · exact (seemSkep_calls hready hO hfuel).exists_ok

theorem seem_calls_mutual : ∃ af,
    AF.build true ["a", "b"] [("a", "b"), ("b", "a")] = some af ∧ ∀ fuel > af.args, ∀ log,
      (∀ sem, sem = .CO ∨ sem = .PR ∨ sem = .ST → ∃ result log',
        seemCred Oracle.cheapest true af sem fuel log = (.ok result, log') ∧
        solvesIn log' ≤ solvesIn log + result.length + 1) ∧
      ∃ result log', seemSkep Oracle.cheapest af .ST fuel log = (.ok result, log') ∧
        solvesIn log' + result.length ≤ solvesIn log + 2 + 1 :=
  seem_calls true ["a", "b"] [("a", "b"), ("b", "a")] Oracle.cheapest Oracle.cheapest_optimal

end Algorithms

end AcceptableArguments
