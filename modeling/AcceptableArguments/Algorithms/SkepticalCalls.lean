import AcceptableArguments.Algorithms.SolverCalls
import AcceptableArguments.Imperative.Traces
import Mathlib.Algebra.BigOperators.Fin

/-!
# The queries of the skeptical search

Every round of `is_skeptically_preferred` that goes on blocks the subsets of a maximal set
that the encoding accepts without the argument, and no set is blocked twice. If the argument
is skeptical all these sets have to be blocked.
-/

namespace AcceptableArguments

open AcceptableArguments.Sat Imperative Argumentation Encodings

/-! ## Maximal sets without an argument -/

section Sets

variable {α : Type*} {F found : Set (Set α)} {x : α} {S : Set α}

/-- The maximal sets of a family that avoid an argument. -/
def maximalWithout (F : Set (Set α)) (x : α) : Set (Set α) :=
  {S | Maximal (· ∈ {T ∈ F | x ∉ T}) S}

/-- What is left of a family when the subsets of some sets are blocked. -/
def unblocked (F found : Set (Set α)) : Set (Set α) := {S ∈ F | ∀ M ∈ found, ¬ S ⊆ M}

theorem unblocked_empty (F : Set (Set α)) : unblocked F ∅ = F := by
  simp [unblocked]

theorem unblocked_insert (F found : Set (Set α)) (M : Set α) :
    {S ∈ unblocked F found | ¬ S ⊆ M} = unblocked F (insert M found) := by
  ext S
  simp [unblocked, and_assoc, and_comm]

/-- A maximal set of what is left is one of the whole family, and it is new. -/
theorem mem_maximalWithout_diff (h : S ∈ maximalWithout (unblocked F found) x) :
    S ∈ maximalWithout F x \ found := by
  obtain ⟨⟨⟨hSF, hfree⟩, hxS⟩, hmax⟩ := h
  refine ⟨⟨⟨hSF, hxS⟩, fun T hT hST => ?_⟩, fun hfound => hfree S hfound Set.Subset.rfl⟩
  have hTfree : ∀ M ∈ found, ¬ T ⊆ M := fun M hM hTM => hfree M hM (hST.trans hTM)
  exact hmax ⟨⟨hT.1, hTfree⟩, hT.2⟩ hST

/-- A maximal set stays until it is found. -/
theorem mem_unblocked (hfound : found ⊆ maximalWithout F x)
    (h : S ∈ maximalWithout F x \ found) : S ∈ unblocked F found := by
  refine ⟨h.1.prop.1, fun M hM hSM => h.2 ?_⟩
  have hMS : M ⊆ S := h.1.2 (hfound hM).prop hSM
  rwa [hSM.antisymm hMS]

theorem ncard_diff_insert [Finite α] (h : S ∈ maximalWithout F x \ found) :
    (maximalWithout F x \ insert S found).ncard + 1 = (maximalWithout F x \ found).ncard := by
  have hset : maximalWithout F x \ insert S found = (maximalWithout F x \ found) \ {S} := by
    rw [Set.sdiff_sdiff, Set.union_singleton]
  rw [hset, Set.ncard_sdiff_singleton_add_one h]

end Sets

namespace Algorithms

/-! ## The loops -/

/-- What `Encodings::complete` accepts, and that it finds the preferred extensions. -/
theorem complete_visited {perfEnc : Bool} {af : AF} (h : AF.Ready perfEnc af) :
    ∃ cs, Encodings.complete perfEnc af = some cs ∧
      family af.args cs = Semantics.CO.visited perfEnc af.att ∧
      PreferredFamily af.att (Semantics.CO.visited perfEnc af.att) := by
  cases perfEnc with
  | true =>
      exact ⟨_, Encodings.complete_perf_eq h,
        Set.ext (exists_completePerfClauses_iff h.attackers_lt), preferredFamily_complete⟩
  | false =>
      exact ⟨_, Encodings.complete_eq h,
        Set.ext (exists_completeClauses_iff h.attackers_lt), preferredFamily_selfReinstating⟩

theorem costs_solveAssuming (O : Oracle) (solver : SatSolver) (lits : List Int) :
    Costs solvesIn (solver.solveAssuming O lits) 1 :=
  (Costs.foldlM_zero (fun _ lit => costs_assume _ lit) lits solver).after fun _ => costs_solve O _

theorem costs_growRound (O : Oracle) (af : AF) (st : GrowState SatSolver) :
    Costs solvesIn (growRound O af st) 1 := by
  apply (costs_bounds _).after
  intro x
  apply (costs_addClause _ _).after
  intro solver
  apply (costs_solveAssuming O solver _).before
  exact fun y => costs_ite (costs_pure _) (costs_pure _)

/-- `is_skeptically_preferred` with the solver after every round that goes on. -/
def isSkepticallyPreferredRounds (O : Oracle) (perfEnc : Bool) (af : AF) (arg fuel : Nat) :
    SolveM (List SatSolver × Bool) := do
  let solver := SatSolver.new af.count af.args
  let solver ← solver.addClauses (← bounds (Encodings.complete perfEnc af))
  let assumptions := [-(← bounds af.acceptedVar[arg]?)]
  whileTrace (skepticalRound O af fuel assumptions) fuel solver

theorem isSkepticallyPreferredRounds_mirrors (O : Oracle) (perfEnc : Bool) (af : AF)
    (arg fuel : Nat) :
    Mirrors Prod.snd (isSkepticallyPreferredRounds O perfEnc af arg fuel)
      (isSkepticallyPreferred O perfEnc af arg fuel) := by
  apply mirrors_bind
  intro cs
  apply mirrors_bind
  intro solver
  apply mirrors_bind
  intro lit
  exact Mirrors.whileTrue (fun _ => mirrors_sum_id _) fuel solver

/-- The maximal sets without an argument that the encoding of a build accepts. -/
def setsWithout (perfEnc : Bool) (af : AF) (arg : Fin af.args) : Set (Set (Fin af.args)) :=
  maximalWithout (Semantics.CO.visited perfEnc af.att) arg

section Loops

variable {perfEnc : Bool} {af : AF} (h : AF.Ready perfEnc af) {O : Oracle} (hO : O.Correct)
  {w : List Event} {fuel : Nat} (hfuel : 2 ^ af.args < fuel) {F G : Set (Set (Fin af.args))}
  {arg : Fin af.args}

include h hO hfuel

/-- Each query of the inner loop but the last one adds an argument, and never `arg`. -/
theorem grow_calls {p v : Nat → Bool} {st : GrowState SatSolver} (hst : GrowInv F G arg p v st) :
    Ensures (whileTrue (growRound O af) fuel st) w
      (fun x w' => (∃ q, toSet af.args q ∈ {S ∈ G | arg ∉ S} ∧
          GrowDone F {S ∈ G | ¬ S ⊆ toSet af.args q} arg q x.1 x.2) ∧
        solvesIn w + 1 ≤ solvesIn w' ∧ solvesIn w' ≤ solvesIn w + af.args)
      (fun _ _ => False) := by
  apply ensures_whileTrue_of_trace
  apply ((growRounds_ensures h hO hst hfuel).costs
    (Costs.whileTrace (costs_growRound O af) fuel _)).post
  intro x w' hx
  obtain ⟨⟨q, hq, hlen, hdone⟩, hcalls⟩ := hx
  have hless : (toSet af.args q).ncard < (Set.univ : Set (Fin af.args)).ncard :=
    Set.ncard_lt_ncard (Set.ssubset_univ_iff.mpr fun hall => hq.2 (hall ▸ Set.mem_univ arg))
  rw [Set.ncard_univ, Nat.card_fin] at hless
  exact ⟨⟨q, hq, hdone⟩, by omega, by omega⟩

theorem skepticalRound_calls {solver : SatSolver} (hinv : SkepticalInv F G arg solver) :
    Ensures (skepticalRound O af fuel [-(accVar arg : Int)] solver) w
      (fun x w' => match x with
        | .inl _ => solvesIn w + 3 ≤ solvesIn w' ∧ solvesIn w' ≤ solvesIn w + (af.args + 2)
        | .inr true => (∀ S ∈ G, arg ∈ S) ∧ solvesIn w' = solvesIn w + 1
        | .inr false => (∃ S, S ∈ maximalWithout G arg) ∧
            solvesIn w' ≤ solvesIn w + (af.args + 2)) (fun _ _ => False) := by
  have hfirst : Ensures (solver.solveAssuming O [-(accVar arg : Int)]) w
      (fun x _ => match x with
        | (.UNSAT_V, _) => ∀ S ∈ G, arg ∈ S
        | (.SAT_V, solver') => ∃ p, GrowInv F G arg p (fun _ => false)
            ⟨solver', [-(accVar arg : Int)], List.replicate af.args false⟩)
      (fun _ _ => False) := by
    apply hinv.searches.ensures_solveAssuming hO (allHold_neg_accVar arg)
    · intro hno solver' w' _ S hS
      exact Classical.not_not.mp (hno S hS)
    · intro p hp hap solver' w' hsearch hmodel
      exact ⟨p, hinv.growInv hp hap hsearch hmodel⟩
  apply ensures_bind
  apply (hfirst.costs (costs_solveAssuming O solver _)).post
  intro x w₁ hx
  obtain ⟨sat, solver₁⟩ := x
  obtain ⟨hx, hcalls⟩ := hx
  cases sat with
  | UNSAT_V => exact ensures_pure ⟨hx, hcalls⟩
  | SAT_V =>
      obtain ⟨p, hgrow⟩ := hx
      apply ensures_bind
      apply (grow_calls h hO hfuel hgrow).post
      intro y w₂ hy
      obtain ⟨⟨q, hq, hdone⟩, hlower, hupper⟩ := hy
      obtain ⟨flipped, hflip, hflipped⟩ := hdone.growing.flipFirst
      simp only [hflip, bounds, Run.ofOption_some, Run.pure_bind]
      apply ensures_bind
      apply ((hdone.searches.ensures_solveAssuming hO hflipped
        (Q := fun _ _ => True) (fun _ _ _ _ => trivial) fun _ _ _ _ _ _ _ => trivial).costs
        (costs_solveAssuming O y.1 flipped)).post
      intro z w₃ hz
      obtain ⟨sat', solver₃⟩ := z
      obtain ⟨-, htest⟩ := hz
      cases sat' with
      | UNSAT_V => exact ensures_pure ⟨⟨_, hdone.maximal hq⟩, by omega⟩
      | SAT_V => exact ensures_pure ⟨by omega, by omega⟩

/-- The sets that are blocked one after the other: different maximal sets without the
argument, and all of them if the answer is yes. -/
structure Exhausts {α : Type} (M : Set (Set α)) (sets : List (Set α)) (b : Bool) : Prop where
  nodup : sets.Nodup
  maximal : ∀ S ∈ sets, S ∈ M
  all_of_yes : b = true → ∀ S ∈ M, S ∈ sets

/-- The rounds block different maximal sets. A yes needs all of them. -/
theorem skepticalLoop_calls (hF : PreferredFamily af.att F) {solver : SatSolver}
    (hinv : SkepticalInv F F arg solver) :
    Ensures (whileTrace (skepticalRound O af fuel [-(accVar arg : Int)]) fuel solver) w
      (fun x w' => Exhausts (maximalWithout F arg) (x.1.map (lastBlocked af.args)) x.2 ∧
        (x.2 = true ↔ Skeptical af.att arg) ∧
        solvesIn w' ≤ solvesIn w + ((maximalWithout F arg).ncard * (af.args + 2) + 1) ∧
        (x.2 = true → solvesIn w + ((maximalWithout F arg).ncard * 3 + 1) ≤ solvesIn w'))
      (fun _ _ => False) := by
  set M := maximalWithout F arg
  let found : List SatSolver → Set (Set (Fin af.args)) := fun rounds =>
    {S | S ∈ rounds.map (lastBlocked af.args)}
  have hfound_nil : found [] = ∅ := by simp [found]
  have hfound_concat : ∀ rounds solver',
      found (rounds ++ [solver']) = insert (lastBlocked af.args solver') (found rounds) := by
    intro rounds solver'
    ext S
    simp [found, or_comm, eq_comm]
  refine ensures_whileTrace (fun k rounds solver w' =>
    (rounds.map (lastBlocked af.args)).Nodup ∧ found rounds ⊆ M ∧
    SkepticalInv F (unblocked F (found rounds)) arg solver ∧ (M \ found rounds).ncard = k ∧
    solvesIn w' + k * (af.args + 2) ≤ solvesIn w + M.ncard * (af.args + 2) ∧
    solvesIn w + M.ncard * 3 ≤ solvesIn w' + k * 3)
    (fun rounds b w' => Exhausts M (rounds.map (lastBlocked af.args)) b ∧
      (b = true ↔ Skeptical af.att arg) ∧
      solvesIn w' ≤ solvesIn w + (M.ncard * (af.args + 2) + 1) ∧
      (b = true → solvesIn w + (M.ncard * 3 + 1) ≤ solvesIn w')) ?_
    ⟨List.nodup_nil, by simp [hfound_nil], by rwa [hfound_nil, unblocked_empty], rfl,
      by simp [hfound_nil], by simp [hfound_nil]⟩
    (Nat.lt_of_le_of_lt (ncard_le_two_pow _) hfuel)
  intro k rounds solver' w₁ hInv
  obtain ⟨hnodup, hfound, hinv', rfl, hupper, hlower⟩ := hInv
  apply ((skepticalRound_ensures h hO hF hinv' hfuel).and
    (skepticalRound_calls h hO hfuel hinv')).post
  intro x w₂ hx
  cases x with
  | inl solver'' =>
      obtain ⟨⟨hS, hinv''⟩, hmore, hless⟩ := hx
      have hnew := mem_maximalWithout_diff hS
      have hcard : (M \ found (rounds ++ [solver''])).ncard + 1 = (M \ found rounds).ncard := by
        rw [hfound_concat]
        exact ncard_diff_insert hnew
      rw [unblocked_insert, ← hfound_concat] at hinv''
      rw [← hcard, Nat.succ_mul] at hupper
      rw [← hcard] at hlower
      refine ⟨_, by omega, ?_, ?_, hinv'', rfl, by omega, by omega⟩
      · rw [List.map_append, List.map_singleton, List.nodup_append_comm, List.singleton_append,
          List.nodup_cons]
        exact ⟨hnew.2, hnodup⟩
      · rw [hfound_concat]
        exact Set.insert_subset hnew.1 hfound
  | inr b =>
      obtain ⟨hskeptical, hcalls⟩ := hx
      cases b with
      | true =>
          obtain ⟨hall, hlast⟩ := hcalls
          have hnone : M \ found rounds = ∅ := by
            rw [Set.eq_empty_iff_forall_notMem]
            intro S hS
            exact hS.1.prop.2 (hall S (mem_unblocked hfound hS))
          rw [hnone, Set.ncard_empty] at hupper hlower
          exact ⟨⟨hnodup, hfound, fun _ => Set.sdiff_eq_empty.mp hnone⟩, hskeptical, by omega,
            fun _ => by omega⟩
      | false =>
          obtain ⟨⟨S, hS⟩, hlast⟩ := hcalls
          have hpos : 0 < (M \ found rounds).ncard :=
            (Set.ncard_pos).mpr ⟨S, mem_maximalWithout_diff hS⟩
          have hround : af.args + 2 ≤ (M \ found rounds).ncard * (af.args + 2) :=
            Nat.le_mul_of_pos_left _ hpos
          exact ⟨⟨hnodup, hfound, fun hb => by cases hb⟩, hskeptical, by omega,
            fun hb => by cases hb⟩

/-- The search for one argument with its rounds. -/
theorem isSkepticallyPreferredRounds_calls (arg : Fin af.args) :
    Ensures (isSkepticallyPreferredRounds O perfEnc af arg fuel) w
      (fun x w' => Exhausts (setsWithout perfEnc af arg) (x.1.map (lastBlocked af.args)) x.2 ∧
        (x.2 = true ↔ Skeptical af.att arg) ∧
        solvesIn w' ≤ solvesIn w + ((setsWithout perfEnc af arg).ncard * (af.args + 2) + 1) ∧
        (x.2 = true → solvesIn w + ((setsWithout perfEnc af arg).ncard * 3 + 1) ≤ solvesIn w'))
      (fun _ _ => False) := by
  obtain ⟨cs, hcs, hvisited, hF⟩ := complete_visited h
  unfold setsWithout
  rw [← hvisited] at hF ⊢
  unfold isSkepticallyPreferredRounds
  simp only [hcs, h.acceptedVar_get arg.2, bounds, Run.ofOption_some, Run.pure_bind]
  apply ensures_bind
  apply ensures_addClauses_calls
  intro w₁ hw₁
  rw [← hw₁]
  apply skepticalLoop_calls h hO hfuel hF
  exact ⟨searches_encoded af.count cs, Set.Subset.rfl, fun S hS hSG => (hSG hS).elim⟩

theorem isSkepticallyPreferred_calls (arg : Fin af.args) :
    Ensures (isSkepticallyPreferred O perfEnc af arg fuel) w
      (fun _ w' => solvesIn w' ≤
        solvesIn w + ((setsWithout perfEnc af arg).ncard * (af.args + 2) + 1))
      (fun _ _ => False) := by
  apply (isSkepticallyPreferredRounds_mirrors O perfEnc af arg fuel).ensures
  apply (isSkepticallyPreferredRounds_calls h hO hfuel arg).post
  intro x w' hx
  obtain ⟨-, -, hupper, -⟩ := hx
  exact hupper

theorem iaqSkep_PR_calls :
    Ensures (iaqSkep O perfEnc af .PR fuel) w
      (fun _ w' => solvesIn w' ≤ solvesIn w +
        ∑ arg : Fin af.args, ((setsWithout perfEnc af arg).ncard * (af.args + 2) + 1))
      (fun _ _ => False) := by
  let price : Nat → Nat := fun i =>
    if hi : i < af.args then (setsWithout perfEnc af ⟨i, hi⟩).ncard * (af.args + 2) + 1 else 0
  have hsum : ∑ arg : Fin af.args, ((setsWithout perfEnc af arg).ncard * (af.args + 2) + 1) =
      ∑ i ∈ Finset.range af.args, price i := by
    rw [Finset.sum_range]
    apply Finset.sum_congr rfl
    intro arg _
    simp [price]
  rw [hsum]
  refine ensures_foldlM_range (fun k _ w' =>
    solvesIn w' ≤ solvesIn w + ∑ i ∈ Finset.range k, price i) af.args ?_ (by simp)
  intro k hk result w₁ hcalls
  apply ensures_bind
  apply (isSkepticallyPreferred_calls h hO hfuel ⟨k, hk⟩).post
  intro b w₂ hupper
  have hprice : price k = (setsWithout perfEnc af ⟨k, hk⟩).ncard * (af.args + 2) + 1 := dif_pos hk
  have hnext : solvesIn w₂ ≤ solvesIn w + ∑ i ∈ Finset.range (k + 1), price i := by
    rw [Finset.sum_range_succ]
    omega
  cases b with
  | true =>
      simp only [if_true, h.intToArg_get hk, bounds, Run.ofOption_some, Run.pure_bind]
      exact ensures_pure hnext
  | false => exact ensures_pure hnext

end Loops

/-- Every round of `is_skeptically_preferred` that goes on blocks a maximal accepted set
without the argument, none of them twice and at most linearly many queries for each; a yes
blocks all of them, with at least three queries for each. -/
theorem iaq_skep_preferred_calls (perfEnc : Bool) (names : List String)
    (atts : List (String × String)) (O : Oracle) (hO : O.Correct) :
    ∃ af, AF.build perfEnc names atts = some af ∧ ∀ fuel > 2 ^ af.args, ∀ log,
      (∀ arg : Fin af.args, ∃ rounds b log',
        isSkepticallyPreferredRounds O perfEnc af arg fuel log = (.ok (rounds, b), log') ∧
        isSkepticallyPreferred O perfEnc af arg fuel log = (.ok b, log') ∧
        (b = true ↔ Skeptical af.att arg) ∧
        (rounds.map (lastBlocked af.args)).Nodup ∧
        (∀ S ∈ rounds.map (lastBlocked af.args), S ∈ setsWithout perfEnc af arg) ∧
        (b = true → ∀ S ∈ setsWithout perfEnc af arg, S ∈ rounds.map (lastBlocked af.args)) ∧
        solvesIn log' ≤ solvesIn log +
          ((setsWithout perfEnc af arg).ncard * (names.length + 2) + 1) ∧
        (b = true → solvesIn log + ((setsWithout perfEnc af arg).ncard * 3 + 1) ≤
          solvesIn log')) ∧
      ∃ result log', iaqSkep O perfEnc af .PR fuel log = (.ok result, log') ∧
        solvesIn log' ≤ solvesIn log +
          ∑ arg : Fin af.args, ((setsWithout perfEnc af arg).ncard * (names.length + 2) + 1) := by
  obtain ⟨af, haf, hready, -, hargs⟩ := AF.build_spec perfEnc names atts
  refine ⟨af, haf, ?_⟩
  rw [← hargs]
  intro fuel hfuel log
  constructor
  · intro arg
    obtain ⟨⟨rounds, b⟩, log', hrun, hsets, hskeptical, hupper, hlower⟩ :=
      (isSkepticallyPreferredRounds_calls (w := log) hready hO hfuel arg).exists_ok
    exact ⟨rounds, b, log', hrun,
      (isSkepticallyPreferredRounds_mirrors O perfEnc af arg fuel).run_ok hrun, hskeptical,
      hsets.nodup, hsets.maximal, hsets.all_of_yes, hupper, hlower⟩
  · exact (iaqSkep_PR_calls hready hO hfuel).exists_ok

theorem iaq_skep_preferred_calls_mutual : ∃ af,
    AF.build true ["a", "b"] [("a", "b"), ("b", "a")] = some af ∧
      ∀ fuel > 2 ^ af.args, ∀ log,
      (∀ arg : Fin af.args, ∃ rounds b log',
        isSkepticallyPreferredRounds Oracle.exhaustive true af arg fuel log =
          (.ok (rounds, b), log') ∧
        isSkepticallyPreferred Oracle.exhaustive true af arg fuel log = (.ok b, log') ∧
        (b = true ↔ Skeptical af.att arg) ∧
        (rounds.map (lastBlocked af.args)).Nodup ∧
        (∀ S ∈ rounds.map (lastBlocked af.args), S ∈ setsWithout true af arg) ∧
        (b = true → ∀ S ∈ setsWithout true af arg, S ∈ rounds.map (lastBlocked af.args)) ∧
        solvesIn log' ≤ solvesIn log + ((setsWithout true af arg).ncard * (2 + 2) + 1) ∧
        (b = true → solvesIn log + ((setsWithout true af arg).ncard * 3 + 1) ≤
          solvesIn log')) ∧
      ∃ result log', iaqSkep Oracle.exhaustive true af .PR fuel log = (.ok result, log') ∧
        solvesIn log' ≤ solvesIn log +
          ∑ arg : Fin af.args, ((setsWithout true af arg).ncard * (2 + 2) + 1) :=
  iaq_skep_preferred_calls true ["a", "b"] [("a", "b"), ("b", "a")] Oracle.exhaustive
    Oracle.exhaustive_correct

end Algorithms

end AcceptableArguments
