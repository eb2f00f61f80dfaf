import AcceptableArguments.Solver
import AcceptableArguments.EncodingModels

/-!
# What the algorithms share

The choice of the encoding by semantics, the loops that collect names and
literals, and the meaning of the clauses over acceptance variables that the
algorithms add while they run. An algorithm is one definition over the solver
interface. What is proved about every solver takes it at the solver with an oracle,
what is proved about an executable at the class that the executable is linked with.
-/

namespace AcceptableArguments

open AcceptableArguments.Sat Imperative Argumentation Encodings

/-- The value of the enumeration that is printed in error messages. -/
def Semantics.code : Semantics → Nat
  | .CO => 0
  | .ST => 1
  | .PR => 2
  | .UNKNOWN_SEM => 3

/-- The extensions that a task asks about. -/
def Semantics.extensions {α : Type*} (att : α → α → Prop) : Semantics → Set (Set α)
  | .CO => {S | Complete att S}
  | .PR => {S | Preferred att S}
  | .ST => {S | Stable att S}
  | .UNKNOWN_SEM => ∅

/-- The extensions that the credulous algorithms go through: under PR these are the
complete ones. -/
def Semantics.enumerated {α : Type*} (att : α → α → Prop) : Semantics → Set (Set α)
  | .CO | .PR => {S | Complete att S}
  | .ST => {S | Stable att S}
  | .UNKNOWN_SEM => ∅

/-- Going through the complete extensions is enough under PR. -/
theorem Semantics.sUnion_enumerated {α : Type*} (att : α → α → Prop) (sem : Semantics) :
    ⋃₀ sem.enumerated att = ⋃₀ sem.extensions att := by
  cases sem with
  | PR => exact sUnion_complete
  | CO => rfl
  | ST => rfl
  | UNKNOWN_SEM => rfl

/-- `std::cerr << sem << ": Unsupported semantics\n"; exit(1);` -/
def unsupported {σ α : Type} (sem : Semantics) : Run Fault σ α :=
  Run.throw (.exit 1 (toString sem.code ++ ": Unsupported semantics\n"))

namespace Algorithms

/-- The encoding that the credulous algorithms choose. -/
def encodeCred {σ : Type} (perfEnc : Bool) (af : AF) (sem : Semantics) :
    Run Fault σ (List Clause) :=
  match sem with
  | .CO | .PR => bounds (Encodings.complete perfEnc af)
  | .ST => bounds (Encodings.stable af)
  | .UNKNOWN_SEM => unsupported sem

/-- The final loop of the skeptical algorithms: the names of the included arguments. -/
def includedNames (af : AF) (included : List Bool) : Option (List String) :=
  (List.range af.args).foldlM
    (fun result i => do
      if ← included[i]? then return result ++ [← af.intToArg[i]?] else return result)
    []

/-! ## Clauses over the acceptance variables -/

/-- The arguments that a vector of flags marks. -/
def toSet (n : Nat) (p : Nat → Bool) : Set (Fin n) := {i | p i = true}

@[simp] theorem mem_toSet {n : Nat} {p : Nat → Bool} {i : Fin n} :
    i ∈ toSet n p ↔ p i = true := Iff.rfl

/-- The arguments that a vector marks. -/
def flagged (n : Nat) (flags : List Bool) : Set (Fin n) := {i | flags[i.val]? = some true}

@[simp] theorem flagged_vec (n : Nat) (p : Nat → Bool) : flagged n (vec n p) = toSet n p := by
  ext i
  rw [flagged, Set.mem_ofPred_eq, vec_get p i.2, Option.some.injEq, mem_toSet]

/-- The acceptance literals of the marked arguments. -/
def accLits (n : Nat) (p : Nat → Bool) : List Int := picks n p (fun i => (accVar i : Int))

/-- The literals that exclude the subsets of the marked set. -/
def complement (n : Nat) (p : Nat → Bool) : Clause := accLits n (fun i => !p i)

section Literals

variable {n : Nat} {p : Nat → Bool} {m : Assignment}

/-- A clause of picked literals. -/
theorem clauseHolds_picks {f : Nat → Int} :
    clauseHolds m (picks n p f) = true ↔ ∃ i ∈ toSet n p, litHolds m (f i) = true := by
  rw [clauseHolds_iff]
  constructor
  · intro h
    obtain ⟨l, hl, hlm⟩ := h
    obtain ⟨i, hi, hp, rfl⟩ := mem_picks.mp hl
    exact ⟨⟨i, hi⟩, hp, hlm⟩
  · intro h
    obtain ⟨i, hp, him⟩ := h
    exact ⟨f i, mem_picks.mpr ⟨i, i.2, hp, rfl⟩, him⟩

theorem allHold_picks {f : Nat → Int} :
    AllHold m (picks n p f) ↔ ∀ i ∈ toSet n p, litHolds m (f i) = true := by
  constructor
  · intro h i hi
    exact h (f i) (mem_picks.mpr ⟨i, i.2, hi, rfl⟩)
  · intro h l hl
    obtain ⟨i, hi, hp, rfl⟩ := mem_picks.mp hl
    exact h ⟨i, hi⟩ hp

theorem litHolds_accVar (i : Fin n) :
    litHolds m (accVar i : Int) = true ↔ i ∈ labelled n accVar m := by
  rw [litHolds_pos m (accVar_ne_zero i), mem_labelled]

theorem litHolds_neg_accVar (i : Fin n) :
    litHolds m (-(accVar i : Int)) = true ↔ i ∉ labelled n accVar m := by
  rw [litHolds_neg m (accVar_ne_zero i), mem_labelled, Bool.not_eq_true', Bool.not_eq_true]

theorem clauseHolds_accLits :
    clauseHolds m (accLits n p) = true ↔ ∃ i ∈ toSet n p, i ∈ labelled n accVar m := by
  simp only [accLits, clauseHolds_picks, litHolds_accVar]

theorem allHold_accLits :
    AllHold m (accLits n p) ↔ toSet n p ⊆ labelled n accVar m := by
  simp only [accLits, allHold_picks, litHolds_accVar]
  rfl

/-- Where the rejected arguments are those that are not accepted, a rejection literal
speaks about acceptance. -/
theorem litHolds_rejVar (hm : labelled n (rejVar n) m = (labelled n accVar m)ᶜ) (i : Fin n) :
    litHolds m (rejVar n i : Int) = true ↔ i ∉ labelled n accVar m := by
  rw [litHolds_pos m (rejVar_ne_zero n i), ← Set.mem_compl_iff, ← hm]
  rfl

theorem litHolds_neg_rejVar (hm : labelled n (rejVar n) m = (labelled n accVar m)ᶜ)
    (i : Fin n) : litHolds m (-(rejVar n i : Int)) = true ↔ i ∈ labelled n accVar m := by
  rw [← not_iff_not, ← litHolds_rejVar hm i, litHolds_neg m (rejVar_ne_zero n i),
    litHolds_pos m (rejVar_ne_zero n i), Bool.not_eq_true', Bool.not_eq_false]

end Literals

theorem clauseHolds_complement {n : Nat} {p : Nat → Bool} {m : Assignment} :
    clauseHolds m (complement n p) = true ↔ ¬ labelled n accVar m ⊆ toSet n p := by
  rw [complement, clauseHolds_accLits, Set.not_subset]
  constructor
  · intro h
    obtain ⟨i, hp, him⟩ := h
    exact ⟨i, him, by simpa using hp⟩
  · intro h
    obtain ⟨i, him, hp⟩ := h
    exact ⟨i, by simpa using hp, him⟩

theorem toSet_and {n : Nat} (q p : Nat → Bool) :
    toSet n (fun i => q i && p i) = toSet n q ∩ toSet n p := by
  ext i
  simp [mem_toSet]

theorem toSet_and_subset_left {n : Nat} (q p : Nat → Bool) :
    toSet n (fun i => q i && p i) ⊆ toSet n q := by
  rw [toSet_and]
  exact Set.inter_subset_left

theorem toSet_and_subset_right {n : Nat} (q p : Nat → Bool) :
    toSet n (fun i => q i && p i) ⊆ toSet n p := by
  rw [toSet_and]
  exact Set.inter_subset_right

theorem toSet_or {n : Nat} (q p : Nat → Bool) :
    toSet n (fun i => q i || p i) = toSet n q ∪ toSet n p := by
  ext i
  simp

theorem toSet_none {n : Nat} : toSet n (fun _ => false) = ∅ := by simp [toSet]

theorem toSet_mark {n : Nat} (t : Nat → Bool) (a : Fin n) :
    toSet n (fun k => if k = a.val then true else t k) = insert a (toSet n t) := by
  ext i
  simp only [mem_toSet, Set.mem_insert_iff, Fin.ext_iff]
  by_cases hia : i.val = a.val <;> simp [hia]

/-- Intersecting the included arguments with one more set. -/
theorem toSet_meet {n : Nat} {q : Nat → Bool} {found : List (Set (Fin n))}
    (hq : toSet n q = {i | ∀ P ∈ found, i ∈ P}) (p : Nat → Bool) :
    toSet n (fun i => q i && p i) = {i | ∀ P ∈ found ++ [toSet n p], i ∈ P} := by
  rw [toSet_and, hq]
  ext i
  simp [or_imp, forall_and]

/-- If every argument outside `X` is missing from some set, `X` is the intersection as
soon as it lies in every set. -/
theorem eq_sInter_of_missing {n : Nat} {F : Set (Set (Fin n))} {X : Set (Fin n)}
    (hmissing : ∀ i, i ∉ X → ∃ S ∈ F, i ∉ S) (hall : ∀ S ∈ F, X ⊆ S) : X = ⋂₀ F := by
  ext i
  constructor
  · intro hi S hS
    exact hall S hS hi
  · intro hi
    by_contra hnot
    obtain ⟨S, hS, hiS⟩ := hmissing i hnot
    exact hiS (hi S hS)

/-- An argument that a further set excludes is missing from that set. -/
theorem missing_meet {n : Nat} {F : Set (Set (Fin n))} {q p : Nat → Bool}
    (hmissing : ∀ i, i ∉ toSet n q → ∃ S ∈ F, i ∉ S) (hp : toSet n p ∈ F) :
    ∀ i, i ∉ toSet n (fun i => q i && p i) → ∃ S ∈ F, i ∉ S := by
  intro i hi
  by_cases hiq : i ∈ toSet n q
  · refine ⟨toSet n p, hp, fun hip => hi ?_⟩
    rw [mem_toSet] at hiq hip ⊢
    rw [hiq, hip]
    rfl
  · exact hmissing i hiq

/-! ## The sets that a formula accepts -/

/-- The accepted sets of the models of a clause list. -/
def family (n : Nat) (cs : List Clause) : Set (Set (Fin n)) :=
  {S | ∃ m, Satisfies m cs ∧ labelled n accVar m = S}

theorem labelled_mem_family {n : Nat} {cs : List Clause} {m : Assignment}
    (h : Satisfies m cs) : labelled n accVar m ∈ family n cs := ⟨m, h, rfl⟩

/-- What the next solve looks for: a member of the family `G` in the set `A`. The
clauses make up `G` and the pending assumptions make up `A`. -/
structure Searches (n : Nat) (G A : Set (Set (Fin n))) (solver : SatSolver) : Prop where
  decisionVars_eq : solver.decisionVars = n
  family_eq : family n solver.clauses = G
  assumptions_iff : ∀ m, AllHold m solver.assumptions ↔ labelled n accVar m ∈ A

section Searches

variable {n : Nat} {G A : Set (Set (Fin n))} {solver : SatSolver}
  {w : List Event} {E : Halt Fault → List Event → Prop}

/-- A solver that has only received the clauses of an encoding. -/
theorem searches_encoded (nVars : Nat) (cs : List Clause) :
    Searches n (family n cs) Set.univ
      { SatSolver.new nVars n with clauses := (SatSolver.new nVars n).clauses ++ cs } where
  decisionVars_eq := rfl
  family_eq := rfl
  assumptions_iff := by simp [SatSolver.new]

/-- A clause over the acceptance variables restricts the family. -/
theorem Searches.addClause (h : Searches n G A solver) {c : Clause}
    {C : Set (Fin n) → Prop}
    (hc : ∀ m, Satisfies m solver.clauses →
      (clauseHolds m c = true ↔ C (labelled n accVar m))) :
    Searches n {S ∈ G | C S} A { solver with clauses := solver.clauses ++ [c] } where
  decisionVars_eq := h.decisionVars_eq
  assumptions_iff := h.assumptions_iff
  family_eq := by
    rw [← h.family_eq]
    ext S
    constructor
    · intro hx
      obtain ⟨m, hm, rfl⟩ := hx
      obtain ⟨hm, hmc⟩ := (satisfies_append m _ _).mp hm
      have hmc := ((satisfies_cons m c []).mp hmc).1
      exact ⟨⟨m, hm, rfl⟩, (hc m hm).mp hmc⟩
    · intro hx
      obtain ⟨⟨m, hm, rfl⟩, hC⟩ := hx
      refine ⟨m, (satisfies_append m _ _).mpr ⟨hm, ?_⟩, rfl⟩
      exact (satisfies_cons m c []).mpr ⟨(hc m hm).mpr hC, satisfies_nil m⟩

/-- Blocking the subsets of a marked set. -/
theorem Searches.block (h : Searches n G A solver) (p : Nat → Bool) :
    Searches n {S ∈ G | ¬ S ⊆ toSet n p} A
      { solver with clauses := solver.clauses ++ [complement n p] } :=
  h.addClause fun _ _ => clauseHolds_complement

/-- Assumed literals restrict the next answer. -/
theorem Searches.assumeAll (h : Searches n G Set.univ solver) {lits : List Int}
    (hlits : ∀ m, AllHold m lits ↔ labelled n accVar m ∈ A) :
    Searches n G A { solver with assumptions := solver.assumptions ++ lits } where
  decisionVars_eq := h.decisionVars_eq
  family_eq := h.family_eq
  assumptions_iff := by
    intro m
    have hold : AllHold m solver.assumptions := (h.assumptions_iff m).mpr trivial
    rw [← hlits m, allHold_append]
    exact and_iff_right hold

/-- A correct oracle finds a member of the family in the assumed set, or there is
none. Afterwards nothing is assumed and the clauses are the same. -/
theorem Searches.ensures_solve_clauses {O : Oracle} (hO : O.Correct)
    (h : Searches n G A solver) {Q : Verdict × SatSolver → List Event → Prop}
    (hunsat : (∀ S ∈ G, S ∉ A) → ∀ solver' w', Searches n G Set.univ solver' →
      solver'.clauses = solver.clauses → Q (.UNSAT_V, solver') w')
    (hsat : ∀ p, toSet n p ∈ G → toSet n p ∈ A → ∀ solver' w',
      Searches n G Set.univ solver' → solver'.clauses = solver.clauses →
      solver'.model = vec n p → Q (.SAT_V, solver') w') :
    Ensures (solver.solve O) w Q E := by
  apply SatSolver.ensures_solve hO
  · intro hno w'
    apply hunsat
    · rw [← h.family_eq]
      intro _ hx hA
      obtain ⟨m, hm, rfl⟩ := hx
      exact hno ⟨m, hm, (h.assumptions_iff m).mpr hA⟩
    · exact ⟨h.decisionVars_eq, h.family_eq, by simp⟩
    · rfl
  · intro m hx cost w'
    obtain ⟨hm, hassumed⟩ := hx
    apply hsat (fun i => m (i + 1))
    · rw [← h.family_eq]
      exact labelled_mem_family hm
    · exact (h.assumptions_iff m).mp hassumed
    · exact ⟨h.decisionVars_eq, h.family_eq, by simp⟩
    · rfl
    · simp only [h.decisionVars_eq]

theorem Searches.ensures_solve {O : Oracle} (hO : O.Correct) (h : Searches n G A solver)
    {Q : Verdict × SatSolver → List Event → Prop}
    (hunsat : (∀ S ∈ G, S ∉ A) → ∀ solver' w', Searches n G Set.univ solver' →
      Q (.UNSAT_V, solver') w')
    (hsat : ∀ p, toSet n p ∈ G → toSet n p ∈ A → ∀ solver' w',
      Searches n G Set.univ solver' → solver'.model = vec n p → Q (.SAT_V, solver') w') :
    Ensures (solver.solve O) w Q E :=
  h.ensures_solve_clauses hO (fun hno solver' w' hsearch _ => hunsat hno solver' w' hsearch)
    fun p hp hA solver' w' hsearch _ hmodel => hsat p hp hA solver' w' hsearch hmodel

theorem Searches.ensures_solveExtension {O : Oracle} (hO : O.Correct)
    (h : Searches n G A solver) {Q : Verdict × SatSolver → List Event → Prop}
    (hunsat : (∀ S ∈ G, S ∉ A) → ∀ solver' w', Searches n G Set.univ solver' →
      Q (.UNSAT_V, solver') w')
    (hsat : ∀ p, toSet n p ∈ G → toSet n p ∈ A → ∀ solver' w',
      Searches n G Set.univ solver' → solver'.model = vec n p →
      solver'.extension = (List.range n).filter p → Q (.SAT_V, solver') w') :
    Ensures (solver.solveExtension O) w Q E := by
  apply SatSolver.ensures_solveExtension_of_solve
  apply h.ensures_solve hO
  · exact hunsat
  · intro p hp hA solver' w' hsearch hmodel
    apply hsat p hp hA
    · exact ⟨hsearch.decisionVars_eq, hsearch.family_eq, hsearch.assumptions_iff⟩
    · exact hmodel
    · rw [hsearch.decisionVars_eq, hmodel, SatSolver.filter_getD_vec]

theorem Searches.ensures_solveAssuming_clauses {O : Oracle} (hO : O.Correct)
    (h : Searches n G Set.univ solver) {lits : List Int}
    (hlits : ∀ m, AllHold m lits ↔ labelled n accVar m ∈ A)
    {Q : Verdict × SatSolver → List Event → Prop}
    (hunsat : (∀ S ∈ G, S ∉ A) → ∀ solver' w', Searches n G Set.univ solver' →
      solver'.clauses = solver.clauses → Q (.UNSAT_V, solver') w')
    (hsat : ∀ p, toSet n p ∈ G → toSet n p ∈ A → ∀ solver' w',
      Searches n G Set.univ solver' → solver'.clauses = solver.clauses →
      solver'.model = vec n p → Q (.SAT_V, solver') w') :
    Ensures (solver.solveAssuming O lits) w Q E := by
  apply ensures_bind
  apply SatSolver.ensures_assumeAll
  exact (h.assumeAll hlits).ensures_solve_clauses hO hunsat hsat

theorem Searches.ensures_solveAssuming {O : Oracle} (hO : O.Correct)
    (h : Searches n G Set.univ solver) {lits : List Int}
    (hlits : ∀ m, AllHold m lits ↔ labelled n accVar m ∈ A)
    {Q : Verdict × SatSolver → List Event → Prop}
    (hunsat : (∀ S ∈ G, S ∉ A) → ∀ solver' w', Searches n G Set.univ solver' →
      Q (.UNSAT_V, solver') w')
    (hsat : ∀ p, toSet n p ∈ G → toSet n p ∈ A → ∀ solver' w',
      Searches n G Set.univ solver' → solver'.model = vec n p → Q (.SAT_V, solver') w') :
    Ensures (solver.solveAssuming O lits) w Q E :=
  h.ensures_solveAssuming_clauses hO hlits
    (fun hno solver' w' hsearch _ => hunsat hno solver' w' hsearch)
    fun p hp hA solver' w' hsearch _ hmodel => hsat p hp hA solver' w' hsearch hmodel

end Searches

/-! ## The encodings as families -/

/-- Both variants of the complete encoding accept only admissible sets and all
preferred ones. -/
theorem complete_spec {perfEnc : Bool} {af : AF} (h : AF.Ready perfEnc af) :
    ∃ cs, Encodings.complete perfEnc af = some cs ∧
      PreferredFamily af.att (family af.args cs) := by
  cases perfEnc with
  | true =>
      refine ⟨_, Encodings.complete_perf_eq h, ?_⟩
      have hfam : family af.args _ = {S | Complete af.att S} :=
        Set.ext (exists_completePerfClauses_iff h.attackers_lt)
      exact hfam ▸ preferredFamily_complete
  | false =>
      refine ⟨_, Encodings.complete_eq h, ?_⟩
      have hfam : family af.args _ = {S | SelfReinstating af.att S} :=
        Set.ext (exists_completeClauses_iff h.attackers_lt)
      exact hfam ▸ preferredFamily_selfReinstating

/-- The credulous algorithms search the complete encoding under CO and PR. -/
theorem encodeCred_complete {perfEnc : Bool} {af : AF} (h : AF.Ready perfEnc af)
    {sem : Semantics} (hsem : sem = .CO ∨ sem = .PR) :
    ∃ cs, (encodeCred perfEnc af sem : SolveM _) = pure cs ∧
      PreferredFamily af.att (family af.args cs) := by
  obtain ⟨cs, hcs, hfam⟩ := complete_spec h
  refine ⟨cs, ?_, hfam⟩
  rcases hsem with rfl | rfl <;> simp only [encodeCred, bounds, hcs, Run.ofOption_some]

/-- The stable encoding accepts the stable sets, and its models reject the rest. -/
theorem stable_spec {perfEnc : Bool} {af : AF} (h : AF.Ready perfEnc af) :
    ∃ cs, Encodings.stable af = some cs ∧
      family af.args cs = {S | Stable af.att S} ∧
      ∀ m, Satisfies m cs →
        labelled af.args (rejVar af.args) m = (labelled af.args accVar m)ᶜ := by
  refine ⟨_, Encodings.stable_eq h, Set.ext (exists_stableClauses_iff h.attackers_lt), ?_⟩
  intro m hm
  exact (stableLabelling_iff.mp ((satisfies_stableClauses h.attackers_lt m).mp hm)).2

/-- With PERF_ENC the accepted sets are the enumerated extensions. -/
theorem encodeCred_perf {af : AF} (h : AF.Ready true af) {sem : Semantics}
    (hsem : sem = .CO ∨ sem = .PR ∨ sem = .ST) :
    ∃ cs, (encodeCred true af sem : SolveM _) = pure cs ∧
      family af.args cs = sem.enumerated af.att := by
  have hcomplete : family af.args
      (completePerfClauses af.args af.attackers accVar (rejVar af.args)) =
      {S | Complete af.att S} := Set.ext (exists_completePerfClauses_iff h.attackers_lt)
  obtain ⟨cs, hcs, hstable, -⟩ := stable_spec h
  rcases hsem with rfl | rfl | rfl
  · exact ⟨_, by simp only [encodeCred, bounds, complete_perf_eq h, Run.ofOption_some], hcomplete⟩
  · exact ⟨_, by simp only [encodeCred, bounds, complete_perf_eq h, Run.ofOption_some], hcomplete⟩
  · exact ⟨cs, by simp only [encodeCred, bounds, hcs, Run.ofOption_some], hstable⟩

/-- In both builds the members of the accepted sets are those of the extensions. -/
theorem encodeCred_members {perfEnc : Bool} {af : AF} (h : AF.Ready perfEnc af)
    {sem : Semantics} (hsem : sem = .CO ∨ sem = .PR ∨ sem = .ST) :
    ∃ cs, (encodeCred perfEnc af sem : SolveM _) = pure cs ∧
      ⋃₀ family af.args cs = ⋃₀ sem.extensions af.att := by
  by_cases hst : sem = .ST
  · subst hst
    obtain ⟨cs, hcs, hstable, -⟩ := stable_spec h
    exact ⟨cs, by simp only [encodeCred, bounds, hcs, Run.ofOption_some],
      congrArg Set.sUnion hstable⟩
  · have hsem' : sem = .CO ∨ sem = .PR := by tauto
    obtain ⟨cs, hcs, hfam⟩ := encodeCred_complete h hsem'
    refine ⟨cs, hcs, ?_⟩
    have hunion : ⋃₀ family af.args cs = ⋃₀ {P | Preferred af.att P} := by
      ext i
      exact hfam.credulous_iff
    rcases hsem' with rfl | rfl
    · exact hunion.trans sUnion_complete.symm
    · exact hunion

/-! ## Reported names -/

open Classical in
/-- The names of the members of `S` in index order. -/
noncomputable def namesOf (af : AF) (S : Set (Fin af.args)) : List String :=
  ((List.finRange af.args).filter (· ∈ S)).map (fun i : Fin af.args => af.name i)

theorem mem_namesOf {af : AF} {S : Set (Fin af.args)} {s : String} :
    s ∈ namesOf af S ↔ ∃ i ∈ S, af.name i = s := by
  simp [namesOf]

/-- A loop over the indices that keeps those with `p`. -/
theorem picks_name {af : AF} {S : Set (Fin af.args)} {p : Nat → Bool}
    (h : ∀ i : Fin af.args, p i = true ↔ i ∈ S) :
    picks af.args p af.name = namesOf af S := by
  rw [picks, namesOf, ← List.map_coe_finRange_eq_range, List.filter_map, List.map_map]
  congr 1
  apply List.filter_congr
  intro i _
  simp [← h i]

theorem namesOf_univ {perfEnc : Bool} {af : AF} (h : AF.Ready perfEnc af) :
    namesOf af Set.univ = af.intToArg := by
  rw [← picks_name (p := fun _ => true) (by simp), picks, List.filter_true]
  exact (eq_vec_of_length h.intToArg_length "").symm

/-- The intersection of no extensions is everything. -/
theorem namesOf_sInter_of_none {perfEnc : Bool} {af : AF} (h : AF.Ready perfEnc af)
    {P : Set (Fin af.args) → Prop} (hnone : ¬ ∃ S, P S) :
    namesOf af (⋂₀ {S | P S}) = af.intToArg := by
  have hempty : {S | P S} = ∅ := Set.eq_empty_iff_forall_notMem.mpr fun S hS => hnone ⟨S, hS⟩
  rw [hempty, Set.sInter_empty, namesOf_univ h]

theorem name_injective {perfEnc : Bool} {af : AF} (h : AF.Ready perfEnc af)
    (hnames : af.intToArg.Nodup) {i j : Nat} (hi : i < af.args) (hj : j < af.args)
    (hij : af.name i = af.name j) : i = j := by
  have hi' := h.intToArg_get hi
  have hj' := h.intToArg_get hj
  rw [hij, ← hj'] at hi'
  exact (List.getElem?_inj (by rw [h.intToArg_length]; exact hi) hnames).mp hi'

/-- The list reports each member of `S` once, in some order. -/
def Reports (af : AF) (S : Set (Fin af.args)) (result : List String) : Prop :=
  ∃ order : List (Fin af.args), order.Nodup ∧ (∀ i, i ∈ order ↔ i ∈ S) ∧
    result = order.map (fun i : Fin af.args => af.name i)

theorem Reports.mem_iff {af : AF} {S : Set (Fin af.args)} {result : List String}
    (h : Reports af S result) (s : String) : s ∈ result ↔ s ∈ namesOf af S := by
  obtain ⟨order, -, hmem, rfl⟩ := h
  simp [mem_namesOf, hmem]

theorem Reports.nodup {perfEnc : Bool} {af : AF} (h : AF.Ready perfEnc af)
    (hnames : af.intToArg.Nodup) {S : Set (Fin af.args)} {result : List String}
    (hr : Reports af S result) : result.Nodup := by
  obtain ⟨order, hnodup, -, rfl⟩ := hr
  apply hnodup.map_on
  intro i _ j _ hij
  exact Fin.ext (name_injective h hnames i.2 j.2 hij)

theorem reports_namesOf (af : AF) (S : Set (Fin af.args)) : Reports af S (namesOf af S) := by
  classical
  exact ⟨_, (List.nodup_finRange _).filter _, by simp, rfl⟩

/-- The names of an intersection are distinct, and of no sets it has all names. -/
theorem namesOf_sInter {perfEnc : Bool} {af : AF} (h : AF.Ready perfEnc af)
    {names : List String} (heq : af.intToArg = names) (hnames : names.Nodup)
    (P : Set (Fin af.args) → Prop) :
    (namesOf af (⋂₀ {S | P S})).Nodup ∧
      ((¬ ∃ S, P S) → namesOf af (⋂₀ {S | P S}) = names) := by
  subst heq
  exact ⟨(reports_namesOf af _).nodup h hnames, namesOf_sInter_of_none h⟩

theorem reports_nil (af : AF) : Reports af ∅ [] := ⟨[], List.nodup_nil, by simp, rfl⟩

theorem Reports.append_name {af : AF} {S : Set (Fin af.args)} {result : List String}
    (hr : Reports af S result) {i : Fin af.args} (hi : i ∉ S) :
    Reports af (insert i S) (result ++ [af.name i]) := by
  obtain ⟨order, hnodup, hmem, rfl⟩ := hr
  refine ⟨order ++ [i], ?_, ?_, by simp⟩
  · rw [← List.concat_eq_append]
    exact hnodup.concat fun hmem' => hi ((hmem i).mp hmem')
  · intro j
    simp [hmem j, or_comm]

/-- A scan that appends the arguments of a further set that were not reported yet. -/
theorem Reports.append_new {af : AF} {S : Set (Fin af.args)} {result : List String}
    (hr : Reports af S result) {p new : Nat → Bool}
    (hnew : ∀ i : Fin af.args, new i = true ↔ p i = true ∧ i ∉ S) :
    Reports af (S ∪ toSet af.args p) (result ++ picks af.args new af.name) := by
  classical
  obtain ⟨order, hnodup, hmem, rfl⟩ := hr
  refine ⟨order ++ (List.finRange af.args).filter (· ∈ toSet af.args new), ?_, ?_, ?_⟩
  · refine hnodup.append ((List.nodup_finRange _).filter _) ?_
    intro i hi hin
    exact ((hnew i).mp (by simpa using hin)).2 ((hmem i).mp hi)
  · intro i
    simp only [List.mem_append, List.mem_filter, List.mem_finRange, true_and, decide_eq_true_eq,
      hmem i, mem_toSet, hnew i, Set.mem_union]
    tauto
  · rw [picks_name (fun i => mem_toSet.symm), namesOf, List.map_append]

theorem includedNames_vec {perfEnc : Bool} {af : AF} (h : AF.Ready perfEnc af)
    (p : Nat → Bool) :
    includedNames af (vec af.args p) = some (picks af.args p af.name) := by
  refine foldlM_range (fun k => picks k p af.name) ?_
  intro k hk
  rw [vec_get p hk, picks_succ]
  cases hp : p k <;> simp [h.intToArg_get hk]

/-- The final loop lists the intersection in index order. -/
theorem includedNames_sInter {perfEnc : Bool} {af : AF} (h : AF.Ready perfEnc af)
    {F : Set (Set (Fin af.args))} {q : Nat → Bool} (hq : toSet af.args q = ⋂₀ F) :
    includedNames af (vec af.args q) = some (namesOf af (⋂₀ F)) := by
  rw [includedNames_vec h q, picks_name]
  intro i
  rw [← hq]
  rfl

end Algorithms

end AcceptableArguments
