import AcceptableArguments.EncodingModels
import Mathlib.Data.Set.Function

/-!
# Extensions as models of the emitted clauses

The correspondences are stated for every framework that the operations build,
over the clauses that the encodings emit and the variable vectors stored in the
framework. Names may repeat, and so may attacks.
-/

namespace AcceptableArguments

open AcceptableArguments.Sat Argumentation

namespace AF

/-- The arguments whose entry in a variable vector is a true literal. -/
def trueIn (n : Nat) (vars : List Int) (m : Assignment) : Set (Fin n) :=
  {i | (vars[i.val]?).any (litHolds m) = true}

instance (n : Nat) (vars : List Int) (m : Assignment) (i : Fin n) :
    Decidable (i ∈ trueIn n vars m) :=
  inferInstanceAs (Decidable ((vars[i.val]?).any (litHolds m) = true))

/-- The accepted arguments of an assignment. -/
abbrev accepted (af : AF) (m : Assignment) : Set (Fin af.args) :=
  trueIn af.args af.acceptedVar m

/-- The rejected arguments of an assignment. -/
abbrev rejected (af : AF) (m : Assignment) : Set (Fin af.args) :=
  trueIn af.args af.rejectedVar m

theorem Ready.accepted_eq {perfEnc : Bool} {af : AF} (h : Ready perfEnc af)
    (m : Assignment) : af.accepted m = Encodings.labelled af.args accVar m := by
  ext i
  simp [trueIn, h.acceptedVar_get i.2, litHolds_pos m (Encodings.accVar_ne_zero i)]

theorem Ready.rejected_eq {perfEnc : Bool} {af : AF} (h : Ready perfEnc af)
    (m : Assignment) :
    af.rejected m = Encodings.labelled af.args (rejVar af.args) m := by
  ext i
  simp [trueIn, h.rejectedVar_get i.2, litHolds_pos m (Encodings.rejVar_ne_zero _ i)]

end AF

/-- An assignment of the variables `1 .. k`, with all other variables false. -/
def extend {k : Nat} (f : Fin k → Bool) : Assignment := fun v =>
  if h : v - 1 < k ∧ v ≠ 0 then f ⟨v - 1, h.1⟩ else false

theorem extend_succ {k : Nat} (f : Fin k → Bool) {v : Nat} (hv : v < k) :
    extend f (v + 1) = f ⟨v, hv⟩ := by
  simp [extend, hv]

/-- When the rejected part of every model is a function of the accepted part,
assignments of the two blocks of variables that are models correspond to the
accepted sets. -/
theorem bijOn_labelled {n : Nat} {cs : List Clause} {P : Set (Fin n) → Prop}
    {g : Set (Fin n) → Set (Fin n)}
    (h : ∀ m, Satisfies m cs ↔ P (Encodings.labelled n accVar m) ∧
      Encodings.labelled n (rejVar n) m = g (Encodings.labelled n accVar m)) :
    Set.BijOn (fun f : Fin (2 * n) → Bool => Encodings.labelled n accVar (extend f))
      {f | Satisfies (extend f) cs} {S | P S} := by
  refine ⟨?_, ?_, ?_⟩
  · intro f hf
    exact ((h _).mp hf).1
  · intro f hf f' hf' heq
    have hacc : Encodings.labelled n accVar (extend f) =
        Encodings.labelled n accVar (extend f') := heq
    have hrej : Encodings.labelled n (rejVar n) (extend f) =
        Encodings.labelled n (rejVar n) (extend f') := by
      rw [((h _).mp hf).2, ((h _).mp hf').2, hacc]
    funext v
    by_cases hv : v.val < n
    · have hi := Set.ext_iff.mp hacc ⟨v, hv⟩
      simp only [Encodings.mem_labelled, accVar, extend_succ _ v.2] at hi
      exact Bool.eq_iff_iff.mpr hi
    · obtain ⟨w, hw⟩ : ∃ w, v.val = n + w := ⟨v.val - n, by omega⟩
      have hi := Set.ext_iff.mp hrej ⟨w, by omega⟩
      have hwv : n + w < 2 * n := hw ▸ v.2
      have hvw : v = ⟨n + w, hwv⟩ := Fin.ext hw
      simp only [Encodings.mem_labelled, rejVar, extend_succ _ hwv] at hi
      rw [hvw]
      exact Bool.eq_iff_iff.mpr hi
  · intro S hS
    let f : Fin (2 * n) → Bool := fun v => Encodings.ofLabelling n S (g S) (v + 1)
    have hacc : Encodings.labelled n accVar (extend f) = S := by
      ext i
      have hi : i.val < 2 * n := by omega
      rw [Encodings.mem_labelled, accVar, extend_succ f hi]
      exact Encodings.ofLabelling_accVar S (g S) i
    have hrej : Encodings.labelled n (rejVar n) (extend f) = g S := by
      ext i
      have hi : n + i.val < 2 * n := by omega
      rw [Encodings.mem_labelled, rejVar, extend_succ f hi]
      exact Encodings.ofLabelling_rejVar S (g S) i
    refine ⟨f, (h _).mpr ⟨?_, ?_⟩, hacc⟩
    · rw [hacc]
      exact hS
    · rw [hacc, hrej]

/-! ## Complete extensions, PERF_ENC build -/

/-- The models of the PERF_ENC clauses are the complete extensions together with
the arguments they attack, one model for each extension. -/
theorem complete_perf_models (names : List String) (atts : List (String × String)) :
    ∃ af cs, AF.build true names atts = some af ∧
      Encodings.complete true af = some cs ∧
      (∀ m, Satisfies m cs ↔ Complete af.att (af.accepted m) ∧
        ∀ i, i ∈ af.rejected m ↔ i ∈ attackedBy af.att (af.accepted m)) ∧
      Set.BijOn (fun f : Fin (2 * af.args) → Bool => af.accepted (extend f))
        {f | Satisfies (extend f) cs} {S | Complete af.att S} := by
  obtain ⟨af, haf, hready, -, -⟩ := AF.build_spec true names atts
  have hmodels : ∀ m, Satisfies m (Encodings.completePerfClauses af.args af.attackers
      accVar (rejVar af.args)) ↔
      Complete af.att (Encodings.labelled af.args accVar m) ∧
      Encodings.labelled af.args (rejVar af.args) m =
        attackedBy af.att (Encodings.labelled af.args accVar m) := by
    intro m
    rw [Encodings.satisfies_completePerfClauses hready.attackers_lt, completeLabelling_iff]
  refine ⟨af, _, haf, Encodings.complete_perf_eq hready, ?_, ?_⟩
  · intro m
    rw [hmodels, hready.accepted_eq, hready.rejected_eq, Set.ext_iff]
  · simp only [hready.accepted_eq]
    exact bijOn_labelled hmodels

/-! ## Complete extensions without PERF_ENC -/

/-- The accepted sets of the three-valued clauses. -/
theorem exists_complete_model_iff {af : AF} (h : AF.Ready false af)
    (S : Set (Fin af.args)) :
    (∃ m, Satisfies m (Encodings.completeClauses af.args af.attackers accVar
        (rejVar af.args) (undVar af.args)) ∧ af.accepted m = S) ↔
      SelfReinstating af.att S := by
  simp only [h.accepted_eq]
  exact Encodings.exists_completeClauses_iff h.attackers_lt S

/-- Without PERF_ENC the accepted sets are the complete extensions exactly on the
frameworks in which every admissible set that defends an argument outside it also
leaves out an argument all of whose attackers attack that set. -/
theorem complete_undecided_models_iff (names : List String)
    (atts : List (String × String)) :
    ∃ af cs, AF.build false names atts = some af ∧
      Encodings.complete false af = some cs ∧
      ((∀ S, (∃ m, Satisfies m cs ∧ af.accepted m = S) ↔ Complete af.att S) ↔
        ∀ S, Admissible af.att S → (∃ x, x ∉ S ∧ Defends af.att S x) →
          ∃ x, x ∉ S ∧ ∀ y, af.att y x → y ∈ attackersOf af.att S) := by
  obtain ⟨af, haf, hready, -, -⟩ := AF.build_spec false names atts
  refine ⟨af, _, haf, Encodings.complete_eq hready, ?_⟩
  rw [← selfReinstating_iff_complete_iff]
  simp only [exists_complete_model_iff hready]

/-- The chain `a → b → c` in the build without PERF_ENC. -/
def chain : AF :=
  (AF.build false ["a", "b", "c"] [("a", "b"), ("b", "c")]).getD AF.empty

/-- On the chain the clauses accept `a` alone with `b` and `c` undecided, although
`a` defends `c`. -/
theorem chain_model_not_complete :
    AF.build false ["a", "b", "c"] [("a", "b"), ("b", "c")] = some chain ∧
      ∃ cs, Encodings.complete false chain = some cs ∧
        ∃ m, Satisfies m cs ∧ (∀ i, i ∈ chain.accepted m ↔ i.val = 0) ∧
          ¬ Complete chain.att (chain.accepted m) := by
  have hacc : ∀ i : Fin chain.args,
      i ∈ chain.accepted (fun v => decide (v = 1 ∨ v = 8 ∨ v = 9)) ↔ i.val = 0 := by
    decide
  refine ⟨rfl, _, rfl, fun v => decide (v = 1 ∨ v = 8 ∨ v = 9), by decide, hacc, ?_⟩
  intro h
  have hdef : Defends chain.att (chain.accepted (fun v => decide (v = 1 ∨ v = 8 ∨ v = 9)))
      ⟨2, by decide⟩ := by
    intro y hy
    have hy1 : AF.attOf chain.args chain.attackers ⟨0, by decide⟩ y := by
      revert y
      decide
    exact ⟨⟨0, by decide⟩, (hacc _).mpr rfl, hy1⟩
  have hc := (hacc _).mp (h.closed _ hdef)
  exact absurd hc (by decide)

/-! ## Stable extensions -/

/-- The models of the stable clauses are the stable extensions with everything
else rejected, one model for each extension. -/
theorem stable_models (perfEnc : Bool) (names : List String)
    (atts : List (String × String)) :
    ∃ af cs, AF.build perfEnc names atts = some af ∧
      Encodings.stable af = some cs ∧
      (∀ m, Satisfies m cs ↔ Stable af.att (af.accepted m) ∧
        ∀ i, i ∈ af.rejected m ↔ i ∉ af.accepted m) ∧
      Set.BijOn (fun f : Fin (2 * af.args) → Bool => af.accepted (extend f))
        {f | Satisfies (extend f) cs} {S | Stable af.att S} ∧
      ((¬ ∃ m, Satisfies m cs) ↔ ¬ ∃ S, Stable af.att S) := by
  obtain ⟨af, haf, hready, -, -⟩ := AF.build_spec perfEnc names atts
  have hmodels : ∀ m, Satisfies m (Encodings.stableClauses af.args af.attackers
      accVar (rejVar af.args)) ↔
      Stable af.att (Encodings.labelled af.args accVar m) ∧
      Encodings.labelled af.args (rejVar af.args) m =
        (Encodings.labelled af.args accVar m)ᶜ := by
    intro m
    rw [Encodings.satisfies_stableClauses hready.attackers_lt, stableLabelling_iff]
  have haccepted := Encodings.exists_stableClauses_iff hready.attackers_lt
  refine ⟨af, _, haf, Encodings.stable_eq hready, ?_, ?_, ?_⟩
  · intro m
    rw [hmodels, hready.accepted_eq, hready.rejected_eq, Set.ext_iff]
    rfl
  · simp only [hready.accepted_eq]
    exact bijOn_labelled hmodels
  · apply not_congr
    constructor
    · rintro ⟨m, hm⟩
      exact ⟨_, (haccepted _).mp ⟨m, hm, rfl⟩⟩
    · rintro ⟨S, hS⟩
      obtain ⟨m, hm, -⟩ := (haccepted S).mpr hS
      exact ⟨m, hm⟩

end AcceptableArguments
