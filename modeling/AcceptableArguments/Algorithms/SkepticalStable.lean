import AcceptableArguments.Algorithms.IAQ
import AcceptableArguments.Algorithms.EEE
import AcceptableArguments.Algorithms.SEE

/-!
# Skeptical acceptance under stable semantics

The three SAT-based algorithms intersect the stable extensions. `eee_skep` blocks all
supersets of what it has seen, which removes nothing else because stable extensions
are pairwise incomparable. `see_skep` asks for an extension that rejects an argument
still included; the clause is over the rejection variables, and in every model of the
stable encoding these are the complement of the acceptance variables. `iaq_skep` asks
one query per argument.
-/

namespace AcceptableArguments.Algorithms

open AcceptableArguments.Sat Imperative Argumentation Encodings

variable {perfEnc : Bool} {af : AF} {O : Oracle} {w : List Event}

/-! ## EEE -/

/-- The negated acceptance literals of a set exclude its supersets. -/
theorem clauseHolds_neg_accLits {n : Nat} {p : Nat → Bool} {m : Assignment} :
    clauseHolds m (picks n p (fun i => -(accVar i : Int))) = true ↔
      ¬ toSet n p ⊆ labelled n accVar m := by
  simp only [clauseHolds_picks, litHolds_neg_accVar, Set.not_subset]

/-- The loop head of the ST branch of `eee_skep` after the sets in `seen`. -/
structure EeeStableInv (af : AF) (F : Set (Set (Fin af.args)))
    (seen : List (Set (Fin af.args))) (st : SatSolver × List Bool) : Prop where
  searches : Searches af.args {S ∈ F | ∀ P ∈ seen, ¬ P ⊆ S} Set.univ st.1
  nodup : seen.Nodup
  subset : ∀ P ∈ seen, P ∈ F
  included_eq : ∃ q, st.2 = vec af.args q ∧ toSet af.args q = {i | ∀ P ∈ seen, i ∈ P}

/-- When nothing is left, every set of an antichain has been seen. -/
theorem mem_seen_of_blocked {n : Nat} {F : Set (Set (Fin n))}
    (hF : ∀ P ∈ F, ∀ S ∈ F, P ⊆ S → P = S) {seen : List (Set (Fin n))}
    (hseen : ∀ P ∈ seen, P ∈ F) (hno : ∀ S, S ∉ {S ∈ F | ∀ P ∈ seen, ¬ P ⊆ S})
    {S : Set (Fin n)} (hS : S ∈ F) : S ∈ seen := by
  by_contra hnot
  refine hno S ⟨hS, ?_⟩
  intro P hP hPS
  exact hnot (hF P (hseen P hP) S hS hPS ▸ hP)

theorem eeeSkepRoundST_ensures (h : AF.Ready perfEnc af) (hO : O.Correct)
    {F : Set (Set (Fin af.args))} (hF : ∀ P ∈ F, ∀ S ∈ F, P ⊆ S → P = S)
    {seen : List (Set (Fin af.args))} {st : SatSolver × List Bool}
    (hinv : EeeStableInv af F seen st) :
    Ensures (eeeSkepRoundST O af st) w (fun x _ => match x with
      | .inl st' => EeeStableInv af F (seen ++ [flagged af.args st'.1.model]) st' ∧
          flagged af.args st'.1.model ∈ {S ∈ F | ∀ P ∈ seen, ¬ P ⊆ S}
      | .inr included => seen.Nodup ∧ (∀ S, S ∈ seen ↔ S ∈ F) ∧
          ∃ q, included = vec af.args q ∧ toSet af.args q = ⋂₀ F)
      (fun _ _ => False) := by
  obtain ⟨solver, included⟩ := st
  obtain ⟨hsearch, hnodup, hsub, q, hq, hmeet⟩ := hinv
  simp only at hsearch hq
  unfold eeeSkepRoundST
  apply ensures_bind
  apply hsearch.ensures_solve hO
  · intro hno solver' w' _
    apply ensures_pure
    have hall : ∀ S, S ∈ seen ↔ S ∈ F := by
      intro S
      exact ⟨hsub S, mem_seen_of_blocked hF hsub (fun S hS => hno S hS trivial)⟩
    refine ⟨hnodup, hall, q, hq, ?_⟩
    rw [hmeet]
    ext i
    simp only [hall, Set.mem_ofPred_eq, Set.mem_sInter]
  · intro p hp _ solver' w' hsearch' hmodel'
    simp only [reduceCtorEq, if_false, Oracle.model_eq, hmodel', hq, eeeSkepStepST_scan h, bounds,
      Run.ofOption_some, Run.pure_bind]
    apply ensures_bind
    apply SatSolver.ensures_addClause
    apply ensures_pure
    have hflag : flagged af.args solver'.model = toSet af.args p := by
      rw [hmodel', flagged_vec]
    change EeeStableInv af F (seen ++ [flagged af.args solver'.model]) _ ∧
      flagged af.args solver'.model ∈ _
    rw [hflag]
    refine ⟨⟨?_, ?_, ?_, _, rfl, toSet_meet hmeet p⟩, hp⟩
    · have hsearch'' := hsearch'.addClause (C := fun S => ¬ toSet af.args p ⊆ S)
        (fun m _ => clauseHolds_neg_accLits)
      have hG : {S | S ∈ {S | S ∈ F ∧ ∀ P ∈ seen, ¬ P ⊆ S} ∧ ¬ toSet af.args p ⊆ S} =
          {S | S ∈ F ∧ ∀ P ∈ seen ++ [toSet af.args p], ¬ P ⊆ S} := by
        ext S
        simp [and_assoc, or_imp, forall_and]
      rwa [hG] at hsearch''
    · rw [← List.concat_eq_append]
      exact hnodup.concat fun hmem => hp.2 _ hmem (Set.Subset.refl _)
    · exact List.forall_mem_append.mpr ⟨hsub, List.forall_mem_singleton.mpr hp.1⟩

/-- The loop terminates, its rounds find each stable extension once, and the included
arguments are their intersection. -/
theorem eeeSkepRoundsST_ensures (h : AF.Ready perfEnc af) (hO : O.Correct) {fuel : Nat}
    (hfuel : 2 ^ af.args < fuel) :
    Ensures (eeeSkepRoundsST O af fuel) w
      (fun x _ => (x.1.map fun st => flagged af.args st.1.model).Nodup ∧
        (∀ S, S ∈ (x.1.map fun st => flagged af.args st.1.model) ↔ Stable af.att S) ∧
        ∃ q, x.2 = vec af.args q ∧ toSet af.args q = ⋂₀ {S | Stable af.att S})
      (fun _ _ => False) := by
  obtain ⟨cs, hcs, hfam, -⟩ := stable_spec h
  unfold eeeSkepRoundsST
  simp only [hcs, bounds, Run.ofOption_some, Run.pure_bind]
  apply ensures_bind
  apply SatSolver.ensures_addClauses
  have hstart : EeeStableInv af {S | Stable af.att S} []
      ({ SatSolver.new af.count af.args with
        clauses := (SatSolver.new af.count af.args).clauses ++ cs },
        List.replicate af.args true) := by
    refine ⟨?_, List.nodup_nil, by simp, fun _ => true, replicate_eq_vec _ _, ?_⟩
    · simpa [hfam] using searches_encoded (n := af.args) af.count cs
    · simp [toSet]
  refine ensures_whileTrace (fun k rounds st _ =>
    EeeStableInv af {S | Stable af.att S}
      (rounds.map fun st => flagged af.args st.1.model) st ∧
    {S ∈ {S | Stable af.att S} |
      ∀ P ∈ rounds.map fun st => flagged af.args st.1.model, ¬ P ⊆ S}.ncard = k)
    (fun rounds included _ => (rounds.map fun st => flagged af.args st.1.model).Nodup ∧
      (∀ S, S ∈ (rounds.map fun st => flagged af.args st.1.model) ↔ Stable af.att S) ∧
      ∃ q, included = vec af.args q ∧ toSet af.args q = ⋂₀ {S | Stable af.att S}) ?_
    ⟨hstart, rfl⟩ (Nat.lt_of_le_of_lt (ncard_le_two_pow _) hfuel)
  intro k rounds st w' hInv
  obtain ⟨hinv, rfl⟩ := hInv
  apply (eeeSkepRoundST_ensures h hO (fun P hP S hS => hP.eq_of_subset hS) hinv).post
  intro y w'' hx
  rcases y with st' | included
  · obtain ⟨hinv', hmem⟩ := hx
    refine ⟨_, ?_, by simpa using hinv', rfl⟩
    have hlt := ncard_sep_lt hmem (C := fun S => ¬ flagged af.args st'.1.model ⊆ S)
      (fun hn => hn (Set.Subset.refl _))
    convert hlt using 2
    ext S
    simp [and_assoc, or_imp, forall_and]
  · exact hx

/-- `eee_skep` returns the included arguments of its rounds. -/
theorem eeeSkep_of_roundsST {fuel : Nat} {log log' : List Event}
    {rounds : List (SatSolver × List Bool)} {included : List Bool} {result : List String}
    (hrun : eeeSkepRoundsST O af fuel log = (.ok (rounds, included), log'))
    (hresult : includedNames af included = some result) :
    eeeSkep O perfEnc af .ST fuel log = (.ok result, log') := by
  change (eeeSkepRoundsST O af fuel >>= fun x => bounds (includedNames af x.2)) log = _
  rw [Run.bind_apply, hrun]
  simp only [bounds, hresult, Run.ofOption_some]
  rfl

/-- `eee_skep` under ST terminates, the models of its rounds are the stable extensions
without repetition, and it reports their intersection in index order: all arguments
when there is none. -/
theorem eee_skep_stable (perfEnc : Bool) (names : List String)
    (atts : List (String × String)) (hnames : names.Nodup) (O : Oracle) (hO : O.Correct) :
    ∃ af, AF.build perfEnc names atts = some af ∧
      ∀ fuel > 2 ^ af.args, ∀ log, ∃ rounds included result log',
        eeeSkepRoundsST O af fuel log = (.ok (rounds, included), log') ∧
        eeeSkep O perfEnc af .ST fuel log = (.ok result, log') ∧
        (rounds.map fun st => flagged af.args st.1.model).Nodup ∧
        (∀ S, S ∈ (rounds.map fun st => flagged af.args st.1.model) ↔ Stable af.att S) ∧
        result = namesOf af (⋂₀ {S | Stable af.att S}) ∧ result.Nodup ∧
        ((¬ ∃ S, Stable af.att S) → result = names) := by
  obtain ⟨af, haf, hready, hnames', -⟩ := AF.build_spec perfEnc names atts
  refine ⟨af, haf, ?_⟩
  intro fuel hfuel log
  obtain ⟨⟨rounds, included⟩, log', hrun, hnodup, hvisited, q, rfl, hq⟩ :=
    (eeeSkepRoundsST_ensures (w := log) hready hO hfuel).exists_ok
  have hresult := includedNames_sInter hready hq
  exact ⟨rounds, _, _, log', hrun, eeeSkep_of_roundsST hrun hresult, hnodup, hvisited, rfl,
    namesOf_sInter hready hnames' hnames _⟩

theorem eee_skep_stable_mutual :
    ∃ af, AF.build true ["a", "b"] [("a", "b"), ("b", "a")] = some af ∧
      ∀ fuel > 2 ^ af.args, ∀ log, ∃ rounds included result log',
        eeeSkepRoundsST Oracle.exhaustive af fuel log = (.ok (rounds, included), log') ∧
        eeeSkep Oracle.exhaustive true af .ST fuel log = (.ok result, log') ∧
        (rounds.map fun st => flagged af.args st.1.model).Nodup ∧
        (∀ S, S ∈ (rounds.map fun st => flagged af.args st.1.model) ↔ Stable af.att S) ∧
        result = namesOf af (⋂₀ {S | Stable af.att S}) ∧ result.Nodup ∧
        ((¬ ∃ S, Stable af.att S) → result = ["a", "b"]) :=
  eee_skep_stable true ["a", "b"] [("a", "b"), ("b", "a")] (by decide) Oracle.exhaustive
    Oracle.exhaustive_correct

/-! ## SEE -/

/-- The rejection literals of a set ask for an extension that does not contain it. -/
theorem clauseHolds_rejLits {n : Nat} {p : Nat → Bool} {m : Assignment}
    (hm : labelled n (rejVar n) m = (labelled n accVar m)ᶜ) :
    clauseHolds m (picks n p (fun i => (rejVar n i : Int))) = true ↔
      ¬ toSet n p ⊆ labelled n accVar m := by
  simp only [clauseHolds_picks, litHolds_rejVar hm, Set.not_subset]

/-- The loop head of `see_skep`: sets that are no longer searched contain all included
arguments, and every other argument is missing from some set. -/
structure SeeSkepInv (af : AF) (F G : Set (Set (Fin af.args))) (q : Nat → Bool)
    (st : SatSolver × List Bool) : Prop where
  searches : Searches af.args G Set.univ st.1
  dual : ∀ m, Satisfies m st.1.clauses →
    labelled af.args (rejVar af.args) m = (labelled af.args accVar m)ᶜ
  subset : G ⊆ F
  included_eq : st.2 = vec af.args q
  contains : ∀ S ∈ F, S ∉ G → toSet af.args q ⊆ S
  missing : ∀ i : Fin af.args, i ∉ toSet af.args q → ∃ S ∈ F, i ∉ S

theorem seeSkepRound_ensures (h : AF.Ready perfEnc af) (hO : O.Correct)
    {F G : Set (Set (Fin af.args))} {q : Nat → Bool} {st : SatSolver × List Bool}
    (hinv : SeeSkepInv af F G q st) :
    Ensures (seeSkepRound O af st) w (fun x _ => match x with
      | .inl st' => ∃ G' q', SeeSkepInv af F G' q' st' ∧ G'.ncard < G.ncard ∧
          (∀ S ∈ G', ¬ toSet af.args q' ⊆ S) ∧ ∃ S ∈ G, toSet af.args q' = toSet af.args q ∩ S
      | .inr included => ∃ q, included = vec af.args q ∧ toSet af.args q = ⋂₀ F)
      (fun _ _ => False) := by
  obtain ⟨solver, included⟩ := st
  obtain ⟨hsearch, hdual, hGF, hq, hcontains, hmissing⟩ := hinv
  simp only at hsearch hdual hq
  unfold seeSkepRound
  apply ensures_bind
  apply hsearch.ensures_solve_clauses hO
  · intro hno solver' w' _ _
    apply ensures_pure
    refine ⟨q, hq, eq_sInter_of_missing hmissing ?_⟩
    intro S hS
    exact hcontains S hS (fun hSG => hno S hSG trivial)
  · intro p hp _ solver' w' hsearch' hclauses hmodel'
    simp only [reduceCtorEq, if_false, Oracle.model_eq, hmodel', hq, seeSkepStep_scan h, bounds,
      Run.ofOption_some, Run.pure_bind]
    apply ensures_bind
    apply SatSolver.ensures_addClause
    apply ensures_pure
    have hdual' : ∀ m, Satisfies m solver'.clauses →
        labelled af.args (rejVar af.args) m = (labelled af.args accVar m)ᶜ := by
      rw [hclauses]
      exact hdual
    set q' : Nat → Bool := fun i => q i && p i
    have hsearch'' := hsearch'.addClause (C := fun S => ¬ toSet af.args q' ⊆ S)
      (fun m hm => clauseHolds_rejLits (p := q') (hdual' m hm))
    refine ⟨_, q', ⟨hsearch'', ?_, (Set.sep_subset _ _).trans hGF, rfl, ?_,
      missing_meet hmissing (hGF hp)⟩, ?_, fun S hS => hS.2, toSet af.args p, hp, ?_⟩
    · intro m hm
      exact hdual' m ((satisfies_append m _ _).mp hm).1
    · intro S hS hSG
      by_cases hmem : S ∈ G
      · by_contra hnot
        exact hSG ⟨hmem, hnot⟩
      · exact (toSet_and_subset_left q p).trans (hcontains S hS hmem)
    · apply ncard_sep_lt hp
      intro hnot
      exact hnot (toSet_and_subset_right q p)
    · ext i
      simp [q']

/-- Before the first round. -/
theorem seeSkepInv_start {cs : List Clause} (hfam : family af.args cs = {S | Stable af.att S})
    (hdual : ∀ m, Satisfies m cs →
      labelled af.args (rejVar af.args) m = (labelled af.args accVar m)ᶜ) :
    SeeSkepInv af {S | Stable af.att S} {S | Stable af.att S} (fun _ => true)
      ({ SatSolver.new af.count af.args with
        clauses := (SatSolver.new af.count af.args).clauses ++ cs },
        List.replicate af.args true) where
  searches := by simpa [hfam] using searches_encoded (n := af.args) af.count cs
  dual := by simpa [SatSolver.new] using hdual
  subset := Set.Subset.rfl
  included_eq := replicate_eq_vec _ _
  contains S hS hSG := (hSG hS).elim
  missing := by simp

theorem seeSkep_ensures (h : AF.Ready perfEnc af) (hO : O.Correct) {fuel : Nat}
    (hfuel : 2 ^ af.args < fuel) :
    Ensures (seeSkep O af .ST fuel) w
      (fun r _ => r = namesOf af (⋂₀ {S | Stable af.att S})) (fun _ _ => False) := by
  obtain ⟨cs, hcs, hfam, hdual⟩ := stable_spec h
  unfold seeSkep
  simp only [ne_eq, not_true_eq_false, if_false, hcs, bounds, Run.ofOption_some, Run.pure_bind]
  apply ensures_bind
  apply SatSolver.ensures_addClauses
  apply ensures_bind
  refine (ensures_whileTrue (fun k st _ => ∃ G q,
      SeeSkepInv af {S | Stable af.att S} G q st ∧ G.ncard = k)
    (fun included _ => ∃ q, included = vec af.args q ∧
      toSet af.args q = ⋂₀ {S | Stable af.att S}) ?_ ⟨_, _, seeSkepInv_start hfam hdual, rfl⟩
    (Nat.lt_of_le_of_lt (ncard_le_two_pow _) hfuel)).post ?_
  · intro k st w' hInv
    obtain ⟨G, q, hinv, rfl⟩ := hInv
    apply (seeSkepRound_ensures h hO hinv).post
    intro x w'' hx
    rcases x with st' | included
    · obtain ⟨G', q', hinv', hlt, -⟩ := hx
      exact ⟨_, hlt, G', q', hinv', rfl⟩
    · exact hx
  · intro included w' hy
    obtain ⟨q, rfl, hq⟩ := hy
    exact ensures_bounds (includedNames_sInter h hq) rfl

/-- `see_skep` under ST terminates and reports the intersection of the stable extensions
in index order: all arguments when there is none. -/
theorem see_skep_stable (perfEnc : Bool) (names : List String)
    (atts : List (String × String)) (hnames : names.Nodup) (O : Oracle) (hO : O.Correct) :
    ∃ af, AF.build perfEnc names atts = some af ∧
      ∀ fuel > 2 ^ af.args, ∀ log, ∃ result log',
        seeSkep O af .ST fuel log = (.ok result, log') ∧
        result = namesOf af (⋂₀ {S | Stable af.att S}) ∧ result.Nodup ∧
        ((¬ ∃ S, Stable af.att S) → result = names) := by
  obtain ⟨af, haf, hready, hnames', -⟩ := AF.build_spec perfEnc names atts
  refine ⟨af, haf, ?_⟩
  intro fuel hfuel log
  obtain ⟨result, log', hrun, rfl⟩ :=
    (seeSkep_ensures (w := log) hready hO hfuel).exists_ok
  exact ⟨_, log', hrun, rfl, namesOf_sInter hready hnames' hnames _⟩

theorem see_skep_stable_self_attack :
    ∃ af, AF.build true ["a", "b"] [("a", "a")] = some af ∧
      ∀ fuel > 2 ^ af.args, ∀ log, ∃ result log',
        seeSkep Oracle.exhaustive af .ST fuel log = (.ok result, log') ∧
        result = namesOf af (⋂₀ {S | Stable af.att S}) ∧ result.Nodup ∧
        ((¬ ∃ S, Stable af.att S) → result = ["a", "b"]) :=
  see_skep_stable true ["a", "b"] [("a", "a")] (by decide) Oracle.exhaustive
    Oracle.exhaustive_correct

/-! ## IAQ -/

/-- The query for argument `k` on the shared solver, whatever was assumed before. -/
theorem iaqSkepRoundST_ensures (h : AF.Ready perfEnc af) (hO : O.Correct)
    {F : Set (Set (Fin af.args))} {k : Nat} (hk : k < af.args)
    {st : List String × SatSolver} (hsolver : Searches af.args F Set.univ st.2)
    (hresult : st.1 = picks k (flagsOf (⋂₀ F)) af.name) :
    Ensures (iaqSkepRoundST O af st k) w
      (fun st' _ => Searches af.args F Set.univ st'.2 ∧
        st'.1 = picks (k + 1) (flagsOf (⋂₀ F)) af.name) (fun _ _ => False) := by
  simp only [iaqSkepRoundST, h.acceptedVar_get hk, h.intToArg_get hk, bounds,
    Run.ofOption_some, Run.pure_bind]
  apply ensures_bind
  apply SatSolver.ensures_assume
  apply ensures_bind
  apply (hsolver.assumeAll (allHold_neg_accVar ⟨k, hk⟩)).ensures_solve hO
  · intro hno solver' w' hsolver'
    apply ensures_pure
    refine ⟨hsolver', ?_⟩
    have hflag : flagsOf (⋂₀ F) k = true := by
      rw [flagsOf_eq_true hk]
      intro S hS
      by_contra hnot
      exact hno S hS hnot
    simp [picks_succ, hflag, hresult]
  · intro p hp hkp solver' w' hsolver' _
    apply ensures_pure
    refine ⟨hsolver', ?_⟩
    have hflag : ¬ flagsOf (⋂₀ F) k = true := by
      rw [flagsOf_eq_true hk]
      intro hall
      exact hkp (hall _ hp)
    simp [picks_succ, hflag, hresult]

theorem iaqSkep_ST_ensures (h : AF.Ready perfEnc af) (hO : O.Correct) (fuel : Nat) :
    Ensures (iaqSkep O perfEnc af .ST fuel) w
      (fun r _ => r = namesOf af (⋂₀ {S | Stable af.att S})) (fun _ _ => False) := by
  obtain ⟨cs, hcs, hfam, -⟩ := stable_spec h
  simp only [iaqSkep, hcs, bounds, Run.ofOption_some, Run.pure_bind]
  apply ensures_bind
  apply SatSolver.ensures_addClauses
  apply ensures_bind
  refine (ensures_foldlM_range (fun k st _ =>
    Searches af.args (family af.args cs) Set.univ st.2 ∧
      st.1 = picks k (flagsOf (⋂₀ family af.args cs)) af.name) af.args ?_ ?_).post ?_
  · intro k hk st w' hst
    exact iaqSkepRoundST_ensures h hO hk hst.1 hst.2
  · exact ⟨searches_encoded af.count cs, rfl⟩
  · intro x w' hx
    obtain ⟨result, solver⟩ := x
    obtain ⟨-, hresult⟩ := hx
    apply ensures_pure
    rw [← hfam]
    exact hresult.trans (picks_name flagsOf_coe)

/-- `iaq_cred` reports the arguments of at least one extension and `iaq_skep` under ST
those of every stable extension, both in index order. -/
theorem iaq_answers (perfEnc : Bool) (names : List String) (atts : List (String × String))
    (hnames : names.Nodup) (O : Oracle) (hO : O.Correct) :
    ∃ af, AF.build perfEnc names atts = some af ∧ ∀ log,
      (∀ sem, sem = .CO ∨ sem = .PR ∨ sem = .ST → ∃ result log',
        iaqCred O perfEnc af sem log = (.ok result, log') ∧
        result = namesOf af (⋃₀ sem.extensions af.att) ∧ result.Nodup) ∧
      ∀ fuel, ∃ result log',
        iaqSkep O perfEnc af .ST fuel log = (.ok result, log') ∧
        result = namesOf af (⋂₀ {S | Stable af.att S}) ∧ result.Nodup ∧
        ((¬ ∃ S, Stable af.att S) → result = names) := by
  obtain ⟨af, haf, hready, hnames', -⟩ := AF.build_spec perfEnc names atts
  refine ⟨af, haf, fun log => ⟨?_, ?_⟩⟩
  · intro sem hsem
    obtain ⟨cs, hcs, hunion⟩ := encodeCred_members hready hsem
    obtain ⟨result, log', hrun, hresult⟩ :=
      (iaqCred_ensures (w := log) hready hO hcs).exists_ok
    rw [hunion] at hresult
    subst hresult
    exact ⟨_, log', hrun, rfl, (reports_namesOf af _).nodup hready (hnames' ▸ hnames)⟩
  · intro fuel
    obtain ⟨result, log', hrun, rfl⟩ :=
      (iaqSkep_ST_ensures (w := log) hready hO fuel).exists_ok
    exact ⟨_, log', hrun, rfl, namesOf_sInter hready hnames' hnames _⟩

theorem iaq_answers_mutual :
    ∃ af, AF.build true ["a", "b"] [("a", "b"), ("b", "a")] = some af ∧ ∀ log,
      (∀ sem, sem = .CO ∨ sem = .PR ∨ sem = .ST → ∃ result log',
        iaqCred Oracle.exhaustive true af sem log = (.ok result, log') ∧
        result = namesOf af (⋃₀ sem.extensions af.att) ∧ result.Nodup) ∧
      ∀ fuel, ∃ result log',
        iaqSkep Oracle.exhaustive true af .ST fuel log = (.ok result, log') ∧
        result = namesOf af (⋂₀ {S | Stable af.att S}) ∧ result.Nodup ∧
        ((¬ ∃ S, Stable af.att S) → result = ["a", "b"]) :=
  iaq_answers true ["a", "b"] [("a", "b"), ("b", "a")] (by decide) Oracle.exhaustive
    Oracle.exhaustive_correct

end AcceptableArguments.Algorithms
