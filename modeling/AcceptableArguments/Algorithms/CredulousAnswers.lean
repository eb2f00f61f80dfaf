import AcceptableArguments.Algorithms.EEE
import AcceptableArguments.Algorithms.SEE

/-!
# Credulous acceptance by enumeration

`eee_cred` and `see_cred` stay in one loop until the solver has no further model. The
sets they go through are the complete extensions under CO and PR and the stable ones
under ST; what they report are the arguments of at least one extension.
-/

namespace AcceptableArguments.Algorithms

open AcceptableArguments.Sat Imperative Argumentation Encodings

/-- `eee_cred` returns the result of its rounds. -/
theorem eeeCred_of_rounds {O : Oracle} {perfEnc : Bool} {af : AF} {sem : Semantics}
    {fuel : Nat} {log log' : List Event} {rounds : List (EeeCredState SatSolver)}
    {result : List String}
    (hrun : eeeCredRounds O perfEnc af sem fuel log = (.ok (rounds, result), log')) :
    eeeCred O perfEnc af sem fuel log = (.ok result, log') := by
  unfold eeeCred
  rw [Run.bind_apply, hrun]
  rfl

/-- With PERF_ENC `eee_cred` terminates, the models of its rounds are the complete
(CO, PR) or stable (ST) extensions without repetition, and it reports each argument of
some extension once. -/
theorem eee_cred_enumerates (names : List String) (atts : List (String × String))
    (hnames : names.Nodup) (sem : Semantics) (hsem : sem = .CO ∨ sem = .PR ∨ sem = .ST)
    (O : Oracle) (hO : O.Correct) :
    ∃ af, AF.build true names atts = some af ∧
      ∀ fuel > 2 ^ af.args, ∀ log, ∃ rounds result log',
        eeeCredRounds O true af sem fuel log = (.ok (rounds, result), log') ∧
        eeeCred O true af sem fuel log = (.ok result, log') ∧
        (rounds.map fun st => flagged af.args st.solver.model).Nodup ∧
        (∀ S, S ∈ (rounds.map fun st => flagged af.args st.solver.model) ↔
          S ∈ sem.enumerated af.att) ∧
        result.Nodup ∧
        ∀ s, s ∈ result ↔ s ∈ namesOf af (⋃₀ sem.extensions af.att) := by
  obtain ⟨af, haf, hready, hnames', -⟩ := AF.build_spec true names atts
  obtain ⟨cs, hcs, hfam⟩ := encodeCred_perf hready hsem
  refine ⟨af, haf, ?_⟩
  intro fuel hfuel log
  obtain ⟨⟨rounds, result⟩, log', hrun, hnodup, hvisited, hrep⟩ :=
    (eeeCredRounds_ensures (w := log) hready hO hcs hfuel).exists_ok
  rw [hfam, Semantics.sUnion_enumerated] at hrep
  rw [hfam] at hvisited
  exact ⟨rounds, result, log', hrun, eeeCred_of_rounds hrun, hnodup, hvisited,
    hrep.nodup hready (hnames' ▸ hnames), hrep.mem_iff⟩

theorem eee_cred_enumerates_mutual :
    ∃ af, AF.build true ["a", "b"] [("a", "b"), ("b", "a")] = some af ∧
      ∀ fuel > 2 ^ af.args, ∀ log, ∃ rounds result log',
        eeeCredRounds Oracle.exhaustive true af .PR fuel log = (.ok (rounds, result), log') ∧
        eeeCred Oracle.exhaustive true af .PR fuel log = (.ok result, log') ∧
        (rounds.map fun st => flagged af.args st.solver.model).Nodup ∧
        (∀ S, S ∈ (rounds.map fun st => flagged af.args st.solver.model) ↔
          S ∈ Semantics.PR.enumerated af.att) ∧
        result.Nodup ∧
        ∀ s, s ∈ result ↔ s ∈ namesOf af (⋃₀ Semantics.PR.extensions af.att) :=
  eee_cred_enumerates ["a", "b"] [("a", "b"), ("b", "a")] (by decide) .PR
    (Or.inr (Or.inl rfl)) Oracle.exhaustive Oracle.exhaustive_correct

/-- `see_cred` terminates in both builds and reports each argument of some extension
once. -/
theorem see_cred_reports_members (perfEnc : Bool) (names : List String)
    (atts : List (String × String)) (hnames : names.Nodup) (sem : Semantics)
    (hsem : sem = .CO ∨ sem = .PR ∨ sem = .ST) (O : Oracle) (hO : O.Correct) :
    ∃ af, AF.build perfEnc names atts = some af ∧
      ∀ fuel > 2 ^ af.args, ∀ log, ∃ result log',
        seeCred O perfEnc af sem fuel log = (.ok result, log') ∧ result.Nodup ∧
        ∀ s, s ∈ result ↔ s ∈ namesOf af (⋃₀ sem.extensions af.att) := by
  obtain ⟨af, haf, hready, hnames', -⟩ := AF.build_spec perfEnc names atts
  obtain ⟨cs, hcs, hunion⟩ := encodeCred_members hready hsem
  refine ⟨af, haf, ?_⟩
  intro fuel hfuel log
  obtain ⟨result, log', hrun, hrep⟩ :=
    (seeCred_ensures (w := log) hready hO hcs hfuel).exists_ok
  rw [hunion] at hrep
  exact ⟨result, log', hrun, hrep.nodup hready (hnames' ▸ hnames), hrep.mem_iff⟩

theorem see_cred_reports_members_mutual :
    ∃ af, AF.build false ["a", "b"] [("a", "b"), ("b", "a")] = some af ∧
      ∀ fuel > 2 ^ af.args, ∀ log, ∃ result log',
        seeCred Oracle.exhaustive false af .ST fuel log = (.ok result, log') ∧ result.Nodup ∧
        ∀ s, s ∈ result ↔ s ∈ namesOf af (⋃₀ Semantics.ST.extensions af.att) :=
  see_cred_reports_members false ["a", "b"] [("a", "b"), ("b", "a")] (by decide) .ST
    (Or.inr (Or.inr rfl)) Oracle.exhaustive Oracle.exhaustive_correct

end AcceptableArguments.Algorithms
