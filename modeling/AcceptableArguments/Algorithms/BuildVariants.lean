import AcceptableArguments.Algorithms.IAQ
import AcceptableArguments.Algorithms.EEE
import AcceptableArguments.Algorithms.SEE

/-!
# The two build variants answer alike

The clauses of the two builds do not have the same accepted sets. Every task below
depends only on the preferred extensions, and these are in both families.
-/

namespace AcceptableArguments.Algorithms

open AcceptableArguments.Sat Imperative Argumentation Encodings

/-- Both runs return, and they report the same names. -/
def SameAnswer (x y : SolveM (List String)) : Prop :=
  ∀ log log', ∃ r v r' v', x log = (.ok r, v) ∧ y log' = (.ok r', v') ∧
    ∀ s, s ∈ r ↔ s ∈ r'

theorem sameAnswer_of_ensures {x y : SolveM (List String)} {names names' : List String}
    (hx : ∀ w, Ensures x w (fun r _ => ∀ s, s ∈ r ↔ s ∈ names) (fun _ _ => False))
    (hy : ∀ w, Ensures y w (fun r _ => ∀ s, s ∈ r ↔ s ∈ names') (fun _ _ => False))
    (hnames : names = names') : SameAnswer x y := by
  intro log log'
  obtain ⟨r, v, hrun, hr⟩ := (hx log).exists_ok
  obtain ⟨r', v', hrun', hr'⟩ := (hy log').exists_ok
  refine ⟨r, v, r', v', hrun, hrun', fun s => ?_⟩
  rw [hr s, hr' s, hnames]

/-- A notion that depends on the attack relation only does not see the build. -/
theorem namesOf_agree {names : List String} {atts : List (String × String)} {af af' : AF}
    {perfEnc perfEnc' : Bool} (haf : AF.build perfEnc names atts = some af)
    (haf' : AF.build perfEnc' names atts = some af')
    (P : ∀ {n : Nat}, (Fin n → Fin n → Prop) → Set (Fin n)) :
    namesOf af (P af.att) = namesOf af' (P af'.att) := by
  obtain ⟨hargs, hnames, hatt⟩ := AF.build_agree haf haf'
  unfold namesOf AF.name AF.att
  rw [hargs, hnames, hatt]

section Credulous

variable {perfEnc : Bool} {af : AF} (h : AF.Ready perfEnc af) {O : Oracle} (hO : O.Correct)
  {sem : Semantics} (hsem : sem = .CO ∨ sem = .PR)

include h hO hsem

omit hO in
/-- The members of the accepted sets are the credulous arguments in both builds. -/
theorem exists_encodeCred : ∃ cs, (encodeCred perfEnc af sem : SolveM _) = pure cs ∧
    ⋃₀ family af.args cs = {i | Credulous af.att i} := by
  obtain ⟨cs, hcs, hfam⟩ := encodeCred_complete h hsem
  refine ⟨cs, hcs, ?_⟩
  ext i
  exact hfam.credulous_iff

theorem iaqCred_credulous (w : List Event) :
    Ensures (iaqCred O perfEnc af sem) w
      (fun r _ => ∀ s, s ∈ r ↔ s ∈ namesOf af {i | Credulous af.att i})
      (fun _ _ => False) := by
  obtain ⟨cs, hcs, hunion⟩ := exists_encodeCred h hsem
  apply (iaqCred_ensures h hO hcs).post
  intro r w' heq s
  subst heq
  rw [hunion]

theorem eeeCred_credulous {fuel : Nat} (hfuel : 2 ^ af.args < fuel) (w : List Event) :
    Ensures (eeeCred O perfEnc af sem fuel) w
      (fun r _ => ∀ s, s ∈ r ↔ s ∈ namesOf af {i | Credulous af.att i})
      (fun _ _ => False) := by
  obtain ⟨cs, hcs, hunion⟩ := exists_encodeCred h hsem
  apply (eeeCred_ensures h hO hcs hfuel).post
  intro r w' hr s
  rw [hr.mem_iff s, hunion]

theorem seeCred_credulous {fuel : Nat} (hfuel : 2 ^ af.args < fuel) (w : List Event) :
    Ensures (seeCred O perfEnc af sem fuel) w
      (fun r _ => ∀ s, s ∈ r ↔ s ∈ namesOf af {i | Credulous af.att i})
      (fun _ _ => False) := by
  obtain ⟨cs, hcs, hunion⟩ := exists_encodeCred h hsem
  apply (seeCred_ensures h hO hcs hfuel).post
  intro r w' hr s
  rw [hr.mem_iff s, hunion]

end Credulous

/-- On every task decided through the complete encoding the builds with and without
PERF_ENC report the same arguments, whatever models their solvers return. -/
theorem build_variants_agree (names : List String) (atts : List (String × String))
    (O O' : Oracle) (hO : O.Correct) (hO' : O'.Correct) :
    ∃ af af', AF.build true names atts = some af ∧ AF.build false names atts = some af' ∧
      ∀ fuel > 2 ^ names.length, ∀ fuel' > 2 ^ names.length,
        (∀ sem, sem = .CO ∨ sem = .PR →
          SameAnswer (iaqCred O true af sem) (iaqCred O' false af' sem) ∧
          SameAnswer (eeeCred O true af sem fuel) (eeeCred O' false af' sem fuel') ∧
          SameAnswer (seeCred O true af sem fuel) (seeCred O' false af' sem fuel')) ∧
        SameAnswer (iaqSkep O true af .PR fuel) (iaqSkep O' false af' .PR fuel') ∧
        SameAnswer (eeeSkep O true af .PR fuel) (eeeSkep O' false af' .PR fuel') := by
  obtain ⟨af, haf, h, -, hargs⟩ := AF.build_spec true names atts
  obtain ⟨af', haf', h', -, hargs'⟩ := AF.build_spec false names atts
  have hcred := namesOf_agree haf haf' (fun att => {i | Credulous att i})
  have hskep := namesOf_agree haf haf' (fun att => {i | Skeptical att i})
  refine ⟨af, af', haf, haf', ?_⟩
  rw [← hargs]
  intro fuel hfuel fuel' hfuel'
  rw [hargs, ← hargs'] at hfuel'
  refine ⟨fun sem hsem => ⟨?_, ?_, ?_⟩, ?_, ?_⟩
  · exact sameAnswer_of_ensures (iaqCred_credulous h hO hsem)
      (iaqCred_credulous h' hO' hsem) hcred
  · exact sameAnswer_of_ensures (eeeCred_credulous h hO hsem hfuel)
      (eeeCred_credulous h' hO' hsem hfuel') hcred
  · exact sameAnswer_of_ensures (seeCred_credulous h hO hsem hfuel)
      (seeCred_credulous h' hO' hsem hfuel') hcred
  · refine sameAnswer_of_ensures (fun w => (iaqSkep_PR_ensures h hO hfuel).post ?_)
      (fun w => (iaqSkep_PR_ensures h' hO' hfuel').post ?_) hskep <;>
    · intro r w' heq s
      subst heq
      rfl
  · refine sameAnswer_of_ensures (fun w => (eeeSkep_PR_ensures h hO hfuel).post ?_)
      (fun w => (eeeSkep_PR_ensures h' hO' hfuel').post ?_) hskep <;>
    · intro r w' heq s
      subst heq
      rfl

theorem build_variants_agree_chain : ∃ af af',
    AF.build true ["a", "b", "c"] [("a", "b"), ("b", "c")] = some af ∧
      AF.build false ["a", "b", "c"] [("a", "b"), ("b", "c")] = some af' ∧
      ∀ fuel > 2 ^ 3, ∀ fuel' > 2 ^ 3,
        (∀ sem, sem = .CO ∨ sem = .PR →
          SameAnswer (iaqCred Oracle.exhaustive true af sem)
            (iaqCred Oracle.exhaustive false af' sem) ∧
          SameAnswer (eeeCred Oracle.exhaustive true af sem fuel)
            (eeeCred Oracle.exhaustive false af' sem fuel') ∧
          SameAnswer (seeCred Oracle.exhaustive true af sem fuel)
            (seeCred Oracle.exhaustive false af' sem fuel')) ∧
        SameAnswer (iaqSkep Oracle.exhaustive true af .PR fuel)
          (iaqSkep Oracle.exhaustive false af' .PR fuel') ∧
        SameAnswer (eeeSkep Oracle.exhaustive true af .PR fuel)
          (eeeSkep Oracle.exhaustive false af' .PR fuel') :=
  build_variants_agree ["a", "b", "c"] [("a", "b"), ("b", "c")] Oracle.exhaustive
    Oracle.exhaustive Oracle.exhaustive_correct Oracle.exhaustive_correct

end AcceptableArguments.Algorithms
