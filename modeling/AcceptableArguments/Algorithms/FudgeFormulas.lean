import AcceptableArguments.Algorithms.FudgeQueries
import Mathlib.Data.Set.Prod

/-!
# The formulas of FUDGE

The admissible encoding forces all unattacked arguments in. Every admissible set can
absorb them, so the queries still decide statements about arbitrary admissible sets.
-/

namespace AcceptableArguments.Algorithms

open AcceptableArguments.Sat Imperative Argumentation Encodings

/-- The arguments accepted by a model, read off the variables `offset + accepted_var[i]`. -/
def acceptedSet (af : AF) (offset : Nat) (m : Assignment) : Set (Fin af.args) :=
  {i | ∃ v, af.acceptedVar[i.val]? = some v ∧ litHolds m (offset + v) = true}

/-- The assumptions `offset + accepted_var[x]` for the listed arguments. -/
def assumptionsFor (af : AF) (offset : Nat) (xs : List (Fin af.args)) : Option (List Int) :=
  xs.mapM fun x => do return offset + (← af.acceptedVar[x.val]?)

/-- The accepted sets of the models of a formula under assumptions. -/
def acceptedSets (af : AF) (offset : Nat) (clauses : List Clause) (assumptions : List Int) :
    Set (Set (Fin af.args)) :=
  {S | ∃ m, Satisfies m clauses ∧ AllHold m assumptions ∧ acceptedSet af offset m = S}

/-- The admissible sets with all listed and all unattacked arguments. -/
def admissibleAround (af : AF) (xs : List (Fin af.args)) : Set (Set (Fin af.args)) :=
  {S | Admissible af.att S ∧ (∀ x ∈ xs, x ∈ S) ∧ ∀ i, (∀ j, ¬ af.att j i) → i ∈ S}

/-- `E'` is admissible, attacks an admissible set around `T` and `a`, and is not a subset
of `S`. -/
def AdmissibleAttack (af : AF) (T : Set (Fin af.args)) (a : Fin af.args)
    (S E' : Set (Fin af.args)) : Prop :=
  Admissible af.att E' ∧
    (∃ S'', Admissible af.att S'' ∧ Attacks af.att E' S'' ∧ T ⊆ S'' ∧ a ∈ S'') ∧ ¬ E' ⊆ S

section Formulas

variable {perfEnc : Bool} {af : AF} (h : AF.Ready perfEnc af)

include h

theorem acceptedSet_zero (m : Assignment) :
    acceptedSet af 0 m = labelled af.args accVar m := by
  ext i
  simp [acceptedSet, h.acceptedVar_get i.2, litHolds_accVar]

theorem acceptedSet_shifted (m : Assignment) :
    acceptedSet af (2 * af.args) m = labelled af.args (shiftedAccVar af.args) m := by
  ext i
  have hlit := litHolds_pos m (shiftedAccVar_ne_zero af.args i)
  simp only [acceptedSet, h.acceptedVar_get i.2, Option.some.injEq, exists_eq_left',
    Set.mem_ofPred_eq, mem_labelled]
  rw [← hlit]
  simp [shiftedAccVar]

/-- The assumptions ask for the listed arguments. -/
theorem exists_assumptionsFor (offset : Nat) (xs : List (Fin af.args)) :
    ∃ lits, assumptionsFor af offset xs = some lits ∧
      ∀ m, AllHold m lits ↔ ∀ x ∈ xs, x ∈ acceptedSet af offset m := by
  refine ⟨_, mapM_eq_map (g := fun x : Fin af.args => (offset : Int) + accVar x) ?_, ?_⟩
  · intro x _
    simp [h.acceptedVar_get x.2]
  · intro m
    simp [AllHold, acceptedSet, h.acceptedVar_get]

omit h in
theorem mem_admissibleAround {xs : List (Fin af.args)} {S : Set (Fin af.args)} :
    S ∈ admissibleAround af xs ↔ S ∈ admissibleSets af.att ∧ ∀ x ∈ xs, x ∈ S := by
  constructor
  · intro hx
    exact ⟨⟨hx.1, hx.2.2⟩, hx.2.1⟩
  · intro hx
    exact ⟨hx.1.1, hx.2, hx.1.2⟩

omit h in
/-- Whatever lies in an admissible set lies in one that contains the unattacked
arguments too. -/
theorem exists_admissibleAround_iff {xs : List (Fin af.args)} :
    (∃ S, S ∈ admissibleAround af xs) ↔ ∃ S, Admissible af.att S ∧ ∀ x ∈ xs, x ∈ S := by
  constructor
  · intro hx
    obtain ⟨S, hS⟩ := hx
    exact ⟨S, hS.1, hS.2.1⟩
  · intro hx
    obtain ⟨S, hS, hxs⟩ := hx
    obtain ⟨P, hsub, hP⟩ := hS.exists_preferred
    exact ⟨P, mem_admissibleAround.mpr ⟨hP.mem_admissibleSets, fun x hx => hsub (hxs x hx)⟩⟩

omit h in
/-- Satisfiability under assumptions, given the accepted sets. -/
theorem satisfiable_iff_of_acceptedSets {offset : Nat} {clauses : List Clause}
    {lits : List Int} {xs : List (Fin af.args)}
    (heq : acceptedSets af offset clauses lits = admissibleAround af xs) :
    (∃ m, Satisfies m clauses ∧ AllHold m lits) ↔
      ∃ S, Admissible af.att S ∧ ∀ x ∈ xs, x ∈ S := by
  rw [← exists_admissibleAround_iff, ← heq]
  constructor
  · intro hx
    obtain ⟨m, hm, hlits⟩ := hx
    exact ⟨_, m, hm, hlits, rfl⟩
  · intro hx
    obtain ⟨S, m, hm, hlits, -⟩ := hx
    exact ⟨m, hm, hlits⟩

omit h in
/-- A copy of the encoding whose models accept the members of `admissibleSets`. -/
theorem acceptedSets_eq {offset : Nat} {clauses : List Clause} {xs : List (Fin af.args)}
    {lits : List Int} (hlits : ∀ m, AllHold m lits ↔ ∀ x ∈ xs, x ∈ acceptedSet af offset m)
    (hclauses : ∀ S, (∃ m, Satisfies m clauses ∧ acceptedSet af offset m = S) ↔
      S ∈ admissibleSets af.att) :
    acceptedSets af offset clauses lits = admissibleAround af xs := by
  ext S
  rw [mem_admissibleAround, ← hclauses]
  constructor
  · intro hx
    obtain ⟨m, hm, hall, rfl⟩ := hx
    exact ⟨⟨m, hm, rfl⟩, (hlits m).mp hall⟩
  · intro hx
    obtain ⟨⟨m, hm, rfl⟩, hxs⟩ := hx
    exact ⟨m, hm, (hlits m).mpr hxs, rfl⟩

theorem exists_unshifted_iff (S : Set (Fin af.args)) :
    (∃ m, Satisfies m (admissibleClauses af.args af.attackers accVar (rejVar af.args)) ∧
      acceptedSet af 0 m = S) ↔ S ∈ admissibleSets af.att := by
  simp only [acceptedSet_zero h]
  exact exists_admissibleClauses_iff h.attackers_lt S

theorem exists_shifted_iff (S : Set (Fin af.args)) :
    (∃ m, Satisfies m (admissibleClauses af.args af.attackers (shiftedAccVar af.args)
        (shiftedRejVar af.args)) ∧ acceptedSet af (2 * af.args) m = S) ↔
      S ∈ admissibleSets af.att := by
  simp only [acceptedSet_shifted h]
  constructor
  · intro hx
    obtain ⟨m, hm, rfl⟩ := hx
    exact labelled_shifted_mem h.attackers_lt hm
  · intro hS
    obtain ⟨m, ⟨-, hm⟩, -, hacc⟩ :=
      (exists_copies_model_iff h.attackers_lt S S).mpr ⟨hS, hS⟩
    exact ⟨m, hm, hacc⟩

/-- Both copies at once accept all pairs. -/
theorem acceptedSets_copies {xs ys : List (Fin af.args)} {lits shiftedLits : List Int}
    (hlits : ∀ m, AllHold m lits ↔ ∀ x ∈ xs, x ∈ acceptedSet af 0 m)
    (hshifted : ∀ m, AllHold m shiftedLits ↔ ∀ y ∈ ys, y ∈ acceptedSet af (2 * af.args) m) :
    {p | ∃ m, Satisfies m
          (admissibleClauses af.args af.attackers accVar (rejVar af.args) ++
            admissibleClauses af.args af.attackers (shiftedAccVar af.args)
              (shiftedRejVar af.args)) ∧
        AllHold m (lits ++ shiftedLits) ∧
        (acceptedSet af 0 m, acceptedSet af (2 * af.args) m) = p} =
      admissibleAround af xs ×ˢ admissibleAround af ys := by
  ext p
  obtain ⟨E, S⟩ := p
  rw [Set.mem_prod, mem_admissibleAround, mem_admissibleAround]
  constructor
  · intro hx
    obtain ⟨m, hm, hall, heq⟩ := hx
    obtain ⟨rfl, rfl⟩ := Prod.mk.inj heq
    obtain ⟨hm, hm'⟩ := (satisfies_append m _ _).mp hm
    obtain ⟨hall, hall'⟩ := (allHold_append m _ _).mp hall
    refine ⟨⟨?_, (hlits m).mp hall⟩, ?_, (hshifted m).mp hall'⟩
    · rw [acceptedSet_zero h]
      exact labelled_mem_admissibleSets h.attackers_lt hm
    · rw [acceptedSet_shifted h]
      exact labelled_shifted_mem h.attackers_lt hm'
  · intro hx
    obtain ⟨⟨hE, hxs⟩, hS, hys⟩ := hx
    obtain ⟨m, ⟨hm, hm'⟩, rfl, rfl⟩ :=
      (exists_copies_model_iff h.attackers_lt E S).mpr ⟨hE, hS⟩
    rw [← acceptedSet_zero h] at hxs ⊢
    rw [← acceptedSet_shifted h] at hys ⊢
    exact ⟨m, (satisfies_append m _ _).mpr ⟨hm, hm'⟩,
      (allHold_append m _ _).mpr ⟨(hlits m).mpr hxs, (hshifted m).mpr hys⟩, rfl⟩

/-! ## The attack query -/

omit h in
/-- An attack answer is an admissible attack. -/
theorem admissibleAttack_of_answer {T S E : Set (Fin af.args)} {a : Fin af.args}
    (hE : AttackAnswer af.att T a S E) : AdmissibleAttack af T a S E := by
  obtain ⟨X, hX, hsub, hatt⟩ := hE.attacks
  exact ⟨hE.mem.1, ⟨X, hX.1, hatt, (Set.subset_insert a T).trans hsub,
    hsub (Set.mem_insert a T)⟩, hE.not_subset⟩

omit h in
/-- The two sets of an admissible attack can be enlarged to preferred ones. -/
theorem AdmissibleAttack.exists_attackAnswer {T S E : Set (Fin af.args)} {a : Fin af.args}
    (hE : AdmissibleAttack af T a S E) : ∃ P, AttackAnswer af.att T a S P := by
  obtain ⟨hadm, ⟨X, hX, ⟨x, hx, y, hy, hxy⟩, hT, ha⟩, hnot⟩ := hE
  obtain ⟨P, hEP, hP⟩ := hadm.exists_preferred
  obtain ⟨Q, hXQ, hQ⟩ := hX.exists_preferred
  refine ⟨P, hP.mem_admissibleSets, ⟨Q, hQ.mem_admissibleSets, ?_, ?_⟩, ?_⟩
  · exact Set.insert_subset (hXQ ha) (hT.trans hXQ)
  · exact ⟨x, hEP hx, y, hXQ hy, hxy⟩
  · exact fun hsub => hnot (hEP.trans hsub)

end Formulas

/-- The clauses of `Encodings::admissible` under the assumption of arguments `xs` are
satisfiable exactly if an admissible set contains them, and their models accept the
admissible sets with `xs` and all unattacked arguments. The shifted copy does the same,
and a model of both copies accepts any such pair. -/
theorem admissible_encoding_accepts (perfEnc : Bool) (names : List String)
    (atts : List (String × String)) :
    ∃ af, AF.build perfEnc names atts = some af ∧ ∃ clauses shifted,
      Encodings.admissible af false = some clauses ∧
      Encodings.admissible af true = some shifted ∧
      ∀ xs ys : List (Fin af.args), ∃ lits shiftedLits,
        assumptionsFor af 0 xs = some lits ∧
        assumptionsFor af (2 * af.args) ys = some shiftedLits ∧
        ((∃ m, Satisfies m clauses ∧ AllHold m lits) ↔
          ∃ S, Admissible af.att S ∧ ∀ x ∈ xs, x ∈ S) ∧
        acceptedSets af 0 clauses lits = admissibleAround af xs ∧
        ((∃ m, Satisfies m shifted ∧ AllHold m shiftedLits) ↔
          ∃ S, Admissible af.att S ∧ ∀ y ∈ ys, y ∈ S) ∧
        acceptedSets af (2 * af.args) shifted shiftedLits = admissibleAround af ys ∧
        {p | ∃ m, Satisfies m (clauses ++ shifted) ∧ AllHold m (lits ++ shiftedLits) ∧
            (acceptedSet af 0 m, acceptedSet af (2 * af.args) m) = p} =
          admissibleAround af xs ×ˢ admissibleAround af ys := by
  obtain ⟨af, haf, hready, -, -⟩ := AF.build_spec perfEnc names atts
  refine ⟨af, haf, _, _, admissible_false_eq hready, admissible_true_eq hready, ?_⟩
  intro xs ys
  obtain ⟨lits, heq, hlits⟩ := exists_assumptionsFor hready 0 xs
  obtain ⟨shiftedLits, heq', hshifted⟩ := exists_assumptionsFor hready (2 * af.args) ys
  have hunshifted := acceptedSets_eq hlits (exists_unshifted_iff hready)
  have hshift := acceptedSets_eq hshifted (exists_shifted_iff hready)
  exact ⟨lits, shiftedLits, heq, heq', satisfiable_iff_of_acceptedSets hunshifted, hunshifted,
    satisfiable_iff_of_acceptedSets hshift, hshift, acceptedSets_copies hready hlits hshifted⟩

/-- The formula that `fudge_skep` puts into `solver2` is satisfiable under its assumptions
exactly if some admissible set attacks an admissible set around `T` and `a` without being
a subset of `S`; and every model accepts such a set. -/
theorem attack_query_accepts (perfEnc : Bool) (names : List String)
    (atts : List (String × String)) :
    ∃ af, AF.build perfEnc names atts = some af ∧
      ∀ (accepted included : List Bool) (a : Fin af.args) (log : List Event),
        accepted.length = af.args → included.length = af.args →
        ∃ solver2 log',
          (∀ O : Oracle, admExtAttQuery O af accepted included a log = (.ok solver2, log')) ∧
          (∀ O : Oracle, admExtAtt O af accepted included a log = solver2.solveExtension O log') ∧
          ((∃ m, Satisfies m solver2.clauses ∧ AllHold m solver2.assumptions) ↔
            ∃ E', AdmissibleAttack af (flagged af.args accepted) a
              (flagged af.args included) E') ∧
          ∀ m, Satisfies m solver2.clauses → AllHold m solver2.assumptions →
            AdmissibleAttack af (flagged af.args accepted) a (flagged af.args included)
              (acceptedSet af 0 m) := by
  obtain ⟨af, haf, hready, -, -⟩ := AF.build_spec perfEnc names atts
  refine ⟨af, haf, ?_⟩
  intro accepted included a log hlen hlen'
  obtain ⟨t, rfl⟩ : ∃ t, accepted = vec af.args t := ⟨_, eq_vec_of_length hlen false⟩
  obtain ⟨s, rfl⟩ : ∃ s, included = vec af.args s := ⟨_, eq_vec_of_length hlen' false⟩
  simp only [flagged_vec, acceptedSet_zero hready]
  obtain ⟨solver2, log', hrun, hclauses, hassumed⟩ :=
    (admExtAttQuery_ensures (O := .exhaustive) (w := log) (E := fun _ _ => False) hready t s a
      (Q := fun solver2 _ =>
        solver2.clauses = attackQueryClauses af.args af.attackers ++ [complement af.args s] ∧
        solver2.assumptions = picks af.args (fun i => decide (i = a.val) || t i)
          (fun i => (shiftedAccVar af.args i : Int)))
      (fun _ => ⟨rfl, rfl⟩)).exists_ok
  -- The calls before the solve do not ask the oracle.
  have hquery : ∀ O : Oracle, admExtAttQuery O af (vec af.args t) (vec af.args s) a log =
      (.ok solver2, log') := fun _ => hrun
  have hmodel : ∀ m, Satisfies m solver2.clauses → AllHold m solver2.assumptions →
      AttackAnswer af.att (toSet af.args t) a (toSet af.args s) (labelled af.args accVar m) := by
    intro m hm hall
    rw [hclauses] at hm
    rw [hassumed] at hall
    exact (exists_attackAnswer_iff hready t s a _).mp ⟨m, ⟨hm, hall⟩, rfl⟩
  refine ⟨solver2, log', hquery, ?_, ⟨?_, ?_⟩, ?_⟩
  · intro O
    rw [admExtAtt, Run.bind_apply, hquery]
    rfl
  · intro hx
    obtain ⟨m, hm, hall⟩ := hx
    exact ⟨_, admissibleAttack_of_answer (hmodel m hm hall)⟩
  · intro hx
    obtain ⟨E', hE'⟩ := hx
    obtain ⟨P, hP⟩ := hE'.exists_attackAnswer
    obtain ⟨m, ⟨hm, hall⟩, -⟩ := (exists_attackAnswer_iff hready t s a P).mpr hP
    rw [← hclauses] at hm
    rw [← hassumed] at hall
    exact ⟨m, hm, hall⟩
  · intro m hm hall
    exact admissibleAttack_of_answer (hmodel m hm hall)

theorem attack_query_accepts_mutual :
    ∃ af, AF.build true ["a", "b"] [("a", "b"), ("b", "a")] = some af ∧
      ∀ (a : Fin af.args) (log : List Event), ∃ solver2 log',
        (∀ O : Oracle,
            admExtAttQuery O af [false, false] [true, false] a log = (.ok solver2, log')) ∧
          (∀ O : Oracle, admExtAtt O af [false, false] [true, false] a log =
            solver2.solveExtension O log') ∧
          ((∃ m, Satisfies m solver2.clauses ∧ AllHold m solver2.assumptions) ↔
            ∃ E', AdmissibleAttack af (flagged af.args [false, false]) a
              (flagged af.args [true, false]) E') ∧
          ∀ m, Satisfies m solver2.clauses → AllHold m solver2.assumptions →
            AdmissibleAttack af (flagged af.args [false, false]) a
              (flagged af.args [true, false]) (acceptedSet af 0 m) := by
  obtain ⟨af, haf, hall⟩ := attack_query_accepts true ["a", "b"] [("a", "b"), ("b", "a")]
  have hargs : af.args = 2 := Option.some.inj (congrArg (Option.map AF.args) haf).symm
  exact ⟨af, haf, fun a log => hall _ _ a log hargs.symm hargs.symm⟩

end AcceptableArguments.Algorithms
