import AcceptableArguments.Algorithms.FudgeQueries
import Mathlib.Order.CompletePartialOrder

/-!
# FUDGE refines the abstract search

Every run of `fudge_skep` is a path of the search through admissible sets, whatever
models the oracle returns. The loops terminate: a continuing round of the inner loop
enlarges `included`, and a round of the outer loop removes a candidate.
-/

namespace AcceptableArguments.Algorithms

open AcceptableArguments.Sat Imperative Argumentation Encodings

/-! ## The candidates -/

/-- The flags mark the set and the counter is its size. -/
def Counts (n : Nat) (C : Set (Fin n)) (c : Candidates) : Prop :=
  ∃ p, c.candidate = vec n p ∧ toSet n p = C ∧ c.numCandidates = C.ncard

theorem toSet_clear {n : Nat} (p : Nat → Bool) (j : Fin n) :
    toSet n (fun k => if k = j.val then false else p k) = toSet n p \ {j} := by
  ext i
  simp only [mem_toSet, Set.mem_sdiff, Set.mem_singleton_iff, Fin.ext_iff]
  by_cases hij : i.val = j.val <;> simp [hij]

/-- Clearing a marked flag and lowering the counter. -/
theorem Counts.clear {n : Nat} {C : Set (Fin n)} {c : Candidates} (h : Counts n C c)
    {j : Fin n} (hj : j ∈ C) :
    ∃ candidate, setAt c.candidate j false = some candidate ∧
      Counts n (C \ {j}) ⟨candidate, c.numCandidates - 1⟩ := by
  obtain ⟨p, hp, rfl, hnum⟩ := h
  refine ⟨vec n (fun k => if k = j.val then false else p k), ?_, _, rfl, toSet_clear p j, ?_⟩
  · rw [hp, setAt_vec p false j.2]
  · have hcard := Set.ncard_sdiff_singleton_add_one hj (Set.toFinite _)
    simp only [hnum]
    omega

theorem Counts.remove {n : Nat} {C : Set (Fin n)} {c : Candidates} (h : Counts n C c)
    (j : Fin n) : ∃ c', c.remove j = some c' ∧ Counts n (C \ {j}) c' := by
  obtain ⟨p, hp, hC, hnum⟩ := id h
  have hget : c.candidate[j.val]? = some (p j) := by rw [hp, vec_get p j.2]
  by_cases hj : p j = true
  · obtain ⟨candidate, hset, hcounts⟩ := h.clear (j := j) (by rw [← hC]; exact hj)
    exact ⟨_, by simp [Candidates.remove, hget, hj, hset], hcounts⟩
  · refine ⟨c, by simp [Candidates.remove, hget, hj], p, hp, ?_, ?_⟩
    · rw [hC, Set.sdiff_singleton_eq_self (by rw [← hC]; exact hj)]
    · rw [hnum, Set.sdiff_singleton_eq_self (by rw [← hC]; exact hj)]

theorem Counts.removeList {n : Nat} (js : List Nat) (hjs : ∀ j ∈ js, j < n)
    {C : Set (Fin n)} {c : Candidates} (h : Counts n C c) :
    ∃ c', js.foldlM Candidates.remove c = some c' ∧ Counts n {i ∈ C | i.val ∉ js} c' := by
  induction js generalizing C c with
  | nil => exact ⟨c, rfl, by simpa using h⟩
  | cons j js ih =>
      obtain ⟨c₁, hc₁, h₁⟩ := h.remove ⟨j, hjs j (by simp)⟩
      obtain ⟨c₂, hc₂, h₂⟩ := ih (fun k hk => hjs k (by simp [hk])) h₁
      refine ⟨c₂, by simp [hc₁, hc₂], ?_⟩
      convert h₂ using 1
      ext i
      simp only [Set.mem_ofPred_eq, List.mem_cons, not_or, Set.mem_sdiff,
        Set.mem_singleton_iff, Fin.ext_iff]
      tauto

/-- `C := C \setminus E+`. -/
theorem Counts.removeAttacked {perfEnc : Bool} {af : AF} (haf : AF.Ready perfEnc af)
    {C : Set (Fin af.args)} {c : Candidates} (h : Counts af.args C c) (p : Nat → Bool) :
    ∃ c', Algorithms.removeAttacked af ((List.range af.args).filter p) c = some c' ∧
      Counts af.args (C \ attackedBy af.att (toSet af.args p)) c' := by
  have hall : ∀ is : List Nat, (∀ i ∈ is, i < af.args) → ∀ {C : Set (Fin af.args)}
      {c : Candidates}, Counts af.args C c → ∃ c', Algorithms.removeAttacked af is c = some c' ∧
        Counts af.args {y ∈ C | ∀ i ∈ is, i ∉ row af.attackers y} c' := by
    intro is
    induction is with
    | nil =>
        intro _ C c hc
        exact ⟨c, rfl, by simpa using hc⟩
    | cons i is ih =>
        intro his C c hc
        have hrow : ∀ y ∈ row af.attacked i, y < af.args := by
          intro y hy
          have hmem := (mem_of_mem_row ((haf.attacked_iff i y).mp hy)).1
          rwa [haf.attackers_length] at hmem
        obtain ⟨c₁, hc₁, h₁⟩ := hc.removeList (row af.attacked i) hrow
        obtain ⟨c₂, hc₂, h₂⟩ := ih (fun k hk => his k (by simp [hk])) h₁
        refine ⟨c₂, ?_, ?_⟩
        · unfold Algorithms.removeAttacked at hc₂ ⊢
          rw [List.foldlM_cons, haf.attacked_get (his i (by simp))]
          simp only [Option.bind_eq_bind, Option.bind_some, hc₁] at hc₂ ⊢
          exact hc₂
        · convert h₂ using 1
          ext y
          simp [haf.attacked_iff, and_assoc]
  have hlt : ∀ i ∈ (List.range af.args).filter p, i < af.args := fun i hi =>
    List.mem_range.mp (List.mem_of_mem_filter hi)
  obtain ⟨c', hc', hcounts⟩ := hall _ hlt h
  refine ⟨c', hc', ?_⟩
  convert hcounts using 1
  ext y
  simp only [Set.mem_sdiff, attackedBy, Set.mem_ofPred_eq, List.mem_filter, List.mem_range,
    and_imp, not_exists, not_and]
  refine and_congr_right fun _ => ⟨fun hy i hi hpi => hy ⟨i, hi⟩ hpi, fun hy i hpi => hy i i.2 hpi⟩

/-- `S := S \cup E''`. -/
theorem includeAll_vec {n : Nat} (s p : Nat → Bool) :
    includeAll (vec n s) ((List.range n).filter p) =
      some (vec n (fun i => s i || p i)) := by
  suffices h : ∀ (is : List Nat), (∀ i ∈ is, i < n) → ∀ s : Nat → Bool,
      includeAll (vec n s) is = some (vec n (fun i => s i || decide (i ∈ is))) by
    rw [h _ (fun i hi => List.mem_range.mp (List.mem_of_mem_filter hi)) s]
    congr 1
    apply vec_congr
    intro i hi
    cases hp : p i <;> simp [hp, hi]
  intro is
  induction is with
  | nil =>
      intro _ s
      simp [includeAll]
  | cons i is ih =>
      intro his s
      have hstep : (do if ← (vec n s)[i]? then return vec n s else setAt (vec n s) i true) =
          some (vec n (fun k => s k || decide (k = i))) := by
        rw [vec_get s (his i (by simp))]
        cases hs : s i with
        | true =>
            simp only [Option.bind_eq_bind, Option.bind_some, if_true, Option.pure_def]
            congr 1
            apply vec_congr
            intro k _
            by_cases hk : k = i <;> simp [hk, hs]
        | false =>
            simp only [Option.bind_eq_bind, Option.bind_some, Bool.false_eq_true, if_false]
            rw [setAt_vec s true (his i (by simp))]
            congr 1
            apply vec_congr
            intro k _
            by_cases hk : k = i <;> simp [hk]
      have htail := ih (fun k hk => his k (by simp [hk])) (fun k => s k || decide (k = i))
      unfold includeAll at htail ⊢
      rw [List.foldlM_cons, hstep]
      simp only [Option.bind_eq_bind, Option.bind_some] at htail ⊢
      rw [htail]
      congr 1
      apply vec_congr
      intro k _
      simp [Bool.or_assoc]

/-! ## The loops -/

/-- The locals of `fudge_skep` represent a state of the abstract search. -/
structure FudgeRel (af : AF) (good : Set (Set (Fin af.args))) (t : Nat → Bool)
    (C : Set (Fin af.args)) (st : FudgeState SatSolver) : Prop where
  searched : Searched af.att good (toSet af.args t) C
  accepted_eq : st.accepted = vec af.args t
  counts : Counts af.args C st.candidates
  reports : Reports af (toSet af.args t) st.result
  disjoint : ∀ i ∈ C, i ∉ toSet af.args t
  searches : Searches af.args (admissibleSets af.att) Set.univ st.solver3

section Loops

variable {perfEnc : Bool} {af : AF} (h : AF.Ready perfEnc af) {O : Oracle}
  (hO : O.Correct) {good : Set (Set (Fin af.args))}
  (hgood : O.Prefers (fun m => labelled af.args accVar m ∈ good)) {w : List Event}

include h in
/-- The acceptance branch. -/
theorem FudgeRel.accept {t s : Nat → Bool} {C : Set (Fin af.args)} {st : FudgeState SatSolver}
    (hrel : FudgeRel af good t C st) {a : Fin af.args} (ha : a ∈ C)
    (hS : ∀ i ∈ toSet af.args s, Compatible af.att a i)
    (hjoin : ∃ X ∈ admissibleSets af.att, insert a (toSet af.args t) ⊆ X)
    (hnone : ∀ X, ¬ AttackAnswer af.att (toSet af.args t) a (toSet af.args s) X) :
    ∃ st', st.accept af a = some st' ∧
      FudgeRel af good (fun k => if k = a.val then true else t k) (C \ {a}) st' := by
  obtain ⟨candidate, hset, hcounts⟩ := hrel.counts.clear ha
  refine ⟨{ st with
    accepted := vec af.args (fun k => if k = a.val then true else t k)
    result := st.result ++ [af.name a]
    candidates := ⟨candidate, st.candidates.numCandidates - 1⟩ }, ?_, ?_⟩
  · simp [FudgeState.accept, hrel.accepted_eq, setAt_vec t true a.2, h.intToArg_get a.2, hset]
  · constructor <;> try rw [toSet_mark]
    · exact hrel.searched.tail (SearchStep.accept hS hjoin hnone)
    · rfl
    · exact hcounts
    · exact hrel.reports.append_name (hrel.disjoint a ha)
    · intro i hx hy
      obtain ⟨hiC, hia⟩ := hx
      rcases hy with rfl | hit
      · exact hia rfl
      · exact hrel.disjoint i hiC hit
    · exact hrel.searches

/-- Removing what an admissible set attacks. -/
theorem FudgeRel.attacked {t p : Nat → Bool} {C : Set (Fin af.args)} {st : FudgeState SatSolver}
    (hrel : FudgeRel af good t C st) (hp : toSet af.args p ∈ admissibleSets af.att)
    {candidates : Candidates} {solver3 : SatSolver}
    (hcounts : Counts af.args (C \ attackedBy af.att (toSet af.args p)) candidates)
    (hsearch : Searches af.args (admissibleSets af.att) Set.univ solver3) :
    FudgeRel af good t (C \ attackedBy af.att (toSet af.args p))
      { st with candidates := candidates, solver3 := solver3 } where
  searched := hrel.searched.tail (SearchStep.attacked hp)
  accepted_eq := hrel.accepted_eq
  counts := hcounts
  reports := hrel.reports
  disjoint := fun i hi => hrel.disjoint i hi.1
  searches := hsearch

/-- The rejection branch. -/
theorem FudgeRel.reject {t s : Nat → Bool} {C E : Set (Fin af.args)} {st : FudgeState SatSolver}
    (hrel : FudgeRel af good t C st) {a : Fin af.args}
    (hE : AttackAnswer af.att (toSet af.args t) a (toSet af.args s) E)
    (hpref : (∃ X ∈ good, AttackAnswer af.att (toSet af.args t) a (toSet af.args s) X) →
      E ∈ good)
    (hnone : ∀ X ∈ admissibleSets af.att, ¬ insert a (toSet af.args t ∪ E) ⊆ X)
    {candidates : Candidates} (hcounts : Counts af.args (C \ {a}) candidates) :
    FudgeRel af good t (C \ {a}) { st with candidates := candidates } where
  searched := hrel.searched.tail (SearchStep.reject hE hpref hnone)
  accepted_eq := hrel.accepted_eq
  counts := hcounts
  reports := hrel.reports
  disjoint := fun i hi => hrel.disjoint i hi.1
  searches := hrel.searches

/-- The head of the inner loop for the candidate `a`, which lies with all accepted
arguments in the admissible set `X`. -/
structure InnerInv (af : AF) (good : Set (Set (Fin af.args))) (X C₀ : Set (Fin af.args))
    (a : Fin af.args) (t s : Nat → Bool) (C : Set (Fin af.args))
    (st : FudgeState SatSolver × List Bool) : Prop where
  rel : FudgeRel af good t C st.1
  included_eq : st.2 = vec af.args s
  accepted_subset : toSet af.args t ⊆ X
  candidates_subset : C ⊆ C₀
  candidate : a ∈ C
  compatible : ∀ i ∈ toSet af.args s, Compatible af.att a i

/-- What one candidate leaves behind. -/
def Processed (af : AF) (good : Set (Set (Fin af.args))) (X C₀ : Set (Fin af.args))
    (a : Fin af.args) (st : FudgeState SatSolver) : Prop :=
  ∃ t C, FudgeRel af good t C st ∧ toSet af.args t ⊆ X ∧ C ⊆ C₀ ∧ a ∉ C

include h hO hgood in
theorem fudgeInnerRound_ensures {X C₀ C : Set (Fin af.args)} {a : Fin af.args}
    {t s : Nat → Bool} {st : FudgeState SatSolver × List Bool} (hX : X ∈ admissibleSets af.att)
    (haX : a ∈ X) (hinv : InnerInv af good X C₀ a t s C st) :
    Ensures (fudgeInnerRound O af a st) w (fun x _ => match x with
      | .inl st' => ∃ s' C', InnerInv af good X C₀ a t s' C' st' ∧
          toSet af.args s ⊂ toSet af.args s'
      | .inr st' => Processed af good X C₀ a st') (fun _ _ => False) := by
  obtain ⟨⟨result, accepted, candidates, solver3⟩, included⟩ := st
  have haccepted : accepted = vec af.args t := hinv.rel.accepted_eq
  have hincluded : included = vec af.args s := hinv.included_eq
  subst haccepted hincluded
  obtain ⟨hrel, -, htX, hCC₀, haC, hcomp⟩ := hinv
  simp only at hrel
  unfold fudgeInnerRound
  apply ensures_bind
  apply admExtAtt_ensures h hO t s a hgood
  · intro hnone solver2 w'
    have hsub : insert a (toSet af.args t) ⊆ X := Set.insert_subset haX htX
    obtain ⟨st', hst', hrel'⟩ := hrel.accept h haC hcomp ⟨X, hX, hsub⟩ hnone
    simp only [if_true, hst', bounds, Run.ofOption_some, Run.pure_bind]
    apply ensures_pure
    refine ⟨_, _, hrel', ?_, Set.sdiff_subset.trans hCC₀, fun ha => ha.2 rfl⟩
    rw [toSet_mark]
    exact hsub
  · intro p hans hpref solver2 w' hmodel2 hext2
    obtain ⟨c₁, hc₁, hcounts₁⟩ := hrel.counts.removeAttacked h p
    simp only [reduceCtorEq, if_false, Oracle.extension_eq, Oracle.model_eq, hext2, hmodel2, hc₁,
      bounds, Run.ofOption_some, Run.pure_bind]
    apply ensures_bind
    apply admExt_ensures h hO t p a hrel.searches
    · intro hnone solver3 w'' hsearch3
      obtain ⟨c₂, hc₂, hcounts₂⟩ := hcounts₁.remove a
      have hrel₁ := hrel.attacked hans.mem hcounts₁ hsearch3
      have hrel₂ := hrel₁.reject hans hpref hnone hcounts₂
      simp only [if_true, hc₂, Run.ofOption_some, Run.pure_bind]
      apply ensures_pure
      exact ⟨t, _, hrel₂, htX, (Set.sdiff_subset.trans Set.sdiff_subset).trans hCC₀,
        fun ha => ha.2 rfl⟩
    · intro q hq hsub solver3 w'' hsearch3 hext3
      obtain ⟨c₂, hc₂, hcounts₂⟩ := hcounts₁.removeAttacked h q
      have haq : a ∈ toSet af.args q := hsub (Set.mem_insert _ _)
      have hpq : toSet af.args p ⊆ toSet af.args q := fun i hi =>
        hsub (Set.mem_insert_of_mem _ (Or.inr hi))
      have hrel₁ := hrel.attacked hans.mem hcounts₁ hsearch3
      have hrel₂ := hrel₁.attacked hq hcounts₂ hsearch3
      simp only [reduceCtorEq, if_false, hext3, hc₂, includeAll_vec,
        Run.ofOption_some, Run.pure_bind]
      apply ensures_pure
      refine ⟨_, _, ⟨hrel₂, rfl, htX, (Set.sdiff_subset.trans Set.sdiff_subset).trans hCC₀,
        ⟨⟨haC, ?_⟩, ?_⟩, ?_⟩, ?_⟩
      · exact hq.1.not_attacked haq hpq
      · exact hq.1.not_attacked haq Set.Subset.rfl
      · rw [toSet_or]
        intro i hx
        rcases hx with hi | hi
        · exact hcomp i hi
        · exact ⟨_, hq.1, haq, hi⟩
      · rw [toSet_or]
        refine ⟨Set.subset_union_left, fun hsub' => ?_⟩
        apply hans.not_subset
        calc
          toSet af.args p ⊆ toSet af.args q := hpq
          _ ⊆ toSet af.args s ∪ toSet af.args q := Set.subset_union_right
          _ ⊆ toSet af.args s := hsub'

/-- The recorded vectors `included` of an inner loop, from the empty set on, are
strictly increasing. -/
def Enlarges (n : Nat) (included : List (List Bool)) : Prop :=
  ((∅ : Set (Fin n)) :: included.map (flagged n)).IsChain (· ⊂ ·)

include h hO hgood in
/-- The inner loop for a candidate `a` ends, and every continuing round enlarges
`included`. -/
theorem fudgeInner_ensures {X C : Set (Fin af.args)} {a : Fin af.args} {t : Nat → Bool}
    {st : FudgeState SatSolver} {fuel : Nat} (hfuel : af.args < fuel)
    (hX : X ∈ admissibleSets af.att) (haX : a ∈ X) (hrel : FudgeRel af good t C st)
    (htX : toSet af.args t ⊆ X) (haC : a ∈ C) :
    Ensures (whileTrace (fudgeInnerRound O af a) fuel (st, List.replicate af.args false)) w
      (fun x _ => Processed af good X C a x.2 ∧ Enlarges af.args (x.1.map Prod.snd))
      (fun _ _ => False) := by
  have hstart : InnerInv af good X C a t (fun _ => false) C
      (st, List.replicate af.args false) :=
    ⟨hrel, replicate_eq_vec _ _, htX, Set.Subset.rfl, haC, by simp⟩
  have hmeasure : (flagged af.args (List.replicate af.args false))ᶜ.ncard < fuel := by
    calc
      (flagged af.args (List.replicate af.args false))ᶜ.ncard ≤ Nat.card (Fin af.args) :=
        Set.ncard_le_card _
      _ = af.args := Nat.card_fin _
      _ < fuel := hfuel
  refine (ensures_whileTrace_isChain
    (fun st' _ => ∃ s C', InnerInv af good X C a t s C' st')
    (fun st' st'' => flagged af.args st'.2 ⊂ flagged af.args st''.2)
    (fun st' => (flagged af.args st'.2)ᶜ.ncard)
    (fun st' _ => Processed af good X C a st') ?_ ⟨_, _, hstart⟩ hmeasure).post ?_
  · intro st' w' hInv
    obtain ⟨s, C', hinv⟩ := hInv
    apply (fudgeInnerRound_ensures h hO hgood hX haX hinv).post
    intro y w'' hx
    rcases y with st'' | st''
    · obtain ⟨s', C'', hinv', hlt⟩ := hx
      have hgrows : flagged af.args st'.2 ⊂ flagged af.args st''.2 := by
        rw [hinv.included_eq, hinv'.included_eq, flagged_vec, flagged_vec]
        exact hlt
      exact ⟨⟨s', C'', hinv'⟩, hgrows,
        Set.ncard_lt_ncard (compl_lt_compl_iff_lt.mpr hgrows) (Set.toFinite _)⟩
    · exact hx
  · intro y w' hy
    obtain ⟨rounds, st'⟩ := y
    obtain ⟨hchain, -, hdone⟩ := hy
    refine ⟨hdone, ?_⟩
    have hempty : flagged af.args (List.replicate af.args false) = ∅ := by
      rw [replicate_eq_vec, flagged_vec]
      simp [toSet]
    have hmap := (List.isChain_map (fun st'' : FudgeState SatSolver × List Bool =>
      flagged af.args st''.2)).mpr hchain
    simpa [Enlarges, hempty, Function.comp_def] using hmap

include h hO hgood in
/-- The body of the loop over the extension: afterwards `a` is no candidate. -/
theorem fudgeCandidateTrace_ensures {X C : Set (Fin af.args)} {a : Fin af.args}
    {t : Nat → Bool} {st : FudgeState SatSolver × List (List (List Bool))} {fuel : Nat}
    (hfuel : af.args < fuel) (hX : X ∈ admissibleSets af.att) (haX : a ∈ X)
    (hrel : FudgeRel af good t C st.1) (htX : toSet af.args t ⊆ X)
    (hrec : ∀ included ∈ st.2, Enlarges af.args included) :
    Ensures (fudgeCandidateTrace O af fuel st a) w
      (fun st' _ => Processed af good X C a st'.1 ∧
        ∀ included ∈ st'.2, Enlarges af.args included) (fun _ _ => False) := by
  obtain ⟨c, hc, hC, hnum⟩ := hrel.counts
  unfold fudgeCandidateTrace
  simp only [hc, vec_get c a.2, bounds, Run.ofOption_some, Run.pure_bind]
  by_cases hca : c a = true
  · rw [if_pos hca]
    have haC : a ∈ C := by
      rw [← hC]
      exact hca
    apply ensures_bind
    apply (fudgeInner_ensures h hO hgood hfuel hX haX hrel htX haC).post
    intro x w' hx
    obtain ⟨rounds, st'⟩ := x
    obtain ⟨hdone, hgrows⟩ := hx
    apply ensures_pure
    refine ⟨hdone, fun included hmem => ?_⟩
    rcases List.mem_append.mp hmem with hmem | hmem
    · exact hrec included hmem
    · rw [List.mem_singleton.mp hmem]
      exact hgrows
  · rw [if_neg hca]
    apply ensures_pure
    refine ⟨⟨t, C, hrel, htX, Set.Subset.rfl, ?_⟩, hrec⟩
    rw [← hC]
    exact hca

include h hO hgood in
/-- The loop over the extension: afterwards none of its members is a candidate. -/
theorem fudgeCandidatesTrace_ensures {p t : Nat → Bool} {C : Set (Fin af.args)}
    {st : FudgeState SatSolver} {fuel : Nat} (hfuel : af.args < fuel)
    (hp : toSet af.args p ∈ admissibleSets af.att) (hrel : FudgeRel af good t C st)
    (htp : toSet af.args t ⊆ toSet af.args p) :
    Ensures (((List.range af.args).filter p).foldlM (fudgeCandidateTrace O af fuel)
        (st, [])) w
      (fun st' _ => (∃ t' C', FudgeRel af good t' C' st'.1 ∧ C' ⊆ C ∧
        ∀ i ∈ toSet af.args p, i ∉ C') ∧ ∀ included ∈ st'.2, Enlarges af.args included)
      (fun _ _ => False) := by
  refine (ensures_foldlM (fun pre st' _ => (∃ t' C', FudgeRel af good t' C' st'.1 ∧
    toSet af.args t' ⊆ toSet af.args p ∧ C' ⊆ C ∧
      ∀ i : Fin af.args, i.val ∈ pre → i ∉ C') ∧
    ∀ included ∈ st'.2, Enlarges af.args included) _ ?_ ?_).post ?_
  · intro pre a post st' w' hl hInv
    obtain ⟨⟨t', C', hrel', ht', hC', hpre⟩, hrec⟩ := hInv
    have ha : a ∈ (List.range af.args).filter p := by
      rw [hl]
      simp
    obtain ⟨halt, hpa⟩ := List.mem_filter.mp ha
    have halt := List.mem_range.mp halt
    apply (fudgeCandidateTrace_ensures h hO hgood (a := ⟨a, halt⟩) hfuel hp hpa hrel' ht'
      hrec).post
    intro st'' w'' hInv
    obtain ⟨⟨t'', C'', hrel'', ht'', hC'', ha''⟩, hrec'⟩ := hInv
    refine ⟨⟨t'', C'', hrel'', ht'', hC''.trans hC', fun i hi hiC => ?_⟩, hrec'⟩
    rcases List.mem_append.mp hi with hi | hi
    · exact hpre i hi (hC'' hiC)
    · have hia : i = ⟨a, halt⟩ := Fin.ext (List.mem_singleton.mp hi)
      exact ha'' (hia ▸ hiC)
  · exact ⟨⟨t, C, hrel, htp, Set.Subset.rfl, by simp⟩, by simp⟩
  · intro st' w' hInv
    obtain ⟨⟨t', C', hrel', -, hC', hall⟩, hrec⟩ := hInv
    refine ⟨⟨t', C', hrel', hC', fun i hi => hall i ?_⟩, hrec⟩
    simpa using hi

include h hO hgood in
/-- A round of the outer loop removes a candidate or ends the search. -/
theorem fudgeRoundTrace_ensures {t : Nat → Bool} {C : Set (Fin af.args)}
    {st : FudgeState SatSolver × List (List (List Bool))} {fuel : Nat} (hfuel : af.args < fuel)
    (hrel : FudgeRel af good t C st.1) :
    Ensures (fudgeRoundTrace O af fuel st) w (fun x _ => match x with
      | .inl st' => (∃ t' C', FudgeRel af good t' C' st'.1 ∧ C' ⊂ C) ∧
          ∀ included ∈ st'.2, Enlarges af.args included
      | .inr r => ∃ T C', Searched af.att good T C' ∧ SearchEnd af.att T C' ∧
          Reports af T r) (fun _ _ => False) := by
  obtain ⟨⟨result, accepted, ⟨candidate, num⟩, solver3⟩, records⟩ := st
  have haccepted : accepted = vec af.args t := hrel.accepted_eq
  subst haccepted
  obtain ⟨c, hc, hC, hnum⟩ := hrel.counts
  simp only at hc hnum
  subst hc hC
  unfold fudgeRoundTrace
  by_cases hzero : num = 0
  · rw [if_pos hzero]
    apply ensures_pure
    refine ⟨_, _, hrel.searched, fun X _ _ i _ hi => ?_, hrel.reports⟩
    have hempty : toSet af.args c = ∅ := by
      rw [← Set.ncard_eq_zero (Set.toFinite _)]
      omega
    rw [hempty] at hi
    exact hi
  · rw [if_neg hzero]
    apply ensures_bind
    apply admExtCandidate_ensures h hO t c
    · intro hend solver1 w'
      apply ensures_pure
      exact ⟨_, _, hrel.searched, hend, hrel.reports⟩
    · intro p hp htp hx solver1 w' hext
      obtain ⟨i, hip, hic⟩ := hx
      obtain ⟨c₁, hc₁, hcounts₁⟩ := hrel.counts.removeAttacked h p
      simp only [reduceCtorEq, if_false, Oracle.extension_eq, hext, hc₁, bounds,
        Run.ofOption_some, Run.pure_bind]
      apply ensures_bind
      apply (fudgeCandidatesTrace_ensures h hO hgood hfuel hp
        (hrel.attacked hp hcounts₁ hrel.searches) htp).post
      intro st' w'' hInv
      obtain ⟨⟨t', C', hrel', hC', hout⟩, hrec⟩ := hInv
      apply ensures_pure
      refine ⟨⟨t', C', hrel', hC'.trans Set.sdiff_subset, fun hsub => ?_⟩, hrec⟩
      exact hout i hip (hsub hic)

/-- The flags of the candidates mark the set they count. -/
theorem FudgeRel.flagged_candidate {t : Nat → Bool} {C : Set (Fin af.args)}
    {st : FudgeState SatSolver} (hrel : FudgeRel af good t C st) :
    flagged af.args st.candidates.candidate = C := by
  obtain ⟨c, hc, hC, -⟩ := hrel.counts
  rw [hc, flagged_vec, hC]

/-- Before the first round all arguments are candidates. -/
theorem fudgeRel_start {solver3 : SatSolver}
    (hsearch : Searches af.args (admissibleSets af.att) Set.univ solver3) :
    FudgeRel af good (fun _ => false) Set.univ
      { result := []
        accepted := List.replicate af.args false
        candidates := ⟨List.replicate af.args true, af.args⟩
        solver3 := solver3 } := by
  have hnone : toSet af.args (fun _ => false) = ∅ := toSet_none
  have hall : toSet af.args (fun _ => true) = Set.univ := by simp [toSet]
  constructor <;> try rw [hnone]
  · exact Relation.ReflTransGen.refl
  · exact replicate_eq_vec _ _
  · exact ⟨fun _ => true, replicate_eq_vec _ _, hall, by rw [Set.ncard_univ, Nat.card_fin]⟩
  · exact reports_nil af
  · simp
  · exact hsearch

include h hO hgood in
/-- Every run terminates in a final state of the abstract search. Each outer round
removes a candidate and each continuing inner round enlarges `included`. -/
theorem fudgeTrace_ensures {fuel : Nat} (hfuel : af.args < fuel) :
    Ensures (fudgeTrace O af fuel) w (fun x _ =>
      ((Set.univ :: x.1.map fun st => flagged af.args st.1.candidates.candidate).IsChain
          (fun C C' => C' ⊂ C) ∧
        ∀ st ∈ x.1, ∀ included ∈ st.2, Enlarges af.args included) ∧
      ∃ T C, Searched af.att good T C ∧ SearchEnd af.att T C ∧ Reports af T x.2)
      (fun _ _ => False) := by
  unfold fudgeTrace
  simp only [admissible_false_eq h, bounds, Run.ofOption_some, Run.pure_bind]
  apply ensures_bind
  apply SatSolver.ensures_addClauses
  have hsearch := searches_encoded (n := af.args) (2 * af.args)
    (admissibleClauses af.args af.attackers accVar (rejVar af.args))
  rw [family_admissibleClauses h] at hsearch
  have hcard : (Set.univ : Set (Fin af.args)).ncard = af.args := by
    rw [Set.ncard_univ, Nat.card_fin]
  have hflags : flagged af.args (List.replicate af.args true) = Set.univ := by
    rw [replicate_eq_vec, flagged_vec]
    simp [toSet]
  refine (ensures_whileTrace_isChain
    (fun st _ => (∃ t C, FudgeRel af good t C st.1) ∧
      ∀ included ∈ st.2, Enlarges af.args included)
    (fun st st' => flagged af.args st'.1.candidates.candidate ⊂
      flagged af.args st.1.candidates.candidate)
    (fun st => (flagged af.args st.1.candidates.candidate).ncard)
    (fun r _ => ∃ T C, Searched af.att good T C ∧ SearchEnd af.att T C ∧ Reports af T r)
    ?_ ⟨⟨fun _ => false, Set.univ, fudgeRel_start hsearch⟩, by simp⟩ ?_).post ?_
  · intro st w' hInv
    obtain ⟨⟨t, C, hrel⟩, -⟩ := hInv
    apply (fudgeRoundTrace_ensures h hO hgood hfuel hrel).post
    intro y w'' hx
    rcases y with st' | r
    · obtain ⟨⟨t', C', hrel', hlt⟩, hrec⟩ := hx
      rw [← hrel.flagged_candidate, ← hrel'.flagged_candidate] at hlt
      exact ⟨⟨⟨t', C', hrel'⟩, hrec⟩, hlt, Set.ncard_lt_ncard hlt (Set.toFinite _)⟩
    · exact hx
  · simp only [hflags, hcard]
    exact hfuel
  · intro y w' hInv
    obtain ⟨rounds, r⟩ := y
    obtain ⟨hchain, hinv, hend⟩ := hInv
    refine ⟨⟨?_, fun st hst => ?_⟩, hend⟩
    · have hmap := (List.isChain_map
        (fun st : FudgeState SatSolver × List (List (List Bool)) =>
          flagged af.args st.1.candidates.candidate)
        (R := fun C C' : Set (Fin af.args) => C' ⊂ C)).mpr hchain
      simpa [hflags] using hmap
    · obtain ⟨w₀, -, hrec⟩ := hinv st hst
      exact hrec

include h hO hgood in
theorem fudgeSkep_ensures {fuel : Nat} (hfuel : af.args < fuel) :
    Ensures (fudgeSkep O af fuel) w (fun r _ => ∃ T C, Searched af.att good T C ∧
      SearchEnd af.att T C ∧ Reports af T r) (fun _ _ => False) := by
  apply (fudgeTrace_mirrors O af fuel).ensures
  apply (fudgeTrace_ensures h hO hgood hfuel).post
  intro x w' hx
  exact hx.2

end Loops

/-- Every oracle has the empty preference. -/
theorem prefers_empty (O : Oracle) (n : Nat) :
    O.Prefers (fun m => labelled n accVar m ∈ (∅ : Set (Set (Fin n)))) :=
  fun _ _ _ _ _ hex => hex.elim fun _ hm => hm.2.elim

/-- On every framework, also with repeated names, and for every correct oracle
`fudge_skep` terminates. Over the rounds of the outer loop the candidates, at first all
arguments, become strictly fewer; over the continuing rounds of each inner loop
`included`, at first empty, becomes strictly larger. -/
theorem fudge_skep_terminates (perfEnc : Bool) (names : List String)
    (atts : List (String × String)) (O : Oracle) (hO : O.Correct) :
    ∃ af, AF.build perfEnc names atts = some af ∧
      ∀ fuel > af.args, ∀ log, ∃ rounds result log',
        fudgeTrace O af fuel log = (.ok (rounds, result), log') ∧
        fudgeSkep O af fuel log = (.ok result, log') ∧
        (Set.univ :: rounds.map fun st => flagged af.args st.1.candidates.candidate).IsChain
          (fun C C' => C' ⊂ C) ∧
        ∀ st ∈ rounds, ∀ included ∈ st.2,
          ((∅ : Set (Fin af.args)) :: included.map (flagged af.args)).IsChain (· ⊂ ·) := by
  obtain ⟨af, haf, hready, -, -⟩ := AF.build_spec perfEnc names atts
  refine ⟨af, haf, ?_⟩
  intro fuel hfuel log
  obtain ⟨⟨rounds, result⟩, log', hrun, ⟨hchain, hinner⟩, -⟩ :=
    (fudgeTrace_ensures (w := log) hready hO (prefers_empty O af.args) hfuel).exists_ok
  exact ⟨rounds, result, log', hrun, (fudgeTrace_mirrors O af fuel).run_ok hrun, hchain, hinner⟩

theorem fudge_skep_terminates_mutual :
    ∃ af, AF.build true ["a", "b"] [("a", "b"), ("b", "a")] = some af ∧
      ∀ fuel > af.args, ∀ log, ∃ rounds result log',
        fudgeTrace Oracle.exhaustive af fuel log = (.ok (rounds, result), log') ∧
        fudgeSkep Oracle.exhaustive af fuel log = (.ok result, log') ∧
        (Set.univ :: rounds.map fun st => flagged af.args st.1.candidates.candidate).IsChain
          (fun C C' => C' ⊂ C) ∧
        ∀ st ∈ rounds, ∀ included ∈ st.2,
          ((∅ : Set (Fin af.args)) :: included.map (flagged af.args)).IsChain (· ⊂ ·) :=
  fudge_skep_terminates true ["a", "b"] [("a", "b"), ("b", "a")] Oracle.exhaustive
    Oracle.exhaustive_correct

/-! ## When the answer is right -/

section Answer

variable {perfEnc : Bool} {af : AF} (h : AF.Ready perfEnc af) (hnames : af.intToArg.Nodup)

include h hnames

/-- In a separated framework the skeptical arguments are reported, for every oracle. -/
theorem fudgeSkep_of_separated (hsep : SeparatedByArguments af.att) {O : Oracle}
    (hO : O.Correct) {fuel : Nat} (hfuel : af.args < fuel) (log : List Event) :
    ∃ result log', fudgeSkep O af fuel log = (.ok result, log') ∧ result.Nodup ∧
      ∀ s, s ∈ result ↔ s ∈ namesOf af {i | Skeptical af.att i} := by
  obtain ⟨result, log', hrun, T, C, hsearched, hend, hrep⟩ :=
    (fudgeSkep_ensures (w := log) h hO (prefers_empty O af.args) hfuel).exists_ok
  have hT := hsearched.eq_skeptical hsep hend
  exact ⟨result, log', hrun, hrep.nodup h hnames, fun s => hT ▸ hrep.mem_iff s⟩

/-- Otherwise an oracle that prefers preferred extensions with `a` makes it report an
argument that is not skeptical. -/
theorem fudgeSkep_of_not_separated {a : Fin af.args} (hcred : Credulous af.att a)
    (hnot : ¬ Skeptical af.att a) (hcomp : ∀ b, Credulous af.att b → Compatible af.att a b)
    {fuel : Nat} (hfuel : af.args < fuel) (log : List Event) :
    ∃ result log', fudgeSkep (Oracle.preferring fun m =>
        labelled af.args accVar m ∈ {P | Preferred af.att P ∧ a ∈ P}) af fuel log =
        (.ok result, log') ∧
      ∃ s ∈ result, s ∉ namesOf af {i | Skeptical af.att i} := by
  obtain ⟨result, log', hrun, T, C, hsearched, hend, hrep⟩ :=
    (fudgeSkep_ensures (w := log) h (Oracle.preferring_correct _)
      (Oracle.preferring_prefers _) hfuel).exists_ok
  obtain ⟨i, hiT, hi⟩ := hsearched.exists_not_skeptical hcred hnot hcomp hend
  refine ⟨result, log', hrun, af.name i, ?_, ?_⟩
  · rw [hrep.mem_iff, mem_namesOf]
    exact ⟨i, hiT, rfl⟩
  · rw [mem_namesOf]
    intro hx
    obtain ⟨j, hj, hij⟩ := hx
    exact hi (Fin.ext (name_injective h hnames j.2 i.2 hij) ▸ hj)

end Answer

/-- `fudge_skep` returns exactly the skeptical arguments for every correct oracle if and
only if every argument in some but not all preferred extensions is incompatible with a
single credulous argument. -/
theorem fudge_skep_correct_iff (perfEnc : Bool) (names : List String)
    (atts : List (String × String)) (hnames : names.Nodup) :
    ∃ af, AF.build perfEnc names atts = some af ∧
      ((∀ O : Oracle, O.Correct → ∀ fuel > af.args, ∀ log,
        ∃ result log', fudgeSkep O af fuel log = (.ok result, log') ∧ result.Nodup ∧
          ∀ s, s ∈ result ↔ s ∈ namesOf af {i | Skeptical af.att i}) ↔
      ∀ a, Credulous af.att a → ¬ Skeptical af.att a →
        ∃ b, Credulous af.att b ∧ ¬ Compatible af.att a b) := by
  obtain ⟨af, haf, hready, hnames', -⟩ := AF.build_spec perfEnc names atts
  have hnodup : af.intToArg.Nodup := hnames' ▸ hnames
  refine ⟨af, haf, fun hall => ?_, fun hsep O hO fuel hfuel log =>
    fudgeSkep_of_separated hready hnodup hsep hO hfuel log⟩
  intro a hcred hnot
  by_contra hnone
  push Not at hnone
  obtain ⟨result, log', hrun, s, hs, hsnot⟩ :=
    fudgeSkep_of_not_separated hready hnodup hcred hnot hnone (Nat.lt_succ_self _) []
  obtain ⟨result', log'', hrun', -, hmem⟩ :=
    hall _ (Oracle.preferring_correct _) _ (Nat.lt_succ_self _) []
  rw [hrun] at hrun'
  cases hrun'
  exact hsnot ((hmem s).mp hs)

theorem fudge_skep_correct_iff_mutual :
    ∃ af, AF.build true ["a", "b"] [("a", "b"), ("b", "a")] = some af ∧
      ((∀ O : Oracle, O.Correct → ∀ fuel > af.args, ∀ log,
        ∃ result log', fudgeSkep O af fuel log = (.ok result, log') ∧ result.Nodup ∧
          ∀ s, s ∈ result ↔ s ∈ namesOf af {i | Skeptical af.att i}) ↔
      ∀ a, Credulous af.att a → ¬ Skeptical af.att a →
        ∃ b, Credulous af.att b ∧ ¬ Compatible af.att a b) :=
  fudge_skep_correct_iff true ["a", "b"] [("a", "b"), ("b", "a")] (by decide)

/-- `a` is attacked by the self-attacking `b`, which both `x` and `y` attack; `x` and
`p2` attack each other, and so do `y` and `p1`. -/
def crossed : AF :=
  (AF.build true ["a", "b", "x", "y", "p1", "p2"]
    [("b", "a"), ("b", "b"), ("x", "b"), ("y", "b"), ("x", "p2"), ("p2", "x"), ("y", "p1"),
      ("p1", "y")]).getD AF.empty

/-- The members of a list of indices. -/
def crossedSet (l : List Nat) : Set (Fin crossed.args) := {i | i.val ∈ l}

theorem crossed_admissible {l : List Nat}
    (hfree : ∀ x y : Fin crossed.args, x.val ∈ l → y.val ∈ l →
      ¬ AF.attOf crossed.args crossed.attackers x y)
    (hdef : ∀ x y : Fin crossed.args, x.val ∈ l →
      AF.attOf crossed.args crossed.attackers y x →
      ∃ z : Fin crossed.args, z.val ∈ l ∧ AF.attOf crossed.args crossed.attackers z y) :
    Admissible crossed.att (crossedSet l) :=
  ⟨fun x hx y hy => hfree x y hx hy, fun x hx y hyx => hdef x y hx hyx⟩

/-- `a` occurs together with every argument that occurs in an admissible set. -/
theorem crossed_compatible (b : Fin crossed.args) (hb : Credulous crossed.att b) :
    Compatible crossed.att ⟨0, by decide⟩ b := by
  have hx : Admissible crossed.att (crossedSet [0, 2, 4]) :=
    crossed_admissible (by decide) (by decide)
  have hy : Admissible crossed.att (crossedSet [0, 3, 5]) :=
    crossed_admissible (by decide) (by decide)
  have hcases : ∀ i : Fin crossed.args, i.val ∈ [0, 2, 4] ∨ i.val ∈ [0, 3, 5] ∨
      AF.attOf crossed.args crossed.attackers i i := by decide
  rcases hcases b with hmem | hmem | hself
  · exact ⟨_, hx, List.mem_cons_self, hmem⟩
  · exact ⟨_, hy, List.mem_cons_self, hmem⟩
  · obtain ⟨S, hS, hbS⟩ := credulous_iff_admissible.mp hb
    exact (hS.conflictFree b hbS b hbS hself).elim

/-- No preferred extension around `p1` and `p2` contains `a`. -/
theorem crossed_not_skeptical : ¬ Skeptical crossed.att ⟨0, by decide⟩ := by
  have hp : Admissible crossed.att (crossedSet [4, 5]) :=
    crossed_admissible (by decide) (by decide)
  obtain ⟨P, hsub, hP⟩ := hp.exists_preferred
  intro hsk
  have hb : AF.attOf crossed.args crossed.attackers ⟨1, by decide⟩ ⟨0, by decide⟩ := by decide
  obtain ⟨z, hz, hzb⟩ := hP.admissible.defends _ (hsk P hP) _ hb
  -- Whatever attacks `b` attacks itself, `p1` or `p2`.
  have hconflict : ∀ z : Fin crossed.args,
      AF.attOf crossed.args crossed.attackers z ⟨1, by decide⟩ →
      AF.attOf crossed.args crossed.attackers z z ∨
        ∃ p : Fin crossed.args, p.val ∈ [4, 5] ∧
          AF.attOf crossed.args crossed.attackers z p := by decide
  rcases hconflict z hzb with hc | ⟨p, hp, hc⟩
  · exact hP.admissible.conflictFree z hz z hz hc
  · exact hP.admissible.conflictFree z hz p (hsub hp) hc

/-- On this framework a correct oracle makes `fudge_skep` return an argument that is
missing from a preferred extension. -/
theorem fudge_reports_unskeptical :
    AF.build true ["a", "b", "x", "y", "p1", "p2"]
      [("b", "a"), ("b", "b"), ("x", "b"), ("y", "b"), ("x", "p2"), ("p2", "x"), ("y", "p1"),
        ("p1", "y")] = some crossed ∧
      ∃ O : Oracle, O.Correct ∧ ∀ fuel > crossed.args, ∀ log,
        ∃ result log', fudgeSkep O crossed fuel log = (.ok result, log') ∧
          ∃ s ∈ result, s ∉ namesOf crossed {i | Skeptical crossed.att i} := by
  have hbuild : AF.build true ["a", "b", "x", "y", "p1", "p2"]
      [("b", "a"), ("b", "b"), ("x", "b"), ("y", "b"), ("x", "p2"), ("p2", "x"), ("y", "p1"),
        ("p1", "y")] = some crossed := rfl
  obtain ⟨hready, hnames, -⟩ := AF.ready_of_build hbuild
  have hnodup : crossed.intToArg.Nodup := by
    rw [hnames]
    decide
  have hcred : Credulous crossed.att ⟨0, by decide⟩ :=
    credulous_iff_admissible.mpr ⟨crossedSet [0, 2, 4],
      crossed_admissible (by decide) (by decide), List.mem_cons_self⟩
  exact ⟨hbuild, _, Oracle.preferring_correct _, fun fuel hfuel log =>
    fudgeSkep_of_not_separated hready hnodup hcred crossed_not_skeptical
      crossed_compatible hfuel log⟩

end AcceptableArguments.Algorithms
