import AcceptableArguments.AF
import AcceptableArguments.Sat.Cnf

/-!
# The clauses that the encodings hand to a solver

Each function returns the clauses in the order in which they are added, or
`none` when a vector is accessed out of bounds. Clauses that the source
allocates with zeros and fills entry by entry are filled in the same way here.
The `*Clauses` functions state the same clauses without vector accesses; the
equations below show that a ready framework never reaches `none`.
-/

namespace AcceptableArguments

open AcceptableArguments.Sat Imperative

namespace Encodings

/-- A clause allocated with `n + 1` zeros, filled by a loop over `0 .. n - 1` and
completed with its last entry. -/
def fillClause (n : Nat) (lit : Nat → Option Int) (last : Int) : Option Clause := do
  let clause ← (List.range n).foldlM (fun c j => do setAt c j (← lit j))
    (List.replicate (n + 1) 0)
  setAt clause n last

/-- The round of `Encodings::admissible` for argument `i`. -/
def admissibleArg (af : AF) (offset : Int) (i : Nat) : Option (List Clause) := do
  let acc ← af.acceptedVar[i]?
  let rej ← af.rejectedVar[i]?
  let basic : Clause := [-(offset + acc), -(offset + rej)]
  if ← af.unattacked[i]? then
    return [basic, [offset + acc]]
  let attackers ← af.attackers[i]?
  let defended ← attackers.mapM fun b => do
    let rejB ← af.rejectedVar[b]?
    return [-(offset + acc), offset + rejB]
  let outClause ← fillClause attackers.length
    (fun j => do
      let accB ← af.acceptedVar[← attackers[j]?]?
      return offset + accB)
    (-(offset + rej))
  return basic :: defended ++ [outClause]

/-- `Encodings::admissible`. -/
def admissible (af : AF) (isAttackedSet : Bool) : Option (List Clause) := do
  let offset : Int := if isAttackedSet then ((2 * af.args : Nat) : Int) else 0
  let blocks ← (List.range af.args).mapM (admissibleArg af offset)
  return blocks.flatten

/-- The local variables of `Encodings::attacks`. -/
structure AttacksState where
  clauses : List Clause
  attacksClause : Clause
  attackIdx : Nat
  attackVar : Int

/-- The inner round of `Encodings::attacks` for the attacker `b` of argument `i`. -/
def attacksStep (af : AF) (offset : Int) (i : Nat) (st : AttacksState) (b : Nat) :
    Option AttacksState := do
  let attacksClause ← setAt st.attacksClause st.attackIdx st.attackVar
  let accB ← af.acceptedVar[b]?
  let acc ← af.acceptedVar[i]?
  return {
    clauses := st.clauses ++ [[-st.attackVar, accB], [-st.attackVar, offset + acc],
      [st.attackVar, -(offset + acc), -accB]]
    attacksClause := attacksClause
    attackIdx := st.attackIdx + 1
    attackVar := st.attackVar + 1 }

/-- `Encodings::attacks`. -/
def attacks (af : AF) : Option (List Clause) := do
  let offset : Int := ((2 * af.args : Nat) : Int)
  let st ← (List.range af.args).foldlM
    (fun st i => do (← af.attackers[i]?).foldlM (attacksStep af offset i) st)
    { clauses := [], attacksClause := List.replicate af.attacks 0, attackIdx := 0,
      attackVar := offset + ((2 * af.args : Nat) : Int) + 1 }
  return st.clauses ++ [st.attacksClause]

/-- The clauses of an attacked argument that both variants of
`Encodings::complete` and `Encodings::stable` build in the same way: one accepted
attacker for a rejected argument, and acceptance when all attackers are rejected. -/
def attackerClauses (af : AF) (attackers : List Nat) (acc rej : Int) :
    Option (List Clause) := do
  let attackersIn ← fillClause attackers.length
    (fun j => do af.acceptedVar[← attackers[j]?]?) (-rej)
  let attackersNotout ← fillClause attackers.length
    (fun j => do
      let rejB ← af.rejectedVar[← attackers[j]?]?
      return -rejB)
    acc
  return [attackersIn, attackersNotout]

/-- The round of `Encodings::complete` for argument `i` without PERF_ENC. -/
def completeArg (af : AF) (i : Nat) : Option (List Clause) := do
  let acc ← af.acceptedVar[i]?
  let rej ← af.rejectedVar[i]?
  let und ← af.undecidedVar[i]?
  let basic : List Clause := [[acc, rej, und], [-acc, -rej], [-acc, -und], [-rej, -und]]
  if ← af.unattacked[i]? then
    return basic ++ [[acc]]
  let attackers ← af.attackers[i]?
  let defended ← attackers.mapM fun b => do
    let rejB ← af.rejectedVar[b]?
    return [-acc, rejB]
  return basic ++ defended ++ (← attackerClauses af attackers acc rej)

/-- The round of `Encodings::complete` for argument `i` with PERF_ENC. -/
def completePerfArg (af : AF) (i : Nat) : Option (List Clause) := do
  let acc ← af.acceptedVar[i]?
  let rej ← af.rejectedVar[i]?
  let basic : Clause := [-acc, -rej]
  if ← af.unattacked[i]? then
    return [basic, [acc]]
  let attackers ← af.attackers[i]?
  let pairs ← attackers.mapM fun b => do
    let rejB ← af.rejectedVar[b]?
    let accB ← af.acceptedVar[b]?
    return ([[-acc, rejB], [-accB, rej]] : List Clause)
  return basic :: pairs.flatten ++ (← attackerClauses af attackers acc rej)

/-- `Encodings::complete`. -/
def complete (perfEnc : Bool) (af : AF) : Option (List Clause) := do
  let blocks ← (List.range af.args).mapM
    (if perfEnc then completePerfArg af else completeArg af)
  return blocks.flatten

/-- The round of `Encodings::stable` for argument `i`. -/
def stableArg (af : AF) (i : Nat) : Option (List Clause) := do
  let acc ← af.acceptedVar[i]?
  let rej ← af.rejectedVar[i]?
  let basic : List Clause := [[-acc, -rej], [acc, rej]]
  if ← af.unattacked[i]? then
    return basic ++ [[acc]]
  let attackers ← af.attackers[i]?
  let defended ← attackers.mapM fun b => do
    let rejB ← af.rejectedVar[b]?
    return [-acc, rejB]
  return basic ++ defended ++ (← attackerClauses af attackers acc rej)

/-- `Encodings::stable`, the definition outside the EXPERIMENTAL block. -/
def stable (af : AF) : Option (List Clause) := do
  let blocks ← (List.range af.args).mapM (stableArg af)
  return blocks.flatten

/-! ## The same clauses without vector accesses -/

/-- Attackers rejected whenever the argument is accepted. -/
def defendClauses (A R : Nat → Nat) (i : Nat) (attackers : List Nat) : List Clause :=
  attackers.map fun b => [-(A i : Int), (R b : Int)]

/-- Some attacker accepted whenever the argument is rejected. -/
def outClause (A R : Nat → Nat) (i : Nat) (attackers : List Nat) : Clause :=
  attackers.map (fun b => (A b : Int)) ++ [-(R i : Int)]

/-- Acceptance whenever all attackers are rejected. -/
def notoutClause (A R : Nat → Nat) (i : Nat) (attackers : List Nat) : Clause :=
  attackers.map (fun b => -(R b : Int)) ++ [(A i : Int)]

def admissibleClauses (n : Nat) (attackers : List (List Nat)) (A R : Nat → Nat) :
    List Clause :=
  (List.range n).flatMap fun i =>
    if (row attackers i).isEmpty then [[-(A i : Int), -(R i : Int)], [(A i : Int)]]
    else [-(A i : Int), -(R i : Int)] :: defendClauses A R i (row attackers i) ++
      [outClause A R i (row attackers i)]

def completeClauses (n : Nat) (attackers : List (List Nat)) (A R U : Nat → Nat) :
    List Clause :=
  (List.range n).flatMap fun i =>
    [[(A i : Int), (R i : Int), (U i : Int)], [-(A i : Int), -(R i : Int)],
      [-(A i : Int), -(U i : Int)], [-(R i : Int), -(U i : Int)]] ++
    if (row attackers i).isEmpty then [[(A i : Int)]]
    else defendClauses A R i (row attackers i) ++
      [outClause A R i (row attackers i), notoutClause A R i (row attackers i)]

def completePerfClauses (n : Nat) (attackers : List (List Nat)) (A R : Nat → Nat) :
    List Clause :=
  (List.range n).flatMap fun i =>
    if (row attackers i).isEmpty then [[-(A i : Int), -(R i : Int)], [(A i : Int)]]
    else [-(A i : Int), -(R i : Int)] ::
      ((row attackers i).flatMap fun b =>
        [[-(A i : Int), (R b : Int)], [-(A b : Int), (R i : Int)]]) ++
      [outClause A R i (row attackers i), notoutClause A R i (row attackers i)]

def stableClauses (n : Nat) (attackers : List (List Nat)) (A R : Nat → Nat) :
    List Clause :=
  (List.range n).flatMap fun i =>
    [[-(A i : Int), -(R i : Int)], [(A i : Int), (R i : Int)]] ++
    if (row attackers i).isEmpty then [[(A i : Int)]]
    else defendClauses A R i (row attackers i) ++
      [outClause A R i (row attackers i), notoutClause A R i (row attackers i)]

/-- The pairs of attacker and argument in the order in which `Encodings::attacks`
visits them. -/
def attackPairs (attackers : List (List Nat)) (is : List Nat) : List (Nat × Nat) :=
  is.flatMap fun i => (row attackers i).map fun b => (b, i)

/-- The variable of the `k`-th attack among `n` arguments. -/
def attackVar (n k : Nat) : Nat := 4 * n + k + 1

/-- The three clauses that define the variable of the `k`-th attack. -/
def attackDefinition (n : Nat) (p : (Nat × Nat) × Nat) : List Clause :=
  [[-(attackVar n p.2 : Int), (accVar p.1.1 : Int)],
    [-(attackVar n p.2 : Int), ((2 * n + accVar p.1.2 : Nat) : Int)],
    [(attackVar n p.2 : Int), -((2 * n + accVar p.1.2 : Nat) : Int), -(accVar p.1.1 : Int)]]

def attackDefinitions (n : Nat) (pairs : List (Nat × Nat)) : List Clause :=
  pairs.zipIdx.flatMap (attackDefinition n)

def attacksClauses (n : Nat) (attackers : List (List Nat)) : List Clause :=
  let pairs := attackPairs attackers (List.range n)
  attackDefinitions n pairs ++
    [(List.range pairs.length).map fun k => (attackVar n k : Int)]

/-! ## Agreement -/

/-- A filled clause holds the computed literals and no leftover zero. -/
theorem fillClause_eq {n : Nat} {f : Nat → Option Int} {g : Nat → Int} (last : Int)
    (h : ∀ j < n, f j = some (g j)) :
    fillClause n f last = some ((List.range n).map g ++ [last]) := by
  have hfill : ∀ k ≤ n, (List.range k).foldlM (fun c j => do setAt c j (← f j))
      (List.replicate (n + 1) (0 : Int)) =
      some ((List.range k).map g ++ List.replicate (n + 1 - k) 0) := by
    intro k
    induction k with
    | zero =>
        intro _
        rfl
    | succ k ih =>
        intro hk
        rw [List.range_succ, List.foldlM_append, ih (by omega)]
        have hsub : n + 1 - k = (n - k) + 1 := by omega
        have hset := set_append_replicate ((List.range k).map g) (g k) 0 (n - k)
        simp only [List.length_map, List.length_range] at hset
        have hsub' : n + 1 - (k + 1) = n - k := by omega
        simp only [Option.bind_eq_bind, Option.bind_some, List.foldlM_cons, List.foldlM_nil,
          h k (by omega), hsub, hset, hsub', List.map_append, List.map_singleton]
        rfl
  have hlast := set_append_replicate ((List.range n).map g) last 0 0
  simp only [List.length_map, List.length_range, List.replicate_zero, List.append_nil] at hlast
  have hsub : n + 1 - n = 0 + 1 := by omega
  rw [fillClause, hfill n (Nat.le_refl n), hsub]
  exact hlast

/-- The clause filled from a list of attackers. -/
theorem fillClause_attackers {l : List Nat} {f : Nat → Option Int} {g : Nat → Int}
    (last : Int) (h : ∀ b ∈ l, f b = some (g b)) :
    fillClause l.length (fun j => do f (← l[j]?)) last =
      some (l.map g ++ [last]) := by
  have hfill := fillClause_eq (n := l.length)
    (f := fun j => do f (← l[j]?)) (g := fun j => g (l.getD j 0)) last
  rw [hfill]
  · congr 2
    apply List.ext_getElem
    · simp
    · intro j hj _
      simp only [List.length_map, List.length_range] at hj
      simp [hj]
  · intro j hj
    simp [hj, h _ (List.getElem_mem hj)]

section Agreement

variable {perfEnc : Bool} {af : AF} (h : AF.Ready perfEnc af)

include h

theorem attackerClauses_eq {i : Nat} :
    attackerClauses af (row af.attackers i) (accVar i) (rejVar af.args i) =
      some [outClause accVar (rejVar af.args) i (row af.attackers i),
        notoutClause accVar (rejVar af.args) i (row af.attackers i)] := by
  have hin := fillClause_attackers (l := row af.attackers i)
    (f := fun b => af.acceptedVar[b]?) (g := fun b => (accVar b : Int))
    (-(rejVar af.args i : Int))
    (fun b hb => h.acceptedVar_get (h.attackers_lt i b hb))
  have hnotout := fillClause_attackers (l := row af.attackers i)
    (f := fun b => do
      let rejB ← af.rejectedVar[b]?
      return -rejB)
    (g := fun b => -(rejVar af.args b : Int)) (accVar i : Int)
    (fun b hb => by simp [h.rejectedVar_get (h.attackers_lt i b hb)])
  rw [attackerClauses, hin]
  simp only [Option.bind_eq_bind, Option.bind_some] at hnotout ⊢
  rw [hnotout]
  rfl

theorem admissibleArg_eq (off : Nat) {i : Nat} (hi : i < af.args) :
    admissibleArg af (off : Int) i =
      some (let A := fun i => off + accVar i
        let R := fun i => off + rejVar af.args i
        if (row af.attackers i).isEmpty then [[-(A i : Int), -(R i : Int)], [(A i : Int)]]
        else [-(A i : Int), -(R i : Int)] :: defendClauses A R i (row af.attackers i) ++
          [outClause A R i (row af.attackers i)]) := by
  have hdef := mapM_eq_map (l := row af.attackers i)
    (f := fun b => do
      let rejB ← af.rejectedVar[b]?
      return [-((off : Int) + (accVar i : Int)), (off : Int) + rejB])
    (g := fun b => [-((off : Int) + (accVar i : Int)), (off : Int) + (rejVar af.args b : Int)])
    (fun b hb => by simp [h.rejectedVar_get (h.attackers_lt i b hb)])
  have hout := fillClause_attackers (l := row af.attackers i)
    (f := fun b => do
      let accB ← af.acceptedVar[b]?
      return (off : Int) + accB)
    (g := fun b => (off : Int) + (accVar b : Int))
    (-((off : Int) + (rejVar af.args i : Int)))
    (fun b hb => by simp [h.acceptedVar_get (h.attackers_lt i b hb)])
  simp only [Option.bind_eq_bind, Option.pure_def] at hdef hout
  cases hempty : (row af.attackers i).isEmpty with
  | true =>
      simp [admissibleArg, h.acceptedVar_get hi, h.rejectedVar_get hi,
        h.unattacked_get hi, hempty]
  | false =>
      simp only [admissibleArg, Option.bind_eq_bind, Option.bind_some, Option.pure_def,
        h.acceptedVar_get hi, h.rejectedVar_get hi, h.unattacked_get hi, h.attackers_get hi,
        hempty, Bool.false_eq_true, if_false, hdef, hout, defendClauses, outClause,
        Int.natCast_add]

theorem admissible_eq (isAttackedSet : Bool) :
    admissible af isAttackedSet =
      some (let off := if isAttackedSet then 2 * af.args else 0
        admissibleClauses af.args af.attackers (fun i => off + accVar i)
          (fun i => off + rejVar af.args i)) := by
  have hoff : (if isAttackedSet then ((2 * af.args : Nat) : Int) else 0) =
      ((if isAttackedSet then 2 * af.args else 0 : Nat) : Int) := by
    split <;> rfl
  rw [admissible, hoff]
  rw [mapM_eq_map (fun i hi => admissibleArg_eq h _ (List.mem_range.mp hi))]
  simp [admissibleClauses, List.flatMap_def]

theorem completePerfArg_eq {i : Nat} (hi : i < af.args) :
    completePerfArg af i =
      some (let A := accVar
        let R := rejVar af.args
        if (row af.attackers i).isEmpty then [[-(A i : Int), -(R i : Int)], [(A i : Int)]]
        else [-(A i : Int), -(R i : Int)] ::
          ((row af.attackers i).flatMap fun b =>
            [[-(A i : Int), (R b : Int)], [-(A b : Int), (R i : Int)]]) ++
          [outClause A R i (row af.attackers i), notoutClause A R i (row af.attackers i)]) := by
  have hpairs := mapM_eq_map (l := row af.attackers i)
    (f := fun b => do
      let rejB ← af.rejectedVar[b]?
      let accB ← af.acceptedVar[b]?
      return ([[-(accVar i : Int), rejB], [-accB, (rejVar af.args i : Int)]] : List Clause))
    (g := fun b => [[-(accVar i : Int), (rejVar af.args b : Int)],
      [-(accVar b : Int), (rejVar af.args i : Int)]])
    (fun b hb => by
      simp [h.rejectedVar_get (h.attackers_lt i b hb),
        h.acceptedVar_get (h.attackers_lt i b hb)])
  simp only [Option.bind_eq_bind, Option.pure_def] at hpairs
  cases hempty : (row af.attackers i).isEmpty with
  | true =>
      simp [completePerfArg, h.acceptedVar_get hi, h.rejectedVar_get hi,
        h.unattacked_get hi, hempty]
  | false =>
      simp only [completePerfArg, Option.bind_eq_bind, Option.bind_some, Option.pure_def,
        h.acceptedVar_get hi, h.rejectedVar_get hi, h.unattacked_get hi, h.attackers_get hi,
        hempty, Bool.false_eq_true, if_false, hpairs, attackerClauses_eq h,
        List.flatMap_def]

theorem complete_perf_eq :
    complete true af =
      some (completePerfClauses af.args af.attackers accVar (rejVar af.args)) := by
  rw [complete, if_pos rfl, mapM_eq_map (fun i hi => completePerfArg_eq h (List.mem_range.mp hi))]
  simp [completePerfClauses, List.flatMap_def]

/-- The loop of the clauses `acc → rejected attacker`, common to three encodings. -/
theorem defended_eq (i : Nat) :
    (row af.attackers i).mapM (fun b => (af.rejectedVar[b]?).bind
        fun rejB => some [-(accVar i : Int), rejB]) =
      some (defendClauses accVar (rejVar af.args) i (row af.attackers i)) :=
  mapM_eq_map (fun b hb => by simp [h.rejectedVar_get (h.attackers_lt i b hb)])

theorem stableArg_eq {i : Nat} (hi : i < af.args) :
    stableArg af i =
      some (let A := accVar
        let R := rejVar af.args
        [[-(A i : Int), -(R i : Int)], [(A i : Int), (R i : Int)]] ++
        if (row af.attackers i).isEmpty then [[(A i : Int)]]
        else defendClauses A R i (row af.attackers i) ++
          [outClause A R i (row af.attackers i), notoutClause A R i (row af.attackers i)]) := by
  cases hempty : (row af.attackers i).isEmpty with
  | true =>
      simp [stableArg, h.acceptedVar_get hi, h.rejectedVar_get hi,
        h.unattacked_get hi, hempty]
  | false =>
      simp only [stableArg, Option.bind_eq_bind, Option.bind_some, Option.pure_def,
        h.acceptedVar_get hi, h.rejectedVar_get hi, h.unattacked_get hi, h.attackers_get hi,
        hempty, Bool.false_eq_true, if_false, defended_eq h, attackerClauses_eq h,
        List.append_assoc]

theorem stable_eq :
    stable af = some (stableClauses af.args af.attackers accVar (rejVar af.args)) := by
  rw [stable, mapM_eq_map (fun i hi => stableArg_eq h (List.mem_range.mp hi))]
  simp [stableClauses, List.flatMap_def]

/-- The local variables after the attacks `pre` have been visited. -/
def visited (af : AF) (pre : List (Nat × Nat)) : AttacksState where
  clauses := attackDefinitions af.args pre
  attacksClause := (List.range pre.length).map (fun k => (attackVar af.args k : Int)) ++
    List.replicate (af.attacks - pre.length) 0
  attackIdx := pre.length
  attackVar := (attackVar af.args pre.length : Int)

theorem attacksStep_visited {pre : List (Nat × Nat)} {b i : Nat}
    (hlen : pre.length < af.attacks) (hb : b < af.args) (hi : i < af.args) :
    attacksStep af ((2 * af.args : Nat) : Int) i (visited af pre) b =
      some (visited af (pre ++ [(b, i)])) := by
  obtain ⟨k, hk⟩ : ∃ k, af.attacks - pre.length = k + 1 :=
    ⟨af.attacks - pre.length - 1, by omega⟩
  have hk' : af.attacks - (pre.length + 1) = k := by omega
  have hset := set_append_replicate
    ((List.range pre.length).map fun k => (attackVar af.args k : Int))
    (attackVar af.args pre.length : Int) 0 k
  simp only [List.length_map, List.length_range] at hset
  have hvar : (attackVar af.args pre.length : Int) + 1 =
      (attackVar af.args (pre.length + 1) : Int) := by
    simp only [attackVar]
    omega
  simp only [attacksStep, visited, hk, hset, h.acceptedVar_get hb, h.acceptedVar_get hi,
    Option.bind_eq_bind, Option.bind_some, Option.pure_def, List.length_append,
    List.length_singleton, hk', hvar, List.range_succ, List.map_append, List.map_singleton]
  simp [attackDefinitions, attackDefinition, List.zipIdx_append]

theorem foldlM_attacksStep {i : Nat} (hi : i < af.args) (bs : List Nat)
    (hbs : ∀ b ∈ bs, b < af.args) (pre : List (Nat × Nat))
    (hlen : pre.length + bs.length ≤ af.attacks) :
    bs.foldlM (attacksStep af ((2 * af.args : Nat) : Int) i) (visited af pre) =
      some (visited af (pre ++ bs.map fun b => (b, i))) := by
  induction bs generalizing pre with
  | nil => simp
  | cons b bs ih =>
      simp only [List.length_cons] at hlen
      rw [List.foldlM_cons, attacksStep_visited h (by omega) (hbs b (by simp)) hi]
      simp only [Option.bind_eq_bind, Option.bind_some]
      rw [ih (fun b' hb' => hbs b' (by simp [hb'])) _ (by simp; omega)]
      simp

theorem length_attackPairs :
    (attackPairs af.attackers (List.range af.args)).length = af.attacks := by
  have hrows : (List.range af.args).map (row af.attackers) = af.attackers := by
    apply List.ext_getElem
    · simp [h.attackers_length]
    · intro k hk hk'
      simp [row, hk']
  rw [attackPairs, List.length_flatMap, h.attacks_eq]
  simp only [List.length_map]
  conv_rhs => rw [← hrows]
  rw [List.map_map]
  rfl

theorem foldlM_attacks (k : Nat) (hk : k ≤ af.args) :
    (List.range k).foldlM
      (fun st i => do
        (← af.attackers[i]?).foldlM (attacksStep af ((2 * af.args : Nat) : Int) i) st)
      (visited af []) = some (visited af (attackPairs af.attackers (List.range k))) := by
  have hbound : ∀ k ≤ af.args,
      (attackPairs af.attackers (List.range k)).length ≤ af.attacks := by
    intro k hk
    rw [← length_attackPairs h]
    obtain ⟨d, hd⟩ := Nat.exists_eq_add_of_le hk
    rw [hd, List.range_add]
    simp [attackPairs]
  induction k with
  | zero => rfl
  | succ k ih =>
      have hkn : k < af.args := by omega
      have hlen : (attackPairs af.attackers (List.range k)).length +
          (row af.attackers k).length ≤ af.attacks := by
        simpa [List.range_succ, attackPairs] using hbound (k + 1) hk
      rw [List.range_succ, List.foldlM_append, ih (by omega)]
      simp only [Option.bind_eq_bind, Option.bind_some, List.foldlM_cons, List.foldlM_nil,
        h.attackers_get hkn]
      rw [foldlM_attacksStep h hkn _ (h.attackers_lt k) _ hlen]
      simp [attackPairs]

theorem attacks_eq : attacks af = some (attacksClauses af.args af.attackers) := by
  have hfold := foldlM_attacks h af.args (Nat.le_refl _)
  have hinit : visited af [] =
      { clauses := [], attacksClause := List.replicate af.attacks 0, attackIdx := 0,
        attackVar := ((2 * af.args : Nat) : Int) + ((2 * af.args : Nat) : Int) + 1 } := by
    simp only [visited, attackDefinitions, attackVar, List.zipIdx_nil, List.flatMap_nil,
      List.length_nil, List.range_zero, List.map_nil, List.nil_append, Nat.sub_zero]
    congr 1
    omega
  rw [hinit] at hfold
  rw [attacks, hfold]
  simp only [Option.bind_eq_bind, Option.bind_some, Option.pure_def, visited, attacksClauses,
    length_attackPairs h, Nat.sub_self, List.replicate_zero, List.append_nil]

end Agreement

section UndecidedAgreement

variable {af : AF} (h : AF.Ready false af)

include h

theorem completeArg_eq {i : Nat} (hi : i < af.args) :
    completeArg af i =
      some (let A := accVar
        let R := rejVar af.args
        let U := undVar af.args
        [[(A i : Int), (R i : Int), (U i : Int)], [-(A i : Int), -(R i : Int)],
          [-(A i : Int), -(U i : Int)], [-(R i : Int), -(U i : Int)]] ++
        if (row af.attackers i).isEmpty then [[(A i : Int)]]
        else defendClauses A R i (row af.attackers i) ++
          [outClause A R i (row af.attackers i), notoutClause A R i (row af.attackers i)]) := by
  cases hempty : (row af.attackers i).isEmpty with
  | true =>
      simp [completeArg, h.acceptedVar_get hi, h.rejectedVar_get hi, h.undecidedVar_get hi,
        h.unattacked_get hi, hempty]
  | false =>
      simp only [completeArg, Option.bind_eq_bind, Option.bind_some, Option.pure_def,
        h.acceptedVar_get hi, h.rejectedVar_get hi, h.undecidedVar_get hi, h.unattacked_get hi,
        h.attackers_get hi, hempty, Bool.false_eq_true, if_false, defended_eq h,
        attackerClauses_eq h, List.append_assoc]

theorem complete_eq :
    complete false af =
      some (completeClauses af.args af.attackers accVar (rejVar af.args)
        (undVar af.args)) := by
  rw [complete, if_neg (by decide),
    mapM_eq_map (fun i hi => completeArg_eq h (List.mem_range.mp hi))]
  simp [completeClauses, List.flatMap_def]

end UndecidedAgreement

end Encodings

end AcceptableArguments
