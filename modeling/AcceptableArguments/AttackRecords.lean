import AcceptableArguments.AF
import Mathlib.Data.List.Induction

/-!
# What the attack structures record

`add_attack` updates seven redundant structures. After any sequence of calls they
describe one list: the pairs of indices that the attacks with two known names denote,
in the order of the calls and with repetitions.
-/

namespace AcceptableArguments.AF

open Imperative

/-- The index that a name denotes is that of the last argument with this name. -/
def indexOf (names : List String) (s : String) : Option Nat :=
  ((List.range names.length).filter (fun i => decide (names[i]? = some s))).getLast?

/-- The indices that an attack denotes, if both names are known. -/
def denoted (names : List String) (att : String × String) : Option (Nat × Nat) := do
  return (← indexOf names att.1, ← indexOf names att.2)

/-- The attack structures describe the list of pairs. -/
structure Records (af : AF) (pairs : List (Nat × Nat)) : Prop extends Shape af where
  attacks_length : af.attacks = pairs.length
  count_attackers : ∀ i j, (row af.attackers i).count j = pairs.count (j, i)
  count_attacked : ∀ i j, (row af.attacked j).count i = pairs.count (j, i)
  selfAttack_get : ∀ i < af.args, af.selfAttack[i]? = some (decide ((i, i) ∈ pairs))
  attExists_eq : ∀ p, af.attExists p = if p ∈ pairs then some true else none
  symmetricAttack_eq : ∀ p, af.symmetricAttack p =
    if p ∈ pairs then some (decide (p.swap ∈ pairs)) else none

/-! ## Names -/

theorem indexOf_append (names : List String) (arg s : String) :
    indexOf (names ++ [arg]) s = if s = arg then some names.length else indexOf names s := by
  have hold : ∀ i ∈ List.range names.length,
      decide ((names ++ [arg])[i]? = some s) = decide (names[i]? = some s) := by
    intro i hi
    rw [List.getElem?_append_left (List.mem_range.mp hi)]
  have hnew : (names ++ [arg])[names.length]? = some arg := by simp
  unfold indexOf
  rw [List.length_append, List.length_singleton, List.range_succ, List.filter_append,
    List.filter_congr hold, List.getLast?_append]
  by_cases hs : s = arg
  · simp [hs]
  · have hne : arg ≠ s := fun h => hs h.symm
    simp [hs, hne]

theorem indexOf_eq_none_iff {names : List String} {s : String} :
    indexOf names s = none ↔ s ∉ names := by
  induction names using List.reverseRecOn with
  | nil => simp [indexOf]
  | append_singleton names arg ih =>
      rw [indexOf_append]
      by_cases hs : s = arg
      · simp [hs]
      · simp [hs, ih]

theorem denoted_eq_none {names : List String} {att : String × String}
    (h : att.1 ∉ names ∨ att.2 ∉ names) : denoted names att = none := by
  rcases h with h | h
  · simp [denoted, indexOf_eq_none_iff.mpr h]
  · simp [denoted, indexOf_eq_none_iff.mpr h]

/-- The map of the names holds what each name denotes. -/
theorem argToInt_foldl_addArgument (names : List String) :
    (names.foldl addArgument empty).argToInt = indexOf names := by
  induction names using List.reverseRecOn with
  | nil =>
      funext s
      simp [indexOf, empty]
  | append_singleton names arg ih =>
      funext s
      have hargs := (named_foldl_addArgument names).args_eq
      rw [List.foldl_append, indexOf_append]
      simp only [List.foldl_cons, List.foldl_nil, addArgument, ih, hargs]

/-! ## One attack -/

theorem records_initializeAttackers (names : List String) :
    Records (names.foldl addArgument empty).initializeAttackers [] := by
  have hn := named_foldl_addArgument names
  obtain ⟨hexists, hsym⟩ : (names.foldl addArgument empty).attExists = (fun _ => none) ∧
      (names.foldl addArgument empty).symmetricAttack = fun _ => none := by
    induction names using List.reverseRecOn with
    | nil => exact ⟨rfl, rfl⟩
    | append_singleton names arg ih =>
        rw [List.foldl_append]
        exact ih (named_foldl_addArgument names)
  refine ⟨shape_initializeAttackers hn, hn.attacks_eq, ?_, ?_, ?_, ?_, ?_⟩
  · simp [initializeAttackers, hn.attackers_eq, resize_nil, row_replicate]
  · simp [initializeAttackers, hn.attacked_eq, resize_nil, row_replicate]
  · intro i hi
    have hi' : i < (names.foldl addArgument empty).args := hi
    simp [initializeAttackers, hn.selfAttack_eq, resize_nil, hi']
  · simp [initializeAttackers, hexists]
  · simp [initializeAttackers, hsym]

/-- Pushing `x` onto row `i` counts as one more occurrence of `x` there. -/
theorem count_row_push {l : List (List Nat)} {i : Nat} (hi : i < l.length) (x k y : Nat) :
    (row (l.modify i (· ++ [x])) k).count y =
      (row l k).count y + if k = i ∧ y = x then 1 else 0 := by
  rw [row_modify hi]
  by_cases hk : k = i
  · by_cases hy : y = x
    · simp [hk, hy]
    · have hxy : x ≠ y := fun h => hy h.symm
      simp [hk, hy, hxy]
  · simp [hk]

theorem count_append_pair (pairs : List (Nat × Nat)) (source target j i : Nat) :
    (pairs ++ [(source, target)]).count (j, i) =
      pairs.count (j, i) + if j = source ∧ i = target then 1 else 0 := by
  rw [List.count_append]
  congr 1
  by_cases hpair : j = source ∧ i = target
  · rw [if_pos hpair, hpair.1, hpair.2, List.count_singleton_self]
  · rw [if_neg hpair, List.count_eq_zero, List.mem_singleton, Prod.mk.injEq]
    exact hpair

/-- The patch of `symmetric_attack` keeps its law, whichever direction came first. -/
theorem symmetricAttack_withAttack {af : AF} {pairs : List (Nat × Nat)} (h : Records af pairs)
    (source target : Nat) (p : Nat × Nat) :
    (af.withAttack source target).symmetricAttack p =
      if p ∈ pairs ++ [(source, target)] then
        some (decide (p.swap ∈ pairs ++ [(source, target)])) else none := by
  have hreverse : ((if (target, source) = (source, target) then some true
      else af.attExists (target, source)).isSome = true) ↔
      (target, source) ∈ pairs ++ [(source, target)] := by
    rw [h.attExists_eq]
    by_cases heq : (target, source) = (source, target) <;>
      by_cases hmem : (target, source) ∈ pairs <;> simp [heq, hmem]
  have hswap : ∀ q : Nat × Nat, p.swap = q ↔ p = q.swap := by
    intro q
    constructor
    · intro hq
      rw [← hq, Prod.swap_swap]
    · intro hq
      rw [hq, Prod.swap_swap]
  simp only [withAttack]
  by_cases hrev : (target, source) ∈ pairs ++ [(source, target)]
  · rw [if_pos (hreverse.mpr hrev)]
    by_cases hp : p = (source, target)
    · simp only [hp, true_or, if_true, Prod.swap_prod_mk, hrev, decide_true,
        List.mem_append, List.mem_singleton, or_true]
    · by_cases hq : p = (target, source)
      · have hback : (source, target) ∈ pairs ++ [(source, target)] := by simp
        simp only [hq, or_true, if_true, Prod.swap_prod_mk, hrev, hback, decide_true]
      · -- Neither `p` nor its reverse is the new pair.
        have hps : p.swap ≠ (source, target) := fun h' => hq ((hswap _).mp h')
        simp [hp, hq, hps, h.symmetricAttack_eq]
  · rw [if_neg (fun h' => hrev (hreverse.mp h'))]
    have hold : (target, source) ∉ pairs := fun h' => hrev (List.mem_append_left _ h')
    by_cases hp : p = (source, target)
    · simp only [hp, if_true, Prod.swap_prod_mk, hrev, decide_false, List.mem_append,
        List.mem_singleton, or_true]
    · by_cases hq : p = (target, source)
      · simp [hq, hrev, hold, h.symmetricAttack_eq, hq ▸ hp]
      · have hps : p.swap ≠ (source, target) := fun h' => hq ((hswap _).mp h')
        simp [hp, hps, h.symmetricAttack_eq]

/-- One known attack is one more pair. -/
theorem records_withAttack {af : AF} {pairs : List (Nat × Nat)} (h : Records af pairs)
    {source target : Nat} (hs : source < af.args) (ht : target < af.args) :
    Records (af.withAttack source target) (pairs ++ [(source, target)]) := by
  have htl : target < af.attackers.length := h.attackers_length ▸ ht
  have hsl : source < af.attacked.length := h.attacked_length ▸ hs
  refine ⟨shape_withAttack h.toShape hs ht, ?_, ?_, ?_, ?_, ?_,
    symmetricAttack_withAttack h source target⟩
  · rw [List.length_append, ← h.attacks_length]
    rfl
  · intro i j
    rw [count_append_pair, ← h.count_attackers]
    simp only [withAttack, count_row_push htl, and_comm]
  · intro i j
    rw [count_append_pair, ← h.count_attacked]
    simp only [withAttack, count_row_push hsl]
  · intro i hi
    have hold := h.selfAttack_get i hi
    simp only [withAttack]
    by_cases hst : source = target
    · subst hst
      rw [if_pos rfl, List.getElem?_set, h.selfAttack_length, hold]
      by_cases hi' : source = i
      · simp [hi', hi' ▸ hs]
      · have hne : i ≠ source := fun h' => hi' h'.symm
        simp [hi', hne]
    · have hne : (i, i) ≠ (source, target) := by
        intro h'
        cases h'
        exact hst rfl
      rw [if_neg hst, hold]
      simp [hne]
  · intro p
    simp only [withAttack, h.attExists_eq, List.mem_append, List.mem_singleton]
    by_cases hp : p = (source, target) <;> simp [hp]

/-! ## Sequences of attacks -/

/-- A name without an argument makes `add_attack` return at once. -/
theorem addAttack_of_denoted_eq_none {names : List String} {af : AF}
    (hmap : af.argToInt = indexOf names) {att : String × String}
    (hatt : denoted names att = none) : af.addAttack att = some af := by
  unfold addAttack
  rw [hmap]
  cases hs : indexOf names att.1 with
  | none => rfl
  | some source =>
      cases ht : indexOf names att.2 with
      | none => rfl
      | some target => simp [denoted, hs, ht] at hatt

theorem addAttack_of_denoted_eq_some {names : List String} {af : AF}
    {pairs : List (Nat × Nat)} (h : Records af pairs) (hmap : af.argToInt = indexOf names)
    {att : String × String} {p : Nat × Nat} (hatt : denoted names att = some p) :
    af.addAttack att = some (af.withAttack p.1 p.2) ∧
      Records (af.withAttack p.1 p.2) (pairs ++ [p]) := by
  obtain ⟨source, hs, hatt⟩ := Option.bind_eq_some_iff.mp hatt
  obtain ⟨target, ht, hatt⟩ := Option.bind_eq_some_iff.mp hatt
  cases hatt
  rw [← hmap] at hs ht
  have hsl := h.argToInt_lt _ _ hs
  have htl := h.argToInt_lt _ _ ht
  refine ⟨?_, records_withAttack h hsl htl⟩
  simp [addAttack, hs, ht, insertAttack_eq h.toShape hsl htl]

/-- After any attacks the structures describe the pairs that were denoted. -/
theorem read_records (names : List String) (atts : List (String × String)) :
    ∃ af, read names atts = some af ∧ Records af (atts.filterMap (denoted names)) ∧
      SameNames (names.foldl addArgument empty) af := by
  induction atts using List.reverseRecOn with
  | nil => exact ⟨_, rfl, records_initializeAttackers names, ⟨rfl, rfl, rfl, rfl, rfl, rfl, rfl⟩⟩
  | append_singleton atts att ih =>
      obtain ⟨af, haf, hrec, hsame⟩ := ih
      have hmap : af.argToInt = indexOf names :=
        hsame.argToInt_eq.trans (argToInt_foldl_addArgument names)
      have hread : read names (atts ++ [att]) = af.addAttack att := by
        unfold read at haf ⊢
        rw [List.foldlM_append, haf]
        simp
      rw [hread, List.filterMap_append]
      cases hatt : denoted names att with
      | none =>
          refine ⟨af, addAttack_of_denoted_eq_none hmap hatt, ?_, hsame⟩
          simpa [hatt] using hrec
      | some p =>
          obtain ⟨hadd, hrec'⟩ := addAttack_of_denoted_eq_some hrec hmap hatt
          refine ⟨_, hadd, ?_, hsame.trans ⟨rfl, rfl, rfl, rfl, rfl, rfl, rfl⟩⟩
          simpa [hatt] using hrec'

/-- After `add_argument* ; initialize_attackers ; add_attack*` every structure has one
entry per argument, `attackers` and `attacked` list each pair as often as it was
denoted, the flags, the counter and the two maps agree with them, and an attack with
an unknown name changes nothing. The counters do not wrap. -/
theorem attack_structures_agree (names : List String) (atts : List (String × String)) :
    ∃ af, read names atts = some af ∧ af.args = names.length ∧
      (af.attackers.length = af.args ∧ af.attacked.length = af.args ∧
        af.unattacked.length = af.args ∧ af.selfAttack.length = af.args) ∧
      (∀ i, ∀ j ∈ row af.attackers i, j < af.args) ∧
      (∀ j, ∀ i ∈ row af.attacked j, i < af.args) ∧
      (∀ i j, (row af.attackers i).count j = (row af.attacked j).count i ∧
        (row af.attackers i).count j = (atts.filterMap (denoted names)).count (j, i)) ∧
      (∀ i < af.args, af.unattacked[i]? = some (decide (af.attackers[i]? = some []))) ∧
      (∀ i < af.args, af.selfAttack[i]? = some (decide (i ∈ row af.attackers i))) ∧
      af.attacks = (af.attackers.map List.length).sum ∧
      (∀ p, af.attExists p =
        if p ∈ atts.filterMap (denoted names) then some true else none) ∧
      (∀ p, af.symmetricAttack p =
        if p ∈ atts.filterMap (denoted names) then
          some (decide (p.swap ∈ atts.filterMap (denoted names)))
        else none) ∧
      ∀ att : String × String, att.1 ∉ names ∨ att.2 ∉ names → af.addAttack att = some af := by
  obtain ⟨af, haf, hrec, hsame⟩ := read_records names atts
  have hargs : af.args = names.length :=
    hsame.args_eq.trans (named_foldl_addArgument names).args_eq
  have hmap : af.argToInt = indexOf names :=
    hsame.argToInt_eq.trans (argToInt_foldl_addArgument names)
  have hmem : ∀ i j, j ∈ row af.attackers i ↔ (j, i) ∈ atts.filterMap (denoted names) := by
    intro i j
    rw [← List.count_pos_iff, hrec.count_attackers, List.count_pos_iff]
  refine ⟨af, haf, hargs, ⟨hrec.attackers_length, hrec.attacked_length,
    hrec.unattacked_length, hrec.selfAttack_length⟩, hrec.attackers_lt, ?_, ?_, ?_, ?_,
    hrec.attacks_eq, hrec.attExists_eq, hrec.symmetricAttack_eq, ?_⟩
  · intro j i hi
    have hrow := (mem_of_mem_row ((hrec.attacked_iff j i).mp hi)).1
    rwa [hrec.attackers_length] at hrow
  · intro i j
    exact ⟨(hrec.count_attackers i j).trans (hrec.count_attacked i j).symm,
      hrec.count_attackers i j⟩
  · intro i hi
    have hil : i < af.attackers.length := hrec.attackers_length ▸ hi
    rw [hrec.unattacked_eq, List.getElem?_map, getElem?_eq_row hil]
    cases row af.attackers i <;> simp
  · intro i hi
    simp only [hrec.selfAttack_get i hi, hmem]
  · intro att hatt
    exact addAttack_of_denoted_eq_none hmap (denoted_eq_none hatt)

end AcceptableArguments.AF
