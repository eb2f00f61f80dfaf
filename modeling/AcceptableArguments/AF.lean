import AcceptableArguments.Imperative.Vectors
import Mathlib.Algebra.BigOperators.Group.List.Basic

/-!
# The argumentation framework as the readers build it

Arguments are numbered in the order in which their names arrive. Vectors are
lists, an access outside a vector is `none`, and the two hash maps over pairs
and the one over names are functions into `Option`. The fields that exist only
in the FUDGE build (`attacked`) and only without PERF_ENC (`undecidedVar`) are
always present; the latter stays empty in the PERF_ENC build.

The counters `args`, `count` and `attacks` are natural numbers. They are those of the
machine in every sequence of fewer than `2 ^ 32` calls, and statements about longer ones are
about the model only. That `count` does not overflow is part of the bounds on the literals.
-/

namespace AcceptableArguments

open Imperative

inductive Semantics where
  | CO | ST | PR | UNKNOWN_SEM
  deriving DecidableEq, Repr

structure AF where
  args : Nat
  count : Nat
  attacks : Nat
  intToArg : List String
  argToInt : String → Option Nat
  attackers : List (List Nat)
  attacked : List (List Nat)
  unattacked : List Bool
  selfAttack : List Bool
  attExists : Nat × Nat → Option Bool
  symmetricAttack : Nat × Nat → Option Bool
  acceptedVar : List Int
  rejectedVar : List Int
  undecidedVar : List Int

/-! ## Variable numbers -/

/-- The variable for acceptance of argument `i`. -/
def accVar (i : Nat) : Nat := i + 1

/-- The variable for rejection of argument `i` among `n`. -/
def rejVar (n i : Nat) : Nat := n + i + 1

/-- The variable for undecidedness of argument `i` among `n`. -/
def undVar (n i : Nat) : Nat := 2 * n + i + 1

/-! ## The operations -/

namespace AF

/-- `AF::AF`. -/
def empty : AF where
  args := 0
  count := 0
  attacks := 0
  intToArg := []
  argToInt := fun _ => none
  attackers := []
  attacked := []
  unattacked := []
  selfAttack := []
  attExists := fun _ => none
  symmetricAttack := fun _ => none
  acceptedVar := []
  rejectedVar := []
  undecidedVar := []

/-- `AF::add_argument`. -/
def addArgument (af : AF) (arg : String) : AF :=
  { af with
    intToArg := af.intToArg ++ [arg]
    argToInt := fun s => if s = arg then some af.args else af.argToInt s
    args := af.args + 1 }

/-- The part of `AF::add_attack` after both names have been found. -/
def insertAttack (af : AF) (source target : Nat) : Option AF := do
  let attackers ← pushAt af.attackers target source
  let attacked ← pushAt af.attacked source target
  let unattacked ← setAt af.unattacked target false
  let selfAttack ←
    if source = target then setAt af.selfAttack source true else some af.selfAttack
  let attExists := fun p => if p = (source, target) then some true else af.attExists p
  let symmetricAttack :=
    if (attExists (target, source)).isSome then
      fun p => if p = (source, target) ∨ p = (target, source) then some true
        else af.symmetricAttack p
    else fun p => if p = (source, target) then some false else af.symmetricAttack p
  return { af with
    attackers := attackers
    attacked := attacked
    unattacked := unattacked
    selfAttack := selfAttack
    attacks := af.attacks + 1
    attExists := attExists
    symmetricAttack := symmetricAttack }

/-- `AF::add_attack`. -/
def addAttack (af : AF) (att : String × String) : Option AF :=
  match af.argToInt att.1, af.argToInt att.2 with
  | some source, some target => af.insertAttack source target
  | _, _ => some af

/-- `AF::initialize_attackers`. -/
def initializeAttackers (af : AF) : AF :=
  { af with
    attackers := resize af.attackers af.args []
    attacked := resize af.attacked af.args []
    unattacked := resize af.unattacked af.args true
    selfAttack := resize af.selfAttack af.args false }

/-- One of the numbering loops of `AF::initialize_vars`: the entries of the
resized vector become the next values of the counter. -/
def numberVars (vars : List Int) (args count : Nat) : List Int × Nat :=
  (List.range args).foldl
    (fun (st : List Int × Nat) i => (st.1.set i ((st.2 + 1 : Nat) : Int), st.2 + 1))
    (resize vars args 0, count)

/-- `AF::initialize_vars`. -/
def initializeVars (perfEnc : Bool) (af : AF) : AF :=
  let (accepted, count) := numberVars af.acceptedVar af.args af.count
  let (rejected, count) := numberVars af.rejectedVar af.args count
  if perfEnc then
    { af with acceptedVar := accepted, rejectedVar := rejected, count := count }
  else
    let (undecided, count) := numberVars af.undecidedVar af.args count
    { af with
      acceptedVar := accepted, rejectedVar := rejected, undecidedVar := undecided
      count := count }

/-- The calls `add_argument* ; initialize_attackers ; add_attack*`. -/
def read (names : List String) (atts : List (String × String)) : Option AF :=
  atts.foldlM addAttack (names.foldl addArgument empty).initializeAttackers

/-- The calls `add_argument* ; initialize_attackers ; add_attack* ; initialize_vars`. -/
def build (perfEnc : Bool) (names : List String) (atts : List (String × String)) :
    Option AF :=
  (read names atts).map (initializeVars perfEnc)

/-- The attack relation that `attackers` stores. -/
def attOf (n : Nat) (attackers : List (List Nat)) (j i : Fin n) : Prop :=
  j.val ∈ row attackers i

instance (n : Nat) (attackers : List (List Nat)) (j i : Fin n) :
    Decidable (attOf n attackers j i) :=
  inferInstanceAs (Decidable (j.val ∈ row attackers i))

/-- The attack relation on the argument indices. -/
abbrev att (af : AF) : Fin af.args → Fin af.args → Prop := attOf af.args af.attackers

/-- The name under which an argument is reported. -/
def name (af : AF) (i : Nat) : String := af.intToArg.getD i ""

/-! ## What the operations preserve -/

/-- The shape of the vectors between `initialize_attackers` and
`initialize_vars`. -/
structure Shape (af : AF) : Prop where
  intToArg_length : af.intToArg.length = af.args
  argToInt_lt : ∀ s i, af.argToInt s = some i → i < af.args
  attackers_length : af.attackers.length = af.args
  attacked_length : af.attacked.length = af.args
  selfAttack_length : af.selfAttack.length = af.args
  attackers_lt : ∀ i, ∀ j ∈ row af.attackers i, j < af.args
  unattacked_eq : af.unattacked = af.attackers.map List.isEmpty
  attacks_eq : af.attacks = (af.attackers.map List.length).sum
  attacked_iff : ∀ i j : Nat, j ∈ row af.attacked i ↔ i ∈ row af.attackers j

/-- The state before `initialize_attackers`. -/
structure Named (names : List String) (af : AF) : Prop where
  args_eq : af.args = names.length
  intToArg_eq : af.intToArg = names
  argToInt_lt : ∀ s i, af.argToInt s = some i → i < af.args
  count_eq : af.count = 0
  attacks_eq : af.attacks = 0
  attackers_eq : af.attackers = []
  attacked_eq : af.attacked = []
  unattacked_eq : af.unattacked = []
  selfAttack_eq : af.selfAttack = []
  acceptedVar_eq : af.acceptedVar = []
  rejectedVar_eq : af.rejectedVar = []
  undecidedVar_eq : af.undecidedVar = []

theorem argToInt_addArgument_lt {af : AF} (h : ∀ s i, af.argToInt s = some i → i < af.args)
    {arg : String} (s : String) (i : Nat) (hi : (af.addArgument arg).argToInt s = some i) :
    i < af.args + 1 := by
  simp only [addArgument] at hi
  split at hi
  · cases hi
    omega
  · exact Nat.lt_succ_of_lt (h s i hi)

theorem named_addArgument {names : List String} {af : AF} (h : Named names af)
    (arg : String) : Named (names ++ [arg]) (af.addArgument arg) := by
  constructor <;> try simp only [addArgument, h.count_eq, h.attacks_eq, h.attackers_eq,
    h.attacked_eq, h.unattacked_eq, h.selfAttack_eq, h.acceptedVar_eq, h.rejectedVar_eq,
    h.undecidedVar_eq]
  · simp [h.args_eq]
  · rw [h.intToArg_eq]
  · exact argToInt_addArgument_lt h.argToInt_lt

theorem named_foldl_addArgument (names : List String) :
    Named names (names.foldl addArgument empty) := by
  suffices h : ∀ (rest pre : List String) (af : AF), Named pre af →
      Named (pre ++ rest) (rest.foldl addArgument af) by
    simpa using h names [] empty (by constructor <;> simp [empty])
  intro rest
  induction rest with
  | nil =>
      intro pre af h
      simpa using h
  | cons arg rest ih =>
      intro pre af h
      simpa using ih (pre ++ [arg]) (af.addArgument arg) (named_addArgument h arg)

/-- The shape of the vectors while arguments arrive: the newest ones may lack entries. -/
structure Unsized (af : AF) : Prop where
  intToArg_length : af.intToArg.length = af.args
  argToInt_lt : ∀ s i, af.argToInt s = some i → i < af.args
  attackers_length : af.attackers.length ≤ af.args
  attacked_length : af.attacked.length ≤ af.args
  selfAttack_length : af.selfAttack.length ≤ af.args
  attackers_lt : ∀ i, ∀ j ∈ row af.attackers i, j < af.args
  unattacked_eq : af.unattacked = af.attackers.map List.isEmpty
  attacks_eq : af.attacks = (af.attackers.map List.length).sum
  attacked_iff : ∀ i j : Nat, j ∈ row af.attacked i ↔ i ∈ row af.attackers j

theorem Shape.unsized {af : AF} (h : Shape af) : Unsized af where
  intToArg_length := h.intToArg_length
  argToInt_lt := h.argToInt_lt
  attackers_length := Nat.le_of_eq h.attackers_length
  attacked_length := Nat.le_of_eq h.attacked_length
  selfAttack_length := Nat.le_of_eq h.selfAttack_length
  attackers_lt := h.attackers_lt
  unattacked_eq := h.unattacked_eq
  attacks_eq := h.attacks_eq
  attacked_iff := h.attacked_iff

theorem Named.unsized {names : List String} {af : AF} (h : Named names af) : Unsized af := by
  have hrow : ∀ i, row ([] : List (List Nat)) i = [] := fun i => row_replicate 0 i
  constructor <;> try simp only [h.attackers_eq, h.attacked_eq, h.unattacked_eq,
    h.selfAttack_eq, h.attacks_eq, hrow]
  · rw [h.intToArg_eq, h.args_eq]
  · exact h.argToInt_lt
  · exact Nat.zero_le _
  · exact Nat.zero_le _
  · exact Nat.zero_le _
  · simp
  · rfl
  · rfl
  · simp

theorem Unsized.addArgument {af : AF} (h : Unsized af) (arg : String) :
    Unsized (af.addArgument arg) where
  intToArg_length := by simp [AF.addArgument, h.intToArg_length]
  argToInt_lt := argToInt_addArgument_lt h.argToInt_lt
  attackers_length := Nat.le_succ_of_le h.attackers_length
  attacked_length := Nat.le_succ_of_le h.attacked_length
  selfAttack_length := Nat.le_succ_of_le h.selfAttack_length
  attackers_lt := fun i j hj => Nat.lt_succ_of_lt (h.attackers_lt i j hj)
  unattacked_eq := h.unattacked_eq
  attacks_eq := h.attacks_eq
  attacked_iff := h.attacked_iff

theorem Unsized.foldl_addArgument {af : AF} (h : Unsized af) (names : List String) :
    Unsized (names.foldl AF.addArgument af) := by
  induction names generalizing af with
  | nil => exact h
  | cons arg names ih => exact ih (h.addArgument arg)

/-- `initialize_attackers` gives the vectors their missing entries. -/
theorem Unsized.initializeAttackers {af : AF} (h : Unsized af) :
    Shape af.initializeAttackers := by
  have hlen : af.unattacked.length = af.attackers.length := by simp [h.unattacked_eq]
  have hle : af.unattacked.length ≤ af.args := hlen ▸ h.attackers_length
  constructor <;> simp only [AF.initializeAttackers, resize_of_le h.attackers_length,
    resize_of_le h.attacked_length, resize_of_le hle, resize_of_le h.selfAttack_length,
    row_append_replicate]
  · exact h.intToArg_length
  · exact h.argToInt_lt
  · simp [h.attackers_length]
  · simp [h.attacked_length]
  · simp [h.selfAttack_length]
  · exact h.attackers_lt
  · rw [hlen, List.map_append, ← h.unattacked_eq, List.map_replicate]
    rfl
  · simp [h.attacks_eq]
  · exact h.attacked_iff

/-- Both ways to find an argument agree. -/
def Known (af : AF) : Prop := ∀ s i, af.argToInt s = some i → af.intToArg[i]? = some s

theorem Known.addArgument {af : AF} (h : Known af) (hlen : af.intToArg.length = af.args)
    (arg : String) : Known (af.addArgument arg) := by
  intro s i hi
  simp only [AF.addArgument] at hi ⊢
  split at hi
  · cases hi
    simp_all
  · have hlt : i < af.intToArg.length := (List.getElem?_eq_some_iff.mp (h s i hi)).1
    rw [List.getElem?_append_left hlt]
    exact h s i hi

theorem Known.foldl_addArgument {af : AF} (h : Known af) (hlen : af.intToArg.length = af.args)
    (names : List String) : Known (names.foldl AF.addArgument af) := by
  induction names generalizing af with
  | nil => exact h
  | cons arg names ih =>
      refine ih (h.addArgument hlen arg) ?_
      simp [AF.addArgument, hlen]

theorem foldl_addArgument_intToArg (names : List String) (af : AF) :
    (names.foldl addArgument af).intToArg = af.intToArg ++ names := by
  induction names generalizing af with
  | nil => simp
  | cons arg names ih =>
      rw [List.foldl_cons, ih]
      simp [addArgument]

/-- New arguments change neither the attacks nor the counter of the variables. -/
theorem foldl_addArgument_frame (names : List String) (af : AF) :
    (names.foldl addArgument af).attackers = af.attackers ∧
      (names.foldl addArgument af).count = af.count := by
  induction names generalizing af with
  | nil => exact ⟨rfl, rfl⟩
  | cons arg names ih => exact ih (af.addArgument arg)

theorem isSome_argToInt_foldl (names : List String) (af : AF) (s : String) :
    ((names.foldl addArgument af).argToInt s).isSome ↔ s ∈ names ∨ (af.argToInt s).isSome := by
  induction names generalizing af with
  | nil => simp
  | cons arg names ih =>
      rw [List.foldl_cons, ih, List.mem_cons]
      simp only [addArgument]
      split <;> simp_all

theorem shape_initializeAttackers {names : List String} {af : AF} (h : Named names af) :
    Shape af.initializeAttackers := h.unsized.initializeAttackers

/-- The framework with one more attack, when both indices are in bounds. -/
def withAttack (af : AF) (source target : Nat) : AF :=
  let attExists := fun p => if p = (source, target) then some true else af.attExists p
  { af with
    attackers := af.attackers.modify target (· ++ [source])
    attacked := af.attacked.modify source (· ++ [target])
    unattacked := af.unattacked.set target false
    selfAttack := if source = target then af.selfAttack.set source true else af.selfAttack
    attacks := af.attacks + 1
    attExists := attExists
    symmetricAttack :=
      if (attExists (target, source)).isSome then
        fun p => if p = (source, target) ∨ p = (target, source) then some true
          else af.symmetricAttack p
      else fun p => if p = (source, target) then some false else af.symmetricAttack p }

theorem Shape.unattacked_length {af : AF} (h : Shape af) :
    af.unattacked.length = af.args := by
  simp [h.unattacked_eq, h.attackers_length]

theorem insertAttack_eq {af : AF} (h : Shape af) {source target : Nat}
    (hs : source < af.args) (ht : target < af.args) :
    af.insertAttack source target = some (af.withAttack source target) := by
  by_cases hst : source = target
  · subst hst
    simp [insertAttack, withAttack, pushAt, setAt, h.attackers_length, h.attacked_length,
      h.unattacked_length, h.selfAttack_length, hs]
  · simp [insertAttack, withAttack, pushAt, setAt, h.attackers_length, h.attacked_length,
      h.unattacked_length, hs, ht, hst]

/-- One known attack keeps the shape. -/
theorem shape_withAttack {af : AF} (h : Shape af) {source target : Nat}
    (hs : source < af.args) (ht : target < af.args) :
    Shape (af.withAttack source target) := by
  have htl : target < af.attackers.length := h.attackers_length ▸ ht
  have hsl : source < af.attacked.length := h.attacked_length ▸ hs
  constructor
  · exact h.intToArg_length
  · exact h.argToInt_lt
  · simp [withAttack, h.attackers_length]
  · simp [withAttack, h.attacked_length]
  · simp only [withAttack]
    split <;> simp [h.selfAttack_length]
  · intro i j hj
    simp only [withAttack, row_modify htl] at hj
    split at hj
    · rcases List.mem_append.mp hj with hj | hj
      · exact h.attackers_lt i j hj
      · rw [List.mem_singleton.mp hj]
        exact hs
    · exact h.attackers_lt i j hj
  · simp [withAttack, h.unattacked_eq, map_isEmpty_modify]
  · simp [withAttack, h.attacks_eq, sum_length_modify htl]
  · intro i j
    have hij := h.attacked_iff i j
    simp only [withAttack, row_modify htl, row_modify hsl]
    by_cases hi : i = source <;> by_cases hj : j = target <;> simp [hi, hj] at hij ⊢ <;>
      simpa [eq_comm] using hij

/-- The fields that `add_attack` does not write. -/
structure SameNames (af af' : AF) : Prop where
  args_eq : af'.args = af.args
  intToArg_eq : af'.intToArg = af.intToArg
  argToInt_eq : af'.argToInt = af.argToInt
  count_eq : af'.count = af.count
  acceptedVar_eq : af'.acceptedVar = af.acceptedVar
  rejectedVar_eq : af'.rejectedVar = af.rejectedVar
  undecidedVar_eq : af'.undecidedVar = af.undecidedVar

theorem SameNames.refl (af : AF) : SameNames af af :=
  ⟨rfl, rfl, rfl, rfl, rfl, rfl, rfl⟩

theorem SameNames.trans {a b c : AF} (h₁ : SameNames a b) (h₂ : SameNames b c) :
    SameNames a c :=
  ⟨h₂.args_eq.trans h₁.args_eq, h₂.intToArg_eq.trans h₁.intToArg_eq,
    h₂.argToInt_eq.trans h₁.argToInt_eq, h₂.count_eq.trans h₁.count_eq,
    h₂.acceptedVar_eq.trans h₁.acceptedVar_eq, h₂.rejectedVar_eq.trans h₁.rejectedVar_eq,
    h₂.undecidedVar_eq.trans h₁.undecidedVar_eq⟩

theorem addAttack_unknown {af : AF} {att : String × String}
    (h : af.argToInt att.1 = none ∨ af.argToInt att.2 = none) : af.addAttack att = some af := by
  unfold addAttack
  rcases h with h | h
  · rw [h]
  · rw [h]
    cases af.argToInt att.1 <;> rfl

theorem addAttack_known {af : AF} (h : Shape af) {att : String × String} {source target : Nat}
    (hs : af.argToInt att.1 = some source) (ht : af.argToInt att.2 = some target) :
    af.addAttack att = some (af.withAttack source target) := by
  simp only [addAttack, hs, ht]
  exact insertAttack_eq h (h.argToInt_lt _ _ hs) (h.argToInt_lt _ _ ht)

theorem addAttack_spec {af : AF} (h : Shape af) (att : String × String) :
    ∃ af', af.addAttack att = some af' ∧ Shape af' ∧ SameNames af af' := by
  cases hs : af.argToInt att.1 with
  | none => exact ⟨af, addAttack_unknown (Or.inl hs), h, SameNames.refl af⟩
  | some source =>
      cases ht : af.argToInt att.2 with
      | none => exact ⟨af, addAttack_unknown (Or.inr ht), h, SameNames.refl af⟩
      | some target =>
          refine ⟨af.withAttack source target, addAttack_known h hs ht,
            shape_withAttack h (h.argToInt_lt _ _ hs) (h.argToInt_lt _ _ ht), ?_⟩
          exact ⟨rfl, rfl, rfl, rfl, rfl, rfl, rfl⟩

/-- No access of the reading phase is out of bounds. -/
theorem read_spec (names : List String) (atts : List (String × String)) :
    ∃ af, read names atts = some af ∧ Shape af ∧
      SameNames (names.foldl addArgument empty) af := by
  have hn := named_foldl_addArgument names
  have hinit : SameNames (names.foldl addArgument empty)
      (names.foldl addArgument empty).initializeAttackers :=
    ⟨rfl, rfl, rfl, rfl, rfl, rfl, rfl⟩
  refine exists_foldlM (P := fun af => Shape af ∧
    SameNames (names.foldl addArgument empty) af) ?_ ⟨shape_initializeAttackers hn, hinit⟩
  intro af h att _
  obtain ⟨hshape, hsame⟩ := h
  obtain ⟨af', haf', hshape', hsame'⟩ := addAttack_spec hshape att
  exact ⟨af', haf', hshape', hsame.trans hsame'⟩

/-- The numbering loop overwrites every entry of the resized vector. -/
theorem numberVars_eq (vars : List Int) (args count : Nat) :
    numberVars vars args count =
      ((List.range args).map fun i => ((count + i + 1 : Nat) : Int), count + args) := by
  have hlen : (resize vars args (0 : Int)).length = args := by
    simp only [resize, List.length_append, List.length_take, List.length_replicate]
    omega
  suffices h : ∀ (base : List Int) (k : Nat), k ≤ base.length →
      (List.range k).foldl
        (fun (st : List Int × Nat) i => (st.1.set i ((st.2 + 1 : Nat) : Int), st.2 + 1))
        (base, count) =
      (((List.range k).map fun i => ((count + i + 1 : Nat) : Int)) ++ base.drop k,
        count + k) by
    rw [numberVars, h _ args (by omega), List.drop_eq_nil_of_le (by omega), List.append_nil]
  intro base k
  induction k with
  | zero => simp
  | succ k ih =>
      intro hk
      rw [List.range_succ, List.foldl_append, ih (by omega)]
      have hdrop : base.drop k = base[k] :: base.drop (k + 1) :=
        List.drop_eq_getElem_cons (by omega)
      have hset : ((List.range k).map (fun i => ((count + i + 1 : Nat) : Int)) ++
          base.drop k).set k ((count + k + 1 : Nat) : Int) =
          (List.range k).map (fun i => ((count + i + 1 : Nat) : Int)) ++
            ((count + k + 1 : Nat) : Int) :: base.drop (k + 1) := by
        rw [hdrop, List.set_append_right _ _ (by simp)]
        simp only [List.length_map, List.length_range, Nat.sub_self, List.set_cons_zero]
      simp only [List.foldl_cons, List.foldl_nil, hset, List.map_append, List.map_singleton,
        List.append_assoc, List.singleton_append]
      rfl

/-- A framework that is ready for the algorithms: every vector has one entry per
argument and the variables are numbered without gaps. -/
structure Ready (perfEnc : Bool) (af : AF) : Prop extends Shape af where
  acceptedVar_eq : af.acceptedVar = (List.range af.args).map fun i => (accVar i : Int)
  rejectedVar_eq : af.rejectedVar = (List.range af.args).map fun i => (rejVar af.args i : Int)
  undecidedVar_eq : perfEnc = false →
    af.undecidedVar = (List.range af.args).map fun i => (undVar af.args i : Int)
  count_eq : af.count = if perfEnc then 2 * af.args else 3 * af.args

theorem initializeVars_fields (perfEnc : Bool) (af : AF) :
    (af.initializeVars perfEnc).args = af.args ∧
    (af.initializeVars perfEnc).intToArg = af.intToArg ∧
    (af.initializeVars perfEnc).attackers = af.attackers ∧
    (af.initializeVars perfEnc).attacks = af.attacks := by
  cases perfEnc <;> exact ⟨rfl, rfl, rfl, rfl⟩

theorem ready_initializeVars (perfEnc : Bool) {af : AF} (h : Shape af)
    (hcount : af.count = 0) : Ready perfEnc (af.initializeVars perfEnc) := by
  cases perfEnc <;> simp only [initializeVars, numberVars_eq, hcount] <;>
    exact {
      intToArg_length := h.intToArg_length
      argToInt_lt := h.argToInt_lt
      attackers_length := h.attackers_length
      attacked_length := h.attacked_length
      selfAttack_length := h.selfAttack_length
      attackers_lt := h.attackers_lt
      unattacked_eq := h.unattacked_eq
      attacks_eq := h.attacks_eq
      attacked_iff := h.attacked_iff
      acceptedVar_eq := by simp [accVar]
      rejectedVar_eq := by simp [rejVar]
      undecidedVar_eq := by simp [undVar, Nat.two_mul]
      count_eq := by simp; try omega }

/-- Every sequence of the operations succeeds and yields a ready framework over
the given names. -/
theorem build_spec (perfEnc : Bool) (names : List String)
    (atts : List (String × String)) :
    ∃ af, build perfEnc names atts = some af ∧ Ready perfEnc af ∧
      af.intToArg = names ∧ af.args = names.length := by
  obtain ⟨af, haf, hshape, hsame⟩ := read_spec names atts
  have hn := named_foldl_addArgument names
  have hcount : af.count = 0 := hsame.count_eq.trans hn.count_eq
  obtain ⟨hargs, hnames, -, -⟩ := initializeVars_fields perfEnc af
  refine ⟨af.initializeVars perfEnc, by simp [build, haf],
    ready_initializeVars perfEnc hshape hcount, ?_, ?_⟩
  · rw [hnames, hsame.intToArg_eq, hn.intToArg_eq]
  · rw [hargs, hsame.args_eq, hn.args_eq]

theorem ready_of_build {perfEnc : Bool} {names : List String}
    {atts : List (String × String)} {af : AF} (h : build perfEnc names atts = some af) :
    Ready perfEnc af ∧ af.intToArg = names ∧ af.args = names.length := by
  obtain ⟨af', haf', hready⟩ := build_spec perfEnc names atts
  rw [h] at haf'
  cases haf'
  exact hready

/-- The build variant changes neither the arguments nor the attacks. -/
theorem build_agree {names : List String} {atts : List (String × String)} {af af' : AF}
    {perfEnc perfEnc' : Bool} (h : build perfEnc names atts = some af)
    (h' : build perfEnc' names atts = some af') :
    af.args = af'.args ∧ af.intToArg = af'.intToArg ∧ af.attackers = af'.attackers := by
  obtain ⟨af₀, haf₀, -, -⟩ := read_spec names atts
  simp only [build, haf₀, Option.map_some, Option.some.injEq] at h h'
  obtain ⟨hargs, hnames, hatt, -⟩ := initializeVars_fields perfEnc af₀
  obtain ⟨hargs', hnames', hatt', -⟩ := initializeVars_fields perfEnc' af₀
  subst h
  subst h'
  exact ⟨hargs.trans hargs'.symm, hnames.trans hnames'.symm, hatt.trans hatt'.symm⟩

/-! ## Reading the vectors of a ready framework -/

section Access

variable {perfEnc : Bool} {af : AF} (h : Ready perfEnc af) {i : Nat} (hi : i < af.args)

include h hi

theorem Ready.acceptedVar_get : af.acceptedVar[i]? = some (accVar i : Int) := by
  simp [h.acceptedVar_eq, hi]

theorem Ready.rejectedVar_get : af.rejectedVar[i]? = some (rejVar af.args i : Int) := by
  simp [h.rejectedVar_eq, hi]

theorem Ready.attackers_get : af.attackers[i]? = some (row af.attackers i) :=
  getElem?_eq_row (by rw [h.attackers_length]; exact hi)

theorem Ready.attacked_get : af.attacked[i]? = some (row af.attacked i) :=
  getElem?_eq_row (by rw [h.attacked_length]; exact hi)

theorem Ready.unattacked_get : af.unattacked[i]? = some (row af.attackers i).isEmpty := by
  rw [h.unattacked_eq, List.getElem?_map, h.attackers_get hi]
  rfl

theorem Ready.intToArg_get : af.intToArg[i]? = some (af.name i) := by
  simp [name, h.intToArg_length, hi]

end Access

theorem Ready.undecidedVar_get {af : AF} (h : Ready false af) {i : Nat}
    (hi : i < af.args) : af.undecidedVar[i]? = some (undVar af.args i : Int) := by
  simp [h.undecidedVar_eq rfl, hi]

/-! ## The counters of the machine -/

/-- The counters as the `uint32_t` of the class hold them. -/
def wrap (af : AF) : AF :=
  { af with
    args := af.args % 2 ^ 32
    count := af.count % 2 ^ 32
    attacks := af.attacks % 2 ^ 32 }

/-- The calls of the readers, in any order. -/
inductive Call where
  | addArgument (arg : String)
  | initializeAttackers
  | addAttack (att : String × String)
  deriving DecidableEq, Repr

def call (af : AF) : Call → Option AF
  | .addArgument arg => some (af.addArgument arg)
  | .initializeAttackers => some af.initializeAttackers
  | .addAttack att => af.addAttack att

/-- A call with counters of 32 bits. -/
def machineCall (af : AF) (c : Call) : Option AF := (af.call c).map wrap

theorem wrap_eq {af : AF} (hargs : af.args < 2 ^ 32) (hcount : af.count < 2 ^ 32)
    (hattacks : af.attacks < 2 ^ 32) : af.wrap = af := by
  simp only [wrap, Nat.mod_eq_of_lt hargs, Nat.mod_eq_of_lt hcount, Nat.mod_eq_of_lt hattacks]

/-- One call counts at most one attack. -/
theorem addAttack_counters {af af' : AF} {att : String × String}
    (h : af.addAttack att = some af') :
    af'.args = af.args ∧ af'.count = af.count ∧ af'.attacks ≤ af.attacks + 1 := by
  unfold addAttack at h
  split at h
  · rename_i source target _ _
    by_cases hloop : source = target
    · simp only [insertAttack, if_pos hloop, Option.bind_eq_bind, Option.bind_eq_some_iff,
        Option.pure_def, Option.some.injEq] at h
      obtain ⟨attackers, -, attacked, -, unattacked, -, selfAttack, -, rfl⟩ := h
      exact ⟨rfl, rfl, Nat.le_refl _⟩
    · simp only [insertAttack, if_neg hloop, Option.bind_eq_bind, Option.bind_eq_some_iff,
        Option.pure_def, Option.some.injEq] at h
      obtain ⟨attackers, -, attacked, -, unattacked, -, selfAttack, -, rfl⟩ := h
      exact ⟨rfl, rfl, Nat.le_refl _⟩
  · cases h
    exact ⟨rfl, rfl, Nat.le_succ _⟩

/-- One call raises a counter by one at most. -/
theorem call_counters {af af' : AF} {c : Call} (h : af.call c = some af') :
    af'.args ≤ af.args + 1 ∧ af'.count = af.count ∧ af'.attacks ≤ af.attacks + 1 := by
  cases c with
  | addArgument arg =>
      cases h
      exact ⟨Nat.le_refl _, rfl, Nat.le_succ _⟩
  | initializeAttackers =>
      cases h
      exact ⟨Nat.le_succ _, rfl, Nat.le_succ _⟩
  | addAttack att =>
      obtain ⟨hargs, hcount, hattacks⟩ := addAttack_counters h
      exact ⟨hargs.trans_le (Nat.le_succ _), hcount, hattacks⟩

theorem foldlM_machineCall {calls : List Call} {af : AF}
    (hargs : af.args + calls.length < 2 ^ 32) (hcount : af.count < 2 ^ 32)
    (hattacks : af.attacks + calls.length < 2 ^ 32) :
    calls.foldlM machineCall af = calls.foldlM call af := by
  induction calls generalizing af with
  | nil => rfl
  | cons c calls ih =>
      rw [List.length_cons] at hargs hattacks
      rw [List.foldlM_cons, List.foldlM_cons, machineCall]
      cases hcall : af.call c with
      | none => rfl
      | some af' =>
          obtain ⟨hargs', hcount', hattacks'⟩ := call_counters hcall
          rw [Option.map_some, wrap_eq (by omega) (by omega) (by omega)]
          exact ih (by omega) (by omega) (by omega)

/-- In every sequence of fewer than `2 ^ 32` calls the counters of the model are those of the
machine. -/
theorem machine_agrees {calls : List Call} (h : calls.length < 2 ^ 32) :
    calls.foldlM machineCall empty = calls.foldlM call empty := by
  apply foldlM_machineCall
  · rwa [empty, Nat.zero_add]
  · decide
  · rwa [empty, Nat.zero_add]

end AF

end AcceptableArguments
