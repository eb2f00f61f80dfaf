import AcceptableArguments.Sat.Cnf
import Mathlib.Data.Nat.Bitwise

/-!
# Incremental solver cores

A core sees the clauses and solves that it was given so far and the assumptions of
the current solve. The literals may be signed integers or packed into a natural number
with the sign in the lowest bit; `Meets` is relative to the way literals are read.
-/

namespace AcceptableArguments.Sat

inductive Answer where
  | sat (m : Assignment)
  | unsat
  | unknown

inductive CoreCall (L : Type) where
  | add (clause : List L)
  | solve (assumptions : List L)

/-- The answer may depend on everything that happened before. -/
abbrev Core (L : Type) := List (CoreCall L) → List L → Answer

variable {L : Type}

/-- The clauses of a history, in order. -/
def addedClauses (history : List (CoreCall L)) : List (List L) :=
  history.filterMap fun
    | .add clause => some clause
    | .solve _ => none

@[simp] theorem addedClauses_nil : addedClauses ([] : List (CoreCall L)) = [] := rfl

@[simp] theorem addedClauses_add (history : List (CoreCall L)) (clause : List L) :
    addedClauses (history ++ [.add clause]) = addedClauses history ++ [clause] := by
  simp [addedClauses]

@[simp] theorem addedClauses_solve (history : List (CoreCall L)) (assumptions : List L) :
    addedClauses (history ++ [.solve assumptions]) = addedClauses history := by
  simp [addedClauses]

/-- The assignment makes all clauses and all assumptions true. -/
def Meets (holds : Assignment → L → Bool) (m : Assignment) (clauses : List (List L))
    (assumptions : List L) : Prop :=
  (∀ c ∈ clauses, c.any (holds m) = true) ∧ ∀ l ∈ assumptions, holds m l = true

/-- A core that always decides, and decides rightly. -/
def Core.Correct (holds : Assignment → L → Bool) (C : Core L) : Prop :=
  ∀ history assumptions, match C history assumptions with
    | .sat m => Meets holds m (addedClauses history) assumptions
    | .unsat => ¬ ∃ m, Meets holds m (addedClauses history) assumptions
    | .unknown => False

/-- Translated literals hold when the original ones do. -/
theorem meets_map {holds : Assignment → L → Bool} {t : Int → L} {m m' : Assignment}
    {clauses : List Clause} {assumptions : List Int}
    (hclauses : ∀ c ∈ clauses, ∀ l ∈ c, holds m' (t l) = litHolds m l)
    (hassumptions : ∀ l ∈ assumptions, holds m' (t l) = litHolds m l) :
    Meets holds m' (clauses.map (List.map t)) (assumptions.map t) ↔
      Satisfies m clauses ∧ AllHold m assumptions := by
  simp only [Meets, Satisfies, AllHold, List.forall_mem_map]
  refine and_congr (forall₂_congr fun c hc => ?_) (forall₂_congr fun l hl => ?_)
  · rw [clauseHolds_iff, List.any_map, List.any_eq_true]
    refine exists_congr fun l => and_congr_right fun hl => ?_
    rw [Function.comp_apply, hclauses c hc l hl]
  · rw [hassumptions l hl]

/-- Only the variables that occur matter. -/
theorem Meets.congr {holds : Assignment → L → Bool} {clauses : List (List L)}
    {assumptions : List L} {m m' : Assignment} (hm : Meets holds m clauses assumptions)
    (h : ∀ l ∈ clauses.flatten ++ assumptions, holds m l = holds m' l) :
    Meets holds m' clauses assumptions := by
  constructor
  · intro c hc
    obtain ⟨l, hl, hlm⟩ := List.any_eq_true.mp (hm.1 c hc)
    refine List.any_eq_true.mpr ⟨l, hl, ?_⟩
    rwa [← h l (List.mem_append_left _ (List.mem_flatten_of_mem hc hl))]
  · intro l hl
    rw [← h l (List.mem_append_right _ hl)]
    exact hm.2 l hl

instance (holds : Assignment → L → Bool) (m : Assignment) (clauses : List (List L))
    (assumptions : List L) : Decidable (Meets holds m clauses assumptions) :=
  inferInstanceAs (Decidable ((∀ c ∈ clauses, c.any (holds m) = true) ∧
    ∀ l ∈ assumptions, holds m l = true))

/-- The core that tries the valuations of the occurring variables one by one. -/
def Core.exhaustive (holds : Assignment → L → Bool) (varOf : L → Nat) : Core L :=
  fun history lits =>
    let vars := ((addedClauses history).flatten ++ lits).map varOf
    match (assignments vars).find?
      (fun m => decide (Meets holds m (addedClauses history) lits)) with
    | some m => .sat m
    | none => .unsat

theorem Core.exhaustive_correct {holds : Assignment → L → Bool} {varOf : L → Nat}
    (hvar : ∀ m m' l, m (varOf l) = m' (varOf l) → holds m l = holds m' l) :
    (Core.exhaustive holds varOf).Correct holds := by
  intro history lits
  unfold Core.exhaustive
  simp only
  cases hfind : (assignments (((addedClauses history).flatten ++ lits).map varOf)).find?
      (fun m => decide (Meets holds m (addedClauses history) lits)) with
  | some m => simpa using List.find?_some hfind
  | none =>
      intro h
      obtain ⟨m, hm⟩ := h
      obtain ⟨m', hm', hagree, -⟩ := exists_mem_assignments
        (((addedClauses history).flatten ++ lits).map varOf) m
      have hnot := List.find?_eq_none.mp hfind m' hm'
      refine hnot (decide_eq_true (hm.congr fun l hl => hvar m m' l ?_))
      exact (hagree _ (List.mem_map_of_mem hl)).symm

/-! ## Packed literals -/

/-- The variable, counted from zero, times two, plus one if negated. -/
structure PackedLit where
  x : Nat
  deriving DecidableEq, Repr

namespace PackedLit

def ofVar (var : Nat) (sign : Bool) : PackedLit := ⟨var + var + sign.toNat⟩

def var (p : PackedLit) : Nat := p.x >>> 1

def sign (p : PackedLit) : Bool := p.x &&& 1 = 1

/-- The literal of the other sign. -/
def compl (p : PackedLit) : PackedLit := ⟨p.x ^^^ 1⟩

def holds (m : Assignment) (p : PackedLit) : Bool := m p.var != p.sign

@[simp] theorem var_ofVar (v : Nat) (s : Bool) : (ofVar v s).var = v := by
  simp only [var, ofVar, Nat.shiftRight_eq_div_pow]
  cases s <;> simp <;> omega

@[simp] theorem sign_ofVar (v : Nat) (s : Bool) : (ofVar v s).sign = s := by
  simp only [sign, ofVar, Nat.and_one_is_mod]
  cases s <;> simp <;> omega

theorem compl_ofVar (v : Nat) : (ofVar v false).compl = ofVar v true := by
  simp [compl, ofVar, Nat.xor_one_of_even (Even.add_self v)]

end PackedLit

end AcceptableArguments.Sat
