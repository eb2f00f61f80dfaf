import AcceptableArguments.Sat.Cnf
import Mathlib.Algebra.BigOperators.Group.List.Basic
import Mathlib.Algebra.GroupWithZero.Nat

/-!
# Weighted soft literals

A soft literal costs its weight when it is true. Declaring a literal again replaces its
weight, and a literal of weight zero is not soft.
-/

namespace AcceptableArguments.Sat

/-- The sum of the weights of the true soft literals. -/
def cost (m : Assignment) (soft : List (Int × Nat)) : Nat :=
  (soft.map fun p => if litHolds m p.1 then p.2 else 0).sum

/-- Set the weight of a literal. -/
def declare (soft : List (Int × Nat)) (lit : Int) (weight : Nat) : List (Int × Nat) :=
  let others := soft.filter (fun p => p.1 ≠ lit)
  if weight = 0 then others else others ++ [(lit, weight)]

/-- The cost depends only on the variables of the soft literals. -/
theorem cost_congr {m m' : Assignment} {soft : List (Int × Nat)}
    (h : ∀ p ∈ soft, m p.1.natAbs = m' p.1.natAbs) : cost m soft = cost m' soft := by
  unfold cost
  congr 1
  apply List.map_congr_left
  intro p hp
  rw [litHolds_congr (h p hp)]

/-- The literals, each with weight one. -/
def units (lits : List Int) : List (Int × Nat) := lits.map fun l => (l, 1)

@[simp] theorem units_nil : units [] = [] := rfl

@[simp] theorem units_append (ls ks : List Int) : units (ls ++ ks) = units ls ++ units ks := by
  simp [units]

theorem cost_units_le (m : Assignment) (lits : List Int) : cost m (units lits) ≤ lits.length := by
  induction lits with
  | nil => simp [cost, units]
  | cons l lits ih =>
      simp only [cost, units, List.map_cons, List.sum_cons, List.length_cons] at ih ⊢
      split <;> omega

/-- Literals of weight one reach their maximal cost exactly when all of them hold. -/
theorem length_le_cost_units (m : Assignment) (lits : List Int) :
    lits.length ≤ cost m (units lits) ↔ AllHold m lits := by
  induction lits with
  | nil => simp
  | cons l lits ih =>
      have hle := cost_units_le m lits
      have hcons : cost m (units (l :: lits)) =
          (if litHolds m l then 1 else 0) + cost m (units lits) := by
        simp [cost, units]
      rw [hcons, allHold_cons, ← ih, List.length_cons]
      cases litHolds m l
      · simp only [Bool.false_eq_true, if_false, false_and, iff_false]
        omega
      · simp only [if_true, true_and]
        omega

theorem filter_units (lits : List Int) (l : Int) :
    (units lits).filter (fun p => p.1 ≠ l) = units (lits.filter (· ≠ l)) := by
  rw [units, List.filter_map]
  rfl

/-- Weight one makes the literal soft, after its earlier declaration is forgotten. -/
theorem declare_units_one (lits : List Int) (l : Int) :
    declare (units lits) l 1 = units (lits.filter (· ≠ l) ++ [l]) := by
  simp only [declare, filter_units, units_append]
  rfl

/-- Weight zero removes the literal. -/
theorem declare_units_zero (lits : List Int) (l : Int) :
    declare (units lits) l 0 = units (lits.filter (· ≠ l)) := by
  simp only [declare, filter_units, if_true]

end AcceptableArguments.Sat
