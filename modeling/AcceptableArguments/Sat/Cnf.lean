import Mathlib.Data.List.Basic
import Mathlib.Tactic.Common

/-!
# Clauses over signed integer literals

Variables are positive natural numbers and a literal is a variable or its
negation, as in the DIMACS format. Zero is not a literal and never holds.
-/

namespace AcceptableArguments.Sat

/-- A total valuation of the variables. -/
abbrev Assignment := Nat → Bool

/-- A disjunction of literals. -/
abbrev Clause := List Int

/-- The value of a literal. -/
def litHolds (m : Assignment) (l : Int) : Bool :=
  if l = 0 then false else m l.natAbs == decide (0 < l)

/-- The value of a clause. -/
def clauseHolds (m : Assignment) (c : Clause) : Bool := c.any (litHolds m)

/-- All clauses of a list hold. -/
def Satisfies (m : Assignment) (cs : List Clause) : Prop :=
  ∀ c ∈ cs, clauseHolds m c = true

instance (m : Assignment) (cs : List Clause) : Decidable (Satisfies m cs) :=
  inferInstanceAs (Decidable (∀ c ∈ cs, clauseHolds m c = true))

/-- All literals of a list hold. -/
def AllHold (m : Assignment) (ls : List Int) : Prop := ∀ l ∈ ls, litHolds m l = true

instance (m : Assignment) (ls : List Int) : Decidable (AllHold m ls) :=
  inferInstanceAs (Decidable (∀ l ∈ ls, litHolds m l = true))

/-- A nonzero literal whose variable is at most `n`. -/
def InRange (n : Nat) (l : Int) : Prop := l ≠ 0 ∧ l.natAbs ≤ n

instance (n : Nat) (l : Int) : Decidable (InRange n l) :=
  inferInstanceAs (Decidable (l ≠ 0 ∧ l.natAbs ≤ n))

theorem litHolds_pos (m : Assignment) {v : Nat} (hv : v ≠ 0) :
    litHolds m (v : Int) = m v := by
  have h : 0 < v := Nat.pos_of_ne_zero hv
  simp [litHolds, hv, h]

theorem litHolds_neg (m : Assignment) {v : Nat} (hv : v ≠ 0) :
    litHolds m (-(v : Int)) = !m v := by
  have h : ¬ (v : Int) < 0 := by omega
  simp [litHolds, hv, h]

theorem litHolds_congr {m m' : Assignment} {l : Int} (h : m l.natAbs = m' l.natAbs) :
    litHolds m l = litHolds m' l := by
  simp [litHolds, h]

@[simp] theorem clauseHolds_nil (m : Assignment) : clauseHolds m [] = false := rfl

@[simp] theorem clauseHolds_cons (m : Assignment) (l : Int) (c : Clause) :
    clauseHolds m (l :: c) = (litHolds m l || clauseHolds m c) := rfl

@[simp] theorem clauseHolds_append (m : Assignment) (c d : Clause) :
    clauseHolds m (c ++ d) = (clauseHolds m c || clauseHolds m d) := by
  simp [clauseHolds]

theorem clauseHolds_iff (m : Assignment) (c : Clause) :
    clauseHolds m c = true ↔ ∃ l ∈ c, litHolds m l = true := by
  simp [clauseHolds]

theorem clauseHolds_map {ι : Type*} (m : Assignment) (xs : List ι) (f : ι → Int) :
    clauseHolds m (xs.map f) = true ↔ ∃ x ∈ xs, litHolds m (f x) = true := by
  simp [clauseHolds]

@[simp] theorem satisfies_nil (m : Assignment) : Satisfies m [] := by
  simp [Satisfies]

@[simp] theorem satisfies_cons (m : Assignment) (c : Clause) (cs : List Clause) :
    Satisfies m (c :: cs) ↔ clauseHolds m c = true ∧ Satisfies m cs := by
  simp [Satisfies]

@[simp] theorem satisfies_append (m : Assignment) (cs ds : List Clause) :
    Satisfies m (cs ++ ds) ↔ Satisfies m cs ∧ Satisfies m ds := by
  simp only [Satisfies, List.mem_append]
  constructor
  · intro h
    exact ⟨fun c hc => h c (Or.inl hc), fun c hc => h c (Or.inr hc)⟩
  · intro hx c hy
    obtain ⟨h₁, h₂⟩ := hx
    rcases hy with hc | hc
    · exact h₁ c hc
    · exact h₂ c hc

theorem satisfies_map {ι : Type*} (m : Assignment) (xs : List ι) (f : ι → Clause) :
    Satisfies m (xs.map f) ↔ ∀ x ∈ xs, clauseHolds m (f x) = true := by
  simp [Satisfies]

theorem satisfies_flatMap {ι : Type*} (m : Assignment) (xs : List ι)
    (f : ι → List Clause) :
    Satisfies m (xs.flatMap f) ↔ ∀ x ∈ xs, Satisfies m (f x) := by
  simp only [Satisfies, List.mem_flatMap]
  constructor
  · intro h x hx c hc
    exact h c ⟨x, hx, hc⟩
  · intro h c hy
    obtain ⟨x, hx, hc⟩ := hy
    exact h x hx c hc

@[simp] theorem allHold_nil (m : Assignment) : AllHold m [] := by
  simp [AllHold]

@[simp] theorem allHold_cons (m : Assignment) (l : Int) (ls : List Int) :
    AllHold m (l :: ls) ↔ litHolds m l = true ∧ AllHold m ls := by
  simp [AllHold]

@[simp] theorem allHold_append (m : Assignment) (ls ks : List Int) :
    AllHold m (ls ++ ks) ↔ AllHold m ls ∧ AllHold m ks := by
  simp only [AllHold, List.mem_append]
  constructor
  · intro h
    exact ⟨fun l hl => h l (Or.inl hl), fun l hl => h l (Or.inr hl)⟩
  · intro hx l hy
    obtain ⟨h₁, h₂⟩ := hx
    rcases hy with hl | hl
    · exact h₁ l hl
    · exact h₂ l hl

/-- Satisfaction depends only on the variables that occur. -/
theorem Satisfies.congr {m m' : Assignment} {cs : List Clause}
    (h : ∀ c ∈ cs, ∀ l ∈ c, m l.natAbs = m' l.natAbs) (hm : Satisfies m cs) :
    Satisfies m' cs := by
  intro c hc
  obtain ⟨l, hl, hlm⟩ := (clauseHolds_iff m c).mp (hm c hc)
  exact (clauseHolds_iff m' c).mpr ⟨l, hl, litHolds_congr (h c hc l hl) ▸ hlm⟩

theorem AllHold.congr {m m' : Assignment} {ls : List Int}
    (h : ∀ l ∈ ls, m l.natAbs = m' l.natAbs) (hm : AllHold m ls) : AllHold m' ls :=
  fun l hl => litHolds_congr (h l hl) ▸ hm l hl

/-- Every valuation of the listed variables, extended by `false`. -/
def assignments : List Nat → List Assignment
  | [] => [fun _ => false]
  | v :: vs => assignments vs ++ (assignments vs).map fun m u => if u = v then true else m u

theorem exists_mem_assignments (vs : List Nat) (m : Assignment) :
    ∃ m' ∈ assignments vs, (∀ v ∈ vs, m' v = m v) ∧ ∀ v ∉ vs, m' v = false := by
  induction vs with
  | nil => exact ⟨fun _ => false, by simp [assignments], by simp, by simp⟩
  | cons v vs ih =>
      obtain ⟨m', hm', hin, hout⟩ := ih
      by_cases hflip : m v = true ∧ v ∉ vs
      · refine ⟨fun u => if u = v then true else m' u,
          List.mem_append_right _ (List.mem_map_of_mem hm'), ?_, ?_⟩
        · intro u hu
          by_cases huv : u = v
          · simp [huv, hflip.1]
          · simpa [huv] using hin u (by simpa [huv] using hu)
        · intro u hu
          have huv : u ≠ v := fun h => hu (by simp [h])
          simpa [huv] using hout u (fun h => hu (by simp [h]))
      · refine ⟨m', List.mem_append_left _ hm', ?_, ?_⟩
        · intro u hu
          by_cases huvs : u ∈ vs
          · exact hin u huvs
          · have huv : u = v := by simpa [huvs] using hu
            subst huv
            have hmu : m u ≠ true := fun h => hflip ⟨h, huvs⟩
            rw [hout u huvs, Bool.eq_false_iff.mpr hmu]
        · intro u hu
          exact hout u (fun h => hu (by simp [h]))

theorem inRange_pos {n v : Nat} (h0 : v ≠ 0) (hn : v ≤ n) : InRange n (v : Int) := by
  constructor <;> omega

theorem inRange_neg {n v : Nat} (h0 : v ≠ 0) (hn : v ≤ n) : InRange n (-(v : Int)) := by
  constructor <;> omega

end AcceptableArguments.Sat
