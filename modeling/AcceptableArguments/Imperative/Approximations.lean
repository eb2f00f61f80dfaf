import AcceptableArguments.Imperative.Run

/-!
# More fuel

A run with less fuel approximates the run with more: unless it uses its fuel up, both do
the same. The relation is kept by all ways to compose runs, so the outcome of a program
with nested loops does not depend on the fuel that is enough for it.
-/

namespace AcceptableArguments.Imperative

variable {ε σ α β ρ : Type}

/-- From every state `y` does what `x` does, unless `x` runs out of fuel. -/
def Approximates (x y : Run ε σ α) : Prop :=
  ∀ s, (x s).1 = .error .outOfFuel ∨ y s = x s

theorem approximates_refl (x : Run ε σ α) : Approximates x x := fun _ => Or.inr rfl

theorem Approximates.bind {x y : Run ε σ α} {f g : α → Run ε σ β} (hx : Approximates x y)
    (hf : ∀ a, Approximates (f a) (g a)) : Approximates (x >>= f) (y >>= g) := by
  intro s
  rw [Run.bind_apply, Run.bind_apply]
  cases hx s with
  | inl hfuel =>
      left
      rcases hrun : x s with ⟨e | a, s'⟩
      · rw [hrun] at hfuel
        cases hfuel
        rfl
      · rw [hrun] at hfuel
        cases hfuel
  | inr heq =>
      rw [heq]
      rcases x s with ⟨e | a, s'⟩
      · exact Or.inr rfl
      · exact hf a s'

/-- The same run followed by runs with more fuel. -/
theorem approximates_bind {x : Run ε σ α} {f g : α → Run ε σ β}
    (hf : ∀ a, Approximates (f a) (g a)) : Approximates (x >>= f) (x >>= g) :=
  (approximates_refl x).bind hf

theorem Approximates.foldlM {f g : β → α → Run ε σ β} (h : ∀ b a, Approximates (f b a) (g b a))
    (l : List α) (b : β) : Approximates (l.foldlM f b) (l.foldlM g b) := by
  induction l generalizing b with
  | nil => exact approximates_refl _
  | cons a l ih =>
      rw [List.foldlM_cons, List.foldlM_cons]
      exact (h b a).bind ih

section Loops

variable {body body' : β → Run ε σ (β ⊕ ρ)} (h : ∀ b, Approximates (body b) (body' b))
  {fuel fuel' : Nat} (hfuel : fuel ≤ fuel')

include h hfuel

theorem Approximates.whileTrace (b : β) :
    Approximates (whileTrace body fuel b) (whileTrace body' fuel' b) := by
  induction fuel generalizing fuel' b with
  | zero => exact fun _ => Or.inl rfl
  | succ fuel ih =>
      obtain ⟨more, rfl⟩ : ∃ more, fuel' = more + 1 := ⟨fuel' - 1, by omega⟩
      apply (h b).bind
      intro x
      cases x with
      | inl b' => exact (ih (Nat.le_of_succ_le_succ hfuel) b').bind fun _ => approximates_refl _
      | inr r => exact approximates_refl _

theorem Approximates.whileTrue (b : β) :
    Approximates (whileTrue body fuel b) (whileTrue body' fuel' b) :=
  (Approximates.whileTrace h hfuel b).bind fun _ => approximates_refl _

end Loops

/-- A value that is returned stays the same with more fuel. -/
theorem Approximates.run_eq {x y : Run ε σ α} (h : Approximates x y) {s : σ}
    (hx : (x s).1 ≠ .error .outOfFuel) : y s = x s := (h s).resolve_left hx

end AcceptableArguments.Imperative
