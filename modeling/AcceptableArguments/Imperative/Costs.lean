import AcceptableArguments.Imperative.Run

/-!
# What a run costs

A clock reads a number off the state. A run costs `c` if it advances the clock by exactly
`c` whenever it returns a value; costs add up over a sequence and over the rounds of a loop.
Where the rounds of a loop cost the same but their number is only bounded, the variant rule
bounds the cost of the loop.
-/

namespace AcceptableArguments.Imperative

variable {ε σ α β ρ : Type} {clock : σ → Nat}

/-- A run that returns `a` advances the clock by `c a`. -/
def CostsBy (clock : σ → Nat) (x : Run ε σ α) (c : α → Nat) : Prop :=
  ∀ s a s', x s = (.ok a, s') → clock s' = clock s + c a

/-- A run that returns advances the clock by `c`. -/
abbrev Costs (clock : σ → Nat) (x : Run ε σ α) (c : Nat) : Prop := CostsBy clock x fun _ => c

theorem costs_pure (a : α) : Costs clock (pure a : Run ε σ α) 0 := by
  intro s a' s' h
  cases h
  rfl

theorem costs_throw (e : ε) (c : Nat) : Costs clock (Run.throw e : Run ε σ α) c := by
  intro s a s' h
  cases h

theorem costs_ofOption (e : ε) (o : Option α) : Costs clock (Run.ofOption e o : Run ε σ α) 0 := by
  cases o with
  | none => exact costs_throw e 0
  | some a => exact costs_pure a

theorem Costs.bind {x : Run ε σ α} {f : α → Run ε σ β} {c : Nat} {d : β → Nat}
    (hx : Costs clock x c) (hf : ∀ a, CostsBy clock (f a) d) :
    CostsBy clock (x >>= f) (fun b => c + d b) := by
  intro s b s' h
  rw [Run.bind_apply] at h
  cases hrun : x s with
  | mk result s₁ =>
      rw [hrun] at h
      cases result with
      | error e => cases h
      | ok a => rw [hf a s₁ b s' h, hx s a s₁ hrun, Nat.add_assoc]

/-- A step that costs nothing in front of a run. -/
theorem Costs.after {x : Run ε σ α} {f : α → Run ε σ β} {c : β → Nat} (hx : Costs clock x 0)
    (hf : ∀ a, CostsBy clock (f a) c) : CostsBy clock (x >>= f) c := by
  simpa using hx.bind hf

/-- A step that costs nothing behind a run. -/
theorem Costs.before {x : Run ε σ α} {f : α → Run ε σ β} {c : Nat} (hx : Costs clock x c)
    (hf : ∀ a, Costs clock (f a) 0) : Costs clock (x >>= f) c :=
  hx.bind hf

/-- The cost of a run, read off a value that is computed from its result. -/
theorem CostsBy.map {x : Run ε σ α} {c : α → Nat} (hx : CostsBy clock x c) {g : α → β}
    {d : β → Nat} (hd : ∀ a, d (g a) = c a) :
    CostsBy clock (x >>= fun a => pure (g a)) d := by
  intro s b s' h
  rw [Run.bind_apply] at h
  cases hrun : x s with
  | mk result s₁ =>
      rw [hrun] at h
      cases result with
      | error e => cases h
      | ok a =>
          cases h
          rw [hx s a _ hrun, hd]

theorem costs_ite {p : Prop} [Decidable p] {x y : Run ε σ α} {c : Nat} (hx : Costs clock x c)
    (hy : Costs clock y c) : Costs clock (if p then x else y) c := by
  by_cases hp : p
  · rwa [if_pos hp]
  · rwa [if_neg hp]

theorem Costs.foldlM {f : β → α → Run ε σ β} {c : Nat} (hf : ∀ b a, Costs clock (f b a) c)
    (l : List α) (b : β) : Costs clock (l.foldlM f b) (l.length * c) := by
  induction l generalizing b with
  | nil =>
      rw [List.foldlM_nil, List.length_nil, Nat.zero_mul]
      exact costs_pure b
  | cons a l ih =>
      rw [List.foldlM_cons, List.length_cons, Nat.succ_mul, Nat.add_comm]
      exact (hf b a).bind ih

theorem Costs.foldlM_zero {f : β → α → Run ε σ β} (hf : ∀ b a, Costs clock (f b a) 0)
    (l : List α) (b : β) : Costs clock (l.foldlM f b) 0 := by
  simpa using Costs.foldlM hf l b

/-! ## Upper bounds -/

/-- A run that returns advances the clock by at most `c`. -/
def CostsAtMost (clock : σ → Nat) (x : Run ε σ α) (c : Nat) : Prop :=
  ∀ s a s', x s = (.ok a, s') → clock s' ≤ clock s + c

theorem Costs.atMost {x : Run ε σ α} {c d : Nat} (hx : Costs clock x c) (hcd : c ≤ d) :
    CostsAtMost clock x d := by
  intro s a s' h
  rw [hx s a s' h]
  exact Nat.add_le_add_left hcd _

/-- A first step with a known cost. -/
theorem Costs.bindAtMost {x : Run ε σ α} {f : α → Run ε σ β} {c d : Nat}
    (hx : Costs clock x c) (hf : ∀ a, CostsAtMost clock (f a) d) :
    CostsAtMost clock (x >>= f) (c + d) := by
  intro s b s' h
  rw [Run.bind_apply] at h
  cases hrun : x s with
  | mk result s₁ =>
      rw [hrun] at h
      cases result with
      | error e => cases h
      | ok a =>
          calc clock s' ≤ clock s₁ + d := hf a s₁ b s' h
            _ = clock s + (c + d) := by rw [hx s a s₁ hrun, Nat.add_assoc]

theorem costsAtMost_ite {p : Prop} [Decidable p] {x y : Run ε σ α} {c : Nat}
    (hx : CostsAtMost clock x c) (hy : CostsAtMost clock y c) :
    CostsAtMost clock (if p then x else y) c := by
  by_cases hp : p
  · rwa [if_pos hp]
  · rwa [if_neg hp]

/-! ## Together with postconditions -/

theorem Ensures.and {x : Run ε σ α} {s : σ} {Q Q' : α → σ → Prop} {E E' : Halt ε → σ → Prop}
    (h : Ensures x s Q E) (h' : Ensures x s Q' E') :
    Ensures x s (fun a s' => Q a s' ∧ Q' a s') E := by
  unfold Ensures at h h' ⊢
  cases hrun : x s with
  | mk result s' =>
      rw [hrun] at h h'
      cases result with
      | error e => exact h
      | ok a => exact ⟨h, h'⟩

/-- A postcondition together with the cost. -/
theorem Ensures.costs {x : Run ε σ α} {s : σ} {Q : α → σ → Prop} {E : Halt ε → σ → Prop}
    {c : α → Nat} (h : Ensures x s Q E) (hx : CostsBy clock x c) :
    Ensures x s (fun a s' => Q a s' ∧ clock s' = clock s + c a) E := by
  unfold Ensures at h ⊢
  cases hrun : x s with
  | mk result s' =>
      rw [hrun] at h
      cases result with
      | error e => exact h
      | ok a => exact ⟨h, hx s a s' hrun⟩

theorem Ensures.costsAtMost {x : Run ε σ α} {s : σ} {Q : α → σ → Prop}
    {E : Halt ε → σ → Prop} {c : Nat} (h : Ensures x s Q E) (hx : CostsAtMost clock x c) :
    Ensures x s (fun a s' => Q a s' ∧ clock s' ≤ clock s + c) E := by
  unfold Ensures at h ⊢
  cases hrun : x s with
  | mk result s' =>
      rw [hrun] at h
      cases result with
      | error e => exact h
      | ok a => exact ⟨h, hx s a s' hrun⟩

/-- The rounds that a loop completes and the one in which it returns. -/
theorem Costs.whileTrace {body : β → Run ε σ (β ⊕ ρ)} {c : Nat}
    (hbody : ∀ b, Costs clock (body b) c) (fuel : Nat) (b : β) :
    CostsBy clock (whileTrace body fuel b) (fun x => (x.1.length + 1) * c) := by
  induction fuel generalizing b with
  | zero =>
      intro s x s' h
      cases h
  | succ fuel ih =>
      intro s x s' h
      rw [Imperative.whileTrace, Run.bind_apply] at h
      cases hround : body b s with
      | mk result s₁ =>
          rw [hround] at h
          cases result with
          | error e => cases h
          | ok y =>
              have hfirst := hbody b s y s₁ hround
              cases y with
              | inr r =>
                  cases h
                  simpa using hfirst
              | inl b' =>
                  have hrest : CostsBy clock (Imperative.whileTrace body fuel b' >>=
                      fun z => pure (b' :: z.1, z.2)) (fun z => z.1.length * c) :=
                    (ih b').map fun _ => rfl
                  calc clock s' = clock s₁ + x.1.length * c := hrest s₁ x s' h
                    _ = clock s + (x.1.length + 1) * c := by
                      rw [hfirst, Nat.succ_mul, Nat.add_assoc, Nat.add_comm c]

/-- The variant rule with a clock: the variant bounds the number of rounds. -/
theorem ensures_whileTrue_costs {body : β → Run ε σ (β ⊕ ρ)} {c : Nat}
    {E : Halt ε → σ → Prop} (hcosts : ∀ b, CostsAtMost clock (body b) c)
    (Inv : Nat → β → Prop) (Q : ρ → Prop)
    (hbody : ∀ k b s, Inv k b → Ensures (body b) s
      (fun x _ => match x with
        | .inl b' => ∃ k' < k, Inv k' b'
        | .inr r => Q r) E)
    {k fuel : Nat} {b : β} {s : σ} (hInv : Inv k b) (hfuel : k < fuel) :
    Ensures (whileTrue body fuel b) s
      (fun r s' => Q r ∧ clock s' ≤ clock s + (k + 1) * c) E := by
  apply ensures_whileTrue
    (fun j b s' => Inv j b ∧ clock s' + j * c ≤ clock s + k * c)
    (fun r s' => Q r ∧ clock s' ≤ clock s + (k + 1) * c) ?_ ⟨hInv, Nat.le_refl _⟩ hfuel
  intro j b' s₁ hj
  obtain ⟨hInv', hclock⟩ := hj
  apply ((hbody j b' s₁ hInv').costsAtMost (hcosts b')).post
  intro x s₂ hx
  obtain ⟨hx, hclock'⟩ := hx
  cases x with
  | inl b'' =>
      obtain ⟨j', hlt, hInv''⟩ := hx
      refine ⟨j', hlt, hInv'', ?_⟩
      have hmul : (j' + 1) * c ≤ j * c := Nat.mul_le_mul_right c hlt
      rw [Nat.succ_mul] at hmul
      omega
  | inr r =>
      refine ⟨hx, ?_⟩
      rw [Nat.succ_mul]
      omega

/-- The rule for a loop whose first round need not lower the variant. -/
theorem ensures_whileTrue_costs_of_first {body : β → Run ε σ (β ⊕ ρ)} {c : Nat}
    {E : Halt ε → σ → Prop} (hcosts : ∀ b, CostsAtMost clock (body b) c)
    (Inv : Nat → β → Prop) (Q : ρ → Prop) {k : Nat} {b : β}
    (hfirst : ∀ s, Ensures (body b) s
      (fun x _ => match x with
        | .inl b' => ∃ k' ≤ k, Inv k' b'
        | .inr r => Q r) E)
    (hbody : ∀ k b s, Inv k b → Ensures (body b) s
      (fun x _ => match x with
        | .inl b' => ∃ k' < k, Inv k' b'
        | .inr r => Q r) E)
    {fuel : Nat} {s : σ} (hfuel : k + 1 < fuel) :
    Ensures (whileTrue body fuel b) s
      (fun r s' => Q r ∧ clock s' ≤ clock s + (k + 2) * c) E := by
  apply ensures_whileTrue_costs hcosts (fun j b' => j = k + 1 ∧ b' = b ∨ Inv j b') Q ?_
    (Or.inl ⟨rfl, rfl⟩) hfuel
  intro j b' s₁ hj
  cases hj with
  | inl hj =>
      obtain ⟨rfl, rfl⟩ := hj
      apply (hfirst s₁).post
      intro x s₂ hx
      cases x with
      | inl b'' =>
          obtain ⟨k', hle, hInv⟩ := hx
          exact ⟨k', Nat.lt_succ_of_le hle, Or.inr hInv⟩
      | inr r => exact hx
  | inr hInv =>
      apply (hbody j b' s₁ hInv).post
      intro x s₂ hx
      cases x with
      | inl b'' =>
          obtain ⟨k', hlt, hInv'⟩ := hx
          exact ⟨k', hlt, Or.inr hInv'⟩
      | inr r => exact hx

end AcceptableArguments.Imperative
