import AcceptableArguments.Imperative.Run
import Mathlib.Data.List.Chain

/-!
# Runs that record their loops

`Mirrors π x y` says that `y` does what `x` does and returns the image of its value. It
relates a run that records the states of its loops to the run without the records. The
chain rule states that consecutive loop states are related.
-/

namespace AcceptableArguments.Imperative

variable {ε σ α β γ δ ρ τ : Type}

/-- Both runs go through the same states, stop for the same reason, and return values
that correspond under `π`. -/
def Mirrors (π : α → β) (x : Run ε σ α) (y : Run ε σ β) : Prop :=
  ∀ s, y s = match x s with
    | (.ok a, s') => (.ok (π a), s')
    | (.error e, s') => (.error e, s')

section Mirrors

variable {π : α → β} {ψ : γ → δ}

theorem mirrors_refl (x : Run ε σ α) : Mirrors id x x := by
  intro s
  rcases x s with ⟨_ | a, s'⟩ <;> rfl

theorem mirrors_sum_id (x : Run ε σ (α ⊕ ρ)) : Mirrors (Sum.map id id) x x := by
  rw [Sum.map_id_id]
  exact mirrors_refl x

theorem mirrors_pure {a : α} {b : β} (h : b = π a) :
    Mirrors π (pure a : Run ε σ α) (pure b) := by
  subst h
  exact fun _ => rfl

theorem Mirrors.bind {x : Run ε σ α} {y : Run ε σ β} {f : α → Run ε σ γ}
    {g : β → Run ε σ δ} (hx : Mirrors π x y) (hf : ∀ a, Mirrors ψ (f a) (g (π a))) :
    Mirrors ψ (x >>= f) (y >>= g) := by
  intro s
  rw [Run.bind_apply, Run.bind_apply, hx s]
  rcases x s with ⟨e | a, s'⟩
  · rfl
  · exact hf a s'

/-- The same run followed by corresponding runs. -/
theorem mirrors_bind {x : Run ε σ α} {f : α → Run ε σ γ} {g : α → Run ε σ δ}
    (hf : ∀ a, Mirrors ψ (f a) (g a)) : Mirrors ψ (x >>= f) (x >>= g) :=
  (mirrors_refl x).bind hf

theorem Mirrors.foldlM {f : α → γ → Run ε σ α} {g : β → γ → Run ε σ β}
    (h : ∀ a c, Mirrors π (f a c) (g (π a) c)) (l : List γ) (a : α) :
    Mirrors π (l.foldlM f a) (l.foldlM g (π a)) := by
  induction l generalizing a with
  | nil => exact mirrors_pure rfl
  | cons c l ih =>
      rw [List.foldlM_cons, List.foldlM_cons]
      exact (h a c).bind ih

theorem Mirrors.whileTrace {body : α → Run ε σ (α ⊕ ρ)} {body' : β → Run ε σ (β ⊕ τ)}
    {ψ : ρ → τ} (h : ∀ a, Mirrors (Sum.map π ψ) (body a) (body' (π a))) (fuel : Nat) (a : α) :
    Mirrors (Prod.map (List.map π) ψ) (whileTrace body fuel a)
      (whileTrace body' fuel (π a)) := by
  induction fuel generalizing a with
  | zero => exact fun _ => rfl
  | succ fuel ih =>
      apply (h a).bind
      intro x
      cases x with
      | inl a' =>
          apply (ih a').bind
          intro y
          exact mirrors_pure rfl
      | inr r => exact mirrors_pure rfl

/-- `while (true)` with and without the records of its body. -/
theorem Mirrors.whileTrue {body : α → Run ε σ (α ⊕ ρ)} {body' : β → Run ε σ (β ⊕ τ)}
    {ψ : ρ → τ} (h : ∀ a, Mirrors (Sum.map π ψ) (body a) (body' (π a))) (fuel : Nat) (a : α) :
    Mirrors (fun x => ψ x.2) (Imperative.whileTrace body fuel a)
      (whileTrue body' fuel (π a)) := by
  intro s
  have htrace := Mirrors.whileTrace h fuel a s
  unfold Imperative.whileTrue
  rw [Run.bind_apply, htrace]
  rcases Imperative.whileTrace body fuel a s with ⟨e | x, s'⟩ <;> rfl

/-- What holds of a recording run holds of the run without the records. -/
theorem Mirrors.ensures {x : Run ε σ α} {y : Run ε σ β} (h : Mirrors π x y) {s : σ}
    {Q : β → σ → Prop} {E : Halt ε → σ → Prop}
    (hx : Ensures x s (fun a s' => Q (π a) s') E) : Ensures y s Q E := by
  unfold Ensures at hx ⊢
  rw [h s]
  rcases hrun : x s with ⟨e | a, s'⟩ <;> rw [hrun] at hx <;> exact hx

theorem Mirrors.run_ok {x : Run ε σ α} {y : Run ε σ β} (h : Mirrors π x y) {s s' : σ} {a : α}
    (hx : x s = (.ok a, s')) : y s = (.ok (π a), s') := by
  rw [h s, hx]

end Mirrors

/-- The chain rule: when every continuing round moves to a related state and lowers the
measure, the loop ends, its states form a chain, and each of them has the invariant. -/
theorem ensures_whileTrace_isChain {body : β → Run ε σ (β ⊕ ρ)} {E : Halt ε → σ → Prop}
    (Inv : β → σ → Prop) (R : β → β → Prop) (measure : β → Nat) (Q : ρ → σ → Prop)
    (hbody : ∀ b s, Inv b s → Ensures (body b) s
      (fun x s' => match x with
        | .inl b' => Inv b' s' ∧ R b b' ∧ measure b' < measure b
        | .inr r => Q r s') E)
    {fuel : Nat} {b : β} {s : σ} (hInv : Inv b s) (hfuel : measure b < fuel) :
    Ensures (whileTrace body fuel b) s
      (fun x s' => (b :: x.1).IsChain R ∧ (∀ b' ∈ x.1, ∃ s₀, Inv b' s₀) ∧ Q x.2 s') E := by
  induction fuel generalizing b s with
  | zero => omega
  | succ fuel ih =>
      simp only [whileTrace]
      apply ensures_bind
      apply (hbody b s hInv).post
      intro x s' hx
      cases x with
      | inl b' =>
          obtain ⟨hInv', hR, hlt⟩ := hx
          apply ensures_bind
          apply (ih hInv' (by omega)).post
          intro y s'' hy
          obtain ⟨hchain, hall, hQ⟩ := hy
          refine ensures_pure ⟨List.isChain_cons_cons.mpr ⟨hR, hchain⟩, ?_, hQ⟩
          exact List.forall_mem_cons.mpr ⟨⟨s', hInv'⟩, hall⟩
      | inr r => exact ensures_pure ⟨List.isChain_singleton b, by simp, hx⟩

end AcceptableArguments.Imperative
