import AcceptableArguments.Imperative.Run
import Mathlib.Data.List.Infix

/-!
# Runs that follow a script

A run `x` asks an environment and records its answers. A family of runs `y S` answers the
same questions from a script `S`. `Follows` says that `y S` does what `x` does as soon as
`S` begins with what `x` has recorded. The script is not fixed while the two runs are
compared, so the rules compose without knowing how a run goes on.
-/

namespace AcceptableArguments.Imperative

variable {ε σ τ α β γ δ ρ : Type} {clock : σ → Nat}

/-- From states in which both have asked equally often, the runs stop for the same reason
or return related values, for every script that extends the record. -/
def Follows (clock : σ → Nat) (R : α → β → Prop) (x : Run ε (List τ) α)
    (y : List τ → Run ε σ β) : Prop :=
  ∀ s w, clock w = s.length → match x s with
    | (.ok a, s') => s <+: s' ∧ ∃ b w', R a b ∧ clock w' = s'.length ∧
        ∀ S, s' <+: S → y S w = (.ok b, w')
    | (.error e, s') => s <+: s' ∧ ∃ w', ∀ S, s' <+: S → y S w = (.error e, w')

section Rules

variable {R : α → β → Prop} {T : γ → δ → Prop}

theorem follows_pure {a : α} {b : β} (h : R a b) :
    Follows clock R (pure a : Run ε (List τ) α) (fun _ => pure b) :=
  fun s w hw => ⟨List.prefix_refl s, b, w, h, hw, fun _ _ => rfl⟩

theorem follows_throw (e : ε) :
    Follows clock R (Run.throw e : Run ε (List τ) α) (fun _ => Run.throw e) :=
  fun s w _ => ⟨List.prefix_refl s, w, fun _ _ => rfl⟩

theorem Follows.bind {x : Run ε (List τ) α} {y : List τ → Run ε σ β} {f : α → Run ε (List τ) γ}
    {g : List τ → β → Run ε σ δ} (hx : Follows clock R x y)
    (hf : ∀ a b, R a b → Follows clock T (f a) (fun S => g S b)) :
    Follows clock T (x >>= f) (fun S => y S >>= g S) := by
  intro s w hw
  have hs := hx s w hw
  simp only [Run.bind_apply]
  rcases hrun : x s with ⟨e | a, s'⟩
  · rw [hrun] at hs
    obtain ⟨hgrow, w', hy⟩ := hs
    exact ⟨hgrow, w', fun S hS => by rw [hy S hS]⟩
  · rw [hrun] at hs
    obtain ⟨hgrow, b, w', hab, hw', hy⟩ := hs
    have hnext := hf a b hab s' w' hw'
    dsimp only
    rcases hrun' : f a s' with ⟨e | c, s''⟩
    · rw [hrun'] at hnext
      obtain ⟨hgrow', w'', hz⟩ := hnext
      exact ⟨hgrow.trans hgrow', w'', fun S hS => by rw [hy S (hgrow'.trans hS), ← hz S hS]⟩
    · rw [hrun'] at hnext
      obtain ⟨hgrow', d, w'', hcd, hw'', hz⟩ := hnext
      exact ⟨hgrow.trans hgrow', d, w'', hcd, hw'',
        fun S hS => by rw [hy S (hgrow'.trans hS), ← hz S hS]⟩

/-- The first run goes on to change its value. -/
theorem Follows.map {x : Run ε (List τ) α} {y : List τ → Run ε σ δ} {f : α → γ}
    {R : α → δ → Prop} (h : Follows clock R x y) (hf : ∀ a d, R a d → T (f a) d) :
    Follows clock T (x >>= fun a => pure (f a)) y := by
  intro s w hw
  have hs := h s w hw
  simp only [Run.bind_apply]
  rcases hx : x s with ⟨e | a, s'⟩
  · rw [hx] at hs
    exact hs
  · rw [hx] at hs
    obtain ⟨hgrow, d, w', had, hrest⟩ := hs
    exact ⟨hgrow, d, w', hf a d had, hrest⟩

/-- Both runs need the same value, which may be missing. -/
theorem follows_ofOption {e : ε} {o : Option γ} {f : γ → Run ε (List τ) α}
    {g : List τ → γ → Run ε σ β} (h : ∀ c, o = some c → Follows clock R (f c) (fun S => g S c)) :
    Follows clock R (Run.ofOption e o >>= f) (fun S => Run.ofOption e o >>= g S) := by
  cases o with
  | none => exact follows_throw e
  | some c => exact h c rfl

theorem Follows.foldlM {f : γ → α → Run ε (List τ) γ} {g : List τ → δ → α → Run ε σ δ}
    {l : List α} (h : ∀ c d, T c d → ∀ a ∈ l, Follows clock T (f c a) (fun S => g S d a))
    {c : γ} {d : δ} (hcd : T c d) :
    Follows clock T (l.foldlM f c) (fun S => l.foldlM (g S) d) := by
  induction l generalizing c d with
  | nil => exact follows_pure hcd
  | cons a l ih =>
      simp only [List.foldlM_cons]
      apply (h c d hcd a (by simp)).bind
      intro c' d' hcd'
      exact ih (fun c d hcd a ha => h c d hcd a (List.mem_cons_of_mem _ ha)) hcd'

/-- Both loops go on with related states or end with related values. -/
theorem Follows.whileTrue {body : γ → Run ε (List τ) (γ ⊕ α)}
    {body' : List τ → δ → Run ε σ (δ ⊕ β)}
    (h : ∀ c d, T c d → Follows clock (Sum.LiftRel T R) (body c) (fun S => body' S d))
    (fuel : Nat) {c : γ} {d : δ} (hcd : T c d) :
    Follows clock R (whileTrue body fuel c) (fun S => whileTrue (body' S) fuel d) := by
  induction fuel generalizing c d with
  | zero => exact fun s w _ => ⟨List.prefix_refl s, w, fun _ _ => rfl⟩
  | succ fuel ih =>
      simp only [whileTrue_succ]
      apply (h c d hcd).bind
      intro x y hxy
      cases hxy with
      | inl hcd' => exact ih hcd'
      | inr hab => exact follows_pure hab

end Rules

/-- With what the first run has recorded as the script, both runs end in the same way. If
they return, the record says how often they have asked. -/
theorem Follows.exists_script {x : Run ε (List τ) α} {y : List τ → Run ε σ α}
    (h : Follows clock Eq x y) {w : σ} (hw : clock w = 0) :
    ∃ S w', y S w = ((x []).1, w') ∧ ∀ a, (x []).1 = .ok a → clock w' = (x []).2.length := by
  have hs := h [] w hw
  refine ⟨(x []).2, ?_⟩
  cases hx : x [] with
  | mk result s' =>
      rw [hx] at hs
      cases result with
      | error e =>
          obtain ⟨-, w', hrun⟩ := hs
          exact ⟨w', hrun s' (List.prefix_refl s'), fun a ha => by cases ha⟩
      | ok a =>
          obtain ⟨-, b, w', hab, hw', hrun⟩ := hs
          subst hab
          exact ⟨w', hrun s' (List.prefix_refl s'), fun _ _ => hw'⟩

end AcceptableArguments.Imperative
