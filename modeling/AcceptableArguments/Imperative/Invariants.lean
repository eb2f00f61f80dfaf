import AcceptableArguments.Imperative.Run

/-!
# Invariants of the state along a run

`Keeps I A x Q` says that the run `x`, started in a state with `I`, ends in a state
with `I`, whether it returns or stops early. A returned value satisfies `Q` and a
reason for an early stop satisfies `A`. Loops keep `I` for every amount of fuel, so
the rules bound what an endless loop can do as well.
-/

namespace AcceptableArguments.Imperative

variable {ε σ α β ρ : Type}

def Keeps (I : σ → Prop) (A : Halt ε → Prop) (x : Run ε σ α) (Q : α → Prop) : Prop :=
  ∀ s, I s → Ensures x s (fun a s' => I s' ∧ Q a) (fun e s' => I s' ∧ A e)

section Rules

variable {I : σ → Prop} {A : Halt ε → Prop} {P Q : α → Prop}

theorem keeps_pure {a : α} (h : Q a) : Keeps I A (pure a : Run ε σ α) Q :=
  fun _ hs => ⟨hs, h⟩

theorem keeps_throw {e : ε} (h : A (.error e)) : Keeps I A (Run.throw e : Run ε σ α) Q :=
  fun _ hs => ⟨hs, h⟩

theorem Keeps.bind {x : Run ε σ α} {f : α → Run ε σ β} {R : β → Prop}
    (hx : Keeps I A x P) (hf : ∀ a, P a → Keeps I A (f a) R) : Keeps I A (x >>= f) R := by
  intro s hs
  apply ensures_bind
  apply (hx s hs).post
  intro a s' h
  obtain ⟨hs', ha⟩ := h
  exact hf a ha s' hs'

theorem Keeps.mono {x : Run ε σ α} (h : Keeps I A x P) (hPQ : ∀ a, P a → Q a) :
    Keeps I A x Q := by
  intro s hs
  apply (h s hs).post
  intro a s' ha
  exact ⟨ha.1, hPQ a ha.2⟩

theorem keeps_ofOption {e : ε} {o : Option α} (h : ∃ a, o = some a ∧ Q a) :
    Keeps I A (Run.ofOption e o) Q := by
  obtain ⟨a, rfl, ha⟩ := h
  exact keeps_pure ha

/-- A loop over a list whose steps keep a property of the loop state. -/
theorem keeps_foldlM {f : β → α → Run ε σ β} {R : β → Prop} {l : List α}
    (hstep : ∀ b, R b → ∀ a ∈ l, Keeps I A (f b a) R) {b : β} (hb : R b) :
    Keeps I A (l.foldlM f b) R := by
  induction l generalizing b with
  | nil => exact keeps_pure hb
  | cons a l ih =>
      rw [List.foldlM_cons]
      apply (hstep b hb a (by simp)).bind
      intro b' hb'
      exact ih (fun b hb a ha => hstep b hb a (by simp [ha])) hb'

/-- The rule for `for (i = 0; i < n; i++)`, with an invariant that depends on `i`. -/
theorem keeps_foldlM_range {f : β → Nat → Run ε σ β} (R : Nat → β → Prop) (n : Nat)
    (hstep : ∀ k < n, ∀ b, R k b → Keeps I A (f b k) (R (k + 1))) {b : β} (hb : R 0 b) :
    Keeps I A ((List.range n).foldlM f b) (R n) := by
  intro s hs
  refine ensures_foldlM_range (fun k b s => I s ∧ R k b) n ?_ ⟨hs, hb⟩
  intro k hk b s h
  obtain ⟨hs, hb⟩ := h
  exact hstep k hk b hb s hs

/-- The state after the run, and the reason if it stopped early. -/
theorem Keeps.outcome {x : Run ε σ α} (h : Keeps I A x Q) {s : σ} (hs : I s) :
    I (x s).2 ∧ ∀ e, (x s).1 = .error e → A e := by
  have hx := h s hs
  unfold Ensures at hx
  rcases hrun : x s with ⟨e | a, s'⟩ <;> rw [hrun] at hx
  · refine ⟨hx.1, fun e' he' => ?_⟩
    cases he'
    exact hx.2
  · exact ⟨hx.1, fun e' he' => by cases he'⟩

theorem Keeps.returned {x : Run ε σ α} (h : Keeps I A x Q) {s s' : σ} (hs : I s) {a : α}
    (hrun : x s = (.ok a, s')) : Q a := by
  have hx := h s hs
  rw [Ensures, hrun] at hx
  exact hx.2

variable {body : β → Run ε σ (β ⊕ ρ)} (Inv : β → Prop) {R : ρ → Prop}

/-- The loop rule without a variant: running out of fuel must be allowed. -/
theorem keeps_whileTrace (hfuel : A .outOfFuel)
    (hbody : ∀ b, Inv b → Keeps I A (body b) (Sum.elim Inv R)) (fuel : Nat) {b : β}
    (hb : Inv b) : Keeps I A (whileTrace body fuel b) (fun x => R x.2) := by
  induction fuel generalizing b with
  | zero => exact fun s hs => ⟨hs, hfuel⟩
  | succ fuel ih =>
      apply (hbody b hb).bind
      intro y hx
      rcases y with b' | r
      · apply (ih hx).bind
        intro y hr
        obtain ⟨rounds, r⟩ := y
        exact keeps_pure hr
      · exact keeps_pure hx

theorem keeps_whileTrue (hfuel : A .outOfFuel)
    (hbody : ∀ b, Inv b → Keeps I A (body b) (Sum.elim Inv R)) (fuel : Nat) {b : β}
    (hb : Inv b) : Keeps I A (whileTrue body fuel b) R := by
  apply (keeps_whileTrace Inv hfuel hbody fuel hb).bind
  intro x hr
  obtain ⟨rounds, r⟩ := x
  exact keeps_pure hr

end Rules

/-! ## Runs that never return -/

/-- The run stops early from every state. -/
abbrev NeverReturns (x : Run ε σ α) : Prop :=
  Keeps (fun _ => True) (fun _ => True) x (fun _ => False)

theorem NeverReturns.bind {x : Run ε σ α} (h : NeverReturns x) (f : α → Run ε σ β) :
    NeverReturns (x >>= f) :=
  Keeps.bind h fun _ ha => ha.elim

theorem neverReturns_throw (e : ε) : NeverReturns (Run.throw e : Run ε σ α) := keeps_throw trivial

theorem neverReturns_ofOption (e : ε) {o : Option α} (h : o = none) :
    NeverReturns (Run.ofOption e o : Run ε σ α) := by
  subst h
  exact neverReturns_throw e

theorem neverReturns_whileTrue {body : β → Run ε σ (β ⊕ ρ)} (h : ∀ b, NeverReturns (body b))
    (fuel : Nat) (b : β) : NeverReturns (whileTrue body fuel b) :=
  keeps_whileTrue (fun _ => True) trivial (fun b _ => (h b).mono fun _ hx => hx.elim) fuel trivial

end AcceptableArguments.Imperative
