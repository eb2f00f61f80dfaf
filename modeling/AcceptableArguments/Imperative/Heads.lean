import AcceptableArguments.Imperative.Run

/-!
# Loop heads

A run can carry a list beside its state and note there what it sees at the heads of its
loops. `Visits P x y s Q` says that from `s` the noting run `x` does what `y` does,
that everything it notes satisfies `P` and that the value it returns satisfies `Q`. The
loop rules ask for an invariant that gives `P` at the head.
-/

namespace AcceptableArguments.Imperative

variable {ε σ τ α β ρ : Type}

/-- A run beside a list that it leaves alone. -/
def Run.beside (y : Run ε σ α) : Run ε (σ × List τ) α :=
  fun s => ((y s.1).1, (y s.1).2, s.2)

def note (head : τ) : Run ε (σ × List τ) Unit := Run.modify fun s => (s.1, s.2 ++ [head])

/-- A loop over a list. Its head is reached before every round and once more at the end
of the list. -/
def foldNoting (head : β → τ) (f : β → α → Run ε (σ × List τ) β) :
    List α → β → Run ε (σ × List τ) β
  | [], b => do
      note (head b)
      pure b
  | a :: l, b => do
      note (head b)
      let b' ← f b a
      foldNoting head f l b'

/-- `while (true)`, with fuel as in `whileTrue`. -/
def whileNoting (head : β → τ) (body : β → Run ε (σ × List τ) (β ⊕ ρ)) :
    Nat → β → Run ε (σ × List τ) ρ
  | 0, _ => fun s => (.error .outOfFuel, s)
  | fuel + 1, b => do
      note (head b)
      match ← body b with
      | .inr r => pure r
      | .inl b' => whileNoting head body fuel b'

/-! ## Checked accesses in a loop -/

theorem ofOption_bind (e : ε) (o : Option α) (f : α → Option β) :
    (Run.ofOption e (o >>= f) : Run ε σ β) =
      (Run.ofOption e o >>= fun a => Run.ofOption e (f a)) := by
  cases o <;> rfl

theorem ofOption_foldlM (e : ε) (f : β → α → Option β) (l : List α) (b : β) :
    (Run.ofOption e (l.foldlM f b) : Run ε σ β) =
      l.foldlM (fun b a => Run.ofOption e (f b a)) b := by
  induction l generalizing b with
  | nil => rfl
  | cons a l ih =>
      rw [List.foldlM_cons, List.foldlM_cons, ofOption_bind]
      simp only [ih]

/-! ## The rules -/

/-- From `s` the run `x` does what `y` does and notes only what satisfies `P`. -/
def Visits (P : τ → Prop) (x : Run ε (σ × List τ) α) (y : Run ε σ α) (s : σ)
    (Q : α → Prop) : Prop :=
  ∀ heads, ∃ new, x (s, heads) = ((y s).1, (y s).2, heads ++ new) ∧
    (∀ head ∈ new, P head) ∧ Ensures y s (fun a _ => Q a) (fun _ _ => True)

section Rules

variable {P : τ → Prop} {s : σ} {Q : α → Prop} {R : β → Prop}

theorem visits_beside {y : Run ε σ α}
    (hy : Ensures y s (fun a _ => Q a) (fun _ _ => True)) : Visits P y.beside y s Q :=
  fun heads => ⟨[], by simp [Run.beside], by simp, hy⟩

/-- Nothing is asked of the value. -/
theorem visits_beside_any (y : Run ε σ α) : Visits P y.beside y s (fun _ => True) := by
  apply visits_beside
  unfold Ensures
  rcases y s with ⟨e | a, s'⟩ <;> trivial

theorem visits_pure {a : α} (ha : Q a) :
    Visits P (pure a : Run ε (σ × List τ) α) (pure a) s Q :=
  fun heads => ⟨[], by rw [List.append_nil]; rfl, by simp, ha⟩

theorem visits_note {x : Run ε (σ × List τ) α} {y : Run ε σ α} {head : τ} (hhead : P head)
    (hx : Visits P x y s Q) : Visits P (note head >>= fun _ => x) y s Q := by
  intro heads
  obtain ⟨new, hrun, hnew, hQ⟩ := hx (heads ++ [head])
  refine ⟨head :: new, ?_, List.forall_mem_cons.mpr ⟨hhead, hnew⟩, hQ⟩
  calc (note head >>= fun _ => x) (s, heads)
      = x (s, heads ++ [head]) := rfl
    _ = ((y s).1, (y s).2, heads ++ head :: new) := by
        rw [hrun, List.append_assoc, List.singleton_append]

/-- The second runs are compared where the first one ends. -/
theorem Visits.bind_ensures {x : Run ε (σ × List τ) α} {y : Run ε σ α}
    {f : α → Run ε (σ × List τ) β} {g : α → Run ε σ β} (hx : Visits P x y s Q)
    (hf : Ensures y s (fun a s' => Visits P (f a) (g a) s' R) (fun _ _ => True)) :
    Visits P (x >>= f) (y >>= g) s R := by
  intro heads
  obtain ⟨new, hrun, hnew, -⟩ := hx heads
  unfold Ensures at hf ⊢
  rw [Run.bind_apply, Run.bind_apply, hrun]
  rcases hy : y s with ⟨e | a, s'⟩ <;> rw [hy] at hf
  · exact ⟨new, rfl, hnew, trivial⟩
  · obtain ⟨rest, hrest, hall, hR⟩ := hf (heads ++ new)
    refine ⟨new ++ rest, ?_, fun head hmem => ?_, hR⟩
    · rw [← List.append_assoc]
      exact hrest
    · rcases List.mem_append.mp hmem with hmem | hmem
      · exact hnew head hmem
      · exact hall head hmem

theorem Visits.bind {x : Run ε (σ × List τ) α} {y : Run ε σ α}
    {f : α → Run ε (σ × List τ) β} {g : α → Run ε σ β} (hx : Visits P x y s Q)
    (hf : ∀ a s', Q a → Visits P (f a) (g a) s' R) : Visits P (x >>= f) (y >>= g) s R := by
  obtain ⟨-, -, -, hQ⟩ := hx []
  apply hx.bind_ensures
  apply hQ.post
  intro a s' ha
  exact hf a s' ha

theorem Visits.mono {x : Run ε (σ × List τ) α} {y : Run ε σ α} {Q' : α → Prop}
    (hx : Visits P x y s Q) (hQ : ∀ a, Q a → Q' a) : Visits P x y s Q' := by
  intro heads
  obtain ⟨new, hrun, hnew, hy⟩ := hx heads
  exact ⟨new, hrun, hnew, hy.post fun a _ ha => hQ a ha⟩

/-- A postcondition of the plain run. -/
theorem Visits.ensures {x : Run ε (σ × List τ) α} {y : Run ε σ α} {E : Halt ε → σ → Prop}
    {Q' : α → Prop} (hx : Visits P x y s Q) (hy : Ensures y s (fun a _ => Q' a) E) :
    Visits P x y s Q' := by
  intro heads
  obtain ⟨new, hrun, hnew, -⟩ := hx heads
  exact ⟨new, hrun, hnew, hy.mono (fun _ _ ha => ha) (fun _ _ _ => trivial)⟩

/-- A loop over a list with an invariant of its state. -/
theorem visits_foldNoting {head : β → τ} {f : β → α → Run ε (σ × List τ) β}
    {g : β → α → Run ε σ β} (Inv : β → Prop) {l : List α}
    (hhead : ∀ b, Inv b → P (head b))
    (hstep : ∀ b s, Inv b → ∀ a ∈ l, Visits P (f b a) (g b a) s Inv)
    {b : β} (hb : Inv b) : Visits P (foldNoting head f l b) (l.foldlM g b) s Inv := by
  induction l generalizing b s with
  | nil =>
      apply visits_note (hhead b hb)
      exact visits_pure hb
  | cons a l ih =>
      rw [List.foldlM_cons]
      apply visits_note (hhead b hb)
      apply (hstep b s hb a (by simp)).bind
      intro b' s' hb'
      exact ih (fun b s hb a ha => hstep b s hb a (by simp [ha])) hb'

/-- `while (true)` with an invariant of its state. -/
theorem visits_whileNoting {head : β → τ} {f : β → Run ε (σ × List τ) (β ⊕ α)}
    {g : β → Run ε σ (β ⊕ α)} (Inv : β → Prop) (hhead : ∀ b, Inv b → P (head b))
    (hbody : ∀ b s, Inv b → Visits P (f b) (g b) s (Sum.elim Inv Q))
    {fuel : Nat} {b : β} (hb : Inv b) :
    Visits P (whileNoting head f fuel b) (whileTrue g fuel b) s Q := by
  induction fuel generalizing b s with
  | zero => exact fun heads => ⟨[], by rw [List.append_nil]; rfl, by simp, trivial⟩
  | succ fuel ih =>
      rw [whileTrue_succ]
      apply visits_note (hhead b hb)
      apply (hbody b s hb).bind
      intro x s' hx
      cases x with
      | inl b' => exact ih hx
      | inr r => exact visits_pure hx

end Rules

end AcceptableArguments.Imperative
