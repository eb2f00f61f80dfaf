import Mathlib.Tactic.Common
import Mathlib.Order.Basic

/-!
# Stateful runs with early stops and bounded loops

A run threads a state and returns a value or the reason why it stopped. The
state survives an early stop, so what happened before it stays visible. An
endless loop of the source takes a fuel argument; running out of fuel is a
reason of its own, and the variant rule below excludes it.
-/

namespace AcceptableArguments.Imperative

/-- Why a run stopped without a value. -/
inductive Halt (ε : Type) where
  | outOfFuel
  | error (e : ε)
  deriving DecidableEq, Repr

/-- A computation on the state `σ` that may stop early. -/
def Run (ε σ α : Type) : Type := σ → Except (Halt ε) α × σ

variable {ε σ α β ρ : Type}

namespace Run

def bind (x : Run ε σ α) (f : α → Run ε σ β) : Run ε σ β := fun s =>
  match x s with
  | (.ok a, s') => f a s'
  | (.error e, s') => (.error e, s')

instance : Monad (Run ε σ) where
  pure a := fun s => (.ok a, s)
  bind := bind

/-- Stop with an error. -/
def throw (e : ε) : Run ε σ α := fun s => (.error (.error e), s)

/-- A missing value is the error `e`. -/
def ofOption (e : ε) : Option α → Run ε σ α
  | some a => pure a
  | none => throw e

/-- A value or an error that does not depend on the state. -/
def ofExcept : Except ε α → Run ε σ α
  | .ok a => pure a
  | .error e => throw e

def get : Run ε σ σ := fun s => (.ok s, s)

def modify (f : σ → σ) : Run ε σ Unit := fun s => (.ok (), f s)

/-- A step that always returns. -/
def act (f : σ → α × σ) : Run ε σ α := fun s => (.ok (f s).1, (f s).2)

theorem bind_apply (x : Run ε σ α) (f : α → Run ε σ β) (s : σ) :
    (x >>= f) s = match x s with
      | (.ok a, s') => f a s'
      | (.error e, s') => (.error e, s') := rfl

@[simp] theorem ofOption_some (e : ε) (a : α) :
    (ofOption e (some a) : Run ε σ α) = pure a := rfl

@[simp] theorem pure_bind (a : α) (f : α → Run ε σ β) :
    (pure a >>= f : Run ε σ β) = f a := rfl

theorem bind_pure_fst (x : Run ε σ α) (f : α → β) (s : σ) :
    ((x >>= fun a => pure (f a) : Run ε σ β) s).1 = (x s).1.map f := by
  rw [bind_apply]
  rcases x s with ⟨e | a, s'⟩ <;> rfl

theorem bind_assoc {γ : Type} (x : Run ε σ α) (f : α → Run ε σ β) (g : β → Run ε σ γ) :
    (x >>= f >>= g : Run ε σ γ) = x >>= fun a => f a >>= g := by
  funext s
  simp only [bind_apply]
  rcases x s with ⟨e | a, s'⟩ <;> rfl

end Run

/-- Repeat `body` until it returns; each round yields the next loop state on
the left or the final value on the right. The states reached at the end of the
rounds that continue are returned in order. -/
def whileTrace (body : β → Run ε σ (β ⊕ ρ)) : Nat → β → Run ε σ (List β × ρ)
  | 0, _ => fun s => (.error .outOfFuel, s)
  | fuel + 1, b => do
      match ← body b with
      | .inr r => pure ([], r)
      | .inl b' => do
          let (rounds, r) ← whileTrace body fuel b'
          pure (b' :: rounds, r)

/-- `while (true)` with its final value only. -/
def whileTrue (body : β → Run ε σ (β ⊕ ρ)) (fuel : Nat) (b : β) : Run ε σ ρ := do
  let (_, r) ← whileTrace body fuel b
  pure r

theorem whileTrue_succ (body : β → Run ε σ (β ⊕ ρ)) (fuel : Nat) (b : β) :
    whileTrue body (fuel + 1) b = (body b >>= fun x => match x with
      | .inr r => pure r
      | .inl b' => whileTrue body fuel b') := by
  funext s
  simp only [whileTrue, whileTrace, Run.bind_apply]
  rcases body b s with ⟨e | b' | r, s'⟩
  · rfl
  · simp only [Run.bind_apply]
    rcases whileTrace body fuel b' s' with ⟨e | x, s''⟩ <;> rfl
  · rfl

/-! ## Postconditions -/

/-- The run from `s` ends in `Q` if it returns and in `E` if it stops early. -/
def Ensures (x : Run ε σ α) (s : σ) (Q : α → σ → Prop) (E : Halt ε → σ → Prop) : Prop :=
  match x s with
  | (.ok a, s') => Q a s'
  | (.error e, s') => E e s'

section Rules

variable {Q Q' : α → σ → Prop} {E E' : Halt ε → σ → Prop} {s : σ}

theorem ensures_pure {a : α} (h : Q a s) : Ensures (pure a : Run ε σ α) s Q E := h

theorem ensures_act {f : σ → α × σ} (h : Q (f s).1 (f s).2) :
    Ensures (Run.act f : Run ε σ α) s Q E := h

theorem ensures_get {R : σ → σ → Prop} (h : R s s) :
    Ensures (Run.get : Run ε σ σ) s R E := h

theorem ensures_bind {x : Run ε σ α} {f : α → Run ε σ β} {R : β → σ → Prop}
    (h : Ensures x s (fun a s' => Ensures (f a) s' R E) E) :
    Ensures (x >>= f) s R E := by
  unfold Ensures at h ⊢
  rw [Run.bind_apply]
  rcases hx : x s with ⟨_ | a, s'⟩ <;> rw [hx] at h <;> exact h

theorem Ensures.mono {x : Run ε σ α} (h : Ensures x s Q E)
    (hQ : ∀ a s', Q a s' → Q' a s') (hE : ∀ e s', E e s' → E' e s') :
    Ensures x s Q' E' := by
  unfold Ensures at h ⊢
  rcases hx : x s with ⟨e | a, s'⟩ <;> rw [hx] at h
  · exact hE e s' h
  · exact hQ a s' h

theorem Ensures.post {x : Run ε σ α} (h : Ensures x s Q E)
    (hQ : ∀ a s', Q a s' → Q' a s') : Ensures x s Q' E :=
  h.mono hQ (fun _ _ he => he)

theorem ensures_ofOption {e : ε} {o : Option α} {a : α} (ho : o = some a) (h : Q a s) :
    Ensures (Run.ofOption e o) s Q E := by
  subst ho
  exact h

/-- A run that cannot stop early returns a value with the postcondition. -/
theorem Ensures.exists_ok {x : Run ε σ α} (h : Ensures x s Q (fun _ _ => False)) :
    ∃ a s', x s = (.ok a, s') ∧ Q a s' := by
  unfold Ensures at h
  rcases hx : x s with ⟨e | a, s'⟩ <;> rw [hx] at h
  · exact h.elim
  · exact ⟨a, s', rfl, h⟩

end Rules

section Loops

variable {E : Halt ε → σ → Prop}

/-- The variant rule. `Inv k rounds b s` holds at the loop head with `rounds`
already completed, and every round that continues lowers `k`. -/
theorem ensures_whileTrace {body : β → Run ε σ (β ⊕ ρ)}
    (Inv : Nat → List β → β → σ → Prop) (Q : List β → ρ → σ → Prop)
    (hbody : ∀ k rounds b s, Inv k rounds b s → Ensures (body b) s
      (fun x s' => match x with
        | .inl b' => ∃ k' < k, Inv k' (rounds ++ [b']) b' s'
        | .inr r => Q rounds r s') E)
    {k fuel : Nat} {b : β} {s : σ} (hInv : Inv k [] b s) (hfuel : k < fuel) :
    Ensures (whileTrace body fuel b) s (fun x s' => Q x.1 x.2 s') E := by
  suffices h : ∀ (rounds : List β) (k : Nat) (b : β) (s : σ), Inv k rounds b s → k < fuel →
      Ensures (whileTrace body fuel b) s (fun x s' => Q (rounds ++ x.1) x.2 s') E from
    h [] k b s hInv hfuel
  clear hInv hfuel
  induction fuel with
  | zero =>
      intro rounds k b s _ hfuel
      omega
  | succ fuel ih =>
      intro rounds k b s hInv hfuel
      simp only [whileTrace]
      apply ensures_bind
      apply (hbody k rounds b s hInv).post
      intro y s' hx
      rcases y with b' | r
      · obtain ⟨k', hk', hInv'⟩ := hx
        apply ensures_bind
        apply (ih _ k' b' s' hInv' (by omega)).post
        intro y s'' hQ
        obtain ⟨rest, r⟩ := y
        apply ensures_pure
        simpa using hQ
      · apply ensures_pure
        simpa using hx

theorem ensures_whileTrue_of_trace {body : β → Run ε σ (β ⊕ ρ)} {fuel : Nat} {b : β}
    {s : σ} {Q : ρ → σ → Prop}
    (h : Ensures (whileTrace body fuel b) s (fun x s' => Q x.2 s') E) :
    Ensures (whileTrue body fuel b) s Q E := by
  apply ensures_bind
  apply h.post
  intro y s' hQ
  obtain ⟨rounds, r⟩ := y
  exact hQ

/-- The variant rule when the completed rounds do not matter. -/
theorem ensures_whileTrue {body : β → Run ε σ (β ⊕ ρ)}
    (Inv : Nat → β → σ → Prop) (Q : ρ → σ → Prop)
    (hbody : ∀ k b s, Inv k b s → Ensures (body b) s
      (fun x s' => match x with
        | .inl b' => ∃ k' < k, Inv k' b' s'
        | .inr r => Q r s') E)
    {k fuel : Nat} {b : β} {s : σ} (hInv : Inv k b s) (hfuel : k < fuel) :
    Ensures (whileTrue body fuel b) s Q E := by
  apply ensures_whileTrue_of_trace
  exact ensures_whileTrace (fun k _ => Inv k) (fun _ => Q)
    (fun k _ b s h => hbody k b s h) hInv hfuel

/-- The rule for a loop over a list; the invariant sees the part already processed. -/
theorem ensures_foldlM {f : β → α → Run ε σ β} (Inv : List α → β → σ → Prop)
    (l : List α)
    (hstep : ∀ pre a post b s, l = pre ++ a :: post → Inv pre b s →
      Ensures (f b a) s (fun b' s' => Inv (pre ++ [a]) b' s') E)
    {b : β} {s : σ} (hInv : Inv [] b s) :
    Ensures (l.foldlM f b) s (fun b' s' => Inv l b' s') E := by
  suffices h : ∀ (post pre : List α) (b : β) (s : σ), l = pre ++ post → Inv pre b s →
      Ensures (post.foldlM f b) s (fun b' s' => Inv l b' s') E from
    h l [] b s rfl hInv
  intro post
  induction post with
  | nil =>
      intro pre b s hl hpre
      simp only [List.foldlM_nil]
      apply ensures_pure
      simpa [hl] using hpre
  | cons a post ih =>
      intro pre b s hl hpre
      simp only [List.foldlM_cons]
      apply ensures_bind
      apply (hstep pre a post b s hl hpre).post
      intro b' s' hb'
      exact ih (pre ++ [a]) b' s' (by simp [hl]) hb'

/-- The rule for a loop that counts from zero. -/
theorem ensures_foldlM_range {f : β → Nat → Run ε σ β} (Inv : Nat → β → σ → Prop)
    (n : Nat)
    (hstep : ∀ k < n, ∀ b s, Inv k b s → Ensures (f b k) s (fun b' s' => Inv (k + 1) b' s') E)
    {b : β} {s : σ} (hInv : Inv 0 b s) :
    Ensures ((List.range n).foldlM f b) s (fun b' s' => Inv n b' s') E := by
  have hall := ensures_foldlM (E := E) (fun pre => Inv pre.length) (List.range n) (f := f)
    ?_ hInv
  · simpa using hall
  · intro pre a post b s hl hpre
    have hk : pre.length < n := by
      have hlen := congrArg List.length hl
      simp only [List.length_range, List.length_append, List.length_cons] at hlen
      omega
    have ha : a = pre.length := by
      have := congrArg (fun l => l[pre.length]?) hl
      simpa [hk, eq_comm] using this
    subst ha
    simpa using hstep pre.length hk b s hpre

end Loops

end AcceptableArguments.Imperative
