import Mathlib.Data.List.Basic
import Mathlib.Algebra.GroupWithZero.Nat
import Mathlib.Algebra.BigOperators.Group.List.Basic
import Mathlib.Tactic.Common

/-!
# Vectors with checked accesses

A vector is a list and an access outside it is `none`. Loops over `0 .. n - 1`
that read and write vectors entry by entry are summarised by their state after
`k` rounds; vectors of length `n` are written `vec n p` for that purpose.
-/

namespace AcceptableArguments.Imperative

/-- `vector::resize`. -/
def resize {α : Type} (l : List α) (n : Nat) (d : α) : List α :=
  l.take n ++ List.replicate (n - l.length) d

/-- `v[i] = x`, `none` when `i` is out of bounds. -/
def setAt {α : Type} (l : List α) (i : Nat) (x : α) : Option (List α) :=
  if i < l.length then some (l.set i x) else none

/-- `v[i].push_back(x)`, `none` when `i` is out of bounds. -/
def pushAt {α : Type} (l : List (List α)) (i : Nat) (x : α) : Option (List (List α)) :=
  if i < l.length then some (l.modify i (· ++ [x])) else none

/-- `v[i]` of a vector of vectors, empty when `i` is out of bounds. -/
def row {α : Type} (l : List (List α)) (i : Nat) : List α := l.getD i []

theorem resize_nil {α : Type} (n : Nat) (d : α) : resize [] n d = List.replicate n d := by
  simp [resize]

theorem row_replicate {α : Type} (n i : Nat) :
    row (List.replicate n ([] : List α)) i = [] := by
  simp only [row, List.getD_eq_getElem?_getD, List.getElem?_replicate]
  split <;> rfl

theorem resize_of_le {α : Type} {l : List α} {n : Nat} (h : l.length ≤ n) (d : α) :
    resize l n d = l ++ List.replicate (n - l.length) d := by
  rw [resize, List.take_of_length_le h]

theorem row_append_replicate {α : Type} (l : List (List α)) (n i : Nat) :
    row (l ++ List.replicate n []) i = row l i := by
  simp only [row, List.getD_eq_getElem?_getD, List.getElem?_append, List.getElem?_replicate]
  by_cases hi : i < l.length
  · rw [if_pos hi]
  · rw [if_neg hi, List.getElem?_eq_none (by omega)]
    split <;> rfl

theorem row_modify {α : Type} {l : List (List α)} {i : Nat} (hi : i < l.length)
    (f : List α → List α) (k : Nat) :
    row (l.modify i f) k = if k = i then f (row l k) else row l k := by
  simp only [row, List.getD_eq_getElem?_getD, List.getElem?_modify]
  by_cases hk : k = i
  · subst hk
    simp [hi]
  · have hik : i ≠ k := fun h => hk h.symm
    simp [hk, hik]

theorem getElem?_eq_row {α : Type} {l : List (List α)} {i : Nat} (hi : i < l.length) :
    l[i]? = some (row l i) := by
  simp [row, hi]

theorem mem_of_mem_row {α : Type} {l : List (List α)} {i : Nat} {x : α}
    (hx : x ∈ row l i) : i < l.length ∧ row l i ∈ l := by
  have hi : i < l.length := by
    by_contra hge
    simp [row, List.getD_eq_getElem?_getD, List.getElem?_eq_none (Nat.le_of_not_lt hge)] at hx
  exact ⟨hi, List.mem_of_getElem? (getElem?_eq_row hi)⟩

theorem sum_length_modify {α : Type} {l : List (List α)} {i : Nat} (hi : i < l.length)
    (x : α) :
    ((l.modify i (· ++ [x])).map List.length).sum = (l.map List.length).sum + 1 := by
  induction l generalizing i with
  | nil => simp at hi
  | cons r l ih =>
      cases i with
      | zero =>
          simp only [List.modify_zero_cons, List.map_cons, List.sum_cons, List.length_append,
            List.length_singleton]
          omega
      | succ i =>
          simp only [List.modify_succ_cons, List.map_cons, List.sum_cons]
          rw [ih (by simpa using hi)]
          omega

theorem map_isEmpty_modify {α : Type} {l : List (List α)} {i : Nat} (x : α) :
    (l.modify i (· ++ [x])).map List.isEmpty = (l.map List.isEmpty).set i false := by
  induction l generalizing i with
  | nil => simp
  | cons r l ih =>
      cases i with
      | zero => simp
      | succ i => simp [ih]

theorem mapM_eq_map {α β : Type} {l : List α} {f : α → Option β} {g : α → β}
    (h : ∀ a ∈ l, f a = some (g a)) : l.mapM f = some (l.map g) := by
  induction l with
  | nil => rfl
  | cons a l ih =>
      rw [List.mapM_cons, h a (by simp), ih (fun b hb => h b (by simp [hb]))]
      rfl

theorem set_append_replicate {α : Type} (l : List α) (x y : α) (k : Nat) :
    setAt (l ++ List.replicate (k + 1) y) l.length x =
      some (l ++ [x] ++ List.replicate k y) := by
  rw [setAt, if_pos (by simp), List.set_append_right _ _ (Nat.le_refl _)]
  simp [List.replicate_succ]

/-! ## Vectors given by a function -/

/-- The vector with the entries `p 0 .. p (n - 1)`. -/
def vec {α : Type} (n : Nat) (p : Nat → α) : List α := (List.range n).map p

@[simp] theorem length_vec {α : Type} (n : Nat) (p : Nat → α) : (vec n p).length = n := by
  simp [vec]

theorem vec_get {α : Type} {n i : Nat} (p : Nat → α) (hi : i < n) :
    (vec n p)[i]? = some (p i) := by
  simp [vec, hi]

theorem vec_congr {α : Type} {n : Nat} {p q : Nat → α} (h : ∀ i < n, p i = q i) :
    vec n p = vec n q := by
  apply List.map_congr_left
  intro i hi
  exact h i (List.mem_range.mp hi)

theorem eq_vec_of_length {α : Type} {l : List α} {n : Nat} (h : l.length = n) (d : α) :
    l = vec n (fun i => l.getD i d) := by
  subst h
  apply List.ext_getElem
  · simp
  · intro i hi _
    simp [vec, hi]

theorem replicate_eq_vec {α : Type} (n : Nat) (x : α) :
    List.replicate n x = vec n (fun _ => x) := by
  simp [vec]

theorem setAt_vec {α : Type} {n i : Nat} (p : Nat → α) (x : α) (hi : i < n) :
    setAt (vec n p) i x = some (vec n (fun k => if k = i then x else p k)) := by
  rw [setAt, if_pos (by simpa using hi)]
  congr 1
  apply List.ext_getElem
  · simp
  · intro k hk hk'
    simp only [vec, List.getElem_set, List.getElem_map, List.getElem_range, eq_comm]

/-! ## Vectors that a loop updates from the left -/

/-- The vector whose first `k` entries have been replaced. -/
def updated {α : Type} (n k : Nat) (new old : Nat → α) : List α :=
  vec n (fun i => if i < k then new i else old i)

theorem updated_zero {α : Type} (n : Nat) (new old : Nat → α) :
    updated n 0 new old = vec n old := by
  simp [updated]

theorem updated_all {α : Type} (n : Nat) (new old : Nat → α) :
    updated n n new old = vec n new :=
  vec_congr fun i hi => by simp [hi]

theorem updated_get {α : Type} {n k : Nat} (new old : Nat → α) (hk : k < n) :
    (updated n k new old)[k]? = some (old k) := by
  rw [updated, vec_get _ hk]
  simp

theorem updated_succ_of_eq {α : Type} {n k : Nat} {new old : Nat → α}
    (h : new k = old k) : updated n (k + 1) new old = updated n k new old := by
  apply vec_congr
  intro i _
  by_cases hik : i = k
  · simp [hik, h]
  · have hlt : i < k + 1 ↔ i < k := by omega
    simp [hlt]

theorem setAt_updated {α : Type} {n k : Nat} {new old : Nat → α} {x : α} (hk : k < n)
    (hx : x = new k) :
    setAt (updated n k new old) k x = some (updated n (k + 1) new old) := by
  rw [updated, setAt_vec _ _ hk]
  congr 1
  apply vec_congr
  intro i _
  by_cases hik : i = k
  · simp [hik, hx]
  · have hlt : i < k + 1 ↔ i < k := by omega
    simp [hik, hlt]

/-! ## Lists that a loop extends -/

/-- The values `f i` of the indices `i < n` that satisfy `p`, in order. -/
def picks {α : Type} (n : Nat) (p : Nat → Bool) (f : Nat → α) : List α :=
  ((List.range n).filter p).map f

@[simp] theorem picks_zero {α : Type} (p : Nat → Bool) (f : Nat → α) :
    picks 0 p f = [] := rfl

theorem picks_succ {α : Type} (n : Nat) (p : Nat → Bool) (f : Nat → α) :
    picks (n + 1) p f = picks n p f ++ if p n then [f n] else [] := by
  simp only [picks, List.range_succ, List.filter_append, List.map_append]
  cases hp : p n <;> simp [hp]

theorem mem_picks {α : Type} {n : Nat} {p : Nat → Bool} {f : Nat → α} {x : α} :
    x ∈ picks n p f ↔ ∃ i < n, p i = true ∧ f i = x := by
  simp [picks, and_assoc]

/-- A loop over a list all of whose steps succeed and keep `P`. -/
theorem exists_foldlM {α β : Type} {f : β → α → Option β} {P : β → Prop} {l : List α}
    (h : ∀ b, P b → ∀ a ∈ l, ∃ b', f b a = some b' ∧ P b') {b : β} (hb : P b) :
    ∃ b', l.foldlM f b = some b' ∧ P b' := by
  induction l generalizing b with
  | nil => exact ⟨b, rfl, hb⟩
  | cons a l ih =>
      obtain ⟨b₁, hstep, hb₁⟩ := h b hb a (by simp)
      obtain ⟨b₂, hrest, hb₂⟩ := ih (fun b hb a ha => h b hb a (by simp [ha])) hb₁
      exact ⟨b₂, by simp [hstep, hrest], hb₂⟩

/-- A loop whose state after `k` rounds is `S k`. -/
theorem foldlM_range {β : Type} {n : Nat} {f : β → Nat → Option β} (S : Nat → β)
    (h : ∀ k < n, f (S k) k = some (S (k + 1))) :
    (List.range n).foldlM f (S 0) = some (S n) := by
  induction n with
  | zero => rfl
  | succ n ih =>
      rw [List.range_succ, List.foldlM_append, ih (fun k hk => h k (by omega))]
      simp [h n (by omega)]

/-- The same loop with errors. -/
theorem foldlM_range_ok {ε β : Type} {n : Nat} {f : β → Nat → Except ε β} (S : Nat → β)
    (h : ∀ k < n, f (S k) k = .ok (S (k + 1))) :
    (List.range n).foldlM f (S 0) = .ok (S n) := by
  induction n with
  | zero => rfl
  | succ n ih =>
      rw [List.range_succ, List.foldlM_append, ih (fun k hk => h k (by omega))]
      change (f (S n) n >>= fun b => pure b) = _
      rw [h n (by omega)]
      rfl

end AcceptableArguments.Imperative
