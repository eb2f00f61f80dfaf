import AcceptableArguments.Solver
import AcceptableArguments.Sat.Incremental

/-!
# Sequences of calls on an incremental solver

`Pending` is what a sequence of calls means: the clauses added so far and the literals
assumed since the last solve. A wrapper refines it when its state stays related to the
pending state under every call and its solves ask the core for exactly the pending
clauses and assumptions.
-/

namespace AcceptableArguments

open AcceptableArguments.Sat Imperative

/-! ## Calls and their meaning -/

inductive Call where
  | addClause (clause : List Int)
  | addClause1 (lit : Int)
  | addClause2 (lit1 lit2 : Int)
  | addClause3 (lit1 lit2 lit3 : Int)
  | assume (lit : Int)
  | solve
  | solveAssuming (assumptions : List Int)
  deriving DecidableEq, Repr

def Call.literals : Call → List Int
  | .addClause clause => clause
  | .addClause1 lit => [lit]
  | .addClause2 lit1 lit2 => [lit1, lit2]
  | .addClause3 lit1 lit2 lit3 => [lit1, lit2, lit3]
  | .assume lit => [lit]
  | .solve => []
  | .solveAssuming assumptions => assumptions

/-- The literals of the calls before the first solve. -/
def literalsBeforeSolve : List Call → List Int
  | [] => []
  | .solve :: _ => []
  | .solveAssuming _ :: _ => []
  | c :: calls => c.literals ++ literalsBeforeSolve calls

/-- `seen` lists every literal handed over so far. -/
structure Pending where
  clauses : List Clause
  assumed : List Int
  seen : List Int

namespace Pending

def empty : Pending where
  clauses := []
  assumed := []
  seen := []

def add (p : Pending) (clause : Clause) : Pending :=
  { p with clauses := p.clauses ++ [clause], seen := p.seen ++ clause }

def assume (p : Pending) (lits : List Int) : Pending :=
  { p with assumed := p.assumed ++ lits, seen := p.seen ++ lits }

/-- What a solve decides now. -/
def query (p : Pending) : Query where
  clauses := p.clauses
  assumptions := p.assumed
  soft := []

def solved (p : Pending) : Pending := { p with assumed := [] }

/-- The query that a call decides, if any, and what is pending afterwards. -/
def step (p : Pending) : Call → List Query × Pending
  | .addClause clause => ([], p.add clause)
  | .addClause1 lit => ([], p.add [lit])
  | .addClause2 lit1 lit2 => ([], p.add [lit1, lit2])
  | .addClause3 lit1 lit2 lit3 => ([], p.add [lit1, lit2, lit3])
  | .assume lit => ([], p.assume [lit])
  | .solve => ([p.query], p.solved)
  | .solveAssuming assumptions =>
      ([(p.assume assumptions).query], (p.assume assumptions).solved)

/-- The queries of the solves in a sequence of calls, in order. -/
def queries (p : Pending) : List Call → List Query
  | [] => []
  | c :: calls => (p.step c).1 ++ (p.step c).2.queries calls

end Pending

/-! ## Runs of a wrapper -/

/-- The functions of a `SATSolver` class with objects in `S`, its model and the calls on its
core. -/
structure Wrapper (L S : Type) where
  new : Nat → Nat → S
  addClause : S → List Int → Except Fault S
  addClause1 : S → Int → Except Fault S
  addClause2 : S → Int → Int → Except Fault S
  addClause3 : S → Int → Int → Int → Except Fault S
  assume : S → Int → Except Fault S
  solve : S → Except Fault (Verdict × S)
  model : S → List Bool
  history : S → List (CoreCall L)

/-- What is visible after a solve. -/
structure Solved (L : Type) where
  verdict : Verdict
  model : List Bool
  history : List (CoreCall L)

namespace Wrapper

variable {L S : Type} (W : Wrapper L S)

/-- `solve(assumptions)`, the same loop in every class: the parameter is assumed literal
by literal. -/
def solveAssuming (s : S) (assumptions : List Int) : Except Fault (Verdict × S) := do
  let s ← assumptions.foldlM W.assume s
  W.solve s

def visible (verdict : Verdict) (s : S) : Solved L where
  verdict := verdict
  model := W.model s
  history := W.history s

def step (s : S) : Call → Except Fault (List (Solved L) × S)
  | .addClause clause => do return ([], ← W.addClause s clause)
  | .addClause1 lit => do return ([], ← W.addClause1 s lit)
  | .addClause2 lit1 lit2 => do return ([], ← W.addClause2 s lit1 lit2)
  | .addClause3 lit1 lit2 lit3 => do return ([], ← W.addClause3 s lit1 lit2 lit3)
  | .assume lit => do return ([], ← W.assume s lit)
  | .solve => do
      let (verdict, s) ← W.solve s
      return ([W.visible verdict s], s)
  | .solveAssuming assumptions => do
      let (verdict, s) ← W.solveAssuming s assumptions
      return ([W.visible verdict s], s)

/-- The solves of a sequence of calls. -/
def run (s : S) : List Call → Except Fault (List (Solved L))
  | [] => .ok []
  | c :: calls => do
      let (out, s) ← W.step s c
      return out ++ (← run s calls)

end Wrapper

/-- How a wrapper translates a literal, and where its core keeps a variable. -/
structure Encoding (L : Type) where
  lit : Int → L
  value : Assignment → Nat → Bool

/-- The core was asked for exactly the query in translation, and the verdict and the
model are its answer. -/
def Answers {L : Type} (C : Core L) (e : Encoding L) (nArgs : Nat) (q : Query)
    (r : Solved L) : Prop :=
  ∃ before assumptions, r.history = before ++ [.solve assumptions] ∧
    addedClauses before = q.clauses.map (List.map e.lit) ∧
    assumptions = q.assumptions.map e.lit ∧
    match C before assumptions with
    | .sat m => r.verdict = .SAT_V ∧ r.model = vec nArgs (fun i => e.value m (i + 1))
    | .unsat => r.verdict = .UNSAT_V
    | .unknown => False

/-! ## Refinement -/

/-- Every variable that a model lists has occurred. -/
def Pending.Covers (p : Pending) (nArgs : Nat) : Prop :=
  ∀ v, 1 ≤ v → v ≤ nArgs → ∃ l ∈ p.seen, l.natAbs = v

/-- The library knows at least the variables that a model lists. -/
theorem Pending.Covers.le {p : Pending} {nArgs N : Nat} (h : p.Covers nArgs)
    (hN : ∀ l ∈ p.seen, l.natAbs ≤ N) : nArgs ≤ N := by
  cases nArgs with
  | zero => omega
  | succ n =>
      obtain ⟨l, hl, hln⟩ := h (n + 1) (by omega) (by omega)
      have := hN l hl
      omega

/-- `R` relates the states of the wrapper to what is pending. -/
structure Wrapper.Refines {L S : Type} (W : Wrapper L S) (C : Core L) (e : Encoding L)
    (nVars nArgs : Nat) (R : S → Pending → Prop) : Prop where
  new : R (W.new nVars nArgs) .empty
  addClause : ∀ {s p c}, R s p → (∀ l ∈ c, InRange nVars l) →
    ∃ s', W.addClause s c = .ok s' ∧ R s' (p.add c)
  addClause1_eq : ∀ s lit, W.addClause1 s lit = W.addClause s [lit]
  addClause2_eq : ∀ s lit1 lit2, W.addClause2 s lit1 lit2 = W.addClause s [lit1, lit2]
  addClause3_eq : ∀ s lit1 lit2 lit3,
    W.addClause3 s lit1 lit2 lit3 = W.addClause s [lit1, lit2, lit3]
  assume : ∀ {s p l}, R s p → InRange nVars l →
    ∃ s', W.assume s l = .ok s' ∧ R s' (p.assume [l])
  solve : ∀ {s p}, R s p → p.Covers nArgs → ∃ verdict s', W.solve s = .ok (verdict, s') ∧
    R s' p.solved ∧ Answers C e nArgs p.query (W.visible verdict s')

section Refines

variable {L S : Type} {W : Wrapper L S} {C : Core L} {e : Encoding L} {nVars nArgs : Nat}
  {R : S → Pending → Prop}

theorem Wrapper.Refines.assumeAll (hW : W.Refines C e nVars nArgs R) {lits : List Int}
    {s : S} {p : Pending} (hR : R s p) (hlits : ∀ l ∈ lits, InRange nVars l) :
    ∃ s', lits.foldlM W.assume s = .ok s' ∧ R s' (p.assume lits) := by
  induction lits generalizing s p with
  | nil =>
      refine ⟨s, rfl, ?_⟩
      simpa [Pending.assume] using hR
  | cons l lits ih =>
      obtain ⟨s₁, hs₁, hR₁⟩ := hW.assume hR (hlits l (by simp))
      obtain ⟨s₂, hs₂, hR₂⟩ := ih hR₁ (fun k hk => hlits k (by simp [hk]))
      refine ⟨s₂, ?_, by simpa [Pending.assume] using hR₂⟩
      rw [List.foldlM_cons, hs₁]
      exact hs₂

/-- A call is a solve. -/
def Call.IsSolve : Call → Prop
  | .solve | .solveAssuming _ => True
  | _ => False

/-- One call. -/
theorem Wrapper.Refines.step (hW : W.Refines C e nVars nArgs R) {s : S} {p : Pending}
    (hR : R s p) {c : Call} (hc : ∀ l ∈ c.literals, InRange nVars l)
    (hcovers : c.IsSolve → p.Covers nArgs) :
    ∃ out s', W.step s c = .ok (out, s') ∧ R s' (p.step c).2 ∧
      List.Forall₂ (Answers C e nArgs) (p.step c).1 out := by
  have hadd : ∀ clause, (∀ l ∈ clause, InRange nVars l) →
      ∃ s', (do return ([], ← W.addClause s clause)) = (.ok ([], s') :
        Except Fault (List (Solved L) × S)) ∧ R s' (p.add clause) := by
    intro clause hclause
    obtain ⟨s', hs', hR'⟩ := hW.addClause hR hclause
    exact ⟨s', by rw [hs']; rfl, hR'⟩
  cases c with
  | addClause clause =>
      obtain ⟨s', hs', hR'⟩ := hadd clause hc
      exact ⟨[], s', hs', hR', .nil⟩
  | addClause1 lit =>
      obtain ⟨s', hs', hR'⟩ := hadd [lit] hc
      refine ⟨[], s', ?_, hR', .nil⟩
      rw [← hs', ← hW.addClause1_eq]
      rfl
  | addClause2 lit1 lit2 =>
      obtain ⟨s', hs', hR'⟩ := hadd [lit1, lit2] hc
      refine ⟨[], s', ?_, hR', .nil⟩
      rw [← hs', ← hW.addClause2_eq]
      rfl
  | addClause3 lit1 lit2 lit3 =>
      obtain ⟨s', hs', hR'⟩ := hadd [lit1, lit2, lit3] hc
      refine ⟨[], s', ?_, hR', .nil⟩
      rw [← hs', ← hW.addClause3_eq]
      rfl
  | assume lit =>
      obtain ⟨s', hs', hR'⟩ := hW.assume hR (hc lit (by simp [Call.literals]))
      exact ⟨[], s', by simp only [Wrapper.step, hs']; rfl, hR', .nil⟩
  | solve =>
      obtain ⟨verdict, s', hs', hR', hans⟩ := hW.solve hR (hcovers trivial)
      exact ⟨[W.visible verdict s'], s', by simp only [Wrapper.step, hs']; rfl, hR',
        .cons hans .nil⟩
  | solveAssuming assumptions =>
      have hc : ∀ l ∈ assumptions, InRange nVars l := hc
      obtain ⟨s₁, hs₁, hR₁⟩ := hW.assumeAll hR hc
      have hcovers₁ : (p.assume assumptions).Covers nArgs := by
        intro v h1 hv
        obtain ⟨l, hl, hlv⟩ := hcovers trivial v h1 hv
        exact ⟨l, List.mem_append_left _ hl, hlv⟩
      obtain ⟨verdict, s', hs', hR', hans⟩ := hW.solve hR₁ hcovers₁
      have hsolve : W.solveAssuming s assumptions = .ok (verdict, s') := by
        rw [Wrapper.solveAssuming, hs₁]
        exact hs'
      exact ⟨[W.visible verdict s'], s', by simp only [Wrapper.step, hsolve]; rfl, hR',
        .cons hans .nil⟩

theorem Pending.seen_step (p : Pending) (c : Call) :
    (p.step c).2.seen = p.seen ++ c.literals := by
  cases c <;> simp [Pending.step, Pending.add, Pending.assume, Pending.solved, Call.literals]

/-- Every solve of every sequence of calls. -/
theorem Wrapper.Refines.run (hW : W.Refines C e nVars nArgs R) {calls : List Call}
    {s : S} {p : Pending} (hR : R s p)
    (hrange : ∀ c ∈ calls, ∀ l ∈ c.literals, InRange nVars l)
    (hvars : ∀ v, 1 ≤ v → v ≤ nArgs → ∃ l ∈ p.seen ++ literalsBeforeSolve calls,
      l.natAbs = v) :
    ∃ out, W.run s calls = .ok out ∧
      List.Forall₂ (Answers C e nArgs) (p.queries calls) out := by
  induction calls generalizing s p with
  | nil => exact ⟨[], rfl, .nil⟩
  | cons c calls ih =>
      have hcovers : c.IsSolve → p.Covers nArgs := by
        intro hsolve v h1 hv
        obtain ⟨l, hl, hlv⟩ := hvars v h1 hv
        cases c <;> simp only [Call.IsSolve] at hsolve <;>
          exact ⟨l, by simpa [literalsBeforeSolve] using hl, hlv⟩
      obtain ⟨out, s', hstep, hR', hout⟩ := hW.step hR (hrange c (by simp)) hcovers
      have hvars' : ∀ v, 1 ≤ v → v ≤ nArgs →
          ∃ l ∈ (p.step c).2.seen ++ literalsBeforeSolve calls, l.natAbs = v := by
        intro v h1 hv
        obtain ⟨l, hl, hlv⟩ := hvars v h1 hv
        refine ⟨l, ?_, hlv⟩
        rw [Pending.seen_step]
        cases c <;> simp only [literalsBeforeSolve, List.mem_append, List.not_mem_nil,
          or_false] at hl ⊢ <;> tauto
      obtain ⟨rest, hrest, hanswers⟩ := ih hR' (fun c' hc' => hrange c' (by simp [hc'])) hvars'
      refine ⟨out ++ rest, ?_, List.rel_append hout hanswers⟩
      rw [Wrapper.run, hstep]
      change (do return out ++ (← W.run s' calls)) = _
      rw [hrest]
      rfl

end Refines

end AcceptableArguments
