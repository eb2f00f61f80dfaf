import AcceptableArguments.Sat.Dimacs
import AcceptableArguments.Wrappers.ExternalSolver

/-!
# The text written to the external process

Clauses are stored with their final zero, by four entry points, and printed by one loop;
assumptions are printed behind them as unit clauses and then cleared. Read as DIMACS
text this is the formula the caller built.
-/

namespace AcceptableArguments.External

open AcceptableArguments.Sat Imperative

namespace ExternalSatSolver

def addClause1 (solver : ExternalSatSolver) (lit : Int) : ExternalSatSolver :=
  { solver with clauses := solver.clauses ++ [[lit, 0]] }

def addClause2 (solver : ExternalSatSolver) (lit1 lit2 : Int) : ExternalSatSolver :=
  { solver with clauses := solver.clauses ++ [[lit1, lit2, 0]] }

def addClause3 (solver : ExternalSatSolver) (lit1 lit2 lit3 : Int) : ExternalSatSolver :=
  { solver with clauses := solver.clauses ++ [[lit1, lit2, lit3, 0]] }

/-- The loop of `solve(assumptions)`. -/
def assumeAll (solver : ExternalSatSolver) (lits : List Int) : ExternalSatSolver :=
  lits.foldl assume solver

/-- What `solve` writes to the process. -/
def text (solver : ExternalSatSolver) : List Char :=
  ['p', ' ', 'c', 'n', 'f', ' '] ++ renderInt solver.numberOfVars ++ [' '] ++
    renderInt ((solver.clauses.length + solver.assumptions.length : Nat) : Int) ++ ['\n'] ++
    (solver.clauses.flatMap fun clause =>
      (clause.flatMap fun lit => renderInt lit ++ [' ']) ++ ['\n']) ++
    if solver.assumptions ≠ [] then
      solver.assumptions.flatMap fun assumption => renderInt assumption ++ [' ', '0', '\n']
    else []

end ExternalSatSolver

/-! ## Calls -/

/-- The calls of the wrapper; a solve comes with the lines that the process prints. -/
inductive WrapperCall where
  | addClause (clause : List Int)
  | addClause1 (lit : Int)
  | addClause2 (lit1 lit2 : Int)
  | addClause3 (lit1 lit2 lit3 : Int)
  | assume (lit : Int)
  | solve (output : List Line)
  | solveAssuming (assumptions : List Int) (output : List Line)

namespace WrapperCall

/-- The literals that the caller passes. -/
def literals : WrapperCall → List Int
  | .addClause clause => clause
  | .addClause1 lit => [lit]
  | .addClause2 lit1 lit2 => [lit1, lit2]
  | .addClause3 lit1 lit2 lit3 => [lit1, lit2, lit3]
  | .assume lit => [lit]
  | .solve _ => []
  | .solveAssuming assumptions _ => assumptions

/-- The solver behind the call. -/
def step (solver : ExternalSatSolver) : WrapperCall → Except Fault ExternalSatSolver
  | .addClause clause => .ok (solver.addClause clause)
  | .addClause1 lit => .ok (solver.addClause1 lit)
  | .addClause2 lit1 lit2 => .ok (solver.addClause2 lit1 lit2)
  | .addClause3 lit1 lit2 lit3 => .ok (solver.addClause3 lit1 lit2 lit3)
  | .assume lit => .ok (solver.assume lit)
  | .solve output => (solver.solve output).map Prod.snd
  | .solveAssuming assumptions output =>
      ((solver.assumeAll assumptions).solve output).map Prod.snd

/-- The text that the call writes, if it is a solve. -/
def written (solver : ExternalSatSolver) : WrapperCall → Option (List Char)
  | .solve _ => some solver.text
  | .solveAssuming assumptions _ => some (solver.assumeAll assumptions).text
  | _ => none

end WrapperCall

/-- What the caller asked for: the clauses added so far and the literals assumed since
the last solve. -/
structure Ledger where
  added : List Clause
  assumed : List Int

def Ledger.step (ledger : Ledger) : WrapperCall → Ledger
  | .assume lit => { ledger with assumed := ledger.assumed ++ [lit] }
  | .solve _ => { ledger with assumed := [] }
  | .solveAssuming _ _ => { ledger with assumed := [] }
  | call => { ledger with added := ledger.added ++ [call.literals] }

/-- The clauses that a solve is about. -/
def Ledger.asked (ledger : Ledger) (call : WrapperCall) : List Clause :=
  ledger.added ++ (ledger.assumed ++ call.literals).map fun lit => [lit]

/-! ## The text -/

theorem isWhitespace_of_isDigit {c : Char} (hc : c.isDigit = true) :
    c.isWhitespace = false := by
  have hne : ∀ d ∈ [' ', '\t', '\r', '\n'], c ≠ d := by
    intro d hd
    have hspaces : [' ', '\t', '\r', '\n'].all (fun d => !d.isDigit) = true := by decide
    exact ne_of_isDigit hc (by simpa using List.all_eq_true.mp hspaces d hd)
  simpa [Char.isWhitespace, and_assoc] using hne

theorem isWhitespace_renderInt {l : Int} : ∀ c ∈ renderInt l, c.isWhitespace = false := by
  intro c hc
  unfold renderInt at hc
  split at hc
  · rcases List.mem_cons.mp hc with rfl | hc
    · decide
    · exact isWhitespace_of_isDigit (isDigit_of_mem_toDigits hc)
  · exact isWhitespace_of_isDigit (isDigit_of_mem_toDigits hc)

theorem not_mem_renderInt {l : Int} {c : Char} (hc : c.isWhitespace = true) :
    c ∉ renderInt l := by
  intro hmem
  rw [isWhitespace_renderInt c hmem] at hc
  cases hc

theorem renderInt_natCast (n : Nat) : renderInt (n : Int) = Nat.toDigits 10 n := by
  rw [renderInt, if_neg (by omega), Int.natAbs_natCast]

/-- A numeral starts with a digit. -/
theorem exists_toDigits_cons (n : Nat) :
    ∃ c cs, Nat.toDigits 10 n = c :: cs ∧ c.isDigit = true := by
  obtain ⟨c, cs, hn⟩ := List.exists_cons_of_ne_nil (Nat.toDigits_ne_nil (n := n) (b := 10))
  exact ⟨c, cs, hn, isDigit_of_mem_toDigits (n := n) (by simp [hn])⟩

theorem readInt_renderInt (l : Int) : Dimacs.readInt (renderInt l) = some l := by
  unfold renderInt
  split
  · have hval : -(l.natAbs : Int) = l := by omega
    rw [Dimacs.readInt, Dimacs.readNat_toDigits, Option.map_some, hval]
  · have hread : Dimacs.readInt (Nat.toDigits 10 l.natAbs) =
        (Dimacs.readNat (Nat.toDigits 10 l.natAbs)).map fun n : Nat => (n : Int) := by
      obtain ⟨c, cs, hn, hc⟩ := exists_toDigits_cons l.natAbs
      rw [hn]
      unfold Dimacs.readInt
      split
      · rename_i heq
        cases heq
        exact absurd hc (by decide)
      · rfl
    have hval : (l.natAbs : Int) = l := by omega
    rw [hread, Dimacs.readNat_toDigits, Option.map_some, hval]

theorem head?_renderInt (l : Int) : ∀ c ∈ (renderInt l).head?, c ≠ 'c' := by
  intro c hc
  unfold renderInt at hc
  split at hc
  · cases hc
    decide
  · obtain ⟨d, ds, hn, hd⟩ := exists_toDigits_cons l.natAbs
    rw [hn] at hc
    cases hc
    exact ne_of_isDigit hd (by decide)

theorem spaced_renderInt (l : Int) :
    InStream.Spaced Char.isWhitespace (renderInt l) [renderInt l] :=
  .singleton (renderInt_ne_nil l) isWhitespace_renderInt

/-- The line of a stored clause. -/
def clauseLine (clause : List Int) : List Char :=
  clause.flatMap fun lit => renderInt lit ++ [' ']

def assumptionLine (lit : Int) : List Char := renderInt lit ++ [' ', '0']

def headerLine (vars count : Nat) : List Char :=
  ['p', ' ', 'c', 'n', 'f', ' '] ++ renderInt vars ++ ' ' :: renderInt count

theorem spaced_clauseLine (clause : List Int) :
    InStream.Spaced Char.isWhitespace (clauseLine clause) (clause.map renderInt) := by
  induction clause with
  | nil => exact .nil
  | cons l clause ih =>
      have hline : clauseLine (l :: clause) = renderInt l ++ ' ' :: clauseLine clause := by
        simp [clauseLine]
      rw [hline]
      exact (spaced_renderInt l).append (by decide) ih

/-- The numbers of a stored clause. -/
theorem read_clauseLine (clause : List Int) :
    (Dimacs.tokens (clauseLine clause)).mapM Dimacs.readInt = some clause := by
  have hall : ∀ l ∈ clause, (Dimacs.readInt ∘ renderInt) l = some (id l) := fun l _ =>
    readInt_renderInt l
  rw [Dimacs.tokens, (spaced_clauseLine clause).words_eq, List.mapM_map, mapM_eq_map hall,
    List.map_id]

theorem read_assumptionLine (lit : Int) :
    (Dimacs.tokens (assumptionLine lit)).mapM Dimacs.readInt = some [lit, 0] := by
  have hspaced : InStream.Spaced Char.isWhitespace (assumptionLine lit)
      [renderInt lit, renderInt 0] := (spaced_renderInt lit).append (by decide) (spaced_renderInt 0)
  rw [Dimacs.tokens, hspaced.words_eq]
  simp [readInt_renderInt]

theorem tokens_headerLine (vars count : Nat) :
    Dimacs.tokens (headerLine vars count) =
      [['p'], ['c', 'n', 'f'], renderInt vars, renderInt count] := by
  have hp : InStream.Spaced Char.isWhitespace ['p'] [['p']] :=
    .singleton (by simp) (by simp [Char.isWhitespace])
  have hcnf : InStream.Spaced Char.isWhitespace ['c', 'n', 'f'] [['c', 'n', 'f']] :=
    .singleton (by simp) (by simp [Char.isWhitespace])
  have hspace : Char.isWhitespace ' ' = true := by decide
  have hspaced := hp.append hspace (hcnf.append hspace
    ((spaced_renderInt vars).append hspace (spaced_renderInt count)))
  exact InStream.Spaced.words_eq (by simpa [headerLine] using hspaced)

theorem newline_not_mem_clauseLine (clause : List Int) : '\n' ∉ clauseLine clause := by
  simp only [clauseLine, List.mem_flatMap, not_exists, not_and]
  intro l _
  exact List.not_mem_append (not_mem_renderInt (by decide)) (by simp)

theorem newline_not_mem_assumptionLine (lit : Int) : '\n' ∉ assumptionLine lit :=
  List.not_mem_append (not_mem_renderInt (by decide)) (by simp)

/-- A line that starts with a number is no comment. -/
theorem head?_renderInt_append (l : Int) (text : List Char) :
    (renderInt l ++ text).head? ≠ some 'c' := by
  obtain ⟨c, cs, hc⟩ := List.exists_cons_of_ne_nil (renderInt_ne_nil l)
  have hne := head?_renderInt l c (by simp [hc])
  simpa [hc] using hne

theorem head?_assumptionLine (lit : Int) : (assumptionLine lit).head? ≠ some 'c' :=
  head?_renderInt_append lit _

theorem head?_clauseLine (clause : List Int) : (clauseLine (clause ++ [0])).head? ≠ some 'c' := by
  cases clause with
  | nil => exact head?_renderInt_append 0 _
  | cons l clause =>
      have hline : clauseLine (l :: clause ++ [0]) =
          renderInt l ++ ' ' :: clauseLine (clause ++ [0]) := by
        simp [clauseLine]
      rw [hline]
      exact head?_renderInt_append l _

/-- The lines of the text. -/
theorem text_eq (solver : ExternalSatSolver) :
    solver.text = (headerLine solver.numberOfVars
        (solver.clauses.length + solver.assumptions.length) ::
      (solver.clauses.map clauseLine ++ solver.assumptions.map assumptionLine)).flatMap
        fun line => line ++ ['\n'] := by
  have hassumed : (if solver.assumptions ≠ [] then
      solver.assumptions.flatMap fun assumption => renderInt assumption ++ [' ', '0', '\n']
      else []) = (solver.assumptions.map assumptionLine).flatMap fun line => line ++ ['\n'] := by
    split
    · rw [List.flatMap_map]
      simp [assumptionLine]
    · rename_i hnil
      rw [not_not.mp hnil]
      rfl
  have hclauses : (solver.clauses.map clauseLine).flatMap (fun line => line ++ ['\n']) =
      solver.clauses.flatMap fun clause =>
        (clause.flatMap fun lit => renderInt lit ++ [' ']) ++ ['\n'] := by
    rw [List.flatMap_map]
    rfl
  rw [ExternalSatSolver.text, hassumed, List.flatMap_cons, List.flatMap_append, hclauses]
  simp [headerLine]

/-- The text of a solver denotes its clauses and a unit clause for each assumption. -/
theorem readDimacs_text {solver : ExternalSatSolver} {added : List Clause}
    (hclauses : solver.clauses = added.map fun clause => clause ++ [0])
    (hadded : ∀ clause ∈ added, 0 ∉ clause) (hassumed : 0 ∉ solver.assumptions) :
    Dimacs.readDimacs solver.text = some ⟨solver.numberOfVars,
      (added ++ solver.assumptions.map fun lit => [lit]).length,
      added ++ solver.assumptions.map fun lit => [lit]⟩ := by
  have hcount : (added ++ solver.assumptions.map fun lit => [lit]).length =
      solver.clauses.length + solver.assumptions.length := by
    simp [hclauses]
  have hlines : List.Forall₂
      (fun line ls => (Dimacs.tokens line).mapM Dimacs.readInt = some ls)
      (solver.clauses.map clauseLine ++ solver.assumptions.map assumptionLine)
      (solver.clauses ++ solver.assumptions.map fun lit => [lit, 0]) := by
    apply List.rel_append
    · rw [List.forall₂_map_left_iff, List.forall₂_same]
      exact fun clause _ => read_clauseLine clause
    · rw [List.forall₂_map_left_iff, List.forall₂_map_right_iff, List.forall₂_same]
      exact fun lit _ => read_assumptionLine lit
  rw [text_eq, hcount]
  refine Dimacs.readDimacs_lines ?_ (tokens_headerLine _ _) ?_ ?_ hlines ?_ ?_
  · intro line hline
    rcases List.mem_cons.mp hline with rfl | hline
    · have hnewline : ∀ l, '\n' ∉ renderInt l := fun l => not_mem_renderInt (by decide)
      exact ⟨by simp [headerLine, hnewline], by simp [headerLine]⟩
    · rcases List.mem_append.mp hline with hline | hline
      · obtain ⟨clause, hclause, rfl⟩ := List.mem_map.mp hline
        rw [hclauses] at hclause
        obtain ⟨clause, -, rfl⟩ := List.mem_map.mp hclause
        exact ⟨newline_not_mem_clauseLine _, head?_clauseLine clause⟩
      · obtain ⟨lit, -, rfl⟩ := List.mem_map.mp hline
        exact ⟨newline_not_mem_assumptionLine lit, head?_assumptionLine lit⟩
  · rw [renderInt_natCast, Dimacs.readNat_toDigits]
  · rw [renderInt_natCast, Dimacs.readNat_toDigits]
  · rw [hclauses, List.flatten_append, List.flatMap_append, List.flatMap_def, List.flatMap_map]
    rfl
  · intro clause hclause
    rcases List.mem_append.mp hclause with hclause | hclause
    · exact hadded clause hclause
    · obtain ⟨lit, hlit, rfl⟩ := List.mem_map.mp hclause
      intro hzero
      rw [← List.mem_singleton.mp hzero] at hlit
      exact hassumed hlit

/-! ## Call sequences -/

/-- The solver stores what the caller asked for. -/
structure Tracks (nVars : Nat) (ledger : Ledger) (solver : ExternalSatSolver) : Prop where
  vars_eq : solver.numberOfVars = nVars
  clauses_eq : solver.clauses = ledger.added.map fun clause => clause ++ [0]
  assumptions_eq : solver.assumptions = ledger.assumed

/-- No literal is zero. -/
structure Ledger.Nonzero (ledger : Ledger) : Prop where
  added : ∀ clause ∈ ledger.added, 0 ∉ clause
  assumed : 0 ∉ ledger.assumed

theorem assumeAll_eq (solver : ExternalSatSolver) (lits : List Int) :
    solver.assumeAll lits = { solver with assumptions := solver.assumptions ++ lits } := by
  induction lits generalizing solver with
  | nil => simp [ExternalSatSolver.assumeAll]
  | cons l lits ih =>
      have hstep : solver.assumeAll (l :: lits) = (solver.assume l).assumeAll lits := rfl
      rw [hstep, ih]
      simp [ExternalSatSolver.assume]

theorem Tracks.step {nVars : Nat} {ledger : Ledger} {solver solver' : ExternalSatSolver}
    (h : Tracks nVars ledger solver) {call : WrapperCall} (hstep : call.step solver = .ok solver') :
    Tracks nVars (ledger.step call) solver' := by
  have hsolve : ∀ {s : ExternalSatSolver} {output : List Line},
      s.numberOfVars = solver.numberOfVars → s.clauses = solver.clauses →
      (s.solve output).map Prod.snd = .ok solver' →
      Tracks nVars { ledger with assumed := [] } solver' := by
    intro s output hvars hclauses hmap
    cases hx : s.solve output with
    | error e =>
        rw [hx] at hmap
        cases hmap
    | ok x =>
        rw [hx] at hmap
        cases hmap
        obtain ⟨hvars', hclauses', hassumed⟩ := solve_frame hx
        exact ⟨hvars'.trans (hvars.trans h.vars_eq),
          hclauses'.trans (hclauses.trans h.clauses_eq), hassumed⟩
  -- The four clause functions store the literals with a zero behind them.
  have hadd : ∀ clause : Clause, solver' = { solver with
      clauses := solver.clauses ++ [clause ++ [0]] } →
      Tracks nVars { ledger with added := ledger.added ++ [clause] } solver' := by
    intro clause heq
    subst heq
    exact ⟨h.vars_eq, by simp [h.clauses_eq], h.assumptions_eq⟩
  cases call with
  | addClause clause =>
      cases hstep
      exact hadd clause rfl
  | addClause1 lit =>
      cases hstep
      exact hadd [lit] rfl
  | addClause2 lit1 lit2 =>
      cases hstep
      exact hadd [lit1, lit2] rfl
  | addClause3 lit1 lit2 lit3 =>
      cases hstep
      exact hadd [lit1, lit2, lit3] rfl
  | assume lit =>
      cases hstep
      exact ⟨h.vars_eq, h.clauses_eq, by simp [ExternalSatSolver.assume, Ledger.step,
        h.assumptions_eq]⟩
  | solve output => exact hsolve rfl rfl hstep
  | solveAssuming assumptions output =>
      simp only [WrapperCall.step, assumeAll_eq] at hstep
      exact hsolve rfl rfl hstep

theorem Ledger.Nonzero.step {ledger : Ledger} (h : ledger.Nonzero) {call : WrapperCall}
    (hcall : 0 ∉ call.literals) : (ledger.step call).Nonzero := by
  have hadd : Ledger.Nonzero { ledger with added := ledger.added ++ [call.literals] } := by
    refine ⟨?_, h.assumed⟩
    exact List.forall_mem_append.mpr ⟨h.added, List.forall_mem_singleton.mpr hcall⟩
  cases call with
  | assume lit => exact ⟨h.added, List.not_mem_append h.assumed hcall⟩
  | solve output => exact ⟨h.added, by simp [Ledger.step]⟩
  | solveAssuming assumptions output => exact ⟨h.added, by simp [Ledger.step]⟩
  | _ => exact hadd

/-- After any calls that return the solver stores what was asked for. -/
theorem tracks_run {nVars : Nat} {calls : List WrapperCall} {ledger : Ledger}
    {solver solver' : ExternalSatSolver} (h : Tracks nVars ledger solver) (hz : ledger.Nonzero)
    (hcalls : ∀ call ∈ calls, 0 ∉ call.literals)
    (hrun : calls.foldlM WrapperCall.step solver = .ok solver') :
    Tracks nVars (calls.foldl Ledger.step ledger) solver' ∧
      (calls.foldl Ledger.step ledger).Nonzero := by
  induction calls generalizing ledger solver with
  | nil =>
      cases hrun
      exact ⟨h, hz⟩
  | cons call calls ih =>
      rw [List.foldlM_cons] at hrun
      cases hnext : call.step solver with
      | error e =>
          rw [hnext] at hrun
          cases hrun
      | ok next =>
          rw [hnext] at hrun
          exact ih (h.step hnext) (hz.step (hcalls call (by simp)))
            (fun c hc => hcalls c (by simp [hc])) hrun

theorem Tracks.readDimacs_asked {nVars : Nat} {ledger : Ledger} {solver : ExternalSatSolver}
    (h : Tracks nVars ledger solver) (hz : ledger.Nonzero) {call : WrapperCall}
    (hcall : 0 ∉ call.literals) :
    Dimacs.readDimacs (solver.assumeAll call.literals).text =
      some ⟨nVars, (ledger.asked call).length, ledger.asked call⟩ := by
  have hassumed : 0 ∉ (solver.assumeAll call.literals).assumptions := by
    rw [assumeAll_eq, h.assumptions_eq]
    exact List.not_mem_append hz.assumed hcall
  have hclauses : (solver.assumeAll call.literals).clauses =
      ledger.added.map fun clause => clause ++ [0] := by
    rw [assumeAll_eq]
    exact h.clauses_eq
  rw [readDimacs_text hclauses hz.added hassumed, assumeAll_eq, h.assumptions_eq, h.vars_eq]
  rfl

/-- A solve writes the text of its formula and assumptions. -/
theorem written_eq {solver : ExternalSatSolver} {call : WrapperCall} {text : List Char}
    (h : call.written solver = some text) : text = (solver.assumeAll call.literals).text := by
  cases call with
  | solve output => exact (Option.some.inj h).symm
  | solveAssuming assumptions output => exact (Option.some.inj h).symm
  | _ => cases h

/-- In every sequence of calls with nonzero literals the text of a solve, read as DIMACS,
denotes the clauses added so far and a unit clause for each literal assumed since the last
solve, with their number in the header. When the solve returns, the stored clauses are the
same and nothing is assumed. -/
theorem external_text_denotes (nVars nArgs : Nat) (calls : List WrapperCall)
    (call : WrapperCall) (hcalls : ∀ c ∈ calls ++ [call], 0 ∉ c.literals)
    {solver : ExternalSatSolver}
    (hrun : calls.foldlM WrapperCall.step (ExternalSatSolver.new nVars nArgs) = .ok solver)
    {text : List Char} (htext : call.written solver = some text) :
    (∃ clauses, clauses = (calls.foldl Ledger.step ⟨[], []⟩).asked call ∧
      Dimacs.readDimacs text = some ⟨nVars, clauses.length, clauses⟩) ∧
    ∀ solver', call.step solver = .ok solver' →
      solver'.clauses = solver.clauses ∧ solver'.assumptions = [] := by
  have hstart : Tracks nVars ⟨[], []⟩ (ExternalSatSolver.new nVars nArgs) := ⟨rfl, rfl, rfl⟩
  obtain ⟨htracks, hz⟩ := tracks_run hstart ⟨by simp, by simp⟩
    (fun c hc => hcalls c (by simp [hc])) hrun
  refine ⟨⟨_, rfl, ?_⟩, ?_⟩
  · rw [written_eq htext]
    exact htracks.readDimacs_asked hz (hcalls call (by simp))
  · intro solver' hstep
    have hafter := htracks.step hstep
    have hledger : (calls.foldl Ledger.step ⟨[], []⟩).step call =
        { calls.foldl Ledger.step ⟨[], []⟩ with assumed := [] } := by
      cases call with
      | solve output => rfl
      | solveAssuming assumptions output => rfl
      | _ => cases htext
    rw [hledger] at hafter
    exact ⟨hafter.clauses_eq.trans htracks.clauses_eq.symm, hafter.assumptions_eq⟩

theorem external_text_denotes_two :
    ∃ solver text,
      [WrapperCall.addClause [], .addClause2 1 (-2), .assume 2,
          .solve ["s UNSATISFIABLE".toList], .addClause1 3].foldlM WrapperCall.step
        (ExternalSatSolver.new 3 1) = .ok solver ∧
      (WrapperCall.solveAssuming [-3] ["s SATISFIABLE".toList]).written solver = some text ∧
      Dimacs.readDimacs text = some ⟨3, 4, [[], [1, -2], [3], [-3]]⟩ := by
  refine ⟨_, _, rfl, rfl, ?_⟩
  obtain ⟨⟨clauses, rfl, hread⟩, -⟩ := external_text_denotes 3 1
    [.addClause [], .addClause2 1 (-2), .assume 2, .solve ["s UNSATISFIABLE".toList],
      .addClause1 3] (.solveAssuming [-3] ["s SATISFIABLE".toList])
    (by simp [WrapperCall.literals]) rfl rfl
  exact hread

end AcceptableArguments.External
