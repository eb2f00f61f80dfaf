import AcceptableArguments.Wrappers.ExternalSolver

/-!
# The verdict of an external process

The process may print anything. The verdict of `solve` falls out of the loop over its
lines: the first line that starts with `s ` and contains `UNSATISFIABLE` decides, and
where there is none the call answers satisfiable, also when no verdict was printed.
-/

namespace AcceptableArguments.External

open AcceptableArguments.Sat Imperative

/-! ## The verdict without the model -/

/-- The loop over the values of a line without its writes. -/
def scanValues : Nat → Line → Except Fault Unit
  | 0, _ => .ok ()
  | fuel + 1, line =>
      if line = [] then .ok ()
      else do
        let pos := line.idxOf ' '
        let var ← stoi (line.take pos)
        if var ≠ 0 then scanValues fuel (line.drop (pos + 1)) else .ok ()

/-- The loop over the lines without the writes to the model. -/
def scanLines : List Line → Except Fault Verdict
  | [] => .ok .SAT_V
  | line :: lines =>
      if ['c', ' '].isPrefixOf line then scanLines lines
      else if ['s', ' '].isPrefixOf line && occursIn unsatText line then .ok .UNSAT_V
      else if ['v', ' '].isPrefixOf line then do
        let line := line.drop 2
        scanValues line.length line
        scanLines lines
      else scanLines lines

/-- The call gives the verdict to its caller. A write outside the model is undefined; the
run is then taken to go on with its lines. -/
def GivesVerdict (solver : ExternalSatSolver) (output : List Line) (sat : Verdict) : Prop :=
  (∃ solver', solver.solve output = .ok (sat, solver')) ∨
    solver.solve output = .error .outOfBounds ∧ scanLines output = .ok sat

/-- The writes decide nothing but whether the run leaves the model. -/
theorem valueLoop_scan (fuel : Nat) (line : Line) (model : List Bool) :
    valueLoop fuel line model = .error .outOfBounds ∨
      scanValues fuel line = (valueLoop fuel line model).map fun _ => () := by
  induction fuel generalizing line model with
  | zero => exact Or.inr rfl
  | succ fuel ih =>
      -- One write, followed by the rest of the line.
      have hwrite : ∀ i b, (store model i b >>= valueLoop fuel (line.drop (line.idxOf ' ' + 1))) =
            .error .outOfBounds ∨
          scanValues fuel (line.drop (line.idxOf ' ' + 1)) =
            (store model i b >>= valueLoop fuel (line.drop (line.idxOf ' ' + 1))).map
              fun _ => () := by
        intro i b
        unfold store
        split
        · exact ih _ _
        · exact Or.inl rfl
      by_cases hnil : line = []
      · simp only [valueLoop, scanValues, if_pos hnil]
        exact Or.inr rfl
      · simp only [valueLoop, scanValues, if_neg hnil]
        cases hvar : stoi (line.take (line.idxOf ' ')) with
        | error e => exact Or.inr rfl
        | ok var =>
            change (if var > 0 then _ else if var < 0 then _ else _) = _ ∨
              (if var ≠ 0 then _ else _) = Except.map _ (if var > 0 then _ else _)
            by_cases hpos : var > 0
            · rw [if_pos hpos, if_pos (by omega)]
              exact hwrite _ _
            · by_cases hneg : var < 0
              · rw [if_neg hpos, if_pos hneg, if_pos (by omega)]
                exact hwrite _ _
              · rw [if_neg hpos, if_neg hneg, if_neg (by omega)]
                exact Or.inr rfl

theorem readLines_scan (lines : List Line) (model : List Bool) :
    readLines lines model = .error .outOfBounds ∨
      scanLines lines = (readLines lines model).map Prod.fst := by
  induction lines generalizing model with
  | nil => exact Or.inr rfl
  | cons line lines ih =>
      simp only [readLines, scanLines]
      split
      · exact ih model
      · split
        · exact Or.inr rfl
        · split
          · rcases valueLoop_scan (line.drop 2).length (line.drop 2) model with hout | hscan
            · rw [hout]
              exact Or.inl rfl
            · rw [hscan]
              cases valueLoop (line.drop 2).length (line.drop 2) model with
              | error e => exact Or.inr rfl
              | ok model' => exact ih model'
          · exact ih model

/-- The verdict depends on the lines only. -/
theorem givesVerdict_iff {solver : ExternalSatSolver} {output : List Line} {sat : Verdict} :
    GivesVerdict solver output sat ↔ scanLines output = .ok sat := by
  have hscan := readLines_scan output (resize solver.model solver.numberOfVars false)
  unfold GivesVerdict ExternalSatSolver.solve
  constructor
  · intro h
    rcases h with ⟨solver', hsolve⟩ | ⟨-, hsat⟩
    · cases hr : readLines output (resize solver.model solver.numberOfVars false) with
      | error e =>
          rw [hr] at hsolve
          cases hsolve
      | ok r =>
          rw [hr] at hsolve hscan
          cases hsolve
          exact hscan.resolve_left (by simp)
    · exact hsat
  · intro hsat
    cases hr : readLines output (resize solver.model solver.numberOfVars false) with
    | error e =>
        rw [hr, hsat] at hscan
        rcases hscan with hout | hscan
        · cases hout
          exact Or.inr ⟨rfl, hsat⟩
        · cases hscan
    | ok r =>
        rw [hr, hsat] at hscan
        have heq := hscan.resolve_left (by simp)
        cases heq
        exact Or.inl ⟨_, rfl⟩

/-! ## Which output decides what -/

/-- A line that ends the loop. -/
def marksUnsat (line : Line) : Bool := ['s', ' '].isPrefixOf line && occursIn unsatText line

/-- The pieces of a value line can be read as numbers, up to the first zero. Behind the
last blank nothing has to stand. -/
def legible : List Line → Bool
  | [] => true
  | [[]] => true
  | piece :: pieces =>
      match stoi piece with
      | .ok var => var = 0 || legible pieces
      | .error _ => false

/-- A value line on which `stoi` throws. -/
def throws (line : Line) : Bool :=
  ['v', ' '].isPrefixOf line && !legible ((line.drop 2).splitOn ' ')

/-- The line that states the verdict. -/
def verdictLine : Verdict → Line
  | .SAT_V => OutputLine.satisfiable.render
  | .UNSAT_V => OutputLine.unsatisfiable.render

/-- Before the first line that ends the loop `stoi` throws, or the output has the line of
the verdict that the loop arrives at. -/
def Supported (output : List Line) : Prop :=
  (∃ line ∈ output.takeWhile (fun line => !marksUnsat line), throws line = true) ∨
    if ∃ line ∈ output, marksUnsat line = true then verdictLine .UNSAT_V ∈ output
    else verdictLine .SAT_V ∈ output

/-- The first piece of a line and what the loop reads behind it. -/
theorem splitOn_space (line : Line) :
    (' ' ∉ line ∧ line.take (line.idxOf ' ') = line ∧ line.drop (line.idxOf ' ' + 1) = []) ∨
      line.splitOn ' ' = line.take (line.idxOf ' ') ::
        (line.drop (line.idxOf ' ' + 1)).splitOn ' ' := by
  by_cases hmem : ' ' ∈ line
  · right
    obtain ⟨pre, post, rfl, hpre⟩ := List.eq_append_cons_of_mem hmem
    have hidx : (pre ++ ' ' :: post).idxOf ' ' = pre.length := by
      rw [List.idxOf_append_of_notMem hpre]
      simp
    have hdrop : (pre ++ ' ' :: post).drop (pre.length + 1) = post := by
      rw [← List.drop_drop, List.drop_left]
      rfl
    rw [hidx, List.take_left, hdrop, List.splitOn_append_cons_self_of_not_mem hpre]
  · left
    have hidx : line.idxOf ' ' = line.length := List.idxOf_eq_length_iff.mpr hmem
    exact ⟨hmem, by rw [hidx, List.take_length], by rw [hidx]; simp⟩

/-- A piece that is not a last empty one has to be read. -/
theorem legible_cons {piece : Line} {pieces : List Line} (h : piece ≠ [] ∨ pieces ≠ []) :
    legible (piece :: pieces) = match stoi piece with
      | .ok var => var = 0 || legible pieces
      | .error _ => false := by
  cases piece with
  | nil =>
      cases pieces with
      | nil => simp at h
      | cons next pieces => rfl
  | cons c piece => rfl

/-- The loop over a line throws exactly if one of its pieces cannot be read. -/
theorem scanValues_eq_ok_iff {fuel : Nat} {line : Line} (hfuel : line.length ≤ fuel) :
    scanValues fuel line = .ok () ↔ legible (line.splitOn ' ') = true := by
  induction fuel generalizing line with
  | zero =>
      have hnil : line = [] := List.length_eq_zero_iff.mp (by omega)
      subst hnil
      exact iff_of_true rfl rfl
  | succ fuel ih =>
      by_cases hnil : line = []
      · subst hnil
        exact iff_of_true rfl rfl
      · have hpos := List.length_pos_of_ne_nil hnil
        have hrest : (line.drop (line.idxOf ' ' + 1)).length ≤ fuel := by
          rw [List.length_drop]
          omega
        have hlegible : legible (line.splitOn ' ') =
            match stoi (line.take (line.idxOf ' ')) with
            | .ok var => var = 0 || legible ((line.drop (line.idxOf ' ' + 1)).splitOn ' ')
            | .error _ => false := by
          rcases splitOn_space line with ⟨hmem, htake, hdrop⟩ | hsplit
          · rw [List.splitOn_eq_singleton hmem, legible_cons (Or.inl hnil), htake, hdrop]
            rfl
          · rw [hsplit, legible_cons (Or.inr (List.splitOn_ne_nil _ _))]
        rw [hlegible]
        simp only [scanValues, if_neg hnil]
        cases hvar : stoi (line.take (line.idxOf ' ')) with
        | error e => exact iff_of_false (fun h => by cases h) (by simp)
        | ok var =>
            change (if var ≠ 0 then _ else _) = _ ↔ _
            by_cases hzero : var = 0
            · simp [hzero]
            · rw [if_pos hzero, ih hrest]
              simp [hzero]

theorem isPrefixOf_of_ne {a b : Char} (hab : a ≠ b) {line : Line}
    (h : [a, ' '].isPrefixOf line = true) : [b, ' '].isPrefixOf line = false := by
  cases line with
  | nil => rfl
  | cons c line =>
      have hac : a = c := by
        simp only [List.isPrefixOf, Bool.and_eq_true, beq_iff_eq] at h
        exact h.1
      simp [List.isPrefixOf, ← hac, hab.symm]

theorem scanLines_of_marksUnsat {line : Line} (h : marksUnsat line = true)
    (lines : List Line) : scanLines (line :: lines) = .ok .UNSAT_V := by
  have hs : ['s', ' '].isPrefixOf line = true := (Bool.and_eq_true_iff.mp h).1
  rw [scanLines, isPrefixOf_of_ne (by decide) hs, if_neg (by simp)]
  exact if_pos h

theorem scanLines_of_throws {line : Line} (h : throws line = true) (lines : List Line) :
    ∃ e, scanLines (line :: lines) = .error e := by
  obtain ⟨hv, hlegible⟩ := Bool.and_eq_true_iff.mp h
  have hnot : scanValues (line.drop 2).length (line.drop 2) ≠ .ok () := by
    rw [ne_eq, scanValues_eq_ok_iff (Nat.le_refl _)]
    simpa using hlegible
  have hscan : scanLines (line :: lines) =
      (scanValues (line.drop 2).length (line.drop 2) >>= fun _ => scanLines lines) := by
    rw [scanLines, isPrefixOf_of_ne (by decide) hv, isPrefixOf_of_ne (by decide) hv, hv]
    rfl
  rw [hscan]
  cases hvals : scanValues (line.drop 2).length (line.drop 2) with
  | error e => exact ⟨e, rfl⟩
  | ok x => exact (hnot hvals).elim

theorem scanLines_of_skipped {line : Line} (hmarks : marksUnsat line = false)
    (hthrows : throws line = false) (lines : List Line) :
    scanLines (line :: lines) = scanLines lines := by
  rw [marksUnsat] at hmarks
  rw [scanLines, hmarks, if_neg (by simp : ¬ false = true)]
  cases hv : ['v', ' '].isPrefixOf line with
  | false =>
      rw [if_neg (by simp : ¬ false = true), ite_self]
  | true =>
      have hlegible : legible ((line.drop 2).splitOn ' ') = true := by
        simpa [throws, hv] using hthrows
      have hvals := (scanValues_eq_ok_iff (Nat.le_refl _)).mpr hlegible
      rw [isPrefixOf_of_ne (by decide) hv, if_neg (by simp : ¬ false = true), if_pos rfl]
      simp only [hvals]
      rfl

/-- What the loop over the lines returns. -/
theorem scanLines_eq_ok_iff (output : List Line) (sat : Verdict) :
    scanLines output = .ok sat ↔
      (∀ line ∈ output.takeWhile (fun line => !marksUnsat line), throws line = false) ∧
        sat = if ∃ line ∈ output, marksUnsat line = true then .UNSAT_V else .SAT_V := by
  induction output with
  | nil =>
      simp only [scanLines, List.takeWhile_nil, List.not_mem_nil, false_and, exists_const, if_false,
        false_implies, implies_true, true_and, Except.ok.injEq, eq_comm]
  | cons line lines ih =>
      cases hmarks : marksUnsat line with
      | true =>
          have hex : ∃ l ∈ line :: lines, marksUnsat l = true := ⟨line, by simp, hmarks⟩
          rw [scanLines_of_marksUnsat hmarks, if_pos hex,
            List.takeWhile_cons_of_neg (by simp [hmarks])]
          simp only [List.not_mem_nil, false_implies, implies_true, true_and, Except.ok.injEq,
            eq_comm]
      | false =>
          have hiff : (∃ l ∈ line :: lines, marksUnsat l = true) ↔
              ∃ l ∈ lines, marksUnsat l = true := by simp [hmarks]
          rw [List.takeWhile_cons_of_pos (by simp [hmarks]), List.forall_mem_cons]
          simp only [hiff]
          cases hthrows : throws line with
          | true =>
              obtain ⟨e, he⟩ := scanLines_of_throws hthrows lines
              rw [he]
              simp
          | false =>
              rw [scanLines_of_skipped hmarks hthrows, ih]
              simp

/-- For every output the verdict that `solve` gives is printed in a line of its own if and
only if a value before the first `UNSATISFIABLE` cannot be read, so that no verdict is
given, or that line is there for the verdict the loop arrives at. -/
theorem external_verdict_iff (solver : ExternalSatSolver) (output : List Line) :
    (∀ sat, GivesVerdict solver output sat → verdictLine sat ∈ output) ↔ Supported output := by
  simp only [givesVerdict_iff, scanLines_eq_ok_iff]
  unfold Supported
  constructor
  · intro h
    by_cases hthrows : ∃ line ∈ output.takeWhile (fun line => !marksUnsat line),
        throws line = true
    · exact Or.inl hthrows
    · right
      have hnone : ∀ line ∈ output.takeWhile (fun line => !marksUnsat line),
          throws line = false := fun line hline =>
        Bool.eq_false_iff.mpr fun ht => hthrows ⟨line, hline, ht⟩
      have hline := h _ ⟨hnone, rfl⟩
      split at hline <;> rename_i hex
      · rwa [if_pos hex]
      · rwa [if_neg hex]
  · intro h sat hsat
    obtain ⟨hnone, rfl⟩ := hsat
    rcases h with ⟨line, hline, ht⟩ | h
    · rw [hnone line hline] at ht
      cases ht
    · split at h <;> rename_i hex
      · rwa [if_pos hex]
      · rwa [if_neg hex]

/-- A process that prints nothing gets the verdict satisfiable. -/
theorem external_verdict_without_output :
    ¬ ∀ sat, GivesVerdict (ExternalSatSolver.new 2 1) [] sat → verdictLine sat ∈ [] := by
  intro h
  exact List.not_mem_nil (h .SAT_V (Or.inl ⟨_, rfl⟩))

end AcceptableArguments.External
