import AcceptableArguments.Solver
import AcceptableArguments.Imperative.Streams
import Mathlib.Data.List.Perm.Basic
import Mathlib.Data.List.TakeWhile

/-!
# The wrapper around an external solver process

The process receives the clauses as DIMACS text and its output is read line by
line. The model vector lives across calls: it is resized but not reset, and the two
signs of a literal are written through different index expressions.
-/

namespace AcceptableArguments.External

open AcceptableArguments.Sat Imperative

/-- Ways in which reading the output goes wrong. -/
inductive Fault where
  | outOfBounds
  | invalidArgument
  | outOfRange
  deriving DecidableEq, Repr

abbrev Line := List Char

structure ExternalSatSolver where
  numberOfVars : Nat
  clauses : List (List Int)
  assumptions : List Int
  model : List Bool
  deriving DecidableEq, Repr

/-- `std::stoi`: leading white space, an optional sign and the longest run of
digits. -/
def stoi (s : List Char) : Except Fault Int :=
  let (negative, s) := splitSign (s.dropWhile isSpace)
  let digits := s.takeWhile Char.isDigit
  let magnitude : Int := Nat.ofDigitChars 10 digits 0
  let value := if negative then -magnitude else magnitude
  if digits = [] then .error .invalidArgument
  else if value < -2 ^ 31 ∨ 2 ^ 31 ≤ value then .error .outOfRange
  else .ok value

/-- `model[i] = b`. -/
def store (model : List Bool) (i : Int) (b : Bool) : Except Fault (List Bool) :=
  if 0 ≤ i ∧ i.toNat < model.length then .ok (model.set i.toNat b) else .error .outOfBounds

/-- The loop over the values of a line; every round shortens the line, so its length
bounds the number of rounds. -/
def valueLoop : Nat → Line → List Bool → Except Fault (List Bool)
  | 0, _, model => .ok model
  | fuel + 1, line, model =>
      if line = [] then .ok model
      else do
        let pos := line.idxOf ' '
        let var ← stoi (line.take pos)
        if var > 0 then
          valueLoop fuel (line.drop (pos + 1)) (← store model (var - 1) true)
        else if var < 0 then
          valueLoop fuel (line.drop (pos + 1)) (← store model (1 - var) false)
        else
          .ok model

/-- `UNSATISFIABLE`. -/
def unsatText : List Char :=
  ['U', 'N', 'S', 'A', 'T', 'I', 'S', 'F', 'I', 'A', 'B', 'L', 'E']

/-- `line.rfind(text) != npos`. -/
def occursIn (text : List Char) : Line → Bool
  | [] => text.isEmpty
  | c :: cs => text.isPrefixOf (c :: cs) || occursIn text cs

/-- The loop over the lines of the output. -/
def readLines : List Line → List Bool → Except Fault (Verdict × List Bool)
  | [], model => .ok (.SAT_V, model)
  | line :: lines, model =>
      if ['c', ' '].isPrefixOf line then readLines lines model
      else if ['s', ' '].isPrefixOf line && occursIn unsatText line then
        .ok (.UNSAT_V, model)
      else if ['v', ' '].isPrefixOf line then do
        let line := line.drop 2
        readLines lines (← valueLoop line.length line model)
      else readLines lines model

namespace ExternalSatSolver

def new (nVars nArgs : Nat) : ExternalSatSolver where
  numberOfVars := nVars
  clauses := []
  assumptions := []
  model := List.replicate nArgs false

/-- `add_clause`, also for the variants with one, two and three literals. -/
def addClause (solver : ExternalSatSolver) (clause : List Int) : ExternalSatSolver :=
  { solver with clauses := solver.clauses ++ [clause ++ [0]] }

def assume (solver : ExternalSatSolver) (lit : Int) : ExternalSatSolver :=
  { solver with assumptions := solver.assumptions ++ [lit] }

/-- `solve()` when the process prints the given lines. -/
def solve (solver : ExternalSatSolver) (output : List Line) :
    Except Fault (Verdict × ExternalSatSolver) := do
  let (sat, model) ← readLines output (resize solver.model solver.numberOfVars false)
  return (sat, { solver with assumptions := [], model := model })

end ExternalSatSolver

/-! ## Conformant output -/

/-- The lines of a conformant process. -/
inductive OutputLine where
  | comment (text : List Char)
  | satisfiable
  | unsatisfiable
  | values (lits : List Int)
  deriving DecidableEq, Repr

def renderInt (l : Int) : List Char :=
  if l < 0 then '-' :: Nat.toDigits 10 l.natAbs else Nat.toDigits 10 l.natAbs

def OutputLine.render : OutputLine → Line
  | .comment text => ['c', ' '] ++ text
  | .satisfiable => ['s', ' ', 'S', 'A', 'T', 'I', 'S', 'F', 'I', 'A', 'B', 'L', 'E']
  | .unsatisfiable => ['s', ' '] ++ unsatText
  | .values lits => ['v', ' '] ++ List.intercalate [' '] (lits.map renderInt)

/-- All values of an output in order. -/
def valuesOf (output : List OutputLine) : List Int :=
  output.flatMap fun
    | .values lits => lits
    | _ => []

/-- The listed literals, without the final zero. -/
def listed (output : List OutputLine) : List Int := (valuesOf output).dropLast

/-- Each of the variables `1 .. n` occurs once, with one sign. -/
def ListsOnce (n : Nat) (lits : List Int) : Prop :=
  (lits.map Int.natAbs).Perm (List.range' 1 n)

instance (n : Nat) (lits : List Int) : Decidable (ListsOnce n lits) :=
  inferInstanceAs (Decidable (List.Perm (lits.map Int.natAbs) (List.range' 1 n)))

/-- A satisfiable answer with a value for each variable and a final zero, or an
unsatisfiable answer without values. -/
def Conformant (n : Nat) (output : List OutputLine) : Prop :=
  (.satisfiable ∈ output ∧ .unsatisfiable ∉ output ∧
    ∃ lits, valuesOf output = lits ++ [0] ∧ ListsOnce n lits) ∨
  (.unsatisfiable ∈ output ∧ .satisfiable ∉ output ∧ valuesOf output = [])

/-! ## Reading a rendered integer -/

theorem dropWhile_renderInt (l : Int) : (renderInt l).dropWhile isSpace = renderInt l := by
  obtain ⟨c, cs, hl, hc⟩ : ∃ c cs, renderInt l = c :: cs ∧ isSpace c = false := by
    unfold renderInt
    split
    · exact ⟨'-', _, rfl, by decide⟩
    · obtain ⟨c, cs, hn⟩ := List.exists_cons_of_ne_nil
        (Nat.toDigits_ne_nil (n := l.natAbs) (b := 10))
      exact ⟨c, cs, hn, isSpace_of_isDigit (isDigit_of_mem_toDigits (n := l.natAbs) (by simp [hn]))⟩
  simp [hl, hc]

theorem splitSign_renderInt (l : Int) :
    splitSign (renderInt l) = (decide (l < 0), Nat.toDigits 10 l.natAbs) := by
  unfold renderInt
  split
  · rename_i hl
    simp [splitSign, hl]
  · rename_i hl
    rw [splitSign_digits]
    simp [hl]

/-- `stoi` reads back a rendered integer of the right size. -/
theorem stoi_renderInt {l : Int} (hl : l.natAbs < 2 ^ 31) : stoi (renderInt l) = .ok l := by
  simp only [stoi, dropWhile_renderInt, splitSign_renderInt, takeWhile_toDigits,
    Nat.ofDigitChars_ten_toDigits, if_neg Nat.toDigits_ne_nil]
  by_cases hneg : l < 0
  · have hval : -(l.natAbs : Int) = l := by omega
    simp only [hneg, decide_true, if_true, hval]
    rw [if_neg (by omega)]
  · have hval : (l.natAbs : Int) = l := by omega
    simp only [hneg, decide_false, Bool.false_eq_true, if_false, hval]
    rw [if_neg (by omega)]

/-! ## Reading rendered lines -/

/-- The writes that a list of values causes; a zero stops them. -/
def writes : List Int → List Bool → Except Fault (List Bool)
  | [], model => .ok model
  | l :: lits, model =>
      if l > 0 then do writes lits (← store model (l - 1) true)
      else if l < 0 then do writes lits (← store model (1 - l) false)
      else .ok model

theorem space_not_mem_renderInt (l : Int) : ' ' ∉ renderInt l := by
  intro hmem
  have hdigit : ∀ {c : Char}, c ∈ Nat.toDigits 10 l.natAbs → c ≠ ' ' := fun hc =>
    ne_of_isDigit (isDigit_of_mem_toDigits hc) (by decide)
  unfold renderInt at hmem
  split at hmem
  · rcases List.mem_cons.mp hmem with h | h
    · exact absurd h (by decide)
    · exact hdigit h rfl
  · exact hdigit hmem rfl

theorem renderInt_ne_nil (l : Int) : renderInt l ≠ [] := by
  unfold renderInt
  split
  · simp
  · exact Nat.toDigits_ne_nil

/-- The first token of a rendered line and what is left after it. -/
theorem render_split (l : Int) (lits : List Int) :
    let line := List.intercalate [' '] ((l :: lits).map renderInt)
    line.take (line.idxOf ' ') = renderInt l ∧
      line.drop (line.idxOf ' ' + 1) = List.intercalate [' '] (lits.map renderInt) := by
  have hno := space_not_mem_renderInt l
  cases lits with
  | nil =>
      have hidx : (renderInt l).idxOf ' ' = (renderInt l).length :=
        List.idxOf_eq_length_iff.mpr hno
      simp [List.intercalate, hidx]
  | cons k lits =>
      have hidx : (renderInt l ++ ' ' :: List.intercalate [' '] ((k :: lits).map renderInt)).idxOf
          ' ' = (renderInt l).length := by
        rw [List.idxOf_append_of_notMem hno]
        simp
      have hline : List.intercalate [' '] ((l :: k :: lits).map renderInt) =
          renderInt l ++ ' ' :: List.intercalate [' '] ((k :: lits).map renderInt) := by
        simp [List.intercalate]
      rw [hline]
      simp only [hidx]
      constructor
      · exact List.take_left
      · rw [← List.drop_drop, List.drop_left]
        rfl

/-- The loop over a rendered line performs the writes of its values. -/
theorem valueLoop_render {lits : List Int} (hlits : ∀ l ∈ lits, l.natAbs < 2 ^ 31)
    {fuel : Nat} {model : List Bool}
    (hfuel : (List.intercalate [' '] (lits.map renderInt)).length ≤ fuel) :
    valueLoop fuel (List.intercalate [' '] (lits.map renderInt)) model =
      writes lits model := by
  induction lits generalizing fuel model with
  | nil => cases fuel <;> rfl
  | cons l lits ih =>
      obtain ⟨htake, hdrop⟩ := render_split l lits
      set line := List.intercalate [' '] ((l :: lits).map renderInt)
      have hne : line ≠ [] := by
        intro hnil
        rw [hnil] at htake
        exact renderInt_ne_nil l htake.symm
      obtain ⟨k, rfl⟩ : ∃ k, fuel = k + 1 := by
        have := List.length_pos_of_ne_nil hne
        exact ⟨fuel - 1, by omega⟩
      have hrest : (List.intercalate [' '] (lits.map renderInt)).length ≤ k := by
        rw [← hdrop, List.length_drop]
        omega
      have ih' : ∀ m, valueLoop k (List.intercalate [' '] (lits.map renderInt)) m =
          writes lits m := fun m => ih (fun l' hl' => hlits l' (by simp [hl'])) hrest
      simp only [valueLoop, if_neg hne, htake, hdrop, stoi_renderInt (hlits l (by simp)), writes]
      change (if l > 0 then _ else if l < 0 then _ else _) = _
      simp only [ih']

theorem writes_append {ls ks : List Int} (h : 0 ∉ ls ∨ ks = []) (model : List Bool) :
    writes (ls ++ ks) model = (writes ls model).bind (writes ks) := by
  rcases h with h | rfl
  · induction ls generalizing model with
    | nil => rfl
    | cons l ls ih =>
        have hl : l ≠ 0 := fun h0 => h (by simp [h0])
        have ih' : ∀ m, writes (ls ++ ks) m = (writes ls m).bind (writes ks) :=
          fun m => ih m (fun h0 => h (by simp [h0]))
        by_cases hpos : l > 0
        · simp only [List.cons_append, writes, if_pos hpos]
          cases hs : store model (l - 1) true with
          | error e => rfl
          | ok m => exact ih' m
        · have hneg : l < 0 := by omega
          simp only [List.cons_append, writes, if_neg hpos, if_pos hneg]
          cases hs : store model (1 - l) false with
          | error e => rfl
          | ok m => exact ih' m
  · rw [List.append_nil]
    cases writes ls model <;> rfl

/-- A zero is at most the last value. -/
def ZeroLast (vals : List Int) : Prop := ∀ pre post, vals = pre ++ 0 :: post → post = []

theorem ZeroLast.append {ls ks : List Int} (h : ZeroLast (ls ++ ks)) :
    (0 ∉ ls ∨ ks = []) ∧ ZeroLast ks := by
  constructor
  · by_cases h0 : (0 : Int) ∈ ls
    · obtain ⟨pre, post, rfl⟩ := List.append_of_mem h0
      have := h pre (post ++ ks) (by simp)
      exact Or.inr (List.append_eq_nil_iff.mp this).2
    · exact Or.inl h0
  · intro pre post hks
    exact h (ls ++ pre) post (by simp [hks])

/-- A line without a verdict performs the writes of its values. -/
theorem readLines_cons {line : OutputLine} (hline : line ≠ .unsatisfiable)
    (hsmall : ∀ l ∈ valuesOf [line], l.natAbs < 2 ^ 31) (lines : List Line)
    (model : List Bool) :
    readLines (line.render :: lines) model =
      (writes (valuesOf [line]) model).bind (readLines lines) := by
  cases line with
  | comment text => rfl
  | satisfiable => rfl
  | unsatisfiable => exact (hline rfl).elim
  | values lits =>
      have hvals : valuesOf [.values lits] = lits := by simp [valuesOf]
      rw [hvals] at hsmall ⊢
      have hdrop : (OutputLine.values lits).render.drop 2 =
          List.intercalate [' '] (lits.map renderInt) := rfl
      have hc : ['c', ' '].isPrefixOf (OutputLine.values lits).render = false := rfl
      have hs : ['s', ' '].isPrefixOf (OutputLine.values lits).render = false := rfl
      have hv : ['v', ' '].isPrefixOf (OutputLine.values lits).render = true := rfl
      simp only [readLines, hc, hs, hv, hdrop, Bool.false_eq_true, if_false, Bool.false_and,
        if_true, valueLoop_render hsmall (Nat.le_refl _)]
      rfl

theorem valuesOf_cons (line : OutputLine) (output : List OutputLine) :
    valuesOf (line :: output) = valuesOf [line] ++ valuesOf output := by
  simp [valuesOf]

/-- Reading a satisfiable answer performs the writes of all its values. -/
theorem readLines_sat {output : List OutputLine} (hunsat : .unsatisfiable ∉ output)
    (hsmall : ∀ l ∈ valuesOf output, l.natAbs < 2 ^ 31) (hzero : ZeroLast (valuesOf output))
    (model : List Bool) :
    readLines (output.map OutputLine.render) model =
      (writes (valuesOf output) model).map (fun m => (.SAT_V, m)) := by
  induction output generalizing model with
  | nil => rfl
  | cons line output ih =>
      rw [valuesOf_cons] at hsmall hzero ⊢
      obtain ⟨happ, hzero'⟩ := hzero.append
      rw [List.map_cons, readLines_cons (fun h => hunsat (by simp [h]))
        (fun l hl => hsmall l (List.mem_append_left _ hl)), writes_append happ]
      cases writes (valuesOf [line]) model with
      | error e => rfl
      | ok m =>
          exact ih (fun h => hunsat (by simp [h]))
            (fun l hl => hsmall l (List.mem_append_right _ hl)) hzero' m

/-- Reading an unsatisfiable answer without values leaves the model alone. -/
theorem readLines_unsat {output : List OutputLine} (hunsat : .unsatisfiable ∈ output)
    (hvals : valuesOf output = []) (model : List Bool) :
    readLines (output.map OutputLine.render) model = .ok (.UNSAT_V, model) := by
  induction output with
  | nil => cases hunsat
  | cons line output ih =>
      rw [valuesOf_cons, List.append_eq_nil_iff] at hvals
      by_cases hline : line = .unsatisfiable
      · subst hline
        rfl
      · rw [List.map_cons, readLines_cons hline (by simp [hvals.1]), hvals.1]
        have hrest : .unsatisfiable ∈ output := by
          rcases List.mem_cons.mp hunsat with h | h
          · exact (hline h.symm).elim
          · exact h
        exact ih hrest hvals.2

/-! ## The written model -/

/-- The index that a literal writes to. -/
def target (l : Int) : Nat := if l > 0 then (l - 1).toNat else (1 - l).toNat

/-- The model after the writes of nonzero literals that are all in bounds. -/
def written (lits : List Int) (model : List Bool) : List Bool :=
  lits.foldl (fun m l => m.set (target l) (decide (0 < l))) model

/-- The value of one entry after the writes. -/
def flagAfter (i : Nat) (lits : List Int) (b : Bool) : Bool :=
  lits.foldl (fun b l => if target l = i then decide (0 < l) else b) b

theorem writes_eq {lits : List Int} (h0 : 0 ∉ lits) (model : List Bool) :
    writes lits model = if ∀ l ∈ lits, target l < model.length
      then .ok (written lits model) else .error .outOfBounds := by
  induction lits generalizing model with
  | nil => simp [writes, written]
  | cons l lits ih =>
      have hl : l ≠ 0 := fun h => h0 (by simp [h])
      have hlits : (0 : Int) ∉ lits := fun h => h0 (by simp [h])
      have hstep : writes (l :: lits) model =
          if target l < model.length then writes lits (model.set (target l) (decide (0 < l)))
          else .error .outOfBounds := by
        by_cases hpos : l > 0
        · have hge : 0 ≤ l - 1 := by omega
          simp only [writes, target, store, if_pos hpos, hge, true_and]
          split
          · rw [decide_eq_true hpos]
            rfl
          · rfl
        · have hneg : l < 0 := by omega
          have hge : 0 ≤ 1 - l := by omega
          simp only [writes, target, store, if_neg hpos, if_pos hneg, hge, true_and]
          split
          · rw [decide_eq_false hpos]
            rfl
          · rfl
      rw [hstep]
      by_cases hlt : target l < model.length
      · rw [if_pos hlt, ih hlits]
        simp [hlt, written]
      · rw [if_neg hlt, if_neg (fun hall => hlt (hall l (by simp)))]

theorem length_written (lits : List Int) (model : List Bool) :
    (written lits model).length = model.length := by
  induction lits generalizing model with
  | nil => rfl
  | cons l lits ih =>
      rw [written, List.foldl_cons]
      exact (ih _).trans (by simp)

theorem written_get (lits : List Int) {model : List Bool} {i : Nat} {b : Bool}
    (hb : model[i]? = some b) : (written lits model)[i]? = some (flagAfter i lits b) := by
  induction lits generalizing model b with
  | nil => exact hb
  | cons l lits ih =>
      rw [written, List.foldl_cons, flagAfter, List.foldl_cons]
      apply ih
      obtain ⟨hi, hbi⟩ := List.getElem?_eq_some_iff.mp hb
      by_cases hl : target l = i
      · simp [hl, hi]
      · simp [hl, hb]

/-- Writers of one entry that agree. -/
theorem flagAfter_const {i : Nat} {lits : List Int} {b c : Bool}
    (h : ∀ l ∈ lits, target l = i → decide (0 < l) = c) :
    flagAfter i lits b = if ∃ l ∈ lits, target l = i then c else b := by
  induction lits generalizing b with
  | nil => simp [flagAfter]
  | cons l lits ih =>
      rw [flagAfter, List.foldl_cons]
      have ih' := ih (b := if target l = i then decide (0 < l) else b)
        (fun k hk => h k (by simp [hk]))
      rw [flagAfter] at ih'
      rw [ih']
      by_cases hl : target l = i
      · simp [hl, h l (by simp) hl]
      · simp [hl]

/-- Entry `i` is written by the variable `i + 1` and by the negation of `i - 1`. -/
theorem target_eq_iff {l : Int} (hl : l ≠ 0) (i : Nat) :
    target l = i ↔ l = (i : Int) + 1 ∨ (l < 0 ∧ l = 1 - (i : Int)) := by
  unfold target
  split <;> omega

/-- Apart from the variable `v` itself only the negation of `v - 2` writes its entry. -/
theorem flagAfter_of_not_mem {lits : List Int} (h0 : (0 : Int) ∉ lits) {v : Nat}
    (hv : 1 ≤ v) (hnot : (v : Int) ∉ lits) (b : Bool) :
    flagAfter (v - 1) lits b = true ↔ b = true ∧ ¬ (3 ≤ v ∧ -((v - 2 : Nat) : Int) ∈ lits) := by
  have htarget : ∀ l ∈ lits, (target l = v - 1 ↔ l < 0 ∧ l = 2 - (v : Int)) := by
    intro l hl
    have hl0 : l ≠ 0 := fun h => h0 (h ▸ hl)
    have hlv : l ≠ (v : Int) := fun h => hnot (h ▸ hl)
    rw [target_eq_iff hl0]
    omega
  have hflag : flagAfter (v - 1) lits b = if ∃ l ∈ lits, target l = v - 1 then false else b := by
    apply flagAfter_const
    intro l hl htl
    have := ((htarget l hl).mp htl).1
    exact decide_eq_false (by omega)
  have hiff : (∃ l ∈ lits, target l = v - 1) ↔ 3 ≤ v ∧ -((v - 2 : Nat) : Int) ∈ lits := by
    constructor
    · intro hx
      obtain ⟨l, hl, htl⟩ := hx
      obtain ⟨hneg, heq⟩ := (htarget l hl).mp htl
      have hcast : -((v - 2 : Nat) : Int) = l := by omega
      exact ⟨by omega, hcast ▸ hl⟩
    · intro hx
      obtain ⟨h3, hmem⟩ := hx
      exact ⟨_, hmem, (htarget _ hmem).mpr (by omega)⟩
  rw [hflag, ← hiff]
  by_cases hex : ∃ l ∈ lits, target l = v - 1 <;> simp [hex]

/-- In a list without repetitions, what comes after one of its members. -/
theorem pair_sublist_iff {a b : Int} {pre post : List Int}
    (hnodup : (pre ++ a :: post).Nodup) : [a, b].Sublist (pre ++ a :: post) ↔ b ∈ post := by
  constructor
  · induction pre with
    | nil =>
        intro hsub
        cases hsub with
        | cons _ hsub => exact absurd (hsub.subset List.mem_cons_self) (List.nodup_cons.mp hnodup).1
        | cons_cons _ hsub => exact List.singleton_sublist.mp hsub
    | cons c pre ih =>
        intro hsub
        obtain ⟨hc, hnodup'⟩ := List.nodup_cons.mp hnodup
        cases hsub with
        | cons _ hsub => exact ih hnodup' hsub
        | cons_cons _ hsub => exact absurd (by simp) hc
  · intro hb
    have hsub : [a, b].Sublist (a :: post) := (List.singleton_sublist.mpr hb).cons_cons a
    exact hsub.trans (List.sublist_append_right pre _)

section ListsOnce

variable {n : Nat} {lits : List Int} (h : ListsOnce n lits)

include h

theorem ListsOnce.bounds {l : Int} (hl : l ∈ lits) : 1 ≤ l.natAbs ∧ l.natAbs ≤ n := by
  have := h.mem_iff.mp (List.mem_map_of_mem hl)
  rw [List.mem_range'_1] at this
  omega

theorem ListsOnce.zero_not_mem : (0 : Int) ∉ lits := fun h0 => by
  have := h.bounds h0
  simp at this

theorem ListsOnce.nodup : (lits.map Int.natAbs).Nodup :=
  h.nodup_iff.mpr List.nodup_range'

theorem ListsOnce.eq_of_natAbs {l k : Int} (hl : l ∈ lits) (hk : k ∈ lits)
    (heq : l.natAbs = k.natAbs) : l = k :=
  List.inj_on_of_nodup_map h.nodup hl hk heq

/-- A variable is listed with one of its signs. -/
theorem ListsOnce.mem_or {v : Nat} (hv : 1 ≤ v) (hvn : v ≤ n) :
    (v : Int) ∈ lits ∨ -(v : Int) ∈ lits := by
  have hmem : v ∈ lits.map Int.natAbs := by
    rw [h.mem_iff, List.mem_range'_1]
    omega
  obtain ⟨l, hl, hlv⟩ := List.mem_map.mp hmem
  rcases Int.natAbs_eq l with heq | heq <;> rw [hlv] at heq <;> rw [heq] at hl
  · exact Or.inl hl
  · exact Or.inr hl

theorem ListsOnce.neg_not_mem {v : Nat} (hv : 1 ≤ v) (hpos : (v : Int) ∈ lits) :
    -(v : Int) ∉ lits := fun hneg => by
  have := h.eq_of_natAbs hpos hneg (by simp)
  omega

/-- An entry whose variable is listed positively. -/
theorem ListsOnce.flagAfter_pos {v : Nat} (hv : 1 ≤ v) (hpos : (v : Int) ∈ lits)
    (b : Bool) :
    flagAfter (v - 1) lits b = true ↔
      ¬ (3 ≤ v ∧ [(v : Int), -((v - 2 : Nat) : Int)].Sublist lits) := by
  obtain ⟨pre, post, hsplit⟩ := List.append_of_mem hpos
  have hnodup : (pre ++ (v : Int) :: post).Nodup := hsplit ▸ List.Nodup.of_map _ h.nodup
  have hnot : (v : Int) ∉ post :=
    (List.nodup_cons.mp (List.nodup_append.mp hnodup).2.1).1
  have h0 : (0 : Int) ∉ post := fun h0 => h.zero_not_mem (by rw [hsplit]; simp [h0])
  have hself : target (v : Int) = v - 1 := by
    unfold target
    split <;> omega
  have hlt : decide (0 < (v : Int)) = true := decide_eq_true (by omega)
  have hstep : flagAfter (v - 1) lits b = flagAfter (v - 1) post true := by
    rw [hsplit, flagAfter, List.foldl_append, List.foldl_cons, hself, if_pos rfl, hlt]
    rfl
  rw [hstep, flagAfter_of_not_mem h0 hv hnot, hsplit, pair_sublist_iff hnodup]
  simp

end ListsOnce

/-! ## One solve -/

/-- The model lists exactly the positive literals. -/
def Matches (n : Nat) (model : List Bool) (lits : List Int) : Prop :=
  model.length = n ∧
    ∀ v : Nat, 1 ≤ v → v ≤ n → (model[v - 1]? = some true ↔ (v : Int) ∈ lits)

/-- When the writes of the literals are in bounds and leave the right model behind. -/
structure Harmless (n : Nat) (model : List Bool) (lits : List Int) : Prop where
  in_bounds : ∀ v : Nat, -(v : Int) ∈ lits → v + 2 ≤ n
  in_order : ∀ v : Nat, 3 ≤ v → ¬ [(v : Int), -((v - 2 : Nat) : Int)].Sublist lits
  not_stale : ∀ v : Nat, -(v : Int) ∈ lits → model.getD (v - 1) false = true →
    3 ≤ v ∧ -((v - 2 : Nat) : Int) ∈ lits

theorem resize_get {model : List Bool} {n i : Nat} (hi : i < n) :
    (resize model n false)[i]? = some (model.getD i false) := by
  unfold resize
  by_cases hlt : i < model.length
  · rw [List.getElem?_append_left (by simp; omega)]
    simp [hlt, hi]
  · rw [List.getElem?_append_right (by simp; omega)]
    simp only [List.length_take, List.getElem?_replicate]
    rw [if_pos (by omega)]
    simp [Nat.le_of_not_lt hlt]

/-- The writes of a complete list of literals. -/
theorem writes_matches_iff {n : Nat} {model : List Bool} {lits : List Int}
    (h : ListsOnce n lits) :
    (∃ model', writes lits (resize model n false) = .ok model' ∧ Matches n model' lits) ↔
      Harmless n model lits := by
  have hlen : (resize model n false).length = n := by simp [resize]; omega
  have hentry : ∀ v : Nat, 1 ≤ v → v ≤ n → (written lits (resize model n false))[v - 1]? =
      some (flagAfter (v - 1) lits (model.getD (v - 1) false)) := fun v hv hvn =>
    written_get lits (resize_get (by omega))
  rw [writes_eq h.zero_not_mem, hlen]
  constructor
  · intro hx
    obtain ⟨model', hwrites, -, hmatch⟩ := hx
    split at hwrites
    · rename_i hbounds
      cases hwrites
      refine ⟨fun v hv => ?_, fun v h3 hsub => ?_, fun v hv hold => ?_⟩
      · have hb := hbounds _ hv
        have := h.bounds hv
        unfold target at hb
        split at hb <;> omega
      · have hpos : (v : Int) ∈ lits := hsub.subset List.mem_cons_self
        have hvn := (h.bounds hpos).2
        have hm := (hmatch v (by omega) (by omega)).mpr hpos
        rw [hentry v (by omega) (by omega), Option.some.injEq,
          h.flagAfter_pos (by omega) hpos] at hm
        exact hm ⟨h3, hsub⟩
      · have hvb := h.bounds hv
        have hnot : (v : Int) ∉ lits := fun hpos => h.neg_not_mem (by omega) hpos hv
        have hm := mt (hmatch v (by omega) (by omega)).mp hnot
        rw [hentry v (by omega) (by omega), Option.some.injEq,
          flagAfter_of_not_mem h.zero_not_mem (by omega) hnot] at hm
        by_contra hcon
        exact hm ⟨hold, hcon⟩
    · cases hwrites
  · intro hh
    have hbounds : ∀ l ∈ lits, target l < n := by
      intro l hl
      have hlb := h.bounds hl
      unfold target
      split
      · omega
      · have := hh.in_bounds l.natAbs (by rwa [show -(l.natAbs : Int) = l by omega])
        omega
    refine ⟨written lits (resize model n false), by rw [if_pos hbounds], ?_, fun v hv hvn => ?_⟩
    · rw [length_written, hlen]
    · rw [hentry v hv hvn, Option.some.injEq]
      by_cases hpos : (v : Int) ∈ lits
      · rw [h.flagAfter_pos hv hpos]
        exact iff_of_true (fun hcon => hh.in_order v hcon.1 hcon.2) hpos
      · rw [flagAfter_of_not_mem h.zero_not_mem hv hpos]
        have hneg := (h.mem_or hv hvn).resolve_left hpos
        exact iff_of_false (fun hcon => hcon.2 (hh.not_stale v hneg hcon.1)) hpos

/-- No access of the call was out of bounds, and a satisfiable answer left its own
values behind. -/
def SolveRight (solver : ExternalSatSolver) (output : List OutputLine) : Prop :=
  ∃ sat solver', solver.solve (output.map OutputLine.render) = .ok (sat, solver') ∧
    (sat = .SAT_V → Matches solver.numberOfVars solver'.model (listed output))

/-- The condition on a satisfiable answer and the model before the call. -/
def SolveHarmless (solver : ExternalSatSolver) (output : List OutputLine) : Prop :=
  .satisfiable ∈ output → Harmless solver.numberOfVars solver.model (listed output)

theorem solveRight_iff {solver : ExternalSatSolver} {output : List OutputLine}
    (hn : solver.numberOfVars < 2 ^ 31) (hout : Conformant solver.numberOfVars output) :
    SolveRight solver output ↔ SolveHarmless solver output := by
  rcases hout with ⟨hsat, hunsat, lits, hvals, hlits⟩ | ⟨hunsat, hsat, hvals⟩
  · have h0 := hlits.zero_not_mem
    have hlisted : listed output = lits := by simp [listed, hvals]
    have hsmall : ∀ l ∈ valuesOf output, l.natAbs < 2 ^ 31 := by
      intro l hl
      rw [hvals] at hl
      rcases List.mem_append.mp hl with hl | hl
      · have := hlits.bounds hl
        omega
      · simp [List.mem_singleton.mp hl]
    have hzero : ZeroLast (valuesOf output) := by
      intro pre post heq
      rw [hvals] at heq
      rcases List.eq_nil_or_concat post with rfl | ⟨post', x, rfl⟩
      · rfl
      · have heq' : lits ++ [0] = (pre ++ 0 :: post') ++ [x] := by simpa using heq
        have hpre := (List.append_inj' heq' rfl).1
        exact (h0 (by simp [hpre])).elim
    have hread : solver.solve (output.map OutputLine.render) =
        (writes lits (resize solver.model solver.numberOfVars false)).map
          (fun m => (Verdict.SAT_V, { solver with assumptions := [], model := m })) := by
      rw [ExternalSatSolver.solve, readLines_sat hunsat hsmall hzero, hvals,
        writes_append (Or.inl h0)]
      cases writes lits (resize solver.model solver.numberOfVars false) <;> rfl
    rw [SolveRight, SolveHarmless, hlisted, hread, ← writes_matches_iff hlits]
    constructor
    · intro hx _
      obtain ⟨sat, solver', hsolve, hmatch⟩ := hx
      cases hw : writes lits (resize solver.model solver.numberOfVars false) with
      | error e =>
          rw [hw] at hsolve
          cases hsolve
      | ok m =>
          rw [hw] at hsolve
          cases hsolve
          exact ⟨m, rfl, hmatch rfl⟩
    · intro hw
      obtain ⟨m, hm, hmatch⟩ := hw hsat
      rw [hm]
      exact ⟨_, _, rfl, fun _ => hmatch⟩
  · refine iff_of_true ⟨.UNSAT_V, { solver with
      assumptions := [], model := resize solver.model solver.numberOfVars false }, ?_, by simp⟩
      (fun h => (hsat h).elim)
    rw [ExternalSatSolver.solve, readLines_unsat hunsat hvals]
    rfl

/-! ## Runs -/

/-- The calls of a run; `solve(assumptions)` is a sequence of these. -/
inductive Call where
  | addClause (clause : List Int)
  | assume (lit : Int)
  | solve (output : List OutputLine)

/-- Every solve of the run satisfies `P` in the state in which it is called. -/
def EverySolve (P : ExternalSatSolver → List OutputLine → Prop) :
    ExternalSatSolver → List Call → Prop
  | _, [] => True
  | solver, .addClause clause :: calls => EverySolve P (solver.addClause clause) calls
  | solver, .assume lit :: calls => EverySolve P (solver.assume lit) calls
  | solver, .solve output :: calls => P solver output ∧
      ∀ sat solver', solver.solve (output.map OutputLine.render) = .ok (sat, solver') →
        EverySolve P solver' calls

/-- A solve that returns leaves the clauses alone and no assumptions behind. -/
theorem solve_frame {solver solver' : ExternalSatSolver} {output : List Line} {sat : Verdict}
    (h : solver.solve output = .ok (sat, solver')) :
    solver'.numberOfVars = solver.numberOfVars ∧ solver'.clauses = solver.clauses ∧
      solver'.assumptions = [] := by
  unfold ExternalSatSolver.solve at h
  cases hr : readLines output (resize solver.model solver.numberOfVars false) with
  | error e =>
      rw [hr] at h
      cases h
  | ok r =>
      rw [hr] at h
      cases h
      exact ⟨rfl, rfl, rfl⟩

/-- In every run with conformant output, each solve is right if and only if each solve
finds the condition on its answer and the model before it satisfied. -/
theorem external_model_run_iff (nVars nArgs : Nat) (hn : nVars < 2 ^ 31)
    (calls : List Call) (hconf : ∀ output, .solve output ∈ calls → Conformant nVars output) :
    EverySolve SolveRight (ExternalSatSolver.new nVars nArgs) calls ↔
      EverySolve SolveHarmless (ExternalSatSolver.new nVars nArgs) calls := by
  suffices h : ∀ solver : ExternalSatSolver, solver.numberOfVars = nVars →
      (EverySolve SolveRight solver calls ↔ EverySolve SolveHarmless solver calls) from
    h _ rfl
  induction calls with
  | nil => exact fun _ _ => Iff.rfl
  | cons call calls ih =>
      intro solver hvars
      have ih' := ih (fun output hout => hconf output (by simp [hout]))
      cases call with
      | addClause clause => exact ih' _ hvars
      | assume lit => exact ih' _ hvars
      | solve output =>
          have hout : Conformant solver.numberOfVars output :=
            hvars ▸ hconf output (by simp)
          refine and_congr (solveRight_iff (hvars ▸ hn) hout) ?_
          refine forall₃_congr fun sat solver' hsolve => ih' solver' ?_
          rw [(solve_frame hsolve).1, hvars]

theorem external_model_run_iff_two :
    EverySolve SolveRight (ExternalSatSolver.new 2 1)
        [.addClause [1, 2], .assume 2, .solve [.satisfiable, .values [1, 2, 0]]] ↔
      EverySolve SolveHarmless (ExternalSatSolver.new 2 1)
        [.addClause [1, 2], .assume 2, .solve [.satisfiable, .values [1, 2, 0]]] :=
  external_model_run_iff 2 1 (by decide) _ (by
    intro output hout
    obtain rfl : output = [.satisfiable, .values [1, 2, 0]] := by simpa using hout
    exact Or.inl ⟨by decide, by decide, [1, 2], by decide, by decide⟩)

/-- The run for one self-attacking argument: the only model of the complete clauses makes
both variables false, and reading it writes outside the model. -/
def outsideRun : List Call :=
  [.addClause [-1, -2], .addClause [-1, 2], .addClause [-1, 2], .addClause [1, -2],
    .addClause [-2, 1], .solve [.satisfiable, .values [-1, -2, 0]]]

/-- A run in which a value of the first answer survives into the second. -/
def staleRun : List Call :=
  [.solve [.satisfiable, .values [1, 2, 3, 4, 0]],
    .solve [.satisfiable, .values [-1, 2, 3, 4, 0]]]

theorem external_model_wrong :
    ((∀ output, .solve output ∈ outsideRun → Conformant 2 output) ∧
      ¬ EverySolve SolveRight (ExternalSatSolver.new 2 1) outsideRun) ∧
    (∀ output, .solve output ∈ staleRun → Conformant 4 output) ∧
      ¬ EverySolve SolveRight (ExternalSatSolver.new 4 2) staleRun := by
  refine ⟨⟨?_, ?_⟩, ?_, ?_⟩
  · intro output hout
    obtain rfl : output = [.satisfiable, .values [-1, -2, 0]] := by
      simpa [outsideRun] using hout
    exact Or.inl ⟨by decide, by decide, [-1, -2], by decide, by decide⟩
  · intro h
    obtain ⟨⟨sat, solver', hsolve, -⟩, -⟩ := h
    cases hsolve
  · intro output hout
    obtain rfl | rfl : output = [.satisfiable, .values [1, 2, 3, 4, 0]] ∨
        output = [.satisfiable, .values [-1, 2, 3, 4, 0]] := by simpa [staleRun] using hout
    · exact Or.inl ⟨by decide, by decide, [1, 2, 3, 4], by decide, by decide⟩
    · exact Or.inl ⟨by decide, by decide, [-1, 2, 3, 4], by decide, by decide⟩
  · intro h
    obtain ⟨-, hrest⟩ := h
    obtain ⟨⟨sat, solver', hsolve, hmatch⟩, -⟩ := hrest _ _ rfl
    cases hsolve
    have hlisted := ((hmatch rfl).2 1 (by decide) (by decide)).mp (by decide)
    exact absurd hlisted (by decide)

end AcceptableArguments.External
