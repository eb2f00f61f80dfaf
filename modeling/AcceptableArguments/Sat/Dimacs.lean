import AcceptableArguments.Imperative.Streams
import AcceptableArguments.Sat.Cnf
import Mathlib.Data.List.Forall2

/-!
# The DIMACS format for clauses

Lines that start with `c` are comments. The first other line is the header `p cnf`
followed by the number of variables and the number of clauses. The lines behind it
consist of numbers; a zero ends a clause, and the ends of lines mean nothing.
-/

namespace AcceptableArguments.Sat.Dimacs

open Imperative.InStream

structure Formula where
  vars : Nat
  count : Nat
  clauses : List Clause
  deriving DecidableEq, Repr

/-- A numeral. -/
def readNat (w : List Char) : Option Nat :=
  if w ≠ [] ∧ w.all Char.isDigit = true then some (Nat.ofDigitChars 10 w 0) else none

def readInt : List Char → Option Int
  | '-' :: w => (readNat w).map fun n : Nat => -(n : Int)
  | w => (readNat w).map fun n : Nat => (n : Int)

/-- The clauses of a list of numbers; the first argument is the clause that has been
started. Every clause must be ended. -/
def readClauses : Clause → List Int → Option (List Clause)
  | [], [] => some []
  | _ :: _, [] => none
  | clause, l :: ls =>
      if l = 0 then (readClauses [] ls).map (clause :: ·) else readClauses (clause ++ [l]) ls

/-- The words of a line. -/
def tokens (line : List Char) : List (List Char) := words Char.isWhitespace line

/-- The numbers of the lines behind the header. -/
def readNumbers (lines : List (List Char)) : Option (List Int) :=
  (lines.flatMap tokens).mapM readInt

def readDimacs (text : List Char) : Option Formula :=
  match (text.splitOn '\n').filter (fun line => line.head? ≠ some 'c') with
  | [] => none
  | header :: lines =>
      match tokens header with
      | [p, cnf, vars, count] => do
          if p = ['p'] ∧ cnf = ['c', 'n', 'f'] then
            return ⟨← readNat vars, ← readNat count, ← readClauses [] (← readNumbers lines)⟩
          else none
      | _ => none

/-! ## Reading back -/

theorem readNat_toDigits (n : Nat) : readNat (Nat.toDigits 10 n) = some n := by
  have hall : (Nat.toDigits 10 n).all Char.isDigit = true :=
    List.all_eq_true.mpr fun c hc => Nat.isDigit_of_mem_toDigits (by decide) (by decide) hc
  rw [readNat, if_pos ⟨Nat.toDigits_ne_nil, hall⟩, Nat.ofDigitChars_ten_toDigits]

theorem readClauses_append {clause : Clause} (hclause : 0 ∉ clause) (start : Clause)
    (ls : List Int) :
    readClauses start (clause ++ 0 :: ls) =
      (readClauses [] ls).map ((start ++ clause) :: ·) := by
  induction clause generalizing start with
  | nil =>
      cases start <;> simp [readClauses]
  | cons l clause ih =>
      have hl : l ≠ 0 := fun h => hclause (by simp [h])
      have ih' := ih (fun h => hclause (by simp [h])) (start ++ [l])
      rw [List.append_assoc, List.singleton_append] at ih'
      cases start <;> simpa [readClauses, hl] using ih'

/-- Clauses without zeros are read back. -/
theorem readClauses_flatMap {clauses : List Clause} (h : ∀ clause ∈ clauses, 0 ∉ clause) :
    readClauses [] (clauses.flatMap fun clause => clause ++ [0]) = some clauses := by
  induction clauses with
  | nil => rfl
  | cons clause clauses ih =>
      rw [List.flatMap_cons, List.append_assoc, List.singleton_append,
        readClauses_append (h clause (by simp)), ih fun c hc => h c (by simp [hc])]
      rfl

theorem readNumbers_cons {line : List Char} {lines : List (List Char)} {ls rest : List Int}
    (hline : (tokens line).mapM readInt = some ls) (hlines : readNumbers lines = some rest) :
    readNumbers (line :: lines) = some (ls ++ rest) := by
  unfold readNumbers at hlines ⊢
  rw [List.flatMap_cons, List.mapM_append, hline, hlines]
  rfl

/-- The numbers of lines that are read one by one. -/
theorem readNumbers_eq {lines : List (List Char)} {numbers : List (List Int)}
    (h : List.Forall₂ (fun line ls => (tokens line).mapM readInt = some ls) lines numbers) :
    readNumbers lines = some numbers.flatten := by
  induction h with
  | nil => rfl
  | cons hline _ ih =>
      rw [List.flatten_cons]
      exact readNumbers_cons hline ih

theorem splitOn_flatMap_newline {lines : List (List Char)} (h : ∀ line ∈ lines, '\n' ∉ line) :
    (lines.flatMap fun line => line ++ ['\n']).splitOn '\n' = lines ++ [[]] := by
  induction lines with
  | nil => rfl
  | cons line lines ih =>
      rw [List.flatMap_cons, List.append_assoc, List.singleton_append,
        List.splitOn_append_cons_self_of_not_mem (h line (by simp)),
        ih fun l hl => h l (by simp [hl]), List.cons_append]

/-- A header and the lines of the numbers, none of which starts with a `c`. -/
theorem readDimacs_lines {header vars count : List Char} {lines : List (List Char)}
    {numbers : List (List Int)} {clauses : List Clause} {n k : Nat}
    (htext : ∀ line ∈ header :: lines, '\n' ∉ line ∧ line.head? ≠ some 'c')
    (hheader : tokens header = [['p'], ['c', 'n', 'f'], vars, count])
    (hvars : readNat vars = some n) (hcount : readNat count = some k)
    (hlines : List.Forall₂ (fun line ls => (tokens line).mapM readInt = some ls) lines numbers)
    (hnumbers : numbers.flatten = clauses.flatMap fun clause => clause ++ [0])
    (hclauses : ∀ clause ∈ clauses, 0 ∉ clause) :
    readDimacs ((header :: lines).flatMap fun line => line ++ ['\n']) =
      some ⟨n, k, clauses⟩ := by
  have hsplit := splitOn_flatMap_newline fun line hline => (htext line hline).1
  have hfilter : ((header :: lines) ++ [[]]).filter (fun line => line.head? ≠ some 'c') =
      header :: (lines ++ [[]]) := by
    rw [List.filter_eq_self.mpr]
    · rfl
    · intro line hline
      rcases List.mem_append.mp hline with hline | hline
      · simpa using (htext line hline).2
      · simp [List.mem_singleton.mp hline]
  -- The text behind the last newline is an empty line.
  have hnumbers' : readNumbers (lines ++ [[]]) = some numbers.flatten := by
    have hlast : List.Forall₂ (fun line ls => (tokens line).mapM readInt = some ls)
        [([] : List Char)] [([] : List Int)] := .cons rfl .nil
    rw [readNumbers_eq (List.rel_append hlines hlast)]
    simp
  have hread : readClauses [] numbers.flatten = some clauses := by
    rw [hnumbers, readClauses_flatMap hclauses]
  unfold readDimacs
  rw [hsplit, hfilter]
  simp [hheader, hvars, hcount, hnumbers', hread]

end AcceptableArguments.Sat.Dimacs
