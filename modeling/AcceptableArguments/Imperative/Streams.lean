import AcceptableArguments.Imperative.Run
import Mathlib.Data.List.TakeWhile

/-!
# Input streams

A stream is the text still to be read with its two state bits. A read on a stream that
is not good sets the fail bit and leaves the target unchanged. Reaching the end of the
text sets the eof bit; a read that finds nothing sets the fail bit as well. What counts
as white space is a parameter of the streams; `isSpace` is the usual choice.
-/

namespace AcceptableArguments.Imperative

/-! ## Characters -/

/-- `std::isspace`. -/
def isSpace (c : Char) : Bool := c ∈ [' ', '\t', '\n', '\x0b', '\x0c', '\r']

/-- An optional sign; `true` is minus. -/
def splitSign : List Char → Bool × List Char
  | '-' :: rest => (true, rest)
  | '+' :: rest => (false, rest)
  | rest => (false, rest)

theorem isDigit_of_mem_toDigits {n : Nat} {c : Char} (hc : c ∈ Nat.toDigits 10 n) :
    c.isDigit = true := Nat.isDigit_of_mem_toDigits (by decide) (by decide) hc

theorem takeWhile_toDigits (n : Nat) :
    (Nat.toDigits 10 n).takeWhile Char.isDigit = Nat.toDigits 10 n :=
  List.takeWhile_eq_self_iff.mpr fun _ hc => isDigit_of_mem_toDigits hc

theorem ne_of_isDigit {c d : Char} (hc : c.isDigit = true) (hd : d.isDigit = false) :
    c ≠ d := by
  intro h
  subst h
  rw [hc] at hd
  cases hd

theorem isSpace_of_isDigit {c : Char} (hc : c.isDigit = true) : isSpace c = false := by
  have hne : ∀ d ∈ [' ', '\t', '\n', '\x0b', '\x0c', '\r'], c ≠ d := by
    intro d hd
    have hspaces : [' ', '\t', '\n', '\x0b', '\x0c', '\r'].all (fun d => !d.isDigit) = true := by
      decide
    exact ne_of_isDigit hc (by simpa using List.all_eq_true.mp hspaces d hd)
  simpa [isSpace] using hne

/-- A text that starts with a digit has no sign. -/
theorem splitSign_of_isDigit {c : Char} (hc : c.isDigit = true) (cs : List Char) :
    splitSign (c :: cs) = (false, c :: cs) := by
  unfold splitSign
  split
  · rename_i h
    cases h
    exact absurd hc (by decide)
  · rename_i h
    cases h
    exact absurd hc (by decide)
  · rfl

theorem splitSign_digits {n : Nat} :
    splitSign (Nat.toDigits 10 n) = (false, Nat.toDigits 10 n) := by
  obtain ⟨c, cs, hn⟩ := List.exists_cons_of_ne_nil (Nat.toDigits_ne_nil (n := n) (b := 10))
  rw [hn]
  exact splitSign_of_isDigit (isDigit_of_mem_toDigits (n := n) (by simp [hn])) cs

/-! ## Streams -/

/-- `std::istream` over a text. -/
structure InStream where
  rest : List Char
  eof : Bool
  fail : Bool
  deriving DecidableEq, Repr

namespace InStream

def ofText (text : List Char) : InStream := ⟨text, false, false⟩

def good (s : InStream) : Bool := !s.eof && !s.fail

/-- `std::getline`: the text up to the next newline, which is consumed. -/
def getline (s : InStream) (line : List Char) : List Char × InStream :=
  if s.good then
    match s.rest.dropWhile (· ≠ '\n') with
    | [] => (s.rest, ⟨[], true, s.rest.isEmpty⟩)
    | _ :: rest => (s.rest.takeWhile (· ≠ '\n'), ⟨rest, false, false⟩)
  else (line, { s with fail := true })

/-- `>>` into a string: white space is skipped and the text up to the next white space
is taken. -/
def extractWord (space : Char → Bool) (s : InStream) (word : List Char) :
    List Char × InStream :=
  if s.good then
    match s.rest.dropWhile space with
    | [] => (word, ⟨[], true, true⟩)
    | c :: cs =>
        let rest := (c :: cs).dropWhile (fun d => !space d)
        ((c :: cs).takeWhile (fun d => !space d), ⟨rest, rest.isEmpty, false⟩)
  else (word, { s with fail := true })

/-- The text of the lines, with or without a newline behind the last one. -/
def unlines (lines : List (List Char)) (final : Bool) : List Char :=
  List.intercalate ['\n'] lines ++ if final then ['\n'] else []

/-! ## Reading lines -/

theorem intercalate_cons_cons (line next : List Char) (lines : List (List Char)) :
    List.intercalate ['\n'] (line :: next :: lines) =
      line ++ '\n' :: List.intercalate ['\n'] (next :: lines) := by
  simp [List.intercalate]

/-- A final newline is followed by an empty line. -/
theorem unlines_true {lines : List (List Char)} (hne : lines ≠ []) :
    unlines lines true = List.intercalate ['\n'] (lines ++ [[]]) := by
  induction lines with
  | nil => exact absurd rfl hne
  | cons line lines ih =>
      cases lines with
      | nil => simp [unlines, List.intercalate]
      | cons next lines =>
          have ih' := ih (by simp)
          simp only [unlines, if_true] at ih' ⊢
          calc List.intercalate ['\n'] (line :: next :: lines) ++ ['\n']
              = line ++ '\n' :: (List.intercalate ['\n'] (next :: lines) ++ ['\n']) := by
                rw [intercalate_cons_cons, List.append_assoc, List.cons_append]
            _ = line ++ '\n' :: List.intercalate ['\n'] (next :: (lines ++ [[]])) := by
                rw [ih', List.cons_append]
            _ = List.intercalate ['\n'] (line :: next :: lines ++ [[]]) := by
                rw [List.cons_append, List.cons_append, intercalate_cons_cons]

theorem length_le_intercalate (lines : List (List Char)) :
    lines.length ≤ (List.intercalate ['\n'] lines).length + 1 := by
  induction lines with
  | nil => simp
  | cons line lines ih =>
      cases lines with
      | nil => simp
      | cons next lines =>
          rw [intercalate_cons_cons]
          simp only [List.length_append, List.length_cons] at ih ⊢
          omega

/-- A line that is followed by another one. -/
theorem getline_cons {line text : List Char} (hline : '\n' ∉ line) (old : List Char) :
    (ofText (line ++ '\n' :: text)).getline old = (line, ofText text) := by
  have hall : ∀ c ∈ line, decide (c ≠ '\n') = true := fun c hc =>
    decide_eq_true fun h => hline (h ▸ hc)
  have hdrop : (line ++ '\n' :: text).dropWhile (· ≠ '\n') = '\n' :: text := by
    rw [List.dropWhile_append_of_pos hall, List.dropWhile_cons_of_neg (by simp)]
  have htake : (line ++ '\n' :: text).takeWhile (· ≠ '\n') = line := by
    rw [List.takeWhile_append_of_pos hall, List.takeWhile_cons_of_neg (by simp),
      List.append_nil]
  simp only [getline, ofText, good, Bool.not_false, Bool.and_self, if_true, hdrop, htake]

/-- The last line, which no newline ends. -/
theorem getline_last {line : List Char} (hline : '\n' ∉ line) (old : List Char) :
    (ofText line).getline old = (line, ⟨[], true, line.isEmpty⟩) := by
  have hdrop : line.dropWhile (· ≠ '\n') = [] := by
    apply List.dropWhile_eq_nil_iff.mpr
    intro c hc
    exact decide_eq_true fun h => hline (h ▸ hc)
  simp only [getline, ofText, good, Bool.not_false, Bool.and_self, if_true, hdrop]

theorem newline_not_mem_of_mem_splitOn {text line : List Char}
    (h : line ∈ text.splitOn '\n') : '\n' ∉ line := by
  induction text generalizing line with
  | nil =>
      rw [List.splitOn_nil, List.mem_singleton] at h
      simp [h]
  | cons c text ih =>
      rw [List.splitOn_eq_splitOnP, List.splitOnP_cons_eq_if_modifyHead] at h
      rw [List.splitOn_eq_splitOnP] at ih
      split at h
      · rcases List.mem_cons.mp h with rfl | h
        · exact List.not_mem_nil
        · exact ih h
      · rename_i hc
        obtain ⟨first, rest, hsplit⟩ := List.exists_cons_of_ne_nil
          (List.splitOnP_ne_nil (· == '\n') text)
        rw [hsplit, List.modifyHead_cons] at h
        rw [hsplit] at ih
        rcases List.mem_cons.mp h with rfl | h
        · have hfirst : '\n' ∉ first := ih (by simp)
          simp only [beq_iff_eq] at hc
          simp [hfirst, Ne.symm hc]
        · exact ih (by simp [h])

/-- The lines still to be read; there are none once the end of the text was reached. -/
def HoldsLines (s : InStream) (lines : List (List Char)) : Prop :=
  if lines = [] then s.eof = true else s = ofText (List.intercalate ['\n'] lines)

theorem holdsLines_ofText {lines : List (List Char)} (hne : lines ≠ []) :
    HoldsLines (ofText (List.intercalate ['\n'] lines)) lines := by
  rw [HoldsLines, if_neg hne]

theorem HoldsLines.getline_cons {s : InStream} {line : List Char} {lines : List (List Char)}
    (h : HoldsLines s (line :: lines)) (hline : '\n' ∉ line) (old : List Char) :
    s.eof = false ∧ ∃ s', s.getline old = (line, s') ∧ HoldsLines s' lines := by
  rw [HoldsLines, if_neg (by simp)] at h
  subst h
  refine ⟨rfl, ?_⟩
  cases lines with
  | nil =>
      rw [List.intercalate_singleton, getline_last hline]
      exact ⟨_, rfl, rfl⟩
  | cons next lines =>
      rw [intercalate_cons_cons, InStream.getline_cons hline]
      exact ⟨_, rfl, rfl⟩

/-! ## Reading words -/

/-- The text consists of the words, separated by white space. -/
inductive Spaced (space : Char → Bool) : List Char → List (List Char) → Prop
  | nil : Spaced space [] []
  | space {c : Char} {text : List Char} {ws : List (List Char)} (hc : space c = true)
      (h : Spaced space text ws) : Spaced space (c :: text) ws
  | word {w text : List Char} {ws : List (List Char)} (hne : w ≠ [])
      (hw : ∀ c ∈ w, space c = false) (hsep : ∀ c ∈ text.head?, space c = true)
      (h : Spaced space text ws) : Spaced space (w ++ text) (w :: ws)

variable {space : Char → Bool}

/-- Two texts with white space between them. -/
theorem Spaced.append {text text' : List Char} {ws ws' : List (List Char)} {c : Char}
    (h : Spaced space text ws) (hc : space c = true) (h' : Spaced space text' ws') :
    Spaced space (text ++ c :: text') (ws ++ ws') := by
  induction h with
  | nil => exact .space hc h'
  | space hd _ ih => exact .space hd ih
  | @word w text ws hne hw hsep _ ih =>
      rw [List.append_assoc, List.cons_append]
      refine .word hne hw ?_ ih
      cases text with
      | nil => simpa using hc
      | cons d text => simpa using hsep

theorem Spaced.singleton {w : List Char} (hne : w ≠ []) (hw : ∀ c ∈ w, space c = false) :
    Spaced space w [w] := by
  have h : Spaced space (w ++ []) [w] := .word hne hw (by simp) .nil
  rwa [List.append_nil] at h

/-- Each word takes a character of the text. -/
theorem Spaced.length_le {text : List Char} {ws : List (List Char)}
    (h : Spaced space text ws) : ws.length ≤ text.length := by
  induction h with
  | nil => exact Nat.le_refl 0
  | space _ _ ih => exact Nat.le_succ_of_le ih
  | @word w text ws hne _ _ _ ih =>
      have hpos := List.length_pos_iff.mpr hne
      rw [List.length_cons, List.length_append]
      omega

/-- Without words there is only white space. -/
theorem Spaced.dropWhile_nil {text : List Char} (h : Spaced space text []) :
    text.dropWhile space = [] := by
  generalize hws : ([] : List (List Char)) = ws at h
  induction h with
  | nil => rfl
  | space hc _ ih => rw [List.dropWhile_cons_of_pos hc, ih hws]
  | word => cases hws

/-- Behind the white space the first word starts. -/
theorem Spaced.dropWhile_cons {text w : List Char} {ws : List (List Char)}
    (h : Spaced space text (w :: ws)) :
    ∃ rest, text.dropWhile space = w ++ rest ∧ w ≠ [] ∧ (∀ c ∈ w, space c = false) ∧
      (∀ c ∈ rest.head?, space c = true) ∧ Spaced space rest ws := by
  generalize hws : w :: ws = all at h
  induction h with
  | nil => cases hws
  | space hc _ ih =>
      rw [List.dropWhile_cons_of_pos hc]
      exact ih hws
  | @word v rest vs hne hw hsep hrest =>
      cases hws
      obtain ⟨c, cs, rfl⟩ := List.exists_cons_of_ne_nil hne
      refine ⟨rest, ?_, hne, hw, hsep, hrest⟩
      rw [List.cons_append, List.dropWhile_cons_of_neg (by simp [hw c (by simp)])]

/-- The words of the lines are the words of their text. -/
theorem spaced_intercalate (hnew : space '\n' = true) {lines : List (List Char)}
    {words : List (List (List Char))} (h : List.Forall₂ (Spaced space) lines words) :
    Spaced space (List.intercalate ['\n'] lines) words.flatten := by
  induction h with
  | nil => exact .nil
  | @cons line ws lines words hline hlines ih =>
      cases hlines with
      | nil => simpa using hline
      | cons hnext hlines =>
          rw [intercalate_cons_cons, List.flatten_cons]
          exact hline.append hnew ih

theorem spaced_unlines (hnew : space '\n' = true) {lines : List (List Char)}
    {words : List (List (List Char))} (h : List.Forall₂ (Spaced space) lines words)
    (final : Bool) : Spaced space (unlines lines final) words.flatten := by
  have hlines := spaced_intercalate hnew h
  cases final with
  | false => simpa [unlines] using hlines
  | true => simpa [unlines] using hlines.append hnew .nil

/-- The words of a text. -/
def words (space : Char → Bool) (text : List Char) : List (List Char) :=
  (text.splitOnP space).filter (fun w => !w.isEmpty)

/-- A text has only one reading as words. -/
theorem Spaced.words_eq {text : List Char} {ws : List (List Char)}
    (h : Spaced space text ws) : words space text = ws := by
  induction h with
  | nil => rfl
  | space hc _ ih => simpa [words, List.splitOnP_cons_eq_if_modifyHead, hc] using ih
  | @word w text ws hne hw hsep _ ih =>
      cases text with
      | nil =>
          have hnil : ws = [] := ih.symm
          rw [List.append_nil, words, List.splitOnP_eq_singleton hw, hnil]
          simp [hne]
      | cons c text =>
          have hc : space c = true := hsep c (by simp)
          have hrest : words space text = ws := by
            simpa [words, List.splitOnP_cons_eq_if_modifyHead, hc] using ih
          rw [words, List.splitOnP_append_cons_of_forall_mem hw c hc, ← hrest]
          simp [hne, words]

/-- Every text has a reading as words. -/
theorem spaced_words (text : List Char) : Spaced space text (words space text) := by
  suffices hex : ∃ ws, Spaced space text ws by
    obtain ⟨ws, hws⟩ := hex
    rwa [hws.words_eq]
  induction h : text.length using Nat.strong_induction_on generalizing text with
  | _ k ih =>
      subst h
      cases text with
      | nil => exact ⟨[], .nil⟩
      | cons c cs =>
          cases hc : space c with
          | true =>
              obtain ⟨ws, hws⟩ := ih cs.length (by simp) cs rfl
              exact ⟨ws, .space hc hws⟩
          | false =>
              set rest := cs.dropWhile (fun d => !space d) with hrest
              have hlen : rest.length ≤ cs.length := List.length_dropWhile_le _ _
              obtain ⟨ws, hws⟩ := ih rest.length (by simp; omega) rest rfl
              have hword : ∀ d ∈ c :: cs.takeWhile (fun d => !space d), space d = false := by
                intro d hd
                rcases List.mem_cons.mp hd with rfl | hd
                · exact hc
                · simpa using List.mem_takeWhile_imp hd
              have hsep : ∀ d ∈ rest.head?, space d = true := by
                intro d hd
                have := List.head?_dropWhile_not (fun d => !space d) cs
                rw [← hrest, Option.mem_def.mp hd] at this
                simpa using this
              have hall := Spaced.word (by simp) hword hsep hws
              rw [List.cons_append, List.takeWhile_append_dropWhile] at hall
              exact ⟨_, hall⟩

/-- The words still to be read from a stream that has not failed. -/
structure Holds (space : Char → Bool) (s : InStream) (ws : List (List Char)) : Prop where
  spaced : Spaced space s.rest ws
  fail_eq : s.fail = false
  eof_rest : s.eof = true → s.rest = []

theorem holds_ofText {text : List Char} {ws : List (List Char)} (h : Spaced space text ws) :
    Holds space (ofText text) ws := ⟨h, rfl, by simp [ofText]⟩

/-- A stream that still holds a word is good. -/
theorem Holds.good_eq {s : InStream} {w : List Char} {ws : List (List Char)}
    (h : Holds space s (w :: ws)) : s.good = true := by
  obtain ⟨rest, hdrop, hne, -⟩ := h.spaced.dropWhile_cons
  have heof : s.eof = false := by
    by_contra heof
    rw [h.eof_rest (by simpa using heof)] at hdrop
    exact hne (List.append_eq_nil_iff.mp hdrop.symm).1
  simp [good, heof, h.fail_eq]

/-- A word is read as long as there is one. -/
theorem Holds.extractWord_cons {s : InStream} {w : List Char} {ws : List (List Char)}
    (h : Holds space s (w :: ws)) (old : List Char) :
    ∃ s', s.extractWord space old = (w, s') ∧ Holds space s' ws := by
  obtain ⟨rest, hdrop, hne, hw, hsep, hrest⟩ := h.spaced.dropWhile_cons
  have hgood := h.good_eq
  obtain ⟨c, cs, rfl⟩ := List.exists_cons_of_ne_nil hne
  have hall : ∀ d ∈ c :: cs, (!space d) = true := fun d hd => by simp [hw d hd]
  have htake : (c :: cs ++ rest).takeWhile (fun d => !space d) = c :: cs := by
    rw [List.takeWhile_append_of_pos hall]
    cases rest with
    | nil => simp
    | cons d rest => simp [hsep d (by simp)]
  have hleft : (c :: cs ++ rest).dropWhile (fun d => !space d) = rest := by
    rw [List.dropWhile_append_of_pos hall]
    cases rest with
    | nil => simp
    | cons d rest => simp [hsep d (by simp)]
  refine ⟨⟨rest, rest.isEmpty, false⟩, ?_, hrest, rfl, by simp⟩
  rw [List.cons_append] at hdrop htake hleft
  simp only [extractWord, hgood, if_true, hdrop, htake, hleft]

/-- Without a word the read fails. -/
theorem Holds.extractWord_nil {s : InStream} (h : Holds space s []) (old : List Char) :
    ∃ s', s.extractWord space old = (old, s') ∧ s'.fail = true := by
  unfold extractWord
  split
  · rw [h.spaced.dropWhile_nil]
    exact ⟨_, rfl, rfl⟩
  · exact ⟨_, rfl, rfl⟩

/-- The fail bit stays set. -/
theorem extractWord_fail {s : InStream} (h : s.fail = true) (old : List Char) :
    (s.extractWord space old).2.fail = true := by
  simp [extractWord, good, h]

end InStream

end AcceptableArguments.Imperative
