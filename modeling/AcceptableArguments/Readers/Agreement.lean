import AcceptableArguments.AttackRecords
import AcceptableArguments.Readers.AnyText
import Mathlib.Data.List.Forall2

/-!
# The two formats describe the same frameworks

An i23 file and a tgf file that render the same attacks over `1 .. n` are read into the
same framework, with comments and empty lines anywhere in the i23 file.
-/

namespace AcceptableArguments.Readers

open Imperative

/-! ## The renderings -/

/-- The lines of an i23 file that are neither empty nor comments. -/
inductive Item where
  | header (n : Nat)
  | attack (source target : Nat)
  deriving DecidableEq, Repr

def Item.render : Item → List Char
  | .header n => ['p', ' ', 'a', 'f', ' '] ++ decimal n
  | .attack source target => decimal source ++ ' ' :: decimal target

/-- The lines of the items in order, with comments and empty lines anywhere. -/
inductive Interspersed : List Item → List (List Char) → Prop
  | nil : Interspersed [] []
  | item {item : Item} {items : List Item} {lines : List (List Char)}
      (h : Interspersed items lines) : Interspersed (item :: items) (item.render :: lines)
  | comment {text : List Char} {items : List Item} {lines : List (List Char)}
      (htext : '\n' ∉ text) (h : Interspersed items lines) :
      Interspersed items (('#' :: text) :: lines)
  | blank {items : List Item} {lines : List (List Char)} (h : Interspersed items lines) :
      Interspersed items ([] :: lines)

/-- The calls that the line of an item causes. -/
def Item.apply (aaf : AF) : Item → Option AF
  | .header n => some ((arguments n).foldl AF.addArgument aaf).initializeAttackers
  | .attack source target => aaf.addAttack (argument source, argument target)

/-- The number of arguments leaves room for the increment of the loop counter. -/
def Item.Readable : Item → Prop
  | .header n => n < 2 ^ 31 - 1
  | .attack _ _ => True

def i23Items (n : Nat) (atts : List (Nat × Nat)) : List Item :=
  .header n :: atts.map fun p => .attack p.1 p.2

/-- The names, a separator and the attacks, each on a line. -/
def tgfLines (n : Nat) (atts : List (Nat × Nat)) : List (List Char) :=
  (List.range' 1 n).map decimal ++ ['#'] ::
    atts.map fun p => decimal p.1 ++ ' ' :: decimal p.2

/-! ## One line -/

theorem spaced_decimal (i : Nat) : InStream.Spaced isSpace (decimal i) [decimal i] :=
  .singleton Nat.toDigits_ne_nil isSpace_of_mem_decimal

theorem spaced_attack (source target : Nat) :
    InStream.Spaced isSpace (decimal source ++ ' ' :: decimal target)
      [decimal source, decimal target] :=
  (spaced_decimal source).append (by decide) (spaced_decimal target)

/-- A numeral in range is read back. -/
theorem number_decimal {n : Nat} (hn : n < 2 ^ 31) : number (decimal n) = n := by
  have hne : decimal n ≠ [] := Nat.toDigits_ne_nil
  have hdigit : ∀ c ∈ decimal n, c.isDigit = true := fun c hc => isDigit_of_mem_toDigits hc
  have hfront : (decimal n).dropWhile isSpace = decimal n := by
    obtain ⟨c, cs, hcs⟩ := List.exists_cons_of_ne_nil hne
    rw [hcs, List.dropWhile_cons_of_neg]
    simp [isSpace_of_mem_decimal (i := n) c (by simp [hcs])]
  have htake : (decimal n).takeWhile Char.isDigit = decimal n :=
    List.takeWhile_eq_self_iff.mpr hdigit
  have hval : (Nat.ofDigitChars 10 (decimal n) 0 : Int) = n :=
    congrArg _ Nat.ofDigitChars_ten_toDigits
  have hsign : splitSign (decimal n) = (false, decimal n) := splitSign_digits
  simp only [number, extractInt, InStream.ofText, InStream.good, Bool.not_false, Bool.and_self,
    if_true, hfront, if_neg hne, hsign, htake, hval, Bool.false_eq_true, if_false]
  rw [if_neg (by omega), if_neg (by omega)]

theorem words_header (n : Nat) :
    InStream.words isSpace (Item.header n).render = [['p'], ['a', 'f'], decimal n] := by
  have hp : InStream.Spaced isSpace ['p'] [['p']] := .singleton (by simp) (by simp [isSpace])
  have haf : InStream.Spaced isSpace ['a', 'f'] [['a', 'f']] :=
    .singleton (by simp) (by simp [isSpace])
  have hspace : isSpace ' ' = true := by decide
  exact (hp.append hspace (haf.append hspace (spaced_decimal n))).words_eq

theorem isData_attack (source target : Nat) : IsData (Item.attack source target).render := by
  -- The line starts with a digit.
  obtain ⟨c, cs, hc⟩ := List.exists_cons_of_ne_nil (Nat.toDigits_ne_nil (n := source) (b := 10))
  have hdigit : c.isDigit = true := isDigit_of_mem_toDigits (n := source) (by simp [hc])
  have hcons : (Item.attack source target).render = c :: (cs ++ ' ' :: decimal target) := by
    rw [Item.render, decimal, hc, List.cons_append]
  have hhash := ne_of_isDigit hdigit (d := '#') (by decide)
  have hp := ne_of_isDigit hdigit (d := 'p') (by decide)
  simp [IsData, hcons, hhash, hp]

/-- The line of an item causes its calls. -/
theorem lineStep_render (b : Locals) {item : Item} (hitem : item.Readable) {aaf : AF}
    (haaf : item.apply b.aaf = some aaf) :
    ∃ b', lineStep b item.render = .ok b' ∧ b'.aaf = aaf := by
  cases item with
  | header n =>
      have hheader : IsHeader (Item.header n).render := rfl
      have hn : n < 2 ^ 31 - 1 := hitem
      have hcount : headerCount b.nArgs (Item.header n).render = n := by
        rw [headerCount, words_header]
        exact number_decimal (by omega)
      cases haaf
      simp only [lineStep, if_neg hheader.not_isData, if_pos hheader, hcount]
      rw [if_neg (by omega)]
      exact ⟨_, rfl, rfl⟩
  | attack source target =>
      have hwords := (spaced_attack source target).words_eq
      have hadd : b.aaf.addAttack (String.ofList (decimal source), String.ofList (decimal target)) =
          some aaf := haaf
      rw [lineStep, if_pos (isData_attack source target)]
      simp only [Item.render, hwords, List.getElem?_cons_zero, List.getElem?_cons_succ,
        Option.getD_some, hadd]
      exact ⟨_, rfl, rfl⟩

/-! ## The i23 reader -/

theorem newline_not_mem_render (item : Item) : '\n' ∉ item.render := by
  have hdecimal : ∀ i, '\n' ∉ decimal i := fun i => not_mem_decimal (by decide)
  cases item with
  | header n => simp [Item.render, hdecimal]
  | attack source target => simp [Item.render, hdecimal]

/-- No line of the file contains a newline. -/
theorem Interspersed.newline_not_mem {items : List Item} {lines : List (List Char)}
    (h : Interspersed items lines) : ∀ line ∈ lines, '\n' ∉ line := by
  induction h with
  | nil => simp
  | item h ih => exact List.forall_mem_cons.mpr ⟨newline_not_mem_render _, ih⟩
  | comment htext h ih => exact List.forall_mem_cons.mpr ⟨by simpa using htext, ih⟩
  | blank h ih => exact List.forall_mem_cons.mpr ⟨by simp, ih⟩

/-- An empty line at the end changes nothing. -/
theorem Interspersed.append_blank {items : List Item} {lines : List (List Char)}
    (h : Interspersed items lines) : Interspersed items (lines ++ [[]]) := by
  induction h with
  | nil => exact .blank .nil
  | item h ih => exact .item ih
  | comment htext h ih => exact .comment htext ih
  | blank h ih => exact .blank ih

/-- The lines cause the calls of the items among them. -/
theorem Interspersed.foldlM_lineStep {items : List Item} {ls : List (List Char)}
    (h : Interspersed items ls) (hitems : ∀ item ∈ items, item.Readable) {b : Locals} {aaf : AF}
    (haaf : items.foldlM Item.apply b.aaf = some aaf) :
    ∃ b', ls.foldlM lineStep b = .ok b' ∧ b'.aaf = aaf := by
  have hskip : ∀ (b : Locals) {line : List Char}, ¬ IsData line → ¬ IsHeader line →
      lineStep b line = .ok { b with line := line } := by
    intro b line hdata hheader
    rw [lineStep, if_neg hdata, if_neg hheader]
  induction h generalizing b with
  | nil =>
      cases haaf
      exact ⟨b, rfl, rfl⟩
  | @item item items ls h ih =>
      rw [List.foldlM_cons] at haaf
      obtain ⟨next, hnext, haaf⟩ := Option.bind_eq_some_iff.mp haaf
      obtain ⟨b', hb', rfl⟩ := lineStep_render b (hitems item (by simp)) hnext
      rw [List.foldlM_cons, hb']
      exact ih (fun i hi => hitems i (by simp [hi])) haaf
  | @comment text items ls htext h ih =>
      rw [List.foldlM_cons, hskip b (by simp [IsData]) (by simp [IsHeader])]
      exact ih hitems haaf
  | blank h ih =>
      rw [List.foldlM_cons, hskip b (by simp [IsData]) (by simp [IsHeader])]
      exact ih hitems haaf

theorem readInput_i23 (argv0 : String) {items : List Item} {ls : List (List Char)}
    (h : Interspersed items ls) (hne : items ≠ []) (hitems : ∀ item ∈ items, item.Readable)
    {aaf : AF} (haaf : items.foldlM Item.apply AF.empty = some aaf) (final : Bool) {fuel : Nat}
    (hfuel : (InStream.unlines ls final).length + 1 < fuel) :
    ∃ s, readInput argv0 "i23" fuel (InStream.ofText (InStream.unlines ls final)) =
      (.ok aaf, s) := by
  have hls : ls ≠ [] := by
    intro heq
    subst heq
    cases h
    exact hne rfl
  obtain ⟨ls', hinter, hne', htext⟩ : ∃ ls', Interspersed items ls' ∧ ls' ≠ [] ∧
      InStream.unlines ls final = List.intercalate ['\n'] ls' := by
    cases final with
    | false => exact ⟨ls, h, hls, by simp [InStream.unlines]⟩
    | true => exact ⟨ls ++ [[]], h.append_blank, by simp, InStream.unlines_true hls⟩
  have hlines : lines (InStream.unlines ls final) = ls' := by
    rw [htext]
    exact List.splitOn_intercalate '\n' hinter.newline_not_mem hne'
  have hlen := InStream.length_le_intercalate ls'
  obtain ⟨b, hb, rfl⟩ := hinter.foldlM_lineStep hitems (b := Locals.init) haaf
  rcases readInput_i23_outcome argv0 (InStream.unlines ls final) fuel with hrun | hrun
  · rw [htext] at hfuel
    rw [hlines] at hrun
    omega
  · rw [hlines, hb] at hrun
    exact ⟨_, Prod.ext hrun rfl⟩

/-! ## The tgf reader -/

/-- The words of the attacks. -/
def attackWords (atts : List (Nat × Nat)) : List (List Char) :=
  (atts.map fun p => [decimal p.1, decimal p.2]).flatten

theorem tgfAttacks_attackWords (atts : List (Nat × Nat)) :
    tgfAttacks (attackWords atts) = atts.map fun p => (argument p.1, argument p.2) := by
  induction atts with
  | nil => rfl
  | cons p atts ih =>
      calc tgfAttacks (attackWords (p :: atts))
          = (argument p.1, argument p.2) :: tgfAttacks (attackWords atts) := rfl
        _ = (p :: atts).map fun p => (argument p.1, argument p.2) := by
            rw [ih, List.map_cons]

/-- The words of the tgf rendering. -/
theorem spaced_tgfLines (n : Nat) (atts : List (Nat × Nat)) (final : Bool) :
    InStream.Spaced isSpace (InStream.unlines (tgfLines n atts) final)
      ((List.range' 1 n).map decimal ++ ['#'] :: attackWords atts) := by
  have hnames : List.Forall₂ (InStream.Spaced isSpace) ((List.range' 1 n).map decimal)
      ((List.range' 1 n).map fun i => [decimal i]) := by
    rw [List.forall₂_map_left_iff, List.forall₂_map_right_iff, List.forall₂_same]
    exact fun i _ => spaced_decimal i
  have hatts : List.Forall₂ (InStream.Spaced isSpace)
      (atts.map fun p => decimal p.1 ++ ' ' :: decimal p.2)
      (atts.map fun p => [decimal p.1, decimal p.2]) := by
    rw [List.forall₂_map_left_iff, List.forall₂_map_right_iff, List.forall₂_same]
    exact fun p _ => spaced_attack p.1 p.2
  have hhash : InStream.Spaced isSpace ['#'] [['#']] := .singleton (by simp) (by simp [isSpace])
  have hspaced := InStream.spaced_unlines (by decide) (List.rel_append hnames (.cons hhash hatts))
    final
  have hflat : ((List.range' 1 n).map fun i => [decimal i]).flatten =
      (List.range' 1 n).map decimal := by
    rw [← List.flatMap_def, ← List.map_eq_flatMap]
  rwa [List.flatten_append, hflat] at hspaced

/-- The tgf reader performs the calls of the words of its text, however they are spaced. -/
theorem tgfFramework_eq_read (is : List Nat) (atts : List (Nat × Nat)) :
    tgfFramework (is.map decimal ++ ['#'] :: attackWords atts) =
      AF.read (is.map argument) (atts.map fun p => (argument p.1, argument p.2)) := by
  have hname : ∀ w ∈ is.map decimal, decide (w ≠ ['#']) = true := by
    intro w hw
    obtain ⟨i, -, rfl⟩ := List.mem_map.mp hw
    refine decide_eq_true fun h => ?_
    exact not_mem_decimal (i := i) (c := '#') (by decide) (by simp [h])
  have hnames : tgfNames (is.map decimal ++ ['#'] :: attackWords atts) = is.map argument := by
    rw [tgfNames, List.takeWhile_append_of_pos hname, List.takeWhile_cons_of_neg (by simp),
      List.append_nil, List.map_map]
    rfl
  have hrest : tgfRest (is.map decimal ++ ['#'] :: attackWords atts) = attackWords atts := by
    rw [tgfRest, List.dropWhile_append_of_pos hname, List.dropWhile_cons_of_neg (by simp),
      List.drop_one, List.tail_cons]
  rw [tgfFramework, if_pos (by simp), hnames, hrest, tgfAttacks_attackWords]

theorem readInput_tgf (argv0 : String) {is : List Nat} {atts : List (Nat × Nat)}
    {text : List Char}
    (h : InStream.Spaced isSpace text (is.map decimal ++ ['#'] :: attackWords atts)) {aaf : AF}
    (haaf : AF.read (is.map argument) (atts.map fun p => (argument p.1, argument p.2)) = some aaf)
    {fuel : Nat} (hfuel : text.length < fuel) :
    ∃ s, readInput argv0 "tgf" fuel (InStream.ofText text) = (.ok aaf, s) := by
  have hlen := h.length_le
  rw [← h.words_eq] at hlen
  obtain ⟨aaf', s, hrun, haaf'⟩ := readInput_tgf_returns argv0 (hlen.trans_lt hfuel)
  rw [h.words_eq, tgfFramework_eq_read, haaf] at haaf'
  cases haaf'
  exact ⟨s, hrun⟩

/-! ## Agreement -/

theorem indexOf_arguments {n i : Nat} (hi : 1 ≤ i ∧ i ≤ n) :
    AF.indexOf (arguments n) (argument i) = some (i - 1) := by
  induction n with
  | zero => omega
  | succ n ih =>
      have hnames : arguments (n + 1) = arguments n ++ [argument (1 + n)] := by
        simp [arguments, List.range'_1_concat]
      have hlen : (arguments n).length = n := by simp [arguments]
      rw [hnames, AF.indexOf_append, hlen]
      by_cases hlast : i = 1 + n
      · rw [if_pos (by rw [hlast])]
        congr 1
        omega
      · rw [if_neg (fun h => hlast (argument_injective h))]
        exact ih (by omega)

/-- Attacks over `1 .. n` denote the pairs of the indices below. -/
theorem filterMap_denoted {n : Nat} {atts : List (Nat × Nat)}
    (hatts : ∀ p ∈ atts, (1 ≤ p.1 ∧ p.1 ≤ n) ∧ 1 ≤ p.2 ∧ p.2 ≤ n) :
    (atts.map fun p => (argument p.1, argument p.2)).filterMap (AF.denoted (arguments n)) =
      atts.map fun p => (p.1 - 1, p.2 - 1) := by
  rw [List.filterMap_map, ← List.filterMap_eq_map]
  apply List.filterMap_congr
  intro p hp
  obtain ⟨hsource, htarget⟩ := hatts p hp
  simp [AF.denoted, indexOf_arguments hsource, indexOf_arguments htarget]

/-- The items cause the calls `add_argument* ; initialize_attackers ; add_attack*`. -/
theorem foldlM_i23Items (n : Nat) (atts : List (Nat × Nat)) :
    (i23Items n atts).foldlM Item.apply AF.empty =
      AF.read (arguments n) (atts.map fun p => (argument p.1, argument p.2)) := by
  have hatts : ∀ aaf, (atts.map fun p => Item.attack p.1 p.2).foldlM Item.apply aaf =
      (atts.map fun p => (argument p.1, argument p.2)).foldlM AF.addAttack aaf := by
    intro aaf
    rw [List.foldlM_map, List.foldlM_map]
    rfl
  unfold i23Items AF.read
  rw [List.foldlM_cons]
  exact hatts _

theorem count_pred {n : Nat} {atts : List (Nat × Nat)}
    (hatts : ∀ p ∈ atts, (1 ≤ p.1 ∧ p.1 ≤ n) ∧ 1 ≤ p.2 ∧ p.2 ≤ n) (i j : Nat) :
    (atts.map fun p => (p.1 - 1, p.2 - 1)).count (i, j) = atts.count (i + 1, j + 1) := by
  rw [List.count_eq_countP, List.countP_map, List.count_eq_countP]
  apply List.countP_congr
  intro p hp
  have := hatts p hp
  simp only [Function.comp_apply, beq_iff_eq, Prod.ext_iff]
  omega

/-- An argument is unattacked when no attack has it as its target. -/
theorem unattacked_eq {n : Nat} {atts : List (Nat × Nat)}
    (hatts : ∀ p ∈ atts, (1 ≤ p.1 ∧ p.1 ≤ n) ∧ 1 ≤ p.2 ∧ p.2 ≤ n) {aaf : AF}
    (hshape : AF.Shape aaf) (hargs : aaf.args = n)
    (hcount : ∀ i j, (row aaf.attackers j).count i = atts.count (i + 1, j + 1)) :
    aaf.unattacked = (List.range' 1 n).map fun j => decide (∀ p ∈ atts, p.2 ≠ j) := by
  have hrow : ∀ j, (row aaf.attackers j).isEmpty = decide (∀ p ∈ atts, p.2 ≠ j + 1) := by
    intro j
    rw [Bool.eq_iff_iff, decide_eq_true_iff, List.isEmpty_iff, List.eq_nil_iff_forall_not_mem]
    constructor
    · intro h p hp heq
      obtain ⟨hsource, -⟩ := hatts p hp
      apply h (p.1 - 1)
      rw [← List.count_pos_iff, hcount, List.count_pos_iff, ← heq, Nat.sub_add_cancel hsource.1]
      exact hp
    · intro h i hi
      rw [← List.count_pos_iff, hcount, List.count_pos_iff] at hi
      exact h _ hi rfl
  apply List.ext_getElem?
  intro j
  by_cases hj : j < n
  · have hjl : j < aaf.attackers.length := by rw [hshape.attackers_length, hargs]; exact hj
    rw [hshape.unattacked_eq, List.getElem?_map, getElem?_eq_row hjl, List.getElem?_map,
      List.getElem?_range' hj]
    simp [hrow, Nat.add_comm]
  · rw [List.getElem?_eq_none (by rw [hshape.unattacked_length, hargs]; omega),
      List.getElem?_eq_none (by simpa using hj)]

/-- The i23 reader and the tgf reader build the same framework from the two renderings of
the same attacks over `1 .. n`. -/
theorem readers_agree (argv0 : String) {n : Nat} (hn : n < 2 ^ 31 - 1)
    {atts : List (Nat × Nat)} (hatts : ∀ p ∈ atts, (1 ≤ p.1 ∧ p.1 ≤ n) ∧ 1 ≤ p.2 ∧ p.2 ≤ n)
    {lines : List (List Char)} (hlines : Interspersed (i23Items n atts) lines)
    (final final' : Bool) :
    ∃ aaf : AF,
      (∀ fuel > (InStream.unlines lines final).length + 1, ∃ s,
        readInput argv0 "i23" fuel (InStream.ofText (InStream.unlines lines final)) =
          (.ok aaf, s)) ∧
      (∀ fuel > (InStream.unlines (tgfLines n atts) final').length, ∃ s,
        readInput argv0 "tgf" fuel
          (InStream.ofText (InStream.unlines (tgfLines n atts) final')) = (.ok aaf, s)) ∧
      aaf.args = n ∧ aaf.intToArg = (List.range' 1 n).map argument ∧
      aaf.attacks = atts.length ∧ aaf.attackers.length = n ∧
      (∀ i j, (row aaf.attackers j).count i = atts.count (i + 1, j + 1)) ∧
      aaf.unattacked = (List.range' 1 n).map fun j => decide (∀ p ∈ atts, p.2 ≠ j) := by
  obtain ⟨aaf, haaf, hrec, hsame⟩ := AF.read_records (arguments n)
    (atts.map fun p => (argument p.1, argument p.2))
  have hnamed := AF.named_foldl_addArgument (arguments n)
  have hargs : aaf.args = n := by
    calc
      aaf.args = ((arguments n).foldl AF.addArgument AF.empty).args := hsame.args_eq
      _ = (arguments n).length := hnamed.args_eq
      _ = n := by simp [arguments]
  rw [filterMap_denoted hatts] at hrec
  have hcount : ∀ i j, (row aaf.attackers j).count i = atts.count (i + 1, j + 1) := by
    intro i j
    calc
      (row aaf.attackers j).count i = (atts.map fun p => (p.1 - 1, p.2 - 1)).count (i, j) :=
        hrec.count_attackers j i
      _ = atts.count (i + 1, j + 1) := count_pred hatts i j
  refine ⟨aaf, ?_, ?_, hargs, hsame.intToArg_eq.trans hnamed.intToArg_eq,
    by rw [hrec.attacks_length, List.length_map], hrec.attackers_length.trans hargs, hcount,
    unattacked_eq hatts hrec.toShape hargs hcount⟩
  · intro fuel hfuel
    have hitems : ∀ item ∈ i23Items n atts, item.Readable := by
      intro item hitem
      rcases List.mem_cons.mp hitem with rfl | hitem
      · exact hn
      · obtain ⟨p, -, rfl⟩ := List.mem_map.mp hitem
        trivial
    exact readInput_i23 argv0 hlines (by simp [i23Items]) hitems
      ((foldlM_i23Items n atts).trans haaf) final hfuel
  · intro fuel hfuel
    exact readInput_tgf argv0 (spaced_tgfLines n atts final') haaf hfuel

theorem readers_agree_repeated :
    ∃ lines, lines = ["# two arguments".toList, "p af 2".toList, [], "1 2".toList,
        "2 2".toList, "#".toList, "1 2".toList] ∧
      ∃ aaf : AF,
        (∀ fuel > (InStream.unlines lines true).length + 1, ∃ s,
          readInput "solver" "i23" fuel (InStream.ofText (InStream.unlines lines true)) =
            (.ok aaf, s)) ∧
        (∀ fuel > (InStream.unlines (tgfLines 2 [(1, 2), (2, 2), (1, 2)]) false).length, ∃ s,
          readInput "solver" "tgf" fuel (InStream.ofText
            (InStream.unlines (tgfLines 2 [(1, 2), (2, 2), (1, 2)]) false)) = (.ok aaf, s)) ∧
        aaf.args = 2 ∧ aaf.intToArg = (List.range' 1 2).map argument ∧ aaf.attacks = 3 ∧
        aaf.attackers.length = 2 ∧
        (∀ i j, (row aaf.attackers j).count i =
          [(1, 2), (2, 2), (1, 2)].count (i + 1, j + 1)) ∧
        aaf.unattacked = (List.range' 1 2).map fun j =>
          decide (∀ p ∈ [((1, 2) : Nat × Nat), (2, 2), (1, 2)], p.2 ≠ j) := by
  have hlines : Interspersed (i23Items 2 [(1, 2), (2, 2), (1, 2)])
      ["# two arguments".toList, "p af 2".toList, [], "1 2".toList, "2 2".toList, "#".toList,
        "1 2".toList] :=
    .comment (by decide) (.item (.blank (.item (.item (.comment (by decide) (.item .nil))))))
  exact ⟨_, rfl, readers_agree "solver" (by decide) (by decide) hlines true false⟩

end AcceptableArguments.Readers
