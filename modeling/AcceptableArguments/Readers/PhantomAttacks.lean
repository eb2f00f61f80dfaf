import AcceptableArguments.Readers.AnyText
import Mathlib.Data.List.Induction

/-!
# The attacks of an i23 text

The reader does not check whether its two extractions succeeded. A line with fewer than
two words therefore calls `add_attack` with the words that earlier lines left behind, and
an attack appears that no line states. The theorem says for which texts this happens.
-/

namespace AcceptableArguments.Readers

open Imperative

/-! ## What a text should do -/

/-- One line of the list states the attack. -/
def JustifiedBy (ls : List (List Char)) (aaf : AF) (source target : Nat) : Prop :=
  ∃ line ∈ ls, IsData line ∧ ∃ w w' rest, InStream.words isSpace line = w :: w' :: rest ∧
    aaf.intToArg[source]? = some (String.ofList w) ∧
    aaf.intToArg[target]? = some (String.ofList w')

/-- Each attack of the framework that was read is stated by a line of the text, and a line
with fewer than two words adds no attack to those of the lines above it. -/
def AttacksJustified (text : List Char) : Prop :=
  ∀ aaf, Reads "i23" text aaf →
    (∀ source target, source ∈ row aaf.attackers target →
      JustifiedBy (lines text) aaf source target) ∧
    ∀ pre line post, lines text = pre ++ line :: post →
      (InStream.words isSpace line).length < 2 →
      ∀ above below, Reads "i23" (InStream.unlines pre false) above →
        Reads "i23" (InStream.unlines (pre ++ [line]) false) below →
        ∀ i, row below.attackers i = row above.attackers i

/-! ## When it does not -/

/-- The word with index `k` of the last data line that has so many words. -/
def lastWord (k : Nat) (ls : List (List Char)) : Option (List Char) :=
  ((ls.filter (IsData ·)).filterMap fun line => (InStream.words isSpace line)[k]?).getLast?

/-- A header of the list declares the name. -/
def Declared (ls : List (List Char)) (w : List Char) : Prop :=
  ∃ line ∈ ls, IsHeader line ∧ ∃ t, (InStream.words isSpace line)[2]? = some t ∧
    ∃ i : Nat, 1 ≤ i ∧ (i : Int) ≤ number t ∧ w = decimal i

/-- A header asks for so many arguments that the loop counter overflows. -/
def Overflows (ls : List (List Char)) : Prop :=
  ∃ line ∈ ls, IsHeader line ∧ ∃ t, (InStream.words isSpace line)[2]? = some t ∧
    number t = 2 ^ 31 - 1

/-- Behind the lines `pre` the line leaves declared names in `source` and in `target`. -/
def NamesAttack (pre : List (List Char)) (line : List Char) : Prop :=
  IsData line ∧ (∃ w ∈ lastWord 0 (pre ++ [line]), Declared pre w) ∧
    ∃ w ∈ lastWord 1 (pre ++ [line]), Declared pre w

/-- The line does so although it has fewer than two words of its own. -/
def Phantom (pre : List (List Char)) (line : List Char) : Prop :=
  NamesAttack pre line ∧ (InStream.words isSpace line).length < 2

theorem lastWord_append_data {line : List Char} (h : IsData line) (k : Nat)
    (ls : List (List Char)) :
    lastWord k (ls ++ [line]) = ((InStream.words isSpace line)[k]?).or (lastWord k ls) := by
  have hfilter : [line].filter (IsData ·) = [line] := by simp [h]
  rw [lastWord, lastWord, List.filter_append, hfilter, List.filterMap_append]
  cases hk : (InStream.words isSpace line)[k]? with
  | none => simp [hk]
  | some w => simp [hk]

theorem lastWord_append_other {line : List Char} (h : ¬ IsData line) (k : Nat)
    (ls : List (List Char)) : lastWord k (ls ++ [line]) = lastWord k ls := by
  have hfilter : [line].filter (IsData ·) = [] := by simp [h]
  rw [lastWord, lastWord, List.filter_append, hfilter, List.append_nil]

theorem declared_append {line : List Char} {ls : List (List Char)} {w : List Char} :
    Declared (ls ++ [line]) w ↔ Declared ls w ∨ Declared [line] w := by
  simp only [Declared, List.mem_append, or_and_right, exists_or]

theorem declared_other {line : List Char} (h : ¬ IsHeader line) {ls : List (List Char)}
    {w : List Char} : Declared (ls ++ [line]) w ↔ Declared ls w := by
  have hnot : ¬ Declared [line] w := by
    intro hx
    obtain ⟨l, hl, hheader, -⟩ := hx
    rw [List.mem_singleton.mp hl] at hheader
    exact h hheader
  rw [declared_append, or_iff_left hnot]

/-- The empty word is no name. -/
theorem declared_getD {ls : List (List Char)} {o : Option (List Char)} :
    Declared ls (o.getD []) ↔ ∃ w ∈ o, Declared ls w := by
  cases o with
  | some w => simp
  | none =>
      have hnil : ¬ Declared ls [] := by
        intro hx
        obtain ⟨-, -, -, -, -, i, -, -, hi⟩ := hx
        exact Nat.toDigits_ne_nil hi.symm
      simpa using hnil

/-! ## The variables behind the lines -/

/-- The variables of `main` when the lines have been read. -/
structure ReadState (ls : List (List Char)) (b : Locals) : Prop where
  shape : AF.Shape b.aaf
  known : AF.Known b.aaf
  count_eq : b.aaf.count = 0
  source_eq : b.source = (lastWord 0 ls).getD []
  target_eq : b.target = (lastWord 1 ls).getD []
  declared_iff : ∀ w, (b.aaf.argToInt (String.ofList w)).isSome ↔ Declared ls w
  -- A header without a third word declares these names again.
  nArgs_declared : ∀ s ∈ arguments b.nArgs.toNat, (b.aaf.argToInt s).isSome
  nArgs_ne : b.nArgs ≠ 2 ^ 31 - 1

theorem readState_init : ReadState [] Locals.init where
  shape := (AF.named_foldl_addArgument []).unsized.initializeAttackers
  known := by simp [AF.Known, Locals.init, AF.empty]
  count_eq := rfl
  source_eq := rfl
  target_eq := rfl
  declared_iff := by simp [Declared, Locals.init, AF.empty]
  nArgs_declared := by simp [Locals.init, arguments]
  nArgs_ne := by decide

theorem mem_arguments {n : Int} {w : List Char} :
    String.ofList w ∈ arguments n.toNat ↔ ∃ i : Nat, 1 ≤ i ∧ (i : Int) ≤ n ∧ w = decimal i := by
  simp only [arguments, List.mem_map, List.mem_range'_1, argument]
  constructor
  · intro hx
    obtain ⟨i, hi, hw⟩ := hx
    exact ⟨i, hi.1, by omega, (String.ofList_injective hw).symm⟩
  · intro hx
    obtain ⟨i, hpos, hle, rfl⟩ := hx
    exact ⟨i, ⟨hpos, by omega⟩, rfl⟩

section Step

variable {ls : List (List Char)} {b : Locals} (h : ReadState ls b) {line : List Char}

include h

theorem lineStep_skip (hdata : ¬ IsData line) (hheader : ¬ IsHeader line) :
    ∃ b', lineStep b line = .ok b' ∧ ReadState (ls ++ [line]) b' ∧ b'.aaf = b.aaf := by
  refine ⟨{ b with line := line }, by rw [lineStep, if_neg hdata, if_neg hheader], ?_, rfl⟩
  constructor <;> try simp only [lastWord_append_other hdata, declared_other hheader]
  · exact h.shape
  · exact h.known
  · exact h.count_eq
  · exact h.source_eq
  · exact h.target_eq
  · exact h.declared_iff
  · exact h.nArgs_declared
  · exact h.nArgs_ne

/-- The names that a header adds; without a third word there are no new ones. -/
theorem header_declares (hheader : IsHeader line) {w : List Char} :
    Declared ls w ∨ String.ofList w ∈ arguments (headerCount b.nArgs line).toNat ↔
      Declared ls w ∨ Declared [line] w := by
  cases ht : (InStream.words isSpace line)[2]? with
  | some t =>
      have hline : Declared [line] w ↔ ∃ i : Nat, 1 ≤ i ∧ (i : Int) ≤ number t ∧ w = decimal i := by
        simp [Declared, hheader, ht]
      have hcount : headerCount b.nArgs line = number t := by simp [headerCount, ht]
      rw [hline, hcount, mem_arguments]
  | none =>
      have hline : ¬ Declared [line] w := by simp [Declared, ht]
      have hcount : headerCount b.nArgs line = b.nArgs := by simp [headerCount, ht]
      rw [or_iff_left hline, hcount]
      constructor
      · intro hx
        rcases hx with hx | hx
        · exact hx
        · exact (h.declared_iff w).mp (h.nArgs_declared _ hx)
      · exact Or.inl

/-- A header adds arguments and no attacks. -/
theorem lineStep_header (hheader : IsHeader line) (hcount : headerCount b.nArgs line ≠ 2 ^ 31 - 1) :
    ∃ b', lineStep b line = .ok b' ∧ ReadState (ls ++ [line]) b' ∧
      b.aaf.intToArg <+: b'.aaf.intToArg ∧
      ∀ i, row b'.aaf.attackers i = row b.aaf.attackers i := by
  set n := headerCount b.nArgs line with hn
  set aaf := (arguments n.toNat).foldl AF.addArgument b.aaf with haaf
  have hunsized : AF.Unsized aaf := h.shape.unsized.foldl_addArgument _
  have hsome : ∀ s, (aaf.argToInt s).isSome ↔ s ∈ arguments n.toNat ∨ (b.aaf.argToInt s).isSome :=
    AF.isSome_argToInt_foldl _ _
  refine ⟨{ b with line := line, nArgs := n, aaf := aaf.initializeAttackers }, ?_, ?_, ?_, ?_⟩
  · rw [lineStep, if_neg hheader.not_isData, if_pos hheader]
    simp only [← hn, if_neg hcount, haaf]
  · constructor <;> try simp only [lastWord_append_other hheader.not_isData]
    · exact hunsized.initializeAttackers
    · exact h.known.foldl_addArgument h.shape.intToArg_length _
    · exact (AF.foldl_addArgument_frame _ _).2.trans h.count_eq
    · exact h.source_eq
    · exact h.target_eq
    · intro w
      calc (aaf.argToInt (String.ofList w)).isSome
          ↔ String.ofList w ∈ arguments n.toNat ∨ (b.aaf.argToInt (String.ofList w)).isSome :=
            hsome _
        _ ↔ Declared ls w ∨ Declared [line] w := by
            rw [h.declared_iff, or_comm]
            exact header_declares h hheader
        _ ↔ Declared (ls ++ [line]) w := declared_append.symm
    · intro s hs
      exact (hsome s).mpr (Or.inl hs)
    · exact hcount
  · rw [haaf]
    simp only [AF.initializeAttackers, AF.foldl_addArgument_intToArg]
    exact List.prefix_append _ _
  · intro i
    have hlen : aaf.attackers.length ≤ aaf.args := hunsized.attackers_length
    simp only [AF.initializeAttackers, resize_of_le hlen, row_append_replicate]
    rw [haaf, (AF.foldl_addArgument_frame _ _).1]

/-- The names that a data line hands to `add_attack`. -/
theorem lineStep_data (hdata : IsData line) :
    ∃ b', lineStep b line = .ok b' ∧ ReadState (ls ++ [line]) b' ∧
      b.aaf.addAttack (String.ofList ((lastWord 0 (ls ++ [line])).getD []),
        String.ofList ((lastWord 1 (ls ++ [line])).getD [])) = some b'.aaf ∧
      AF.SameNames b.aaf b'.aaf := by
  have hword : ∀ k old, old = (lastWord k ls).getD [] →
      ((InStream.words isSpace line)[k]?).getD old = (lastWord k (ls ++ [line])).getD [] := by
    intro k old hold
    rw [lastWord_append_data hdata, hold]
    cases (InStream.words isSpace line)[k]? <;> rfl
  have hheader : ¬ IsHeader line := fun hheader => hheader.not_isData hdata
  obtain ⟨aaf, hadd, hshape, hsame⟩ := AF.addAttack_spec h.shape
    (String.ofList ((lastWord 0 (ls ++ [line])).getD []),
      String.ofList ((lastWord 1 (ls ++ [line])).getD []))
  refine ⟨{ b with
    line := line
    source := (lastWord 0 (ls ++ [line])).getD []
    target := (lastWord 1 (ls ++ [line])).getD []
    aaf := aaf }, ?_, ?_, hadd, hsame⟩
  · rw [lineStep, if_pos hdata]
    simp only [hword 0 b.source h.source_eq, hword 1 b.target h.target_eq, hadd]
  · constructor <;> try simp only [declared_other hheader, hsame.argToInt_eq]
    · exact hshape
    · intro s i hi
      rw [hsame.argToInt_eq] at hi
      rw [hsame.intToArg_eq]
      exact h.known s i hi
    · exact hsame.count_eq.trans h.count_eq
    · exact h.declared_iff
    · exact h.nArgs_declared
    · exact h.nArgs_ne

theorem headerCount_ne (hheader : IsHeader line) (hno : ¬ Overflows [line]) :
    headerCount b.nArgs line ≠ 2 ^ 31 - 1 := by
  unfold headerCount
  cases ht : (InStream.words isSpace line)[2]? with
  | some t =>
      intro heq
      exact hno ⟨line, by simp, hheader, t, ht, heq⟩
  | none => exact h.nArgs_ne

/-- The attack that a line adds, with the names of its indices. -/
structure AddsAttack (ls : List (List Char)) (line : List Char) (aaf aaf' : AF)
    (source target : Nat) : Prop where
  source_name : aaf.intToArg[source]? = some (String.ofList ((lastWord 0 (ls ++ [line])).getD []))
  target_name : aaf.intToArg[target]? = some (String.ofList ((lastWord 1 (ls ++ [line])).getD []))
  row_eq : ∀ i, row aaf'.attackers i =
    if i = target then row aaf.attackers i ++ [source] else row aaf.attackers i

/-- What one line does to the framework: it adds an attack exactly when it names one. -/
structure LineEffect (ls : List (List Char)) (line : List Char) (aaf aaf' : AF) : Prop where
  intToArg_prefix : aaf.intToArg <+: aaf'.intToArg
  attack : NamesAttack ls line → ∃ source target, AddsAttack ls line aaf aaf' source target
  no_attack : ¬ NamesAttack ls line → ∀ i, row aaf'.attackers i = row aaf.attackers i

theorem lineStep_spec (hno : ¬ Overflows [line]) :
    ∃ b', lineStep b line = .ok b' ∧ ReadState (ls ++ [line]) b' ∧
      LineEffect ls line b.aaf b'.aaf := by
  by_cases hdata : IsData line
  · obtain ⟨b', hstep, hstate, hadd, hsame⟩ := lineStep_data h hdata
    have hfront : b.aaf.intToArg <+: b'.aaf.intToArg :=
      hsame.intToArg_eq ▸ List.prefix_refl _
    have hnames : NamesAttack ls line ↔
        (b.aaf.argToInt (String.ofList ((lastWord 0 (ls ++ [line])).getD []))).isSome ∧
        (b.aaf.argToInt (String.ofList ((lastWord 1 (ls ++ [line])).getD []))).isSome := by
      rw [h.declared_iff, h.declared_iff, declared_getD, declared_getD, NamesAttack,
        and_iff_right hdata]
    refine ⟨b', hstep, hstate, hfront, ?_, ?_⟩
    · intro hboth
      obtain ⟨hs, ht⟩ := hnames.mp hboth
      obtain ⟨source, hs⟩ := Option.isSome_iff_exists.mp hs
      obtain ⟨target, ht⟩ := Option.isSome_iff_exists.mp ht
      rw [AF.addAttack_known h.shape hs ht, Option.some.injEq] at hadd
      have hlt : target < b.aaf.attackers.length := by
        rw [h.shape.attackers_length]
        exact h.shape.argToInt_lt _ _ ht
      refine ⟨source, target, h.known _ _ hs, h.known _ _ ht, ?_⟩
      intro i
      rw [← hadd]
      exact row_modify hlt (· ++ [source]) i
    · intro hnone i
      rw [hnames, not_and_or, Option.not_isSome_iff_eq_none, Option.not_isSome_iff_eq_none] at hnone
      rw [AF.addAttack_unknown hnone, Option.some.injEq] at hadd
      rw [hadd]
  · have hnot : ¬ NamesAttack ls line := fun hnames => hdata hnames.1
    by_cases hheader : IsHeader line
    · obtain ⟨b', hstep, hstate, hfront, hrow⟩ :=
        lineStep_header h hheader (headerCount_ne h hheader hno)
      exact ⟨b', hstep, hstate, hfront, fun hnames => absurd hnames hnot, fun _ => hrow⟩
    · obtain ⟨b', hstep, hstate, haaf⟩ := lineStep_skip h hdata hheader
      refine ⟨b', hstep, hstate, ?_, fun hnames => absurd hnames hnot, ?_⟩
      · exact haaf ▸ List.prefix_refl _
      · intro _ i
        rw [haaf]

end Step

/-! ## All lines -/

theorem overflows_append {ls ls' : List (List Char)} :
    Overflows (ls ++ ls') ↔ Overflows ls ∨ Overflows ls' := by
  simp only [Overflows, List.mem_append, or_and_right, exists_or]

theorem foldlM_lineStep_append (ls : List (List Char)) (line : List Char) :
    (ls ++ [line]).foldlM lineStep Locals.init =
      ls.foldlM lineStep Locals.init >>= fun b => lineStep b line := by
  rw [List.foldlM_append]
  simp

/-- Reading stops early only at a header that overflows. -/
theorem readState_lines {ls : List (List Char)} (hno : ¬ Overflows ls) :
    ∃ b, ls.foldlM lineStep Locals.init = .ok b ∧ ReadState ls b := by
  induction ls using List.reverseRecOn with
  | nil => exact ⟨Locals.init, rfl, readState_init⟩
  | append_singleton ls line ih =>
      rw [overflows_append, not_or] at hno
      obtain ⟨b, hb, hstate⟩ := ih hno.1
      obtain ⟨b', hstep, hstate', -⟩ := lineStep_spec hstate hno.2
      refine ⟨b', ?_, hstate'⟩
      rw [foldlM_lineStep_append, hb]
      exact hstep

/-- The last line of a text that is read, with its effect. -/
theorem lineEffect_last {ls : List (List Char)} {line : List Char}
    (hno : ¬ Overflows (ls ++ [line])) :
    ∃ b b', ls.foldlM lineStep Locals.init = .ok b ∧
      (ls ++ [line]).foldlM lineStep Locals.init = .ok b' ∧ LineEffect ls line b.aaf b'.aaf := by
  rw [overflows_append, not_or] at hno
  obtain ⟨b, hb, hstate⟩ := readState_lines hno.1
  obtain ⟨b', hstep, -, heffect⟩ := lineStep_spec hstate hno.2
  refine ⟨b, b', hb, ?_, heffect⟩
  rw [foldlM_lineStep_append, hb]
  exact hstep

theorem lineStep_overflow {line : List Char} (h : Overflows [line]) (b : Locals) :
    lineStep b line = .error .overflow := by
  obtain ⟨l, hl, hheader, t, ht, hover⟩ := h
  rw [List.mem_singleton.mp hl] at hheader ht
  have hcount : headerCount b.nArgs line = 2 ^ 31 - 1 := by simpa [headerCount, ht] using hover
  rw [lineStep, if_neg hheader.not_isData, if_pos hheader]
  exact if_pos hcount

theorem not_overflows_of_ok {ls : List (List Char)} {b : Locals}
    (hb : ls.foldlM lineStep Locals.init = .ok b) : ¬ Overflows ls := by
  induction ls using List.reverseRecOn generalizing b with
  | nil => simp [Overflows]
  | append_singleton ls line ih =>
      rw [foldlM_lineStep_append] at hb
      cases hls : ls.foldlM lineStep Locals.init with
      | error e =>
          rw [hls] at hb
          cases hb
      | ok b₀ =>
          rw [hls] at hb
          rw [overflows_append, not_or]
          refine ⟨ih hls, ?_⟩
          intro hover
          change lineStep b₀ line = .ok b at hb
          rw [lineStep_overflow hover] at hb
          cases hb

theorem JustifiedBy.mono {ls ls' : List (List Char)} {aaf aaf' : AF} {source target : Nat}
    (h : JustifiedBy ls aaf source target) (hls : ls ⊆ ls')
    (hfront : aaf.intToArg <+: aaf'.intToArg) : JustifiedBy ls' aaf' source target := by
  have hget : ∀ {i : Nat} {w : String}, aaf.intToArg[i]? = some w → aaf'.intToArg[i]? = some w := by
    intro i w hi
    obtain ⟨rest, hrest⟩ := hfront
    have hlt : i < aaf.intToArg.length := (List.getElem?_eq_some_iff.mp hi).1
    rw [← hrest, List.getElem?_append_left hlt]
    exact hi
  obtain ⟨l, hl, hdata, w, w', rest, hwords, hsource, htarget⟩ := h
  exact ⟨l, hls hl, hdata, w, w', rest, hwords, hget hsource, hget htarget⟩

/-- The attack of a line with two words is stated by this line. -/
theorem AddsAttack.justified {ls : List (List Char)} {line : List Char} {aaf aaf' : AF}
    {source target : Nat} (h : AddsAttack ls line aaf aaf' source target)
    (hdata : IsData line) (hlen : ¬ (InStream.words isSpace line).length < 2) :
    JustifiedBy [line] aaf source target := by
  obtain ⟨w, w', rest, hwords⟩ : ∃ w w' rest, InStream.words isSpace line = w :: w' :: rest := by
    rcases hws : InStream.words isSpace line with _ | ⟨w, _ | ⟨w', rest⟩⟩
    · simp [hws] at hlen
    · simp [hws] at hlen
    · exact ⟨w, w', rest, rfl⟩
  have hsource := h.source_name
  have htarget := h.target_name
  rw [lastWord_append_data hdata, hwords] at hsource htarget
  exact ⟨line, by simp, hdata, w, w', rest, hwords, hsource, htarget⟩

theorem attacks_justified_of_lines {ls : List (List Char)} {b : Locals}
    (hb : ls.foldlM lineStep Locals.init = .ok b)
    (hphantom : ∀ pre line post, ls = pre ++ line :: post → ¬ Phantom pre line)
    {source target : Nat} (hmem : source ∈ row b.aaf.attackers target) :
    JustifiedBy ls b.aaf source target := by
  induction ls using List.reverseRecOn generalizing b with
  | nil =>
      cases hb
      cases hmem
  | append_singleton ls line ih =>
      obtain ⟨b₀, b', hb₀, hb', heffect⟩ := lineEffect_last (not_overflows_of_ok hb)
      rw [hb] at hb'
      cases hb'
      have hold : source ∈ row b₀.aaf.attackers target →
          JustifiedBy (ls ++ [line]) b.aaf source target := by
        intro hmem₀
        refine (ih hb₀ ?_ hmem₀).mono (List.subset_append_left _ _) heffect.intToArg_prefix
        intro pre l post hls
        exact hphantom pre l (post ++ [line]) (by simp [hls])
      by_cases hnames : NamesAttack ls line
      · obtain ⟨s, t, hadds⟩ := heffect.attack hnames
        have hlen : ¬ (InStream.words isSpace line).length < 2 := fun hlen =>
          hphantom ls line [] rfl ⟨hnames, hlen⟩
        rw [hadds.row_eq] at hmem
        split at hmem
        · rename_i htarget
          rcases List.mem_append.mp hmem with hmem | hmem
          · exact hold hmem
          · rw [List.mem_singleton.mp hmem, htarget]
            exact (hadds.justified hnames.1 hlen).mono (List.subset_append_right _ _)
              heffect.intToArg_prefix
        · exact hold hmem
      · rw [heffect.no_attack hnames] at hmem
        exact hold hmem

/-! ## The texts without phantom attacks -/

/-- The text of the lines is read line by line, also when there are none. -/
theorem reads_unlines {ls : List (List Char)} (hnew : ∀ line ∈ ls, '\n' ∉ line) {aaf : AF} :
    Reads "i23" (InStream.unlines ls false) aaf ↔
      ∃ b, ls.foldlM lineStep Locals.init = .ok b ∧ b.aaf = aaf := by
  rw [reads_i23_iff]
  cases ls with
  | nil =>
      -- The text has one empty line, which is skipped.
      have hskip : (lines (InStream.unlines [] false)).foldlM lineStep Locals.init =
          ([] : List (List Char)).foldlM lineStep Locals.init := rfl
      rw [hskip]
  | cons line ls =>
      have hlines : lines (InStream.unlines (line :: ls) false) = line :: ls := by
        rw [InStream.unlines, if_neg (by simp), List.append_nil]
        exact List.splitOn_intercalate '\n' hnew (by simp)
      rw [hlines]

/-- Reading the lines above a line and reading them with it. -/
theorem reads_line {text : List Char} {pre post : List (List Char)} {line : List Char}
    (hlines : lines text = pre ++ line :: post) (hno : ¬ Overflows (lines text)) :
    ∃ above below, Reads "i23" (InStream.unlines pre false) above ∧
      Reads "i23" (InStream.unlines (pre ++ [line]) false) below ∧
      LineEffect pre line above below ∧
      (∀ aaf, Reads "i23" (InStream.unlines pre false) aaf → aaf = above) ∧
      ∀ aaf, Reads "i23" (InStream.unlines (pre ++ [line]) false) aaf → aaf = below := by
  have happend : lines text = (pre ++ [line]) ++ post := by simp [hlines]
  have hnew : ∀ l ∈ pre ++ [line], '\n' ∉ l := by
    intro l hl
    have hmem : l ∈ lines text := by
      rw [happend]
      exact List.mem_append_left post hl
    exact InStream.newline_not_mem_of_mem_splitOn hmem
  have hnewpre : ∀ l ∈ pre, '\n' ∉ l := fun l hl => hnew l (by simp [hl])
  rw [happend, overflows_append, not_or] at hno
  obtain ⟨b, b', hb, hb', heffect⟩ := lineEffect_last hno.1
  refine ⟨b.aaf, b'.aaf, (reads_unlines hnewpre).mpr ⟨b, hb, rfl⟩,
    (reads_unlines hnew).mpr ⟨b', hb', rfl⟩, heffect, ?_, ?_⟩
  · intro aaf haaf
    obtain ⟨b₁, hb₁, rfl⟩ := (reads_unlines hnewpre).mp haaf
    rw [hb] at hb₁
    cases hb₁
    rfl
  · intro aaf haaf
    obtain ⟨b₁, hb₁, rfl⟩ := (reads_unlines hnew).mp haaf
    rw [hb'] at hb₁
    cases hb₁
    rfl

/-- A phantom attack is an attack of a line with fewer than two words. -/
theorem not_attacksJustified {text : List Char} {pre post : List (List Char)} {line : List Char}
    (hno : ¬ Overflows (lines text)) (hlines : lines text = pre ++ line :: post)
    (hphantom : Phantom pre line) : ¬ AttacksJustified text := by
  intro hjustified
  obtain ⟨b, hb, -⟩ := readState_lines hno
  obtain ⟨-, hshort⟩ := hjustified b.aaf (reads_i23_iff.mpr ⟨b, hb, rfl⟩)
  obtain ⟨above, below, habove, hbelow, heffect, -, -⟩ := reads_line hlines hno
  have hsame := hshort pre line post hlines hphantom.2 above below habove hbelow
  obtain ⟨source, target, hadds⟩ := heffect.attack hphantom.1
  have hrow := hadds.row_eq target
  rw [if_pos rfl, hsame target] at hrow
  simpa using congrArg List.length hrow

/-- The attacks are those of the lines exactly when no line with fewer than two words
finds declared names left in `source` and `target`. A text with a header that overflows
is never handed on. The counters of the framework do not wrap. -/
theorem attacks_justified_iff (text : List Char) :
    AttacksJustified text ↔ Overflows (lines text) ∨
      ∀ pre line post, lines text = pre ++ line :: post → ¬ Phantom pre line := by
  constructor
  · intro hjustified
    by_contra hx
    simp only [not_or, not_forall, not_not] at hx
    obtain ⟨hno, pre, line, post, hlines, hphantom⟩ := hx
    exact not_attacksJustified hno hlines hphantom hjustified
  · intro hcond aaf haaf
    obtain ⟨b, hb, rfl⟩ := reads_i23_iff.mp haaf
    have hno := not_overflows_of_ok hb
    have hphantom := hcond.resolve_left hno
    refine ⟨fun source target hmem => attacks_justified_of_lines hb hphantom hmem, ?_⟩
    intro pre line post hlines hlen above below habove hbelow i
    obtain ⟨above', below', -, -, heffect, habove', hbelow'⟩ := reads_line hlines hno
    rw [habove' above habove, hbelow' below hbelow]
    exact heffect.no_attack (fun hnames => hphantom pre line post hlines ⟨hnames, hlen⟩) i

/-- The third line has one word and attacks the target of the line above it. -/
theorem attacks_justified_fails_at_short_line :
    ¬ AttacksJustified "p af 3\n1 2\n3".toList := by
  have hlines : lines "p af 3\n1 2\n3".toList =
      ["p af 3".toList, "1 2".toList] ++ "3".toList :: [] := by decide
  have hdeclared : ∀ i : Nat, 1 ≤ i → i ≤ 3 →
      Declared ["p af 3".toList, "1 2".toList] (decimal i) := by
    intro i hpos hle
    refine ⟨"p af 3".toList, by simp, by decide, ['3'], by decide, i, hpos, ?_, rfl⟩
    have hnum : number ['3'] = 3 := by decide
    omega
  have hno : ¬ Overflows (lines "p af 3\n1 2\n3".toList) := by
    rw [hlines]
    intro hx
    obtain ⟨line, hline, hheader, t, ht, hnum⟩ := hx
    simp only [List.cons_append, List.nil_append, List.mem_cons, List.not_mem_nil,
      or_false] at hline
    rcases hline with rfl | rfl | rfl
    · have ht' : some ['3'] = some t := ht
      cases ht'
      exact absurd hnum (by decide)
    · exact absurd hheader (by decide)
    · exact absurd hheader (by decide)
  refine not_attacksJustified hno hlines ⟨⟨by decide, ?_, ?_⟩, by decide⟩
  · exact ⟨['3'], by decide, hdeclared 3 (by decide) (by decide)⟩
  · exact ⟨['2'], by decide, hdeclared 2 (by decide) (by decide)⟩

end AcceptableArguments.Readers
