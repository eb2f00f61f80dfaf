import AcceptableArguments.Readers.Frameworks
import AcceptableArguments.Argumentation.Isomorphisms
import Mathlib.Data.List.NodupEquivFin

/-!
# What a text describes

A text lists names and states attacks between them, with no indices. The framework that
is read from a text holds exactly these attacks; when the names are distinct, its attack
relation on the indices is isomorphic to the one on the names.
-/

namespace AcceptableArguments.Readers

open Imperative Argumentation

/-- The names of the arguments in their order, and which name attacks which. -/
structure Description where
  names : List String
  attacks : String → String → Prop

abbrev Description.Arg (D : Description) : Type := {s : String // s ∈ D.names}

/-- The framework over the names themselves. -/
def Description.att (D : Description) (s t : D.Arg) : Prop := D.attacks s.val t.val

/-- The number of arguments in force and the names so far, behind one more line. A header
without a third word declares the same number again. -/
def declareLine (st : Int × List String) (line : List Char) : Int × List String :=
  if IsHeader line then
    (headerCount st.1 line, st.2 ++ arguments (headerCount st.1 line).toNat)
  else st

def i23Names (ls : List (List Char)) : List String := (ls.foldl declareLine (0, [])).2

/-- Some line begins with these two words, and both are declared above it. -/
def ListsAttack (ls : List (List Char)) (source target : String) : Prop :=
  ∃ pre line post, ls = pre ++ line :: post ∧ IsData line ∧
    ((InStream.words isSpace line)[0]? = some source.toList ∧ Declared pre source.toList) ∧
    (InStream.words isSpace line)[1]? = some target.toList ∧ Declared pre target.toList

def describeI23 (text : List Char) : Description :=
  ⟨i23Names (lines text), ListsAttack (lines text)⟩

def describeTgf (text : List Char) : Description :=
  ⟨tgfNames (InStream.words isSpace text),
    fun s t => (s, t) ∈ tgfAttacks (tgfRest (InStream.words isSpace text))⟩

def describe (fileformat : String) (text : List Char) : Description :=
  if fileformat = "tgf" then describeTgf text else describeI23 text

/-! ## Stored attacks -/

/-- Some line names an attack and leaves these two words in `source` and `target`; they may
come from the lines above it. -/
def StatesAttack (ls : List (List Char)) (source target : String) : Prop :=
  ∃ pre line post, ls = pre ++ line :: post ∧ NamesAttack pre line ∧
    lastWord 0 (pre ++ [line]) = some source.toList ∧
    lastWord 1 (pre ++ [line]) = some target.toList

/-- The framework stores an attack between indices with these names. -/
def HasAttack (aaf : AF) (source target : String) : Prop :=
  ∃ i j : Nat, aaf.intToArg[i]? = some source ∧ aaf.intToArg[j]? = some target ∧
    i ∈ row aaf.attackers j

/-- The framework holds the names and the attacks of the description. -/
structure Depicts (aaf : AF) (D : Description) : Prop where
  intToArg_eq : aaf.intToArg = D.names
  attack_iff : ∀ source target, HasAttack aaf source target ↔
    source ∈ D.names ∧ target ∈ D.names ∧ D.attacks source target

/-- Both ends of a stored attack are indices of the framework. -/
theorem lt_of_mem_row {aaf : AF} (h : AF.Shape aaf) {i j : Nat}
    (hij : i ∈ row aaf.attackers j) : i < aaf.intToArg.length ∧ j < aaf.intToArg.length := by
  rw [h.intToArg_length]
  refine ⟨h.attackers_lt j i hij, ?_⟩
  by_contra hj
  have hnone : aaf.attackers[j]? = none :=
    List.getElem?_eq_none (by rw [h.attackers_length]; omega)
  rw [row, List.getD_eq_getElem?_getD, hnone] at hij
  cases hij

theorem getElem?_of_front {l l' : List String} (h : l <+: l') {i : Nat} (hi : i < l.length) :
    l'[i]? = l[i]? := by
  obtain ⟨rest, rfl⟩ := h
  exact List.getElem?_append_left hi

/-- More names in front of no new attacks change nothing. -/
theorem hasAttack_of_rows {aaf aaf' : AF} (h : AF.Shape aaf)
    (hfront : aaf.intToArg <+: aaf'.intToArg)
    (hrow : ∀ i, row aaf'.attackers i = row aaf.attackers i) {source target : String} :
    HasAttack aaf' source target ↔ HasAttack aaf source target := by
  unfold HasAttack
  simp only [hrow]
  refine exists_congr fun i => exists_congr fun j => ?_
  rw [← and_assoc, ← and_assoc]
  refine and_congr_left fun hij => ?_
  obtain ⟨hi, hj⟩ := lt_of_mem_row h hij
  rw [getElem?_of_front hfront hi, getElem?_of_front hfront hj]

theorem HasAttack.mem {aaf : AF} {source target : String} (h : HasAttack aaf source target) :
    source ∈ aaf.intToArg ∧ target ∈ aaf.intToArg := by
  obtain ⟨i, j, hi, hj, -⟩ := h
  exact ⟨List.mem_of_getElem? hi, List.mem_of_getElem? hj⟩

/-! ## i23 -/

/-- A line acts on the count and on the names as the description says. -/
theorem lineStep_declares {b b' : Locals} (hshape : AF.Shape b.aaf) {line : List Char}
    (h : lineStep b line = .ok b') :
    (b'.nArgs, b'.aaf.intToArg) = declareLine (b.nArgs, b.aaf.intToArg) line := by
  by_cases hdata : IsData line
  · have hheader : ¬ IsHeader line := fun hheader => hheader.not_isData hdata
    obtain ⟨aaf, hadd, -, hsame⟩ := AF.addAttack_spec hshape
      (String.ofList (((InStream.words isSpace line)[0]?).getD b.source),
        String.ofList (((InStream.words isSpace line)[1]?).getD b.target))
    simp only [lineStep, if_pos hdata, hadd] at h
    cases h
    rw [declareLine, if_neg hheader, hsame.intToArg_eq]
  · by_cases hheader : IsHeader line
    · simp only [lineStep, if_neg hdata, if_pos hheader] at h
      split at h
      · cases h
      · cases h
        simp only [declareLine, if_pos hheader, AF.initializeAttackers,
          AF.foldl_addArgument_intToArg]
    · simp only [lineStep, if_neg hdata, if_neg hheader] at h
      cases h
      rw [declareLine, if_neg hheader]

theorem foldl_declareLine {ls : List (List Char)} {b : Locals}
    (hb : ls.foldlM lineStep Locals.init = .ok b) :
    ls.foldl declareLine (0, []) = (b.nArgs, b.aaf.intToArg) := by
  induction ls using List.reverseRecOn generalizing b with
  | nil =>
      cases hb
      rfl
  | append_singleton ls line ih =>
      rw [foldlM_lineStep_append] at hb
      cases hls : ls.foldlM lineStep Locals.init with
      | error e =>
          rw [hls] at hb
          cases hb
      | ok b₀ =>
          obtain ⟨b₁, hb₁, hstate⟩ := readState_lines (not_overflows_of_ok hls)
          rw [hls] at hb hb₁
          cases hb₁
          rw [List.foldl_append, ih hls]
          exact (lineStep_declares hstate.shape hb).symm

theorem statesAttack_append {ls : List (List Char)} {line : List Char} {source target : String} :
    StatesAttack (ls ++ [line]) source target ↔ StatesAttack ls source target ∨
      (NamesAttack ls line ∧ lastWord 0 (ls ++ [line]) = some source.toList ∧
        lastWord 1 (ls ++ [line]) = some target.toList) := by
  constructor
  · intro h
    obtain ⟨pre, l, post, hls, hstate⟩ := h
    cases post using List.reverseRecOn with
    | nil =>
        obtain ⟨rfl, hl⟩ := List.append_inj' hls rfl
        cases hl
        exact Or.inr hstate
    | append_singleton post x =>
        have hls' : ls ++ [line] = (pre ++ l :: post) ++ [x] := by simpa using hls
        exact Or.inl ⟨pre, l, post, (List.append_inj' hls' rfl).1, hstate⟩
  · intro h
    cases h with
    | inl h =>
        obtain ⟨pre, l, post, rfl, hstate⟩ := h
        exact ⟨pre, l, post ++ [line], by simp, hstate⟩
    | inr h => exact ⟨ls, line, [], rfl, h⟩

/-- What a line that adds an attack adds to the stored ones. -/
theorem AddsAttack.hasAttack {ls : List (List Char)} {line : List Char} {aaf aaf' : AF}
    (h : AF.Shape aaf) (hfront : aaf.intToArg <+: aaf'.intToArg) {i j : Nat}
    (hadds : AddsAttack ls line aaf aaf' i j) {source target : String} :
    HasAttack aaf' source target ↔ HasAttack aaf source target ∨
      (source = String.ofList ((lastWord 0 (ls ++ [line])).getD []) ∧
        target = String.ofList ((lastWord 1 (ls ++ [line])).getD [])) := by
  have hget : ∀ {k : Nat} {s : String}, aaf.intToArg[k]? = some s →
      aaf'.intToArg[k]? = some s := by
    intro k s hk
    rw [getElem?_of_front hfront (List.getElem?_eq_some_iff.mp hk).1]
    exact hk
  constructor
  · intro hx
    obtain ⟨i', j', hi', hj', hmem⟩ := hx
    have hold : i' ∈ row aaf.attackers j' → HasAttack aaf source target := by
      intro hmem
      obtain ⟨hi, hj⟩ := lt_of_mem_row h hmem
      rw [getElem?_of_front hfront hi] at hi'
      rw [getElem?_of_front hfront hj] at hj'
      exact ⟨i', j', hi', hj', hmem⟩
    rw [hadds.row_eq] at hmem
    split at hmem
    · rename_i htarget
      cases List.mem_append.mp hmem with
      | inl hmem => exact Or.inl (hold hmem)
      | inr hmem =>
          rw [List.mem_singleton.mp hmem, hget hadds.source_name] at hi'
          rw [htarget, hget hadds.target_name] at hj'
          cases hi'
          cases hj'
          exact Or.inr ⟨rfl, rfl⟩
    · exact Or.inl (hold hmem)
  · intro hx
    cases hx with
    | inl hx =>
        obtain ⟨i', j', hi', hj', hmem⟩ := hx
        refine ⟨i', j', hget hi', hget hj', ?_⟩
        rw [hadds.row_eq]
        split
        · exact List.mem_append_left _ hmem
        · exact hmem
    | inr hx =>
        obtain ⟨rfl, rfl⟩ := hx
        refine ⟨i, j, hget hadds.source_name, hget hadds.target_name, ?_⟩
        rw [hadds.row_eq, if_pos rfl]
        simp

/-- The word in a variable of `main`, once some line has written it. -/
theorem lastWord_eq_iff {k : Nat} {ls : List (List Char)} {P : List Char → Prop}
    (h : ∃ w ∈ lastWord k ls, P w) {s : String} :
    lastWord k ls = some s.toList ↔ s = String.ofList ((lastWord k ls).getD []) := by
  obtain ⟨w, hw, -⟩ := h
  rw [Option.mem_def.mp hw]
  simp only [Option.some.injEq, Option.getD_some]
  constructor
  · intro heq
    rw [heq, String.ofList_toList]
  · intro heq
    rw [heq, String.toList_ofList]

theorem hasAttack_of_lines {ls : List (List Char)} {b : Locals}
    (hb : ls.foldlM lineStep Locals.init = .ok b) (source target : String) :
    HasAttack b.aaf source target ↔ StatesAttack ls source target := by
  induction ls using List.reverseRecOn generalizing b with
  | nil =>
      cases hb
      constructor
      · intro h
        obtain ⟨i, j, -, -, hij⟩ := h
        cases hij
      · intro h
        obtain ⟨pre, line, post, hls, -⟩ := h
        simp at hls
  | append_singleton ls line ih =>
      have hno := not_overflows_of_ok hb
      obtain ⟨b₀, b', hb₀, hb', heffect⟩ := lineEffect_last hno
      rw [hb] at hb'
      cases hb'
      obtain ⟨b₁, hb₁, hstate⟩ := readState_lines (not_overflows_of_ok hb₀)
      rw [hb₀] at hb₁
      cases hb₁
      rw [statesAttack_append, ← ih hb₀]
      by_cases hnames : NamesAttack ls line
      · obtain ⟨i, j, hadds⟩ := heffect.attack hnames
        rw [hadds.hasAttack hstate.shape heffect.intToArg_prefix, and_iff_right hnames,
          lastWord_eq_iff hnames.2.1, lastWord_eq_iff hnames.2.2]
      · rw [hasAttack_of_rows hstate.shape heffect.intToArg_prefix (heffect.no_attack hnames),
          or_iff_left fun h => hnames h.1]

theorem intToArg_of_lines {ls : List (List Char)} {b : Locals}
    (hb : ls.foldlM lineStep Locals.init = .ok b) : b.aaf.intToArg = i23Names ls := by
  rw [i23Names, foldl_declareLine hb]

/-- Unless a line with too few words finds others left over, the two words of an attack
are those of its line. -/
theorem statesAttack_iff_listsAttack {ls : List (List Char)}
    (hphantom : ∀ pre line post, ls = pre ++ line :: post → ¬ Phantom pre line)
    {source target : String} : StatesAttack ls source target ↔ ListsAttack ls source target := by
  constructor
  · intro h
    obtain ⟨pre, line, post, hls, hnames, hsource, htarget⟩ := h
    have hlen : ¬ (InStream.words isSpace line).length < 2 := fun hlen =>
      hphantom pre line post hls ⟨hnames, hlen⟩
    obtain ⟨hdata, ⟨w, hw, hdec⟩, w', hw', hdec'⟩ := hnames
    have hword : ∀ k < 2, lastWord k (pre ++ [line]) = (InStream.words isSpace line)[k]? := by
      intro k hk
      rw [lastWord_append_data hdata, List.getElem?_eq_getElem (by omega), Option.some_or]
    rw [hsource, Option.mem_some_iff] at hw
    rw [htarget, Option.mem_some_iff] at hw'
    rw [hword 0 (by decide)] at hsource
    rw [hword 1 (by decide)] at htarget
    exact ⟨pre, line, post, hls, hdata, ⟨hsource, hw ▸ hdec⟩, htarget, hw' ▸ hdec'⟩
  · intro h
    obtain ⟨pre, line, post, hls, hdata, ⟨hsource, hdec⟩, htarget, hdec'⟩ := h
    have hsource' : lastWord 0 (pre ++ [line]) = some source.toList := by
      rw [lastWord_append_data hdata, hsource, Option.some_or]
    have htarget' : lastWord 1 (pre ++ [line]) = some target.toList := by
      rw [lastWord_append_data hdata, htarget, Option.some_or]
    exact ⟨pre, line, post, hls, ⟨hdata, ⟨_, hsource', hdec⟩, _, htarget', hdec'⟩, hsource',
      htarget'⟩

theorem depicts_of_i23 {text : List Char} {aaf : AF} (h : Reads "i23" text aaf)
    (hphantom : ∀ pre line post, lines text = pre ++ line :: post → ¬ Phantom pre line) :
    Depicts aaf (describeI23 text) := by
  obtain ⟨b, hb, rfl⟩ := reads_i23_iff.mp h
  have hnames := intToArg_of_lines hb
  refine ⟨hnames, fun source target => ?_⟩
  have hatt : HasAttack b.aaf source target ↔ ListsAttack (lines text) source target :=
    (hasAttack_of_lines hb source target).trans (statesAttack_iff_listsAttack hphantom)
  constructor
  · intro h
    obtain ⟨hs, ht⟩ := h.mem
    rw [hnames] at hs ht
    exact ⟨hs, ht, hatt.mp h⟩
  · intro hx
    exact hatt.mpr hx.2.2

/-! ## tgf -/

/-- An attack is stored exactly when it is listed between known names. -/
theorem hasAttack_of_tgf {ws : List (List Char)} {aaf : AF} (haaf : tgfFramework ws = some aaf)
    (source target : String) :
    HasAttack aaf source target ↔ source ∈ tgfNames ws ∧ target ∈ tgfNames ws ∧
      (source, target) ∈ tgfAttacks (tgfRest ws) := by
  obtain ⟨hnames, -⟩ := intToArg_of_tgfFramework haaf
  have hknown := known_of_tgfFramework haaf
  have hmap : aaf.argToInt = AF.indexOf (tgfNames ws) :=
    (sameNames_of_tgfFramework haaf).argToInt_eq.trans (AF.argToInt_foldl_addArgument _)
  by_cases hhash : ['#'] ∈ ws
  · rw [tgfFramework, if_pos hhash] at haaf
    obtain ⟨aaf', haaf', hrec, -⟩ := AF.read_records (tgfNames ws) (tgfAttacks (tgfRest ws))
    rw [haaf] at haaf'
    cases haaf'
    have hrow : ∀ i j, i ∈ row aaf.attackers j ↔
        ∃ att ∈ tgfAttacks (tgfRest ws), AF.denoted (tgfNames ws) att = some (i, j) := by
      intro i j
      rw [← List.count_pos_iff, hrec.count_attackers j i, List.count_pos_iff, List.mem_filterMap]
    constructor
    · intro h
      obtain ⟨hs, ht⟩ := h.mem
      rw [hnames] at hs ht
      refine ⟨hs, ht, ?_⟩
      obtain ⟨i, j, hi, hj, hij⟩ := h
      obtain ⟨att, hatt, hdenoted⟩ := (hrow i j).mp hij
      obtain ⟨i', hi', hdenoted⟩ := Option.bind_eq_some_iff.mp hdenoted
      obtain ⟨j', hj', hdenoted⟩ := Option.bind_eq_some_iff.mp hdenoted
      cases hdenoted
      rw [← hmap] at hi' hj'
      rw [hknown _ _ hi'] at hi
      rw [hknown _ _ hj'] at hj
      cases hi
      cases hj
      exact hatt
    · intro h
      obtain ⟨hs, ht, hatt⟩ := h
      obtain ⟨i, hi⟩ := Option.ne_none_iff_exists'.mp
        (fun hnone => AF.indexOf_eq_none_iff.mp hnone hs)
      obtain ⟨j, hj⟩ := Option.ne_none_iff_exists'.mp
        (fun hnone => AF.indexOf_eq_none_iff.mp hnone ht)
      have hdenoted : AF.denoted (tgfNames ws) (source, target) = some (i, j) := by
        simp [AF.denoted, hi, hj]
      rw [← hmap] at hi hj
      exact ⟨i, j, hknown _ _ hi, hknown _ _ hj, (hrow i j).mpr ⟨_, hatt, hdenoted⟩⟩
  · -- Without a separator there is no room for attacks, and none is listed.
    have hrest : tgfRest ws = [] := by
      rw [tgfRest, List.dropWhile_eq_nil_iff.mpr, List.drop_nil]
      intro w hw
      exact decide_eq_true fun heq => hhash (heq ▸ hw)
    rw [tgfFramework, if_neg hhash] at haaf
    cases haaf
    rw [hrest]
    constructor
    · intro h
      obtain ⟨i, j, -, -, hij⟩ := h
      rw [(AF.named_foldl_addArgument _).attackers_eq] at hij
      cases hij
    · intro h
      cases h.2.2

theorem depicts_of_tgf {text : List Char} {aaf : AF} (h : Reads "tgf" text aaf) :
    Depicts aaf (describeTgf text) := by
  have haaf := reads_tgf_iff.mp h
  exact ⟨(intToArg_of_tgfFramework haaf).1, hasAttack_of_tgf haaf⟩

/-- Other formats are not read. -/
theorem supported_of_reads {fileformat : String} {text : List Char} {aaf : AF}
    (h : Reads fileformat text aaf) :
    fileformat = "tgf" ∨ fileformat ≠ "tgf" ∧ Reads "i23" text aaf := by
  by_cases htgf : fileformat = "tgf"
  · exact Or.inl htgf
  · refine Or.inr ⟨htgf, ?_⟩
    obtain ⟨argv0, fuel, s, hrun⟩ := h
    by_cases hi23 : fileformat = "" ∨ fileformat = "i23"
    · cases hi23 with
      | inl hempty =>
          subst hempty
          exact ⟨argv0, fuel, s, hrun⟩
      | inr hi23 =>
          subst hi23
          exact ⟨argv0, fuel, s, hrun⟩
    · rw [not_or] at hi23
      simp only [readInput, if_neg hi23.1, if_neg hi23.2, if_neg htgf] at hrun
      cases hrun

theorem depicts_of_reads {fileformat : String} {text : List Char} {aaf : AF}
    (h : Reads fileformat text aaf)
    (hphantom : fileformat ≠ "tgf" →
      ∀ pre line post, lines text = pre ++ line :: post → ¬ Phantom pre line) :
    Depicts aaf (describe fileformat text) := by
  unfold describe
  cases supported_of_reads h with
  | inl htgf =>
      subst htgf
      exact depicts_of_tgf h
  | inr hi23 =>
      rw [if_neg hi23.1]
      exact depicts_of_i23 hi23.2 (hphantom hi23.1)

/-- The framework read from any text, repeated names and lines with missing words included.
It has the names of the text in their order. An i23 text yields an attack exactly for each
line that leaves two declared names behind, a tgf text for each pair of known names that
it lists. The counters of the framework do not wrap. -/
theorem read_framework_exact (fileformat : String) (text : List Char) (aaf : AF)
    (h : Reads fileformat text aaf) :
    aaf.intToArg = (describe fileformat text).names ∧
      ∀ source target, (∃ i j : Nat, aaf.intToArg[i]? = some source ∧
          aaf.intToArg[j]? = some target ∧ i ∈ row aaf.attackers j) ↔
        if fileformat = "tgf" then
          source ∈ aaf.intToArg ∧ target ∈ aaf.intToArg ∧
            (source, target) ∈ tgfAttacks (tgfRest (InStream.words isSpace text))
        else StatesAttack (lines text) source target := by
  unfold describe
  cases supported_of_reads h with
  | inl htgf =>
      subst htgf
      have hnames := (depicts_of_tgf h).intToArg_eq
      refine ⟨hnames, fun source target => ?_⟩
      have hatt := (depicts_of_tgf h).attack_iff source target
      rw [← hnames] at hatt
      exact hatt
  | inr hi23 =>
      rw [if_neg hi23.1]
      obtain ⟨b, hb, rfl⟩ := reads_i23_iff.mp hi23.2
      refine ⟨intToArg_of_lines hb, fun source target => ?_⟩
      rw [if_neg hi23.1]
      exact hasAttack_of_lines hb source target

/-- A repeated name: the attack is stored at its last index. -/
theorem read_framework_exact_repeated :
    ∃ aaf, Reads "tgf" "a a # a a".toList aaf ∧ aaf.intToArg = ["a", "a"] ∧
      ∃ i j : Nat, aaf.intToArg[i]? = some "a" ∧ aaf.intToArg[j]? = some "a" ∧
        i ∈ row aaf.attackers j := by
  obtain ⟨aaf, haaf⟩ := exists_tgfFramework (InStream.words isSpace "a a # a a".toList)
  have hreads : Reads "tgf" "a a # a a".toList aaf := reads_tgf_iff.mpr haaf
  obtain ⟨hnames, hattacks⟩ := read_framework_exact "tgf" "a a # a a".toList aaf hreads
  refine ⟨aaf, hreads, hnames, (hattacks "a" "a").mpr ?_⟩
  rw [if_pos rfl, hnames]
  decide

/-! ## The framework over the names -/

theorem Depicts.initializeVars {aaf : AF} {D : Description} (h : Depicts aaf D) (perfEnc : Bool) :
    Depicts (aaf.initializeVars perfEnc) D := by
  obtain ⟨-, hnames, hatt, -⟩ := AF.initializeVars_fields perfEnc aaf
  refine ⟨hnames.trans h.intToArg_eq, fun source target => ?_⟩
  rw [← h.attack_iff, HasAttack, HasAttack, hnames, hatt]

section Names

variable {aaf : AF} {D : Description} (h : Depicts aaf D) (hlen : aaf.intToArg.length = aaf.args)
  (hnodup : D.names.Nodup)

include h hlen

theorem Depicts.args_eq : aaf.args = D.names.length := by rw [← hlen, h.intToArg_eq]

include hnodup

/-- Distinct names can stand for the indices. -/
def Depicts.equiv : Fin aaf.args ≃ D.Arg :=
  (finCongr (h.args_eq hlen)).trans (hnodup.getEquiv D.names)

theorem Depicts.intToArg_get (i : Fin aaf.args) :
    aaf.intToArg[i.val]? = some (h.equiv hlen hnodup i).val := by
  have hlt : i.val < D.names.length := h.args_eq hlen ▸ i.2
  rw [h.intToArg_eq, List.getElem?_eq_getElem hlt]
  rfl

theorem Depicts.att_iff (i j : Fin aaf.args) :
    D.att (h.equiv hlen hnodup i) (h.equiv hlen hnodup j) ↔ aaf.att i j := by
  have hi := h.intToArg_get hlen hnodup i
  have hj := h.intToArg_get hlen hnodup j
  constructor
  · intro hatt
    obtain ⟨i', j', hi', hj', hij⟩ := (h.attack_iff _ _).mpr
      ⟨(h.equiv hlen hnodup i).2, (h.equiv hlen hnodup j).2, hatt⟩
    -- The names are distinct, so the stored indices are `i` and `j`.
    have hunique : ∀ {k k' : Nat} {s : String}, aaf.intToArg[k]? = some s →
        aaf.intToArg[k']? = some s → k = k' := by
      intro k k' s hk hk'
      have hlt : k < aaf.intToArg.length := (List.getElem?_eq_some_iff.mp hk).1
      exact (List.getElem?_inj hlt (h.intToArg_eq ▸ hnodup)).mp (hk.trans hk'.symm)
    rw [hunique hi' hi, hunique hj' hj] at hij
    exact hij
  · intro hatt
    exact ((h.attack_iff _ _).mp ⟨i, j, hi, hj, hatt⟩).2.2

def Depicts.iso : aaf.att ≃r D.att where
  toEquiv := h.equiv hlen hnodup
  map_rel_iff' := h.att_iff hlen hnodup _ _

end Names

end AcceptableArguments.Readers
