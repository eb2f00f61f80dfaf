import AcceptableArguments.Readers.PhantomAttacks
import AcceptableArguments.AttackRecords
import AcceptableArguments.Algorithms.VariableBlocks

/-!
# The frameworks that reach the algorithms

The vectors get their sizes from a header line or from the separator `#`. The i23 reader
counts arguments only at a header, so its frameworks are always in shape. The tgf reader
counts them word by word, so a text without a separator leaves the vectors empty, and a
name that is repeated becomes two arguments.
-/

namespace AcceptableArguments.Readers

open AcceptableArguments.Sat Imperative Algorithms

/-! ## Frameworks in shape -/

/-- The only way in which reading lines stops early. -/
theorem foldlM_lineStep_error {ls : List (List Char)} {e : Fault}
    (h : ls.foldlM lineStep Locals.init = .error e) : e = .overflow := by
  induction ls using List.reverseRecOn with
  | nil => cases h
  | append_singleton ls line ih =>
      rw [foldlM_lineStep_append] at h
      cases hls : ls.foldlM lineStep Locals.init with
      | error e' =>
          rw [hls] at h ih
          cases h
          exact ih rfl
      | ok b =>
          obtain ⟨b', hb', hstate⟩ := readState_lines (not_overflows_of_ok hls)
          rw [hls] at h hb'
          cases hb'
          change lineStep b line = .error e at h
          by_cases hover : Overflows [line]
          · rw [lineStep_overflow hover] at h
            cases h
            rfl
          · obtain ⟨b'', hstep, -, -⟩ := lineStep_spec hstate hover
            rw [hstep] at h
            cases h

theorem readInput_i23_in_bounds (argv0 : String) (text : List Char) (fuel : Nat) :
    (readInput argv0 "i23" fuel (InStream.ofText text)).1 ≠ .error (.error .outOfBounds) := by
  intro heq
  rcases readInput_i23_outcome argv0 text fuel with h | h
  · rw [h.1] at heq
    cases heq
  · rw [h] at heq
    cases hfold : (lines text).foldlM lineStep Locals.init with
    | error e =>
        rw [hfold, foldlM_lineStep_error hfold] at heq
        cases heq
    | ok b =>
        rw [hfold] at heq
        cases heq

theorem shape_of_reads_i23 {text : List Char} {aaf : AF} (h : Reads "i23" text aaf) :
    AF.Shape aaf ∧ aaf.count = 0 := by
  obtain ⟨b, hb, rfl⟩ := reads_i23_iff.mp h
  obtain ⟨b', hb', hstate⟩ := readState_lines (not_overflows_of_ok hb)
  rw [hb] at hb'
  cases hb'
  exact ⟨hstate.shape, hstate.count_eq⟩

theorem readInput_tgf_in_bounds (argv0 : String) (text : List Char) (fuel : Nat) :
    (readInput argv0 "tgf" fuel (InStream.ofText text)).1 ≠ .error (.error .outOfBounds) := by
  intro heq
  have h := readInput_tgf_outcome argv0 text fuel
  rcases hrun : readInput argv0 "tgf" fuel (InStream.ofText text) with ⟨e | aaf, s⟩
  · rw [hrun] at heq
    rw [Ensures, hrun] at h
    cases heq
    cases h.1
  · rw [hrun] at heq
    cases heq

theorem exists_tgfFramework (ws : List (List Char)) : ∃ aaf, tgfFramework ws = some aaf := by
  unfold tgfFramework
  split
  · obtain ⟨aaf, haaf, -, -⟩ := AF.read_spec (tgfNames ws) (tgfAttacks (tgfRest ws))
    exact ⟨aaf, haaf⟩
  · exact ⟨_, rfl⟩

/-- Without a separator all words are names. -/
theorem length_tgfNames_pos {ws : List (List Char)} (hhash : ['#'] ∉ ws) (hne : ws ≠ []) :
    0 < (tgfNames ws).length := by
  have hall : ws.takeWhile (· ≠ ['#']) = ws := by
    rw [List.takeWhile_eq_self_iff]
    intro w hw
    exact decide_eq_true fun heq => hhash (heq ▸ hw)
  rw [tgfNames, hall, List.length_map]
  exact List.length_pos_iff.mpr hne

/-- The separator gives every vector its size; without words there is nothing to size. -/
theorem shape_of_tgfFramework {ws : List (List Char)} (h : ['#'] ∈ ws ∨ ws = []) {aaf : AF}
    (haaf : tgfFramework ws = some aaf) : AF.Shape aaf := by
  rcases h with h | h
  · rw [tgfFramework, if_pos h] at haaf
    obtain ⟨aaf', haaf', hshape, -⟩ := AF.read_spec (tgfNames ws) (tgfAttacks (tgfRest ws))
    rw [haaf] at haaf'
    cases haaf'
    exact hshape
  · subst h
    cases haaf
    exact readState_init.shape

/-- The names of a tgf framework are the words in front of the separator. -/
theorem sameNames_of_tgfFramework {ws : List (List Char)} {aaf : AF}
    (haaf : tgfFramework ws = some aaf) :
    AF.SameNames ((tgfNames ws).foldl AF.addArgument AF.empty) aaf := by
  unfold tgfFramework at haaf
  split at haaf
  · obtain ⟨aaf', haaf', -, hsame⟩ := AF.read_spec (tgfNames ws) (tgfAttacks (tgfRest ws))
    rw [haaf] at haaf'
    cases haaf'
    exact hsame
  · cases haaf
    exact AF.SameNames.refl _

/-! ## Sizes and indices -/

/-- Every vector that is indexed by arguments has one entry for each of them. -/
def VectorsSized (af : AF) : Prop :=
  af.attackers.length = af.args ∧ af.unattacked.length = af.args ∧
    af.acceptedVar.length = af.args ∧ af.rejectedVar.length = af.args ∧
    af.intToArg.length = af.args

/-- No encoding and no run of an algorithm leaves a vector, whatever the solvers answer. -/
def RunsInBounds (perfEnc : Bool) (af : AF) : Prop :=
  ((Encodings.complete perfEnc af).isSome ∧ (Encodings.stable af).isSome ∧
    (∀ isAttackedSet, (Encodings.admissible af isAttackedSet).isSome) ∧
    (Encodings.attacks af).isSome) ∧
  ∀ (alg : Algorithm) (O : Oracle) (sem : Semantics) (fuel : Nat),
    (alg.run O perfEnc af sem fuel []).1 ≠ .error (.error .outOfBounds)

/-- Reading the text stays inside the vectors, and so does everything that is done with the
framework if one is handed on. -/
def InBounds (fileformat : String) (text : List Char) : Prop :=
  (∀ argv0 fuel, (readInput argv0 fileformat fuel (InStream.ofText text)).1 ≠
    .error (.error .outOfBounds)) ∧
  ∀ aaf, Reads fileformat text aaf → ∀ perfEnc,
    VectorsSized (aaf.initializeVars perfEnc) ∧ RunsInBounds perfEnc (aaf.initializeVars perfEnc)

theorem vectorsSized_of_ready {perfEnc : Bool} {af : AF} (h : AF.Ready perfEnc af) :
    VectorsSized af := by
  refine ⟨h.attackers_length, h.unattacked_length, ?_, ?_, h.intToArg_length⟩
  · simp [h.acceptedVar_eq]
  · simp [h.rejectedVar_eq]

theorem validLog_nil (af : AF) : ValidLog af [] := by simp [ValidLog]

theorem runsInBounds_of_ready {perfEnc : Bool} {af : AF} (h : AF.Ready perfEnc af) :
    RunsInBounds perfEnc af := by
  refine ⟨⟨?_, ?_, fun isAttackedSet => ?_, ?_⟩, fun alg O sem fuel heq => ?_⟩
  · cases perfEnc with
    | true => rw [Encodings.complete_perf_eq h, Option.isSome_some]
    | false => rw [Encodings.complete_eq h, Option.isSome_some]
  · rw [Encodings.stable_eq h, Option.isSome_some]
  · rw [Encodings.admissible_eq h, Option.isSome_some]
  · rw [Encodings.attacks_eq h, Option.isSome_some]
  · obtain ⟨-, hstop⟩ := (alg.run_safe h O sem fuel).outcome (validLog_nil af)
    exact hstop _ heq rfl

/-- A text without a separator that names an argument leaves the vectors empty. -/
theorem not_inBounds_tgf {text : List Char} (hhash : ['#'] ∉ InStream.words isSpace text)
    (hne : InStream.words isSpace text ≠ []) : ¬ InBounds "tgf" text := by
  intro hbounds
  set ws := InStream.words isSpace text
  have hnamed := AF.named_foldl_addArgument (tgfNames ws)
  have hframework : tgfFramework ws = some ((tgfNames ws).foldl AF.addArgument AF.empty) :=
    if_neg hhash
  obtain ⟨hsized, -⟩ := hbounds.2 _ (reads_tgf_iff.mpr hframework) true
  obtain ⟨hargs, -, hatt, -⟩ :=
    AF.initializeVars_fields true ((tgfNames ws).foldl AF.addArgument AF.empty)
  have hlen := hsized.1
  rw [hatt, hargs, hnamed.attackers_eq, hnamed.args_eq] at hlen
  exact (length_tgfNames_pos hhash hne).ne hlen

/-- Sizes that fit when the text has been read fit in every run. -/
theorem bounds_of_shape {aaf : AF} (h : AF.Shape aaf ∧ aaf.count = 0) (perfEnc : Bool) :
    VectorsSized (aaf.initializeVars perfEnc) ∧
      RunsInBounds perfEnc (aaf.initializeVars perfEnc) := by
  have hready := AF.ready_initializeVars perfEnc h.1 h.2
  exact ⟨vectorsSized_of_ready hready, runsInBounds_of_ready hready⟩

theorem inBounds_i23 (text : List Char) : InBounds "i23" text :=
  ⟨fun argv0 fuel => readInput_i23_in_bounds argv0 text fuel,
    fun _ haaf => bounds_of_shape (shape_of_reads_i23 haaf)⟩

theorem inBounds_tgf {text : List Char}
    (h : ['#'] ∈ InStream.words isSpace text ∨ InStream.words isSpace text = []) :
    InBounds "tgf" text := by
  refine ⟨fun argv0 fuel => readInput_tgf_in_bounds argv0 text fuel, fun aaf haaf => ?_⟩
  have hframework := reads_tgf_iff.mp haaf
  have hcount := (sameNames_of_tgfFramework hframework).count_eq
  rw [(AF.named_foldl_addArgument _).count_eq] at hcount
  exact bounds_of_shape ⟨shape_of_tgfFramework h hframework, hcount⟩

/-- Other formats are refused. -/
theorem inBounds_unsupported {fileformat : String} (h : fileformat ∉ ["", "i23", "tgf"])
    (text : List Char) : InBounds fileformat text := by
  simp only [List.mem_cons, List.not_mem_nil, or_false, not_or] at h
  have hexit : ∀ argv0 fuel, readInput argv0 fileformat fuel =
      Run.throw (.exit 1 (argv0 ++ ": Unsupported file format\n")) := by
    intro argv0 fuel
    simp only [readInput, if_neg h.1, if_neg h.2.1, if_neg h.2.2]
  refine ⟨fun argv0 fuel heq => ?_, fun aaf haaf => ?_⟩
  · rw [hexit] at heq
    cases heq
  · obtain ⟨argv0, fuel, s, hrun⟩ := haaf
    rw [hexit] at hrun
    cases hrun

/-- Every index is in bounds, for all texts and formats but one kind: tgf texts that name
an argument and have no separator. The counters of the framework do not wrap. -/
theorem input_in_bounds_iff (fileformat : String) (text : List Char) :
    InBounds fileformat text ↔ (fileformat = "tgf" →
      ['#'] ∈ InStream.words isSpace text ∨ InStream.words isSpace text = []) := by
  constructor
  · intro hbounds htgf
    subst htgf
    by_contra hx
    rw [not_or] at hx
    exact not_inBounds_tgf hx.1 hx.2 hbounds
  · intro hcond
    by_cases hformat : fileformat ∈ ["", "i23", "tgf"]
    · simp only [List.mem_cons, List.not_mem_nil, or_false] at hformat
      rcases hformat with rfl | rfl | rfl
      -- Without `-fo` the format is i23.
      · exact inBounds_i23 text
      · exact inBounds_i23 text
      · exact inBounds_tgf (hcond rfl)
    · exact inBounds_unsupported hformat text

/-- One name and no separator. -/
theorem input_in_bounds_fails_without_separator : ¬ InBounds "tgf" "a".toList :=
  not_inBounds_tgf (by decide) (by decide)

/-! ## Runs on a framework without sizes -/

section NoSizes

variable {af : AF} (hunattacked : af.unattacked = []) (hargs : 0 < af.args)

include hunattacked hargs

omit hunattacked in
theorem mapM_range_none {α : Type} {f : Nat → Option α} (h : f 0 = none) :
    (List.range af.args).mapM f = none := by
  obtain ⟨n, hn⟩ := Nat.exists_eq_add_one_of_ne_zero (Nat.pos_iff_ne_zero.mp hargs)
  rw [hn, List.range_succ_eq_map, List.mapM_cons, h]
  rfl

theorem complete_none (perfEnc : Bool) : Encodings.complete perfEnc af = none := by
  have hfirst : (if perfEnc then Encodings.completePerfArg af else Encodings.completeArg af) 0 =
      none := by
    cases perfEnc with
    | true => simp [Encodings.completePerfArg, hunattacked]
    | false => simp [Encodings.completeArg, hunattacked]
  rw [Encodings.complete, mapM_range_none hargs hfirst]
  rfl

theorem stable_none : Encodings.stable af = none := by
  have hfirst : Encodings.stableArg af 0 = none := by simp [Encodings.stableArg, hunattacked]
  rw [Encodings.stable, mapM_range_none hargs hfirst]
  rfl

theorem admissible_none : Encodings.admissible af false = none := by
  have hfirst : Encodings.admissibleArg af 0 0 = none := by
    simp [Encodings.admissibleArg, hunattacked]
  rw [Encodings.admissible]
  exact congrArg (· >>= fun blocks => some blocks.flatten) (mapM_range_none hargs hfirst)

theorem encodeCred_neverReturns (perfEnc : Bool) (sem : Semantics) :
    NeverReturns (encodeCred perfEnc af sem : SolveM _) := by
  cases sem with
  | CO => exact neverReturns_ofOption _ (complete_none hunattacked hargs perfEnc)
  | PR => exact neverReturns_ofOption _ (complete_none hunattacked hargs perfEnc)
  | ST => exact neverReturns_ofOption _ (stable_none hunattacked hargs)
  | UNKNOWN_SEM => exact neverReturns_throw _

/-- Every algorithm encodes the framework before it reports anything. -/
theorem run_neverReturns (perfEnc : Bool) (alg : Algorithm) (O : Oracle) (sem : Semantics)
    (fuel : Nat) : NeverReturns (alg.run O perfEnc af sem fuel) := by
  have hcred := encodeCred_neverReturns hunattacked hargs perfEnc sem
  have hcomplete : NeverReturns (bounds (Encodings.complete perfEnc af) : SolveM _) :=
    neverReturns_ofOption _ (complete_none hunattacked hargs perfEnc)
  have hstable : NeverReturns (bounds (Encodings.stable af) : SolveM _) :=
    neverReturns_ofOption _ (stable_none hunattacked hargs)
  cases alg with
  | iaqCred => exact hcred.bind _
  | iaqSkep =>
      cases sem with
      | CO => exact neverReturns_throw _
      | UNKNOWN_SEM => exact neverReturns_throw _
      | ST => exact hstable.bind _
      | PR =>
          obtain ⟨n, hn⟩ := Nat.exists_eq_add_one_of_ne_zero (Nat.pos_iff_ne_zero.mp hargs)
          simp only [Algorithm.run, iaqSkep, hn, List.range_succ_eq_map, List.foldlM_cons]
          exact ((hcomplete.bind _).bind _).bind _
  | eeeCred => exact (hcred.bind _).bind _
  | eeeSkep =>
      cases sem with
      | CO => exact neverReturns_throw _
      | UNKNOWN_SEM => exact neverReturns_throw _
      | ST => exact (hstable.bind _).bind _
      | PR => exact (hcomplete.bind _).bind _
  | seeCred => exact hcred.bind _
  | seeSkep =>
      simp only [Algorithm.run, seeSkep]
      split
      · exact neverReturns_throw _
      · exact hstable.bind _
  | seemCred =>
      simp only [Algorithm.run, seemCred]
      split
      · exact neverReturns_whileTrue (fun b => hcred.bind _) fuel _
      · exact neverReturns_throw _
  | seemSkep =>
      simp only [Algorithm.run, seemSkep]
      split
      · exact neverReturns_throw _
      · exact hstable.bind _
  | fudgeSkep =>
      exact (neverReturns_ofOption _ (admissible_none hunattacked hargs)).bind _

end NoSizes

/-! ## Names and indices -/

/-- The two maps between names and indices are inverse to each other, the attacks that the
text names are stored at the indices of these names, and no algorithm lists a name
twice. -/
def NamesAgree (text : List Char) : Prop :=
  ∀ aaf, Reads "tgf" text aaf →
    aaf.intToArg.Nodup ∧
    (∀ i < aaf.args, ∃ name, aaf.intToArg[i]? = some name ∧ aaf.argToInt name = some i) ∧
    (∀ name i, aaf.argToInt name = some i → aaf.intToArg[i]? = some name) ∧
    (∀ att ∈ tgfAttacks (tgfRest (InStream.words isSpace text)), ∀ i j : Nat,
      aaf.intToArg[i]? = some att.1 → aaf.intToArg[j]? = some att.2 → i ∈ row aaf.attackers j) ∧
    ∀ (perfEnc : Bool) (alg : Algorithm) (O : Oracle) (sem : Semantics) (fuel : Nat)
      (result : List String) (log : List Event),
      alg.run O perfEnc (aaf.initializeVars perfEnc) sem fuel [] = (.ok result, log) →
        result.Nodup

section Names

variable {ws : List (List Char)} {aaf : AF} (haaf : tgfFramework ws = some aaf)

include haaf

theorem intToArg_of_tgfFramework :
    aaf.intToArg = tgfNames ws ∧ aaf.args = (tgfNames ws).length := by
  have hsame := sameNames_of_tgfFramework haaf
  have hnamed := AF.named_foldl_addArgument (tgfNames ws)
  exact ⟨hsame.intToArg_eq.trans hnamed.intToArg_eq, hsame.args_eq.trans hnamed.args_eq⟩

theorem known_of_tgfFramework : AF.Known aaf := by
  have hsame := sameNames_of_tgfFramework haaf
  have hempty : AF.Known AF.empty := by simp [AF.Known, AF.empty]
  have hknown := hempty.foldl_addArgument rfl (tgfNames ws)
  intro s i hi
  rw [hsame.argToInt_eq] at hi
  rw [hsame.intToArg_eq]
  exact hknown s i hi

/-- Distinct names are found at their own index. -/
theorem argToInt_of_nodup (hnodup : (tgfNames ws).Nodup) {i : Nat} {name : String}
    (hi : aaf.intToArg[i]? = some name) : aaf.argToInt name = some i := by
  obtain ⟨hnames, -⟩ := intToArg_of_tgfFramework haaf
  have hmem : name ∈ tgfNames ws := hnames ▸ List.mem_of_getElem? hi
  have hsome : (aaf.argToInt name).isSome := by
    rw [(sameNames_of_tgfFramework haaf).argToInt_eq]
    exact (AF.isSome_argToInt_foldl _ _ _).mpr (Or.inl hmem)
  obtain ⟨j, hj⟩ := Option.isSome_iff_exists.mp hsome
  have hget := known_of_tgfFramework haaf name j hj
  have hlt : i < aaf.intToArg.length := (List.getElem?_eq_some_iff.mp hi).1
  have hij : i = j := (List.getElem?_inj hlt (hnames ▸ hnodup)).mp (hi.trans hget.symm)
  rw [hij]
  exact hj

theorem attack_stored (hnodup : (tgfNames ws).Nodup) {att : String × String}
    (hatt : att ∈ tgfAttacks (tgfRest ws)) {i j : Nat} (hi : aaf.intToArg[i]? = some att.1)
    (hj : aaf.intToArg[j]? = some att.2) : i ∈ row aaf.attackers j := by
  have hsource := argToInt_of_nodup haaf hnodup hi
  have htarget := argToInt_of_nodup haaf hnodup hj
  rw [(sameNames_of_tgfFramework haaf).argToInt_eq, AF.argToInt_foldl_addArgument]
    at hsource htarget
  unfold tgfFramework at haaf
  split at haaf
  · obtain ⟨aaf', haaf', hrec, -⟩ := AF.read_records (tgfNames ws) (tgfAttacks (tgfRest ws))
    rw [haaf] at haaf'
    cases haaf'
    have hdenoted : AF.denoted (tgfNames ws) att = some (i, j) := by
      simp [AF.denoted, hsource, htarget]
    rw [← List.count_pos_iff, hrec.count_attackers j i, List.count_pos_iff]
    exact List.mem_filterMap.mpr ⟨att, hatt, hdenoted⟩
  · -- Without a separator there are no words behind it.
    rename_i hhash
    have hrest : tgfRest ws = [] := by
      rw [tgfRest, List.dropWhile_eq_nil_iff.mpr, List.drop_nil]
      intro w hw
      exact decide_eq_true fun heq => hhash (heq ▸ hw)
    rw [hrest] at hatt
    cases hatt

/-- With distinct names no list has a name twice. -/
theorem result_nodup (hnodup : (tgfNames ws).Nodup) {perfEnc : Bool} {alg : Algorithm} {O : Oracle}
    {sem : Semantics} {fuel : Nat} {result : List String} {log : List Event}
    (hrun : alg.run O perfEnc (aaf.initializeVars perfEnc) sem fuel [] = (.ok result, log)) :
    result.Nodup := by
  obtain ⟨hnames, hlen⟩ := intToArg_of_tgfFramework haaf
  obtain ⟨hargs, hintToArg, -, -⟩ := AF.initializeVars_fields perfEnc aaf
  by_cases hsized : ['#'] ∈ ws ∨ ws = []
  · have hcount := (sameNames_of_tgfFramework haaf).count_eq
    rw [(AF.named_foldl_addArgument _).count_eq] at hcount
    have hready := AF.ready_initializeVars perfEnc (shape_of_tgfFramework hsized haaf) hcount
    obtain ⟨S, hS⟩ := (alg.run_safe hready O sem fuel).returned (validLog_nil _) hrun
    exact hS.nodup hready (by rw [hintToArg, hnames]; exact hnodup)
  · rw [not_or] at hsized
    rw [tgfFramework, if_neg hsized.1] at haaf
    cases haaf
    have hnamed := AF.named_foldl_addArgument (tgfNames ws)
    have hunattacked : (AF.initializeVars perfEnc
        ((tgfNames ws).foldl AF.addArgument AF.empty)).unattacked = [] := by
      cases perfEnc <;> exact hnamed.unattacked_eq
    have hpos : 0 < (AF.initializeVars perfEnc
        ((tgfNames ws).foldl AF.addArgument AF.empty)).args := by
      rw [hargs, hlen]
      exact length_tgfNames_pos hsized.1 hsized.2
    exact ((run_neverReturns hunattacked hpos perfEnc alg O sem fuel).returned trivial hrun).elim

end Names

/-- The names agree exactly when the words in front of the separator are distinct. The
counters of the framework do not wrap. -/
theorem names_agree_iff (text : List Char) :
    NamesAgree text ↔ (tgfNames (InStream.words isSpace text)).Nodup := by
  constructor
  · intro hagree
    obtain ⟨aaf, haaf⟩ := exists_tgfFramework (InStream.words isSpace text)
    obtain ⟨hnodup, -⟩ := hagree aaf (reads_tgf_iff.mpr haaf)
    rwa [(intToArg_of_tgfFramework haaf).1] at hnodup
  · intro hnodup aaf hreads
    have haaf := reads_tgf_iff.mp hreads
    obtain ⟨hnames, hlen⟩ := intToArg_of_tgfFramework haaf
    refine ⟨hnames ▸ hnodup, fun i hi => ?_, known_of_tgfFramework haaf,
      fun att hatt i j hi hj => attack_stored haaf hnodup hatt hi hj,
      fun perfEnc alg O sem fuel result log hrun => result_nodup haaf hnodup hrun⟩
    have hlt : i < aaf.intToArg.length := by
      rw [hnames, ← hlen]
      exact hi
    have hget := List.getElem?_eq_getElem hlt
    exact ⟨_, hget, argToInt_of_nodup haaf hnodup hget⟩

/-- The same name twice. -/
theorem names_agree_fails_at_repeated_name : ¬ NamesAgree "a a #".toList := by
  intro hagree
  obtain ⟨aaf, haaf⟩ := exists_tgfFramework (InStream.words isSpace "a a #".toList)
  obtain ⟨hnodup, -⟩ := hagree aaf (reads_tgf_iff.mpr haaf)
  rw [(intToArg_of_tgfFramework haaf).1] at hnodup
  exact absurd hnodup (by decide)

end AcceptableArguments.Readers
