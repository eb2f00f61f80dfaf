import AcceptableArguments.Validation
import AcceptableArguments.Readers.Descriptions
import AcceptableArguments.Algorithms.FudgeCorrectness
import AcceptableArguments.Algorithms.FuelIndependence

/-!
# What the program prints

The input is a text, the output is a text, and the specification speaks about the
framework over the names that the input describes. The theorems say that every build
prints the arguments that the problem asks for, whatever answers its solver chooses.
-/

namespace AcceptableArguments.MainProgram

open AcceptableArguments.Sat Imperative Algorithms Readers Argumentation Validation

/-! ## The specification -/

/-- The arguments that a problem asks for. -/
def Task.accepts {α : Type*} (task : Task) (sem : Semantics) (att : α → α → Prop) : Set α :=
  match task with
  | .EC => ⋃₀ sem.extensions att
  | .ES => ⋂₀ sem.extensions att
  | .UNKNOWN_TASK => ∅

/-- The names that a problem asks for. -/
def accepted (D : Description) (task : Task) (sem : Semantics) : Set String :=
  {s | ∃ hs : s ∈ D.names, ⟨s, hs⟩ ∈ task.accepts sem D.att}

/-- What a build requires of its solver. -/
def Build.Contract (build : Build) (O : Oracle) : Prop :=
  match build with
  | .SEEM => O.Optimal
  | .IAQ | .EEE | .SEE | .FUDGE => O.Correct

theorem Build.exists_contract (build : Build) : ∃ O, build.Contract O := by
  cases build with
  | SEEM => exact ⟨_, Oracle.cheapest_optimal⟩
  | IAQ => exact ⟨_, Oracle.exhaustive_correct⟩
  | EEE => exact ⟨_, Oracle.exhaustive_correct⟩
  | SEE => exact ⟨_, Oracle.exhaustive_correct⟩
  | FUDGE => exact ⟨_, Oracle.exhaustive_correct⟩

/-- The frameworks on which the answer of a build does not depend on its solver. -/
def Build.Decides {α : Type*} (build : Build) (att : α → α → Prop) : Prop :=
  match build with
  | .FUDGE => SeparatedByArguments att
  | .IAQ | .EEE | .SEE | .SEEM => True

/-- Apart from FUDGE every build decides every framework. -/
theorem Build.decides_of_ne {build : Build} (h : build ≠ .FUDGE) {α : Type*}
    (att : α → α → Prop) : build.Decides att := by
  cases build with
  | FUDGE => exact absurd rfl h
  | IAQ => trivial
  | EEE => trivial
  | SEE => trivial
  | SEEM => trivial

/-- The sets of arguments that a build may print for a problem. FUDGE is bound to the right
one only if it decides the framework, and to undisputed arguments in any case. -/
structure Build.Allows {α : Type*} (build : Build) (task : Task) (sem : Semantics)
    (att : α → α → Prop) (S : Set α) : Prop where
  eq_of_decides : build.Decides att → S = task.accepts sem att
  undisputed : build = .FUDGE → ∀ x ∈ S, Undisputed att x

/-- The builds that print in the order of the input. -/
def Build.InOrder (build : Build) (task : Task) : Prop :=
  build = .IAQ ∨ task = .ES ∧ build ≠ .FUDGE

theorem Build.InOrder.ne_fudge {build : Build} {task : Task} (h : build.InOrder task) :
    build ≠ .FUDGE := by
  intro hfudge
  subst hfudge
  cases h with
  | inl hIAQ => cases hIAQ
  | inr hES => exact hES.2 rfl

/-- A tgf text has the line that separates the arguments from the attacks. -/
def Separated (fileformat : String) (text : List Char) : Prop :=
  fileformat = "tgf" →
    ['#'] ∈ InStream.words isSpace text ∨ InStream.words isSpace text = []

/-- The text has a supported format, gives the vectors their sizes, states its attacks in
full, repeats no name and is small enough for the 32-bit integers of the program. -/
structure WellFormed (fileformat : String) (text : List Char) : Prop where
  supported : fileformat ∈ ["", "i23", "tgf"]
  separated : Separated fileformat text
  stated : fileformat ≠ "tgf" →
    ∀ pre line post, lines text = pre ++ line :: post → ¬ Phantom pre line
  distinct : (describe fileformat text).names.Nodup
  small : 4 * (describe fileformat text).names.length + text.length < 2 ^ 31

/-! ## Listed problems -/

def Build.supported : Build → List (Task × Semantics)
  | .IAQ | .EEE => [(.EC, .CO), (.EC, .PR), (.EC, .ST), (.ES, .ST), (.ES, .PR)]
  | .SEE | .SEEM => [(.EC, .CO), (.EC, .PR), (.EC, .ST), (.ES, .ST)]
  | .FUDGE => [(.ES, .PR)]

theorem advertised_supported (build : Build) :
    (advertised build).map (fun problem => (stringToTask problem, stringToSem problem)) =
      build.supported := by
  cases build <;> decide

theorem supported_of_advertised {build : Build} {problem : List Char}
    (h : problem ∈ advertised build) :
    (stringToTask problem, stringToSem problem) ∈ build.supported := by
  rw [← advertised_supported]
  exact List.mem_map_of_mem h

theorem supported_cases {build : Build} {task : Task} {sem : Semantics}
    (h : (task, sem) ∈ build.supported) :
    (task = .EC ∧ build ≠ .FUDGE ∧ (sem = .CO ∨ sem = .PR ∨ sem = .ST)) ∨
      task = .ES ∧ (sem = .ST ∧ build ≠ .FUDGE ∨ sem = .PR ∧ .PR ∈ skeptical build) := by
  revert h
  cases build <;> cases task <;> cases sem <;> decide

/-! ## The algorithms -/

/-- The list has the names of `S` once each, in index order if the build keeps it. -/
structure Answers (build : Build) (task : Task) (af : AF) (S : Set (Fin af.args))
    (answer : List String) : Prop where
  nodup : answer.Nodup
  mem_iff : ∀ s, s ∈ answer ↔ s ∈ namesOf af S
  in_order : build.InOrder task → answer = namesOf af S

section Algorithms

variable {perfEnc : Bool} {af : AF} (h : AF.Ready perfEnc af) (hnames : af.intToArg.Nodup)
  {O : Oracle} {build : Build} {fuel : Nat} (hfuel : 2 ^ af.args < fuel)

include h hnames

theorem answers_namesOf (task : Task) (S : Set (Fin af.args)) :
    Answers build task af S (namesOf af S) :=
  ⟨(reports_namesOf af S).nodup h hnames, fun _ => Iff.rfl, fun _ => rfl⟩

theorem Answers.of_reports (hbuild : build ≠ .IAQ) {S : Set (Fin af.args)} {answer : List String}
    (hr : Reports af S answer) : Answers build .EC af S answer := by
  refine ⟨hr.nodup h hnames, hr.mem_iff, fun horder => ?_⟩
  cases horder with
  | inl hIAQ => exact absurd hIAQ hbuild
  | inr hES => cases hES.1

theorem answers_of_ensures {x : SolveM (List String)} {task : Task} {S : Set (Fin af.args)}
    (hx : Ensures x [] (fun r _ => r = namesOf af S) (fun _ _ => False)) :
    Ensures x [] (fun r _ => Answers build task af S r) (fun _ _ => False) := by
  apply hx.post
  intro r w hr
  rw [hr]
  exact answers_namesOf h hnames task S

include hfuel

/-- The credulous arm of the switch. -/
theorem credulous_answers (argv0 : String) (hbuild : build ≠ .FUDGE) (hO : build.Contract O)
    {sem : Semantics} (hsem : sem = .CO ∨ sem = .PR ∨ sem = .ST) :
    Ensures (acceptableArguments build O perfEnc argv0 af .EC sem fuel) []
      (fun r _ => Answers build .EC af (⋃₀ sem.extensions af.att) r) (fun _ _ => False) := by
  obtain ⟨cs, hcs, hunion⟩ := encodeCred_members h hsem
  cases build with
  | IAQ => exact hunion ▸ answers_of_ensures h hnames (iaqCred_ensures h hO hcs)
  | EEE =>
      apply (eeeCred_ensures h hO hcs hfuel).post
      intro r w hr
      exact .of_reports h hnames (by decide) (hunion ▸ hr)
  | SEE =>
      apply (seeCred_ensures h hO hcs hfuel).post
      intro r w hr
      exact .of_reports h hnames (by decide) (hunion ▸ hr)
  | SEEM =>
      apply (seemCred_ensures h hO hsem (Nat.lt_two_pow_self.trans hfuel)).post
      intro r w hr
      exact .of_reports h hnames (by decide) hr
  | FUDGE => exact absurd rfl hbuild

omit hnames in
theorem eeeSkep_ST_ensures (hO : O.Correct) (w : List Event) :
    Ensures (eeeSkep O perfEnc af .ST fuel) w
      (fun r _ => r = namesOf af (⋂₀ {S | Stable af.att S})) (fun _ _ => False) := by
  apply ensures_bind
  apply (eeeSkepRoundsST_ensures h hO hfuel).post
  intro x w' hx
  obtain ⟨rounds, included⟩ := x
  obtain ⟨-, -, q, hq, hset⟩ := hx
  subst hq
  exact ensures_bounds (includedNames_sInter h hset) rfl

/-- The skeptical arm under stable semantics. -/
theorem stable_answers (argv0 : String) (hbuild : build ≠ .FUDGE) (hO : build.Contract O) :
    Ensures (acceptableArguments build O perfEnc argv0 af .ES .ST fuel) []
      (fun r _ => Answers build .ES af (⋂₀ {S | Stable af.att S}) r) (fun _ _ => False) := by
  apply answers_of_ensures h hnames
  cases build with
  | IAQ => exact iaqSkep_ST_ensures h hO fuel
  | EEE => exact eeeSkep_ST_ensures h hfuel hO []
  | SEE => exact seeSkep_ensures h hO hfuel
  | SEEM => exact seemSkep_ensures h hO (Nat.lt_two_pow_self.trans hfuel)
  | FUDGE => exact absurd rfl hbuild

/-- The skeptical arm under preferred semantics, apart from FUDGE. -/
theorem preferred_answers (argv0 : String) (hbuild : build = .IAQ ∨ build = .EEE)
    (hO : build.Contract O) :
    Ensures (acceptableArguments build O perfEnc argv0 af .ES .PR fuel) []
      (fun r _ => Answers build .ES af {i | Skeptical af.att i} r) (fun _ _ => False) := by
  apply answers_of_ensures h hnames
  rcases hbuild with rfl | rfl
  · exact iaqSkep_PR_ensures h hO hfuel
  · exact eeeSkep_PR_ensures h hO hfuel

omit hnames in
/-- FUDGE reports the arguments that its search has accepted. -/
theorem fudge_allowed (argv0 : String) (hnames : af.intToArg.Nodup) (hO : O.Correct) :
    Ensures (acceptableArguments .FUDGE O perfEnc argv0 af .ES .PR fuel) []
      (fun r _ => ∃ S, Build.FUDGE.Allows .ES .PR af.att S ∧ Answers .FUDGE .ES af S r)
      (fun _ _ => False) := by
  apply (fudgeSkep_ensures h hO (prefers_empty O af.args)
    (Nat.lt_two_pow_self.trans hfuel)).post
  intro r w hr
  obtain ⟨T, C, hsearched, hend, hreports⟩ := hr
  refine ⟨T, ⟨fun hsep => hsearched.eq_skeptical hsep hend, fun _ => hsearched.undisputed⟩,
    hreports.nodup h hnames, hreports.mem_iff, fun horder => absurd rfl horder.ne_fudge⟩

/-- A listed problem is answered on every framework, and rightly if the build decides it. -/
theorem acceptableArguments_allowed (argv0 : String) (hO : build.Contract O) {task : Task}
    {sem : Semantics} (hlisted : (task, sem) ∈ build.supported) :
    Ensures (acceptableArguments build O perfEnc argv0 af task sem fuel) []
      (fun r _ => ∃ S, build.Allows task sem af.att S ∧ Answers build task af S r)
      (fun _ _ => False) := by
  by_cases hfudge : build = .FUDGE
  · subst hfudge
    have hproblem : task = .ES ∧ sem = .PR := by simpa [Build.supported] using hlisted
    obtain ⟨rfl, rfl⟩ := hproblem
    exact fudge_allowed h hfuel argv0 hnames hO
  · have hanswers : Ensures (acceptableArguments build O perfEnc argv0 af task sem fuel) []
        (fun r _ => Answers build task af (task.accepts sem af.att) r) (fun _ _ => False) := by
      cases supported_cases hlisted with
      | inl hEC =>
          obtain ⟨rfl, hbuild, hsem⟩ := hEC
          exact credulous_answers h hnames hfuel argv0 hbuild hO hsem
      | inr hES =>
          obtain ⟨rfl, ⟨rfl, hbuild⟩ | ⟨rfl, hbuild⟩⟩ := hES
          · exact stable_answers h hnames hfuel argv0 hbuild hO
          · refine preferred_answers h hnames hfuel argv0 ?_ hO
            revert hbuild hfudge
            cases build <;> decide
    apply hanswers.post
    intro r w hr
    exact ⟨_, ⟨fun _ => rfl, fun heq => absurd heq hfudge⟩, hr⟩

end Algorithms

/-! ## From indices to names -/

theorem extensions_preimage {α β : Type*} {r : α → α → Prop} {s : β → β → Prop} (e : r ≃r s)
    (sem : Semantics) (T : Set β) :
    Set.preimage e T ∈ sem.extensions r ↔ T ∈ sem.extensions s := by
  cases sem with
  | CO => exact complete_preimage e
  | PR => exact preferred_preimage e
  | ST => exact stable_preimage e
  | UNKNOWN_SEM => exact Iff.rfl

theorem accepts_map {α β : Type*} {r : α → α → Prop} {s : β → β → Prop} (e : r ≃r s)
    (task : Task) (sem : Semantics) {x : α} :
    e x ∈ task.accepts sem s ↔ x ∈ task.accepts sem r := by
  cases task with
  | EC => exact mem_sUnion_preimage e (extensions_preimage e sem)
  | ES => exact mem_sInter_preimage e (extensions_preimage e sem)
  | UNKNOWN_TASK => exact Iff.rfl

theorem Build.decides_iff {α β : Type*} {r : α → α → Prop} {s : β → β → Prop} (e : r ≃r s)
    (build : Build) : build.Decides r ↔ build.Decides s := by
  cases build with
  | FUDGE => exact separatedByArguments_iff e
  | IAQ => exact Iff.rfl
  | EEE => exact Iff.rfl
  | SEE => exact Iff.rfl
  | SEEM => exact Iff.rfl

/-- What a build may print is not a matter of the names. -/
theorem Build.Allows.map {α β : Type*} {r : α → α → Prop} {s : β → β → Prop} (e : r ≃r s)
    {build : Build} {task : Task} {sem : Semantics} {S : Set α} (h : build.Allows task sem r S) :
    build.Allows task sem s (Set.image e S) where
  eq_of_decides hdecides := by
    rw [h.eq_of_decides ((build.decides_iff e).mpr hdecides)]
    ext y
    obtain ⟨x, rfl⟩ := e.surjective y
    rw [e.injective.mem_set_image, accepts_map e]
  undisputed hbuild y hy := by
    obtain ⟨x, hx, rfl⟩ := hy
    exact undisputed_map e (h.undisputed hbuild x hx)

open Classical in
/-- The accepted names in the order of the input. -/
noncomputable def acceptedInOrder (D : Description) (task : Task) (sem : Semantics) :
    List String :=
  D.names.filter (· ∈ accepted D task sem)

section Names

variable {af : AF} {D : Description} (h : Depicts af D) (hlen : af.intToArg.length = af.args)
  (hnodup : D.names.Nodup) (task : Task) (sem : Semantics)

include h hlen hnodup

theorem name_eq_equiv (i : Fin af.args) : af.name i = (h.equiv hlen hnodup i).val := by
  rw [AF.name, List.getD_eq_getElem?_getD, h.intToArg_get hlen hnodup i, Option.getD_some]

theorem name_mem_accepted (i : Fin af.args) :
    af.name i ∈ accepted D task sem ↔ i ∈ task.accepts sem af.att := by
  rw [← accepts_map (h.iso hlen hnodup), name_eq_equiv h hlen hnodup]
  constructor
  · intro hx
    obtain ⟨_, hx⟩ := hx
    exact hx
  · intro hx
    exact ⟨(h.equiv hlen hnodup i).2, hx⟩

omit task sem in
/-- The names of a set of indices are the described arguments. -/
theorem mem_namesOf_iff_image {S : Set (Fin af.args)} {s : String} :
    s ∈ namesOf af S ↔
      s ∈ Set.image Subtype.val (Set.image (h.iso hlen hnodup) S) := by
  rw [mem_namesOf, Set.image_image]
  constructor
  · intro hs
    obtain ⟨i, hi, hname⟩ := hs
    exact ⟨i, hi, (name_eq_equiv h hlen hnodup i).symm.trans hname⟩
  · intro hs
    obtain ⟨i, hi, hname⟩ := hs
    exact ⟨i, hi, (name_eq_equiv h hlen hnodup i).trans hname⟩

theorem namesOf_accepts : namesOf af (task.accepts sem af.att) = acceptedInOrder D task sem := by
  classical
  have hall : D.names = (List.finRange af.args).map fun i : Fin af.args => af.name i := by
    rw [← h.intToArg_eq]
    apply List.ext_getElem?
    intro i
    by_cases hi : i < af.args
    · simp [AF.name, hi, hlen]
    · simp [hi, hlen]
  rw [acceptedInOrder, hall, List.filter_map, namesOf]
  congr 1
  apply List.filter_congr
  intro i _
  simp [name_mem_accepted h hlen hnodup task sem i]

end Names

theorem mem_acceptedInOrder {D : Description} {task : Task} {sem : Semantics} {s : String} :
    s ∈ acceptedInOrder D task sem ↔ s ∈ accepted D task sem := by
  classical
  simp only [acceptedInOrder, List.mem_filter, decide_eq_true_eq]
  exact and_iff_right_of_imp fun hs => hs.1

/-! ## Reading well-formed texts -/

/-- A header that overflows declares too many names. -/
theorem length_of_overflows {ls : List (List Char)} (h : Overflows ls) :
    2 ^ 31 - 1 ≤ (i23Names ls).length := by
  have hstep : ∀ st line, st.2.length ≤ (declareLine st line).2.length := by
    intro st line
    unfold declareLine
    split
    · simp
    · exact Nat.le_refl _
  unfold i23Names
  induction ls using List.reverseRecOn with
  | nil => simp [Overflows] at h
  | append_singleton ls line ih =>
      rw [List.foldl_append, List.foldl_cons, List.foldl_nil]
      rw [overflows_append] at h
      cases h with
      | inl h => exact (ih h).trans (hstep _ _)
      | inr h =>
          obtain ⟨l, hl, hheader, t, ht, hnum⟩ := h
          rw [List.mem_singleton.mp hl] at hheader ht
          rw [declareLine, if_pos hheader]
          simp [headerCount, ht, hnum, arguments]

theorem WellFormed.not_overflows {fileformat : String} {text : List Char}
    (h : WellFormed fileformat text) (htgf : fileformat ≠ "tgf") : ¬ Overflows (lines text) := by
  intro hover
  have hlen := length_of_overflows hover
  have hsmall := h.small
  rw [describe, if_neg htgf, describeI23] at hsmall
  simp only at hsmall
  omega

/-- Whatever a separated text says, what is read from it is in shape. -/
theorem Separated.shape {fileformat : String} {text : List Char} (h : Separated fileformat text)
    {aaf : AF} (haaf : Reads fileformat text aaf) : AF.Shape aaf ∧ aaf.count = 0 := by
  cases supported_of_reads haaf with
  | inl htgf =>
      subst htgf
      have hframework := reads_tgf_iff.mp haaf
      have hcount := (sameNames_of_tgfFramework hframework).count_eq
      rw [(AF.named_foldl_addArgument _).count_eq] at hcount
      exact ⟨shape_of_tgfFramework (h rfl) hframework, hcount⟩
  | inr hi23 => exact shape_of_reads_i23 hi23.2

/-- What is read from a separated text can be given to the algorithms. -/
theorem Separated.ready {fileformat : String} {text : List Char}
    (h : Separated fileformat text) {aaf : AF} (haaf : Reads fileformat text aaf)
    (perfEnc : Bool) : AF.Ready perfEnc (aaf.initializeVars perfEnc) := by
  obtain ⟨hshape, hcount⟩ := h.shape haaf
  exact AF.ready_initializeVars perfEnc hshape hcount

/-! ## Fuel -/

section Fuel

variable {fuel fuel' : Nat} (hfuel : fuel ≤ fuel')

include hfuel

theorem readInput_approximates (argv0 fileformat : String) :
    Approximates (readInput argv0 fileformat fuel) (readInput argv0 fileformat fuel') := by
  unfold readInput
  dsimp only
  generalize (if fileformat = "" then "i23" else fileformat) = format
  split
  · exact (Approximates.whileTrue (fun b => approximates_refl (i23Round b)) hfuel _).bind
      fun _ => approximates_refl _
  · split
    · refine Approximates.bind ?_ fun _ => approximates_refl _
      apply (Approximates.whileTrue (fun b => approximates_refl (tgfArgRound b)) hfuel _).bind
      intro b
      exact Approximates.whileTrue (fun b => approximates_refl (tgfAttackRound b)) hfuel b
    · exact approximates_refl _

theorem acceptableArguments_approximates (build : Build) (O : Oracle) (perfEnc : Bool)
    (argv0 : String) (aaf : AF) (task : Task) (sem : Semantics) :
    Approximates (acceptableArguments build O perfEnc argv0 aaf task sem fuel)
      (acceptableArguments build O perfEnc argv0 aaf task sem fuel') := by
  cases task with
  | UNKNOWN_TASK => exact approximates_refl _
  | EC =>
      cases build with
      | IAQ => exact approximates_refl _
      | EEE => exact eeeCred_approximates hfuel O perfEnc aaf sem
      | SEE => exact seeCred_approximates hfuel O perfEnc aaf sem
      | SEEM => exact seemCred_approximates hfuel O perfEnc aaf sem
      | FUDGE => exact approximates_refl _
  | ES =>
      cases build with
      | IAQ => exact iaqSkep_approximates hfuel O perfEnc aaf sem
      | EEE => exact eeeSkep_approximates hfuel O perfEnc aaf sem
      | SEE => exact seeSkep_approximates hfuel O aaf sem
      | SEEM => exact seemSkep_approximates hfuel O aaf sem
      | FUDGE =>
          unfold acceptableArguments fudgeRun
          dsimp only
          split
          · exact approximates_refl _
          · exact fudgeSkep_approximates hfuel O aaf

theorem printLoop_mono {extension : List String} {i : Nat} {text : List Char}
    (h : printLoop extension fuel i = some text) : printLoop extension fuel' i = some text := by
  induction fuel generalizing fuel' i text with
  | zero => cases h
  | succ fuel ih =>
      obtain ⟨more, rfl⟩ : ∃ more, fuel' = more + 1 := ⟨fuel' - 1, by omega⟩
      rw [printLoop] at h ⊢
      cases hget : extension[i]? with
      | none =>
          rw [hget] at h
          exact h
      | some arg =>
          rw [hget] at h
          obtain ⟨rest, hrest, hend⟩ := Option.bind_eq_some_iff.mp h
          exact Option.bind_eq_some_iff.mpr
            ⟨rest, ih (Nat.le_of_succ_le_succ hfuel) hrest, hend⟩

theorem solveProblem_mono {build : Build} {O : Oracle} {perfEnc : Bool} {argv0 : String}
    {task : List Char} {aaf : AF} {out : Outcome}
    (h : solveProblem build O perfEnc argv0 task fuel aaf = .ok out) :
    solveProblem build O perfEnc argv0 task fuel' aaf = .ok out := by
  unfold solveProblem solveWith Build.computation at h ⊢
  have happrox := acceptableArguments_approximates hfuel build O perfEnc argv0
    (aaf.initializeVars perfEnc) (stringToTask task) (stringToSem task)
  have hrun := happrox.run_eq (s := []) (by
    intro hout
    rw [hout] at h
    cases h)
  rw [hrun]
  split at h
  · cases h
  · cases h
  · exact h
  · rename_i extension _ _
    cases hprint : printExtensionEe fuel extension with
    | none =>
        rw [hprint] at h
        cases h
    | some text =>
        obtain ⟨inner, hinner, hend⟩ := Option.bind_eq_some_iff.mp hprint
        have hmore : printExtensionEe fuel' extension = some text :=
          Option.bind_eq_some_iff.mpr ⟨inner, printLoop_mono hfuel hinner, hend⟩
        rw [hprint] at h
        rw [hmore]
        exact h

/-- More fuel does not change how a run ends. -/
theorem mainProgram_mono {build : Build} {O : Oracle} {perfEnc : Bool} {opts : Options}
    {input : Option (List Char)} {out : Outcome}
    (h : mainProgram build O perfEnc opts input fuel = .ok out) :
    mainProgram build O perfEnc opts input fuel' = .ok out := by
  unfold mainProgram programWith at h ⊢
  iterate 8
    split at h
    · rename_i hcond
      rw [if_pos hcond]
      exact h
    rename_i hcond
    rw [if_neg hcond]
    clear hcond
  cases input with
  | none => exact h
  | some text =>
      dsimp only at h ⊢
      have hrun := (readInput_approximates hfuel opts.argv0 opts.fileformat).run_eq
        (s := InStream.ofText text) (by
          intro hout
          rw [hout] at h
          cases h)
      rw [hrun]
      split at h
      · cases h
      · cases h
      · cases h
      · exact h
      · exact solveProblem_mono hfuel h

end Fuel

/-- A run ends in one way only. -/
theorem ends_iff_of_mainProgram {build : Build} {O : Oracle} {perfEnc : Bool} {opts : Options}
    {text : List Char} {fuel : Nat} {out out' : Outcome}
    (h : mainProgram build O perfEnc opts (some text) fuel = .ok out) :
    Ends build O perfEnc opts text out' ↔ out' = out := by
  constructor
  · intro hends
    obtain ⟨fuel', h'⟩ := hends
    have heq : Except.ok out = (Except.ok out' : Except Stuck Outcome) :=
      (mainProgram_mono (Nat.le_max_left fuel fuel') h).symm.trans
        (mainProgram_mono (Nat.le_max_right fuel fuel') h')
    cases heq
    rfl
  · intro heq
    rw [heq]
    exact ⟨fuel, h⟩

/-! ## The program -/

/-- What is written to the standard output for a list of names. -/
def printed (answer : List String) : Outcome :=
  ⟨0, '[' :: joined answer ++ [']', '\n'], []⟩

theorem printExtensionEe_eq {answer : List String} {fuel : Nat} (hlen : answer.length < 2 ^ 32)
    (hfuel : answer.length < fuel) :
    printExtensionEe fuel answer = some ('[' :: joined answer ++ [']']) := by
  rw [printExtensionEe, printLoop_eq hlen fuel (Nat.zero_le _), if_pos (by omega)]
  rfl

theorem solveProblem_eq {build : Build} {O : Oracle} {perfEnc : Bool} {argv0 : String}
    {task : List Char} {fuel : Nat} {aaf : AF} {answer : List String} {log : List Event}
    (hrun : acceptableArguments build O perfEnc argv0 (aaf.initializeVars perfEnc)
      (stringToTask task) (stringToSem task) fuel [] = (.ok answer, log))
    (hlen : answer.length < 2 ^ 32) (hfuel : answer.length < fuel) :
    solveProblem build O perfEnc argv0 task fuel aaf = .ok (printed answer) := by
  rw [solveProblem, solveWith, Build.computation, hrun]
  simp [printExtensionEe_eq hlen hfuel, printed, commentText]

/-- A well-formed text is read, with every bound that is large enough, into the framework
that it describes. -/
theorem WellFormed.exists_framework {opts : Options} {text : List Char}
    (h : WellFormed opts.fileformat text) (perfEnc : Bool) :
    ∃ fuel₀ aaf, (∀ fuel ≥ fuel₀,
        (readInput opts.argv0 opts.fileformat fuel (InStream.ofText text)).1 = .ok aaf) ∧
      AF.Ready perfEnc (aaf.initializeVars perfEnc) ∧
      Depicts (aaf.initializeVars perfEnc) (describe opts.fileformat text) := by
  obtain ⟨fuel₀, aaf, hread⟩ := (exists_readInput_iff h.supported).mpr h.not_overflows
  have haaf : Reads opts.fileformat text aaf := ⟨opts.argv0, fuel₀, _, Prod.ext hread rfl⟩
  refine ⟨fuel₀, aaf, fun fuel hfuel => ?_, h.separated.ready haaf perfEnc,
    (depicts_of_reads haaf h.stated).initializeVars perfEnc⟩
  rw [(readInput_approximates hfuel opts.argv0 opts.fileformat).run_eq (by rw [hread]; simp)]
  exact hread

theorem ne_nil_of_advertised {build : Build} {problem : List Char}
    (h : problem ∈ advertised build) : problem ≠ [] := by
  intro hnil
  subst hnil
  revert h
  cases build <;> decide

/-- The answer to a problem: the names of a set that the build may print, each of them once,
and in the order of the input if the build keeps it. -/
structure Build.AnswerTo (build : Build) (D : Description) (task : Task) (sem : Semantics)
    (S : Set D.Arg) (answer : List String) : Prop where
  allowed : build.Allows task sem D.att S
  nodup : answer.Nodup
  mem_iff : ∀ s, s ∈ answer ↔ s ∈ Set.image Subtype.val S
  in_order : build.InOrder task → answer = acceptedInOrder D task sem

theorem Build.AnswerTo.mem_accepted {build : Build} {D : Description} {task : Task}
    {sem : Semantics} {S : Set D.Arg} {answer : List String}
    (h : build.AnswerTo D task sem S answer) (hdecides : build.Decides D.att) (s : String) :
    s ∈ answer ↔ s ∈ accepted D task sem := by
  rw [h.mem_iff, h.allowed.eq_of_decides hdecides]
  constructor
  · intro hs
    obtain ⟨x, hx, rfl⟩ := hs
    exact ⟨x.2, hx⟩
  · intro hs
    obtain ⟨hs, hx⟩ := hs
    exact ⟨⟨s, hs⟩, hx, rfl⟩

section Program

variable {build : Build} (perfEnc : Bool) {opts : Options} {problem : List Char}
  (hopts : opts.Asks problem) (hlisted : problem ∈ advertised build) {text : List Char}
  (htext : WellFormed opts.fileformat text)

include hopts hlisted htext

/-- On a well-formed text there is fuel that is enough for every solver. -/
theorem exists_fuel_answers :
    ∃ fuel, ∀ O, build.Contract O → ∃ S answer,
      build.AnswerTo (describe opts.fileformat text) (stringToTask problem)
        (stringToSem problem) S answer ∧
      mainProgram build O perfEnc opts (some text) fuel = .ok (printed answer) := by
  obtain ⟨fuel₀, aaf, hread, hready, hdepicts⟩ := htext.exists_framework perfEnc
  set D := describe opts.fileformat text with hD
  have hlen := hready.intToArg_length
  have hargs := hdepicts.args_eq hlen
  have hnames : (aaf.initializeVars perfEnc).intToArg.Nodup :=
    hdepicts.intToArg_eq ▸ htext.distinct
  -- Enough for the reader, for the algorithm and for the loop that prints.
  set fuel := fuel₀ + 2 ^ (aaf.initializeVars perfEnc).args + 1 with hfuel
  have hpow : (aaf.initializeVars perfEnc).args < 2 ^ (aaf.initializeVars perfEnc).args :=
    Nat.lt_two_pow_self
  have hmore : fuel₀ ≤ fuel := by omega
  have henough : 2 ^ (aaf.initializeVars perfEnc).args < fuel := by omega
  refine ⟨fuel, fun O hO => ?_⟩
  obtain ⟨answer, log, hrun, S, hallowed, hanswers⟩ := (acceptableArguments_allowed hready hnames
    henough opts.argv0 hO (supported_of_advertised hlisted)).exists_ok
  have hmem : ∀ s, s ∈ answer ↔ s ∈ Set.image Subtype.val
      (Set.image (hdepicts.iso hlen htext.distinct) S) := fun s =>
    (hanswers.mem_iff s).trans (mem_namesOf_iff_image hdepicts hlen htext.distinct)
  have horder : build.InOrder (stringToTask problem) →
      answer = acceptedInOrder D (stringToTask problem) (stringToSem problem) := by
    intro horder
    rw [hanswers.in_order horder, hallowed.eq_of_decides (Build.decides_of_ne horder.ne_fudge _),
      namesOf_accepts hdepicts hlen htext.distinct]
  have hshort : answer.length ≤ D.names.length := by
    apply (hanswers.nodup.subperm fun s hs => ?_).length_le
    obtain ⟨x, -, rfl⟩ := (hmem s).mp hs
    exact x.2
  have hsmall := htext.small
  rw [← hD] at hsmall
  have hmain : mainProgram build O perfEnc opts (some text) fuel = .ok (printed answer) := by
    rw [mainProgram_eq hopts (ne_nil_of_advertised hlisted), hread fuel hmore]
    exact solveProblem_eq hrun (by omega) (by omega)
  exact ⟨_, answer, ⟨hallowed.map (hdepicts.iso hlen htext.distinct), hanswers.nodup, hmem,
    horder⟩, hmain⟩

/-- The run on a well-formed text ends with the answer of the algorithm. -/
theorem ends_with_answer {O : Oracle} (hO : build.Contract O) :
    ∃ S answer, build.AnswerTo (describe opts.fileformat text) (stringToTask problem)
        (stringToSem problem) S answer ∧
      ∀ out, Ends build O perfEnc opts text out ↔ out = printed answer := by
  obtain ⟨fuel, hfuel⟩ := exists_fuel_answers perfEnc hopts hlisted htext
  obtain ⟨S, answer, hanswer, hmain⟩ := hfuel O hO
  exact ⟨S, answer, hanswer, fun out => ends_iff_of_mainProgram hmain⟩

end Program

/-- On every well-formed text every build ends and prints, for each problem that it lists,
the arguments of the described framework that the problem asks for, each of them once.
For FUDGE the framework has to be one whose answer does not depend on the solver. -/
theorem program_prints_accepted (build : Build) (O : Oracle) (hO : build.Contract O)
    (perfEnc : Bool) (opts : Options) (problem : List Char) (hopts : opts.Asks problem)
    (hlisted : problem ∈ advertised build) (text : List Char)
    (htext : WellFormed opts.fileformat text)
    (hdecides : build.Decides (describe opts.fileformat text).att) :
    ∃ answer : List String, answer.Nodup ∧
      (∀ s, s ∈ answer ↔ s ∈ accepted (describe opts.fileformat text) (stringToTask problem)
        (stringToSem problem)) ∧
      ∀ out, Ends build O perfEnc opts text out ↔ out = printed answer := by
  obtain ⟨S, answer, hanswer, hends⟩ := ends_with_answer perfEnc hopts hlisted htext hO
  exact ⟨answer, hanswer.nodup, hanswer.mem_accepted hdecides, hends⟩

/-- One attack between two arguments. -/
theorem wellFormed_attack : WellFormed "" "p af 2\n1 2".toList := by
  have hnames : (describe "" "p af 2\n1 2".toList).names = ["1", "2"] := by decide
  refine ⟨by decide, fun htgf => absurd htgf (by decide), fun _ pre line post hlines => ?_, ?_, ?_⟩
  · -- Both lines have two words.
    intro hphantom
    have hwords : ∀ l ∈ lines "p af 2\n1 2".toList,
        ¬ (InStream.words isSpace l).length < 2 := by decide
    exact hwords line (by rw [hlines]; simp) hphantom.2
  · rw [hnames]
    decide
  · rw [hnames]
    decide

theorem program_prints_accepted_attack :
    WellFormed "" "p af 2\n1 2".toList ∧ ∃ answer : List String, answer.Nodup ∧
      (∀ s, s ∈ answer ↔ s ∈ accepted (describe "" "p af 2\n1 2".toList) .EC .CO) ∧
      ∀ out, Ends .SEE Oracle.exhaustive false (plainOptions "EC-CO".toList)
        "p af 2\n1 2".toList out ↔ out = printed answer :=
  ⟨wellFormed_attack, program_prints_accepted .SEE Oracle.exhaustive Oracle.exhaustive_correct
    false (plainOptions "EC-CO".toList) "EC-CO".toList (plainOptions_asks _) (by decide) _
    wellFormed_attack trivial⟩

/-- IAQ always and all builds but FUDGE for the skeptical problems print the accepted names
in the order of the input. Their output is therefore the same text, whatever the solver
answers and whichever encoding is compiled in. -/
theorem program_output_determined (build : Build) (O : Oracle) (hO : build.Contract O)
    (perfEnc : Bool) (opts : Options) (problem : List Char) (hopts : opts.Asks problem)
    (hlisted : problem ∈ advertised build) (horder : build.InOrder (stringToTask problem))
    (text : List Char) (htext : WellFormed opts.fileformat text) (out : Outcome) :
    Ends build O perfEnc opts text out ↔
      out = printed (acceptedInOrder (describe opts.fileformat text) (stringToTask problem)
        (stringToSem problem)) := by
  obtain ⟨S, answer, hanswer, hends⟩ := ends_with_answer perfEnc hopts hlisted htext hO
  rw [hends, hanswer.in_order horder]

/-- SEEM without PERF_ENC and IAQ with it. -/
theorem program_output_determined_seem_iaq :
    Ends .SEEM Oracle.cheapest false (plainOptions "ES-ST".toList) "p af 2\n1 2".toList =
      Ends .IAQ Oracle.exhaustive true (plainOptions "ES-ST".toList) "p af 2\n1 2".toList := by
  funext out
  rw [program_output_determined .SEEM Oracle.cheapest Oracle.cheapest_optimal false
      (plainOptions "ES-ST".toList) "ES-ST".toList (plainOptions_asks _) (by decide)
      (Or.inr ⟨by decide, by decide⟩) _ wellFormed_attack,
    program_output_determined .IAQ Oracle.exhaustive Oracle.exhaustive_correct true
      (plainOptions "ES-ST".toList) "ES-ST".toList (plainOptions_asks _) (by decide)
      (Or.inl rfl) _ wellFormed_attack]

/-! ## Comparing with another solver -/

theorem plainName_argument (i : Nat) : PlainName (argument i) := by
  refine ⟨?_, fun c hc => ?_⟩
  · intro hempty
    exact Nat.toDigits_ne_nil (String.ofList_injective hempty)
  · rw [argument, String.toList_ofList] at hc
    have hdigit : c.isDigit = true := isDigit_of_mem_toDigits hc
    refine ⟨?_, ne_of_isDigit hdigit (by decide),
      ne_of_isDigit hdigit (by decide), ne_of_isDigit hdigit (by decide)⟩
    have hrange : 48 ≤ c.toNat ∧ c.toNat ≤ 57 := by
      simpa [Char.isDigit, UInt32.le_iff_toNat_le] using hdigit
    simp [isSpacePy]
    omega

/-- The names of an i23 text are numerals. -/
theorem plainName_of_mem_i23Names {ls : List (List Char)} {s : String} (h : s ∈ i23Names ls) :
    PlainName s := by
  unfold i23Names at h
  induction ls using List.reverseRecOn with
  | nil => cases h
  | append_singleton ls line ih =>
      rw [List.foldl_append, List.foldl_cons, List.foldl_nil] at h
      unfold declareLine at h
      split at h
      · cases List.mem_append.mp h with
        | inl h => exact ih h
        | inr h =>
            obtain ⟨i, -, rfl⟩ := List.mem_map.mp h
            exact plainName_argument i
      · exact ih h

/-- A list with the accepted names, and only with them, is what `validate.py` calls equal to
the output of the program. For FUDGE the framework has to be one whose answer does not depend
on the solver. -/
theorem validation_decides_answer (build : Build) (O : Oracle) (hO : build.Contract O)
    (perfEnc : Bool) (opts : Options) (problem : List Char) (hopts : opts.Asks problem)
    (hlisted : problem ∈ advertised build) (text : List Char)
    (htext : WellFormed opts.fileformat text)
    (hdecides : build.Decides (describe opts.fileformat text).att)
    (hplain : opts.fileformat = "tgf" →
      ∀ s ∈ (describe opts.fileformat text).names, PlainName s)
    (other : List String) (hother : ∀ s ∈ other, PlainName s) (content : List Char)
    (hwrites : Writes other content) :
    ∃ out, Ends build O perfEnc opts text out ∧ ∃ parsed parsed',
      parseFile out.stdout = some parsed ∧ parseFile content = some parsed' ∧
      (compareLists parsed parsed' = true ↔ ∀ s, s ∈ other ↔
        s ∈ accepted (describe opts.fileformat text) (stringToTask problem)
          (stringToSem problem)) := by
  obtain ⟨S, answer, hanswer, hends⟩ := ends_with_answer perfEnc hopts hlisted htext hO
  have hmem := hanswer.mem_accepted hdecides
  have hnames : ∀ s ∈ answer, PlainName s := by
    intro s hs
    obtain ⟨hs, -⟩ := (hmem s).mp hs
    by_cases htgf : opts.fileformat = "tgf"
    · exact hplain htgf s hs
    · rw [describe, if_neg htgf] at hs
      exact plainName_of_mem_i23Names hs
  obtain ⟨-, rfl⟩ := writes_iff.mp hwrites
  refine ⟨printed answer, (hends _).mpr rfl, pieces answer, pieces other, parseFile_eq hnames,
    parseFile_eq hother, ?_⟩
  rw [compareLists_iff, pieces_agree_iff hnames hother]
  constructor
  · intro hsame s
    rw [← hsame s, hmem s]
  · intro hsame s
    rw [hsame s, hmem s]

/-- The list without names is compared with the output of EEE. -/
theorem validation_decides_answer_empty :
    ∃ out, Ends .EEE Oracle.exhaustive true (plainOptions "ES-PR".toList)
      "p af 2\n1 2".toList out ∧ ∃ parsed parsed', parseFile out.stdout = some parsed ∧
      parseFile ['[', ']', '\n'] = some parsed' ∧
      (compareLists parsed parsed' = true ↔ ∀ s, s ∈ ([] : List String) ↔
        s ∈ accepted (describe "" "p af 2\n1 2".toList) .ES .PR) :=
  validation_decides_answer .EEE Oracle.exhaustive Oracle.exhaustive_correct true
    (plainOptions "ES-PR".toList) "ES-PR".toList (plainOptions_asks _) (by decide) _
    wellFormed_attack trivial (fun htgf => absurd htgf (by decide)) [] (by simp) _
    (writes_iff.mpr ⟨by simp, rfl⟩)

end AcceptableArguments.MainProgram
