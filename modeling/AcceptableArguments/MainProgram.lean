import AcceptableArguments.Readers.Frameworks

/-!
# The program behind its command line

Which problems a build supports is decided in three places: two parsers for the problem
string, the arms of the switch over the task that the build compiles in, and the checks of
the semantics in the algorithms. `print_problems` lists the problems independently of
them. Parsing the options is left to `getopt_long_only`; the model starts with its result.
-/

namespace AcceptableArguments.MainProgram

open AcceptableArguments.Sat Imperative Algorithms Readers

inductive Build where
  | IAQ | EEE | SEE | SEEM | FUDGE
  deriving DecidableEq, Repr

inductive Task where
  | EC | ES | UNKNOWN_TASK
  deriving DecidableEq, Repr

/-! ## Problems -/

/-- `string_to_task`; `substr(0, find("-"))` is the whole string if there is no `-`. -/
def stringToTask (problem : List Char) : Task :=
  let tmp := problem.takeWhile (· ≠ '-')
  if tmp = ['E', 'C'] then .EC
  else if tmp = ['E', 'S'] then .ES
  else .UNKNOWN_TASK

/-- `string_to_sem`; without a `-` the sum `npos + 1` is zero and nothing is erased. -/
def stringToSem (problem : List Char) : Semantics :=
  let problem := if '-' ∈ problem then (problem.dropWhile (· ≠ '-')).drop 1 else problem
  let tmp := problem.takeWhile (· ≠ '-')
  if tmp = ['C', 'O'] then .CO
  else if tmp = ['S', 'T'] then .ST
  else if tmp = ['P', 'R'] then .PR
  else .UNKNOWN_SEM

/-! ## Output -/

/-- The loop of `print_extension_ee`. The counter has 32 bits and the size 64, so a list
that the counter cannot reach the end of is printed for ever. -/
def printLoop (extension : List String) : Nat → Nat → Option (List Char)
  | 0, _ => none
  | fuel + 1, i =>
      match extension[i]? with
      | none => some []
      | some arg => do
          let comma := if i ≠ (extension.length + (2 ^ 64 - 1)) % 2 ^ 64 then [','] else []
          let rest ← printLoop extension fuel ((i + 1) % 2 ^ 32)
          return arg.toList ++ comma ++ rest

/-- `print_extension_ee`. -/
def printExtensionEe (fuel : Nat) (extension : List String) : Option (List Char) := do
  let inner ← printLoop extension fuel 0
  return '[' :: inner ++ [']']

def printUsage (solverName : String) : List Char :=
  ("Usage: " ++ solverName ++ " -p <task> -f <file> -fo <format> \n\n" ++
    "  <task>      computational problem; " ++
    "for a list of available problems use option --problems\n" ++
    "  <file>      input argumentation framework\n" ++
    "  <format>    file format for input AF; " ++
    "for a list of available formats use option --formats\n" ++
    "Options:\n" ++
    "  --help      Displays this help message.\n" ++
    "  --version   Prints version and author information.\n" ++
    "  --formats   Prints available file formats.\n" ++
    "  --problems  Prints available computational tasks.\n").toList

def printVersion (solverName : String) : List Char :=
  (solverName ++ " (version 1.0)\n" ++ "TODO\n").toList

def printFormats : List Char := "[tgf,i23]\n".toList

def printProblems : Build → List Char
  | .IAQ | .EEE => "[EC-CO,EC-PR,EC-ST,ES-ST,ES-PR]\n".toList
  | .SEE | .SEEM => "[EC-CO,EC-PR,EC-ST,ES-ST]\n".toList
  | .FUDGE => "[ES-PR]\n".toList

/-! ## The program -/

/-- The command line behind `getopt_long_only`; an unknown option is `badOption`. -/
structure Options where
  argc : Nat
  argv0 : String
  badOption : Bool
  versionFlag : Bool
  usageFlag : Bool
  formatsFlag : Bool
  problemsFlag : Bool
  task : List Char
  file : List Char
  fileformat : String

/-- How a run ends for its caller. -/
structure Outcome where
  status : Int
  stdout : List Char
  stderr : List Char
  deriving DecidableEq, Repr

/-- Why a run has no outcome: its fuel is used up, or its behaviour is undefined. -/
inductive Stuck where
  | outOfFuel
  | undefined
  deriving DecidableEq, Repr

/-- `std::cerr << argv[0] << ": Problem not supported!\n"; return 1;` -/
def notSupported {σ α : Type} (argv0 : String) : Run Fault σ α :=
  Run.throw (.exit 1 (argv0 ++ ": Problem not supported!\n"))

/-- The algorithms that every SAT solver can be linked with. -/
inductive SatAlgorithm where
  | IAQ | EEE | SEE
  deriving DecidableEq, Repr

section Switch

variable {Lib σ S : Type}

/-- The switch over the task in a build with IAQ, EEE or SEE. -/
def SatAlgorithm.run [SolverInterface Lib σ S] (alg : SatAlgorithm) (lib : Lib)
    (perfEnc : Bool) (argv0 : String) (aaf : AF) (task : Task) (sem : Semantics) (fuel : Nat) :
    Run Fault σ (List String) :=
  match task with
  | .EC =>
      match alg with
      | .IAQ => iaqCred lib perfEnc aaf sem
      | .EEE => eeeCred lib perfEnc aaf sem fuel
      | .SEE => seeCred lib perfEnc aaf sem fuel
  | .ES =>
      match alg with
      | .IAQ => iaqSkep lib perfEnc aaf sem fuel
      | .EEE => eeeSkep lib perfEnc aaf sem fuel
      | .SEE => seeSkep lib aaf sem fuel
  | .UNKNOWN_TASK => notSupported argv0

/-- The switch in the SEEM build. -/
def seemRun [MaxSatInterface Lib σ S] (lib : Lib) (perfEnc : Bool) (argv0 : String) (aaf : AF)
    (task : Task) (sem : Semantics) (fuel : Nat) : Run Fault σ (List String) :=
  match task with
  | .EC => seemCred lib perfEnc aaf sem fuel
  | .ES => seemSkep lib aaf sem fuel
  | .UNKNOWN_TASK => notSupported argv0

/-- The switch in the FUDGE build, where the credulous arm has no call. -/
def fudgeRun [ExtensionInterface Lib σ S] (lib : Lib) (argv0 : String) (aaf : AF) (task : Task)
    (sem : Semantics) (fuel : Nat) : Run Fault σ (List String) :=
  match task with
  | .EC => pure []
  | .ES => if sem ≠ .PR then unsupported sem else fudgeSkep lib aaf fuel
  | .UNKNOWN_TASK => notSupported argv0

end Switch

/-- The switch over the task with the arms that the build compiles in. -/
def acceptableArguments (build : Build) (O : Oracle) (perfEnc : Bool) (argv0 : String) (aaf : AF)
    (task : Task) (sem : Semantics) (fuel : Nat) : SolveM (List String) :=
  match build with
  | .IAQ => SatAlgorithm.IAQ.run O perfEnc argv0 aaf task sem fuel
  | .EEE => SatAlgorithm.EEE.run O perfEnc argv0 aaf task sem fuel
  | .SEE => SatAlgorithm.SEE.run O perfEnc argv0 aaf task sem fuel
  | .SEEM => seemRun O perfEnc argv0 aaf task sem fuel
  | .FUDGE => fudgeRun O argv0 aaf task sem fuel

/-- A line that a solver library writes to standard output, without the `c` in front. -/
abbrev CommentLine := {line : List Char // '\n' ∉ line}

def commentText (comments : List CommentLine) : List Char :=
  comments.flatMap fun line => 'c' :: (line.val ++ ['\n'])

/-- A way to compute the arguments, with what its solvers write to standard output. -/
abbrev Computation :=
  AF → Task → Semantics → Nat → Except (Halt Fault) (List String) × List CommentLine

/-- The part of `main` behind the reader. -/
def solveWith (compute : Computation) (perfEnc : Bool) (task : List Char) (fuel : Nat)
    (aaf : AF) : Except Stuck Outcome :=
  match compute (aaf.initializeVars perfEnc) (stringToTask task) (stringToSem task) fuel with
  | (.error .outOfFuel, _) => .error .outOfFuel
  | (.error (.error .outOfBounds), _) => .error .undefined
  | (.error (.error (.exit code message)), comments) =>
      .ok ⟨code, commentText comments, message.toList⟩
  | (.ok extension, comments) =>
      match printExtensionEe fuel extension with
      | none => .error .outOfFuel
      | some text => .ok ⟨0, commentText comments ++ (text ++ ['\n']), []⟩

/-- `main`. The input is the text of the file, if it can be opened. -/
def programWith (build : Build) (compute : Computation) (perfEnc : Bool) (opts : Options)
    (input : Option (List Char)) (fuel : Nat) : Except Stuck Outcome :=
  if opts.argc = 1 then .ok ⟨0, printVersion opts.argv0, []⟩
  else if opts.badOption then .ok ⟨1, [], []⟩
  else if opts.versionFlag then .ok ⟨0, printVersion opts.argv0, []⟩
  else if opts.usageFlag then .ok ⟨0, printUsage opts.argv0, []⟩
  else if opts.formatsFlag then .ok ⟨0, printFormats, []⟩
  else if opts.problemsFlag then .ok ⟨0, printProblems build, []⟩
  else if opts.task = [] then
    .ok ⟨1, [], (opts.argv0 ++ ": Task must be specified via -p flag\n").toList⟩
  else if opts.file = [] then
    .ok ⟨1, [], (opts.argv0 ++ ": Input file must be specified via -f flag\n").toList⟩
  else
    match input with
    | none => .ok ⟨1, [], (opts.argv0 ++ ": Cannot open input file\n").toList⟩
    | some text =>
        match (readInput opts.argv0 opts.fileformat fuel (InStream.ofText text)).1 with
        | .error .outOfFuel => .error .outOfFuel
        | .error (.error .outOfBounds) => .error .undefined
        | .error (.error .overflow) => .error .undefined
        | .error (.error (.exit code message)) => .ok ⟨code, [], message.toList⟩
        | .ok aaf => solveWith compute perfEnc opts.task fuel aaf

/-- The algorithm of a build on solvers that write nothing. -/
def Build.computation (build : Build) (O : Oracle) (perfEnc : Bool) (argv0 : String) :
    Computation := fun aaf task sem fuel =>
  ((acceptableArguments build O perfEnc argv0 aaf task sem fuel []).1, [])

/-- The part of `main` behind the reader, with an oracle for the solvers. -/
def solveProblem (build : Build) (O : Oracle) (perfEnc : Bool) (argv0 : String)
    (task : List Char) (fuel : Nat) (aaf : AF) : Except Stuck Outcome :=
  solveWith (build.computation O perfEnc argv0) perfEnc task fuel aaf

/-- `main` with an oracle for the solvers. -/
def mainProgram (build : Build) (O : Oracle) (perfEnc : Bool) (opts : Options)
    (input : Option (List Char)) (fuel : Nat) : Except Stuck Outcome :=
  programWith build (build.computation O perfEnc opts.argv0) perfEnc opts input fuel

/-! ## Support -/

/-- The problems between the brackets that `--problems` prints. -/
def advertised (build : Build) : List (List Char) :=
  (((printProblems build).drop 1).takeWhile (· ≠ ']')).splitOn ','

/-- The options `-p` with this problem and `-f` with a file, and none that only prints. -/
structure Options.Asks (opts : Options) (problem : List Char) : Prop where
  argc_ne : opts.argc ≠ 1
  badOption_eq : opts.badOption = false
  versionFlag_eq : opts.versionFlag = false
  usageFlag_eq : opts.usageFlag = false
  formatsFlag_eq : opts.formatsFlag = false
  problemsFlag_eq : opts.problemsFlag = false
  task_eq : opts.task = problem
  file_ne : opts.file ≠ []

/-- The run ends with this outcome. -/
def Ends (build : Build) (O : Oracle) (perfEnc : Bool) (opts : Options) (text : List Char)
    (out : Outcome) : Prop :=
  ∃ fuel, mainProgram build O perfEnc opts (some text) fuel = .ok out

/-- Unless the problem is listed, the run ends with a status other than zero and prints
nothing. -/
def OnlyListed (build : Build) (O : Oracle) (perfEnc : Bool) (opts : Options)
    (text : List Char) : Prop :=
  opts.task ∉ advertised build →
    (∃ out, Ends build O perfEnc opts text out) ∧
      ∀ out, Ends build O perfEnc opts text out → out.status ≠ 0 ∧ out.stdout = []

/-! ## The parsers -/

section Parsers

variable {T S : List Char} (hT : '-' ∉ T) (hS : '-' ∉ S)

theorem takeWhile_of_not_mem {l : List Char} (h : '-' ∉ l) : l.takeWhile (· ≠ '-') = l := by
  rw [List.takeWhile_eq_self_iff]
  intro c hc
  exact decide_eq_true fun heq => h (heq ▸ hc)

include hT

theorem takeWhile_problem : (T ++ '-' :: S).takeWhile (· ≠ '-') = T := by
  have hall : ∀ c ∈ T, decide (c ≠ '-') = true := fun c hc =>
    decide_eq_true fun heq => hT (heq ▸ hc)
  rw [List.takeWhile_append_of_pos hall, List.takeWhile_cons_of_neg (by simp), List.append_nil]

theorem dropWhile_problem : ((T ++ '-' :: S).dropWhile (· ≠ '-')).drop 1 = S := by
  have hall : ∀ c ∈ T, decide (c ≠ '-') = true := fun c hc =>
    decide_eq_true fun heq => hT (heq ▸ hc)
  rw [List.dropWhile_append_of_pos hall, List.dropWhile_cons_of_neg (by simp), List.drop_one,
    List.tail_cons]

theorem stringToTask_eq : stringToTask (T ++ '-' :: S) =
    if T = ['E', 'C'] then .EC else if T = ['E', 'S'] then .ES else .UNKNOWN_TASK := by
  simp only [stringToTask, takeWhile_problem hT]

include hS

theorem stringToSem_eq : stringToSem (T ++ '-' :: S) =
    if S = ['C', 'O'] then .CO else if S = ['S', 'T'] then .ST
    else if S = ['P', 'R'] then .PR else .UNKNOWN_SEM := by
  have hmem : '-' ∈ T ++ '-' :: S := by simp
  simp only [stringToSem, if_pos hmem, dropWhile_problem hT, takeWhile_of_not_mem hS]

end Parsers

/-! ## Unlisted problems -/

/-- The switch ends the program for the task and the semantics, before it looks at the
framework. -/
def Rejects (build : Build) (task : Task) (sem : Semantics) : Prop :=
  ∀ (O : Oracle) (perfEnc : Bool) (argv0 : String) (aaf : AF) (fuel : Nat), ∃ message,
    (acceptableArguments build O perfEnc argv0 aaf task sem fuel []).1 =
      .error (.error (.exit 1 message))

theorem rejects_unknown_task (build : Build) (sem : Semantics) :
    Rejects build .UNKNOWN_TASK sem := by
  intro O perfEnc argv0 aaf fuel
  cases build <;> exact ⟨_, rfl⟩

/-- The credulous algorithms check the semantics themselves. -/
theorem rejects_cred {build : Build} (h : build ≠ .FUDGE) : Rejects build .EC .UNKNOWN_SEM := by
  intro O perfEnc argv0 aaf fuel
  cases build with
  | IAQ => exact ⟨_, rfl⟩
  | EEE => exact ⟨_, rfl⟩
  | SEE => exact ⟨_, rfl⟩
  | SEEM => exact ⟨_, rfl⟩
  | FUDGE => exact absurd rfl h

/-- The semantics for which a build decides skeptical acceptance. -/
def skeptical : Build → List Semantics
  | .IAQ | .EEE => [.ST, .PR]
  | .SEE | .SEEM => [.ST]
  | .FUDGE => [.PR]

theorem rejects_skep {build : Build} {sem : Semantics} (h : sem ∉ skeptical build) :
    Rejects build .ES sem := by
  intro O perfEnc argv0 aaf fuel
  cases build <;> cases sem <;> first | exact absurd h (by decide) | exact ⟨_, rfl⟩

section Unlisted

variable {build : Build} {T S : List Char} (hT : '-' ∉ T) (hS : '-' ∉ S)
  (hlisted : T ++ '-' :: S ∉ advertised build)

include hT hS hlisted

theorem rejects_unlisted_cred (hEC : T = ['E', 'C']) (hbuild : build ≠ .FUDGE) :
    Rejects build (stringToTask (T ++ '-' :: S)) (stringToSem (T ++ '-' :: S)) := by
  have hnot : S ≠ ['C', 'O'] ∧ S ≠ ['S', 'T'] ∧ S ≠ ['P', 'R'] := by
    subst hEC
    refine ⟨?_, ?_, ?_⟩ <;>
      · intro heq
        subst heq
        cases build <;> first | exact hlisted (by decide) | exact hbuild rfl
  rw [stringToTask_eq hT, stringToSem_eq hT hS, if_pos hEC, if_neg hnot.1, if_neg hnot.2.1,
    if_neg hnot.2.2]
  exact rejects_cred hbuild

theorem rejects_unlisted_skep (hES : T = ['E', 'S']) :
    Rejects build (stringToTask (T ++ '-' :: S)) (stringToSem (T ++ '-' :: S)) := by
  have hEC : T ≠ ['E', 'C'] := by simp [hES]
  rw [stringToTask_eq hT, if_neg hEC, if_pos hES]
  apply rejects_skep
  rw [stringToSem_eq hT hS]
  subst hES
  split
  · cases build <;> decide
  · split
    · rename_i hST
      subst hST
      cases build <;> first | exact absurd (by decide) hlisted | decide
    · split
      · rename_i hPR
        subst hPR
        cases build <;> first | exact absurd (by decide) hlisted | decide
      · cases build <;> decide

/-- Apart from the credulous problems of the FUDGE build an unlisted problem is rejected. -/
theorem rejects_unlisted (hbuild : ¬ (build = .FUDGE ∧ T = ['E', 'C'])) :
    Rejects build (stringToTask (T ++ '-' :: S)) (stringToSem (T ++ '-' :: S)) := by
  by_cases hEC : T = ['E', 'C']
  · exact rejects_unlisted_cred hT hS hlisted hEC fun h => hbuild ⟨h, hEC⟩
  · by_cases hES : T = ['E', 'S']
    · exact rejects_unlisted_skep hT hS hlisted hES
    · rw [stringToTask_eq hT, if_neg hEC, if_neg hES]
      exact rejects_unknown_task build _

end Unlisted

/-! ## Runs -/

/-- Reading a supported format returns, unless its fuel is used up or a header overflows. -/
theorem readInput_supported {fileformat : String} (h : fileformat ∈ ["", "i23", "tgf"])
    (argv0 : String) (text : List Char) (fuel : Nat) :
    (readInput argv0 fileformat fuel (InStream.ofText text)).1 = .error .outOfFuel ∨
      (readInput argv0 fileformat fuel (InStream.ofText text)).1 = .error (.error .overflow) ∨
      ∃ aaf, (readInput argv0 fileformat fuel (InStream.ofText text)).1 = .ok aaf := by
  have hi23 : (readInput argv0 "i23" fuel (InStream.ofText text)).1 = .error .outOfFuel ∨
      (readInput argv0 "i23" fuel (InStream.ofText text)).1 = .error (.error .overflow) ∨
      ∃ aaf, (readInput argv0 "i23" fuel (InStream.ofText text)).1 = .ok aaf := by
    rcases readInput_i23_outcome argv0 text fuel with h | h
    · exact Or.inl h.1
    · rw [h]
      cases hfold : (lines text).foldlM lineStep Locals.init with
      | error e =>
          rw [foldlM_lineStep_error hfold]
          exact Or.inr (Or.inl rfl)
      | ok b => exact Or.inr (Or.inr ⟨b.aaf, rfl⟩)
  simp only [List.mem_cons, List.not_mem_nil, or_false] at h
  rcases h with rfl | rfl | rfl
  · exact hi23
  · exact hi23
  · have hread := readInput_tgf_outcome argv0 text fuel
    rw [Ensures] at hread
    rcases hrun : readInput argv0 "tgf" fuel (InStream.ofText text) with ⟨e | aaf, s⟩
    · rw [hrun] at hread
      exact Or.inl (congrArg _ hread.1)
    · exact Or.inr (Or.inr ⟨aaf, rfl⟩)

theorem reads_supported_iff {fileformat : String} (h : fileformat ∈ ["", "i23", "tgf"])
    (text : List Char) :
    (∃ aaf, Reads fileformat text aaf) ↔ (fileformat ≠ "tgf" → ¬ Overflows (lines text)) := by
  have hi23 : (∃ aaf, Reads "i23" text aaf) ↔ ¬ Overflows (lines text) := by
    constructor
    · intro hx
      obtain ⟨aaf, haaf⟩ := hx
      obtain ⟨b, hb, -⟩ := reads_i23_iff.mp haaf
      exact not_overflows_of_ok hb
    · intro hno
      obtain ⟨b, hb, -⟩ := readState_lines hno
      exact ⟨b.aaf, reads_i23_iff.mpr ⟨b, hb, rfl⟩⟩
  simp only [List.mem_cons, List.not_mem_nil, or_false] at h
  rcases h with rfl | rfl | rfl
  · exact hi23.trans ⟨fun hno _ => hno, fun hno => hno (by decide)⟩
  · exact hi23.trans ⟨fun hno _ => hno, fun hno => hno (by decide)⟩
  · obtain ⟨aaf, haaf⟩ := exists_tgfFramework (InStream.words isSpace text)
    exact ⟨fun _ hne => absurd rfl hne, fun _ => ⟨aaf, reads_tgf_iff.mpr haaf⟩⟩

section Runs

variable {build : Build} {O : Oracle} {perfEnc : Bool} {opts : Options} {problem : List Char}
  (hopts : opts.Asks problem) (hproblem : problem ≠ [])
  (hformat : opts.fileformat ∈ ["", "i23", "tgf"]) {text : List Char}

include hopts hproblem

omit hproblem in
/-- A run whose options ask for a problem reads its input. -/
theorem programWith_eq (compute : Computation) (hproblem : problem ≠ []) (fuel : Nat) :
    programWith build compute perfEnc opts (some text) fuel =
      match (readInput opts.argv0 opts.fileformat fuel (InStream.ofText text)).1 with
      | .error .outOfFuel => .error .outOfFuel
      | .error (.error .outOfBounds) => .error .undefined
      | .error (.error .overflow) => .error .undefined
      | .error (.error (.exit code message)) => .ok ⟨code, [], message.toList⟩
      | .ok aaf => solveWith compute perfEnc problem fuel aaf := by
  simp only [programWith, if_neg hopts.argc_ne, hopts.badOption_eq, hopts.versionFlag_eq,
    hopts.usageFlag_eq, hopts.formatsFlag_eq, hopts.problemsFlag_eq, hopts.task_eq,
    if_neg hproblem, if_neg hopts.file_ne, Bool.false_eq_true, if_false]

theorem mainProgram_eq (fuel : Nat) :
    mainProgram build O perfEnc opts (some text) fuel =
      match (readInput opts.argv0 opts.fileformat fuel (InStream.ofText text)).1 with
      | .error .outOfFuel => .error .outOfFuel
      | .error (.error .outOfBounds) => .error .undefined
      | .error (.error .overflow) => .error .undefined
      | .error (.error (.exit code message)) => .ok ⟨code, [], message.toList⟩
      | .ok aaf => solveProblem build O perfEnc opts.argv0 problem fuel aaf :=
  programWith_eq hopts _ hproblem fuel

include hformat

/-- A run that ends has read its input. -/
theorem ends_iff {out : Outcome} :
    Ends build O perfEnc opts text out ↔ ∃ fuel aaf,
      (readInput opts.argv0 opts.fileformat fuel (InStream.ofText text)).1 = .ok aaf ∧
        solveProblem build O perfEnc opts.argv0 problem fuel aaf = .ok out := by
  unfold Ends
  apply exists_congr
  intro fuel
  rw [mainProgram_eq hopts hproblem]
  rcases readInput_supported hformat opts.argv0 text fuel with h | h | ⟨aaf, h⟩
  · simp [h]
  · simp [h]
  · simp [h]

omit hopts hproblem in
theorem exists_readInput_iff :
    (∃ fuel aaf, (readInput opts.argv0 opts.fileformat fuel (InStream.ofText text)).1 = .ok aaf) ↔
      (opts.fileformat ≠ "tgf" → ¬ Overflows (lines text)) := by
  -- The name of the program occurs in error messages only.
  have hargv0 : ∀ argv0 fuel, readInput argv0 opts.fileformat fuel =
      readInput opts.argv0 opts.fileformat fuel := by
    intro argv0 fuel
    have hcases := hformat
    simp only [List.mem_cons, List.not_mem_nil, or_false] at hcases
    rcases hcases with h | h | h <;> rw [h] <;> rfl
  rw [← reads_supported_iff hformat]
  constructor
  · intro hx
    obtain ⟨fuel, aaf, haaf⟩ := hx
    exact ⟨aaf, opts.argv0, fuel, _, Prod.ext haaf rfl⟩
  · intro hx
    obtain ⟨aaf, argv0, fuel, s, hrun⟩ := hx
    rw [hargv0] at hrun
    exact ⟨fuel, aaf, congrArg Prod.fst hrun⟩

/-- A rejected problem ends every run with status one and without output. -/
theorem ends_of_rejects (hrej : Rejects build (stringToTask problem) (stringToSem problem)) :
    ((opts.fileformat ≠ "tgf" → ¬ Overflows (lines text)) →
      ∃ out, Ends build O perfEnc opts text out) ∧
    ∀ out, Ends build O perfEnc opts text out → out.status ≠ 0 ∧ out.stdout = [] := by
  have hsolve : ∀ fuel aaf, ∃ message, solveProblem build O perfEnc opts.argv0 problem fuel aaf =
      .ok ⟨1, [], message⟩ := by
    intro fuel aaf
    obtain ⟨message, hmessage⟩ := hrej O perfEnc opts.argv0 (aaf.initializeVars perfEnc) fuel
    exact ⟨message.toList, by
      simp [solveProblem, solveWith, Build.computation, hmessage, commentText]⟩
  constructor
  · intro hread
    obtain ⟨fuel, aaf, haaf⟩ := (exists_readInput_iff hformat).mpr hread
    obtain ⟨message, hmessage⟩ := hsolve fuel aaf
    exact ⟨_, (ends_iff hopts hproblem hformat).mpr ⟨fuel, aaf, haaf, hmessage⟩⟩
  · intro out hout
    obtain ⟨fuel, aaf, -, hend⟩ := (ends_iff hopts hproblem hformat).mp hout
    obtain ⟨message, hmessage⟩ := hsolve fuel aaf
    rw [hmessage] at hend
    cases hend
    exact ⟨Int.one_ne_zero, rfl⟩

/-- The credulous arm of the FUDGE build leaves the list empty and prints it. -/
theorem ends_fudge_cred (htask : stringToTask problem = .EC) {out : Outcome}
    (hout : Ends .FUDGE O perfEnc opts text out) : out = ⟨0, ['[', ']', '\n'], []⟩ := by
  obtain ⟨fuel, aaf, -, hend⟩ := (ends_iff hopts hproblem hformat).mp hout
  have hnone : (acceptableArguments .FUDGE O perfEnc opts.argv0 (aaf.initializeVars perfEnc)
      (stringToTask problem) (stringToSem problem) fuel []).1 = .ok [] := by
    rw [htask]
    rfl
  rw [solveProblem, solveWith, Build.computation, hnone] at hend
  cases fuel with
  | zero => cases hend
  | succ fuel =>
      cases hend
      rfl

end Runs

/-- A build answers listed problems only, except that the FUDGE build has an empty arm for
all credulous ones. A header that overflows the counter of the reader leaves a run without
an end. -/
theorem only_listed_iff (build : Build) (O : Oracle) (perfEnc : Bool) {T S : List Char}
    (hT : '-' ∉ T) (hS : '-' ∉ S) {opts : Options} (hopts : opts.Asks (T ++ '-' :: S))
    (hformat : opts.fileformat ∈ ["", "i23", "tgf"]) (text : List Char) :
    OnlyListed build O perfEnc opts text ↔ T ++ '-' :: S ∈ advertised build ∨
      ¬ (build = .FUDGE ∧ T = ['E', 'C']) ∧
        (opts.fileformat ≠ "tgf" → ¬ Overflows (lines text)) := by
  have hproblem : T ++ '-' :: S ≠ [] := by simp
  unfold OnlyListed
  rw [hopts.task_eq]
  by_cases hlisted : T ++ '-' :: S ∈ advertised build
  · exact ⟨fun _ => Or.inl hlisted, fun _ hnot => absurd hlisted hnot⟩
  · constructor
    · intro honly
      obtain ⟨⟨out, hout⟩, hall⟩ := honly hlisted
      refine Or.inr ⟨?_, ?_⟩
      · intro hfudge
        obtain ⟨rfl, rfl⟩ := hfudge
        have htask : stringToTask (['E', 'C'] ++ '-' :: S) = .EC := rfl
        have heq := ends_fudge_cred hopts hproblem hformat htask hout
        exact (hall out hout).1 (by rw [heq])
      · obtain ⟨fuel, aaf, haaf, -⟩ := (ends_iff hopts hproblem hformat).mp hout
        exact (exists_readInput_iff hformat).mp ⟨fuel, aaf, haaf⟩
    · intro hcond _
      obtain ⟨hbuild, hread⟩ := hcond.resolve_left hlisted
      have hrej := rejects_unlisted hT hS hlisted hbuild
      exact ⟨(ends_of_rejects hopts hproblem hformat hrej).1 hread,
        (ends_of_rejects hopts hproblem hformat hrej).2⟩

/-- The command line `solver -p <problem> -f af`. -/
def plainOptions (problem : List Char) : Options :=
  ⟨5, "solver", false, false, false, false, false, problem, ['a', 'f'], ""⟩

theorem plainOptions_asks (problem : List Char) : (plainOptions problem).Asks problem :=
  ⟨by simp [plainOptions], rfl, rfl, rfl, rfl, rfl, rfl, by simp [plainOptions]⟩

/-- SEE does not list ES-PR and rejects it on an empty file. -/
theorem only_listed_iff_see :
    ['E', 'S'] ++ '-' :: ['P', 'R'] ∉ advertised .SEE ∧ ¬ Overflows (lines []) ∧
      OnlyListed .SEE (fun _ _ => none) true
        (plainOptions (['E', 'S'] ++ '-' :: ['P', 'R'])) [] := by
  have hno : ¬ Overflows (lines []) := by simp [Overflows, lines, IsHeader]
  refine ⟨by decide, hno, ?_⟩
  exact (only_listed_iff .SEE (fun _ _ => none) true (by decide) (by decide)
    (plainOptions_asks _) (by decide) []).mpr (Or.inr ⟨by decide, fun _ => hno⟩)

/-- FUDGE lists ES-PR only and answers EC-CO on an empty file with an empty list. -/
theorem only_listed_fails_for_fudge :
    ¬ OnlyListed .FUDGE (fun _ _ => none) true (plainOptions ['E', 'C', '-', 'C', 'O']) [] := by
  intro honly
  obtain ⟨⟨out, hout⟩, hall⟩ := honly (by decide)
  have heq := ends_fudge_cred (plainOptions_asks _) (by decide) (by decide) rfl hout
  exact (hall out hout).1 (by rw [heq])

end AcceptableArguments.MainProgram
