import AcceptableArguments.AF
import AcceptableArguments.Imperative.Streams

/-!
# The readers of the two input formats

The i23 reader works on lines and its loop is controlled by the eof bit; the tgf reader
works on words and its loops are controlled by the fail bit. The variables of `main` are
declared before the loops, so a failed extraction leaves the value of an earlier line.

The counters of the framework are natural numbers here. A text makes the machine do the same
as long as it declares fewer than `2 ^ 32` arguments and attacks, which is understood in the
results about texts.
-/

namespace AcceptableArguments.Readers

open Imperative

/-- Ways in which reading the input stops. -/
inductive Fault where
  | outOfBounds
  | overflow
  | exit (code : Int) (message : String)
  deriving DecidableEq, Repr

abbrev ReadM := Run Fault InStream

/-- The variables of `main` that the readers use. -/
structure Locals where
  aaf : AF
  nArgs : Int
  line : List Char
  arg : List Char
  source : List Char
  target : List Char

def Locals.init : Locals := ⟨AF.empty, 0, [], [], [], []⟩

/-! ## The readers -/

/-- `std::to_string`. -/
def decimal (i : Nat) : List Char := Nat.toDigits 10 i

/-- The name of the argument with number `i`. -/
def argument (i : Nat) : String := String.ofList (decimal i)

/-- The names `1 .. n`. -/
def arguments (n : Nat) : List String := (List.range' 1 n).map argument

/-- `>>` into an `int32_t`: a text without digits stores zero, a value out of range the
nearest bound. -/
def extractInt (s : InStream) (old : Int) : Int × InStream :=
  if s.good then
    if s.rest.dropWhile isSpace = [] then (old, ⟨[], true, true⟩)
    else
      let (negative, text) := splitSign (s.rest.dropWhile isSpace)
      let digits := text.takeWhile Char.isDigit
      let rest := text.dropWhile Char.isDigit
      let magnitude : Int := Nat.ofDigitChars 10 digits 0
      let value := if negative then -magnitude else magnitude
      if digits = [] then (0, ⟨rest, rest.isEmpty, true⟩)
      else if value < -2 ^ 31 then (-2 ^ 31, ⟨rest, rest.isEmpty, true⟩)
      else if 2 ^ 31 ≤ value then (2 ^ 31 - 1, ⟨rest, rest.isEmpty, true⟩)
      else (value, ⟨rest, rest.isEmpty, false⟩)
  else (old, { s with fail := true })

/-- `for (int i = 1; i <= n_args; i++)`. When `n_args` is the largest `int` the increment
behind the last round overflows. -/
def addArguments (nArgs : Int) (aaf : AF) : ReadM AF :=
  if nArgs = 2 ^ 31 - 1 then Run.throw .overflow
  else pure ((List.range' 1 nArgs.toNat).foldl (fun aaf i => aaf.addArgument (argument i)) aaf)

/-- `aaf.add_attack(make_pair(source, target))`. -/
def addAttack (b : Locals) : ReadM Locals := do
  let aaf ← Run.ofOption .outOfBounds
    (b.aaf.addAttack (String.ofList b.source, String.ofList b.target))
  return { b with aaf := aaf }

/-- The i23 loop behind `getline`. -/
def i23Line (b : Locals) : ReadM Locals :=
  if b.line.length = 0 ∨ b.line.head? = some '#' then pure b
  else
    let iss := InStream.ofText b.line
    if b.line.head? = some 'p' then do
      let (_, iss) := iss.extractWord isSpace []
      let (_, iss) := iss.extractWord isSpace []
      let (nArgs, _) := extractInt iss b.nArgs
      let aaf ← addArguments nArgs b.aaf
      return { b with nArgs := nArgs, aaf := aaf.initializeAttackers }
    else
      let (source, iss) := iss.extractWord isSpace b.source
      let (target, _) := iss.extractWord isSpace b.target
      addAttack { b with source := source, target := target }

/-- One round of `while (!input.eof())`. -/
def i23Round (b : Locals) : ReadM (Locals ⊕ Locals) := do
  let input ← Run.get
  if input.eof then return .inr b
  let line ← Run.act (fun input => input.getline b.line)
  let b ← i23Line { b with line := line }
  return .inl b

/-- `input >> word`, with the fail bit after it. -/
def extract (word : List Char) : ReadM (List Char × Bool) := do
  let word ← Run.act (fun input => input.extractWord isSpace word)
  let input ← Run.get
  return (word, input.fail)

/-- One round of `while (input >> arg)`. -/
def tgfArgRound (b : Locals) : ReadM (Locals ⊕ Locals) := do
  let (arg, fail) ← extract b.arg
  let b := { b with arg := arg }
  if fail then return .inr b
  else if arg = ['#'] then return .inr { b with aaf := b.aaf.initializeAttackers }
  else return .inl { b with aaf := b.aaf.addArgument (String.ofList arg) }

/-- One round of `while (input >> source >> target)`. -/
def tgfAttackRound (b : Locals) : ReadM (Locals ⊕ Locals) := do
  let (source, _) ← extract b.source
  let (target, fail) ← extract b.target
  let b := { b with source := source, target := target }
  if fail then return .inr b
  else do
    let b ← addAttack b
    return .inl b

def readTgf (fuel : Nat) : ReadM Locals := do
  let b ← whileTrue tgfArgRound fuel Locals.init
  whileTrue tgfAttackRound fuel b

/-- The part of `main` that reads the input; an empty format means i23. -/
def readInput (argv0 fileformat : String) (fuel : Nat) : ReadM AF := do
  let fileformat := if fileformat = "" then "i23" else fileformat
  if fileformat = "i23" then
    let b ← whileTrue i23Round fuel Locals.init
    return b.aaf
  else if fileformat = "tgf" then
    let b ← readTgf fuel
    return b.aaf
  else Run.throw (.exit 1 (argv0 ++ ": Unsupported file format\n"))

/-! ## Numerals -/

theorem isSpace_of_mem_decimal {i : Nat} : ∀ c ∈ decimal i, isSpace c = false := fun _ hc =>
  isSpace_of_isDigit (isDigit_of_mem_toDigits hc)

theorem not_mem_decimal {i : Nat} {c : Char} (hc : c.isDigit = false) : c ∉ decimal i := by
  intro hmem
  rw [isDigit_of_mem_toDigits hmem] at hc
  cases hc

theorem argument_injective : Function.Injective argument := by
  intro i j h
  have hdigits : decimal i = decimal j := String.ofList_injective h
  calc i = Nat.ofDigitChars 10 (decimal i) 0 := Nat.ofDigitChars_ten_toDigits.symm
    _ = Nat.ofDigitChars 10 (decimal j) 0 := by rw [hdigits]
    _ = j := Nat.ofDigitChars_ten_toDigits

theorem isDigit_of_isSpace {c : Char} (hc : isSpace c = true) : c.isDigit = false := by
  by_contra hdigit
  rw [isSpace_of_isDigit (by simpa using hdigit)] at hc
  cases hc

end AcceptableArguments.Readers
