import AcceptableArguments.Readers

/-!
# What the readers make of any text

The i23 reader is a loop over the lines of its text. A line acts on the variables of
`main` only through its words, so a line with too few words goes on with the values that
an earlier line left behind. The tgf reader is a loop over the words of its text, where
the first `#` separates the names from the attacks.
-/

namespace AcceptableArguments.Readers

open Imperative

/-- `main` reads the text in this format and goes on with the framework. -/
def Reads (fileformat : String) (text : List Char) (aaf : AF) : Prop :=
  ∃ argv0 fuel s, readInput argv0 fileformat fuel (InStream.ofText text) = (.ok aaf, s)

/-! ## Numbers -/

/-- The number at the front of a word, as `>>` reads it. -/
def number (w : List Char) : Int := (extractInt (InStream.ofText w) 0).1

theorem splitSign_append {w : List Char} (hw : w ≠ []) (rest : List Char) :
    splitSign (w ++ rest) = ((splitSign w).1, (splitSign w).2 ++ rest) := by
  obtain ⟨c, cs, rfl⟩ := List.exists_cons_of_ne_nil hw
  by_cases hminus : c = '-'
  · subst hminus
    rfl
  · by_cases hplus : c = '+'
    · subst hplus
      rfl
    · have hother : ∀ cs, splitSign (c :: cs) = (false, c :: cs) := by
        intro cs
        unfold splitSign
        split <;> simp_all
      rw [List.cons_append, hother, hother, List.cons_append]

theorem takeWhile_isDigit_append (w : List Char) {rest : List Char}
    (hrest : ∀ c ∈ rest.head?, isSpace c = true) :
    (w ++ rest).takeWhile Char.isDigit = w.takeWhile Char.isDigit := by
  have hnone : rest.takeWhile Char.isDigit = [] := by
    cases rest with
    | nil => rfl
    | cons c rest => simp [isDigit_of_isSpace (hrest c (by simp))]
  rw [List.takeWhile_append, hnone, List.append_nil]
  split
  · rename_i hall
    exact (List.IsPrefix.eq_of_length (List.takeWhile_prefix _) hall).symm
  · rfl

/-- The next word alone decides the number that is read. -/
theorem extractInt_cons {s : InStream} {w : List Char} {ws : List (List Char)}
    (h : s.Holds isSpace (w :: ws)) (old : Int) : (extractInt s old).1 = number w := by
  obtain ⟨rest, hdrop, hne, hw, hsep, -⟩ := h.spaced.dropWhile_cons
  have hgood := h.good_eq
  have hfront : w.dropWhile isSpace = w := by
    obtain ⟨c, cs, rfl⟩ := List.exists_cons_of_ne_nil hne
    rw [List.dropWhile_cons_of_neg (by simp [hw c (by simp)])]
  have hnil : w ++ rest ≠ [] := by simp [hne]
  simp only [number, extractInt, InStream.ofText, InStream.good, Bool.not_false, Bool.and_self,
    if_true, hfront, if_neg hne]
  rw [← InStream.good, hgood, if_pos rfl, hdrop, if_neg hnil, splitSign_append hne]
  simp only [takeWhile_isDigit_append _ hsep, apply_ite Prod.fst]

/-- Without a word the old number stays. -/
theorem extractInt_nil {s : InStream} (h : s.Holds isSpace [] ∨ s.fail = true) (old : Int) :
    (extractInt s old).1 = old := by
  unfold extractInt
  split
  · rename_i hgood
    rcases h with h | h
    · rw [if_pos h.spaced.dropWhile_nil]
    · simp [InStream.good, h] at hgood
  · rfl

/-! ## One line -/

/-- A line that names an attack: it is neither empty nor a comment nor a header. -/
def IsData (line : List Char) : Prop :=
  line ≠ [] ∧ line.head? ≠ some '#' ∧ line.head? ≠ some 'p'

instance (line : List Char) : Decidable (IsData line) :=
  inferInstanceAs (Decidable (line ≠ [] ∧ line.head? ≠ some '#' ∧ line.head? ≠ some 'p'))

def IsHeader (line : List Char) : Prop := line.head? = some 'p'

instance (line : List Char) : Decidable (IsHeader line) :=
  inferInstanceAs (Decidable (line.head? = some 'p'))

theorem IsHeader.not_isData {line : List Char} (h : IsHeader line) : ¬ IsData line :=
  fun hdata => hdata.2.2 h

/-- The value of `n_args` behind a header: its third word, if it has one. -/
def headerCount (old : Int) (line : List Char) : Int :=
  match (InStream.words isSpace line)[2]? with
  | some w => number w
  | none => old

/-- What a line of an i23 file does to the variables of `main`. -/
def lineStep (b : Locals) (line : List Char) : Except Fault Locals :=
  if IsData line then
    let source := ((InStream.words isSpace line)[0]?).getD b.source
    let target := ((InStream.words isSpace line)[1]?).getD b.target
    match b.aaf.addAttack (String.ofList source, String.ofList target) with
    | some aaf => .ok { b with line := line, source := source, target := target, aaf := aaf }
    | none => .error .outOfBounds
  else if IsHeader line then
    let nArgs := headerCount b.nArgs line
    if nArgs = 2 ^ 31 - 1 then .error .overflow
    else .ok { b with
      line := line
      nArgs := nArgs
      aaf := ((arguments nArgs.toNat).foldl AF.addArgument b.aaf).initializeAttackers }
  else .ok { b with line := line }

/-- Two extractions in a row; a missing word leaves the old value. -/
theorem extractWord_twice {s : InStream} {ws : List (List Char)} (h : s.Holds isSpace ws)
    (old old' : List Char) :
    ∃ s₁ s₂, s.extractWord isSpace old = (ws[0]?.getD old, s₁) ∧
      s₁.extractWord isSpace old' = (ws[1]?.getD old', s₂) ∧
      (s₂.Holds isSpace (ws.drop 2) ∨ ws[2]? = none ∧ s₂.fail = true) := by
  have hfailed : ∀ s : InStream, s.fail = true →
      s.extractWord isSpace old' = (old', { s with fail := true }) := by
    intro s hs
    simp [InStream.extractWord, InStream.good, hs]
  cases ws with
  | nil =>
      obtain ⟨s₁, hword, hs₁⟩ := h.extractWord_nil old
      exact ⟨s₁, _, hword, hfailed s₁ hs₁, Or.inr ⟨rfl, rfl⟩⟩
  | cons w ws =>
      obtain ⟨s₁, hword, hs₁⟩ := h.extractWord_cons old
      cases ws with
      | nil =>
          obtain ⟨s₂, hword', hs₂⟩ := hs₁.extractWord_nil old'
          exact ⟨s₁, s₂, hword, hword', Or.inr ⟨rfl, hs₂⟩⟩
      | cons w' ws =>
          obtain ⟨s₂, hword', hs₂⟩ := hs₁.extractWord_cons old'
          exact ⟨s₁, s₂, hword, hword', Or.inl hs₂⟩

/-- The number behind two words. -/
theorem extractInt_header {s : InStream} {line : List Char}
    (h : s.Holds isSpace ((InStream.words isSpace line).drop 2) ∨
      (InStream.words isSpace line)[2]? = none ∧ s.fail = true) (old : Int) :
    (extractInt s old).1 = headerCount old line := by
  unfold headerCount
  cases h with
  | inl hs =>
      cases hdrop : (InStream.words isSpace line).drop 2 with
      | nil =>
          rw [hdrop] at hs
          have hnone : (InStream.words isSpace line)[2]? = none := by
            simpa using congrArg List.head? hdrop
          rw [hnone, extractInt_nil (Or.inl hs)]
      | cons w ws =>
          rw [hdrop] at hs
          have hsome : (InStream.words isSpace line)[2]? = some w := by
            simpa using congrArg List.head? hdrop
          rw [hsome, extractInt_cons hs]
  | inr hs => rw [hs.1, extractInt_nil (Or.inr hs.2)]

/-- The lines that the loop skips. -/
theorem skipped_iff {line : List Char} :
    line.length = 0 ∨ line.head? = some '#' ↔ ¬ IsData line ∧ ¬ IsHeader line := by
  cases line with
  | nil => simp [IsData, IsHeader]
  | cons c line =>
      by_cases hhash : c = '#'
      · simp [IsData, IsHeader, hhash]
      · simp [IsData, IsHeader, hhash]

/-- The loop body behind `getline` is `lineStep`; it leaves the stream alone. -/
theorem i23Line_eq (b : Locals) (line : List Char) :
    i23Line { b with line := line } = Run.ofExcept (lineStep b line) := by
  have hholds : (InStream.ofText line).Holds isSpace (InStream.words isSpace line) :=
    InStream.holds_ofText (InStream.spaced_words line)
  by_cases hskip : line.length = 0 ∨ line.head? = some '#'
  · obtain ⟨hdata, hheader⟩ := skipped_iff.mp hskip
    rw [i23Line, if_pos hskip, lineStep, if_neg hdata, if_neg hheader]
    rfl
  · by_cases hheader : IsHeader line
    · obtain ⟨s₁, s₂, hp, haf, hs₂⟩ := extractWord_twice hholds [] []
      have hcount := extractInt_header hs₂ b.nArgs
      have hhead : line.head? = some 'p' := hheader
      rw [i23Line, if_neg hskip, if_pos hhead, lineStep, if_neg hheader.not_isData,
        if_pos hheader]
      simp only [hp, haf, hcount, addArguments, arguments, List.foldl_map]
      split <;> rfl
    · have hdata : IsData line := by
        by_contra hdata
        exact hskip (skipped_iff.mpr ⟨hdata, hheader⟩)
      have hhead : line.head? ≠ some 'p' := hheader
      obtain ⟨s₁, s₂, hsource, htarget, -⟩ := extractWord_twice hholds b.source b.target
      rw [i23Line, if_neg hskip, if_neg hhead, lineStep, if_pos hdata]
      simp only [hsource, htarget, addAttack]
      cases b.aaf.addAttack _ <;> rfl

/-! ## The i23 reader -/

/-- The lines of a text, as `getline` cuts it. -/
def lines (text : List Char) : List (List Char) := text.splitOn '\n'

theorem holdsLines_lines (text : List Char) :
    (InStream.ofText text).HoldsLines (lines text) := by
  have hne : lines text ≠ [] := List.splitOn_ne_nil _ _
  have hholds := InStream.holdsLines_ofText hne
  rwa [lines, List.intercalate_splitOn] at hholds

/-- The loop handles one line after the other, as far as its fuel goes. -/
theorem whileTrue_i23Round {ls : List (List Char)} (hnew : ∀ line ∈ ls, '\n' ∉ line)
    {s : InStream} (hs : s.HoldsLines ls) (fuel : Nat) (b : Locals) :
    (whileTrue i23Round fuel b s).1 = .error .outOfFuel ∧ fuel ≤ ls.length ∨
      (whileTrue i23Round fuel b s).1 = (ls.foldlM lineStep b).mapError .error := by
  induction ls generalizing fuel b s with
  | nil =>
      cases fuel with
      | zero => exact Or.inl ⟨rfl, Nat.le_refl 0⟩
      | succ fuel =>
          have heof : s.eof = true := hs
          right
          rw [whileTrue_succ, Run.bind_apply]
          simp only [i23Round, Run.bind_apply, Run.get, heof, if_true]
          rfl
  | cons line ls ih =>
      cases fuel with
      | zero => exact Or.inl ⟨rfl, Nat.zero_le _⟩
      | succ fuel =>
          obtain ⟨heof, s', hget, hs'⟩ := hs.getline_cons (hnew line (by simp)) b.line
          rw [whileTrue_succ, List.foldlM_cons, Run.bind_apply]
          simp only [i23Round, Run.bind_apply, Run.get, heof, Bool.false_eq_true, if_false,
            Run.act, hget, i23Line_eq]
          cases lineStep b line with
          | error e => exact Or.inr rfl
          | ok b' =>
              rcases ih (fun l hl => hnew l (by simp [hl])) hs' fuel b' with h | h
              · exact Or.inl ⟨h.1, Nat.succ_le_succ h.2⟩
              · exact Or.inr h

theorem readInput_i23_eq (argv0 : String) (fuel : Nat) :
    readInput argv0 "i23" fuel =
      whileTrue i23Round fuel Locals.init >>= fun b => pure b.aaf := rfl

/-- How reading a text as i23 ends: with the effect of its lines, or without fuel. -/
theorem readInput_i23_outcome (argv0 : String) (text : List Char) (fuel : Nat) :
    (readInput argv0 "i23" fuel (InStream.ofText text)).1 = .error .outOfFuel ∧
        fuel ≤ (lines text).length ∨
      (readInput argv0 "i23" fuel (InStream.ofText text)).1 =
        (((lines text).foldlM lineStep Locals.init).mapError .error).map Locals.aaf := by
  rw [readInput_i23_eq, Run.bind_pure_fst]
  rcases whileTrue_i23Round (fun line => InStream.newline_not_mem_of_mem_splitOn)
    (holdsLines_lines text) fuel Locals.init with h | h
  · rw [h.1]
    exact Or.inl ⟨rfl, h.2⟩
  · rw [h]
    exact Or.inr rfl

/-- The reader returns what the lines make of the initial variables. -/
theorem reads_i23_iff {text : List Char} {aaf : AF} :
    Reads "i23" text aaf ↔
      ∃ b, (lines text).foldlM lineStep Locals.init = .ok b ∧ b.aaf = aaf := by
  constructor
  · intro h
    obtain ⟨argv0, fuel, s, hrun⟩ := h
    have hread := congrArg Prod.fst hrun
    rcases readInput_i23_outcome argv0 text fuel with h | h
    · rw [h.1] at hread
      cases hread
    · rw [h] at hread
      cases hfold : (lines text).foldlM lineStep Locals.init with
      | error e =>
          rw [hfold] at hread
          cases hread
      | ok b =>
          rw [hfold] at hread
          cases hread
          exact ⟨b, rfl, rfl⟩
  · intro h
    obtain ⟨b, hb, rfl⟩ := h
    rcases readInput_i23_outcome "" text ((lines text).length + 1) with h | h
    · omega
    · rw [hb] at h
      exact ⟨"", _, _, Prod.ext h rfl⟩

/-! ## The tgf reader -/

/-- The words in front of the first `#`. -/
def tgfNames (ws : List (List Char)) : List String :=
  (ws.takeWhile (· ≠ ['#'])).map String.ofList

/-- The words behind the first `#`. -/
def tgfRest (ws : List (List Char)) : List (List Char) := (ws.dropWhile (· ≠ ['#'])).drop 1

/-- The attacks that the words name, two words each; a last single word is dropped. -/
def tgfAttacks : List (List Char) → List (String × String)
  | source :: target :: ws => (String.ofList source, String.ofList target) :: tgfAttacks ws
  | _ => []

/-- The framework that the words describe. Without a `#` no vector is given its size. -/
def tgfFramework (ws : List (List Char)) : Option AF :=
  if ['#'] ∈ ws then AF.read (tgfNames ws) (tgfAttacks (tgfRest ws))
  else some ((tgfNames ws).foldl AF.addArgument AF.empty)

theorem ensures_extract_cons {E : Halt Fault → InStream → Prop} {s : InStream} {w : List Char}
    {ws : List (List Char)} (h : s.Holds isSpace (w :: ws)) (old : List Char) :
    Ensures (extract old) s (fun x s' => x = (w, false) ∧ s'.Holds isSpace ws) E := by
  obtain ⟨s', hword, hs'⟩ := h.extractWord_cons old
  apply ensures_bind
  apply ensures_act
  rw [hword]
  apply ensures_bind
  apply ensures_get
  exact ensures_pure ⟨by rw [hs'.fail_eq], hs'⟩

theorem ensures_extract_fail {E : Halt Fault → InStream → Prop} {s : InStream}
    (h : s.Holds isSpace [] ∨ s.fail = true) (old : List Char) :
    Ensures (extract old) s (fun x s' => x.2 = true ∧ s'.fail = true) E := by
  have hfail : (s.extractWord isSpace old).2.fail = true := by
    rcases h with h | h
    · obtain ⟨s', hword, hs'⟩ := h.extractWord_nil old
      rw [hword]
      exact hs'
    · exact InStream.extractWord_fail h old
  apply ensures_bind
  apply ensures_act
  apply ensures_bind
  apply ensures_get
  exact ensures_pure ⟨hfail, hfail⟩

/-- The loop ran out of fuel while there were at least as many words. -/
def ShortOf (n fuel : Nat) (e : Halt Fault) (_ : InStream) : Prop := e = .outOfFuel ∧ fuel ≤ n

/-- The framework and the stream behind the loop over the names. -/
def NamesRead (ws : List (List Char)) (aaf : AF) (b : Locals) (s : InStream) : Prop :=
  if ['#'] ∈ ws then
    b.aaf = ((tgfNames ws).foldl AF.addArgument aaf).initializeAttackers ∧
      s.Holds isSpace (tgfRest ws)
  else b.aaf = (tgfNames ws).foldl AF.addArgument aaf ∧ s.fail = true

theorem namesRead_cons {w : List Char} (hw : w ≠ ['#']) {ws : List (List Char)} {aaf : AF}
    {b : Locals} {s : InStream} (h : NamesRead ws (aaf.addArgument (String.ofList w)) b s) :
    NamesRead (w :: ws) aaf b s := by
  have hnames : tgfNames (w :: ws) = String.ofList w :: tgfNames ws := by simp [tgfNames, hw]
  have hrest : tgfRest (w :: ws) = tgfRest ws := by simp [tgfRest, hw]
  have hmem : ['#'] ∈ w :: ws ↔ ['#'] ∈ ws := by simp [Ne.symm hw]
  simpa [NamesRead, hnames, hrest, hmem] using h

theorem whileTrue_tgfArgRound {ws : List (List Char)} {s : InStream} (hs : s.Holds isSpace ws)
    (fuel : Nat) (b : Locals) :
    Ensures (whileTrue tgfArgRound fuel b) s (NamesRead ws b.aaf) (ShortOf ws.length fuel) := by
  induction ws generalizing fuel b s with
  | nil =>
      cases fuel with
      | zero => exact ⟨rfl, Nat.le_refl 0⟩
      | succ fuel =>
          rw [whileTrue_succ]
          apply ensures_bind
          apply ensures_bind
          apply (ensures_extract_fail (Or.inl hs) b.arg).post
          intro x s' hx
          simp only [hx.1, if_true]
          exact ensures_pure (ensures_pure ⟨rfl, hx.2⟩)
  | cons w ws ih =>
      cases fuel with
      | zero => exact ⟨rfl, Nat.zero_le _⟩
      | succ fuel =>
          rw [whileTrue_succ]
          apply ensures_bind
          apply ensures_bind
          apply (ensures_extract_cons hs b.arg).post
          intro x s' hx
          obtain ⟨rfl, hs'⟩ := hx
          by_cases hw : w = ['#']
          · subst hw
            simp only [Bool.false_eq_true, if_false, if_true]
            apply ensures_pure
            apply ensures_pure
            simpa [NamesRead, tgfNames, tgfRest] using hs'
          · simp only [Bool.false_eq_true, if_false, if_neg hw]
            apply ensures_pure
            apply (ih hs' fuel { b with arg := w, aaf := b.aaf.addArgument (String.ofList w) }).mono
            · exact fun b' s'' h => namesRead_cons hw h
            · exact fun e s'' h => ⟨h.1, Nat.succ_le_succ h.2⟩

/-- The words left for the loop over the attacks; there are none on a failed stream. -/
def AttackWordsLeft (ws : List (List Char)) (s : InStream) : Prop :=
  s.Holds isSpace ws ∨ ws = [] ∧ s.fail = true

/-- With fewer than two words left the loop over the attacks ends. -/
theorem tgfAttackRound_last {E : Halt Fault → InStream → Prop} {ws : List (List Char)}
    {s : InStream} (hs : AttackWordsLeft ws s) (hws : ws.length < 2) (b : Locals) :
    Ensures (tgfAttackRound b) s
      (fun x _ => ∃ b' : Locals, x = .inr b' ∧ b'.aaf = b.aaf) E := by
  have hsecond : Ensures (extract b.source) s
      (fun _ s' => s'.Holds isSpace [] ∨ s'.fail = true) E := by
    cases ws with
    | nil =>
        apply (ensures_extract_fail (hs.imp_right And.right) b.source).post
        exact fun _ _ hx => Or.inr hx.2
    | cons w ws =>
        rcases hs with hs | hs
        · have hlen : ws.length < 1 := Nat.lt_of_succ_lt_succ hws
          have hnil : ws = [] := List.eq_nil_of_length_eq_zero (Nat.lt_one_iff.mp hlen)
          rw [hnil] at hs
          apply (ensures_extract_cons hs b.source).post
          exact fun _ _ hx => Or.inl hx.2
        · cases hs.1
  apply ensures_bind
  apply hsecond.post
  intro x s' hs'
  apply ensures_bind
  apply (ensures_extract_fail hs' b.target).post
  intro y s'' hy
  simp only [hy.1, if_true]
  exact ensures_pure ⟨_, rfl, rfl⟩

/-- Two words are one attack. -/
theorem tgfAttackRound_pair {E : Halt Fault → InStream → Prop} {source target : List Char}
    {ws : List (List Char)} {s : InStream} (hs : s.Holds isSpace (source :: target :: ws))
    {b : Locals} {aaf : AF}
    (haaf : b.aaf.addAttack (String.ofList source, String.ofList target) = some aaf) :
    Ensures (tgfAttackRound b) s (fun x s' => ∃ b' : Locals, x = .inl b' ∧ b'.aaf = aaf ∧
      s'.Holds isSpace ws) E := by
  apply ensures_bind
  apply (ensures_extract_cons hs b.source).post
  intro x s' hx
  obtain ⟨rfl, hs'⟩ := hx
  apply ensures_bind
  apply (ensures_extract_cons hs' b.target).post
  intro y s'' hy
  obtain ⟨rfl, hs''⟩ := hy
  simp only [Bool.false_eq_true, if_false]
  apply ensures_bind
  apply ensures_bind
  apply ensures_ofOption haaf
  exact ensures_pure (ensures_pure ⟨_, rfl, rfl, hs''⟩)

theorem tgfAttacks_last {ws : List (List Char)}
    (h : ∀ source target rest, ws = source :: target :: rest → False) :
    ws.length < 2 ∧ tgfAttacks ws = [] := by
  cases ws with
  | nil => exact ⟨Nat.zero_lt_two, rfl⟩
  | cons w ws =>
      cases ws with
      | nil => exact ⟨Nat.one_lt_two, rfl⟩
      | cons w' ws => exact (h w w' ws rfl).elim

theorem whileTrue_tgfAttackRound {ws : List (List Char)} {s : InStream}
    (hs : AttackWordsLeft ws s) (fuel : Nat) (b : Locals) {aaf : AF}
    (haaf : (tgfAttacks ws).foldlM AF.addAttack b.aaf = some aaf) :
    Ensures (whileTrue tgfAttackRound fuel b) s (fun b' _ => b'.aaf = aaf)
      (ShortOf ws.length fuel) := by
  induction ws using tgfAttacks.induct generalizing fuel b s with
  | case1 source target ws ih =>
      cases fuel with
      | zero => exact ⟨rfl, Nat.zero_le _⟩
      | succ fuel =>
          rw [tgfAttacks, List.foldlM_cons] at haaf
          obtain ⟨next, hnext, haaf⟩ := Option.bind_eq_some_iff.mp haaf
          rcases hs with hs | hs
          · rw [whileTrue_succ]
            apply ensures_bind
            apply (tgfAttackRound_pair hs hnext).post
            intro x s' hx
            obtain ⟨b', rfl, rfl, hs'⟩ := hx
            apply (ih (Or.inl hs') fuel b' haaf).mono
            · exact fun _ _ h => h
            · intro e s'' h
              exact ⟨h.1, (Nat.succ_le_succ h.2).trans (Nat.le_succ _)⟩
          · cases hs.1
  | case2 ws hws =>
      cases fuel with
      | zero => exact ⟨rfl, Nat.zero_le _⟩
      | succ fuel =>
          obtain ⟨hlen, hnone⟩ := tgfAttacks_last hws
          rw [hnone] at haaf
          cases haaf
          rw [whileTrue_succ]
          apply ensures_bind
          apply (tgfAttackRound_last hs hlen b).post
          intro x s' hx
          obtain ⟨b', rfl, hb'⟩ := hx
          exact ensures_pure hb'

/-- The tgf reader builds the framework that the words of its text describe. -/
theorem readTgf_ensures (text : List Char) (fuel : Nat) :
    Ensures (readTgf fuel) (InStream.ofText text)
      (fun b _ => tgfFramework (InStream.words isSpace text) = some b.aaf)
      (ShortOf (InStream.words isSpace text).length fuel) := by
  set ws := InStream.words isSpace text with hws
  have hs : (InStream.ofText text).Holds isSpace ws :=
    InStream.holds_ofText (InStream.spaced_words text)
  apply ensures_bind
  apply (whileTrue_tgfArgRound hs fuel Locals.init).post
  intro b s hb
  unfold NamesRead at hb
  unfold tgfFramework
  by_cases hhash : ['#'] ∈ ws
  · rw [if_pos hhash] at hb ⊢
    obtain ⟨haaf, hs'⟩ := hb
    obtain ⟨aaf, hread, -, -⟩ := AF.read_spec (tgfNames ws) (tgfAttacks (tgfRest ws))
    have hfold : (tgfAttacks (tgfRest ws)).foldlM AF.addAttack b.aaf = some aaf := by
      rw [haaf]
      exact hread
    have hlen : (tgfRest ws).length ≤ ws.length := by
      rw [tgfRest, List.length_drop]
      exact (Nat.sub_le _ _).trans (List.length_dropWhile_le _ _)
    apply (whileTrue_tgfAttackRound (Or.inl hs') fuel b hfold).mono
    · intro b' _ hb'
      rw [hread, hb']
    · exact fun e _ h => ⟨h.1, h.2.trans hlen⟩
  · rw [if_neg hhash] at hb ⊢
    obtain ⟨haaf, hfail⟩ := hb
    apply (whileTrue_tgfAttackRound (Or.inr ⟨rfl, hfail⟩) fuel b rfl).mono
    · intro b' _ hb'
      rw [hb', haaf]
      rfl
    · exact fun e _ h => ⟨h.1, h.2.trans (Nat.zero_le _)⟩

theorem readInput_tgf_eq (argv0 : String) (fuel : Nat) :
    readInput argv0 "tgf" fuel = readTgf fuel >>= fun b => pure b.aaf := rfl

/-- How reading a text as tgf ends: with the framework of its words, or without fuel. -/
theorem readInput_tgf_outcome (argv0 : String) (text : List Char) (fuel : Nat) :
    Ensures (readInput argv0 "tgf" fuel) (InStream.ofText text)
      (fun aaf _ => tgfFramework (InStream.words isSpace text) = some aaf)
      (ShortOf (InStream.words isSpace text).length fuel) := by
  rw [readInput_tgf_eq]
  apply ensures_bind
  apply (readTgf_ensures text fuel).post
  exact fun b s hb => ensures_pure hb

theorem readInput_tgf_returns (argv0 : String) {text : List Char} {fuel : Nat}
    (hfuel : (InStream.words isSpace text).length < fuel) :
    ∃ aaf s, readInput argv0 "tgf" fuel (InStream.ofText text) = (.ok aaf, s) ∧
      tgfFramework (InStream.words isSpace text) = some aaf := by
  apply Ensures.exists_ok
  apply (readInput_tgf_outcome argv0 text fuel).mono
  · exact fun _ _ h => h
  · exact fun e _ he => Nat.not_le_of_lt hfuel he.2

theorem reads_tgf_iff {text : List Char} {aaf : AF} :
    Reads "tgf" text aaf ↔ tgfFramework (InStream.words isSpace text) = some aaf := by
  constructor
  · intro h
    obtain ⟨argv0, fuel, s, hrun⟩ := h
    have hread := readInput_tgf_outcome argv0 text fuel
    rwa [Ensures, hrun] at hread
  · intro h
    obtain ⟨aaf', s, hrun, haaf'⟩ := readInput_tgf_returns "" (Nat.lt_succ_self _)
    rw [h] at haaf'
    cases haaf'
    exact ⟨"", _, s, hrun⟩

end AcceptableArguments.Readers
