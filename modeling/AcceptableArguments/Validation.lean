import AcceptableArguments.MainProgram

/-!
# Comparing the lists that two runs printed

`validate.py` looks for the first pair of brackets without another bracket inside, splits
the text between them at the commas and compares the pieces as sets. An empty list is
read as one empty piece, which is no name, so the comparison is right for empty lists too.
-/

namespace AcceptableArguments.Validation

open Imperative MainProgram

/-! ## The script -/

/-- White space as `str.strip` knows it. -/
def isSpacePy (c : Char) : Bool :=
  let n := c.toNat
  (9 ≤ n && n ≤ 13) || (28 ≤ n && n ≤ 32) || n == 0x85 || n == 0xa0 || n == 0x1680 ||
    (0x2000 ≤ n && n ≤ 0x200a) || n == 0x2028 || n == 0x2029 || n == 0x202f || n == 0x205f ||
    n == 0x3000

/-- The translation of line ends when a file is opened in text mode. -/
def universalNewlines : List Char → List Char
  | '\r' :: '\n' :: rest => '\n' :: universalNewlines rest
  | '\r' :: rest => '\n' :: universalNewlines rest
  | c :: rest => c :: universalNewlines rest
  | [] => []

def isInner (c : Char) : Bool := c != '[' && c != ']'

/-- The group of `re.search(r'\[([^[\]]*)\]', content)`. -/
def search : List Char → Option (List Char)
  | [] => none
  | c :: rest =>
      if c = '[' ∧ (rest.dropWhile isInner).head? = some ']' then some (rest.takeWhile isInner)
      else search rest

/-- `item.strip()`. -/
def strip (item : List Char) : List Char :=
  ((item.dropWhile isSpacePy).reverse.dropWhile isSpacePy).reverse

/-- `parse_file` on the content of the file; without a list it prints an error and returns
`None`. -/
def parseFile (content : List Char) : Option (List (List Char)) := do
  let listContent ← search (universalNewlines content)
  return (listContent.splitOn ',').map strip

/-- `compare_lists`. -/
def compareLists (list1 list2 : List (List Char)) : Bool :=
  list1.all list2.contains && list2.all list1.contains

/-! ## The files -/

/-- `main` writes the list to the file, with the newline behind it. -/
def Writes (extension : List String) (content : List Char) : Prop :=
  ∃ fuel text, printExtensionEe fuel extension = some text ∧ content = text ++ ['\n']

/-- A name that is not empty and free of white space, commas and brackets. -/
def PlainName (name : String) : Prop :=
  name ≠ "" ∧ ∀ c ∈ name.toList, isSpacePy c = false ∧ c ≠ ',' ∧ c ≠ '[' ∧ c ≠ ']'

/-- The names with commas between them. -/
def joined (names : List String) : List Char := List.intercalate [','] (names.map String.toList)

theorem joined_cons_cons (name next : String) (names : List String) :
    joined (name :: next :: names) = name.toList ++ ',' :: joined (next :: names) := by
  simp [joined, List.intercalate]

/-! ## The writer -/

/-- A comma follows every name but the last. -/
theorem joined_drop {names : List String} {i : Nat} (hi : i < names.length) :
    joined (names.drop i) = names[i].toList ++
      (if i ≠ names.length - 1 then [','] else []) ++ joined (names.drop (i + 1)) := by
  rw [List.drop_eq_getElem_cons hi]
  by_cases hlast : i = names.length - 1
  · have hnil : names.drop (i + 1) = [] := List.drop_eq_nil_of_le (by omega)
    rw [hnil, if_neg (not_not.mpr hlast)]
    simp [joined]
  · have hnext : i + 1 < names.length := by omega
    rw [if_pos hlast, List.drop_eq_getElem_cons hnext, joined_cons_cons, List.append_assoc,
      List.singleton_append]

/-- The counter reaches the end of a list with fewer than `2 ^ 32` names. -/
theorem printLoop_eq {names : List String} (hlen : names.length < 2 ^ 32) (fuel : Nat) {i : Nat}
    (hi : i ≤ names.length) :
    printLoop names fuel i =
      if names.length - i < fuel then some (joined (names.drop i)) else none := by
  induction fuel generalizing i with
  | zero => rfl
  | succ fuel ih =>
      rw [printLoop]
      cases Nat.lt_or_eq_of_le hi with
      | inl hlt =>
          have hnext : (i + 1) % 2 ^ 32 = i + 1 := Nat.mod_eq_of_lt (by omega)
          have hlast : (names.length + (2 ^ 64 - 1)) % 2 ^ 64 = names.length - 1 := by omega
          rw [List.getElem?_eq_getElem hlt]
          simp only [hnext, hlast, ih (i := i + 1) (by omega), joined_drop hlt]
          by_cases hfuel : names.length - (i + 1) < fuel
          · have hmore : names.length - i < fuel + 1 := by omega
            rw [if_pos hfuel, if_pos hmore]
            rfl
          · have hless : ¬ names.length - i < fuel + 1 := by omega
            rw [if_neg hfuel, if_neg hless]
            rfl
      | inr heq =>
          subst heq
          simp [joined]

/-- A longer list is never finished. -/
theorem printLoop_none {names : List String} (hlen : 2 ^ 32 ≤ names.length) (fuel : Nat) {i : Nat}
    (hi : i < 2 ^ 32) : printLoop names fuel i = none := by
  induction fuel generalizing i with
  | zero => rfl
  | succ fuel ih =>
      rw [printLoop, List.getElem?_eq_getElem (by omega), ih (Nat.mod_lt _ (by decide))]
      rfl

theorem writes_iff {names : List String} {content : List Char} :
    Writes names content ↔
      names.length < 2 ^ 32 ∧ content = '[' :: joined names ++ [']', '\n'] := by
  constructor
  · intro h
    obtain ⟨fuel, text, htext, rfl⟩ := h
    by_cases hlen : names.length < 2 ^ 32
    · refine ⟨hlen, ?_⟩
      rw [printExtensionEe, printLoop_eq hlen fuel (Nat.zero_le _)] at htext
      split at htext
      · cases htext
        simp
      · cases htext
    · rw [printExtensionEe, printLoop_none (by omega) fuel (by decide)] at htext
      cases htext
  · intro h
    obtain ⟨hlen, rfl⟩ := h
    refine ⟨names.length + 1, '[' :: joined names ++ [']'], ?_, by simp⟩
    rw [printExtensionEe, printLoop_eq hlen _ (Nat.zero_le _), if_pos (by omega)]
    rfl

/-! ## The reader -/

theorem universalNewlines_eq {content : List Char} (h : '\r' ∉ content) :
    universalNewlines content = content := by
  induction content with
  | nil => rfl
  | cons c rest ih =>
      have hc : c ≠ '\r' := fun heq => h (by simp [heq])
      have hrest : '\r' ∉ rest := fun hmem => h (by simp [hmem])
      simp [universalNewlines, hc, ih hrest]

theorem search_eq {inner : List Char} (h : ∀ c ∈ inner, isInner c = true) (rest : List Char) :
    search ('[' :: inner ++ ']' :: rest) = some inner := by
  have htake : (inner ++ ']' :: rest).takeWhile isInner = inner := by
    rw [List.takeWhile_append_of_pos h, List.takeWhile_cons_of_neg (by decide), List.append_nil]
  have hdrop : (inner ++ ']' :: rest).dropWhile isInner = ']' :: rest := by
    rw [List.dropWhile_append_of_pos h, List.dropWhile_cons_of_neg (by decide)]
  rw [List.cons_append, search, hdrop, if_pos ⟨rfl, rfl⟩, htake]

theorem strip_eq {item : List Char} (h : ∀ c ∈ item, isSpacePy c = false) : strip item = item := by
  have hkeep : ∀ l : List Char, (∀ c ∈ l, isSpacePy c = false) → l.dropWhile isSpacePy = l := by
    intro l hl
    cases l with
    | nil => rfl
    | cons c l => rw [List.dropWhile_cons_of_neg (by simp [hl c (by simp)])]
  rw [strip, hkeep item h, hkeep item.reverse (by simpa using h), List.reverse_reverse]

/-- A character of the joined names is a comma or belongs to a name. -/
theorem mem_joined {names : List String} {c : Char} (h : c ∈ joined names) :
    c = ',' ∨ ∃ name ∈ names, c ∈ name.toList := by
  induction names with
  | nil => simp [joined] at h
  | cons name names ih =>
      cases names with
      | nil =>
          refine Or.inr ⟨name, by simp, ?_⟩
          simpa [joined] using h
      | cons next names =>
          rw [joined_cons_cons, List.mem_append, List.mem_cons] at h
          rcases h with h | h | h
          · exact Or.inr ⟨name, by simp, h⟩
          · exact Or.inl h
          · cases ih h with
            | inl h => exact Or.inl h
            | inr h =>
                obtain ⟨n, hn, hc⟩ := h
                exact Or.inr ⟨n, List.mem_cons_of_mem _ hn, hc⟩

/-- The pieces that the script reads; for an empty list there is one, which is empty. -/
def pieces (names : List String) : List (List Char) :=
  if names = [] then [[]] else names.map String.toList

section Plain

variable {names : List String} (h : ∀ name ∈ names, PlainName name)

include h

theorem splitOn_joined : (joined names).splitOn ',' = pieces names := by
  unfold pieces
  split
  · rename_i hnil
    subst hnil
    rfl
  · rename_i hne
    apply List.splitOn_intercalate ','
    · intro w hw
      obtain ⟨name, hname, rfl⟩ := List.mem_map.mp hw
      intro hcomma
      exact ((h name hname).2 ',' hcomma).2.1 rfl
    · simpa using hne

theorem strip_pieces : (pieces names).map strip = pieces names := by
  unfold pieces
  split
  · rfl
  · rw [List.map_map]
    apply List.map_congr_left
    intro name hname
    exact strip_eq fun c hc => ((h name hname).2 c hc).1

/-- The script reads the names back. -/
theorem parseFile_eq : parseFile ('[' :: joined names ++ [']', '\n']) = some (pieces names) := by
  have hplain : ∀ c ∈ joined names, isInner c = true ∧ c ≠ '\r' := by
    intro c hc
    cases mem_joined hc with
    | inl hcomma =>
        subst hcomma
        decide
    | inr hmem =>
        obtain ⟨name, hname, hc⟩ := hmem
        obtain ⟨hspace, -, hopen, hclose⟩ := (h name hname).2 c hc
        refine ⟨by simp [isInner, hopen, hclose], ?_⟩
        intro heq
        subst heq
        exact absurd hspace (by decide)
  have hreturn : '\r' ∉ '[' :: joined names ++ [']', '\n'] := by
    have hinner : '\r' ∉ joined names := fun hmem => (hplain _ hmem).2 rfl
    simp [hinner]
  have hsearch := search_eq (fun c hc => (hplain c hc).1) ['\n']
  rw [parseFile, universalNewlines_eq hreturn, hsearch]
  simp only [Option.bind_eq_bind, Option.bind_some, Option.pure_def]
  rw [splitOn_joined h, strip_pieces h]

theorem nil_mem_pieces : [] ∈ pieces names ↔ names = [] := by
  unfold pieces
  split
  · rename_i hnil
    simp [hnil]
  · rename_i hne
    simp only [hne, iff_false]
    intro hmem
    obtain ⟨name, hname, hnil⟩ := List.mem_map.mp hmem
    exact (h name hname).1 (String.toList_eq_nil_iff.mp hnil)

omit h in
theorem toList_mem_pieces {name : String} (hname : name ≠ "") :
    name.toList ∈ pieces names ↔ name ∈ names := by
  unfold pieces
  split
  · rename_i hnil
    simp [hnil, hname]
  · exact List.mem_map_of_injective fun _ _ => String.toList_injective

end Plain

/-- The empty piece stands for the empty list only. -/
theorem pieces_agree_iff {names names' : List String} (h : ∀ name ∈ names, PlainName name)
    (h' : ∀ name ∈ names', PlainName name) :
    (∀ w, w ∈ pieces names ↔ w ∈ pieces names') ↔ ∀ name, name ∈ names ↔ name ∈ names' := by
  constructor
  · intro hsame name
    by_cases hname : name = ""
    · subst hname
      exact iff_of_false (fun hmem => (h _ hmem).1 rfl) (fun hmem => (h' _ hmem).1 rfl)
    · rw [← toList_mem_pieces hname, ← toList_mem_pieces hname]
      exact hsame name.toList
  · intro hsame w
    by_cases hw : w = []
    · rw [hw, nil_mem_pieces h, nil_mem_pieces h', List.eq_nil_iff_forall_not_mem,
        List.eq_nil_iff_forall_not_mem]
      exact forall_congr' fun name => not_congr (hsame name)
    · have hname : String.ofList w ≠ "" := by simpa using hw
      have hmem := hsame (String.ofList w)
      rwa [← toList_mem_pieces hname, ← toList_mem_pieces hname, String.toList_ofList] at hmem

theorem compareLists_iff {list1 list2 : List (List Char)} :
    compareLists list1 list2 = true ↔ ∀ w, w ∈ list1 ↔ w ∈ list2 := by
  simp only [compareLists, Bool.and_eq_true, List.all_eq_true, List.contains_iff_mem]
  exact ⟨fun h w => ⟨h.1 w, h.2 w⟩, fun h => ⟨fun w => (h w).mp, fun w => (h w).mpr⟩⟩

/-! ## The comparison -/

/-- Both lists are written, and the comparison of the two files tells whether the lists have
the same names. -/
def ComparisonDecides (list1 list2 : List String) : Prop :=
  (∃ content, Writes list1 content) ∧ (∃ content, Writes list2 content) ∧
    ∀ content1 content2, Writes list1 content1 → Writes list2 content2 →
      ∃ parsed1 parsed2, parseFile content1 = some parsed1 ∧ parseFile content2 = some parsed2 ∧
        (compareLists parsed1 parsed2 = true ↔ ∀ name, name ∈ list1 ↔ name ∈ list2)

/-- The counter of the writer has 32 bits and the size of the list has 64. Every list that
the counter can run through is compared rightly, the empty list among them. -/
theorem comparison_decides_iff {list1 list2 : List String}
    (h1 : ∀ name ∈ list1, PlainName name) (h2 : ∀ name ∈ list2, PlainName name) :
    ComparisonDecides list1 list2 ↔ list1.length < 2 ^ 32 ∧ list2.length < 2 ^ 32 := by
  constructor
  · intro h
    obtain ⟨⟨content1, hwrite1⟩, ⟨content2, hwrite2⟩, -⟩ := h
    exact ⟨(writes_iff.mp hwrite1).1, (writes_iff.mp hwrite2).1⟩
  · intro h
    obtain ⟨hlen1, hlen2⟩ := h
    refine ⟨⟨_, writes_iff.mpr ⟨hlen1, rfl⟩⟩, ⟨_, writes_iff.mpr ⟨hlen2, rfl⟩⟩, ?_⟩
    intro content1 content2 hwrite1 hwrite2
    obtain ⟨-, rfl⟩ := writes_iff.mp hwrite1
    obtain ⟨-, rfl⟩ := writes_iff.mp hwrite2
    refine ⟨pieces list1, pieces list2, parseFile_eq h1, parseFile_eq h2, ?_⟩
    rw [compareLists_iff]
    exact pieces_agree_iff h1 h2

theorem plainName_a : PlainName "a" := by
  refine ⟨by decide, fun c hc => ?_⟩
  have ha : c = 'a' := by simpa using hc
  subst ha
  decide

theorem comparison_decides_empty_and_repeated :
    ComparisonDecides [] ["a", "a"] ∧ ComparisonDecides ["a"] ["a", "a"] := by
  have hone : ∀ name ∈ ["a"], PlainName name := by simp [plainName_a]
  have htwo : ∀ name ∈ ["a", "a"], PlainName name := by simp [plainName_a]
  exact ⟨(comparison_decides_iff (by simp) htwo).mpr (by simp),
    (comparison_decides_iff hone htwo).mpr (by simp)⟩

theorem comparison_decides_fails_at_long_list :
    (∀ name ∈ List.replicate (2 ^ 32) "a", PlainName name) ∧
      ¬ ComparisonDecides (List.replicate (2 ^ 32) "a") (List.replicate (2 ^ 32) "a") := by
  constructor
  · intro name hname
    rw [List.eq_of_mem_replicate hname]
    exact plainName_a
  · intro h
    obtain ⟨⟨content, hwrite⟩, -⟩ := h
    have hlen := (writes_iff.mp hwrite).1
    rw [List.length_replicate] at hlen
    exact Nat.lt_irrefl _ hlen

end AcceptableArguments.Validation
