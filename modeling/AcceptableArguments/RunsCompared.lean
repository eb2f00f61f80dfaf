import AcceptableArguments.ProgramAnswers

/-!
# Runs compared

What can be tested on the outputs without knowing an answer. On one input the outputs for
the five problems fit together, whichever builds have printed them. FUDGE is no exception: on
a framework where its answer depends on the solver it still prints undisputed arguments only.
On two inputs that describe the same framework under different names, in another order or in
the other format, the outputs differ by the renaming. Here FUDGE takes part on frameworks only
where its answer does not depend on the solver.
-/

namespace AcceptableArguments.MainProgram

open AcceptableArguments.Sat Imperative Algorithms Readers Argumentation

/-- The build lists the problem and prints this, with a solver that keeps its contract. -/
def Build.Prints (build : Build) (fileformat : String) (text problem : List Char)
    (out : Outcome) : Prop :=
  ∃ O perfEnc opts, build.Contract O ∧ opts.Asks problem ∧ opts.fileformat = fileformat ∧
    problem ∈ advertised build ∧ Ends build O perfEnc opts text out

section Prints

variable {build : Build} {fileformat : String} {text problem : List Char} {out : Outcome}

theorem Build.Prints.answer (h : build.Prints fileformat text problem out)
    (htext : WellFormed fileformat text) :
    ∃ S answer, out = printed answer ∧ build.AnswerTo (describe fileformat text)
      (stringToTask problem) (stringToSem problem) S answer := by
  obtain ⟨O, perfEnc, opts, hO, hopts, rfl, hlisted, hends⟩ := h
  obtain ⟨S, answer, hanswer, hprints⟩ := ends_with_answer perfEnc hopts hlisted htext hO
  exact ⟨S, answer, (hprints out).mp hends, hanswer⟩

theorem Build.Prints.listed (h : build.Prints fileformat text problem out) :
    (stringToTask problem, stringToSem problem) ∈ build.supported := by
  obtain ⟨O, perfEnc, opts, -, -, -, hlisted, -⟩ := h
  exact supported_of_advertised hlisted

/-- Apart from FUDGE, which lists one problem, the accepted names are printed. -/
theorem Build.Prints.accepted (h : build.Prints fileformat text problem out)
    (htext : WellFormed fileformat text)
    (hproblem : (stringToTask problem, stringToSem problem) ≠ (.ES, .PR)) :
    ∃ answer : List String, out = printed answer ∧ answer.Nodup ∧
      ∀ s, s ∈ answer ↔ s ∈ accepted (describe fileformat text) (stringToTask problem)
        (stringToSem problem) := by
  have hfudge : build ≠ .FUDGE := by
    intro hfudge
    have hlisted := h.listed
    rw [hfudge] at hlisted
    exact hproblem (by simpa [Build.supported] using hlisted)
  obtain ⟨S, answer, hout, hanswer⟩ := h.answer htext
  exact ⟨answer, hout, hanswer.nodup, hanswer.mem_accepted (Build.decides_of_ne hfudge _)⟩

end Prints

/-- Whatever a build prints for ES-PR is undisputed. -/
theorem Build.AnswerTo.undisputed {build : Build} {D : Description} {S : Set D.Arg}
    {answer : List String} (h : build.AnswerTo D .ES .PR S answer) {s : String}
    (hs : s ∈ answer) : ∃ hmem : s ∈ D.names, Undisputed D.att ⟨s, hmem⟩ := by
  obtain ⟨x, hx, rfl⟩ := (h.mem_iff s).mp hs
  refine ⟨x.2, ?_⟩
  by_cases hfudge : build = .FUDGE
  · exact h.allowed.undisputed hfudge x hx
  · rw [h.allowed.eq_of_decides (Build.decides_of_ne hfudge _)] at hx
    exact Skeptical.undisputed hx

/-! ## The five problems on one input -/

section Problems

variable {α : Type*} (att : α → α → Prop)

theorem accepts_complete : Task.EC.accepts .CO att = Task.EC.accepts .PR att :=
  sUnion_complete

theorem accepts_stable_subset : Task.EC.accepts .ST att ⊆ Task.EC.accepts .PR att :=
  Set.sUnion_subset_sUnion fun _ hS => Stable.preferred hS

variable {att}

/-- As soon as there is a stable extension, stable acceptance has its usual order. -/
theorem accepts_stable_of_mem {x y : α} (hx : x ∈ Task.EC.accepts .ST att)
    (hy : y ∈ Task.ES.accepts .ST att) : y ∈ Task.EC.accepts .ST att := by
  obtain ⟨S, hS, -⟩ := hx
  exact ⟨S, hS, hy S hS⟩

/-- If no argument is in a stable extension, then there is none, or no argument at all. -/
theorem accepts_stable_of_empty (h : ∀ x, x ∉ Task.EC.accepts .ST att) (y : α) :
    y ∈ Task.ES.accepts .ST att := by
  intro S hS
  by_contra hyS
  obtain ⟨x, hx, -⟩ := Stable.attacks hS y hyS
  exact h x ⟨S, hS, hx⟩

end Problems

theorem accepted_mono {D : Description} {task task' : Task} {sem sem' : Semantics}
    (h : task.accepts sem D.att ⊆ task'.accepts sem' D.att) :
    accepted D task sem ⊆ accepted D task' sem' := by
  intro s hs
  obtain ⟨hmem, hs⟩ := hs
  exact ⟨hmem, h hs⟩

/-- How the answers to the five problems on one framework are related. -/
structure FitTogether (D : Description) (ecCO ecPR ecST esPR esST : List String) : Prop where
  complete_preferred : ecCO.Perm ecPR
  stable_subset : ecST ⊆ ecPR
  skeptical_subset : esPR ⊆ ecPR
  skeptical_stable : esPR ⊆ esST
  stable_of_ne_nil : ecST ≠ [] → esST ⊆ ecST
  stable_of_nil : ecST = [] → D.names ⊆ esST
  not_attacks : ∀ s ∈ ecPR, ∀ t ∈ esPR, ¬ D.attacks s t

theorem fitTogether_of_accepted {D : Description} {ecCO ecPR ecST esPR esST : List String}
    (hnodup : ecCO.Nodup) (hnodup' : ecPR.Nodup)
    (hCO : ∀ s, s ∈ ecCO ↔ s ∈ accepted D .EC .CO) (hPR : ∀ s, s ∈ ecPR ↔ s ∈ accepted D .EC .PR)
    (hST : ∀ s, s ∈ ecST ↔ s ∈ accepted D .EC .ST)
    (hSPR : ∀ s ∈ esPR, ∃ hs : s ∈ D.names, Undisputed D.att ⟨s, hs⟩)
    (hSST : ∀ s, s ∈ esST ↔ s ∈ accepted D .ES .ST) :
    FitTogether D ecCO ecPR ecST esPR esST where
  complete_preferred := by
    rw [List.perm_ext_iff_of_nodup hnodup hnodup']
    intro s
    rw [hCO, hPR]
    exact ⟨fun hs => accepted_mono (accepts_complete D.att).subset hs,
      fun hs => accepted_mono (accepts_complete D.att).superset hs⟩
  stable_subset := fun s hs =>
    (hPR s).mpr (accepted_mono (accepts_stable_subset D.att) ((hST s).mp hs))
  skeptical_subset := by
    intro s hs
    obtain ⟨hmem, hundisputed⟩ := hSPR s hs
    exact (hPR s).mpr ⟨hmem, hundisputed.credulous⟩
  skeptical_stable := by
    intro s hs
    obtain ⟨hmem, hundisputed⟩ := hSPR s hs
    exact (hSST s).mpr ⟨hmem, fun S hS => hundisputed.mem_stable hS⟩
  stable_of_ne_nil := by
    intro hne s hs
    obtain ⟨t, ht⟩ := List.exists_mem_of_ne_nil ecST hne
    obtain ⟨_, ht⟩ := (hST t).mp ht
    obtain ⟨hmem, hs⟩ := (hSST s).mp hs
    exact (hST s).mpr ⟨hmem, accepts_stable_of_mem ht hs⟩
  stable_of_nil := by
    intro hnil s hs
    refine (hSST s).mpr ⟨hs, accepts_stable_of_empty (fun x hx => ?_) _⟩
    have hmem := (hST x.val).mpr ⟨x.2, hx⟩
    rw [hnil] at hmem
    cases hmem
  not_attacks := by
    intro s hs t ht
    obtain ⟨hsmem, hs⟩ := (hPR s).mp hs
    obtain ⟨htmem, ht⟩ := hSPR t ht
    have hno : ¬ D.att ⟨s, hsmem⟩ ⟨t, htmem⟩ := ht.not_attacks hs
    exact hno

/-- The outputs for the five problems on one well-formed text fit together, whichever builds,
encodings and solvers have printed them. -/
theorem problems_fit_together (fileformat : String) (text : List Char)
    (htext : WellFormed fileformat text) (build₁ build₂ build₃ build₄ build₅ : Build)
    (co pr st spr sst : Outcome) (hco : build₁.Prints fileformat text "EC-CO".toList co)
    (hpr : build₂.Prints fileformat text "EC-PR".toList pr)
    (hst : build₃.Prints fileformat text "EC-ST".toList st)
    (hspr : build₄.Prints fileformat text "ES-PR".toList spr)
    (hsst : build₅.Prints fileformat text "ES-ST".toList sst) :
    ∃ ecCO ecPR ecST esPR esST : List String, co = printed ecCO ∧ pr = printed ecPR ∧
      st = printed ecST ∧ spr = printed esPR ∧ sst = printed esST ∧
      FitTogether (describe fileformat text) ecCO ecPR ecST esPR esST := by
  obtain ⟨ecCO, hecCO, hnodup, hCO⟩ := hco.accepted htext (by decide)
  obtain ⟨ecPR, hecPR, hnodup', hPR⟩ := hpr.accepted htext (by decide)
  obtain ⟨ecST, hecST, -, hST⟩ := hst.accepted htext (by decide)
  obtain ⟨esST, hesST, -, hSST⟩ := hsst.accepted htext (by decide)
  obtain ⟨S, esPR, hesPR, hSPR⟩ := hspr.answer htext
  exact ⟨ecCO, ecPR, ecST, esPR, esST, hecCO, hecPR, hecST, hesPR, hesST,
    fitTogether_of_accepted hnodup hnodup' hCO hPR hST (fun s hs => hSPR.undisputed hs) hSST⟩

/-- On a well-formed text every build has an output for each problem that it lists. -/
theorem exists_prints {fileformat : String} {text : List Char}
    (htext : WellFormed fileformat text) (build : Build) (problem : List Char)
    (hlisted : problem ∈ advertised build) : ∃ out, build.Prints fileformat text problem out := by
  let opts : Options :=
    ⟨7, "solver", false, false, false, false, false, problem, ['a', 'f'], fileformat⟩
  have hopts : opts.Asks problem :=
    ⟨by simp [opts], rfl, rfl, rfl, rfl, rfl, rfl, by simp [opts]⟩
  obtain ⟨O, hO⟩ := build.exists_contract
  obtain ⟨S, answer, -, hends⟩ := ends_with_answer true hopts hlisted htext hO
  exact ⟨printed answer, O, true, opts, hO, hopts, rfl, hlisted, (hends _).mpr rfl⟩

/-- All five builds have a part in the outputs. -/
theorem problems_fit_together_attack : ∃ ecCO ecPR ecST esPR esST : List String,
    Build.IAQ.Prints "" "p af 2\n1 2".toList "EC-CO".toList (printed ecCO) ∧
    Build.EEE.Prints "" "p af 2\n1 2".toList "EC-PR".toList (printed ecPR) ∧
    Build.SEE.Prints "" "p af 2\n1 2".toList "EC-ST".toList (printed ecST) ∧
    Build.FUDGE.Prints "" "p af 2\n1 2".toList "ES-PR".toList (printed esPR) ∧
    Build.SEEM.Prints "" "p af 2\n1 2".toList "ES-ST".toList (printed esST) ∧
    FitTogether (describe "" "p af 2\n1 2".toList) ecCO ecPR ecST esPR esST := by
  obtain ⟨co, hco⟩ := exists_prints wellFormed_attack .IAQ "EC-CO".toList (by decide)
  obtain ⟨pr, hpr⟩ := exists_prints wellFormed_attack .EEE "EC-PR".toList (by decide)
  obtain ⟨st, hst⟩ := exists_prints wellFormed_attack .SEE "EC-ST".toList (by decide)
  obtain ⟨spr, hspr⟩ := exists_prints wellFormed_attack .FUDGE "ES-PR".toList (by decide)
  obtain ⟨sst, hsst⟩ := exists_prints wellFormed_attack .SEEM "ES-ST".toList (by decide)
  obtain ⟨ecCO, ecPR, ecST, esPR, esST, rfl, rfl, rfl, rfl, rfl, hfit⟩ := problems_fit_together ""
    "p af 2\n1 2".toList wellFormed_attack .IAQ .EEE .SEE .FUDGE .SEEM co pr st spr sst hco hpr
    hst hspr hsst
  exact ⟨ecCO, ecPR, ecST, esPR, esST, hco, hpr, hst, hspr, hsst, hfit⟩

/-! ## One framework under two names -/

/-- The output as a list of arguments of the described framework. -/
theorem Build.Prints.arguments {build : Build} {fileformat : String} {text problem : List Char}
    {out : Outcome} (h : build.Prints fileformat text problem out)
    (htext : WellFormed fileformat text)
    (hdecides : build.Decides (describe fileformat text).att) :
    ∃ args : List (describe fileformat text).Arg, out = printed (args.map Subtype.val) ∧
      args.Nodup ∧ ∀ a, a ∈ args ↔ a ∈ (stringToTask problem).accepts (stringToSem problem)
        (describe fileformat text).att := by
  obtain ⟨S, answer, hout, hanswer⟩ := h.answer htext
  have hmem := hanswer.mem_accepted hdecides
  have hnames : ∀ s ∈ answer, s ∈ (describe fileformat text).names :=
    fun s hs => ((hmem s).mp hs).1
  refine ⟨answer.attachWith _ hnames, ?_, ?_, fun a => ?_⟩
  · rw [List.attachWith_map_subtype_val]
    exact hout
  · apply List.Nodup.of_map Subtype.val
    rw [List.attachWith_map_subtype_val]
    exact hanswer.nodup
  · rw [List.mem_attachWith, hmem]
    constructor
    · intro ha
      obtain ⟨_, ha⟩ := ha
      exact ha
    · exact fun ha => ⟨a.2, ha⟩

/-- Two texts, in whatever formats, that describe the same framework under a renaming get
outputs that are the same up to the renaming and the order, from any two builds whose answer
does not depend on the solver there. This excludes FUDGE on some frameworks and no other
build. -/
theorem renaming_renames_output (fileformat fileformat' : String) (text text' : List Char)
    (htext : WellFormed fileformat text) (htext' : WellFormed fileformat' text')
    (e : (describe fileformat text).att ≃r (describe fileformat' text').att)
    (build build' : Build) (hdecides : build.Decides (describe fileformat text).att)
    (hdecides' : build'.Decides (describe fileformat' text').att) (problem : List Char)
    (out out' : Outcome) (hout : build.Prints fileformat text problem out)
    (hout' : build'.Prints fileformat' text' problem out') :
    ∃ (args : List (describe fileformat text).Arg) (args' : List (describe fileformat' text').Arg),
      out = printed (args.map Subtype.val) ∧ out' = printed (args'.map Subtype.val) ∧
        args'.Perm (args.map e) := by
  obtain ⟨args, hargs, hnodup, hmem⟩ := hout.arguments htext hdecides
  obtain ⟨args', hargs', hnodup', hmem'⟩ := hout'.arguments htext' hdecides'
  refine ⟨args, args', hargs, hargs', ?_⟩
  rw [List.perm_ext_iff_of_nodup hnodup' (hnodup.map e.injective)]
  intro b
  obtain ⟨a, rfl⟩ := e.surjective b
  rw [hmem', accepts_map e, ← hmem, List.mem_map_of_injective e.injective]

theorem describe_tgf {text : List Char} {names : List String} {atts : List (String × String)}
    (hnames : tgfNames (InStream.words isSpace text) = names)
    (hatts : tgfAttacks (tgfRest (InStream.words isSpace text)) = atts) :
    describe "tgf" text = ⟨names, fun s t => (s, t) ∈ atts⟩ := by
  simp only [describe, if_true, describeTgf, hnames, hatts]

theorem wellFormed_tgf {text : List Char}
    (hseparated : ['#'] ∈ InStream.words isSpace text)
    (hdistinct : (tgfNames (InStream.words isSpace text)).Nodup)
    (hsmall : 4 * (tgfNames (InStream.words isSpace text)).length + text.length <
      2 ^ 31) : WellFormed "tgf" text where
  supported := by simp
  separated := fun _ => Or.inl hseparated
  stated := fun hne => absurd rfl hne
  distinct := hdistinct
  small := hsmall

/-- `a` is renamed to `y` and `b` to `x`. -/
def renameAttack : Description.att ⟨["a", "b"], fun s t => (s, t) ∈ [("a", "b")]⟩ ≃r
    Description.att ⟨["x", "y"], fun s t => (s, t) ∈ [("y", "x")]⟩ where
  toFun s := if s.val = "a" then ⟨"y", by decide⟩ else ⟨"x", by decide⟩
  invFun s := if s.val = "y" then ⟨"a", by decide⟩ else ⟨"b", by decide⟩
  left_inv := by decide
  right_inv := by decide
  map_rel_iff' := by
    unfold Description.att
    decide

theorem renaming_renames_output_attack :
    ∃ (e : (describe "tgf" "a b # a b".toList).att ≃r (describe "tgf" "x y # y x".toList).att)
      (args : List (describe "tgf" "a b # a b".toList).Arg)
      (args' : List (describe "tgf" "x y # y x".toList).Arg), args'.Perm (args.map e) ∧
      Build.SEE.Prints "tgf" "a b # a b".toList "EC-ST".toList
        (printed (args.map Subtype.val)) ∧
      Build.EEE.Prints "tgf" "x y # y x".toList "EC-ST".toList
        (printed (args'.map Subtype.val)) := by
  have hab : WellFormed "tgf" "a b # a b".toList :=
    wellFormed_tgf (by decide) (by decide) (by decide)
  have hxy : WellFormed "tgf" "x y # y x".toList :=
    wellFormed_tgf (by decide) (by decide) (by decide)
  have hdescribe : describe "tgf" "a b # a b".toList =
      ⟨["a", "b"], fun s t => (s, t) ∈ [("a", "b")]⟩ := describe_tgf (by decide) (by decide)
  have hdescribe' : describe "tgf" "x y # y x".toList =
      ⟨["x", "y"], fun s t => (s, t) ∈ [("y", "x")]⟩ := describe_tgf (by decide) (by decide)
  have e : (describe "tgf" "a b # a b".toList).att ≃r
      (describe "tgf" "x y # y x".toList).att := by
    rw [hdescribe, hdescribe']
    exact renameAttack
  obtain ⟨out, hout⟩ := exists_prints hab .SEE "EC-ST".toList (by decide)
  obtain ⟨out', hout'⟩ := exists_prints hxy .EEE "EC-ST".toList (by decide)
  obtain ⟨args, args', hargs, hargs', hperm⟩ := renaming_renames_output "tgf" "tgf"
    "a b # a b".toList "x y # y x".toList hab hxy e .SEE .EEE trivial trivial "EC-ST".toList out
    out' hout hout'
  exact ⟨e, args, args', hperm, hargs ▸ hout, hargs' ▸ hout'⟩

end AcceptableArguments.MainProgram
