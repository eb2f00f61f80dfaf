import AcceptableArguments.Executables
import AcceptableArguments.Wrappers.KissatSolver

/-!
# The executables with Kissat

The Makefile also links IAQ, EEE and SEE with Kissat, which gives one answer at most.
That is enough if no question is asked at all, or if the first answer is that there is no
stable extension. In every other case the process ends with an error and prints no list.
The library itself writes report lines to standard output during a search, all of them
comments, for the wrapper does not make it quiet.
-/

namespace AcceptableArguments.MainProgram

open AcceptableArguments.Sat Imperative Argumentation Encodings Algorithms Readers
open KissatSolver

/-- The run returns `a` if `p` holds and exits with an error otherwise. -/
structure AnswersIff (p : Prop) {α : Type} (a : α) (x : WrapperM Int α)
    (w : List (Solved Int)) : Prop where
  answers : p → Ensures x w (fun r _ => r = a) (fun _ _ => False)
  exits : ¬ p → Ensures x w (fun _ _ => False) (fun e _ => Exits e)

theorem AnswersIff.congr {p q : Prop} {α : Type} {a b : α} {x : WrapperM Int α}
    {w : List (Solved Int)} (h : AnswersIff p a x w) (hpq : p ↔ q) (hab : p → a = b) :
    AnswersIff q b x w where
  answers hq := hab (hpq.mpr hq) ▸ h.answers (hpq.mpr hq)
  exits hq := h.exits fun hp => hq (hpq.mp hp)

section Rounds

variable {S : Kissat.Search} {perfEnc : Bool} {af : AF} {cs : List Clause} {s : KissatSolver}
  {w : List (Solved Int)}

section OneSolve

variable {β ρ γ : Type} {body : β → WrapperM Int (β ⊕ ρ)} {b : β} {r : ρ}
  {scan : List Bool → Option γ} {clause : γ → Clause} {next : γ → KissatSolver → β} {n : Nat}

end OneSolve

variable (h : AF.Ready perfEnc af)

include h

end Rounds

/-! ## The algorithms -/

section Algorithms

variable {S : Kissat.Search} (hS : S.Correct) {perfEnc : Bool} {af : AF}
  (h : AF.Ready perfEnc af) (hvars : af.count ≤ Kissat.externalMaxVar) {fuel : Nat}
  {w : List (Solved Int)}

include h

include hS hvars

end Algorithms

/-! ## The program -/

end AcceptableArguments.MainProgram
