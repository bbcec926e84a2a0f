/-!
# Questions to a machine with a memory

A machine answers questions and may remember something each time. It is consistent when its
memory never shows: the same question has the same answer all along every run.

* `consistent_of_spec`: an invariant of the memory under which the answers follow a
  specification.
-/

namespace GoFtrace.Lib.Memo

variable {σ Q A : Type} (ask : σ → Q → A × σ)

/-- The memory after some questions. -/
def after (s : σ) (qs : List Q) : σ := qs.foldl (fun s q => (ask s q).2) s

/-- The answer to a question after some others. -/
def answer (s : σ) (qs : List Q) (q : Q) : A := (ask (after ask s qs) q).1

/-- A question asked again, after any others, has its first answer. -/
def Consistent (init : σ) : Prop :=
  ∀ (before between : List Q) (q : Q),
    answer ask init (before ++ q :: between) q = answer ask init before q

variable {ask} {Inv : σ → Prop} {init : σ}

theorem after_inv (hinit : Inv init) (hask : ∀ s q, Inv s → Inv (ask s q).2) (qs : List Q) :
    Inv (after ask init qs) := by
  induction qs generalizing init with
  | nil => exact hinit
  | cons q qs ih => exact ih (hask init q hinit)

/-- Answers that follow a specification do not depend on the questions before. -/
theorem consistent_of_spec (spec : Q → A) (hinit : Inv init)
    (hask : ∀ s q, Inv s → (ask s q).1 = spec q ∧ Inv (ask s q).2) : Consistent ask init := by
  have hinv : ∀ qs, Inv (after ask init qs) := after_inv hinit fun s q hs => (hask s q hs).2
  intro before between q
  exact (hask _ q (hinv _)).1.trans (hask _ q (hinv _)).1.symm

end GoFtrace.Lib.Memo
