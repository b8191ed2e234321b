import Mathlib.Data.List.Basic

/-!
# Runs with steps left out

A machine answers every input and moves on, `step : σ → ι → ο × σ`. Leaving steps out of a run
renumbers the rest, so the steps are named by their positions in the full run: `without drop` leaves
out the positions that `drop` marks, of the inputs and of the answers alike.

* `Erasable.answers_without`: two states that are alike for the inputs to come, where a step with an
  idle answer may be made by the first alone. Then the run of the second with any idle steps left
  out gives the answers of the first's full run.
-/

namespace QuietQuic.Lib

universe u v w

variable {α : Type u} {σ : Type u} {ι : Type v} {ο : Type w}

/-- The list without the positions that `drop` marks. -/
def without (drop : Nat → Bool) : List α → List α
  | [] => []
  | a :: l =>
    if drop 0 then without (fun i => drop (i + 1)) l else a :: without (fun i => drop (i + 1)) l

/-- The answers of a run. -/
def answers (step : σ → ι → ο × σ) : σ → List ι → List ο
  | _, [] => []
  | s, a :: l => (step s a).1 :: answers step (step s a).2 l

/-- `alike` holds of two states with the inputs to come: both answer the next one, and an `idle`
answer leaves the first state alike to the second as it was. -/
structure Erasable (step : σ → ι → ο × σ) (idle : ο → Prop) (alike : List ι → σ → σ → Prop) :
    Prop where
  same {a : ι} {l : List ι} {s s' : σ} : alike (a :: l) s s' → (step s' a).1 = (step s a).1
  next {a : ι} {l : List ι} {s s' : σ} : alike (a :: l) s s' → alike l (step s a).2 (step s' a).2
  skip {a : ι} {l : List ι} {s s' : σ} : alike (a :: l) s s' → idle (step s a).1 →
    alike l (step s a).2 s'

/-- **Idle steps may be left out**, any set of them. -/
theorem Erasable.answers_without {step : σ → ι → ο × σ} {idle : ο → Prop}
    {alike : List ι → σ → σ → Prop} (h : Erasable step idle alike) {l : List ι} {s s' : σ}
    (halike : alike l s s') {drop : Nat → Bool}
    (hidle : ∀ i o, drop i = true → (answers step s l)[i]? = some o → idle o) :
    answers step s' (without drop l) = without drop (answers step s l) := by
  induction l generalizing s s' drop with
  | nil => rfl
  | cons a l ih =>
    have hrest : ∀ i o, drop (i + 1) = true → (answers step (step s a).2 l)[i]? = some o → idle o :=
      fun i o hdrop hi => hidle (i + 1) o hdrop hi
    by_cases hdrop : drop 0 = true
    · simp only [answers, without, hdrop, if_true]
      exact ih (h.skip halike (hidle 0 _ hdrop rfl)) hrest
    · simp only [answers, without, hdrop, Bool.false_eq_true, if_false]
      rw [h.same halike, ih (h.next halike) hrest]

end QuietQuic.Lib
