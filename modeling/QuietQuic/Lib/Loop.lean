import Mathlib.Logic.Basic

/-!
# Loops with a fuel bound

A `loop { .. }` or `while let` body is a function `f : σ → Ctl σ`: one more round, or leave with
a final state. `loop f n` runs at most `n` rounds.

* `loop_inv`: a predicate kept by every round holds of the result, whatever the fuel.
* `loop_exit`: with a rank `r` that every further round lowers, the fuel `r s + 1` is enough: the
  loop leaves through `done`, from a state the invariant holds of.
* `loop_fuel`: with such a rank, more fuel changes nothing.
* `loop_sim`: two loops in lockstep end related.
* `visited`, `loop_visited`: the states its rounds start from, and the invariant rule for what
  relates them to the result.
* `forall_split_cons`: what holds at every step of a list of steps holds at its first and at the
  others.
-/

namespace QuietQuic.Lib

universe u v

/-- What one round of a loop decides. -/
inductive Ctl (σ : Type u) where
  | again (s : σ)
  | done (s : σ)

/-- At most `n` rounds of `f`. -/
def loop {σ : Type u} (f : σ → Ctl σ) : Nat → σ → σ
  | 0, s => s
  | n + 1, s =>
    match f s with
    | .again s' => loop f n s'
    | .done s' => s'

variable {σ : Type u} {f : σ → Ctl σ}

theorem loop_again {n : Nat} {s s' : σ} (h : f s = .again s') :
    loop f (n + 1) s = loop f n s' := by
  simp only [loop, h]

theorem loop_done {n : Nat} {s s' : σ} (h : f s = .done s') : loop f (n + 1) s = s' := by
  simp only [loop, h]

/-- **The invariant rule.** A predicate every round keeps, the leaving round included, holds of
the result for any fuel. -/
theorem loop_inv {I : σ → Prop} (hagain : ∀ s s', I s → f s = .again s' → I s')
    (hdone : ∀ s s', I s → f s = .done s' → I s') :
    ∀ (n : Nat) {s : σ}, I s → I (loop f n s)
  | 0, _, h => h
  | n + 1, s, h => by
    cases hf : f s with
    | again s' =>
      rw [loop_again hf]
      exact loop_inv hagain hdone n (hagain s s' h hf)
    | done s' =>
      rw [loop_done hf]
      exact hdone s s' h hf

/-- **The exit rule.** When every further round lowers the rank `r`, more fuel than the rank makes the
loop leave through `done`, from a state that still satisfies the invariant. -/
theorem loop_exit {I : σ → Prop} {r : σ → Nat}
    (hagain : ∀ s s', I s → f s = .again s' → I s' ∧ r s' < r s) :
    ∀ {n : Nat} {s : σ}, r s < n → I s → ∃ t, I t ∧ f t = .done (loop f n s)
  | 0, _, hn, _ => absurd hn (Nat.not_lt_zero _)
  | n + 1, s, hn, h => by
    cases hf : f s with
    | again s' =>
      obtain ⟨hI, hlt⟩ := hagain s s' h hf
      rw [loop_again hf]
      exact loop_exit hagain (by omega) hI
    | done s' =>
      rw [loop_done hf]
      exact ⟨s, h, hf⟩

/-- **Fuel past the rank changes nothing.** -/
theorem loop_fuel {r : σ → Nat} (hagain : ∀ s s', f s = .again s' → r s' < r s) :
    ∀ {n m : Nat} {s : σ}, r s < n → r s < m → loop f n s = loop f m s
  | 0, _, _, hn, _ => absurd hn (Nat.not_lt_zero _)
  | _, 0, _, _, hm => absurd hm (Nat.not_lt_zero _)
  | n + 1, m + 1, s, hn, hm => by
    cases hf : f s with
    | again s' =>
      have hlt := hagain s s' hf
      rw [loop_again hf, loop_again hf]
      exact loop_fuel hagain (by omega) (by omega)
    | done s' => rw [loop_done hf, loop_done hf]

/-- **Lockstep**: two loops whose rounds go on and end together, and keep a relation, end related. -/
theorem loop_sim {τ : Type v} {g : τ → Ctl τ} {R : σ → τ → Prop}
    (hround : ∀ s t, R s t →
      (∃ s' t', f s = .again s' ∧ g t = .again t' ∧ R s' t') ∨
        ∃ s' t', f s = .done s' ∧ g t = .done t' ∧ R s' t') :
    ∀ (n : Nat) {s : σ} {t : τ}, R s t → R (loop f n s) (loop g n t)
  | 0, _, _, h => h
  | n + 1, s, t, h => by
    rcases hround s t h with ⟨s', t', hf, hg, hR⟩ | ⟨s', t', hf, hg, hR⟩
    · rw [loop_again hf, loop_again hg]
      exact loop_sim hround n hR
    · rw [loop_done hf, loop_done hg]
      exact hR

/-- The states the rounds of `loop f n` start from, in order. -/
def visited (f : σ → Ctl σ) : Nat → σ → List σ
  | 0, _ => []
  | n + 1, s =>
    s :: match f s with
      | .again s' => visited f n s'
      | .done _ => []

theorem loop_visited_from {I : List σ → σ → Prop}
    (hagain : ∀ l s s', I l s → f s = .again s' → I (l ++ [s]) s')
    (hdone : ∀ l s s', I l s → f s = .done s' → I (l ++ [s]) s') :
    ∀ (n : Nat) {l : List σ} {s : σ}, I l s → I (l ++ visited f n s) (loop f n s)
  | 0, l, _, h => by
    rw [visited, List.append_nil]
    exact h
  | n + 1, l, s, h => by
    cases hf : f s with
    | again s' =>
      have hrest := loop_visited_from hagain hdone n (hagain l s s' h hf)
      rw [loop_again hf, visited, hf]
      simpa using hrest
    | done s' =>
      rw [loop_done hf, visited, hf]
      exact hdone l s s' h hf

/-- **The invariant rule with the history**: `I` relates the states visited so far to the present
one. -/
theorem loop_visited {I : List σ → σ → Prop}
    (hagain : ∀ l s s', I l s → f s = .again s' → I (l ++ [s]) s')
    (hdone : ∀ l s s', I l s → f s = .done s' → I (l ++ [s]) s') (n : Nat) {s : σ} (h : I [] s) :
    I (visited f n s) (loop f n s) :=
  loop_visited_from hagain hdone n h

/-! ## Lists of steps -/

theorem forall_split_cons {α : Type u} {P : List α → α → List α → Prop} {x : α} {l : List α} :
    (∀ before y after, x :: l = before ++ y :: after → P before y after) ↔
      P [] x l ∧ ∀ before y after, l = before ++ y :: after → P (x :: before) y after := by
  constructor
  · intro h
    refine ⟨h [] x l rfl, ?_⟩
    rintro before y after rfl
    exact h (x :: before) y after rfl
  · rintro ⟨hfirst, hrest⟩ before y after heq
    cases before with
    | nil =>
      obtain ⟨rfl, rfl⟩ := List.cons.inj heq
      exact hfirst
    | cons z before =>
      obtain ⟨rfl, hl⟩ := List.cons.inj heq
      exact hrest before y after hl

end QuietQuic.Lib
