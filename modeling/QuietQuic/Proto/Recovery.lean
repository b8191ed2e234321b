import QuietQuic.Lib.Erasure
import QuietQuic.Proto.Budget

/-!
# Denied attempts and a bucket's recovery

A denied `try_take` is not free of effects: it refills, caps what it refilled, moves `last_update`,
and on the first call starts the clock. None of that can be told from the verdicts.

* `refill_refill`: refills compose over any split of the time between them, at the cap, at no
  elapsed time, and where the first of them starts the clock of a full bucket.
* `denials_leave_no_trace`: so denied calls may be left out of any sequence at non-decreasing
  instants, and the other verdicts stay.
-/

namespace QuietQuic.Proto.TokenBucket

open QuietQuic.Lib

/-! ## Refills compose -/

/-- A cap that is passed on the way is still the cap at the end. -/
theorem min_add_min {x y cap : ℚ} (hy : 0 ≤ y) : min (min x cap + y) cap = min (x + y) cap := by
  rw [← min_add_add_right, min_assoc, min_eq_right (le_add_of_nonneg_right hy)]

/-- A bucket whose clock has not started is full. -/
def Startable (b : TokenBucket) : Prop := b.lastUpdate = none → b.tokens = b.capacity

/-- **Refills compose.** -/
theorem refill_refill {b : TokenBucket} (hrefill : 0 ≤ b.refillPerSec) (hstart : b.Startable)
    {now later : Instant} (h : now ≤ later) : (b.refill now).refill later = b.refill later := by
  cases hlast : b.lastUpdate with
  | none =>
    rw [refill_of_none hlast, refill_of_none hlast]
    rcases h.eq_or_lt with rfl | hlt
    · exact refill_of_le rfl (Nat.le_refl _)
    · -- a full bucket stays full
      have hpaid : 0 ≤ elapsedSecs later now * b.refillPerSec :=
        mul_nonneg (elapsedSecs_nonneg later now) hrefill
      rw [refill_of_lt rfl hlt]
      dsimp only
      rw [hstart hlast, min_eq_right (le_add_of_nonneg_right hpaid)]
  | some last =>
    rcases Nat.lt_or_ge last now with hlt | hge
    · rw [refill_of_lt hlast hlt]
      rcases h.eq_or_lt with rfl | hlater
      · rw [refill_of_le rfl (Nat.le_refl _), refill_of_lt hlast hlt]
      · rw [refill_of_lt rfl hlater, refill_of_lt hlast (hlt.trans hlater)]
        dsimp only
        rw [min_add_min (mul_nonneg (elapsedSecs_nonneg later now) hrefill), add_assoc, ← add_mul,
          add_comm (elapsedSecs now last), ← elapsedSecs_add hlt.le hlater.le]
    · rw [refill_of_le hlast hge]

/-! ## Leaving denials out -/

/-- A take sees nothing of the bucket but its refill. -/
theorem tryTake_congr {b b' : TokenBucket} {now : Instant} (h : b.refill now = b'.refill now) :
    b.tryTake now = b'.tryTake now := by
  unfold tryTake
  rw [h]

/-- A denied take is a refill. -/
theorem tryTake_denied {b : TokenBucket} {now : Instant} (h : (b.tryTake now).1 = false) :
    (b.tryTake now).2 = b.refill now := by
  unfold tryTake at h ⊢
  dsimp only at h ⊢
  split at h
  · exact absurd h (by simp)
  · rw [if_neg (by assumption)]

theorem takeAll_answers (b : TokenBucket) (calls : List Instant) :
    (b.takeAll calls).1 = answers tryTake b calls := by
  induction calls generalizing b with
  | nil => rfl
  | cons now calls ih => exact congrArg _ (ih _)

/-- What a bucket made by `new` stays through all calls: within its bounds, and full until the
clock starts. -/
structure Runs (b : TokenBucket) (capacity refillPerSec : ℚ) : Prop where
  fits : b.Fits capacity refillPerSec
  start : b.Startable

section Runs

variable {capacity refillPerSec : ℚ} (hcap : 0 ≤ capacity) (hrefill : 0 ≤ refillPerSec)
include hcap

theorem runs_new : (new capacity refillPerSec).Runs capacity refillPerSec :=
  ⟨fits_new hcap, fun _ => rfl⟩

include hrefill

theorem Runs.tryTake {b : TokenBucket} (h : b.Runs capacity refillPerSec) (now : Instant) :
    (b.tryTake now).2.Runs capacity refillPerSec := by
  obtain ⟨hfits, hclock, -⟩ := h.fits.tryTake_spec hcap hrefill now
  exact ⟨hfits, fun hnone => absurd (hclock.symm.trans hnone) (by simp)⟩

theorem Runs.takeAll {b : TokenBucket} (h : b.Runs capacity refillPerSec) (calls : List Instant) :
    (b.takeAll calls).2.Runs capacity refillPerSec := by
  induction calls generalizing b with
  | nil => exact h
  | cons now calls ih => exact ih (h.tryTake hcap hrefill now)

/-- Two buckets are alike for calls at non-decreasing instants if they refill alike for each. -/
theorem erasable : Erasable TokenBucket.tryTake (· = false) fun calls (b b' : TokenBucket) =>
    calls.Pairwise (· ≤ ·) ∧ b.Runs capacity refillPerSec ∧
      ∀ now ∈ calls, b.refill now = b'.refill now where
  same := by
    rintro now calls b b' ⟨-, -, halike⟩
    rw [tryTake_congr (halike now List.mem_cons_self)]
  next := by
    rintro now calls b b' ⟨hcalls, hruns, halike⟩
    refine ⟨hcalls.of_cons, hruns.tryTake hcap hrefill now, fun later _ => ?_⟩
    rw [tryTake_congr (halike now List.mem_cons_self)]
  skip := by
    rintro now calls b b' ⟨hcalls, hruns, halike⟩ hdenied
    refine ⟨hcalls.of_cons, hruns.tryTake hcap hrefill now, fun later hlater => ?_⟩
    have hle : now ≤ later := List.rel_of_pairwise_cons hcalls hlater
    have hrate : 0 ≤ b.refillPerSec := by
      rw [hruns.fits.rate]
      exact hrefill
    rw [tryTake_denied hdenied, refill_refill hrate hruns.start hle]
    exact halike later (List.mem_cons_of_mem _ hlater)

end Runs

/-- **Denied calls leave no trace.** Of a bucket of any capacity and refill rate that are not
negative, after any calls: in every sequence of calls at non-decreasing instants, any set of denied
calls may be left out, and every other call keeps its verdict. Whatever is called, after every call
and inside it, once it has refilled, there are between no tokens and the capacity. -/
theorem denials_leave_no_trace {capacity refillPerSec : ℚ} (hcap : 0 ≤ capacity)
    (hrefill : 0 ≤ refillPerSec) (before : List Instant) :
    let b := ((new capacity refillPerSec).takeAll before).2
    (∀ calls : List Instant, calls.Pairwise (· ≤ ·) → ∀ drop : Nat → Bool,
      (∀ i verdict, drop i = true → (b.takeAll calls).1[i]? = some verdict → verdict = false) →
      (b.takeAll (without drop calls)).1 = without drop (b.takeAll calls).1) ∧
    ∀ calls : List Instant,
      let b' := (b.takeAll calls).2
      b'.capacity = capacity ∧ (0 ≤ b'.tokens ∧ b'.tokens ≤ capacity) ∧
        ∀ now, 0 ≤ (b'.refill now).tokens ∧ (b'.refill now).tokens ≤ capacity := by
  intro b
  have hruns : b.Runs capacity refillPerSec :=
    (runs_new hcap).takeAll hcap hrefill before
  refine ⟨fun calls hcalls drop hdrop => ?_, fun calls => ?_⟩
  · rw [takeAll_answers] at hdrop
    rw [takeAll_answers, takeAll_answers]
    exact (erasable hcap hrefill).answers_without ⟨hcalls, hruns, fun _ _ => rfl⟩ hdrop
  · have hfits := (hruns.takeAll hcap hrefill calls).fits
    refine ⟨hfits.cap, ⟨hfits.nonneg, hfits.full⟩, fun now => ?_⟩
    obtain ⟨hfits', -⟩ := hfits.refill_spec hcap hrefill now
    exact ⟨hfits'.nonneg, hfits'.full⟩

/-- A bucket of one token a second: the call 10 ms after the first is denied, and the one after
two seconds is not, with that call or without it. -/
theorem denials_leave_no_trace_recovers :
    ((new 1 1).takeAll [0, 10000000, 2000000000]).1 = [true, false, true] ∧
      ((new 1 1).takeAll [0, 2000000000]).1 = [true, true] := by
  have hfull : ((new 1 1).takeAll [0, 10000000, 2000000000]).1 = [true, false, true] := by
    decide +kernel
  have hdenied : ∀ i verdict, (i == 1) = true →
      ((new 1 1).takeAll [0, 10000000, 2000000000]).1[i]? = some verdict → verdict = false := by
    intro i verdict hi hverdict
    obtain rfl : i = 1 := by simpa using hi
    rw [hfull] at hverdict
    exact (Option.some.inj hverdict).symm
  have hless := (denials_leave_no_trace (zero_le_one (α := ℚ)) (zero_le_one (α := ℚ)) []).1
    [0, 10000000, 2000000000] (by decide) (· == 1) hdenied
  exact ⟨hfull, hless.trans (congrArg (without (· == 1)) hfull)⟩

end QuietQuic.Proto.TokenBucket
