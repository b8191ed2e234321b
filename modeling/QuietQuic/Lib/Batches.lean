import Mathlib.Data.List.Nodup

/-!
# Batches taken in order

A `batch` is a key with a list of items. A log notes, entry by entry, which items were taken from
which batch. `InOrder` says that the log takes every batch from its front, and one batch after the
other: once something of a later batch was taken, nothing of an earlier one is.

* `InOrder.begin`: one more batch, with nothing taken from it yet.
* `InOrder.extend`: more of a batch is taken, while nothing of a later one has been.
* `InOrder.whole_prefix`, `InOrder.whole_eq`: the log of batches that are through.
-/

namespace QuietQuic.Lib

universe u v

variable {κ : Type u} {α : Type v} [DecidableEq κ]

/-- What the log has taken from the batch of a key. -/
def takenOf (k : κ) (log : List (κ × List α)) : List α :=
  (log.filter fun x => x.1 = k).flatMap Prod.snd

theorem takenOf_append (k : κ) (log log' : List (κ × List α)) :
    takenOf k (log ++ log') = takenOf k log ++ takenOf k log' := by
  simp [takenOf]

theorem takenOf_single (k a : κ) (items : List α) :
    takenOf k [(a, items)] = if a = k then items else [] := by
  by_cases h : a = k <;> simp [takenOf, h]

theorem takenOf_concat (k a : κ) (items : List α) (log : List (κ × List α)) :
    takenOf k (log ++ [(a, items)]) = if a = k then takenOf k log ++ items else takenOf k log := by
  rw [takenOf_append, takenOf_single]
  split
  · rfl
  · exact List.append_nil _

theorem takenOf_eq_nil {k : κ} {log : List (κ × List α)} (h : ∀ x ∈ log, x.1 ≠ k) :
    takenOf k log = [] := by
  unfold takenOf
  rw [List.filter_eq_nil_iff.mpr fun x hx => by simpa using h x hx]
  rfl

/-- An entry that took something is part of what was taken. -/
theorem takenOf_ne_nil {x : κ × List α} {log : List (κ × List α)} (hx : x ∈ log)
    (hne : x.2 ≠ []) : takenOf x.1 log ≠ [] := by
  intro hnil
  refine hne (List.flatMap_eq_nil_iff.mp hnil x ?_)
  exact List.mem_filter.mpr ⟨hx, by simp⟩

/-- The log takes the batches in their order, each from its front. -/
structure InOrder (batches log : List (κ × List α)) : Prop where
  nodup : (batches.map Prod.fst).Nodup
  entered : ∀ x ∈ log, x.1 ∈ batches.map Prod.fst
  front : ∀ b ∈ batches, takenOf b.1 log <+: b.2
  whole : log.flatMap Prod.snd = batches.flatMap fun b => takenOf b.1 log
  ordered : (log.filter fun x => !x.2.isEmpty).Pairwise fun x y =>
    (batches.map Prod.fst).idxOf x.1 ≤ (batches.map Prod.fst).idxOf y.1

namespace InOrder

variable {batches log : List (κ × List α)} {k : κ}

theorem nil : InOrder ([] : List (κ × List α)) [] :=
  ⟨List.nodup_nil, by simp, by simp, rfl, by simp⟩

theorem takenOf_new (h : InOrder batches log) (hk : k ∉ batches.map Prod.fst) :
    takenOf k log = [] :=
  takenOf_eq_nil fun x hx heq => hk (heq ▸ h.entered x hx)

/-- **One more batch.** -/
theorem begin (h : InOrder batches log) (hk : k ∉ batches.map Prod.fst) (items : List α) :
    InOrder (batches ++ [(k, items)]) log := by
  have hnil := h.takenOf_new hk
  refine ⟨?_, fun x hx => ?_, fun b hb => ?_, ?_, ?_⟩
  · rw [List.map_append]
    exact h.nodup.append (List.nodup_singleton k) (by simpa using hk)
  · rw [List.map_append]
    exact List.mem_append_left _ (h.entered x hx)
  · rcases List.mem_append.mp hb with hb | hb
    · exact h.front b hb
    · rw [List.mem_singleton.mp hb, hnil]
      exact List.nil_prefix
  · rw [List.flatMap_append, ← h.whole]
    simp [hnil]
  · refine h.ordered.imp_of_mem fun {x y} hx hy hle => ?_
    rw [List.map_append, List.idxOf_append_of_mem (h.entered x (List.mem_filter.mp hx).1),
      List.idxOf_append_of_mem (h.entered y (List.mem_filter.mp hy).1)]
    exact hle

section Extend

variable {before after : List (κ × List α)} {items more : List α}

/-- The keys of the other batches differ. -/
theorem fresh (h : InOrder (before ++ (k, items) :: after) log) :
    k ∉ before.map Prod.fst ∧ k ∉ after.map Prod.fst := by
  have hnd := h.nodup
  rw [List.map_append, List.map_cons, List.nodup_middle] at hnd
  rw [← not_or, ← List.mem_append]
  exact (List.nodup_cons.mp hnd).1

/-- What is taken from one batch is not taken from another. -/
theorem takenOf_other (h : InOrder (before ++ (k, items) :: after) log) {b : κ × List α}
    (hb : b ∈ before ∨ b ∈ after) : takenOf b.1 (log ++ [(k, more)]) = takenOf b.1 log := by
  obtain ⟨hbefore, hafter⟩ := h.fresh
  rw [takenOf_concat, if_neg]
  rintro rfl
  rcases hb with hb | hb
  · exact hbefore (List.mem_map.mpr ⟨b, hb, rfl⟩)
  · exact hafter (List.mem_map.mpr ⟨b, hb, rfl⟩)

/-- The log so far and what is taken now are the batches so far and what is taken now. -/
theorem extend_whole (h : InOrder (before ++ (k, items) :: after) log)
    (hafter : ∀ b ∈ after, takenOf b.1 log = []) :
    (log ++ [(k, more)]).flatMap Prod.snd =
      (before ++ (k, items) :: after).flatMap fun b => takenOf b.1 (log ++ [(k, more)]) := by
  have hnone : after.flatMap (fun b => takenOf b.1 log) = [] := List.flatMap_eq_nil_iff.mpr hafter
  have hsame : ∀ l : List (κ × List α), (∀ b ∈ l, b ∈ before ∨ b ∈ after) →
      l.flatMap (fun b => takenOf b.1 (log ++ [(k, more)])) =
        l.flatMap fun b => takenOf b.1 log := fun l hl =>
    List.flatMap_congr fun b hb => h.takenOf_other (hl b hb)
  have hright : (before ++ (k, items) :: after).flatMap
      (fun b => takenOf b.1 (log ++ [(k, more)])) =
        before.flatMap (fun b => takenOf b.1 log) ++ (takenOf k log ++ more) := by
    rw [List.flatMap_append, List.flatMap_cons, hsame before fun _ => Or.inl,
      hsame after fun _ => Or.inr, hnone, takenOf_concat, if_pos rfl, List.append_nil]
  have hwhole := h.whole
  rw [List.flatMap_append, List.flatMap_cons, hnone, List.append_nil] at hwhole
  rw [hright, List.flatMap_append, hwhole]
  simp

/-- An entry that took something is of this batch or of an earlier one. -/
theorem idxOf_le (h : InOrder (before ++ (k, items) :: after) log)
    (hafter : ∀ b ∈ after, takenOf b.1 log = []) {x : κ × List α} (hx : x ∈ log)
    (hne : x.2 ≠ []) :
    ((before ++ (k, items) :: after).map Prod.fst).idxOf x.1 ≤
      ((before ++ (k, items) :: after).map Prod.fst).idxOf k := by
  have hmem : x.1 ∈ before.map Prod.fst ∨ x.1 = k := by
    have hkeys := h.entered x hx
    rw [List.map_append, List.map_cons, List.mem_append, List.mem_cons] at hkeys
    rcases hkeys with hb | rfl | ha
    · exact Or.inl hb
    · exact Or.inr rfl
    · obtain ⟨b, hb, heq⟩ := List.mem_map.mp ha
      exact absurd (heq ▸ hafter b hb) (takenOf_ne_nil hx hne)
  rw [List.map_append, List.map_cons]
  rcases hmem with hb | rfl
  · rw [List.idxOf_append_of_mem hb, List.idxOf_append_of_notMem h.fresh.1]
    have hlt := List.idxOf_lt_length_of_mem hb
    omega
  · exact Nat.le_refl _

/-- **More of a batch**, while nothing was taken from a later one. -/
theorem extend (h : InOrder (before ++ (k, items) :: after) log)
    (hmore : takenOf k log ++ more <+: items) (hafter : ∀ b ∈ after, takenOf b.1 log = []) :
    InOrder (before ++ (k, items) :: after) (log ++ [(k, more)]) := by
  refine ⟨h.nodup, fun x hx => ?_, fun b hb => ?_, h.extend_whole hafter, ?_⟩
  · rcases List.mem_append.mp hx with hx | hx
    · exact h.entered x hx
    · rw [List.mem_singleton.mp hx]
      simp
  · rcases List.mem_append.mp hb with hb' | hb'
    · rw [h.takenOf_other (Or.inl hb')]
      exact h.front b hb
    · rcases List.mem_cons.mp hb' with rfl | hb'
      · rw [takenOf_concat, if_pos rfl]
        exact hmore
      · rw [h.takenOf_other (Or.inr hb')]
        exact h.front b hb
  · rw [List.filter_append, List.pairwise_append]
    refine ⟨h.ordered, ?_, fun x hx y hy => ?_⟩
    · by_cases hm : more = [] <;> simp [hm]
    · obtain ⟨hx, hne⟩ := List.mem_filter.mp hx
      rw [show y = (k, more) from List.mem_singleton.mp (List.mem_filter.mp hy).1]
      exact h.idxOf_le hafter hx (by simpa using hne)

end Extend

/-- **What was taken is a front of the batches**, if all but the last are through. -/
theorem whole_prefix (h : InOrder batches log)
    (hthrough : ∀ b ∈ batches.dropLast, takenOf b.1 log = b.2) :
    log.flatMap Prod.snd <+: batches.flatMap Prod.snd := by
  rw [h.whole]
  rcases List.eq_nil_or_concat batches with rfl | ⟨before, b, rfl⟩
  · exact List.nil_prefix
  · rw [List.concat_eq_append] at h hthrough ⊢
    rw [List.dropLast_concat] at hthrough
    rw [List.flatMap_append, List.flatMap_append, List.flatMap_congr hthrough]
    refine (List.prefix_append_right_inj _).mpr ?_
    simpa using h.front b (by simp)

/-- **It is all of them**, if all are through. -/
theorem whole_eq (h : InOrder batches log) (hthrough : ∀ b ∈ batches, takenOf b.1 log = b.2) :
    log.flatMap Prod.snd = batches.flatMap Prod.snd := by
  rw [h.whole]
  exact List.flatMap_congr hthrough

end InOrder

end QuietQuic.Lib
