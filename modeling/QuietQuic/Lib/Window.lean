import Mathlib.Data.Finset.Basic
import Mathlib.Order.Interval.Finset.Nat

/-!
# Recording keys in a set that forgets old stamps

A set of keys, each with a `stamp`. Recording `a` at reading `m` first forgets every key whose
stamp is more than `w` below `m`, then inserts `a` (`record`). A `history` is a list of recorded
`(reading, key)` pairs, oldest first.

* `mem_recordAll_iff`: a key is in the set exactly when it was recorded and no reading since then
  has passed its stamp by more than `w`.
* `accepted_nodup_iff`: when no key is recorded after its own stamp was passed, no key is
  accepted twice exactly when no two recordings of one key have a passing reading between them.
* `AgreeFrom`: two sets that agree on every key not yet forgotten at reading `m`. Recording one
  key in both (`AgreeFrom.record`), or one that is already there in only one of them
  (`AgreeFrom.record_left`), keeps the agreement at any later reading.
-/

namespace QuietQuic.Lib

variable {α : Type} [DecidableEq α] (stamp : α → Nat) (w : Nat)

/-- Forget the keys stamped more than `w` below `m`. -/
def forget (m : Nat) (seen : Finset α) : Finset α := seen.filter fun x => m ≤ stamp x + w

/-- Forget, then insert. -/
def record (seen : Finset α) (m : Nat) (a : α) : Finset α := insert a (forget stamp w m seen)

/-- The set a history of recordings leaves. -/
def recordAll (history : List (Nat × α)) (seen : Finset α) : Finset α :=
  history.foldl (fun s e => record stamp w s e.1 e.2) seen

variable {stamp w}

omit [DecidableEq α] in
theorem mem_forget {m : Nat} {seen : Finset α} {x : α} :
    x ∈ forget stamp w m seen ↔ x ∈ seen ∧ m ≤ stamp x + w := by
  simp [forget]

theorem mem_record {m : Nat} {seen : Finset α} {a x : α} :
    x ∈ record stamp w seen m a ↔ x = a ∨ x ∈ seen ∧ m ≤ stamp x + w := by
  simp [record, mem_forget]

theorem recordAll_snoc (history : List (Nat × α)) (seen : Finset α) (m : Nat) (a : α) :
    recordAll stamp w (history ++ [(m, a)]) seen =
      record stamp w (recordAll stamp w history seen) m a := by
  simp [recordAll]

/-- The key was recorded, and no later reading passes its stamp by more than `w`. -/
def Held (stamp : α → Nat) (w : Nat) (history : List (Nat × α)) (x : α) : Prop :=
  ∃ pre m post, history = pre ++ (m, x) :: post ∧ ∀ e ∈ post, e.1 ≤ stamp x + w

omit [DecidableEq α] in
/-- One more recording: the key just recorded is held, and a key held before stays held when the
new reading does not pass it. -/
theorem held_snoc {history : List (Nat × α)} {m : Nat} {a x : α} :
    Held stamp w (history ++ [(m, a)]) x ↔
      x = a ∨ Held stamp w history x ∧ m ≤ stamp x + w := by
  constructor
  · rintro ⟨pre, m', post, hsplit, hpost⟩
    rcases List.eq_nil_or_concat post with rfl | ⟨post', e, rfl⟩
    · obtain ⟨-, hlast⟩ := List.append_inj' hsplit rfl
      simp only [List.cons.injEq, Prod.mk.injEq, and_true] at hlast
      exact Or.inl hlast.2.symm
    · have hsplit' : history ++ [(m, a)] = (pre ++ (m', x) :: post') ++ [e] := by
        simpa using hsplit
      obtain ⟨hinit, hlast⟩ := List.append_inj' hsplit' rfl
      simp only [List.cons.injEq, and_true] at hlast
      refine Or.inr ⟨⟨pre, m', post', hinit, fun e' he' => hpost e' (by simp [he'])⟩, ?_⟩
      have := hpost e (by simp)
      rwa [← hlast] at this
  · rintro (rfl | ⟨⟨pre, m', post, rfl, hpost⟩, hm⟩)
    · exact ⟨history, m, [], rfl, fun _ h => absurd h List.not_mem_nil⟩
    · refine ⟨pre, m', post ++ [(m, a)], by simp, fun e he => ?_⟩
      rcases List.mem_append.mp he with he | he
      · exact hpost e he
      · rw [List.mem_singleton.mp he]
        exact hm

/-- **What the set holds**, from an empty start. -/
theorem mem_recordAll_iff (history : List (Nat × α)) (x : α) :
    x ∈ recordAll stamp w history ∅ ↔ Held stamp w history x := by
  induction history using List.reverseRecOn with
  | nil =>
    simp only [recordAll, List.foldl_nil, Finset.notMem_empty, false_iff]
    rintro ⟨pre, m, post, h, -⟩
    exact absurd h (by simp)
  | append_singleton history e ih =>
    obtain ⟨m, a⟩ := e
    rw [recordAll_snoc, mem_record, ih, held_snoc]

/-! ## Accepting a key once -/

/-- The keys of a history that were not in the set when they were recorded. -/
def accepted (stamp : α → Nat) (w : Nat) : List (Nat × α) → Finset α → List α
  | [], _ => []
  | (m, a) :: rest, seen =>
    let later := accepted stamp w rest (record stamp w seen m a)
    if a ∈ forget stamp w m seen then later else a :: later

/-- No two recordings of a key have a reading between them that passes its stamp. -/
def NoPassedRepeat (stamp : α → Nat) (w : Nat) (history : List (Nat × α)) : Prop :=
  ∀ pre m x mid m' post, history = pre ++ (m, x) :: mid ++ (m', x) :: post →
    ∀ e ∈ mid, e.1 ≤ stamp x + w

theorem accepted_append : ∀ (h₁ h₂ : List (Nat × α)) (seen : Finset α),
    accepted stamp w (h₁ ++ h₂) seen =
      accepted stamp w h₁ seen ++ accepted stamp w h₂ (recordAll stamp w h₁ seen)
  | [], _, _ => rfl
  | (m, a) :: h₁, h₂, seen => by
    simp only [List.cons_append, accepted, accepted_append h₁ h₂, recordAll, List.foldl_cons]
    split <;> rfl

/-- A key recorded while its stamp is not passed is accepted iff it is not in the set. -/
theorem accepted_snoc {history : List (Nat × α)} {m : Nat} {a : α} (hm : m ≤ stamp a + w) :
    accepted stamp w (history ++ [(m, a)]) ∅ =
      accepted stamp w history ∅ ++
        if a ∈ recordAll stamp w history ∅ then [] else [a] := by
  rw [accepted_append]
  simp only [accepted, mem_forget, hm, and_true]

/-- Every key of a history is accepted at least once. -/
theorem mem_accepted_iff {history : List (Nat × α)} (hfresh : ∀ e ∈ history, e.1 ≤ stamp e.2 + w)
    {x : α} : x ∈ accepted stamp w history ∅ ↔ ∃ m, (m, x) ∈ history := by
  induction history using List.reverseRecOn with
  | nil => simp [accepted]
  | append_singleton history e ih =>
    obtain ⟨m, a⟩ := e
    have ih := ih fun e he => hfresh e (List.mem_append_left _ he)
    rw [accepted_snoc (hfresh (m, a) (by simp)), List.mem_append, ih]
    constructor
    · rintro (⟨m', h⟩ | h)
      · exact ⟨m', List.mem_append_left _ h⟩
      · split at h
        · exact absurd h List.not_mem_nil
        · exact ⟨m, by simp [List.mem_singleton.mp h]⟩
    · rintro ⟨m', h⟩
      rcases List.mem_append.mp h with h | h
      · exact Or.inl ⟨m', h⟩
      · simp only [List.mem_singleton, Prod.mk.injEq] at h
        obtain ⟨-, rfl⟩ := h
        split
        · rename_i hheld
          obtain ⟨pre, m'', post, rfl, -⟩ := (mem_recordAll_iff history _).mp hheld
          exact Or.inl ⟨m'', by simp⟩
        · exact Or.inr (by simp)

omit [DecidableEq α] in
/-- One more recording keeps the condition when no passing reading follows an earlier recording
of the same key. -/
theorem noPassedRepeat_snoc {history : List (Nat × α)} {m : Nat} {a : α} :
    NoPassedRepeat stamp w (history ++ [(m, a)]) ↔
      NoPassedRepeat stamp w history ∧
        ∀ pre m' mid, history = pre ++ (m', a) :: mid → ∀ e ∈ mid, e.1 ≤ stamp a + w := by
  constructor
  · intro h
    refine ⟨fun pre m₁ x mid m₂ post hs => h pre m₁ x mid m₂ (post ++ [(m, a)]) (by simp [hs]),
      fun pre m' mid hs => h pre m' a mid m [] (by simp [hs])⟩
  · rintro ⟨hrep, hlast⟩ pre m₁ x mid m₂ post hs
    rcases List.eq_nil_or_concat post with rfl | ⟨post', e, rfl⟩
    · obtain ⟨hinit, he⟩ := List.append_inj' hs rfl
      simp only [List.cons.injEq, Prod.mk.injEq, and_true] at he
      obtain ⟨-, rfl⟩ := he
      exact hlast pre m₁ mid hinit
    · have hs' : history ++ [(m, a)] = (pre ++ (m₁, x) :: mid ++ (m₂, x) :: post') ++ [e] := by
        simpa using hs
      exact hrep pre m₁ x mid m₂ post' (List.append_inj' hs' rfl).1

omit [DecidableEq α] in
/-- Under the condition, a held key has no passing reading after any of its recordings. -/
theorem Held.not_passed {history : List (Nat × α)} {x : α} (hheld : Held stamp w history x)
    (hfresh : ∀ e ∈ history, e.1 ≤ stamp e.2 + w) (hrep : NoPassedRepeat stamp w history)
    {pre mid : List (Nat × α)} {m : Nat} (hs : history = pre ++ (m, x) :: mid) :
    ∀ e ∈ mid, e.1 ≤ stamp x + w := by
  obtain ⟨pre', m', post, hs', hpost⟩ := hheld
  rcases List.append_eq_append_iff.mp (hs.symm.trans hs') with ⟨l, hl, hr⟩ | ⟨l, hl, hr⟩
  · -- the held recording is not before the given one
    cases l with
    | nil =>
      simp only [List.nil_append, List.cons.injEq] at hr
      rw [hr.2]
      exact hpost
    | cons c l =>
      simp only [List.cons_append, List.cons.injEq] at hr
      obtain ⟨rfl, rfl⟩ := hr
      intro e he
      rcases List.mem_append.mp he with he | he
      · exact hrep pre m x l m' post (by simp [hs]) e he
      · rcases List.mem_cons.mp he with rfl | he
        · exact hfresh _ (by simp [hs])
        · exact hpost e he
  · -- the given recording comes after the held one
    cases l with
    | nil =>
      simp only [List.nil_append, List.cons.injEq] at hr
      rw [← hr.2]
      exact hpost
    | cons c l =>
      simp only [List.cons_append, List.cons.injEq] at hr
      obtain ⟨-, rfl⟩ := hr
      exact fun e he => hpost e (by simp [he])

/-- **No key is accepted twice** exactly when no reading passes a key between two of its
recordings. -/
theorem accepted_nodup_iff {history : List (Nat × α)}
    (hfresh : ∀ e ∈ history, e.1 ≤ stamp e.2 + w) :
    (accepted stamp w history ∅).Nodup ↔ NoPassedRepeat stamp w history := by
  induction history using List.reverseRecOn with
  | nil =>
    refine ⟨fun _ pre m x mid m' post h => absurd h (by simp), fun _ => List.nodup_nil⟩
  | append_singleton history e ih =>
    obtain ⟨m, a⟩ := e
    have hfresh' : ∀ e ∈ history, e.1 ≤ stamp e.2 + w :=
      fun e he => hfresh e (List.mem_append_left _ he)
    rw [accepted_snoc (hfresh (m, a) (by simp)), noPassedRepeat_snoc, ← ih hfresh']
    by_cases hmem : a ∈ recordAll stamp w history ∅
    · have hheld := (mem_recordAll_iff history a).mp hmem
      rw [if_pos hmem, List.append_nil]
      exact ⟨fun hnd => ⟨hnd, fun _ _ _ hs =>
        hheld.not_passed hfresh' ((ih hfresh').mp hnd) hs⟩, fun h => h.1⟩
    · have hheld := (mem_recordAll_iff history a).not.mp hmem
      rw [if_neg hmem]
      simp only [List.nodup_append', List.nodup_singleton, true_and, List.disjoint_singleton,
        mem_accepted_iff hfresh']
      refine and_congr Iff.rfl ⟨?_, ?_⟩
      · rintro hnone pre m' mid rfl
        exact absurd ⟨m', by simp⟩ hnone
      · rintro hlast ⟨m', hmem⟩
        obtain ⟨pre, mid, hs⟩ := List.append_of_mem hmem
        exact hheld ⟨pre, m', mid, hs, hlast pre m' mid hs⟩

/-! ## Two sets that agree on what is not yet forgotten -/

/-- The sets agree on every key that reading `m` does not forget. -/
def AgreeFrom (stamp : α → Nat) (w m : Nat) (A B : Finset α) : Prop :=
  ∀ x, m ≤ stamp x + w → (x ∈ A ↔ x ∈ B)

omit [DecidableEq α] in
theorem AgreeFrom.refl (m : Nat) (A : Finset α) : AgreeFrom stamp w m A A := fun _ _ => Iff.rfl

omit [DecidableEq α] in
theorem AgreeFrom.mono {m m' : Nat} {A B : Finset α} (h : AgreeFrom stamp w m A B)
    (hm : m ≤ m') : AgreeFrom stamp w m' A B := fun x hx => h x (hm.trans hx)

/-- Recording one key in both sets. -/
theorem AgreeFrom.record {m : Nat} {A B : Finset α} (h : AgreeFrom stamp w m A B) (a : α) :
    AgreeFrom stamp w m (record stamp w A m a) (record stamp w B m a) := by
  intro x hx
  rw [mem_record, mem_record, h x hx]

/-- Recording a key that is already there, in one of the sets only: this forgets, and inserts
nothing new. -/
theorem AgreeFrom.record_left {m : Nat} {A B : Finset α} (h : AgreeFrom stamp w m A B) {a : α}
    (ha : a ∈ forget stamp w m A) : AgreeFrom stamp w m (Lib.record stamp w A m a) B := by
  intro x hx
  rw [mem_record, ← h x hx]
  constructor
  · rintro (rfl | hxA)
    · exact (mem_forget.mp ha).1
    · exact hxA.1
  · exact fun hxA => Or.inr ⟨hxA, hx⟩

end QuietQuic.Lib
