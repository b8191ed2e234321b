import Mathlib.Data.List.Dedup
import Mathlib.Data.List.DropRight
import Mathlib.Data.List.Nodup

/-!
# Recency lists, and the links that thread one

`touch cap a l` moves `a` to the end of the recency list `l`; a new element of a full list evicts
the first one. After any sequence of touches the list is what a reader expects: the last `cap`
distinct elements, by last touch (`foldl_touch`).

`Links` is a doubly linked list without its storage: the two ends and, for every element, the
link towards each end. `Chain` says that it threads a list, `Walk` that following one kind of link
visits a list.

* `Chain.detach`, `Chain.attach`: unlinking and linking at the tail are `erase` and `concat`.
* `Chain.walk_newer`, `Chain.walk_older`: the links visit the list, and its reverse.
-/

namespace QuietQuic.Lib

variable {K : Type} [DecidableEq K]

/-! ## The abstract list -/

/-- Make `a` the youngest element of a recency list of at most `cap` elements. -/
def touch (cap : Nat) (a : K) (l : List K) : List K :=
  (if a ∈ l then l.erase a else if cap ≤ l.length then l.tail else l) ++ [a]

theorem dedup_concat (l : List K) (a : K) : (l ++ [a]).dedup = l.dedup.erase a ++ [a] := by
  induction l with
  | nil => simp
  | cons x l ih =>
    by_cases hx : x ∈ l
    · rw [List.cons_append, List.dedup_cons_of_mem (List.mem_append_left _ hx),
        List.dedup_cons_of_mem hx, ih]
    · rw [List.cons_append, List.dedup_cons_of_notMem hx]
      by_cases ha : x = a
      · subst ha
        rw [List.dedup_cons_of_mem (by simp), ih, List.erase_cons_head,
          List.erase_of_not_mem (by simpa using hx)]
      · rw [List.dedup_cons_of_notMem (by simp [hx, ha]), ih, List.erase_cons_tail (by simpa using ha),
          List.cons_append]

omit [DecidableEq K] in
theorem rtake_eq_self {l : List K} {n : Nat} (h : l.length ≤ n) : l.rtake n = l := by
  rw [List.rtake, Nat.sub_eq_zero_of_le h, List.drop_zero]

omit [DecidableEq K] in
theorem rtake_append {l l' : List K} {n : Nat} (h : n ≤ l'.length) :
    (l ++ l').rtake n = l'.rtake n := by
  rw [List.rtake, List.rtake, List.length_append, List.drop_append]
  have hle : l.length ≤ l.length + l'.length - n := by omega
  rw [List.drop_eq_nil_of_le hle, List.nil_append]
  congr 1
  omega

/-- Touching the last `n + 1` elements of a list without duplicates. -/
theorem touch_rtake (n : Nat) (a : K) {d : List K} (hd : d.Nodup) :
    touch (n + 1) a (d.rtake (n + 1)) = (d.erase a ++ [a]).rtake (n + 1) := by
  have hsplit : d = d.take (d.length - (n + 1)) ++ d.rtake (n + 1) :=
    (List.take_append_drop _ d).symm
  have hlen : (d.rtake (n + 1)).length = d.length - (d.length - (n + 1)) := List.length_drop
  rw [List.rtake_concat_succ, touch]
  congr 1
  generalize d.rtake (n + 1) = suf at hsplit hlen ⊢
  generalize hpre : d.take (d.length - (n + 1)) = pre at hsplit
  have hshort : suf.length < n + 1 → pre = [] := by
    intro h
    rw [← hpre, List.take_eq_nil_iff]
    omega
  have hdisjoint : a ∈ suf → a ∉ pre := by
    intro hsuf hmem
    rw [hsplit] at hd
    exact (List.nodup_append.mp hd).2.2 a hmem a hsuf rfl
  subst hsplit
  by_cases ha : a ∈ suf
  · rw [if_pos ha, List.erase_append_right _ (hdisjoint ha)]
    have herase := List.length_erase_of_mem ha
    rcases Nat.lt_or_ge suf.length (n + 1) with hlt | hge
    · rw [hshort hlt, List.nil_append, rtake_eq_self (by omega)]
    · rw [rtake_append (by omega), rtake_eq_self (by omega)]
  · have hsuf : (pre ++ suf).erase a = pre.erase a ++ suf := by
      by_cases hmem : a ∈ pre
      · rw [List.erase_append_left _ hmem]
      · rw [List.erase_append_right _ hmem, List.erase_of_not_mem ha, List.erase_of_not_mem hmem]
    rw [if_neg ha, hsuf]
    split
    · rename_i hge
      rw [rtake_append (by omega), List.rtake, show suf.length - n = 1 by omega, List.drop_one]
    · rename_i hlt
      rw [hshort (by omega), List.erase_nil, List.nil_append, rtake_eq_self (by omega)]

/-- **What a recency list holds**: the last `cap` distinct elements, by last touch. -/
theorem foldl_touch {cap : Nat} (hcap : 0 < cap) (as : List K) :
    as.foldl (fun l a => touch cap a l) [] = as.dedup.rtake cap := by
  obtain ⟨n, rfl⟩ : ∃ n, cap = n + 1 := ⟨cap - 1, by omega⟩
  induction as using List.reverseRecOn with
  | nil => simp
  | append_singleton as a ih =>
    rw [List.foldl_concat, ih, dedup_concat, touch_rtake n a (List.nodup_dedup as)]

/-- An element that is gone was pushed out by `cap` others. -/
theorem le_of_notMem_rtake {cap : Nat} {before after : List K} {a : K} (ha : a ∉ after)
    (h : a ∉ (before ++ a :: after).dedup.rtake cap) : cap ≤ after.dedup.length := by
  by_contra hlt
  refine h ?_
  rw [List.dedup_append, List.dedup_cons_of_notMem ha]
  obtain ⟨rest, hrest⟩ := List.suffix_union_right before (a :: after.dedup)
  rw [← hrest, List.rtake, List.drop_append_of_le_length (by simp; omega)]
  simp

/-! ## The links -/

/-- A doubly linked list: its ends, and the links of every element. -/
structure Links (K : Type) where
  head : Option K
  tail : Option K
  older : K → Option K
  newer : K → Option K

/-- Following the links `next` from `start` visits `l`, and ends there. -/
inductive Walk (next : K → Option K) : Option K → List K → Prop
  | nil : Walk next none []
  | cons {a l} (h : Walk next (next a) l) : Walk next (some a) (a :: l)

namespace Links

/-- The same list from the other end. -/
def flip (L : Links K) : Links K := ⟨L.tail, L.head, L.newer, L.older⟩

/-- Unlink `a` and join its neighbours. -/
def detach (L : Links K) (a : K) : Links K where
  head := if L.older a = none then L.newer a else L.head
  tail := if L.newer a = none then L.older a else L.tail
  older x := if x = a then none else if L.newer a = some x then L.older a else L.older x
  newer x := if x = a then none else if L.older a = some x then L.newer a else L.newer x

/-- Link `a` at the tail. -/
def attach (L : Links K) (a : K) : Links K where
  head := if L.tail = none then some a else L.head
  tail := some a
  older x := if x = a then L.tail else L.older x
  newer x := if L.tail = some x then some a else if x = a then none else L.newer x

/-- The links thread `l`. -/
structure Chain (L : Links K) (l : List K) : Prop where
  nodup : l.Nodup
  head : L.head = l.head?
  tail : L.tail = l.getLast?
  links : ∀ l₁ a l₂, l = l₁ ++ a :: l₂ → L.older a = l₁.getLast? ∧ L.newer a = l₂.head?

namespace Chain

variable {L : Links K} {l : List K}

omit [DecidableEq K] in
theorem flip (h : L.Chain l) : L.flip.Chain l.reverse := by
  refine ⟨List.nodup_reverse.mpr h.nodup, ?_, ?_, fun l₁ a l₂ heq => ?_⟩
  · rw [List.head?_reverse]
    exact h.tail
  · rw [List.getLast?_reverse]
    exact h.head
  · have hl : l = l₂.reverse ++ a :: l₁.reverse := by
      rw [← List.reverse_reverse l, heq]
      simp
    obtain ⟨hold, hnew⟩ := h.links _ _ _ hl
    rw [List.head?_reverse] at hnew
    rw [List.getLast?_reverse] at hold
    exact ⟨hnew, hold⟩

/-- An element of the list is what stands between its neighbours. -/
theorem split (h : L.Chain l) {a : K} (ha : a ∈ l) :
    ∃ l₁ l₂, l = l₁ ++ a :: l₂ ∧ l.erase a = l₁ ++ l₂ ∧ L.older a = l₁.getLast? ∧
      L.newer a = l₂.head? := by
  obtain ⟨l₁, l₂, rfl⟩ := List.append_of_mem ha
  have hnot : a ∉ l₁ := fun hmem =>
    (List.nodup_append.mp h.nodup).2.2 a hmem a List.mem_cons_self rfl
  refine ⟨l₁, l₂, rfl, ?_, h.links _ _ _ rfl⟩
  rw [List.erase_append_right _ hnot, List.erase_cons_head]

/-- The links of an element left of the one that goes. -/
theorem links_detach {l₁ l₂ : List K} {a : K} (h : L.Chain (l₁ ++ a :: l₂)) {m r : List K} {x : K}
    (hl : l₁ = m ++ x :: r) :
    (L.detach a).older x = m.getLast? ∧ (L.detach a).newer x = (r ++ l₂).head? := by
  have hnd := h.nodup
  rw [List.nodup_append] at hnd
  obtain ⟨hnd₁, hcons, hne⟩ := hnd
  have hx : x ∈ l₁ := by simp [hl]
  have hxa : x ≠ a := hne x hx a List.mem_cons_self
  obtain ⟨holda, hnewa⟩ := h.links _ _ _ rfl
  obtain ⟨hold, hnew⟩ := h.links m x (r ++ a :: l₂) (by simp [hl])
  have hnext : L.newer a ≠ some x := by
    rw [hnewa]
    intro hhead
    exact hne x hx x (List.mem_cons_of_mem _ (List.mem_of_head? hhead)) rfl
  refine ⟨by simp [detach, hxa, hnext, hold], ?_⟩
  simp only [detach, if_neg hxa]
  cases r with
  | nil =>
    have hlast : L.older a = some x := by simp [holda, hl]
    rw [if_pos hlast, hnewa, List.nil_append]
  | cons y r =>
    have hlast : L.older a ≠ some x := by
      rw [holda, hl, List.getLast?_append, List.getLast?_cons_cons]
      intro heq
      have hmem : x ∈ y :: r := List.mem_of_getLast? (by simpa using heq)
      rw [hl, List.nodup_append] at hnd₁
      exact (List.nodup_cons.mp hnd₁.2.1).1 hmem
    rw [if_neg hlast, hnew]
    rfl

/-- The links of an element right of the one that goes: the same fact from the other end. -/
theorem links_detach_right {l₁ l₂ : List K} {a : K} (h : L.Chain (l₁ ++ a :: l₂)) {r m₂ : List K}
    {x : K} (hl : l₂ = r ++ x :: m₂) :
    (L.detach a).older x = (l₁ ++ r).getLast? ∧ (L.detach a).newer x = m₂.head? := by
  have hflip := h.flip
  rw [List.reverse_append, List.reverse_cons, List.append_assoc, List.singleton_append] at hflip
  obtain ⟨hnew, hold⟩ := links_detach (m := m₂.reverse) (r := r.reverse) (x := x) hflip
    (by simp [hl])
  rw [List.getLast?_reverse] at hnew
  rw [← List.reverse_append, List.head?_reverse] at hold
  exact ⟨hold, hnew⟩

/-- **Unlinking is `erase`.** -/
theorem detach (h : L.Chain l) {a : K} (ha : a ∈ l) : (L.detach a).Chain (l.erase a) := by
  obtain ⟨l₁, l₂, rfl, herase, hold, hnew⟩ := h.split ha
  refine ⟨h.nodup.erase a, ?_, ?_, ?_⟩
  · rw [herase]
    cases l₁ with
    | nil => simpa [Links.detach, hold] using hnew
    | cons x l₁ =>
      rw [show (L.detach a).head = L.head from if_neg (by simp [hold])]
      exact h.head
  · rw [herase]
    cases l₂ with
    | nil => simpa [Links.detach, hnew] using hold
    | cons x l₂ =>
      rw [show (L.detach a).tail = L.tail from if_neg (by simp [hnew]), h.tail]
      simp [List.getLast?_append]
  · rw [herase]
    intro m₁ x m₂ heq
    rcases List.append_eq_append_iff.mp heq with ⟨r, hm₁, hl₂⟩ | ⟨r, hl₁, hm₂⟩
    · rw [hm₁]
      exact links_detach_right h hl₂
    · cases r with
      | nil =>
        rw [List.append_nil] at hl₁
        rw [← hl₁]
        simpa using links_detach_right h (r := []) hm₂.symm
      | cons y r =>
        obtain ⟨rfl, rfl⟩ : x = y ∧ m₂ = r ++ l₂ := by simpa using hm₂
        exact links_detach h hl₁

/-- **Linking at the tail is `concat`.** -/
theorem attach (h : L.Chain l) {a : K} (ha : a ∉ l) : (L.attach a).Chain (l ++ [a]) := by
  refine ⟨?_, ?_, ?_, fun l₁ x l₂ heq => ?_⟩
  · exact List.nodup_append.mpr ⟨h.nodup, List.nodup_singleton a, fun x hx y hy hxy =>
      ha (List.mem_singleton.mp hy ▸ hxy ▸ hx)⟩
  · simp only [Links.attach, h.tail, h.head]
    cases l with
    | nil => rfl
    | cons x l => simp
  · simp [Links.attach]
  · rcases List.eq_nil_or_concat l₂ with rfl | ⟨r, y, rfl⟩
    · obtain ⟨rfl, rfl⟩ : l = l₁ ∧ a = x := by simpa using heq
      have hlast : L.tail ≠ some a := by
        rw [h.tail]
        exact fun hlast => ha (List.mem_of_getLast? hlast)
      simp [Links.attach, hlast, ← h.tail]
    · have hsplit : l ++ [a] = (l₁ ++ x :: r) ++ [y] := by simpa using heq
      obtain ⟨rfl, rfl⟩ := List.append_singleton_inj.mp hsplit
      have hxa : x ≠ a := by
        rintro rfl
        exact ha (by simp)
      obtain ⟨hold, hnew⟩ := h.links _ _ _ rfl
      refine ⟨by simp [Links.attach, hxa, hold], ?_⟩
      cases r with
      | nil =>
        have hlast : L.tail = some x := by simp [h.tail]
        simp [Links.attach, hlast]
      | cons z r =>
        have hlast : L.tail ≠ some x := by
          rw [h.tail, List.getLast?_append, List.getLast?_cons_cons]
          intro hlast
          have hmem : x ∈ z :: r := List.mem_of_getLast? (by simpa using hlast)
          exact (List.nodup_cons.mp (List.nodup_append.mp h.nodup).2.1).1 hmem
        simp [Links.attach, hlast, hxa, hnew]

omit [DecidableEq K] in
/-- The newer links visit the list. -/
theorem walk_newer (h : L.Chain l) : Walk L.newer L.head l := by
  have hsuffix : ∀ l₂ l₁, l = l₁ ++ l₂ → Walk L.newer l₂.head? l₂ := by
    intro l₂
    induction l₂ with
    | nil => exact fun _ _ => .nil
    | cons a l₂ ih =>
      intro l₁ hl
      refine .cons ?_
      rw [(h.links _ _ _ hl).2]
      exact ih (l₁ ++ [a]) (by simpa using hl)
  rw [h.head]
  exact hsuffix l [] rfl

omit [DecidableEq K] in
/-- The older links visit it backwards. -/
theorem walk_older (h : L.Chain l) : Walk L.older L.tail l.reverse := h.flip.walk_newer

end Chain

end Links

end QuietQuic.Lib
