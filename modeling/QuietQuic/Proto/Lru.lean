import QuietQuic.Lib.Recency
import QuietQuic.Proto.RateLimit

/-!
# The limiter's LRU list

`touch_source` threads a doubly linked list through the values of a hash map. `RateLimiter.Order`
says which recency list it threads; `touchSource_spec` is the refinement step: no `expect` fails,
the new list is `Lib.touch` of the old one, and a touch changes no bucket.

* `touches_refine`: any sequence of touches, and what the caller does to the bucket it is handed
  each time.
-/

namespace QuietQuic.Proto

open QuietQuic.Lib

namespace RateLimiter

/-- The links of the LRU list, without the map that stores them. -/
def links (rl : RateLimiter) : Links IpAddr where
  head := rl.lruHead
  tail := rl.lruTail
  older a := (rl.perSource.lookup a).bind SourceEntry.older
  newer a := (rl.perSource.lookup a).bind SourceEntry.newer

/-- The bucket of a source. -/
def bucketOf (rl : RateLimiter) (src : IpAddr) : Option TokenBucket :=
  (rl.perSource.lookup src).map SourceEntry.bucket

/-- How many sources are tracked at most. -/
def cap (rl : RateLimiter) : Nat := max rl.maxTracked 1

theorem cap_pos (rl : RateLimiter) : 0 < rl.cap := Nat.lt_of_lt_of_le Nat.one_pos (Nat.le_max_right _ _)

/-- The limiter's LRU list is `l`, least recently touched first. -/
structure Order (rl : RateLimiter) (l : List IpAddr) : Prop where
  chain : rl.links.Chain l
  keys : ∀ src, src ∈ rl.perSource ↔ src ∈ l

/-- The limiters differ in their map and its links only. -/
structure SameBudget (rl rl' : RateLimiter) : Prop where
  global : rl'.global = rl.global
  capacity : rl'.perSourceCapacity = rl.perSourceCapacity
  refill : rl'.perSourceRefill = rl.perSourceRefill
  maxTracked : rl'.maxTracked = rl.maxTracked

theorem SameBudget.trans {a b c : RateLimiter} (h : SameBudget a b) (h' : SameBudget b c) :
    SameBudget a c :=
  ⟨h'.global.trans h.global, h'.capacity.trans h.capacity, h'.refill.trans h.refill,
    h'.maxTracked.trans h.maxTracked⟩

theorem Order.length_keys {rl : RateLimiter} {l : List IpAddr} (h : rl.Order l) :
    rl.perSource.keys.length = l.length :=
  ((List.perm_ext_iff_of_nodup rl.perSource.keys_nodup h.chain.nodup).mpr h.keys).length_eq

theorem SameBudget.cap {rl rl' : RateLimiter} (h : SameBudget rl rl') : rl'.cap = rl.cap := by
  unfold RateLimiter.cap
  rw [h.maxTracked]

theorem mem_perSource {rl : RateLimiter} {src : IpAddr} :
    src ∈ rl.perSource ↔ rl.bucketOf src ≠ none := by
  unfold bucketOf
  rw [← AList.lookup_isSome, ne_eq, Option.map_eq_none_iff, ← ne_eq, Option.isSome_iff_ne_none]

/-! ## The list operations -/

/-- An entry that is there can be updated. -/
theorem updateEntry_spec (rl : RateLimiter) {src : IpAddr} (h : src ∈ rl.perSource)
    (f : SourceEntry → SourceEntry) :
    ∃ m, rl.updateEntry src f = some { rl with perSource := m } ∧
      ∀ a, m.lookup a = (rl.perSource.lookup a).map fun x => if a = src then f x else x := by
  obtain ⟨e, he⟩ := AMap.mem_iff_lookup.mp h
  refine ⟨rl.perSource.insert src (f e), by simp [updateEntry, he], fun a => ?_⟩
  rw [AMap.lookup_insert_eq]
  split
  · rename_i heq
    subst heq
    rw [he]
    rfl
  · simp

/-- Updating entries adds and removes none. -/
theorem mem_of_lookup {m m' : AMap IpAddr SourceEntry} {f : IpAddr → SourceEntry → SourceEntry}
    (h : ∀ a, m'.lookup a = (m.lookup a).map (f a)) {a : IpAddr} : a ∈ m' ↔ a ∈ m := by
  rw [← AList.lookup_isSome, ← AList.lookup_isSome, h, Option.isSome_map]

/-- The step of `detach` at the older neighbour. -/
def joinOlder (rl : RateLimiter) (older newer : Option IpAddr) : Option RateLimiter :=
  match older with
  | some ip => rl.updateEntry ip fun e => { e with newer := newer }
  | none => some { rl with lruHead := newer }

/-- The step of `detach` at the newer neighbour. -/
def joinNewer (rl : RateLimiter) (older newer : Option IpAddr) : Option RateLimiter :=
  match newer with
  | some ip => rl.updateEntry ip fun e => { e with older := older }
  | none => some { rl with lruTail := older }

theorem detach_eq {rl : RateLimiter} {src : IpAddr} {e : SourceEntry}
    (he : rl.perSource.lookup src = some e) :
    rl.detach src = (rl.joinOlder e.older e.newer).bind fun rl =>
      (rl.joinNewer e.older e.newer).bind fun rl =>
        rl.updateEntry src fun e => { e with older := none, newer := none } := by
  obtain ⟨bucket, older, newer⟩ := e
  unfold detach joinOlder joinNewer
  rw [he]
  cases older <;> cases newer <;> rfl

theorem joinOlder_spec (rl : RateLimiter) {older : Option IpAddr} (newer : Option IpAddr)
    (h : ∀ ip, older = some ip → ip ∈ rl.perSource) :
    ∃ m, rl.joinOlder older newer =
        some { rl with perSource := m, lruHead := if older = none then newer else rl.lruHead } ∧
      ∀ a, m.lookup a = (rl.perSource.lookup a).map fun x =>
        if older = some a then { x with newer := newer } else x := by
  cases older with
  | none => exact ⟨rl.perSource, rfl, fun a => by simp⟩
  | some ip =>
    obtain ⟨m, heq, hlook⟩ := updateEntry_spec rl (h ip rfl) fun e => { e with newer := newer }
    refine ⟨m, heq, fun a => ?_⟩
    rw [hlook]
    simp only [Option.some.injEq, eq_comm]

theorem joinNewer_spec (rl : RateLimiter) (older : Option IpAddr) {newer : Option IpAddr}
    (h : ∀ ip, newer = some ip → ip ∈ rl.perSource) :
    ∃ m, rl.joinNewer older newer =
        some { rl with perSource := m, lruTail := if newer = none then older else rl.lruTail } ∧
      ∀ a, m.lookup a = (rl.perSource.lookup a).map fun x =>
        if newer = some a then { x with older := older } else x := by
  cases newer with
  | none => exact ⟨rl.perSource, rfl, fun a => by simp⟩
  | some ip =>
    obtain ⟨m, heq, hlook⟩ := updateEntry_spec rl (h ip rfl) fun e => { e with older := older }
    refine ⟨m, heq, fun a => ?_⟩
    rw [hlook]
    simp only [Option.some.injEq, eq_comm]

/-- `detach` finds its three entries, and changes only their links. -/
theorem detach_lookup {rl : RateLimiter} {src : IpAddr} {e : SourceEntry}
    (he : rl.perSource.lookup src = some e) (hold : ∀ ip, e.older = some ip → ip ∈ rl.perSource)
    (hnew : ∀ ip, e.newer = some ip → ip ∈ rl.perSource) :
    ∃ m, rl.detach src =
        some { rl with
          perSource := m
          lruHead := if e.older = none then e.newer else rl.lruHead
          lruTail := if e.newer = none then e.older else rl.lruTail } ∧
      ∀ a, m.lookup a = (rl.perSource.lookup a).map fun x =>
        { bucket := x.bucket
          older := if a = src then none else if e.newer = some a then e.older else x.older
          newer := if a = src then none else if e.older = some a then e.newer else x.newer } := by
  obtain ⟨m₁, heq₁, hlook₁⟩ := joinOlder_spec rl e.newer hold
  obtain ⟨m₂, heq₂, hlook₂⟩ := joinNewer_spec
    { rl with perSource := m₁, lruHead := if e.older = none then e.newer else rl.lruHead }
    e.older fun ip hip => (mem_of_lookup hlook₁).mpr (hnew ip hip)
  have hmem : src ∈ m₂ :=
    (mem_of_lookup hlook₂).mpr ((mem_of_lookup hlook₁).mpr (AMap.mem_iff_lookup.mpr ⟨e, he⟩))
  obtain ⟨m₃, heq₃, hlook₃⟩ := updateEntry_spec
    { rl with
      perSource := m₂
      lruHead := if e.older = none then e.newer else rl.lruHead
      lruTail := if e.newer = none then e.older else rl.lruTail }
    hmem fun e => { e with older := none, newer := none }
  refine ⟨m₃, ?_, fun a => ?_⟩
  · rw [detach_eq he, heq₁, Option.bind_some, heq₂, Option.bind_some]
    exact heq₃
  · dsimp only at hlook₂ hlook₃
    rw [hlook₃, hlook₂, hlook₁, Option.map_map, Option.map_map]
    congr 1
    funext x
    dsimp only [Function.comp_apply]
    split <;> split <;> split <;> rfl

/-- **`detach` unlinks**: no `expect` fails, and no bucket changes. -/
theorem detach_spec {rl : RateLimiter} {l : List IpAddr} (h : rl.Order l) {src : IpAddr}
    (hsrc : src ∈ l) :
    ∃ rl', rl.detach src = some rl' ∧ rl'.links = rl.links.detach src ∧
      (∀ a, rl'.bucketOf a = rl.bucketOf a) ∧ SameBudget rl rl' := by
  obtain ⟨e, he⟩ := AMap.mem_iff_lookup.mp ((h.keys src).mpr hsrc)
  obtain ⟨l₁, l₂, rfl, -, hold, hnew⟩ := h.chain.split hsrc
  have holder : rl.links.older src = e.older := by simp [links, he]
  have hnewer : rl.links.newer src = e.newer := by simp [links, he]
  have hin : ∀ ip, e.older = some ip → ip ∈ rl.perSource := by
    intro ip hip
    rw [← holder, hold] at hip
    exact (h.keys ip).mpr (by simp [List.mem_of_getLast? hip])
  have hin' : ∀ ip, e.newer = some ip → ip ∈ rl.perSource := by
    intro ip hip
    rw [← hnewer, hnew] at hip
    exact (h.keys ip).mpr (by simp [List.mem_of_head? hip])
  obtain ⟨m, heq, hlook⟩ := detach_lookup he hin hin'
  refine ⟨_, heq, ?_, fun a => ?_, ⟨rfl, rfl, rfl, rfl⟩⟩
  · unfold Links.detach
    rw [holder, hnewer]
    unfold links
    congr 1
    · funext a
      dsimp only
      rw [hlook]
      cases hx : rl.perSource.lookup a with
      | some x => rfl
      | none =>
        have hne : e.newer ≠ some a := fun heq =>
          absurd (hin' a heq) (AList.lookup_eq_none.mp hx)
        simp [hne]
    · funext a
      dsimp only
      rw [hlook]
      cases hx : rl.perSource.lookup a with
      | some x => rfl
      | none =>
        have hne : e.older ≠ some a := fun heq =>
          absurd (hin a heq) (AList.lookup_eq_none.mp hx)
        simp [hne]
  · unfold bucketOf
    dsimp only
    rw [hlook, Option.map_map]
    rfl

/-- **`attach_newest` links at the tail**: no `expect` fails, and no bucket changes. -/
theorem attachNewest_spec {rl : RateLimiter} {src : IpAddr} (hsrc : src ∈ rl.perSource)
    (htail : ∀ ip, rl.lruTail = some ip → ip ∈ rl.perSource) :
    ∃ rl', rl.attachNewest src = some rl' ∧ rl'.links = rl.links.attach src ∧
      (∀ a, rl'.bucketOf a = rl.bucketOf a) ∧ SameBudget rl rl' := by
  obtain ⟨m₁, heq₁, hlook₁⟩ :=
    updateEntry_spec rl hsrc fun e => { e with older := rl.lruTail, newer := none }
  have hin : ∀ ip, rl.lruTail = some ip → ip ∈ m₁ := fun ip hip =>
    (mem_of_lookup hlook₁).mpr (htail ip hip)
  obtain ⟨m₂, heq₂, hlook₂⟩ := joinOlder_spec { rl with perSource := m₁ } (some src) hin
  have hlook : ∀ a, m₂.lookup a = (rl.perSource.lookup a).map fun x =>
      { bucket := x.bucket
        older := if a = src then rl.lruTail else x.older
        newer := if rl.lruTail = some a then some src else if a = src then none else x.newer } := by
    intro a
    dsimp only at hlook₂
    rw [hlook₂, hlook₁, Option.map_map]
    congr 1
    funext x
    dsimp only [Function.comp_apply]
    split <;> split <;> rfl
  refine ⟨{ rl with
    perSource := m₂
    lruHead := if rl.lruTail = none then some src else rl.lruHead
    lruTail := some src }, ?_, ?_, fun a => ?_, ⟨rfl, rfl, rfl, rfl⟩⟩
  · unfold joinOlder at heq₂
    unfold attachNewest
    simp only [heq₁, Option.bind_eq_bind, Option.bind_some]
    cases htl : rl.lruTail <;> simp_all
  · unfold links Links.attach
    congr 1
    · funext a
      dsimp only
      rw [hlook]
      cases hx : rl.perSource.lookup a with
      | some x => rfl
      | none =>
        have hne : a ≠ src := by
          rintro rfl
          exact AList.lookup_eq_none.mp hx hsrc
        simp [hne]
    · funext a
      dsimp only
      rw [hlook]
      cases hx : rl.perSource.lookup a with
      | some x => rfl
      | none =>
        have hne : rl.lruTail ≠ some a := fun heq =>
          absurd (htail a heq) (AList.lookup_eq_none.mp hx)
        simp [hne]
  · unfold bucketOf
    dsimp only
    rw [hlook, Option.map_map]
    rfl

/-! ## A touch -/

theorem Order.bucketOf_eq_none {rl : RateLimiter} {l : List IpAddr} (h : rl.Order l) {a : IpAddr}
    (ha : a ∉ l) : rl.bucketOf a = none := by
  by_contra hne
  exact ha ((h.keys a).mp (mem_perSource.mpr hne))

/-- Removing an entry without links. -/
theorem links_erase (rl : RateLimiter) {src : IpAddr} (hold : rl.links.older src = none)
    (hnew : rl.links.newer src = none) :
    links { rl with perSource := rl.perSource.erase src } = rl.links := by
  unfold links at hold hnew ⊢
  congr 1
  all_goals
    funext a
    dsimp only at hold hnew ⊢
    rw [AMap.lookup_erase_eq]
    by_cases ha : a = src
    · subst ha
      simp [hold, hnew]
    · rw [if_neg ha]

/-- Adding one. -/
theorem links_insert {rl : RateLimiter} {src : IpAddr} (hsrc : src ∉ rl.perSource)
    (b : TokenBucket) :
    links { rl with perSource := rl.perSource.insert src ⟨b, none, none⟩ } = rl.links := by
  have hnone := AList.lookup_eq_none.mpr hsrc
  unfold links
  congr 1
  all_goals
    funext a
    dsimp only
    rw [AMap.lookup_insert_eq]
    by_cases ha : a = src
    · subst ha
      simp [hnone]
    · rw [if_neg ha]

/-- The entry at the head of the list goes with its links. -/
theorem evict_head {rl : RateLimiter} {oldest : IpAddr} {l : List IpAddr}
    (h : rl.Order (oldest :: l)) (hfull : rl.cap ≤ (oldest :: l).length) :
    ∃ rl', rl.evict = some rl' ∧ rl'.Order l ∧ SameBudget rl rl' ∧
      ∀ a, rl'.bucketOf a = if a ∈ l then rl.bucketOf a else none := by
  have hhead : rl.lruHead = some oldest := h.chain.head
  have hnd := List.nodup_cons.mp h.chain.nodup
  obtain ⟨rl', heq, hlinks, hbucket, hsame⟩ := detach_spec h List.mem_cons_self
  have hchain := h.chain.detach List.mem_cons_self
  rw [← hlinks, List.erase_cons_head] at hchain
  have hold : rl'.links.older oldest = none := by simp [hlinks, Links.detach]
  have hnew : rl'.links.newer oldest = none := by simp [hlinks, Links.detach]
  have hevict : rl.evict = some { rl' with perSource := rl'.perSource.erase oldest } := by
    unfold evict
    rw [h.length_keys]
    exact (if_pos hfull).trans (by simp only [hhead, heq, Option.map_some])
  refine ⟨_, hevict, ⟨?_, fun src => ?_⟩, hsame.trans ⟨rfl, rfl, rfl, rfl⟩, fun a => ?_⟩
  · rw [links_erase rl' hold hnew]
    exact hchain
  · rw [AList.mem_erase, mem_perSource, hbucket, ← mem_perSource, h.keys, List.mem_cons]
    constructor
    · rintro ⟨hne, rfl | hmem⟩
      · exact absurd rfl hne
      · exact hmem
    · intro hmem
      refine ⟨?_, .inr hmem⟩
      rintro rfl
      exact hnd.1 hmem
  · have hlook : RateLimiter.bucketOf { rl' with perSource := rl'.perSource.erase oldest } a =
        if a = oldest then none else rl'.bucketOf a := by
      unfold bucketOf
      rw [AMap.lookup_erase_eq]
      split <;> rfl
    rw [hlook, hbucket]
    by_cases ha : a = oldest
    · rw [if_pos ha, ha, if_neg hnd.1]
    · rw [if_neg ha]
      split
      · rfl
      · rename_i hmem
        exact h.bucketOf_eq_none (by simp [ha, hmem])

/-- **The eviction** takes the head of a full list, and no other entry. -/
theorem evict_spec {rl : RateLimiter} {l : List IpAddr} (h : rl.Order l) :
    ∃ rl', rl.evict = some rl' ∧ rl'.Order (if rl.cap ≤ l.length then l.tail else l) ∧
      SameBudget rl rl' ∧ ∀ a, rl'.bucketOf a =
        if a ∈ (if rl.cap ≤ l.length then l.tail else l) then rl.bucketOf a else none := by
  by_cases hfull : rl.cap ≤ l.length
  · simp only [if_pos hfull]
    cases l with
    | nil => simp [RateLimiter.cap] at hfull
    | cons oldest l => exact evict_head h hfull
  · simp only [if_neg hfull]
    have hevict : rl.evict = some rl := by
      unfold evict
      rw [h.length_keys]
      exact if_neg hfull
    refine ⟨rl, hevict, h, ⟨rfl, rfl, rfl, rfl⟩, fun a => ?_⟩
    split
    · rfl
    · rename_i hmem
      exact h.bucketOf_eq_none hmem

/-- A source that has an entry without links, put at the tail of the list of the others. -/
theorem attachNewest_order {rl : RateLimiter} {l : List IpAddr} {src : IpAddr}
    (hchain : rl.links.Chain l) (hsrc : src ∉ l) (hkeys : ∀ a, a ∈ rl.perSource ↔ a ∈ l ++ [src]) :
    ∃ rl', rl.attachNewest src = some rl' ∧ rl'.Order (l ++ [src]) ∧
      (∀ a, rl'.bucketOf a = rl.bucketOf a) ∧ SameBudget rl rl' := by
  have htail : ∀ ip, rl.lruTail = some ip → ip ∈ rl.perSource := by
    intro ip hip
    rw [show rl.lruTail = l.getLast? from hchain.tail] at hip
    exact (hkeys ip).mpr (by simp [List.mem_of_getLast? hip])
  obtain ⟨rl', heq, hlinks, hbucket, hsame⟩ := attachNewest_spec ((hkeys src).mpr (by simp)) htail
  refine ⟨rl', heq, ⟨?_, fun a => ?_⟩, hbucket, hsame⟩
  · rw [hlinks]
    exact hchain.attach hsrc
  · rw [mem_perSource, hbucket, ← mem_perSource, hkeys]

/-- A touch of a tracked source. -/
theorem touchSource_tracked {rl : RateLimiter} {l : List IpAddr} (h : rl.Order l) {src : IpAddr}
    (hsrc : src ∈ l) :
    ∃ rl', rl.touchSource src = some rl' ∧ rl'.Order (l.erase src ++ [src]) ∧
      (∀ a, rl'.bucketOf a = rl.bucketOf a) ∧ SameBudget rl rl' := by
  obtain ⟨rl₁, heq₁, hlinks₁, hbucket₁, hsame₁⟩ := detach_spec h hsrc
  have hchain := h.chain.detach hsrc
  rw [← hlinks₁] at hchain
  have hnot : src ∉ l.erase src := fun hmem => (h.chain.nodup.mem_erase_iff.mp hmem).1 rfl
  have hkeys : ∀ a, a ∈ rl₁.perSource ↔ a ∈ l.erase src ++ [src] := by
    intro a
    rw [mem_perSource, hbucket₁, ← mem_perSource, h.keys, List.mem_append, List.mem_singleton,
      h.chain.nodup.mem_erase_iff]
    by_cases ha : a = src
    · simp [ha, hsrc]
    · simp [ha]
  obtain ⟨rl₂, heq₂, horder, hbucket₂, hsame₂⟩ := attachNewest_order hchain hnot hkeys
  refine ⟨rl₂, ?_, horder, fun a => (hbucket₂ a).trans (hbucket₁ a), hsame₁.trans hsame₂⟩
  unfold touchSource
  rw [if_pos ((h.keys src).mpr hsrc), heq₁]
  exact heq₂

/-- A touch of a new one. -/
theorem touchSource_new {rl : RateLimiter} {l : List IpAddr} (h : rl.Order l) {src : IpAddr}
    (hsrc : src ∉ l) :
    ∃ rl', rl.touchSource src = some rl' ∧
      rl'.Order ((if rl.cap ≤ l.length then l.tail else l) ++ [src]) ∧
      (∀ a, rl'.bucketOf a =
        if a = src then some (TokenBucket.new rl.perSourceCapacity rl.perSourceRefill)
        else if a ∈ (if rl.cap ≤ l.length then l.tail else l) then rl.bucketOf a else none) ∧
      SameBudget rl rl' := by
  obtain ⟨rl₁, heq₁, horder₁, hsame₁, hbucket₁⟩ := evict_spec h
  have hnot : src ∉ if rl.cap ≤ l.length then l.tail else l := by
    split
    · exact fun hmem => hsrc (List.mem_of_mem_tail hmem)
    · exact hsrc
  generalize (if rl.cap ≤ l.length then l.tail else l) = rest at horder₁ hbucket₁ hnot ⊢
  have hnew : src ∉ rl₁.perSource := fun hmem => hnot ((horder₁.keys src).mp hmem)
  have hchain := horder₁.chain
  rw [← links_insert hnew (TokenBucket.new rl₁.perSourceCapacity rl₁.perSourceRefill)] at hchain
  obtain ⟨rl₂, heq₂, horder₂, hbucket₂, hsame₂⟩ := attachNewest_order hchain hnot fun a => by
    rw [AList.mem_insert, horder₁.keys]
    simp [or_comm]
  refine ⟨rl₂, ?_, horder₂, fun a => ?_, ?_⟩
  · unfold touchSource
    rw [if_neg fun hmem => hsrc ((h.keys src).mp hmem), heq₁]
    exact heq₂
  · have hlook : RateLimiter.bucketOf _ a = _ := hbucket₂ a
    rw [hlook, ← hsame₁.capacity, ← hsame₁.refill, ← hbucket₁]
    unfold bucketOf
    rw [AMap.lookup_insert_eq]
    split <;> rfl
  · exact hsame₁.trans ⟨hsame₂.global, hsame₂.capacity, hsame₂.refill, hsame₂.maxTracked⟩

/-- **`touch_source` refines `touch`**: no `expect` fails, and the buckets of the sources that stay
tracked do not change. -/
theorem touchSource_spec {rl : RateLimiter} {l : List IpAddr} (h : rl.Order l) (src : IpAddr) :
    ∃ rl', rl.touchSource src = some rl' ∧ rl'.Order (touch rl.cap src l) ∧ SameBudget rl rl' ∧
      ∀ a, rl'.bucketOf a =
        if a = src then
          some ((rl.bucketOf src).getD (TokenBucket.new rl.perSourceCapacity rl.perSourceRefill))
        else if a ∈ touch rl.cap src l then rl.bucketOf a else none := by
  unfold touch
  by_cases hsrc : src ∈ l
  · obtain ⟨rl', heq, horder, hbucket, hsame⟩ := touchSource_tracked h hsrc
    rw [if_pos hsrc]
    refine ⟨rl', heq, horder, hsame, fun a => ?_⟩
    rw [hbucket]
    split
    · rename_i ha
      subst ha
      obtain ⟨b, hb⟩ := Option.ne_none_iff_exists'.mp (mem_perSource.mp ((h.keys a).mpr hsrc))
      rw [hb]
      rfl
    · rename_i ha
      split
      · rfl
      · rename_i hmem
        refine h.bucketOf_eq_none fun hal => hmem ?_
        simp [h.chain.nodup.mem_erase_iff, ha, hal]
  · obtain ⟨rl', heq, horder, hbucket, hsame⟩ := touchSource_new h hsrc
    rw [if_neg hsrc]
    refine ⟨rl', heq, horder, hsame, fun a => ?_⟩
    rw [hbucket, h.bucketOf_eq_none hsrc, Option.getD_none]
    split
    · rfl
    · rename_i ha
      simp only [List.mem_append, List.mem_singleton, ha, or_false]

/-! ## Runs of touches -/

/-- A `touch_source` call, and what its caller does to the bucket it is handed. -/
def touchWith (rl : RateLimiter) (src : IpAddr) (f : TokenBucket → TokenBucket) :
    Option RateLimiter :=
  (rl.touchSource src).bind fun rl => rl.updateEntry src fun e => { e with bucket := f e.bucket }

/-- A sequence of them. -/
def touchAll (rl : RateLimiter) (touches : List (IpAddr × (TokenBucket → TokenBucket))) :
    Option RateLimiter :=
  touches.foldlM (fun rl t => rl.touchWith t.1 t.2) rl

/-- What the caller does to the bucket is all that changes after the touch. -/
theorem touchWith_spec {rl : RateLimiter} {l : List IpAddr} (h : rl.Order l) (src : IpAddr)
    (f : TokenBucket → TokenBucket) :
    ∃ rl', rl.touchWith src f = some rl' ∧ rl'.Order (touch rl.cap src l) ∧ SameBudget rl rl' ∧
      ∀ a, rl'.bucketOf a =
        if a = src then
          some (f ((rl.bucketOf src).getD (TokenBucket.new rl.perSourceCapacity rl.perSourceRefill)))
        else if a ∈ touch rl.cap src l then rl.bucketOf a else none := by
  obtain ⟨rl₁, heq, horder, hsame, hbucket⟩ := touchSource_spec h src
  obtain ⟨m, hupd, hlook⟩ := updateEntry_spec rl₁ ((horder.keys src).mpr (by simp [touch]))
    fun e => { e with bucket := f e.bucket }
  have hlinks : RateLimiter.links { rl₁ with perSource := m } = rl₁.links := by
    unfold links
    congr 1
    all_goals
      funext a
      dsimp only
      rw [hlook]
      cases rl₁.perSource.lookup a with
      | none => rfl
      | some e =>
        simp only [Option.map_some, Option.bind_some]
        split <;> rfl
  refine ⟨{ rl₁ with perSource := m }, ?_, ⟨?_, fun a => ?_⟩, ?_, fun a => ?_⟩
  · unfold touchWith
    rw [heq]
    exact hupd
  · rw [hlinks]
    exact horder.chain
  · exact (mem_of_lookup hlook).trans (horder.keys a)
  · exact hsame.trans ⟨rfl, rfl, rfl, rfl⟩
  · have hmap : RateLimiter.bucketOf { rl₁ with perSource := m } a =
        (rl₁.bucketOf a).map fun b => if a = src then f b else b := by
      unfold bucketOf
      rw [hlook, Option.map_map, Option.map_map]
      congr 1
      funext e
      dsimp only [Function.comp_apply]
      split <;> rfl
    rw [hmap, hbucket]
    by_cases ha : a = src
    · simp [ha]
    · simp [ha]

/-- A limiter that was never touched. -/
theorem order_withParams (globalCapacity globalRefill perSourceCapacity perSourceRefill : ℚ)
    (maxTracked : Nat) :
    (withParams globalCapacity globalRefill perSourceCapacity perSourceRefill maxTracked).Order [] :=
  ⟨⟨List.nodup_nil, rfl, rfl, by simp⟩, fun src => by simp [withParams]⟩

/-- **A run of touches** threads the recency list of its sources. -/
theorem touchAll_order {rl : RateLimiter} {l : List IpAddr} (h : rl.Order l)
    (touches : List (IpAddr × (TokenBucket → TokenBucket))) :
    ∃ rl', rl.touchAll touches = some rl' ∧ SameBudget rl rl' ∧
      rl'.Order ((touches.map Prod.fst).foldl (fun l a => touch rl.cap a l) l) := by
  induction touches generalizing rl l with
  | nil => exact ⟨rl, rfl, ⟨rfl, rfl, rfl, rfl⟩, h⟩
  | cons t touches ih =>
    obtain ⟨rl₁, heq₁, horder₁, hsame₁, -⟩ := touchWith_spec h t.1 t.2
    obtain ⟨rl₂, heq₂, hsame₂, horder₂⟩ := ih horder₁
    refine ⟨rl₂, ?_, hsame₁.trans hsame₂, ?_⟩
    · unfold touchAll
      rw [List.foldlM_cons, heq₁]
      exact heq₂
    · rw [hsame₁.cap] at horder₂
      exact horder₂

/-- Following the links from either end visits `order`, which holds exactly the tracked sources. -/
structure Threads (rl : RateLimiter) (order : List IpAddr) : Prop where
  nodup : order.Nodup
  forward : Walk rl.links.newer rl.lruHead order
  last : rl.lruTail = order.getLast?
  backward : Walk rl.links.older rl.lruTail order.reverse
  keys : ∀ src, src ∈ rl.perSource ↔ src ∈ order
  bounded : rl.perSource.keys.length ≤ max rl.maxTracked 1

/-- What one more touch does to the entries of a limiter. -/
structure Touched (rl : RateLimiter) (src : IpAddr) (rl' : RateLimiter) : Prop where
  tracked : src ∈ rl.perSource → ∀ a, rl'.bucketOf a = rl.bucketOf a
  created : src ∉ rl.perSource →
    rl'.bucketOf src = some (TokenBucket.new rl.perSourceCapacity rl.perSourceRefill)
  kept : src ∉ rl.perSource → rl.perSource.keys.length < max rl.maxTracked 1 →
    ∀ a, a ≠ src → rl'.bucketOf a = rl.bucketOf a
  evicted : src ∉ rl.perSource → max rl.maxTracked 1 ≤ rl.perSource.keys.length →
    ∃ oldest, rl.lruHead = some oldest ∧ rl.bucketOf oldest ≠ none ∧ rl'.bucketOf oldest = none ∧
      ∀ a, a ≠ src → a ≠ oldest → rl'.bucketOf a = rl.bucketOf a

theorem Order.threads {rl : RateLimiter} {l : List IpAddr} (h : rl.Order l)
    (hlen : l.length ≤ rl.cap) : rl.Threads l where
  nodup := h.chain.nodup
  forward := h.chain.walk_newer
  last := h.chain.tail
  backward := h.chain.walk_older
  keys := h.keys
  bounded := by
    rw [h.length_keys]
    exact hlen

theorem Order.touched {rl : RateLimiter} {l : List IpAddr} (h : rl.Order l) (src : IpAddr) :
    ∃ rl', rl.touchSource src = some rl' ∧ rl.Touched src rl' := by
  by_cases hsrc : src ∈ l
  · obtain ⟨rl', heq, -, hbucket, -⟩ := touchSource_tracked h hsrc
    have hmem : src ∈ rl.perSource := (h.keys src).mpr hsrc
    exact ⟨rl', heq, fun _ => hbucket, absurd hmem, absurd hmem, absurd hmem⟩
  · obtain ⟨rl', heq, -, hbucket, -⟩ := touchSource_new h hsrc
    refine ⟨rl', heq, fun hmem => absurd ((h.keys src).mp hmem) hsrc, fun _ => ?_,
      fun _ hlt a ha => ?_, fun _ hfull => ?_⟩
    · rw [hbucket, if_pos rfl]
    · rw [h.length_keys] at hlt
      rw [hbucket, if_neg ha, if_neg (show ¬rl.cap ≤ l.length from Nat.not_le.mpr hlt)]
      split
      · rfl
      · rename_i hmem
        exact (h.bucketOf_eq_none hmem).symm
    · rw [h.length_keys] at hfull
      cases l with
      | nil => simp at hfull
      | cons oldest l =>
        have hnot := (List.nodup_cons.mp h.chain.nodup).1
        rw [if_pos (show rl.cap ≤ (oldest :: l).length from hfull), List.tail_cons] at hbucket
        refine ⟨oldest, h.chain.head, mem_perSource.mp ((h.keys oldest).mpr List.mem_cons_self), ?_,
          fun a ha hne => ?_⟩
        · have hne : oldest ≠ src := by
            rintro rfl
            exact hsrc List.mem_cons_self
          rw [hbucket, if_neg hne, if_neg hnot]
        · rw [hbucket, if_neg ha]
          split
          · rfl
          · rename_i hmem
            exact (h.bucketOf_eq_none (by simp [hne, hmem])).symm

/-- **The intrusive LRU refines a recency list**, whatever is touched and whatever the callers do
to the buckets: no `expect` fails, and the list is the last `max maxTracked 1` distinct sources by
last touch (`List.dedup` keeps last occurrences). -/
theorem touches_refine_recency
    (globalCapacity globalRefill perSourceCapacity perSourceRefill : ℚ) (maxTracked : Nat)
    (touches : List (IpAddr × (TokenBucket → TokenBucket))) :
    ∃ rl, (withParams globalCapacity globalRefill perSourceCapacity perSourceRefill
          maxTracked).touchAll touches = some rl ∧ rl.maxTracked = maxTracked ∧
      rl.Threads ((touches.map Prod.fst).dedup.rtake (max maxTracked 1)) ∧
      (∀ src, ∃ rl', rl.touchSource src = some rl' ∧ rl.Touched src rl') ∧
      ∀ before src after, touches.map Prod.fst = before ++ src :: after → src ∉ after →
        src ∉ rl.perSource → max maxTracked 1 ≤ after.dedup.length := by
  obtain ⟨rl, heq, hsame, horder⟩ := touchAll_order (order_withParams globalCapacity globalRefill
    perSourceCapacity perSourceRefill maxTracked) touches
  have hmax : rl.maxTracked = maxTracked := hsame.maxTracked
  rw [foldl_touch (cap_pos _)] at horder
  refine ⟨rl, heq, hmax, horder.threads ?_, horder.touched,
    fun before src after hsplit hafter hmem => ?_⟩
  · rw [hsame.cap, List.rtake, List.length_drop]
    omega
  · rw [horder.keys, hsplit] at hmem
    exact le_of_notMem_rtake hafter hmem

end RateLimiter

end QuietQuic.Proto
