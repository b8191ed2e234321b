import Mathlib.Data.List.AList
import Mathlib.Data.Finset.Basic
import Mathlib.Tactic.Tauto

/-!
# Association maps

Mathlib's `AList` with a constant value type, as the model of a hash map, with the two updates in
place that it does not have: one entry (`modify`, Rust's `get_mut`) and every entry (`mapValues`,
`values_mut`), and the part of a map that a function keeps (`filterMap`). `mem_foldl_erase` removes
a list of elements from a set.
-/

namespace QuietQuic.Lib

variable {K V : Type} [DecidableEq K]

/-- A finite map. -/
abbrev AMap (K V : Type) := AList fun _ : K => V

namespace AMap

/-- The values, in entry order. -/
def values (m : AMap K V) : List V := m.entries.map Sigma.snd

/-- Update the entry for `k`, if there is one. -/
def modify (k : K) (f : V → V) (m : AMap K V) : AMap K V :=
  match m.lookup k with
  | none => m
  | some v => m.insert k (f v)

/-- Update every entry. -/
def mapValues (f : V → V) (m : AMap K V) : AMap K V where
  entries := m.entries.map fun e => ⟨e.1, f e.2⟩
  nodupKeys := by
    have h := m.nodupKeys
    rw [List.NodupKeys, List.keys] at h ⊢
    rwa [List.map_map]

theorem lookup_insert_eq (k a : K) (v : V) (m : AMap K V) :
    (m.insert k v).lookup a = if a = k then some v else m.lookup a := by
  split
  · rename_i h
    subst h
    exact AList.lookup_insert m
  · rename_i h
    exact AList.lookup_insert_ne h

theorem lookup_erase_eq (k a : K) (m : AMap K V) :
    (m.erase k).lookup a = if a = k then none else m.lookup a := by
  split
  · rename_i h
    subst h
    exact AList.lookup_erase a m
  · rename_i h
    exact AList.lookup_erase_ne h

theorem lookup_modify (k a : K) (f : V → V) (m : AMap K V) :
    (modify k f m).lookup a = if a = k then (m.lookup k).map f else m.lookup a := by
  by_cases ha : a = k
  · subst ha
    rw [if_pos rfl, modify]
    cases h : m.lookup a with
    | none => exact h
    | some v => exact AList.lookup_insert m
  · rw [if_neg ha, modify]
    cases m.lookup k with
    | none => rfl
    | some v => exact AList.lookup_insert_ne ha

@[simp] theorem mem_modify {k a : K} {f : V → V} {m : AMap K V} : a ∈ modify k f m ↔ a ∈ m := by
  rw [← AList.lookup_isSome, ← AList.lookup_isSome, lookup_modify]
  split
  · rename_i h
    rw [h, Option.isSome_map]
  · rfl

theorem lookup_mapValues (f : V → V) (m : AMap K V) (a : K) :
    (mapValues f m).lookup a = (m.lookup a).map f := by
  obtain ⟨entries, hnd⟩ := m
  show List.dlookup (β := fun _ => V) a (entries.map fun e => ⟨e.1, f e.2⟩) =
    (List.dlookup a entries).map f
  clear hnd
  induction entries with
  | nil => rfl
  | cons e entries ih =>
    obtain ⟨k, v⟩ := e
    by_cases hk : a = k
    · subst hk
      simp
    · rw [List.map_cons, List.dlookup_cons_ne _ (⟨k, f v⟩ : (_ : K) × V) hk,
        List.dlookup_cons_ne _ (⟨k, v⟩ : (_ : K) × V) hk, ih]

@[simp] theorem mem_mapValues {f : V → V} {m : AMap K V} {a : K} :
    a ∈ mapValues f m ↔ a ∈ m := by
  rw [← AList.lookup_isSome, ← AList.lookup_isSome, lookup_mapValues, Option.isSome_map]

theorem mem_iff_lookup {m : AMap K V} {a : K} : a ∈ m ↔ ∃ v, m.lookup a = some v := by
  rw [← AList.lookup_isSome, Option.isSome_iff_exists]

/-- Replacing an entry adds no key. -/
theorem mem_insert_of_lookup {m : AMap K V} {k a : K} {v w : V} (h : m.lookup k = some v) :
    a ∈ m.insert k w ↔ a ∈ m := by
  rw [AList.mem_insert]
  refine ⟨fun hmem => ?_, Or.inr⟩
  rcases hmem with rfl | hmem
  · exact mem_iff_lookup.mpr ⟨v, h⟩
  · exact hmem

theorem mem_values {m : AMap K V} {v : V} : v ∈ values m ↔ ∃ a, m.lookup a = some v := by
  unfold values
  simp only [List.mem_map, Sigma.exists, exists_eq_right]
  exact exists_congr fun a => (AList.mem_lookup_iff (β := fun _ : K => V)).symm

section FilterMap

variable {W : Type}

/-- The entries `f` gives a value, with that value. -/
def filterMap (f : V → Option W) (m : AMap K V) : AMap K W where
  entries := m.entries.filterMap fun e => (f e.2).map fun w => ⟨e.1, w⟩
  nodupKeys := by
    have hsub : ∀ l : List (Sigma fun _ : K => V),
        ((l.filterMap fun e => (f e.2).map fun w => (⟨e.1, w⟩ : (_ : K) × W)).map Sigma.fst).Sublist
          (l.map Sigma.fst) := by
      intro l
      induction l with
      | nil => exact .slnil
      | cons e l ih =>
        cases he : f e.2 with
        | none => simpa [he] using ih.cons e.1
        | some w => simpa [he] using ih.cons_cons e.1
    exact (hsub m.entries).nodup m.nodupKeys

theorem lookup_filterMap (f : V → Option W) (m : AMap K V) (a : K) :
    (filterMap f m).lookup a = (m.lookup a).bind f := by
  obtain ⟨entries, hnd⟩ := m
  show List.dlookup (β := fun _ => W) a
    (entries.filterMap fun e => (f e.2).map fun w => (⟨e.1, w⟩ : (_ : K) × W)) =
      (List.dlookup a entries).bind f
  induction entries with
  | nil => rfl
  | cons e entries ih =>
    obtain ⟨k, v⟩ := e
    obtain ⟨hnew, hrest⟩ := List.nodupKeys_cons.mp hnd
    by_cases hk : a = k
    · subst hk
      rw [List.dlookup_cons_eq (β := fun _ => V)]
      cases hv : f v with
      | none =>
        have hnone : List.dlookup (β := fun _ => V) a entries = none :=
          List.dlookup_eq_none.mpr hnew
        simpa [hv, hnone] using ih hrest
      | some w => simp [hv]
    · rw [List.dlookup_cons_ne _ (⟨k, v⟩ : (_ : K) × V) hk, ← ih hrest]
      cases hv : f v with
      | none => simp [hv]
      | some w =>
        simp only [List.filterMap_cons, hv, Option.map_some]
        exact List.dlookup_cons_ne _ (⟨k, w⟩ : (_ : K) × W) hk

/-- A new entry is kept if `f` gives it a value. -/
theorem filterMap_insert {f : V → Option W} {m : AMap K V} {k : K} (v : V) (hk : k ∉ m) :
    filterMap f (m.insert k v) =
      match f v with
      | some w => (filterMap f m).insert k w
      | none => filterMap f m := by
  have hk' : k ∉ filterMap f m := by
    rw [← AList.lookup_eq_none, lookup_filterMap, AList.lookup_eq_none.mpr hk]
    rfl
  refine AList.ext ?_
  rw [AList.insert_of_notMem hk]
  cases hv : f v with
  | none => simp [filterMap, hv]
  | some w =>
    dsimp only
    rw [AList.insert_of_notMem hk']
    simp [filterMap, hv]

end FilterMap

/-- What only the entry of `k` contributes, the whole map contributes as often. -/
theorem count_values {α : Type} [DecidableEq α] {f : V → List α} {m : AMap K V} {k : K} {x : α}
    (h : ∀ a v, m.lookup a = some v → x ∈ f v → a = k) :
    ((values m).flatMap f).count x = ((m.lookup k).toList.flatMap f).count x := by
  obtain ⟨entries, hnd⟩ := m
  change ∀ a v, List.dlookup (β := fun _ => V) a entries = some v → x ∈ f v → a = k at h
  show ((entries.map Sigma.snd).flatMap f).count x =
    ((List.dlookup (β := fun _ => V) k entries).toList.flatMap f).count x
  induction entries with
  | nil => rfl
  | cons e entries ih =>
    obtain ⟨a, v⟩ := e
    obtain ⟨hnew, hnd⟩ := List.nodupKeys_cons.mp hnd
    -- the entries behind the first are the map's own, at other keys than its
    have hrest : ∀ a v, List.dlookup (β := fun _ => V) a entries = some v → x ∈ f v → a = k := by
      intro b w hb hx
      refine h b w ?_ hx
      have hne : b ≠ a := by
        rintro rfl
        exact hnew (List.dlookup_isSome.mp (by rw [hb]; rfl))
      rw [List.dlookup_cons_ne _ (⟨a, v⟩ : (_ : K) × V) hne, hb]
    rw [List.map_cons, List.flatMap_cons, List.count_append, ih hnd hrest]
    by_cases hk : k = a
    · subst hk
      have hnone : List.dlookup (β := fun _ => V) k entries = none := List.dlookup_eq_none.mpr hnew
      simp [hnone]
    · have hzero : (f v).count x = 0 := by
        refine List.count_eq_zero.mpr fun hx => hk ?_
        exact (h a v (List.dlookup_cons_eq (β := fun _ => V) entries a v) hx).symm
      rw [List.dlookup_cons_ne _ (⟨a, v⟩ : (_ : K) × V) hk, hzero, Nat.zero_add]

end AMap

theorem mem_foldl_erase {α : Type} [DecidableEq α] (l : List α) (s : Finset α) (x : α) :
    x ∈ l.foldl Finset.erase s ↔ x ∈ s ∧ x ∉ l := by
  induction l generalizing s with
  | nil => simp
  | cons a l ih =>
    rw [List.foldl_cons, ih, Finset.mem_erase, List.mem_cons]
    tauto

end QuietQuic.Lib
