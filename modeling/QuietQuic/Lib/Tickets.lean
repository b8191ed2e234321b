import Mathlib.Data.List.Nodup
import Mathlib.Data.List.Perm.Subperm
import Mathlib.Data.Set.Insert
import Mathlib.Logic.Relation

/-!
# Sessions opened with tickets

A `Desk` opens a session for a ticket and may close it later. It opens neither a session nor for a
ticket a second time; what a desk may do beyond that is left open.

* `Desk.Reachable.sound`: sessions and tickets are distinct, and only opened sessions are live.
* `Desk.Reachable.count_le`: no more sessions than tickets were issued, of any kind of ticket.
-/

namespace QuietQuic.Lib

variable {σ τ : Type}

/-- The sessions opened so far, oldest first, each with its ticket, and those that are live. -/
structure Desk (σ τ : Type) where
  opened : List (σ × τ)
  live : Set σ

namespace Desk

/-- The sessions opened so far. -/
def sessions (d : Desk σ τ) : List σ := d.opened.map Prod.fst

/-- The tickets used so far. -/
def tickets (d : Desk σ τ) : List τ := d.opened.map Prod.snd

/-- One move of a desk. -/
inductive Move : Desk σ τ → Desk σ τ → Prop
  | opens {d : Desk σ τ} {s : σ} {t : τ} (hs : s ∉ d.sessions) (ht : t ∉ d.tickets) :
      Move d ⟨d.opened ++ [(s, t)], insert s d.live⟩
  | closes {d : Desk σ τ} (gone : Set σ) : Move d ⟨d.opened, d.live \ gone⟩

/-- Any number of moves. -/
abbrev Moves : Desk σ τ → Desk σ τ → Prop := Relation.ReflTransGen Move

/-- What a desk that has opened nothing can become. -/
abbrev Reachable (d : Desk σ τ) : Prop := Moves ⟨[], ∅⟩ d

/-- What no move breaks. -/
structure Sound (d : Desk σ τ) : Prop where
  sessions : d.sessions.Nodup
  tickets : d.tickets.Nodup
  live : ∀ s ∈ d.live, s ∈ d.sessions

theorem nodup_concat_map {α β : Type} {f : α → β} {l : List α} {a : α} (h : (l.map f).Nodup)
    (ha : f a ∉ l.map f) : ((l ++ [a]).map f).Nodup := by
  rw [List.map_append, List.nodup_append']
  refine ⟨h, List.nodup_singleton _, ?_⟩
  rwa [List.map_singleton, List.disjoint_singleton]

theorem Move.sound {d d' : Desk σ τ} (h : Move d d') (hd : Sound d) : Sound d' := by
  cases h with
  | opens hs ht =>
    refine ⟨nodup_concat_map hd.sessions hs, nodup_concat_map hd.tickets ht, fun x hx => ?_⟩
    rw [Desk.sessions, List.map_append]
    rcases hx with rfl | hx
    · exact List.mem_append_right _ (List.mem_singleton.mpr rfl)
    · exact List.mem_append_left _ (hd.live x hx)
  | closes gone => exact ⟨hd.sessions, hd.tickets, fun x hx => hd.live x hx.1⟩

/-- **A reachable desk is sound.** -/
theorem Reachable.sound {d : Desk σ τ} (h : Reachable d) : Sound d := by
  induction h with
  | refl => exact ⟨List.nodup_nil, List.nodup_nil, fun _ hs => absurd hs (Set.notMem_empty _)⟩
  | tail _ hmove ih => exact hmove.sound ih

/-- **No more sessions than tickets**: of the tickets in `p`, each issued. -/
theorem Reachable.count_le {d : Desk σ τ} (h : Reachable d) {issued : List τ} (p : τ → Bool)
    (hissued : ∀ t ∈ d.tickets, p t = true → t ∈ issued) :
    (d.opened.filter fun x => p x.2).length ≤ issued.length := by
  have hlen : (d.opened.filter fun x => p x.2).length = (d.tickets.filter p).length := by
    rw [tickets, List.filter_map, List.length_map]
    rfl
  rw [hlen]
  refine (List.Nodup.subperm (h.sound.tickets.filter p) fun t ht => ?_).length_le
  obtain ⟨hmem, hp⟩ := List.mem_filter.mp ht
  exact hissued t hmem hp

end Desk

end QuietQuic.Lib
