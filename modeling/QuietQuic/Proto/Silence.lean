import QuietQuic.Proto.Step

/-!
# Two-run silence

Delete from a run any set of `handle_datagram` calls whose datagram was rejected. quinn-proto is a
function of its own state here, so it behaves the same on the same calls; when the limiter gives
every remaining datagram it is consulted on the same verdict, every remaining call answers the
same (`silence`).

The relation between the two runs (`Alike`) is equality of everything but the limiter and the
replay guards. A rejected replay purges its guard before it is rejected, so the two guards of a
client differ by entries that are too old to be fresh again: they agree from the current minute on
(`Lib.AgreeFrom`).
-/

namespace QuietQuic.Proto

open QuietQuic.Lib

namespace Endpoint

variable {Q : Quinn} {H : KeyedHash}

/-! ## Runs with deletions -/

/-- The call is a `handle_datagram` whose datagram is rejected: by the limiter, or by the
pre-filter. -/
def Rejected (H : KeyedHash) (ep : Endpoint Q) : Call → Prop
  | .handleDatagram _ now src minute data => (ep.gate H now src minute data).1 = .rejected
  | _ => False

/-- Every deleted call of a run (`true` marks deletion) was rejected in it. -/
def DeletedRejected (H : KeyedHash) : Endpoint Q → List (Call × Bool) → Prop
  | _, [] => True
  | ep, (call, deleted) :: rest =>
    (deleted = true → Rejected H ep call) ∧ DeletedRejected H (ep.step H call).2 rest

/-- The limiters of two endpoints agree on a datagram the limiter is consulted on. -/
def SameVerdict (ep ep' : Endpoint Q) : Call → Prop
  | .handleDatagram _ now src _ data =>
    ep.role = .server → ep.isActiveDcid data = false →
      ep.limiterSays now src = ep'.limiterSays now src
  | _ => True

/-- The limiter gives every remaining datagram the same verdict in the run from `ep` and in the
shortened run from `ep'`. -/
def SameVerdicts (H : KeyedHash) : Endpoint Q → Endpoint Q → List (Call × Bool) → Prop
  | _, _, [] => True
  | ep, ep', (call, true) :: rest => SameVerdicts H (ep.step H call).2 ep' rest
  | ep, ep', (call, false) :: rest =>
    SameVerdict ep ep' call ∧ SameVerdicts H (ep.step H call).2 (ep'.step H call).2 rest

/-- What the remaining calls answer in the full run. -/
def keptAnswers (H : KeyedHash) : Endpoint Q → List (Call × Bool) → List Answer
  | _, [] => []
  | ep, (call, deleted) :: rest =>
    (if deleted then [] else [(ep.step H call).1]) ++ keptAnswers H (ep.step H call).2 rest

/-- What the calls of a run answer. -/
def answers (H : KeyedHash) : Endpoint Q → List Call → List Answer
  | _, [] => []
  | ep, call :: rest => (ep.step H call).1 :: answers H (ep.step H call).2 rest

/-- The shortened run. -/
def kept (marked : List (Call × Bool)) : List Call :=
  (marked.filter fun c => !c.2).map Prod.fst

/-- The wall-clock minute a call reads. -/
def reading : Call → Option UInt32
  | .handleDatagram _ _ _ minute _ => some minute
  | _ => none

/-! ## The relation -/

/-- Two guards that agree on every entry not yet forgotten at reading `m`. -/
def GuardAlike (m : Nat) (g g' : ReplayGuard) : Prop :=
  g.window = g'.window ∧ AgreeFrom stampOf g.window.toNat m g.seen g'.seen

/-- Index by index, both guard lists are over, or both have alike guards. -/
def GuardsAlike (m : Nat) (r r' : List ReplayGuard) : Prop :=
  ∀ i : Nat, r[i]? = none ∧ r'[i]? = none ∨
    ∃ g g', r[i]? = some g ∧ r'[i]? = some g' ∧ GuardAlike m g g'

/-- The two runs agree on everything but the limiter and what the guards have forgotten. -/
def Alike (m : Nat) (ep ep' : Endpoint Q) : Prop :=
  ep.toCore = ep'.toCore ∧ GuardsAlike m ep.replay ep'.replay

theorem GuardAlike.mono {m m' : Nat} {g g' : ReplayGuard} (h : GuardAlike m g g') (hm : m ≤ m') :
    GuardAlike m' g g' := ⟨h.1, h.2.mono hm⟩

theorem GuardsAlike.mono {m m' : Nat} {r r' : List ReplayGuard} (h : GuardsAlike m r r')
    (hm : m ≤ m') : GuardsAlike m' r r' := by
  intro i
  rcases h i with hi | ⟨g, g', hg, hg', hgg⟩
  · exact Or.inl hi
  · exact Or.inr ⟨g, g', hg, hg', hgg.mono hm⟩

theorem GuardsAlike.refl (m : Nat) (r : List ReplayGuard) : GuardsAlike m r r := by
  intro i
  cases h : r[i]? with
  | none => exact Or.inl ⟨rfl, rfl⟩
  | some g => exact Or.inr ⟨g, g, rfl, rfl, rfl, AgreeFrom.refl _ _⟩

/-- One guard replaced on each side. -/
theorem GuardsAlike.set {m : Nat} {r r' : List ReplayGuard} (h : GuardsAlike m r r') {idx : Nat}
    {g g' : ReplayGuard} (hg : GuardAlike m g g') :
    GuardsAlike m (r.set idx g) (r'.set idx g') := by
  intro i
  rcases h i with ⟨hi, hi'⟩ | ⟨a, a', ha, ha', haa⟩
  · refine Or.inl ⟨?_, ?_⟩ <;>
      simp only [List.getElem?_eq_none_iff, List.length_set] at * <;> assumption
  · refine Or.inr ?_
    have hlt := (List.getElem?_eq_some_iff.mp ha).1
    have hlt' := (List.getElem?_eq_some_iff.mp ha').1
    by_cases hidx : idx = i
    · subst hidx
      exact ⟨g, g', List.getElem?_set_self hlt, List.getElem?_set_self hlt', hg⟩
    · rw [List.getElem?_set_ne hidx, List.getElem?_set_ne hidx]
      exact ⟨a, a', ha, ha', haa⟩

/-- One guard replaced on the left only. -/
theorem GuardsAlike.set_left {m : Nat} {r r' : List ReplayGuard} (h : GuardsAlike m r r')
    {idx : Nat} {g g' : ReplayGuard} (hidx : r'[idx]? = some g') (hg : GuardAlike m g g') :
    GuardsAlike m (r.set idx g) r' := by
  have hset : GuardsAlike m (r.set idx g) (r'.set idx g') := h.set hg
  have hself : r'.set idx g' = r' := by
    obtain ⟨hlt, rfl⟩ := List.getElem?_eq_some_iff.mp hidx
    exact List.set_getElem_self hlt
  rwa [hself] at hset

/-- **Alike guards give one answer**, and stay alike from the reading on. -/
theorem prefilter_alike {psks : List Psk} {r r' : List ReplayGuard} {minute : UInt32}
    {data : List UInt8} (h : GuardsAlike minute.toNat r r') :
    (prefilter H psks r minute data).1 = (prefilter H psks r' minute data).1 ∧
      GuardsAlike minute.toNat (prefilter H psks r minute data).2
        (prefilter H psks r' minute data).2 := by
  cases hreach : reaches H psks minute data with
  | none =>
    rw [prefilter_of_not_reaches hreach, prefilter_of_not_reaches hreach]
    exact ⟨rfl, h⟩
  | some e =>
    obtain ⟨idx, nonce, freshness⟩ := e
    rcases h idx with ⟨hnone, hnone'⟩ | ⟨g, g', hg, hg', hwin, hagree⟩
    · rw [prefilter_of_no_guard hreach hnone, prefilter_of_no_guard hreach hnone']
      exact ⟨rfl, h⟩
    · rw [prefilter_of_reaches hreach hg, prefilter_of_reaches hreach hg']
      have hverdict : (g.checkAndRecord nonce freshness minute).1 =
          (g'.checkAndRecord nonce freshness minute).1 := by
        rw [Bool.eq_iff_iff, checkAndRecord_fst, checkAndRecord_fst, mem_forget, mem_forget, ← hwin]
        exact not_congr (and_congr_left fun hfresh => hagree _ hfresh)
      refine ⟨by simp only [hverdict], h.set ?_⟩
      rw [checkAndRecord_snd, checkAndRecord_snd]
      refine ⟨hwin, ?_⟩
      rw [← hwin]
      exact hagree.record _

/-- A rejected datagram leaves the guards alike: a replay only purges. -/
theorem prefilter_none_alike {psks : List Psk} {r r' : List ReplayGuard} {minute : UInt32}
    {data : List UInt8} (h : GuardsAlike minute.toNat r r')
    (hrej : (prefilter H psks r minute data).1 = none) :
    GuardsAlike minute.toNat (prefilter H psks r minute data).2 r' := by
  cases hreach : reaches H psks minute data with
  | none =>
    rw [prefilter_of_not_reaches hreach]
    exact h
  | some e =>
    obtain ⟨idx, nonce, freshness⟩ := e
    rcases h idx with ⟨hnone, hnone'⟩ | ⟨g, g', hg, hg', hwin, hagree⟩
    · rw [prefilter_of_no_guard hreach hnone]
      exact h
    · rw [prefilter_of_reaches hreach hg] at hrej ⊢
      have hheld : (nonce, freshness) ∈ forget stampOf g.window.toNat minute.toNat g.seen := by
        by_contra hnot
        simp [checkAndRecord_fst.mpr hnot] at hrej
      rw [checkAndRecord_snd]
      exact h.set_left hg' ⟨hwin, hagree.record_left hheld⟩

/-! ## One call -/

/-- A rejected datagram: nothing moves but the limiter and, when a guard was reached, that
guard. -/
theorem gate_rejected {ep : Endpoint Q} {now : Instant} {src : SocketAddr} {minute : UInt32}
    {data : List UInt8} (h : (ep.gate H now src minute data).1 = .rejected) :
    (ep.gate H now src minute data).2.replay = ep.replay ∨
      (prefilter H ep.psks ep.replay minute data).1 = none ∧
        (ep.gate H now src minute data).2.replay =
          (prefilter H ep.psks ep.replay minute data).2 := by
  unfold gate at h ⊢
  split at h
  · rename_i hserver
    rw [if_pos hserver, screen_replay]
    rw [screen_fst] at h
    cases hlimiter : ep.limiterSays now src with
    | false => exact Or.inl rfl
    | true =>
      rw [hlimiter] at h
      cases hpre : (prefilter H ep.psks ep.replay minute data).1 with
      | none => exact Or.inr ⟨rfl, rfl⟩
      | some idx => simp [hpre] at h
  · exact absurd h (by simp)

/-- **A deleted call leaves the runs alike.** -/
theorem Alike.deleted {m : Nat} {ep ep' : Endpoint Q} (h : Alike m ep ep') {call : Call}
    (hrej : Rejected H ep call) (hm : ∀ minute, reading call = some minute → m ≤ minute.toNat) :
    ∃ minute, reading call = some minute ∧ Alike minute.toNat (ep.step H call).2 ep' := by
  cases call with
  | handleDatagram ord now src minute data =>
    have hg : (ep.gate H now src minute data).1 = .rejected := hrej
    have hstep : (ep.step H (.handleDatagram ord now src minute data)).2 =
        (ep.gate H now src minute data).2 := by
      simp only [step, handleDatagram, hg]
    have halike := h.2.mono (hm minute rfl)
    refine ⟨minute, rfl, ?_, ?_⟩
    · rw [hstep, gate_toCore, h.1]
    · rw [hstep]
      rcases gate_rejected hg with hsame | ⟨hnone, hpre⟩
      · rw [hsame]
        exact halike
      · rw [hpre]
        exact prefilter_none_alike halike hnone
  | _ => exact absurd hrej (by simp [Rejected])

/-- Alike endpoints decide a datagram alike when their limiters do. -/
theorem Alike.gate {ep ep' : Endpoint Q} {now : Instant} {src : SocketAddr} {minute : UInt32}
    {data : List UInt8} (h : Alike minute.toNat ep ep')
    (hsame : ep.role = .server → ep.isActiveDcid data = false →
      ep.limiterSays now src = ep'.limiterSays now src) :
    (ep.gate H now src minute data).1 = (ep'.gate H now src minute data).1 ∧
      Alike minute.toNat (ep.gate H now src minute data).2 (ep'.gate H now src minute data).2 := by
  have hpsks : ep'.psks = ep.psks := by
    unfold psks
    rw [h.1]
  have hcore : Alike minute.toNat (ep.gate H now src minute data).2
      (ep'.gate H now src minute data).2 ↔
        GuardsAlike minute.toNat (ep.gate H now src minute data).2.replay
          (ep'.gate H now src minute data).2.replay := by
    rw [Alike, gate_toCore, gate_toCore, h.1]
    exact ⟨fun h => h.2, fun h => ⟨rfl, h⟩⟩
  rw [hcore]
  unfold Endpoint.gate
  rw [← h.1]
  split
  · rename_i hserver
    have hverdict := hsame hserver.1 hserver.2
    obtain ⟨hanswer, hguards⟩ :
        (prefilter H ep.psks ep.replay minute data).1 =
            (prefilter H ep.psks ep'.replay minute data).1 ∧
          GuardsAlike minute.toNat (prefilter H ep.psks ep.replay minute data).2
            (prefilter H ep.psks ep'.replay minute data).2 := prefilter_alike h.2
    rw [screen_fst, screen_fst, screen_replay, screen_replay, hpsks, ← hverdict, hanswer]
    refine ⟨rfl, ?_⟩
    split
    · exact hguards
    · exact h.2
  · exact ⟨rfl, h.2⟩

/-- **A remaining call answers the same**, and leaves the runs alike. -/
theorem Alike.kept {m : Nat} {ep ep' : Endpoint Q} (h : Alike m ep ep') {call : Call}
    (hsame : SameVerdict ep ep' call)
    (hm : ∀ minute, reading call = some minute → m ≤ minute.toNat) :
    (ep.step H call).1 = (ep'.step H call).1 ∧
      Alike (((reading call).map UInt32.toNat).getD m) (ep.step H call).2 (ep'.step H call).2 := by
  have hother : ∀ call, ((ep.toCore.step call).1 = (ep'.toCore.step call).1) ∧
      Alike m { ep with toCore := (ep.toCore.step call).2 }
        { ep' with toCore := (ep'.toCore.step call).2 } := by
    intro call
    rw [h.1]
    exact ⟨rfl, rfl, h.2⟩
  cases call with
  | handleDatagram ord now src minute data =>
    have halike : Alike minute.toNat ep ep' := ⟨h.1, h.2.mono (hm minute rfl)⟩
    obtain ⟨hgate, hcore, hguards⟩ := Alike.gate (H := H) halike hsame
    simp only [step, handleDatagram, reading, Option.map_some, Option.getD_some, hgate]
    split
    · exact ⟨rfl, hcore, hguards⟩
    · rw [hcore]
      exact ⟨rfl, rfl, hguards⟩
  | handleTimeout ord now => exact hother (.handleTimeout ord now)
  | pollTransmit ord now => exact hother (.pollTransmit ord now)
  | pollEvent => exact hother .pollEvent
  | nextTimeout => exact hother .nextTimeout
  | conn ch call => exact hother (.conn ch call)
  | clientId ch => exact hother (.clientId ch)
  | issuedCidCount => exact hother .issuedCidCount

/-! ## Whole runs -/

theorem silence_of_alike : ∀ (marked : List (Call × Bool)) (m : Nat) (ep ep' : Endpoint Q),
    Alike m ep ep' →
    (marked.filterMap fun c => reading c.1).Pairwise (· ≤ ·) →
    (∀ minute ∈ marked.filterMap fun c => reading c.1, m ≤ minute.toNat) →
    DeletedRejected H ep marked → SameVerdicts H ep ep' marked →
      keptAnswers H ep marked = answers H ep' (kept marked)
  | [], _, _, _, _, _, _, _, _ => rfl
  | (call, deleted) :: rest, m, ep, ep', halike, hmono, hm, hrej, hsame => by
    have hm' : ∀ minute, reading call = some minute → m ≤ minute.toNat := fun minute h =>
      hm minute (List.mem_filterMap.mpr ⟨(call, deleted), List.mem_cons_self, h⟩)
    have hlater : ∀ minute, reading call = some minute →
        ∀ minute' ∈ rest.filterMap fun c => reading c.1, minute.toNat ≤ minute'.toNat := by
      intro minute h minute' hmem
      have hcons := List.filterMap_cons_some (f := fun c : Call × Bool => reading c.1)
        (a := (call, deleted)) (l := rest) h
      rw [hcons, List.pairwise_cons] at hmono
      exact UInt32.le_iff_toNat_le.mp (hmono.1 minute' hmem)
    have hmono' : (rest.filterMap fun c => reading c.1).Pairwise (· ≤ ·) :=
      hmono.sublist ((List.sublist_cons_self _ _).filterMap _)
    cases deleted with
    | true =>
      obtain ⟨minute, hread, hnext⟩ := halike.deleted (hrej.1 rfl) hm'
      exact silence_of_alike rest minute.toNat _ _ hnext hmono' (hlater minute hread) hrej.2 hsame
    | false =>
      obtain ⟨hanswer, hnext⟩ := halike.kept (H := H) hsame.1 hm'
      have htail := silence_of_alike rest _ _ _ hnext hmono' (by
        intro minute' hmem
        cases hread : reading call with
        | none =>
          obtain ⟨c, hc, hread'⟩ := List.mem_filterMap.mp hmem
          exact hm minute' (List.mem_filterMap.mpr ⟨c, List.mem_cons_of_mem _ hc, hread'⟩)
        | some minute => exact hlater minute hread minute' hmem) hrej.2 hsame.2
      simp only [keptAnswers, Endpoint.kept, List.filter_cons, Bool.not_false, if_true,
        List.map_cons, answers, Bool.false_eq_true, if_false, List.singleton_append]
      rw [hanswer, htail]
      rfl

/-- **Two-run silence.** Take any run, with non-decreasing minute readings, and delete any set of
`handle_datagram` calls that were rejected in it. When the limiter gives every remaining datagram
the same verdict in both runs, every remaining call answers the same in both. -/
theorem silence (H : KeyedHash) (ep : Endpoint Q) (marked : List (Call × Bool))
    (hmono : (marked.filterMap fun c => reading c.1).Pairwise (· ≤ ·))
    (hdeleted : DeletedRejected H ep marked) (hsame : SameVerdicts H ep ep marked) :
    keptAnswers H ep marked = answers H ep (kept marked) :=
  silence_of_alike marked 0 ep ep ⟨rfl, GuardsAlike.refl 0 _⟩ hmono (fun _ _ => Nat.zero_le _)
    hdeleted hsame

/-- Three bytes of noise in front of a client's first flight. -/
def noiseThenFlight : List (Call × Bool) :=
  [(arrival [1, 2, 3], true), (arrival firstFlight, false), (.pollEvent, false)]

theorem silence_noise :
    DeletedRejected zeroHash miniServer noiseThenFlight ∧
      keptAnswers zeroHash miniServer noiseThenFlight =
        answers zeroHash miniServer [arrival firstFlight, .pollEvent] ∧
      (miniServer.run zeroHash (noiseThenFlight.map Prod.fst)).connections.keys = [⟨0, 1⟩] := by
  have hmono : (noiseThenFlight.filterMap fun c => reading c.1).Pairwise (· ≤ ·) := by decide
  have hnoise : (miniServer.gate zeroHash 0 miniAddr 100 [1, 2, 3]).1 = .rejected := by decide
  have hdeleted : DeletedRejected zeroHash miniServer noiseThenFlight :=
    ⟨fun _ => hnoise, by simp, by simp, trivial⟩
  have hsame : SameVerdicts zeroHash miniServer miniServer noiseThenFlight :=
    ⟨fun _ _ => by decide +kernel, trivial, trivial⟩
  exact ⟨hdeleted, silence zeroHash miniServer noiseThenFlight hmono hdeleted hsame,
    by decide +kernel⟩

end Endpoint

end QuietQuic.Proto
