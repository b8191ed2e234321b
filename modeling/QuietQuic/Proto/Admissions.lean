import QuietQuic.Lib.Tickets
import QuietQuic.Proto.Identity
import QuietQuic.Proto.Silence

/-!
# One dial, one connection

A server over whole runs as a desk that opens connections for tickets (`Lib.Desk`). The ticket of a
connection is the client, the nonce and the freshness minute its first datagram was admitted with.

The desk has no clock and forgets nothing; the server forgets a ticket as soon as its minute is out
of the window. `Remembers` is what carries the refinement: a ticket that was used and is not yet out
of the window is in the client's guard.

* `refines_desk`: every run with non-decreasing minute readings is one of the desk.
* `opened_spec`: what a connection's ticket says about its first datagram and its `client_id`.
* `agreement`: where nobody but a dialer writes a DCID that a configured PSK writes, the connections
  of a client are no more than the dials.
-/

namespace QuietQuic.Proto

open QuietQuic.Lib

/-- A client's index, with the nonce and the freshness minute of a DCID. -/
abbrev Ticket := Nat × (Bytes 8 × UInt32)

section Guards

variable {H : KeyedHash} {psks : List Psk} {replay : List ReplayGuard} {minute : UInt32}
  {data : List UInt8}

/-- The guards still hold a ticket. -/
def HeldBy (replay : List ReplayGuard) (t : Ticket) : Prop :=
  ∃ guard, replay[t.1]? = some guard ∧ t.2 ∈ guard.seen

/-- The guard after it was consulted: what it held and the reading does not pass, and the entry. -/
theorem mem_checkAndRecord {guard : ReplayGuard} {entry e : Bytes 8 × UInt32} :
    e ∈ (guard.checkAndRecord entry.1 entry.2 minute).2.seen ↔
      e = entry ∨ e ∈ guard.seen ∧ minute.toNat ≤ stampOf e + guard.window.toNat := by
  rw [checkAndRecord_snd]
  exact mem_record

/-- **The guards keep** what the reading does not pass. -/
theorem HeldBy.prefilter (hwindow : ∀ g ∈ replay, g.window = WINDOW_MINUTES) {t : Ticket}
    (h : HeldBy replay t) (ht : minute.toNat ≤ stampOf t.2 + window) :
    HeldBy (prefilter H psks replay minute data).2 t := by
  obtain ⟨guard, hguard, hmem⟩ := h
  cases hreach : reaches H psks minute data with
  | none =>
    rw [prefilter_of_not_reaches hreach]
    exact ⟨guard, hguard, hmem⟩
  | some r =>
    obtain ⟨idx, entry⟩ := r
    cases hat : replay[idx]? with
    | none =>
      rw [prefilter_of_no_guard hreach hat]
      exact ⟨guard, hguard, hmem⟩
    | some consulted =>
      rw [prefilter_of_reaches hreach hat]
      by_cases hidx : t.1 = idx
      · subst hidx
        obtain rfl := Option.some.inj (hguard.symm.trans hat)
        refine ⟨_, List.getElem?_set_self (List.getElem?_eq_some_iff.mp hguard).1, ?_⟩
        refine mem_checkAndRecord.mpr (.inr ⟨hmem, ?_⟩)
        rw [hwindow guard (List.mem_of_getElem? hguard)]
        exact ht
      · exact ⟨guard, by rw [List.getElem?_set_ne (Ne.symm hidx)]; exact hguard, hmem⟩

/-- **An admission uses a ticket** that was not held, and leaves it held. -/
theorem prefilter_ticket (hwindow : ∀ g ∈ replay, g.window = WINDOW_MINUTES) {idx : Nat}
    (h : (prefilter H psks replay minute data).1 = some idx) :
    ∃ entry, reaches H psks minute data = some (idx, entry) ∧ ¬ HeldBy replay (idx, entry) ∧
      HeldBy (prefilter H psks replay minute data).2 (idx, entry) := by
  cases hreach : reaches H psks minute data with
  | none =>
    rw [prefilter_of_not_reaches hreach] at h
    exact absurd h (by simp)
  | some r =>
    obtain ⟨j, entry⟩ := r
    cases hat : replay[j]? with
    | none =>
      rw [prefilter_of_no_guard hreach hat] at h
      exact absurd h (by simp)
    | some guard =>
      rw [prefilter_of_reaches hreach hat] at h ⊢
      dsimp only at h
      split at h
      · rename_i hnew
        obtain rfl := Option.some.inj h
        refine ⟨entry, rfl, ?_, ?_⟩
        · rintro ⟨guard', hat', hmem⟩
          obtain rfl := Option.some.inj (hat.symm.trans hat')
          refine checkAndRecord_fst.mp hnew (mem_forget.mpr ⟨hmem, ?_⟩)
          rw [hwindow guard (List.mem_of_getElem? hat)]
          exact reaches_fresh hreach
        · exact ⟨_, List.getElem?_set_self (List.getElem?_eq_some_iff.mp hat).1,
            mem_checkAndRecord.mpr (.inl rfl)⟩
      · exact absurd h (by simp)

/-- A guard holds only what reached it. -/
theorem heldBy_prefilter {t : Ticket} (h : HeldBy (prefilter H psks replay minute data).2 t) :
    HeldBy replay t ∨ reaches H psks minute data = some t := by
  cases hreach : reaches H psks minute data with
  | none =>
    rw [prefilter_of_not_reaches hreach] at h
    exact .inl h
  | some r =>
    obtain ⟨idx, entry⟩ := r
    cases hat : replay[idx]? with
    | none =>
      rw [prefilter_of_no_guard hreach hat] at h
      exact .inl h
    | some consulted =>
      rw [prefilter_of_reaches hreach hat] at h
      obtain ⟨guard, hguard, hmem⟩ := h
      by_cases hidx : t.1 = idx
      · subst hidx
        rw [List.getElem?_set_self (List.getElem?_eq_some_iff.mp hat).1] at hguard
        obtain rfl := Option.some.inj hguard
        rcases mem_checkAndRecord.mp hmem with heq | ⟨hmem, -⟩
        · exact .inr (by rw [← heq])
        · exact .inl ⟨consulted, hat, hmem⟩
      · rw [List.getElem?_set_ne (Ne.symm hidx)] at hguard
        exact .inl ⟨guard, hguard, hmem⟩

/-- A ticket no guard holds is admitted. -/
theorem prefilter_unused {t : Ticket} (hreach : reaches H psks minute data = some t)
    (hguard : t.1 < replay.length) (hunused : ¬ HeldBy replay t) :
    (prefilter H psks replay minute data).1 = some t.1 := by
  obtain ⟨idx, entry⟩ := t
  have hat : replay[idx]? = some replay[idx] := List.getElem?_eq_getElem hguard
  rw [prefilter_of_reaches hreach hat]
  refine if_pos (checkAndRecord_fst.mpr fun hmem => hunused ⟨_, hat, (mem_forget.mp hmem).1⟩)

theorem length_prefilter : (prefilter H psks replay minute data).2.length = replay.length := by
  rw [prefilter_eq]
  split
  · rfl
  · split
    · rfl
    · exact List.length_set

/-- Every guard keeps its window. -/
theorem prefilter_window (hwindow : ∀ g ∈ replay, g.window = WINDOW_MINUTES) :
    ∀ g ∈ (prefilter H psks replay minute data).2, g.window = WINDOW_MINUTES := by
  rw [prefilter_eq]
  split
  · exact hwindow
  · split
    · exact hwindow
    · rename_i idx entry _ guard hat
      intro g hg
      rcases List.mem_or_eq_of_mem_set hg with hg | rfl
      · exact hwindow g hg
      · rw [checkAndRecord_snd]
        exact hwindow guard (List.mem_of_getElem? hat)

end Guards

namespace Endpoint

variable {Q : Quinn} {H : KeyedHash}

/-! ## The connections a run opens -/

/-- The connections a call opens, each with the ticket that admitted it. -/
def opens (H : KeyedHash) (ep : Endpoint Q) (call : Call) : List (ConnectionHandle × Ticket) :=
  match call with
  | .handleDatagram _ now src minute data =>
    match (ep.gate H now src minute data).1 with
    | .admitted idx =>
      (created H ep call).filterMap fun ch =>
        (admittedEntry (some idx) data).map fun ticket => (ch, ticket)
    | _ => []
  | _ => []

/-- The connections a run opens, oldest first. -/
def opened (H : KeyedHash) (ep : Endpoint Q) : List Call → List (ConnectionHandle × Ticket)
  | [] => []
  | call :: calls => ep.opens H call ++ (ep.step H call).2.opened H calls

/-- A call opens nothing, or one connection: its datagram was admitted, with that ticket. -/
theorem opens_cases (ep : Endpoint Q) (call : Call) :
    ep.opens H call = [] ∧ created H ep call = [] ∨
      ∃ ord now src minute data idx entry ch client conn,
        call = .handleDatagram ord now src minute data ∧
        (ep.gate H now src minute data).1 = .admitted idx ∧
        ep.clients[idx]? = some client ∧
        reaches H ep.psks minute data = some (idx, entry) ∧
        Registered ep.toCore (fed ep.toCore (.admitted idx) now src data).2 ch conn
          client.clientId ∧
        created H ep call = [ch] ∧ ep.opens H call = [(ch, (idx, entry))] := by
  cases hcreated : created H ep call with
  | nil =>
    refine .inl ⟨?_, rfl⟩
    unfold opens
    split
    · split
      · rw [hcreated]
        rfl
      · rfl
    · rfl
  | cons ch rest =>
    refine .inr ?_
    have hch : ch ∈ created H ep call := by
      rw [hcreated]
      exact List.mem_cons_self
    obtain ⟨ord, now, src, minute, data, idx, client, incoming, conn, buf, rfl, hgate, hclient, -,
      hreg⟩ := created_spec hch
    have hone : rest = [] := by
      have hnodup : (created H ep (.handleDatagram ord now src minute data)).Nodup :=
        (AList.keys_nodup _).filter _
      have hsame : ∀ a ∈ created H ep (.handleDatagram ord now src minute data), a = ch := by
        intro a ha
        obtain ⟨hmem, hnot⟩ := List.mem_filter.mp ha
        have hmem' : a ∈ ep.toCore.connections.insert ch (ConnState.new conn) := by
          rw [← hreg.connections]
          exact hmem
        exact ((AList.mem_insert _).mp hmem').resolve_right (by simpa using hnot)
      rw [hcreated] at hnodup hsame
      cases rest with
      | nil => rfl
      | cons b rest =>
        have hb : b = ch := hsame b (List.mem_cons_of_mem _ List.mem_cons_self)
        exact absurd (hb ▸ List.mem_cons_self) (List.nodup_cons.mp hnodup).1
    obtain ⟨-, -, hpre⟩ := gate_admitted hgate
    have hreach : ∃ entry, reaches H ep.psks minute data = some (idx, entry) := by
      rw [prefilter_eq] at hpre
      cases hr : reaches H ep.psks minute data with
      | none =>
        rw [hr] at hpre
        exact absurd hpre (by simp)
      | some r =>
        obtain ⟨j, entry⟩ := r
        rw [hr] at hpre
        dsimp only at hpre
        split at hpre
        · exact absurd hpre (by simp)
        · dsimp only at hpre
          split at hpre
          · exact ⟨entry, by rw [Option.some.inj hpre]⟩
          · exact absurd hpre (by simp)
    obtain ⟨entry, hreach⟩ := hreach
    subst hone
    rw [hgate] at hreg
    refine ⟨ord, now, src, minute, data, idx, entry, ch, client, conn, rfl, hgate, hclient, hreach,
      hreg, rfl, ?_⟩
    unfold opens
    dsimp only
    rw [hgate, hcreated]
    simp [admittedEntry_of_reaches hreach]

/-! ## The refinement -/

/-- The guards after a call. -/
theorem replay_step (ep : Endpoint Q) (call : Call) :
    (ep.step H call).2.replay = ep.replay ∨
      ∃ ord now src minute data, call = .handleDatagram ord now src minute data ∧
        (ep.step H call).2.replay = (prefilter H ep.psks ep.replay minute data).2 := by
  cases call with
  | handleDatagram ord now src minute data =>
    have hgate : (ep.step H (.handleDatagram ord now src minute data)).2.replay =
        (ep.gate H now src minute data).2.replay := by
      simp only [step, handleDatagram]
      split <;> rfl
    rw [hgate]
    unfold gate
    split
    · rw [screen_replay]
      split
      · exact .inr ⟨ord, now, src, minute, data, rfl, rfl⟩
      · exact .inl rfl
    · exact .inl rfl
  | _ => exact .inl rfl

/-- An admission is the pre-filter's, and its guards are the ones the call leaves. -/
theorem replay_of_admitted {ep : Endpoint Q} {ord : IterOrder} {now : Instant} {src : SocketAddr}
    {minute : UInt32} {data : List UInt8} {idx : Nat}
    (h : (ep.gate H now src minute data).1 = .admitted idx) :
    (prefilter H ep.psks ep.replay minute data).1 = some idx ∧
      (ep.step H (.handleDatagram ord now src minute data)).2.replay =
        (prefilter H ep.psks ep.replay minute data).2 := by
  obtain ⟨hserver, hactive, hpre⟩ := gate_admitted h
  refine ⟨hpre, ?_⟩
  have hscreen : ep.gate H now src minute data = ep.screen H now src minute data := by
    rw [gate, if_pos ⟨hserver, hactive⟩]
  rw [hscreen, screen_fst] at h
  have hsays : ep.limiterSays now src = true := by
    by_contra hno
    rw [if_neg hno] at h
    exact absurd h (by simp)
  simp only [step, handleDatagram, hscreen]
  have hleft := screen_replay (H := H) ep now src minute data
  rw [if_pos hsays] at hleft
  split <;> exact hleft

/-- The desk a server is, with what it has opened. -/
def desk (ep : Endpoint Q) (opened : List (ConnectionHandle × Ticket)) :
    Desk ConnectionHandle Ticket :=
  ⟨opened, {ch | ch ∈ ep.connections}⟩

/-- **What the guards remember** of what was opened, no reading having passed `m`. -/
structure Remembers (m : Nat) (ep : Endpoint Q) (opened : List (ConnectionHandle × Ticket)) :
    Prop where
  issued : ∀ x ∈ opened, x.1.generation < ep.nextGeneration
  windows : ∀ guard ∈ ep.replay, guard.window = WINDOW_MINUTES
  held : ∀ x ∈ opened, m ≤ stampOf x.2.2 + window → HeldBy ep.replay x.2

theorem le_nextGeneration_step (ep : Endpoint Q) (call : Call) :
    ep.nextGeneration ≤ (ep.step H call).2.nextGeneration := by
  refine step_book_inv (I := fun core => ep.nextGeneration ≤ core.nextGeneration) ?_ ?_ ?_ ?_ call
    (Nat.le_refl _)
  · intro a b hframe _ hb
    rw [hframe.nextGeneration]
    exact hb
  · exact fun core _ _ h => h
  · intro core l h hl
    rw [Core.reap_eq hl]
    exact h
  · intro core core' ch conn id h hreg
    rw [hreg.nextGeneration]
    exact Nat.le_succ_of_le h

/-- No call brings a handle back. -/
theorem mem_or_newer {ep : Endpoint Q} {call : Call} {ch : ConnectionHandle}
    (h : ch ∈ (ep.step H call).2.connections) :
    ch ∈ ep.connections ∨ ep.nextGeneration ≤ ch.generation := by
  refine (mem_step h).imp_right fun hnew => ?_
  obtain ⟨_, _, _, _, _, _, _, _, _, _, -, -, -, -, hreg⟩ := created_spec hnew
  exact hreg.generation.ge

theorem mem_run_or_newer (calls : List Call) {ep : Endpoint Q} {ch : ConnectionHandle}
    (h : ch ∈ (ep.run H calls).connections) :
    ch ∈ ep.connections ∨ ep.nextGeneration ≤ ch.generation := by
  induction calls generalizing ep with
  | nil => exact .inl h
  | cons call calls ih =>
    rcases ih h with hmid | hnew
    · exact mem_or_newer hmid
    · exact .inr ((le_nextGeneration_step ep call).trans hnew)

/-- The reading after a call. -/
def readingAfter (m : Nat) (call : Call) : Nat := ((reading call).map UInt32.toNat).getD m

namespace Remembers

variable {m : Nat} {ep : Endpoint Q} {opened : List (ConnectionHandle × Ticket)}

/-- What was opened before a call is remembered after it. -/
theorem earlier (h : Remembers m ep opened) (call : Call) (hm : m ≤ readingAfter m call) :
    Remembers (readingAfter m call) (ep.step H call).2 opened := by
  refine ⟨fun x hx => (h.issued x hx).trans_le (le_nextGeneration_step ep call), ?_, ?_⟩
  · rcases replay_step (H := H) ep call with heq | ⟨ord, now, src, minute, data, rfl, heq⟩
    · rw [heq]
      exact h.windows
    · rw [heq]
      exact prefilter_window h.windows
  · intro x hx hle
    have hheld := h.held x hx (hm.trans hle)
    rcases replay_step (H := H) ep call with heq | ⟨ord, now, src, minute, data, rfl, heq⟩
    · rw [heq]
      exact hheld
    · rw [heq]
      exact hheld.prefilter h.windows hle

/-- **One call**: the desk opens what the call opens, then closes what the pass reaped. -/
theorem step (h : Remembers m ep opened) (call : Call) (hm : m ≤ readingAfter m call) :
    Remembers (readingAfter m call) (ep.step H call).2 (opened ++ ep.opens H call) ∧
      Desk.Moves (desk ep opened) (desk (ep.step H call).2 (opened ++ ep.opens H call)) := by
  have hearlier := h.earlier (H := H) call hm
  have hlive : ∀ ch ∈ (ep.step H call).2.connections,
      ch ∈ ep.connections ∨ ch ∈ created H ep call := fun ch hch => mem_step hch
  rcases opens_cases (H := H) ep call with ⟨hopens, hcreated⟩ |
    ⟨ord, now, src, minute, data, idx, entry, ch, client, conn, rfl, hgate, -, hreach, hreg,
      hcreated, hopens⟩
  · rw [hopens, List.append_nil]
    refine ⟨hearlier, .single ?_⟩
    have hclosed : desk (ep.step H call).2 opened =
        ⟨opened, (desk ep opened).live \ {ch | ch ∉ (ep.step H call).2.connections}⟩ := by
      refine congrArg (Desk.mk opened) (Set.ext fun ch => ⟨fun hch => ⟨?_, not_not.mpr hch⟩,
        fun hch => not_not.mp hch.2⟩)
      refine (hlive ch hch).resolve_right fun hmem => ?_
      rw [hcreated] at hmem
      exact absurd hmem List.not_mem_nil
    rw [hclosed]
    exact .closes _
  · rw [hopens]
    rw [hcreated] at hlive
    obtain ⟨hpre, hreplay⟩ := @replay_of_admitted _ H ep ord now src minute data idx hgate
    obtain ⟨entry', hreach', hnot, hheld⟩ := prefilter_ticket h.windows hpre
    obtain ⟨-, rfl⟩ := Prod.mk.inj (Option.some.inj (hreach.symm.trans hreach'))
    have hpass : Named ch client.clientId
        (ep.step H (.handleDatagram ord now src minute data)).2.toCore := by
      rw [step_of_gate (by rw [hgate]; simp), hgate]
      exact hreg.named.pass ord now
    refine ⟨⟨fun x hx => ?_, hearlier.windows, fun x hx hle => ?_⟩, ?_⟩
    · rcases List.mem_append.mp hx with hx | hx
      · exact hearlier.issued x hx
      · rw [List.mem_singleton.mp hx]
        exact hpass.issued
    · rcases List.mem_append.mp hx with hx | hx
      · exact hearlier.held x hx hle
      · rw [List.mem_singleton.mp hx, hreplay]
        exact hheld
    · have hfresh : ch ∉ (desk ep opened).sessions := by
        intro hmem
        obtain ⟨x, hx, rfl⟩ := List.mem_map.mp hmem
        have := h.issued x hx
        rw [hreg.generation] at this
        exact Nat.lt_irrefl _ this
      have hunused : (idx, entry) ∉ (desk ep opened).tickets := by
        intro hmem
        obtain ⟨x, hx, hticket⟩ := List.mem_map.mp hmem
        refine hnot (hticket ▸ h.held x hx (hm.trans ?_))
        rw [hticket]
        exact reaches_fresh hreach
      refine .tail (.single (.opens hfresh hunused)) ?_
      have hclosed : desk (ep.step H (.handleDatagram ord now src minute data)).2
            (opened ++ [(ch, (idx, entry))]) =
          ⟨opened ++ [(ch, (idx, entry))], insert ch (desk ep opened).live \
            {a | a ∉ (ep.step H (.handleDatagram ord now src minute data)).2.connections}⟩ := by
        refine congrArg (Desk.mk _) (Set.ext fun a => ⟨fun ha => ⟨?_, not_not.mpr ha⟩,
          fun ha => not_not.mp ha.2⟩)
        rcases hlive a ha with hold | hnew
        · exact .inr hold
        · exact .inl (List.mem_singleton.mp hnew)
      rw [hclosed]
      exact .closes _

end Remembers

/-- **A run of calls.** -/
theorem Remembers.run : ∀ (calls : List Call) {m : Nat} {ep : Endpoint Q}
    {before : List (ConnectionHandle × Ticket)}, Remembers m ep before →
      (calls.filterMap reading).Pairwise (· ≤ ·) →
      (∀ r ∈ calls.filterMap reading, m ≤ r.toNat) →
      Desk.Moves (desk ep before) (desk (ep.run H calls) (before ++ ep.opened H calls))
  | [], m, ep, before, _, _, _ => by
    rw [opened, List.append_nil]
    exact .refl
  | call :: calls, m, ep, before, h, hmono, hfirst => by
    have hm : m ≤ readingAfter m call := by
      unfold readingAfter
      cases hread : reading call with
      | none => exact Nat.le_refl m
      | some r => exact hfirst r (by simp [hread])
    obtain ⟨hstep, hmoves⟩ := h.step (H := H) call hm
    have hrest : (calls.filterMap reading).Pairwise (· ≤ ·) ∧
        ∀ r ∈ calls.filterMap reading, readingAfter m call ≤ r.toNat := by
      rw [List.filterMap_cons] at hmono
      unfold readingAfter
      cases hread : reading call with
      | none =>
        rw [hread] at hmono
        exact ⟨hmono, fun r hr => hfirst r (by simp only [List.filterMap_cons, hread]; exact hr)⟩
      | some minute =>
        rw [hread] at hmono
        obtain ⟨hle, hmono⟩ := List.pairwise_cons.mp hmono
        exact ⟨hmono, fun r hr => UInt32.le_iff_toNat_le.mp (hle r hr)⟩
    have htail := Remembers.run calls hstep hrest.1 hrest.2
    rw [opened, ← List.append_assoc]
    exact hmoves.trans htail

theorem remembers_new {tls : Tls Q} {secrets : ServerSecrets} {ep : Endpoint Q}
    (h : newServer tls secrets = .ok ep) : Remembers 0 ep [] := by
  refine ⟨by simp, ?_, by simp⟩
  unfold newServer at h
  split at h
  · exact absurd h (by simp)
  · obtain rfl := Except.ok.inj h
    intro guard hguard
    obtain ⟨client, -, rfl⟩ := List.mem_map.mp hguard
    rfl

/-- **The server refines the desk.** -/
theorem refines_desk {tls : Tls Q} {secrets : ServerSecrets} {ep₀ : Endpoint Q}
    (hnew : newServer tls secrets = .ok ep₀) (calls : List Call)
    (hmono : (calls.filterMap reading).Pairwise (· ≤ ·)) :
    (desk (ep₀.run H calls) (ep₀.opened H calls)).Reachable := by
  have hrun := (remembers_new hnew).run (H := H) calls hmono fun r _ => Nat.zero_le _
  have hempty : desk ep₀ [] = ⟨[], ∅⟩ := by
    obtain ⟨clients, -, hcore⟩ := newServer_core hnew
    refine congrArg (Desk.mk []) (Set.ext fun ch => ⟨fun hch => ?_, fun hch => hch.elim⟩)
    have hmem : ch ∈ ep₀.connections := hch
    rw [hcore] at hmem
    exact absurd hmem (AList.notMem_empty ch)
  rw [hempty] at hrun
  exact hrun

/-! ## What a ticket says -/

/-- Where an opened connection comes from: a datagram of the run, read within the window, that
carries the DCID an entry's PSK writes for the ticket, and no earlier entry's. -/
structure Sourced (H : KeyedHash) (secrets : ServerSecrets) (calls : List Call)
    (t : Ticket) (entry : ClientEntry) : Prop where
  listed : secrets.clients[t.1]? = some entry
  datagram : ∃ pre ord now src minute data post,
    calls = pre ++ .handleDatagram ord now src minute data :: post ∧
      Carries data (buildDcid H entry.psk t.2.1 t.2.2).toList ∧
      (t.2.2.toNat ≤ minute.toNat + WINDOW_MINUTES.toNat ∧
        minute.toNat ≤ t.2.2.toNat + WINDOW_MINUTES.toNat)

theorem Sourced.later {secrets : ServerSecrets} {calls : List Call} {t : Ticket}
    {entry : ClientEntry} (h : Sourced H secrets calls t entry) (call : Call) :
    Sourced H secrets (call :: calls) t entry := by
  obtain ⟨pre, ord, now, src, minute, data, post, rfl, hrest⟩ := h.datagram
  exact ⟨h.listed, call :: pre, ord, now, src, minute, data, post, rfl, hrest⟩

/-- **An opened connection** has its ticket's source, and its `client_id` is that entry's for as long
as it is live. -/
theorem opened_spec {tls : Tls Q} {secrets : ServerSecrets} {clients : List (ClientCrypto Q)}
    (hbuild : buildClients tls secrets = .ok clients) : ∀ (calls : List Call) {ep : Endpoint Q},
      ep.clients = clients → ∀ x ∈ ep.opened H calls, ∃ entry,
        Sourced H secrets calls x.2 entry ∧ Named x.1 entry.clientId (ep.run H calls).toCore
  | [], _, _, x, hx => absurd hx List.not_mem_nil
  | call :: calls, ep, hclients, x, hx => by
    rcases List.mem_append.mp hx with hx | hx
    · rcases opens_cases (H := H) ep call with ⟨hopens, -⟩ |
        ⟨ord, now, src, minute, data, idx, ⟨nonce, freshness⟩, ch, client, conn, rfl, hgate, hclient,
          hreach, hreg, -, hopens⟩
      · rw [hopens] at hx
        exact absurd hx List.not_mem_nil
      · rw [hopens] at hx
        obtain rfl := List.mem_singleton.mp hx
        rw [hclients] at hclient
        obtain ⟨entry, hentry, hid, hpsk, -⟩ := client_of_entry hbuild hclient
        obtain ⟨psk, hat, hcar, hfresh, -⟩ := reaches_eq_some_iff.mp hreach
        have hsame : psk = entry.psk := by
          rw [psks, hclients, List.getElem?_map, hclient] at hat
          rw [← hpsk, Option.some.inj hat]
        rw [hsame] at hcar
        refine ⟨entry, ⟨hentry, [], ord, now, src, minute, data, calls, rfl, hcar, hfresh⟩, ?_⟩
        have hafter : Named ch entry.clientId
            (ep.step H (.handleDatagram ord now src minute data)).2.toCore := by
          rw [step_of_gate (by rw [hgate]; simp), hgate, ← hid]
          exact hreg.named.pass ord now
        exact run_inv (H := H) (I := fun ep => Named ch entry.clientId ep.toCore)
          (fun ep call h => h.step call) calls hafter
    · obtain ⟨entry, hsourced, hnamed⟩ := opened_spec hbuild calls (clients_step call hclients) x hx
      exact ⟨entry, hsourced.later call, hnamed⟩

/-- **One dial, one connection.** Every run of a server with non-decreasing minute readings is a run
of the desk: no handle is opened twice, no (client, nonce, freshness) opens a second connection, and
every live connection was opened. Each was opened by a datagram of the run that carried, within the
window, the DCID an entry's PSK writes for its nonce and freshness; the handle's `client_id` is that
entry's while it is live, and nobody's afterwards. -/
theorem one_dial_one_connection (H : KeyedHash) (tls : Tls Q) (secrets : ServerSecrets)
    (ep₀ : Endpoint Q) (hnew : newServer tls secrets = .ok ep₀) (calls : List Call)
    (hmono : (calls.filterMap reading).Pairwise (· ≤ ·)) :
    (desk (ep₀.run H calls) (ep₀.opened H calls)).Reachable ∧
    ((ep₀.opened H calls).map Prod.fst).Nodup ∧ ((ep₀.opened H calls).map Prod.snd).Nodup ∧
    (∀ ch ∈ (ep₀.run H calls).connections, ch ∈ (ep₀.opened H calls).map Prod.fst) ∧
    ∀ x ∈ ep₀.opened H calls, ∃ entry, Sourced H secrets calls x.2 entry ∧
      (ep₀.run H calls).clientId x.1 =
        if x.1 ∈ (ep₀.run H calls).connections then some entry.clientId else none := by
  have hreach := refines_desk (H := H) hnew calls hmono
  obtain ⟨clients, hbuild, hcore⟩ := newServer_core hnew
  refine ⟨hreach, hreach.sound.sessions, hreach.sound.tickets, hreach.sound.live, fun x hx => ?_⟩
  obtain ⟨entry, hsourced, hnamed⟩ :=
    opened_spec (H := H) hbuild calls (by rw [hcore]; rfl) x hx
  refine ⟨entry, hsourced, ?_⟩
  split
  · rename_i hlive
    exact hnamed.live hlive
  · rename_i hdead
    exact hnamed.reaped hdead

/-- A first flight, and the same again. -/
def flightTwice : List Call := [arrival firstFlight, arrival firstFlight]

theorem one_dial_one_connection_replayed :
    newServer miniTls miniSecrets = .ok miniServer ∧
      miniServer.opened zeroHash flightTwice = [(⟨0, 1⟩, (0, (List.Vector.replicate 8 1, 100)))] ∧
      ∀ ch ∈ (miniServer.run zeroHash flightTwice).connections, ch = ⟨0, 1⟩ := by
  have hopened : miniServer.opened zeroHash flightTwice =
      [(⟨0, 1⟩, (0, (List.Vector.replicate 8 1, 100)))] := by decide +kernel
  obtain ⟨-, -, -, hlive, -⟩ := one_dial_one_connection zeroHash miniTls miniSecrets miniServer
    miniServer_new flightTwice (by decide)
  rw [hopened] at hlive
  exact ⟨miniServer_new, hopened, fun ch hch => by simpa using hlive ch hch⟩

/-! ## Dialers and the server -/

/-- What a dialer draws and reads. -/
structure Dial where
  psk : Psk
  nonce : Bytes 8
  freshness : UInt32
  deriving DecidableEq

/-- The DCID of the dial's first flight. -/
def Dial.dcid (H : KeyedHash) (d : Dial) : List UInt8 :=
  (buildDcid H d.psk d.nonce d.freshness).toList

/-- What happens around a server: a client dials, or the server is called. Who hands the datagrams
to the server, and in which order, is left open. -/
inductive Move (Q : Quinn) where
  | dial (tls : Tls Q) (freshnessMinute : UInt32) (cfg : ClientConfigFile)
  | call (call : Call)

def Move.dialOf : Move Q → Option Dial
  | .dial tls freshnessMinute cfg => some ⟨cfg.psk, tls.nonce, freshnessMinute⟩
  | .call _ => none

def Move.callOf : Move Q → Option Call
  | .dial _ _ _ => none
  | .call c => some c

/-- What was dialed, oldest first. -/
def dials (moves : List (Move Q)) : List Dial := moves.filterMap Move.dialOf

/-- What the server was called with, oldest first. -/
def callsOf (moves : List (Move Q)) : List Call := moves.filterMap Move.callOf

/-- `new_client` dials with the DCID of its dial. -/
example (tls : Tls Q) (freshnessMinute : UInt32) (cfg : ClientConfigFile)
    (quicClient : Q.QuicClient) :
    (dialConfig H tls freshnessMinute cfg quicClient).initialDstCid =
      Dial.dcid H ⟨cfg.psk, tls.nonce, freshnessMinute⟩ := rfl

/-- Nobody writes the DCID of a configured PSK but by repeating one that was dialed. -/
def Unforged (H : KeyedHash) (secrets : ServerSecrets) (moves : List (Move Q)) : Prop :=
  ∀ pre ord now src minute data post,
    moves = pre ++ .call (.handleDatagram ord now src minute data) :: post →
    ∀ entry ∈ secrets.clients, ∀ nonce freshness,
      Carries data (buildDcid H entry.psk nonce freshness).toList →
      ∃ d ∈ dials pre, d.dcid H = (buildDcid H entry.psk nonce freshness).toList

/-- A call of the server, with the moves before it. -/
theorem callsOf_split {call : Call} {after : List Call} : ∀ {moves : List (Move Q)}
    {before : List Call}, callsOf moves = before ++ call :: after →
      ∃ pre post, moves = pre ++ .call call :: post
  | [], before, h => by
    cases before <;> exact absurd h (by simp [callsOf])
  | .dial tls freshnessMinute cfg :: moves, before, h => by
    have hrest : callsOf moves = before ++ call :: after := h
    obtain ⟨pre, post, rfl⟩ := callsOf_split hrest
    exact ⟨.dial tls freshnessMinute cfg :: pre, post, rfl⟩
  | .call call' :: moves, before, h => by
    have hcons : call' :: callsOf moves = before ++ call :: after := h
    cases before with
    | nil =>
      obtain ⟨rfl, -⟩ := List.cons.inj hcons
      exact ⟨[], moves, rfl⟩
    | cons b before =>
      obtain ⟨-, hrest⟩ := List.cons.inj hcons
      obtain ⟨pre, post, rfl⟩ := callsOf_split hrest
      exact ⟨.call call' :: pre, post, rfl⟩

/-- A DCID of a dial that an entry's PSK writes too is of the same nonce and minute. -/
theorem Dial.eq_of_dcid {d : Dial} {psk : Psk} {nonce : Bytes 8} {freshness : UInt32}
    (h : d.dcid H = (buildDcid H psk nonce freshness).toList) :
    d.nonce = nonce ∧ d.freshness = freshness :=
  have hparse : parseDcid (d.dcid H) = some (builtParts H psk nonce freshness) :=
    h ▸ parseDcid_buildDcid H psk nonce freshness
  eq_of_parseDcid_buildDcid hparse rfl

/-- **Agreement.** A server and any number of dialers, with datagrams delivered, repeated, dropped
and made up in any order; nobody but a dialer writes a DCID that a configured PSK writes, and no two
PSKs write the same one. Then every connection the server opens for a client is of a dial made with
that client's PSK, and the client has no more connections, over the whole run, than it has dialed. -/
theorem agreement (H : KeyedHash) (tls : Tls Q) (secrets : ServerSecrets) (ep₀ : Endpoint Q)
    (hnew : newServer tls secrets = .ok ep₀) (moves : List (Move Q))
    (hmono : ((callsOf moves).filterMap reading).Pairwise (· ≤ ·))
    (hunforged : Unforged H secrets moves)
    (hdiffer : ∀ d ∈ dials moves, ∀ entry ∈ secrets.clients,
      buildDcid H d.psk d.nonce d.freshness = buildDcid H entry.psk d.nonce d.freshness →
        d.psk = entry.psk) :
    ∀ (idx : Nat) (entry : ClientEntry), secrets.clients[idx]? = some entry →
      (∀ x ∈ ep₀.opened H (callsOf moves), x.2.1 = idx →
        (⟨entry.psk, x.2.2.1, x.2.2.2⟩ : Dial) ∈ dials moves) ∧
      ((ep₀.opened H (callsOf moves)).filter fun x => x.2.1 = idx).length ≤
        ((dials moves).filter fun d => d.psk = entry.psk).length := by
  intro idx entry hentry
  obtain ⟨clients, hbuild, hcore⟩ := newServer_core hnew
  have hdialed : ∀ x ∈ ep₀.opened H (callsOf moves), x.2.1 = idx →
      (⟨entry.psk, x.2.2.1, x.2.2.2⟩ : Dial) ∈ dials moves := by
    rintro ⟨ch, ⟨i, nonce, freshness⟩⟩ hx rfl
    obtain ⟨entry', hsourced, -⟩ :=
      opened_spec (H := H) hbuild (callsOf moves) (by rw [hcore]; rfl) _ hx
    obtain rfl := Option.some.inj (hsourced.listed.symm.trans hentry)
    obtain ⟨before, ord, now, src, minute, data, after, hsplit, hcar, -⟩ := hsourced.datagram
    obtain ⟨pre, post, hmoves⟩ := callsOf_split hsplit
    have hmem := List.mem_of_getElem? hsourced.listed
    obtain ⟨d, hd, hdcid⟩ := hunforged pre ord now src minute data post hmoves _ hmem nonce
      freshness hcar
    have hin : d ∈ dials moves := by
      rw [hmoves, dials, List.filterMap_append]
      exact List.mem_append_left _ hd
    obtain ⟨hnonce, hfreshness⟩ := Dial.eq_of_dcid hdcid
    obtain ⟨psk, nonce', freshness'⟩ := d
    dsimp only at hnonce hfreshness
    subst hnonce hfreshness
    have hpsk : psk = entry'.psk := hdiffer _ hin _ hmem (List.Vector.eq _ _ hdcid)
    exact hpsk ▸ hin
  refine ⟨hdialed, ?_⟩
  have hreach := refines_desk (H := H) hnew (callsOf moves) hmono
  have hcount := @Desk.Reachable.count_le _ _ _ hreach
    (((dials moves).filter fun d => d.psk = entry.psk).map fun d =>
      (idx, (d.nonce, d.freshness))) (fun t => decide (t.1 = idx)) ?_
  · rwa [List.length_map] at hcount
  · intro t ht hidx
    obtain ⟨x, hx, rfl⟩ := List.mem_map.mp ht
    have hidx : x.2.1 = idx := by simpa using hidx
    refine List.mem_map.mpr ⟨_, List.mem_filter.mpr ⟨hdialed x hx hidx, by simp⟩, ?_⟩
    rw [← hidx]

/-- Alice dials, and her first flight arrives twice. -/
def dialedOnce : List (Move Mini) :=
  [.dial miniTls 100 ⟨miniPsk, miniAddr⟩, .call (arrival firstFlight),
    .call (arrival firstFlight)]

theorem dialedOnce_unforged : Unforged zeroHash miniSecrets dialedOnce := by
  intro pre ord now src minute data post hsplit entry hentry nonce freshness hcar
  have hdata : data = firstFlight := by
    have hmem : Move.call (.handleDatagram ord now src minute data) ∈ dialedOnce := by
      rw [hsplit]
      exact List.mem_append_right _ List.mem_cons_self
    simp only [dialedOnce, List.mem_cons, List.not_mem_nil, or_false, or_self, reduceCtorEq,
      false_or, Move.call.injEq] at hmem
    exact (Call.handleDatagram.inj hmem).2.2.2.2
  have hpeek := peekDcid_of_carries hcar (by simp) (by simp)
  have hflight : peekDcid firstFlight =
      some (Dial.dcid zeroHash ⟨miniPsk, List.Vector.replicate 8 1, 100⟩) := by decide
  rw [hdata, hflight] at hpeek
  refine ⟨⟨miniPsk, List.Vector.replicate 8 1, 100⟩, ?_, Option.some.inj hpeek⟩
  cases pre with
  | nil => exact absurd (List.cons.inj hsplit).1 (by simp)
  | cons first pre =>
    obtain rfl := (List.cons.inj hsplit).1
    exact List.mem_cons_self

theorem agreement_alice :
    newServer miniTls miniSecrets = .ok miniServer ∧ Unforged zeroHash miniSecrets dialedOnce ∧
      ((miniServer.opened zeroHash (callsOf dialedOnce)).filter fun x => x.2.1 = 0).length ≤ 1 := by
  obtain ⟨-, hcount⟩ := agreement zeroHash miniTls miniSecrets miniServer miniServer_new dialedOnce
    (by decide) dialedOnce_unforged (by decide) 0 ⟨"alice", miniPsk⟩ rfl
  exact ⟨miniServer_new, dialedOnce_unforged, hcount⟩

end Endpoint

end QuietQuic.Proto
