import QuietQuic.Tokio.System

/-!
# Every awaited reply is answered once

`Turn` is everything one `Parked` lives through: what the system around it does, any event at all,
and any change of the core underneath. `senders` is what the four collections hold together.

* `senders_count`: the four collections together hold a channel as often as its own slot does.
* `applyCmd_closed`, `onEvent_not_closed`: `Closed` is the answer of a closed connection only.
* `failAll_senders`: `fail_all` answers what is held, in order, and nothing else.
* `replies_answered_once`: the same over whole runs.
-/

namespace QuietQuic.Tokio

open QuietQuic.Lib QuietQuic.Proto

variable {Q : Quinn}

/-- The reply is `Err(ConnError::Closed)`. -/
def Reply.isClosed : Reply → Bool
  | .stream (.error .closed) | .done (.error .closed) | .bytes (.error .closed) => true
  | _ => false

/-- The reply channels in `pending_accepts`, `blocked_writes`, `pending_reads` and
`fin_waiters`. -/
def Parked.senders (p : Parked) : List Token :=
  p.pendingAccepts ++ (AMap.values p.blockedWrites).map PendingWrite.reply ++
    (AMap.values p.pendingReads).map PendingRead.reply ++ (AMap.values p.finWaiters).flatten

/-! ## What is held -/

/-- **`fail_all` answers what is held**, each channel as often as it is held. -/
theorem failAll_senders (p : Parked) : p.failAll.2.map Prod.fst = p.senders := by
  simp [Parked.failAll, Parked.senders, Function.comp_def]

theorem failAll_closed {p : Parked} {x : Token × Reply} (hx : x ∈ p.failAll.2) :
    x.2.isClosed = true := by
  simp only [Parked.failAll, List.mem_append, List.mem_map] at hx
  obtain ((⟨t, -, rfl⟩ | ⟨w, -, rfl⟩) | ⟨r, -, rfl⟩) | ⟨t, -, rfl⟩ := hx <;> rfl

section Held

variable {slotOf : Token → Option Slot} {p : Parked}

/-- A map of the parked operations holds a channel as often as the channel's own slot does, if that
is one of the map's, and not at all otherwise. -/
theorem map_count {V : Type} {m : AMap StreamId V} {f : V → List Token} {σ : StreamId → Slot}
    (hσ : Function.Injective σ) (h : Typed slotOf p)
    (htokens : ∀ id, p.tokens (σ id) = (m.lookup id).toList.flatMap f) (t : Token) :
    (∀ id, slotOf t = some (σ id) →
        ((AMap.values m).flatMap f).count t = (p.tokens (σ id)).count t) ∧
      ((∀ id, slotOf t ≠ some (σ id)) → ((AMap.values m).flatMap f).count t = 0) := by
  have hslot : ∀ a v, m.lookup a = some v → t ∈ f v → slotOf t = some (σ a) := by
    intro a v hv ht
    refine h (σ a) t ?_
    rw [htokens, hv]
    simpa using ht
  refine ⟨fun id hid => ?_, fun hno => List.count_eq_zero.mpr fun hmem => ?_⟩
  · rw [htokens]
    exact AMap.count_values fun a v hv ht =>
      hσ (Option.some.inj ((hslot a v hv ht).symm.trans hid))
  · obtain ⟨v, hv, ht⟩ := List.mem_flatMap.mp hmem
    obtain ⟨e, he, rfl⟩ := List.mem_map.mp hv
    exact hno e.1 (hslot e.1 e.2 (AList.mem_lookup_iff.mpr he) ht)

/-- **The four collections together hold a channel as often as its own slot does.** -/
theorem senders_count (h : Typed slotOf p) (t : Token) :
    p.senders.count t = held slotOf p t := by
  have haccepts : slotOf t ≠ some .accept → p.pendingAccepts.count t = 0 :=
    fun hne => List.count_eq_zero.mpr fun hmem => hne (h .accept t hmem)
  obtain ⟨hwrite, hwrite'⟩ := map_count (m := p.blockedWrites) (f := fun w => [w.reply])
    (fun _ _ => Slot.write.inj) h (fun _ => List.map_eq_flatMap) t
  obtain ⟨hread, hread'⟩ := map_count (m := p.pendingReads) (f := fun r => [r.reply])
    (fun _ _ => Slot.read.inj) h (fun _ => List.map_eq_flatMap) t
  obtain ⟨hfin, hfin'⟩ := map_count (m := p.finWaiters) (f := id) (fun _ _ => Slot.fin.inj) h
    (fun a => by cases hw : p.finWaiters.lookup a <;> simp [Parked.tokens, hw]) t
  rw [Parked.senders, List.count_append, List.count_append, List.count_append,
    List.map_eq_flatMap, List.map_eq_flatMap, ← List.flatMap_id]
  unfold held
  cases hslot : slotOf t with
  | none =>
    rw [haccepts (by simp [hslot]), hwrite' (by simp [hslot]), hread' (by simp [hslot]),
      hfin' (by simp [hslot])]
  | some σ =>
    cases σ with
    | accept =>
      rw [hwrite' (by simp [hslot]), hread' (by simp [hslot]), hfin' (by simp [hslot])]
      rfl
    | write a =>
      rw [haccepts (by simp [hslot]), hwrite a hslot, hread' (by simp [hslot]),
        hfin' (by simp [hslot])]
      simp
    | read a =>
      rw [haccepts (by simp [hslot]), hwrite' (by simp [hslot]), hread a hslot,
        hfin' (by simp [hslot])]
      simp
    | fin a =>
      rw [haccepts (by simp [hslot]), hwrite' (by simp [hslot]), hread' (by simp [hslot]),
        hfin a hslot]
      simp

end Held

/-! ## Who answers `Closed` -/

/-- A read of a stream never answers `Closed`. -/
theorem streamRead_not_closed (s : ConnState Q) (id : StreamId) (len : Nat) :
    (s.streamRead id len).1 ≠ .error .closed := by
  have herrored : ∀ ch : Q.Chunks, (ConnState.readLoop len ch).errored ≠ some .closed := by
    intro ch
    refine loop_inv (I := fun r : ConnState.ReadLoop Q => r.errored ≠ some .closed) ?_ ?_ _ (by simp)
    all_goals
      intro r r' hr hround
      unfold ConnState.readRound at hround
      split at hround
      · split at hround <;> cases hround <;> simp_all
      · cases hround <;> exact hr
  unfold ConnState.streamRead
  split
  · simp
  · split
    · simp
    · dsimp only
      split
      · simp
      · simp
      · rename_i ch hread
        show ConnState.readAnswer (ConnState.readLoop len ch) ≠ .error .closed
        unfold ConnState.readAnswer
        split
        · simp
        · split
          · rename_i err herr
            have := herrored ch
            rw [herr] at this
            simpa using this
          · simp

/-- Nor does a pumped one. -/
theorem pumpRead_not_closed (core : ConnState Q) (id : StreamId) (pending : PendingRead) :
    (pumpRead core id pending).reply ≠ some (.error .closed) := by
  obtain ⟨t, ht, hdone⟩ := pumpRead_exit (I := fun r => r.reply = none) core id pending
    (fun r r' _ hround => by rw [(readPumpRound_again hround).2]) rfl
  have hread := streamRead_not_closed t.core id (readRequest t.pending)
  cases readPumpRound_done hdone with
  | exceeded _ _ _ _ _ _ hreply => simp [hreply]
  | chunk _ _ _ _ hreply => simp [hreply]
  | blocked _ _ _ hreply => simp [hreply, ht]
  | finished _ _ _ hreply => simp [hreply]
  | forgot _ _ hreply => simp [hreply]
  | failed e herr _ hreply =>
    rw [herr] at hread
    simpa [hreply] using hread

theorem pumpWrite_not_closed (core : ConnState Q) (id : StreamId) (pending : PendingWrite) :
    (pumpWrite core id pending).reply ≠ some (.error .closed) := by
  obtain ⟨t, ht, hdone⟩ := pumpWrite_exit (I := fun w => w.reply = none) core id pending
    (fun w w' hw hround => by
      obtain ⟨n, -, -, rfl⟩ := writePumpRound_again hround
      exact hw) rfl
  have hwrite : ∀ buf, (t.core.streamWrite id buf).1 ≠ .error .closed := by
    intro buf
    unfold ConnState.streamWrite
    split
    · simp
    · dsimp only
      split <;> simp
  cases (writePumpRound_done hdone).1 with
  | written _ hreply => simp [hreply]
  | blocked _ _ _ hreply => simp [hreply, ht]
  | failed e herr _ hreply =>
    have hno := hwrite (t.pending.data.drop t.pending.offset)
    rw [herr] at hno
    simpa [hreply] using hno

/-- An answer of `offer_read` is the pump's. -/
theorem offerRead_not_closed {p : Parked} {core : ConnState Q} {id : StreamId} {pending : PendingRead}
    {x : Token × Reply} (hx : x ∈ (p.offerRead core id pending).sent) : x.2.isClosed = false := by
  obtain ⟨answer, hreply, rfl⟩ := Parked.mem_offerRead_sent hx
  have hno := pumpRead_not_closed core id pending
  rw [hreply] at hno
  unfold Reply.isClosed
  split <;> simp_all

theorem offerWrite_not_closed {p : Parked} {core : ConnState Q} {id : StreamId}
    {pending : PendingWrite} {x : Token × Reply}
    (hx : x ∈ (p.offerWrite core id pending).sent) : x.2.isClosed = false := by
  obtain ⟨answer, hreply, rfl⟩ := Parked.mem_offerWrite_sent hx
  have hno := pumpWrite_not_closed core id pending
  rw [hreply] at hno
  unfold Reply.isClosed
  split <;> simp_all

theorem onWritable_not_closed {p : Parked} {core : ConnState Q} {id : StreamId}
    {x : Token × Reply} (hx : x ∈ (p.onWritable core id).sent) : x.2.isClosed = false := by
  unfold Parked.onWritable at hx
  split at hx
  · exact absurd hx List.not_mem_nil
  · exact offerWrite_not_closed hx

/-- `accept_bi` has no error to hand on. -/
theorem acceptParked_not_closed : ∀ (l : List Token) (core : ConnState Q),
    ∀ x ∈ (Parked.acceptParked core l).2.2.1, x.2.isClosed = false
  | [], _ => by simp [Parked.acceptParked]
  | t :: rest, core => by
    intro x hx
    unfold Parked.acceptParked at hx
    dsimp only at hx
    split at hx
    · rcases List.mem_cons.mp hx with rfl | hx
      · rfl
      · exact acceptParked_not_closed rest core.acceptBi.2 x hx
    · exact absurd hx List.not_mem_nil
    · rename_i e herr
      unfold ConnState.acceptBi at herr
      split at herr <;> exact absurd herr (by simp)

/-- **No event answers `Closed`.** -/
theorem onEvent_not_closed {p : Parked} {core : ConnState Q} {e : Event} {x : Token × Reply}
    (hx : x ∈ (p.onEvent core e).sent) : x.2.isClosed = false := by
  cases e with
  | connected ch => exact absurd hx List.not_mem_nil
  | connectionLost ch reason => exact absurd hx List.not_mem_nil
  | streamOpened ch id dir => exact acceptParked_not_closed _ core x hx
  | streamReadable ch id =>
    change x ∈ (p.onReadable core id).sent at hx
    unfold Parked.onReadable at hx
    split at hx
    · exact absurd hx List.not_mem_nil
    · exact offerRead_not_closed hx
  | streamWritable ch id => exact onWritable_not_closed hx
  | streamFinAcked ch id =>
    rw [reply_of_waiters hx]
    rfl
  | streamStopped ch id code =>
    rcases List.mem_append.mp hx with hx | hx
    · rw [reply_of_waiters hx]
      rfl
    · exact onWritable_not_closed hx

/-- What a command that takes a stream answers itself. -/
theorem done_not_closed {t : Token} {answer : Except ConnError Unit} (h : answer ≠ .error .closed)
    {x : Token × Reply} (hx : x ∈ [(t, Reply.done answer)]) : x.2.isClosed = false := by
  rw [List.mem_singleton.mp hx]
  unfold Reply.isClosed
  split <;> simp_all

theorem streamFinish_not_closed (s : ConnState Q) (id : StreamId) :
    (s.streamFinish id).1 ≠ .error .closed := by
  unfold ConnState.streamFinish
  split
  · simp
  · simp
  · simp
  · dsimp only
    split <;> simp

theorem varint_not_closed {code : Nat} {e : ConnError} (h : varint code = .error e) :
    e ≠ .closed := by
  unfold varint at h
  split at h
  · exact absurd h (by simp)
  · rw [← Except.error.inj h]
    simp

theorem streamReset_not_closed (s : ConnState Q) (id : StreamId) (code : Nat) :
    (s.streamReset id code).1 ≠ .error .closed := by
  unfold ConnState.streamReset
  split
  · rename_i e herr
    simpa using varint_not_closed herr
  · dsimp only
    split <;> simp

theorem streamStop_not_closed (s : ConnState Q) (id : StreamId) (code : Nat) :
    (s.streamStop id code).1 ≠ .error .closed := by
  unfold ConnState.streamStop
  split
  · rename_i e herr
    simpa using varint_not_closed herr
  · dsimp only
    split <;> simp

/-- **Only a closed connection answers a command with `Closed`**: it refuses to open a stream. -/
theorem applyCmd_closed {p : Parked} {core : ConnState Q} {cmd : Cmd} {now : Instant}
    {x : Token × Reply} (hx : x ∈ (p.applyCmd core cmd now).sent) (hclosed : x.2.isClosed = true) :
    Q.isClosed core.conn = true := by
  have hnot : ¬ x.2.isClosed = false := by simp [hclosed]
  cases cmd with
  | openBi t =>
    by_contra hopen
    rw [List.mem_singleton.mp hx] at hclosed
    unfold ConnState.openBi at hclosed
    rw [if_neg hopen] at hclosed
    dsimp only at hclosed
    split at hclosed <;> exact absurd hclosed (by simp [Reply.isClosed])
  | acceptBi t =>
    simp only [Parked.applyCmd] at hx
    split at hx
    · rw [List.mem_singleton.mp hx] at hnot
      exact absurd rfl hnot
    · exact absurd hx List.not_mem_nil
    · rename_i e herr
      unfold ConnState.acceptBi at herr
      split at herr <;> exact absurd herr (by simp)
  | write id data t => exact absurd (offerWrite_not_closed hx) hnot
  | finish id t => exact absurd (done_not_closed (streamFinish_not_closed core id) hx) hnot
  | waitFinished id t =>
    simp only [Parked.applyCmd] at hx
    split at hx
    case h_3 => exact absurd hx List.not_mem_nil
    all_goals exact absurd (done_not_closed (by simp) hx) hnot
  | reset id code t =>
    have hanswer := streamReset_not_closed core id code
    simp only [Parked.applyCmd] at hx
    split at hx
    · rcases List.mem_append.mp hx with hx | hx
      · rcases List.mem_append.mp hx with hx | hx
        · rw [reply_of_waiters hx] at hnot
          exact absurd rfl hnot
        · obtain ⟨w, -, rfl⟩ := List.mem_map.mp hx
          exact absurd rfl hnot
      · exact absurd (done_not_closed (by simp) hx) hnot
    · rename_i e herr
      rw [herr] at hanswer
      exact absurd (done_not_closed hanswer hx) hnot
  | stop id code t =>
    have hanswer := streamStop_not_closed core id code
    simp only [Parked.applyCmd] at hx
    split at hx
    · rcases List.mem_append.mp hx with hx | hx
      · obtain ⟨r, -, rfl⟩ := List.mem_map.mp hx
        exact absurd rfl hnot
      · exact absurd (done_not_closed (by simp) hx) hnot
    · rename_i e herr
      rw [herr] at hanswer
      exact absurd (done_not_closed hanswer hx) hnot
  | releaseSend id => exact absurd hx List.not_mem_nil
  | readToEnd id limit t => exact absurd (offerRead_not_closed hx) hnot
  | read id len t => exact absurd (offerRead_not_closed hx) hnot
  | close code reason => exact absurd hx List.not_mem_nil

/-! ## Runs -/

/-- What happens around a `Parked`: an action of the system, an event the core reports, whether or
not anything led to it, and a change of the core of any kind. -/
inductive Turn (Q : Quinn) where
  | act (a : Action Q)
  | event (e : Event)
  | core (c : ConnState Q)

namespace Sys

/-- One of them. -/
def turn (s : Sys Q) : Turn Q → Sys Q
  | .act a => s.step a
  | .event e => s.after (s.parked.onEvent s.core e)
  | .core c => { s with core := c }

/-- A run of them. -/
def turns (s : Sys Q) (l : List (Turn Q)) : Sys Q := l.foldl turn s

theorem Sound.turn {s : Sys Q} (h : s.Sound) (u : Turn Q) : (s.turn u).Sound := by
  cases u with
  | act a => exact h.step a
  | event e => exact h.reacts (onEvent_releases s.parked s.core e)
  | core c => exact h.frame c s.events s.yielded

theorem Sound.turns {s : Sys Q} (h : s.Sound) (l : List (Turn Q)) : (s.turns l).Sound := by
  induction l generalizing s with
  | nil => exact h
  | cons u l ih => exact ih (h.turn u)

/-- What a turn adds to the replies, and which of it can be `Closed`. -/
theorem turn_sent (s : Sys Q) (u : Turn Q) : ∃ new, (s.turn u).sent = s.sent ++ new ∧
    ∀ x ∈ new, x.2.isClosed = true → Q.isClosed s.core.conn = true := by
  have hnone : ∃ new, s.sent = s.sent ++ new ∧
      ∀ x ∈ new, x.2.isClosed = true → Q.isClosed s.core.conn = true := ⟨[], by simp, by simp⟩
  cases u with
  | act a =>
    have htaken := taken s a
    show ∃ new, (s.step a).sent = _ ∧ _
    generalize s.step a = s' at htaken ⊢
    cases htaken with
    | executed now hcmds => exact ⟨_, rfl, fun x hx => applyCmd_closed hx⟩
    | dispatched hevents =>
      refine ⟨_, rfl, fun x hx hclosed => ?_⟩
      exact absurd hclosed (by simp [onEvent_not_closed hx])
    | _ => exact hnone
  | event e =>
    refine ⟨_, rfl, fun x hx hclosed => ?_⟩
    exact absurd hclosed (by simp [onEvent_not_closed hx])
  | core c => exact hnone

/-- How often a channel is in the command channel, in the four collections, and used. -/
theorem Sound.places_eq {s : Sys Q} (h : s.Sound) (t : Token) :
    s.places t = (s.commands.filterMap Cmd.reply).count t + s.parked.senders.count t +
      (s.sent.map Prod.fst).count t := by
  rw [senders_count h.typed]
  rfl

/-- Where the reply channels of a connection are. -/
structure Answered (s : Sys Q) : Prop where
  /-- No channel is used twice, held twice, or used and still held. -/
  once : ∀ t, s.parked.senders.count t + (s.sent.map Prod.fst).count t ≤ 1
  /-- An awaited channel whose command was applied is used once, or held in one of the four
  collections. -/
  applied : ∀ t ∈ s.waiting, t ∉ s.commands.filterMap Cmd.reply →
    ((s.sent.map Prod.fst).count t = 1 ∧ t ∉ s.parked.senders) ∨
      (t ∉ s.sent.map Prod.fst ∧ s.parked.senders.count t = 1)
  /-- One whose command is queued is there. -/
  queued : ∀ t ∈ s.waiting, t ∈ s.commands.filterMap Cmd.reply →
    (s.commands.filterMap Cmd.reply).count t = 1 ∧ t ∉ s.sent.map Prod.fst ∧
      t ∉ s.parked.senders
  /-- Whatever happens next, only a closed connection answers `Closed`. -/
  alive : ∀ u, ∃ new, (s.turn u).sent = s.sent ++ new ∧
    ∀ x ∈ new, x.2.isClosed = true → Q.isClosed s.core.conn = true
  /-- `fail_all` answers what is held, all of it `Closed`, and nothing stays. -/
  failed : s.parked.failAll.2.map Prod.fst = s.parked.senders ∧
    (∀ x ∈ s.parked.failAll.2, x.2.isClosed = true) ∧ s.parked.failAll.1 = .new
  /-- So an awaited channel whose command was applied has then been used once. -/
  settled : ∀ t ∈ s.waiting, t ∉ s.commands.filterMap Cmd.reply →
    ((s.sent ++ s.parked.failAll.2).map Prod.fst).count t = 1

/-- **Every awaited reply is answered once, and only a closed connection answers `Closed`**, in
every state of every run. -/
theorem replies_answered_once (handle : ConnectionHandle) (core : ConnState Q)
    (l : List (Turn Q)) : Answered ((Sys.start handle core).turns l) := by
  have hsound := (Sound.start handle core).turns l
  generalize (Sys.start handle core).turns l = s at hsound ⊢
  have honce : ∀ t, s.parked.senders.count t + (s.sent.map Prod.fst).count t ≤ 1 := by
    intro t
    have := hsound.once t
    rw [hsound.places_eq] at this
    omega
  have hcovered : ∀ t ∈ s.waiting, (s.commands.filterMap Cmd.reply).count t +
      s.parked.senders.count t + (s.sent.map Prod.fst).count t = 1 := by
    intro t ht
    rw [← hsound.places_eq]
    exact (hsound.covered t ht).2
  refine ⟨honce, fun t ht hqueue => ?_, fun t ht hqueue => ?_, s.turn_sent,
    ⟨failAll_senders _, fun x hx => failAll_closed hx, rfl⟩, fun t ht hqueue => ?_⟩
  · have hone := hcovered t ht
    rw [List.count_eq_zero.mpr hqueue, Nat.zero_add] at hone
    by_cases hsent : t ∈ s.sent.map Prod.fst
    · have hpos := List.count_pos_iff.mpr hsent
      exact .inl ⟨by omega, List.count_eq_zero.mp (by omega)⟩
    · rw [List.count_eq_zero.mpr hsent] at hone
      exact .inr ⟨hsent, hone⟩
  · have hone := hcovered t ht
    have hpos := List.count_pos_iff.mpr hqueue
    exact ⟨by omega, List.count_eq_zero.mp (by omega), List.count_eq_zero.mp (by omega)⟩
  · have hone := hcovered t ht
    rw [List.count_eq_zero.mpr hqueue] at hone
    rw [List.map_append, List.count_append, failAll_senders]
    omega

end Sys

end QuietQuic.Tokio
