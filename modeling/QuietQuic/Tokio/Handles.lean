import QuietQuic.Proto.SendFins
import QuietQuic.Tokio.Reads

/-!
# Stream handles and the core's bookkeeping

`App` is a connection under its driver with the `SendStream` and `RecvStream` handles of its
application: `open_bi` and `accept_bi` return both, their methods need them, and each may be dropped
at any time. Dropping a `SendStream` queues `ReleaseSend`; dropping a `RecvStream` queues nothing.

The core keeps a fact for a stream in `send_fins` and in `finished_reads`. `Clean` is the condition
on a step under which it leaves no fact behind for a stream whose handles are both dropped.

* `pumpRead_ends`, `applyCmd_facts`, `onEvent_facts`, `serviceOne_facts`: which facts a step adds.
* `Covered.step`: every fact of a stream without handles is one a queued command will clear.
* `facts_released`: in a run of clean steps, once the queues are empty, every fact belongs to a
  stream with a handle that is not dropped.
-/

namespace QuietQuic.Proto.ConnState

open QuietQuic.Lib

variable {Q : Quinn}

/-- quinn-proto reports the end of the stream to a read of `len` bytes. -/
def SeesEnd (s : ConnState Q) (id : StreamId) (len : Nat) : Prop :=
  ∃ ch, Q.recvRead s.conn id = .chunks ch ∧ (readLoop len ch).finished = true

/-- The chunk loop sees the end of the stream or an error, not both. -/
theorem readLoop_finished {len : Nat} {ch : Q.Chunks} (h : (readLoop len ch).finished = true) :
    (readLoop len ch).errored = none := by
  obtain ⟨t, ⟨hplain, hnone⟩, hdone⟩ := readLoop_exit
    (I := fun r : ReadLoop Q => r.finished = false ∧ r.errored = none) len ch
    (fun r r' hr hround => by
      obtain ⟨bytes, ch', -, rfl⟩ := readRound_again hround
      exact hr) ⟨rfl, rfl⟩
  unfold readRound at hdone
  split at hdone
  · split at hdone
    · exact absurd hdone (by simp)
    · rw [← Ctl.done.inj hdone]
      exact hnone
    · rw [← Ctl.done.inj hdone]
      exact hnone
    · rw [← Ctl.done.inj hdone] at h
      exact absurd (hplain.symm.trans h) (by simp)
  · rw [← Ctl.done.inj hdone]
    exact hnone

/-- A read adds its stream to the finished ones when it sees the end, and answers accordingly. -/
theorem streamRead_ends {s : ConnState Q} {id a : StreamId} {len : Nat}
    (h : a ∈ (s.streamRead id len).2.2.finishedReads) :
    a ∈ s.finishedReads ∨ a = id ∧ s.SeesEnd id len ∧
      ((s.streamRead id len).1 = .ok .finished ∨ ∃ n, (s.streamRead id len).1 = .ok (.read n)) := by
  unfold streamRead at h ⊢
  split
  · rename_i hmem
    rw [if_pos hmem] at h
    exact .inl h
  · rename_i hnot
    rw [if_neg hnot] at h
    split
    · rename_i hlen
      rw [if_pos hlen] at h
      exact .inl h
    · rename_i hlen
      rw [if_neg hlen] at h
      dsimp only at h ⊢
      split at h
      · exact .inl h
      · exact .inl h
      · rename_i ch hread
        dsimp only at h ⊢
        split at h
        · rename_i hfin
          rcases Finset.mem_insert.mp h with rfl | h
          · refine .inr ⟨rfl, ⟨ch, hread, hfin⟩, ?_⟩
            unfold readAnswer
            split
            · exact .inr ⟨_, rfl⟩
            · rw [readLoop_finished hfin]
              exact .inl rfl
          · exact .inl h
        · exact .inl h

end QuietQuic.Proto.ConnState

namespace QuietQuic.Tokio

open QuietQuic.Lib QuietQuic.Proto

variable {Q : Quinn}

/-! ## Which facts an operation adds -/

/-- The round sees the end of the stream and is the pump's last: an incremental read, or one whose
bytes exceed their limit. -/
def ReadPump.Ends (id : StreamId) (r : ReadPump Q) : Prop :=
  r.core.SeesEnd id (readRequest r.pending) ∧
    (r.pending.max.isSome = true ∨ r.pending.endLimit = none ∨
      ∃ limit, r.pending.endLimit = some limit ∧ limit.toNat <
        (r.pending.buf ++ (r.core.streamRead id (readRequest r.pending)).2.1).length)

/-- A read runs into the end of its stream, other than a `read_to_end` within its limit. -/
def RunsIntoEnd (core : ConnState Q) (id : StreamId) (pending : PendingRead) : Prop :=
  ∃ r, Relation.ReflTransGen (fun r r' => readPumpRound id r = .again r') { core, pending } r ∧
    r.Ends id

/-- The exit round of a pumped read leaves its stream's end recorded only where it runs into it, or
where it was recorded and no `read_to_end` asks. -/
theorem readPumpRound_ends {id : StreamId} {r r' : ReadPump Q} (hdone : readPumpRound id r = .done r')
    (h : id ∈ r'.core.finishedReads) :
    r.Ends id ∨ id ∈ r.core.finishedReads ∧ r.pending.endLimit = none := by
  have hseen : id ∈ (r.core.streamRead id (readRequest r.pending)).2.2.finishedReads →
      (r.core.streamRead id (readRequest r.pending)).1 = .ok .finished ∧
          id ∈ r.core.finishedReads ∨
        r.core.SeesEnd id (readRequest r.pending) ∧
          ((r.core.streamRead id (readRequest r.pending)).1 = .ok .finished ∨
            ∃ n, (r.core.streamRead id (readRequest r.pending)).1 = .ok (.read n)) := by
    intro hmem
    rcases ConnState.streamRead_ends hmem with hold | ⟨-, hsees, hanswer⟩
    · exact .inl ⟨ConnState.streamRead_finished hold _, hold⟩
    · exact .inr ⟨hsees, hanswer⟩
  have hbytes : ∀ n, (r.core.streamRead id (readRequest r.pending)).1 = .ok (.read n) →
      id ∈ (r.core.streamRead id (readRequest r.pending)).2.2.finishedReads →
      r.core.SeesEnd id (readRequest r.pending) := by
    intro n hread hmem
    rcases hseen hmem with ⟨hfin, -⟩ | ⟨hsees, -⟩
    · exact absurd (hread.symm.trans hfin) (by simp)
    · exact hsees
  cases readPumpRound_done hdone with
  | exceeded n limit hread hlimit hlt hcore =>
    rw [hcore] at h
    exact .inl ⟨hbytes n hread h, .inr (.inr ⟨limit, hlimit, hlt⟩)⟩
  | chunk n hread hmax hcore =>
    rw [hcore] at h
    exact .inl ⟨hbytes n hread h, .inl hmax⟩
  | blocked hread hcore =>
    rw [hcore] at h
    rcases hseen h with ⟨hfin, -⟩ | ⟨-, hfin | ⟨n, hfin⟩⟩ <;>
      exact absurd (hread.symm.trans hfin) (by simp)
  | finished hread hlimit hcore =>
    rw [hcore] at h
    rcases hseen h with ⟨-, hold⟩ | ⟨hsees, -⟩
    · exact .inr ⟨hold, hlimit⟩
    · exact .inl ⟨hsees, .inr (.inl hlimit)⟩
  | forgot hread hcore =>
    rw [hcore] at h
    exact absurd h (by simp [ConnState.forgetRecv])
  | failed e hread hcore =>
    rw [hcore] at h
    rcases hseen h with ⟨hfin, -⟩ | ⟨-, hfin | ⟨n, hfin⟩⟩ <;>
      exact absurd (hread.symm.trans hfin) (by simp)

/-- A round records no other stream's end. -/
theorem readPumpRound_other {id a : StreamId} {r r' : ReadPump Q} (hne : a ≠ id)
    (hround : readPumpRound id r = .done r' ∨ readPumpRound id r = .again r')
    (h : a ∈ r'.core.finishedReads) : a ∈ r.core.finishedReads := by
  have hread : a ∈ (r.core.streamRead id (readRequest r.pending)).2.2.finishedReads →
      a ∈ r.core.finishedReads := by
    intro hmem
    rcases ConnState.streamRead_ends hmem with hold | ⟨heq, -⟩
    · exact hold
    · exact absurd heq hne
  rcases hround with hround | hround
  · rcases (readPumpRound_done hround).core with hcore | hcore
    · rw [hcore] at h
      exact hread h
    · rw [hcore] at h
      exact hread (Finset.mem_of_mem_erase h)
  · obtain ⟨-, rfl⟩ := readPumpRound_again hround
    exact hread h

/-- **Which ends a pumped read leaves recorded**: those that were, and its stream's if it runs into
it. -/
theorem pumpRead_ends {core : ConnState Q} {id a : StreamId} {pending : PendingRead}
    (h : a ∈ (pumpRead core id pending).core.finishedReads) :
    a ∈ core.finishedReads ∨ a = id ∧ RunsIntoEnd core id pending := by
  -- up to the exit the end may have been seen, if this is a `read_to_end`
  let I := fun r : ReadPump Q =>
    Relation.ReflTransGen (fun r r' => readPumpRound id r = .again r') { core, pending } r ∧
      (∀ b, b ≠ id → b ∈ r.core.finishedReads → b ∈ core.finishedReads) ∧
      (id ∈ r.core.finishedReads → id ∈ core.finishedReads ∨ RunsIntoEnd core id pending ∨
        r.pending.endLimit ≠ none)
  have hagain : ∀ r r', I r → readPumpRound id r = .again r' → I r' := by
    rintro r r' ⟨hreach, hothers, hown⟩ hround
    refine ⟨hreach.tail hround, fun b hne hb => ?_, fun hid => ?_⟩
    · exact hothers b hne (readPumpRound_other hne (.inr hround) hb)
    · obtain ⟨-, rfl⟩ := readPumpRound_again hround
      rcases ConnState.streamRead_ends hid with hold | ⟨-, hsees, -⟩
      · exact hown hold
      · by_cases hlimit : r.pending.endLimit = none
        · exact .inr (.inl ⟨r, hreach, hsees, .inr (.inl hlimit)⟩)
        · exact .inr (.inr hlimit)
  obtain ⟨t, ⟨hreach, hothers, hown⟩, hdone⟩ := pumpRead_exit core id pending hagain
    ⟨.refl, fun _ _ hb => hb, .inl⟩
  by_cases hne : a = id
  · subst hne
    rcases readPumpRound_ends hdone h with hends | ⟨hold, hlimit⟩
    · exact .inr ⟨rfl, t, hreach, hends⟩
    · rcases hown hold with hcore | hruns | hno
      · exact .inl hcore
      · exact .inr ⟨rfl, hruns⟩
      · exact absurd hlimit hno
  · exact .inl (hothers a hne (readPumpRound_other hne (.inl hdone) h))

/-- The facts of a connection are the ones of another. -/
structure SameFacts (s s' : ConnState Q) : Prop where
  sends : s'.sendFins = s.sendFins
  reads : s'.finishedReads = s.finishedReads

theorem SameFacts.refl (s : ConnState Q) : SameFacts s s := ⟨rfl, rfl⟩

theorem SameFacts.trans {s s' s'' : ConnState Q} (h : SameFacts s s') (h' : SameFacts s' s'') :
    SameFacts s s'' :=
  ⟨h'.sends.trans h.sends, h'.reads.trans h.reads⟩

/-- Opening, accepting and writing add no fact. -/
theorem SameFacts.driven {P : ConnOp Q → Prop} {s s' : ConnState Q}
    (hP : ∀ o, P o → o = .call .openBi ∨ o = .call .acceptBi ∨ ∃ id, WritesOf id o)
    (h : ConnState.Driven P s s') : SameFacts s s' := by
  refine h.keeps (I := SameFacts s) (fun o t _ ho ht => ht.trans ?_) (.refl s)
  rcases hP o ho with rfl | rfl | ⟨id, buf, rfl⟩
  · exact ⟨t.openBi_frame.1, t.openBi_frame.2⟩
  · exact ⟨t.acceptBi_frame.1, t.acceptBi_frame.2⟩
  · exact ⟨(t.streamWrite_frame id buf).2.1, (t.streamWrite_frame id buf).2.2⟩

/-- What offering a read adds. -/
theorem offerRead_facts (p : Parked) (core : ConnState Q) (id : StreamId) (pending : PendingRead) :
    (p.offerRead core id pending).core.sendFins = core.sendFins ∧
      ∀ a ∈ (p.offerRead core id pending).core.finishedReads,
        a ∈ core.finishedReads ∨ a = id ∧ RunsIntoEnd core id pending := by
  rw [Parked.offerRead_core]
  exact ⟨(pumpRead_frame core id pending).2, fun a ha => pumpRead_ends ha⟩

/-! ## Commands and events -/

/-- The command removes the send half's fact of `id`. -/
def Cmd.ClearsSend (id : StreamId) : Cmd → Prop
  | .releaseSend a => a = id
  | .reset a code _ => a = id ∧ code < 2 ^ 62
  | _ => False

/-- The command removes the receive half's fact of `id`. -/
def Cmd.ClearsRecv (id : StreamId) : Cmd → Prop
  | .reset a code _ | .stop a code _ => a = id ∧ code < 2 ^ 62
  | _ => False

theorem Cmd.not_clearsRecv {cmd : Cmd} {a : StreamId} (h : cmd.slot = some (.read a))
    (id : StreamId) : ¬ cmd.ClearsRecv id := by
  cases cmd with
  | readToEnd | read => exact fun h => h
  | _ => exact absurd h (by simp [Cmd.slot])

/-- The facts after a command: a finish may add its stream's, and a read that runs into the end its
stream's. What the command clears is gone. -/
structure CmdFacts (core : ConnState Q) (cmd : Cmd) (s : ConnState Q) : Prop where
  sends : ∀ id ∈ s.sendFins, id ∈ core.sendFins ∧ ¬ cmd.ClearsSend id ∨ ∃ t, cmd = .finish id t
  reads : ∀ id ∈ s.finishedReads, id ∈ core.finishedReads ∧ ¬ cmd.ClearsRecv id ∨
    ∃ pending, cmd.slot = some (.read id) ∧ cmd.pendingRead = some pending ∧
      RunsIntoEnd core id pending

theorem SameFacts.cmdFacts {core s : ConnState Q} {cmd : Cmd} (h : SameFacts core s)
    (hsend : ∀ id, ¬ cmd.ClearsSend id) (hrecv : ∀ id, ¬ cmd.ClearsRecv id) :
    CmdFacts core cmd s :=
  ⟨fun id hid => .inl ⟨h.sends ▸ hid, hsend id⟩, fun id hid => .inl ⟨h.reads ▸ hid, hrecv id⟩⟩

theorem streamFinish_facts (core : ConnState Q) (id : StreamId) (t : Token) :
    CmdFacts core (.finish id t) (core.streamFinish id).2 := by
  have hinsert : ∀ {m : AMap StreamId SendFin} {fact : SendFin}, m = core.sendFins →
      ∀ a ∈ m.insert id fact, a ∈ core.sendFins ∧ ¬ (Cmd.finish id t).ClearsSend a ∨
        ∃ t', Cmd.finish id t = .finish a t' := by
    rintro m fact rfl a ha
    rcases (AList.mem_insert _).mp ha with rfl | ha
    · exact .inr ⟨t, rfl⟩
    · exact .inl ⟨ha, fun h => h⟩
  have hsame : ∀ {s : ConnState Q}, SameFacts core s → CmdFacts core (.finish id t) s :=
    fun h => h.cmdFacts (fun _ h => h) fun _ h => h
  unfold ConnState.streamFinish
  split
  · exact hsame (.refl core)
  · exact hsame (.refl core)
  · exact hsame (.refl core)
  · dsimp only
    split
    · exact ⟨hinsert rfl, (hsame ⟨rfl, rfl⟩).reads⟩
    · rename_i code hstopped
      unfold ConnState.recordSendFin
      split
      · exact hsame ⟨rfl, rfl⟩
      · exact hsame ⟨rfl, rfl⟩
      · exact ⟨hinsert rfl, (hsame ⟨rfl, rfl⟩).reads⟩
      · exact ⟨hinsert rfl, (hsame ⟨rfl, rfl⟩).reads⟩
    · exact hsame ⟨rfl, rfl⟩

theorem streamReset_facts (core : ConnState Q) (id : StreamId) (code : Nat) (t : Token) :
    CmdFacts core (.reset id code t) (core.streamReset id code).2 := by
  unfold ConnState.streamReset varint
  by_cases hcode : code < 2 ^ 62
  · rw [if_pos hcode]
    refine ⟨fun a ha => ?_, fun a ha => ?_⟩
    · obtain ⟨hne, hmem⟩ := AList.mem_erase.mp ha
      exact .inl ⟨hmem, fun h => hne h.1.symm⟩
    · obtain ⟨hne, hmem⟩ := Finset.mem_erase.mp ha
      exact .inl ⟨hmem, fun h => hne h.1.symm⟩
  · rw [if_neg hcode]
    exact (SameFacts.refl core).cmdFacts (fun _ h => hcode h.2) fun _ h => hcode h.2

theorem streamStop_facts (core : ConnState Q) (id : StreamId) (code : Nat) (t : Token) :
    CmdFacts core (.stop id code t) (core.streamStop id code).2 := by
  unfold ConnState.streamStop varint
  by_cases hcode : code < 2 ^ 62
  · rw [if_pos hcode]
    refine ⟨fun a ha => .inl ⟨ha, fun h => h⟩, fun a ha => ?_⟩
    obtain ⟨hne, hmem⟩ := Finset.mem_erase.mp ha
    exact .inl ⟨hmem, fun h => hne h.1.symm⟩
  · rw [if_neg hcode]
    exact (SameFacts.refl core).cmdFacts (fun _ h => h) fun _ h => hcode h.2

theorem offerRead_cmdFacts {p : Parked} {core : ConnState Q} {cmd : Cmd} {id : StreamId}
    {pending : PendingRead} (hslot : cmd.slot = some (.read id))
    (hread : cmd.pendingRead = some pending) (hsend : ∀ a, ¬ cmd.ClearsSend a) :
    CmdFacts core cmd (p.offerRead core id pending).core := by
  obtain ⟨hsends, hreads⟩ := offerRead_facts p core id pending
  refine ⟨fun a ha => .inl ⟨hsends ▸ ha, hsend a⟩, fun a ha => ?_⟩
  rcases hreads a ha with hold | ⟨rfl, hruns⟩
  · exact .inl ⟨hold, Cmd.not_clearsRecv hslot a⟩
  · exact .inr ⟨pending, hslot, hread, hruns⟩

/-- **Which facts a command adds.** -/
theorem applyCmd_facts (p : Parked) (core : ConnState Q) (cmd : Cmd) (now : Instant) :
    CmdFacts core cmd (p.applyCmd core cmd now).core := by
  have hdriven := applyCmd_driven p core cmd now
  cases cmd with
  | openBi t => exact (SameFacts.driven (fun o => .inl) hdriven).cmdFacts (fun _ h => h) fun _ h => h
  | acceptBi t =>
    exact (SameFacts.driven (fun o ho => .inr (.inl ho)) hdriven).cmdFacts (fun _ h => h) fun _ h => h
  | write id data t =>
    exact (SameFacts.driven (fun o ho => .inr (.inr ⟨id, ho⟩)) hdriven).cmdFacts (fun _ h => h)
      fun _ h => h
  | finish id t => exact streamFinish_facts core id t
  | waitFinished id t =>
    simp only [Parked.applyCmd]
    split <;> exact (SameFacts.refl core).cmdFacts (fun _ h => h) fun _ h => h
  | reset id code t =>
    simp only [Parked.applyCmd]
    split <;> exact streamReset_facts core id code t
  | stop id code t =>
    simp only [Parked.applyCmd]
    split <;> exact streamStop_facts core id code t
  | releaseSend id =>
    refine ⟨fun a ha => ?_, fun a ha => .inl ⟨ha, fun h => h⟩⟩
    obtain ⟨hne, hmem⟩ := AList.mem_erase.mp ha
    exact .inl ⟨hmem, fun h => hne h.symm⟩
  | readToEnd id limit t => exact offerRead_cmdFacts rfl rfl fun _ h => h
  | read id len t => exact offerRead_cmdFacts rfl rfl fun _ h => h
  | close code reason => exact SameFacts.cmdFacts ⟨rfl, rfl⟩ (fun _ h => h) fun _ h => h

/-- **Which facts an event adds**: where a parked read runs into the end of its stream, that. -/
theorem onEvent_facts (p : Parked) (core : ConnState Q) (e : Event) :
    (p.onEvent core e).core.sendFins = core.sendFins ∧
      ∀ id ∈ (p.onEvent core e).core.finishedReads, id ∈ core.finishedReads ∨
        ∃ ch pending, e = .streamReadable ch id ∧ p.pendingReads.lookup id = some pending ∧
          RunsIntoEnd core id pending := by
  have hsame : ∀ {s : ConnState Q}, SameFacts core s → s.sendFins = core.sendFins ∧
      ∀ id ∈ s.finishedReads, id ∈ core.finishedReads ∨
        ∃ ch pending, e = .streamReadable ch id ∧ p.pendingReads.lookup id = some pending ∧
          RunsIntoEnd core id pending :=
    fun h => ⟨h.sends, fun id hid => .inl (h.reads ▸ hid)⟩
  have hdriven := onEvent_driven p core e
  cases e with
  | connected ch => exact hsame (.refl core)
  | connectionLost ch reason => exact hsame (.refl core)
  | streamOpened ch id dir => exact hsame (.driven (fun o ho => .inr (.inl ho)) hdriven)
  | streamReadable ch id =>
    simp only [Parked.onEvent]
    unfold Parked.onReadable
    split
    · exact hsame (.refl core)
    · rename_i pending hpending
      obtain ⟨hsends, hreads⟩ :=
        offerRead_facts { p with pendingReads := p.pendingReads.erase id } core id pending
      refine ⟨hsends, fun a ha => ?_⟩
      rcases hreads a ha with hold | ⟨rfl, hruns⟩
      · exact .inl hold
      · exact .inr ⟨ch, pending, rfl, hpending, hruns⟩
  | streamWritable ch id => exact hsame (.driven (fun o ho => .inr (.inr ⟨id, ho⟩)) hdriven)
  | streamFinAcked ch id => exact hsame (.refl core)
  | streamStopped ch id code => exact hsame (.driven (fun o ho => .inr (.inr ⟨id, ho⟩)) hdriven)

/-- **Which facts a pass adds**: those of the streams whose end it polls. -/
theorem serviceOne_facts (now : Instant) (ch : ConnectionHandle) (s : ConnState Q) :
    (Core.serviceOne now ch s).1.finishedReads = s.finishedReads ∧
      ∀ id ∈ (Core.serviceOne now ch s).1.sendFins, id ∈ s.sendFins ∨
        ∃ ev ∈ s.polledEvents, ev.Terminal id := by
  refine ⟨s.serviceStreams_finishedReads, fun id hid => ?_⟩
  by_contra hno
  obtain ⟨hnot, hquiet⟩ := not_or.mp hno
  have hsame := ((s.serviceStreams_fin id).1 fun ev hev hterm => hquiet ⟨ev, hev, hterm⟩).1
  obtain ⟨fact, hfact⟩ := AMap.mem_iff_lookup.mp hid
  exact hnot (AMap.mem_iff_lookup.mpr ⟨fact, hsame.symm.trans hfact⟩)

/-! ## The application's handles -/

/-- The stream a reply hands out. -/
def Reply.streamId : Reply → Option StreamId
  | .stream (.ok id) => some id
  | _ => none

/-- A connection with the stream handles its application dropped. -/
structure App (Q : Quinn) where
  sys : Sys Q
  droppedSends : Finset StreamId
  droppedRecvs : Finset StreamId

/-- What can happen: anything on the connection, or a handle is dropped. -/
inductive Use (Q : Quinn) where
  | act (a : Action Q)
  | dropSend (id : StreamId)
  | dropRecv (id : StreamId)

namespace App

/-- A new connection. -/
def start (handle : ConnectionHandle) (c : Q.Conn) : App Q where
  sys := .start handle (.new c)
  droppedSends := ∅
  droppedRecvs := ∅

/-- The streams `open_bi` and `accept_bi` returned. -/
def handed (app : App Q) : List StreamId := app.sys.received.filterMap fun x => x.2.streamId

/-- The application holds the stream's `SendStream`. -/
def holdsSend (app : App Q) (id : StreamId) : Bool := id ∈ app.handed ∧ id ∉ app.droppedSends

/-- The application holds the stream's `RecvStream`. -/
def holdsRecv (app : App Q) (id : StreamId) : Bool := id ∈ app.handed ∧ id ∉ app.droppedRecvs

/-- The handle the method behind a command belongs to is held. A `QuinnHandle` finishes, waits and
forgets by id. -/
def mayIssue (app : App Q) : Cmd → Bool
  | .write id _ _ | .reset id _ _ => app.holdsSend id
  | .readToEnd id _ _ | .read id _ _ | .stop id _ _ => app.holdsRecv id
  | _ => true

/-- One use. `Drop for SendStream` finds room in the command channel. -/
def step (app : App Q) : Use Q → App Q
  | .act (.issue cmd) =>
    if app.mayIssue cmd then { app with sys := app.sys.step (.issue cmd) } else app
  | .act a => { app with sys := app.sys.step a }
  | .dropSend id =>
    if app.holdsSend id then
      { app with
        sys := app.sys.step (.issue (.releaseSend id))
        droppedSends := insert id app.droppedSends }
    else app
  | .dropRecv id =>
    if app.holdsRecv id then { app with droppedRecvs := insert id app.droppedRecvs } else app

/-- A run. -/
def run (app : App Q) (uses : List (Use Q)) : App Q := uses.foldl step app

/-- Every use of a run meets `P` in the state it is made in. -/
def Meets (P : App Q → Use Q → Prop) : App Q → List (Use Q) → Prop
  | _, [] => True
  | app, u :: uses => P app u ∧ Meets P (app.step u) uses

/-- Both handles of the stream are dropped. -/
def Gone (app : App Q) (id : StreamId) : Prop := id ∈ app.droppedSends ∧ id ∈ app.droppedRecvs

/-- Once all commands and events are processed, every stream the core has a fact of is one whose
`SendStream` or `RecvStream` is not dropped. -/
def Bounded (app : App Q) : Prop :=
  app.sys.commands = [] → app.sys.events = [] →
    ∀ id, id ∈ app.sys.core.sendFins ∨ id ∈ app.sys.core.finishedReads →
      id ∉ app.droppedSends ∨ id ∉ app.droppedRecvs

/-- A queued command clears the send half's fact of `id`. -/
def sendCleared (app : App Q) (id : StreamId) : Prop := ∃ cmd ∈ app.sys.commands, cmd.ClearsSend id

/-- A queued command clears the receive half's fact of `id`. -/
def recvCleared (app : App Q) (id : StreamId) : Prop := ∃ cmd ∈ app.sys.commands, cmd.ClearsRecv id

/-- The use leaves no fact behind for a stream without handles, up to what a queued command
clears: nothing is finished by id after its `SendStream` is dropped; no read for a stream without
handles runs into the end; quinn-proto reports no end of such a stream's send half; and the last
handle of a stream is dropped without an end of its receive half recorded and, if it is the
`RecvStream`, without a fact of its send half. -/
def Clean (app : App Q) : Use Q → Prop
  | .act (.issue (.finish id _)) => id ∉ app.droppedSends
  | .act (.execute _) => ∀ cmd rest id pending, app.sys.commands = cmd :: rest →
      cmd.slot = some (.read id) → cmd.pendingRead = some pending → app.Gone id →
      RunsIntoEnd app.sys.core id pending → app.recvCleared id
  | .act .dispatch => ∀ ch id rest pending, app.sys.events = .streamReadable ch id :: rest →
      app.sys.parked.pendingReads.lookup id = some pending → app.Gone id →
      RunsIntoEnd app.sys.core id pending → app.recvCleared id
  | .act (.service _) => ∀ id, app.Gone id →
      (∃ ev ∈ app.sys.core.polledEvents, ev.Terminal id) → app.sendCleared id
  | .dropSend id => id ∈ app.droppedRecvs → id ∈ app.sys.core.finishedReads → app.recvCleared id
  | .dropRecv id => id ∈ app.droppedSends →
      (id ∈ app.sys.core.finishedReads → app.recvCleared id) ∧
        (id ∈ app.sys.core.sendFins → app.sendCleared id)
  | _ => True

/-! ## Facts without handles -/

/-- Every fact of a stream without handles is one a queued command clears, and a queued finish of a
stream whose `SendStream` is dropped has the `ReleaseSend` behind it. -/
structure Covered (app : App Q) : Prop where
  sends : ∀ id, app.Gone id → id ∈ app.sys.core.sendFins → app.sendCleared id
  reads : ∀ id, app.Gone id → id ∈ app.sys.core.finishedReads → app.recvCleared id
  finishes : ∀ id t after, Cmd.finish id t :: after <:+ app.sys.commands → id ∈ app.droppedSends →
    ∃ cmd ∈ after, cmd.ClearsSend id

namespace Covered

variable {app : App Q}

theorem start (handle : ConnectionHandle) (c : Q.Conn) : Covered (App.start handle c) :=
  ⟨fun id h => absurd h.1 (Finset.notMem_empty id), fun id h => absurd h.1 (Finset.notMem_empty id),
    fun id _ _ _ h => absurd h (Finset.notMem_empty id)⟩

/-- The queue and the facts are all that counts. -/
theorem frame (h : Covered app) {s : Sys Q} (hfacts : SameFacts app.sys.core s.core)
    (hcmds : s.commands = app.sys.commands) : Covered { app with sys := s } := by
  refine ⟨fun id hgone hid => ?_, fun id hgone hid => ?_, fun id t after hsuf hid => ?_⟩
  · obtain ⟨cmd, hcmd, hclears⟩ := h.sends id hgone (hfacts.sends ▸ hid)
    exact ⟨cmd, hcmds ▸ hcmd, hclears⟩
  · obtain ⟨cmd, hcmd, hclears⟩ := h.reads id hgone (hfacts.reads ▸ hid)
    exact ⟨cmd, hcmds ▸ hcmd, hclears⟩
  · exact h.finishes id t after (hcmds ▸ hsuf) hid

/-- A command is queued. -/
theorem queued (h : Covered app) {s : Sys Q} {cmd : Cmd} (hcore : s.core = app.sys.core)
    (hcmds : s.commands = app.sys.commands ++ [cmd])
    (hfinish : ∀ id t, cmd = .finish id t → id ∉ app.droppedSends) :
    Covered { app with sys := s } := by
  refine ⟨fun id hgone hid => ?_, fun id hgone hid => ?_, fun id t after hsuf hid => ?_⟩
  · obtain ⟨c, hc, hclears⟩ := h.sends id hgone (hcore ▸ hid)
    exact ⟨c, by rw [hcmds]; exact List.mem_append_left _ hc, hclears⟩
  · obtain ⟨c, hc, hclears⟩ := h.reads id hgone (hcore ▸ hid)
    exact ⟨c, by rw [hcmds]; exact List.mem_append_left _ hc, hclears⟩
  · change Cmd.finish id t :: after <:+ s.commands at hsuf
    rw [hcmds, List.suffix_concat_iff] at hsuf
    rcases hsuf with hnil | ⟨before, heq, hsuf⟩
    · exact absurd hnil (by simp)
    · cases before with
      | nil =>
        obtain ⟨rfl, -⟩ : Cmd.finish id t = cmd ∧ after = [] := by simpa using heq
        exact absurd hid (hfinish id t rfl)
      | cons c before =>
        obtain ⟨rfl, rfl⟩ : Cmd.finish id t = c ∧ after = before ++ [cmd] := by simpa using heq
        obtain ⟨c, hc, hclears⟩ := h.finishes id t before hsuf hid
        exact ⟨c, List.mem_append_left _ hc, hclears⟩

/-- The driver applies a command: what it clears is cleared, and what it adds is covered. -/
theorem executed (h : Covered app) {s : Sys Q} {cmd : Cmd} {rest : List Cmd}
    (hcmds : app.sys.commands = cmd :: rest) (hrest : s.commands = rest)
    (hfacts : CmdFacts app.sys.core cmd s.core)
    (hclean : ∀ id pending, cmd.slot = some (.read id) → cmd.pendingRead = some pending →
      app.Gone id → RunsIntoEnd app.sys.core id pending → app.recvCleared id) :
    Covered { app with sys := s } := by
  refine ⟨fun id hgone hid => ?_, fun id hgone hid => ?_, fun id t after hsuf hid => ?_⟩
  · rcases hfacts.sends id hid with ⟨hold, hnot⟩ | ⟨t, rfl⟩
    · obtain ⟨c, hc, hclears⟩ := h.sends id hgone hold
      rw [hcmds] at hc
      rcases List.mem_cons.mp hc with rfl | hc
      · exact absurd hclears hnot
      · exact ⟨c, hrest ▸ hc, hclears⟩
    · obtain ⟨c, hc, hclears⟩ := h.finishes id t rest (hcmds ▸ List.suffix_refl _) hgone.1
      exact ⟨c, hrest ▸ hc, hclears⟩
  · rcases hfacts.reads id hid with ⟨hold, hnot⟩ | ⟨pending, hslot, hread, hruns⟩
    · obtain ⟨c, hc, hclears⟩ := h.reads id hgone hold
      rw [hcmds] at hc
      rcases List.mem_cons.mp hc with rfl | hc
      · exact absurd hclears hnot
      · exact ⟨c, hrest ▸ hc, hclears⟩
    · obtain ⟨c, hc, hclears⟩ := hclean id pending hslot hread hgone hruns
      rw [hcmds] at hc
      rcases List.mem_cons.mp hc with rfl | hc
      · exact absurd hclears (Cmd.not_clearsRecv hslot id)
      · exact ⟨c, hrest ▸ hc, hclears⟩
  · refine h.finishes id t after ?_ hid
    rw [hcmds]
    exact (hrest ▸ hsuf).trans (List.suffix_cons cmd rest)

/-- **Every action on the connection**, where it is clean. -/
theorem acted (h : Covered app) (a : Action Q) (hclean : app.Clean (.act a)) :
    Covered { app with sys := app.sys.step a } := by
  have htaken := Sys.taken app.sys a
  generalize app.sys.step a = s at htaken ⊢
  cases htaken with
  | idle => exact h
  | @told cmd hreply =>
    refine h.queued rfl rfl fun id t heq => ?_
    rw [heq] at hreply
    exact absurd hreply (by simp [Cmd.reply])
  | @issued cmd t hreply hfresh hfree =>
    refine h.queued rfl rfl fun id t' heq => ?_
    subst heq
    exact hclean
  | cancelled t => exact h.frame (.refl _) rfl
  | received hx hwait => exact h.frame (.refl _) rfl
  | @executed cmd rest now hcmds =>
    exact h.executed hcmds rfl (applyCmd_facts _ _ cmd now) fun id pending =>
      hclean cmd rest id pending hcmds
  | @dispatched e rest hevents =>
    obtain ⟨hsends, hreads⟩ := onEvent_facts app.sys.parked app.sys.core e
    refine ⟨fun id hgone hid => h.sends id hgone (hsends ▸ hid), fun id hgone hid => ?_, h.finishes⟩
    rcases hreads id hid with hold | ⟨ch, pending, rfl, hpending, hruns⟩
    · exact h.reads id hgone hold
    · exact hclean ch id rest pending hevents hpending hgone hruns
  | serviced now =>
    obtain ⟨hreads, hsends⟩ := serviceOne_facts now app.sys.handle app.sys.core
    refine ⟨fun id hgone hid => ?_, fun id hgone hid => h.reads id hgone (hreads ▸ hid), h.finishes⟩
    rcases hsends id hid with hold | hpolled
    · exact h.sends id hgone hold
    · exact hclean id hgone hpolled
  | called hstep => exact h.frame ⟨rfl, rfl⟩ rfl

/-- A `SendStream` is dropped: the `ReleaseSend` clears the send half's fact. -/
theorem dropSend (h : Covered app) (id : StreamId) (hclean : app.Clean (.dropSend id)) :
    Covered { app with
      sys := app.sys.step (.issue (.releaseSend id))
      droppedSends := insert id app.droppedSends } := by
  have hcmds : (app.sys.step (.issue (.releaseSend id))).commands =
      app.sys.commands ++ [.releaseSend id] := rfl
  have hrelease : Cmd.releaseSend id ∈ app.sys.commands ++ [.releaseSend id] := by simp
  have hq := h.queued (s := app.sys.step (.issue (.releaseSend id))) rfl hcmds
    (fun a t heq => absurd heq (by simp))
  refine ⟨fun a hgone ha => ?_, fun a hgone ha => ?_, fun a t after hsuf ha => ?_⟩
  · rcases Finset.mem_insert.mp hgone.1 with rfl | hold
    · exact ⟨.releaseSend a, hrelease, rfl⟩
    · exact hq.sends a ⟨hold, hgone.2⟩ ha
  · rcases Finset.mem_insert.mp hgone.1 with rfl | hold
    · obtain ⟨c, hc, hclears⟩ := hclean hgone.2 ha
      exact ⟨c, List.mem_append_left _ hc, hclears⟩
    · exact hq.reads a ⟨hold, hgone.2⟩ ha
  · rcases Finset.mem_insert.mp ha with rfl | hold
    · -- the queue ends with the release, and this finish is before it
      change Cmd.finish a t :: after <:+ app.sys.commands ++ [.releaseSend a] at hsuf
      rcases List.suffix_concat_iff.mp hsuf with hnil | ⟨before, heq, -⟩
      · exact absurd hnil (by simp)
      · cases before with
        | nil => exact absurd heq (by simp)
        | cons c before =>
          obtain ⟨-, rfl⟩ : Cmd.finish a t = c ∧ after = before ++ [.releaseSend a] := by
            simpa using heq
          exact ⟨.releaseSend a, by simp, rfl⟩
    · exact hq.finishes a t after hsuf hold

/-- A `RecvStream` is dropped, and nothing is queued for it. -/
theorem dropRecv (h : Covered app) (id : StreamId) (hclean : app.Clean (.dropRecv id)) :
    Covered { app with droppedRecvs := insert id app.droppedRecvs } := by
  refine ⟨fun a hgone ha => ?_, fun a hgone ha => ?_, h.finishes⟩
  · rcases Finset.mem_insert.mp hgone.2 with rfl | hold
    · exact (hclean hgone.1).2 ha
    · exact h.sends a ⟨hgone.1, hold⟩ ha
  · rcases Finset.mem_insert.mp hgone.2 with rfl | hold
    · exact (hclean hgone.1).1 ha
    · exact h.reads a ⟨hgone.1, hold⟩ ha

/-- **Every clean use keeps the facts covered.** -/
theorem step (h : Covered app) (u : Use Q) (hclean : app.Clean u) : Covered (app.step u) := by
  cases u with
  | act a =>
    cases a with
    | issue cmd =>
      show Covered (if app.mayIssue cmd then { app with sys := app.sys.step (.issue cmd) } else app)
      split
      · exact h.acted (.issue cmd) hclean
      · exact h
    | cancel t => exact h.acted (.cancel t) hclean
    | receive t => exact h.acted (.receive t) hclean
    | execute now => exact h.acted (.execute now) hclean
    | dispatch => exact h.acted .dispatch hclean
    | service now => exact h.acted (.service now) hclean
    | handleEvent ev => exact h.acted (.handleEvent ev) hclean
    | handleTimeout now => exact h.acted (.handleTimeout now) hclean
    | endpointEvent => exact h.acted .endpointEvent hclean
  | dropSend id =>
    simp only [App.step]
    split
    · exact h.dropSend id hclean
    · exact h
  | dropRecv id =>
    simp only [App.step]
    split
    · exact h.dropRecv id hclean
    · exact h

theorem run (h : Covered app) {uses : List (Use Q)} (hclean : Meets Clean app uses) :
    Covered (app.run uses) := by
  induction uses generalizing app with
  | nil => exact h
  | cons u uses ih => exact ih (h.step u hclean.1) hclean.2

/-- Without queued commands, nothing is left to clear. -/
theorem bounded (h : Covered app) : app.Bounded := by
  intro hcmds _ id hid
  by_contra hgone
  rw [not_or, not_not, not_not] at hgone
  rcases hid with hid | hid
  · obtain ⟨cmd, hcmd, -⟩ := h.sends id hgone hid
    rw [hcmds] at hcmd
    exact List.not_mem_nil hcmd
  · obtain ⟨cmd, hcmd, -⟩ := h.reads id hgone hid
    rw [hcmds] at hcmd
    exact List.not_mem_nil hcmd

end Covered

/-- **The core's bookkeeping is bounded by the application's handles**, in every run of clean uses:
once all commands and events are processed, every fact belongs to a stream whose `SendStream` or
`RecvStream` is not dropped. -/
theorem facts_released (handle : ConnectionHandle) (c : Q.Conn) (uses : List (Use Q))
    (h : Meets Clean (start handle c) uses) : ((start handle c).run uses).Bounded :=
  ((Covered.start handle c).run h).bounded

/-- A new connection of `Mini`. -/
def miniApp : App Mini := start ⟨0, 1⟩ (MiniConn.new ⟨.v4 0, 0⟩ 0)

/-- A stream is opened, finished and acknowledged, and then both handles are dropped. -/
def ackedThenDropped : List (Use Mini) :=
  [.act (.issue (.openBi 0)), .act (.execute 0), .act (.receive 0), .act (.issue (.finish 0 1)),
    .act (.execute 0), .act (.receive 1), .act (.handleEvent (.finAck 0)), .act (.service 0),
    .act .dispatch, .dropSend 0, .act (.execute 0), .dropRecv 0]

/-- Nothing is gone before the first `RecvStream` is dropped. -/
theorem not_gone {app : App Q} (h : app.droppedRecvs = ∅) (id : StreamId) : ¬ app.Gone id := by
  intro hgone
  rw [Gone, h] at hgone
  exact Finset.notMem_empty id hgone.2

theorem facts_released_acked :
    Meets Clean miniApp ackedThenDropped ∧ (miniApp.run ackedThenDropped).sys.commands = [] ∧
      (miniApp.run ackedThenDropped).sys.events = [] ∧ (0 ∈ (miniApp.run ackedThenDropped).droppedSends ∧
        0 ∈ (miniApp.run ackedThenDropped).droppedRecvs) ∧
      (miniApp.run ackedThenDropped).Bounded := by
  have hclean : Meets Clean miniApp ackedThenDropped := by
    refine ⟨trivial, ?_, trivial, ?_, ?_, trivial, trivial, ?_, ?_, ?_, ?_, ?_, trivial⟩
    · exact fun _ _ id _ _ _ _ hgone => absurd hgone (not_gone rfl id)
    · exact Finset.notMem_empty 0
    · exact fun _ _ id _ _ _ _ hgone => absurd hgone (not_gone rfl id)
    · exact fun id hgone => absurd hgone (not_gone rfl id)
    · exact fun _ id _ _ _ _ hgone => absurd hgone (not_gone rfl id)
    · exact fun hrecv => absurd hrecv (Finset.notMem_empty 0)
    · exact fun _ _ id _ _ _ _ hgone => absurd hgone (not_gone rfl id)
    · exact fun _ => ⟨fun h => absurd h (by decide), fun h => absurd h (by decide)⟩
  exact ⟨hclean, by decide, by decide, by decide, facts_released _ _ _ hclean⟩

/-- The same, but the acknowledgement arrives after the handles are dropped. -/
def droppedThenAcked : List (Use Mini) :=
  [.act (.issue (.openBi 0)), .act (.execute 0), .act (.receive 0), .act (.issue (.finish 0 1)),
    .act (.execute 0), .act (.receive 1), .dropSend 0, .act (.execute 0), .dropRecv 0,
    .act (.handleEvent (.finAck 0)), .act (.service 0), .act .dispatch]

/-- `Mini` with peers that send nothing but the end of each stream. -/
def FinMini : Quinn :=
  { Mini with
    chunksNext := fun ch _ => (.finished, ch)
    nextChunk := fun _ _ _ _ h => absurd h (by simp)
    chunk_lt := fun _ _ _ _ h => absurd h (by simp)
    next_le := fun _ _ => le_rfl }

/-- A stream is opened and read up to its end, and then both handles are dropped. -/
def readThenDropped : List (Use FinMini) :=
  [.act (.issue (.openBi 0)), .act (.execute 0), .act (.receive 0), .act (.issue (.read 0 16 1)),
    .act (.execute 0), .act (.receive 1), .dropRecv 0, .dropSend 0, .act (.execute 0)]

/-- **Facts outlive handles**: a late acknowledgement records one of a stream without handles, and
the end an incremental read ran into stays recorded when they are dropped. -/
theorem facts_outlive_handles :
    ¬ (miniApp.run droppedThenAcked).Bounded ∧
      ¬ ((start ⟨0, 1⟩ (MiniConn.new ⟨.v4 0, 0⟩ 0) : App FinMini).run readThenDropped).Bounded := by
  constructor
  · intro h
    have := h (by decide) (by decide) 0 (.inl (by decide))
    exact absurd this (by decide)
  · intro h
    have := h (by decide) (by decide) 0 (.inr (by decide))
    exact absurd this (by decide)

end App

end QuietQuic.Tokio
