import QuietQuic.Proto.Terminal
import QuietQuic.Tokio.Calls

/-!
# Send halves that end

A parked write is woken by `Writable`, a parked finish waiter by the terminal fact of its stream.
The terminal fact of a send half arrives as an acknowledged FIN, as the peer's stop, or as a local
reset. `Reset` fails the parked write and the waiters of its stream; `on_stopped` fails the waiters
and offers the write once more; `on_fin_acked` answers the waiters and does not look at the write.
Another handle may have finished the stream while the write was parked, and no `Writable` follows
a finish: that write stays parked.

* `SendOver`: the send half is over, in quinn-proto and in the core's own record, which then never
  says `Queued` again.
* `sends_settled`: from a terminal fact on, nothing of the stream is parked, as long as an
  acknowledged FIN finds no parked write, a stop that finds one finds credit too, and no later
  write is starved.
-/

namespace QuietQuic.Tokio

open QuietQuic.Lib QuietQuic.Proto

variable {Q : Quinn} {S : Q.SendHalf} {id : StreamId}

/-! ## The send half is over -/

/-- The send half of a stream is over, and nobody can wait for it any more. -/
structure SendOver (S : Q.SendHalf) (core : ConnState Q) (id : StreamId) : Prop where
  ended : S.ended core.conn id
  notQueued : core.sendFins.lookup id ≠ some .queued

theorem ended_steps {P : Q.ConnLabel → Prop} {c c' : Q.Conn} (h : Q.ConnSteps P c c')
    (hc : S.ended c id) : S.ended c' id :=
  h.keeps (I := fun c => S.ended c id) (fun _ hstep hc => S.stays hstep hc) hc

namespace SendOver

variable {core : ConnState Q}

/-- Calls that do not touch the record. -/
theorem frame (h : SendOver S core id) {P : Q.ConnLabel → Prop} {core' : ConnState Q}
    (hsteps : Q.ConnSteps P core.conn core'.conn) (hfins : core'.sendFins = core.sendFins) :
    SendOver S core' id :=
  ⟨ended_steps hsteps h.ended, by rw [hfins]; exact h.notQueued⟩

/-- A terminal fact goes into the record, for this stream or another one. -/
theorem record_notQueued {a : StreamId} {fact : SendFin} (hfact : fact ≠ .queued)
    (h : id = a ∨ core.sendFins.lookup id ≠ some .queued) :
    (core.recordSendFin a fact).2.sendFins.lookup id ≠ some .queued := by
  have hinsert : (core.sendFins.insert a fact).lookup id ≠ some .queued := by
    rw [AMap.lookup_insert_eq]
    split
    · exact fun heq => hfact (Option.some.inj heq)
    · rename_i hne
      exact h.resolve_left hne
  have hterminal : ∀ {old}, old ≠ .queued → core.sendFins.lookup a = some old →
      core.sendFins.lookup id ≠ some .queued := by
    rintro old hold hlook
    rcases h with rfl | h
    · rw [hlook]
      exact fun heq => hold (Option.some.inj heq)
    · exact h
  unfold ConnState.recordSendFin
  split
  · rename_i hlook
    exact hterminal (by simp) hlook
  · rename_i hlook
    exact hterminal (by simp) hlook
  · exact hinsert
  · exact hinsert

theorem record (h : SendOver S core id) (a : StreamId) {fact : SendFin} (hfact : fact ≠ .queued) :
    SendOver S (core.recordSendFin a fact).2 id :=
  ⟨by rw [ConnState.recordSendFin_conn]; exact h.ended, record_notQueued hfact (Or.inr h.notQueued)⟩

theorem of_record {fact : SendFin} (hended : S.ended core.conn id) (hfact : fact ≠ .queued) :
    SendOver S (core.recordSendFin id fact).2 id :=
  ⟨by rw [ConnState.recordSendFin_conn]; exact hended, record_notQueued hfact (Or.inl rfl)⟩

/-- A stream that is over is not finished again. -/
theorem finish (h : SendOver S core id) (a : StreamId) :
    SendOver S (core.streamFinish a).2 id := by
  unfold ConnState.streamFinish
  split
  · exact h
  · exact h
  · exact h
  · have hconn : S.ended (Q.sendFinish core.conn a).2 id := S.stays (.finish core.conn a) h.ended
    dsimp only
    split
    · rename_i hok
      refine ⟨hconn, ?_⟩
      have hne : id ≠ a := by
        rintro rfl
        exact S.finish h.ended hok
      rw [AList.lookup_insert_ne hne]
      exact h.notQueued
    · have hcall : SendOver S { core with dirty := true, conn := (Q.sendFinish core.conn a).2 } id :=
        ⟨hconn, h.notQueued⟩
      exact hcall.record a (by simp)
    · exact ⟨hconn, h.notQueued⟩

theorem forget (h : SendOver S core id) (a : StreamId) : SendOver S (core.forgetSend a) id := by
  refine ⟨h.ended, ?_⟩
  show (core.sendFins.erase a).lookup id ≠ some .queued
  rw [AMap.lookup_erase_eq]
  split
  · simp
  · exact h.notQueued

theorem reset (h : SendOver S core id) (a : StreamId) (code : Nat) :
    SendOver S (core.streamReset a code).2 id := by
  have hended := ended_steps (core.streamReset_steps a code) h.ended
  unfold ConnState.streamReset at hended ⊢
  split
  · exact h
  · rename_i code' hcode
    simp only [hcode] at hended
    exact ⟨hended, (h.forget a).notQueued⟩

end SendOver

/-! ## What a pass reports -/

/-- What `service_streams` has reported so far is over. -/
structure Reported (S : Q.SendHalf) (p : ConnState Q × ConnProgress) : Prop where
  acked : ∀ a ∈ p.2.finAcked, SendOver S p.1 a
  stopped : ∀ x ∈ p.2.stopped, SendOver S p.1 x.1

theorem Reported.mono {p p' : ConnState Q × ConnProgress} (h : Reported S p)
    (hkeep : ∀ a, SendOver S p.1 a → SendOver S p'.1 a) (hacked : p'.2.finAcked = p.2.finAcked)
    (hstopped : p'.2.stopped = p.2.stopped) : Reported S p' :=
  ⟨fun a ha => hkeep a (h.acked a (hacked ▸ ha)), fun x hx => hkeep x.1 (h.stopped x (hstopped ▸ hx))⟩

/-- The accept loop of a pass keeps what is over, and reports nothing. -/
theorem acceptLoop_over {p : ConnState Q × ConnProgress} (hrep : Reported S p) :
    (∀ a, SendOver S p.1 a → SendOver S (ConnState.acceptLoop p).1 a) ∧
      Reported S (ConnState.acceptLoop p) := by
  refine ConnState.acceptLoop_inv
    (I := fun p' => (∀ a, SendOver S p.1 a → SendOver S p'.1 a) ∧ Reported S p') ?_ ?_
    ⟨fun _ h => h, hrep⟩
  · rintro u pr id c ⟨hkeep, hrep⟩ hacc
    have hstep : Q.ConnStep u.conn (.acceptBi (some id)) c := by
      simpa [hacc] using Quinn.ConnStep.acceptBi u.conn
    have hover : ∀ a, SendOver S u a → SendOver S
        { u with conn := c, readyAccepts := u.readyAccepts ++ [id] } a := fun a h =>
      ⟨S.stays hstep h.ended, h.notQueued⟩
    exact ⟨fun a h => hover a (hkeep a h), hrep.mono hover rfl rfl⟩
  · rintro u pr c ⟨hkeep, hrep⟩ hacc
    have hstep : Q.ConnStep u.conn (.acceptBi none) c := by
      simpa [hacc] using Quinn.ConnStep.acceptBi u.conn
    have hover : ∀ a, SendOver S u a → SendOver S { u with conn := c } a := fun a h =>
      ⟨S.stays hstep h.ended, h.notQueued⟩
    exact ⟨fun a h => hover a (hkeep a h), hrep.mono hover rfl rfl⟩

/-- So does the reaction to a polled event, whose own stream is over if it says so. -/
theorem onPolled_over {ev : QuinnEvent} {p : ConnState Q × ConnProgress} (hrep : Reported S p)
    (hacked : ∀ id, ev = .stream (.finished id) → S.ended p.1.conn id)
    (hstopped : ∀ id code, ev = .stream (.stopped id code) → S.ended p.1.conn id) :
    (∀ a, SendOver S p.1 a → SendOver S (ConnState.onPolled ev p).1 a) ∧
      Reported S (ConnState.onPolled ev p) := by
  unfold ConnState.onPolled
  split
  case h_3 => exact acceptLoop_over hrep
  case h_6 id =>
    have hover : ∀ a, SendOver S p.1 a → SendOver S (p.1.recordSendFin id .acked).2 a :=
      fun a h => h.record id (by simp)
    refine ⟨hover, ?_⟩
    dsimp only
    split
    · refine ⟨fun a ha => ?_, fun x hx => hover _ (hrep.stopped x hx)⟩
      rcases List.mem_append.mp ha with ha | ha
      · exact hover a (hrep.acked a ha)
      · rw [List.mem_singleton.mp ha]
        exact .of_record (hacked id rfl) (by simp)
    · exact hrep.mono hover rfl rfl
  case h_7 id code =>
    have hover : ∀ a, SendOver S p.1 a → SendOver S (p.1.recordSendFin id (.stopped code)).2 a :=
      fun a h => h.record id (by simp)
    refine ⟨hover, ?_⟩
    dsimp only
    split
    · refine ⟨fun a ha => hover a (hrep.acked a ha), fun x hx => ?_⟩
      rcases List.mem_append.mp hx with hx | hx
      · exact hover _ (hrep.stopped x hx)
      · rw [List.mem_singleton.mp hx]
        exact .of_record (hstopped id code rfl) (by simp)
    · exact hrep.mono hover rfl rfl
  all_goals exact ⟨fun _ h => h, hrep.mono (fun _ h => h) rfl rfl⟩

/-- One pass keeps what is over, and reports only what is. -/
theorem serviceStreams_over (core : ConnState Q) :
    (∀ a, SendOver S core a → SendOver S core.serviceStreams.2 a) ∧
      Reported S (core.serviceStreams.2, core.serviceStreams.1) := by
  refine ConnState.serviceStreams_inv
    (I := fun p => (∀ a, SendOver S core a → SendOver S p.1 a) ∧ Reported S p) ?_ ?_
    ⟨fun _ h => h, ⟨by simp, by simp⟩⟩
  · rintro t pr ev c ⟨hkeep, hrep⟩ hpoll
    have hstep : Q.ConnStep t.conn (.poll (some ev)) c := by
      simpa [hpoll] using Quinn.ConnStep.poll t.conn
    have hpolled : ∀ a, SendOver S t a → SendOver S { t with conn := c } a := fun a h =>
      ⟨S.stays hstep h.ended, h.notQueued⟩
    have hrep' : Reported S ({ t with conn := c }, pr) := hrep.mono hpolled rfl rfl
    have hacked : ∀ id, ev = .stream (.finished id) → S.ended c id := by
      rintro id rfl
      exact S.acked hpoll
    have hstopped : ∀ id code, ev = .stream (.stopped id code) → S.ended c id := by
      rintro id code rfl
      exact S.stopped hpoll
    obtain ⟨hover, hrep''⟩ := onPolled_over hrep' hacked hstopped
    exact ⟨fun a h => hover a (hpolled a (hkeep a h)), hrep''⟩
  · rintro t pr c ⟨hkeep, hrep⟩ hpoll
    have hstep : Q.ConnStep t.conn (.poll none) c := by
      simpa [hpoll] using Quinn.ConnStep.poll t.conn
    have hpolled : ∀ a, SendOver S t a → SendOver S { t with conn := c } a := fun a h =>
      ⟨S.stays hstep h.ended, h.notQueued⟩
    exact ⟨fun a h => hpolled a (hkeep a h), hrep.mono hpolled rfl rfl⟩

/-- The terminal facts of a stream's send half, as events. -/
def IsTerminal (id : StreamId) : Event → Prop
  | .streamFinAcked _ a | .streamStopped _ a _ => a = id
  | _ => False

/-- The terminal facts a pass queues are ones. -/
theorem serviceOne_over (now : Instant) (ch : ConnectionHandle) (core : ConnState Q) {e : Event}
    (he : e ∈ (Core.serviceOne now ch core).2.events) {a : StreamId} (hterm : IsTerminal a e) :
    SendOver S (Core.serviceOne now ch core).1 a := by
  obtain ⟨-, hrep⟩ := serviceStreams_over (S := S) core
  have hover : ∀ a, SendOver S core.serviceStreams.2 a →
      SendOver S (Core.serviceOne now ch core).1 a := fun a h =>
    h.frame (Core.drainTransmits_steps now core.serviceStreams.2.conn) rfl
  simp only [Core.serviceOne, Core.progressEvents, List.mem_append, List.mem_map] at he
  rcases he with ((((he | ⟨_, _, rfl⟩) | ⟨_, _, rfl⟩) | ⟨_, _, rfl⟩) | ⟨b, hb, rfl⟩) | ⟨x, hx, rfl⟩
  · split at he
    · rw [List.mem_singleton.mp he] at hterm
      exact absurd hterm (by simp [IsTerminal])
    · exact absurd he List.not_mem_nil
  · exact absurd hterm (by simp [IsTerminal])
  · exact absurd hterm (by simp [IsTerminal])
  · exact absurd hterm (by simp [IsTerminal])
  · obtain rfl : b = a := hterm
    exact hover b (hrep.acked b hb)
  · obtain rfl : x.1 = a := hterm
    exact hover x.1 (hrep.stopped x hx)

/-! ## What the driver's operations do to a stream that is over -/

section Driver

variable {core : ConnState Q}

/-- **No operation brings a send half back.** -/
theorem SendOver.op (h : SendOver S core id) {o : ConnOp Q} (ho : o.Lawful) :
    SendOver S (core.op o).2 id := by
  -- most operations do not touch the record
  have hother : ¬ ConnState.Drops id o → o ≠ .call .serviceStreams →
      o ≠ .call (.streamFinish id) → SendOver S (core.op o).2 id := by
    intro hdrop hpass hfinish
    refine ⟨ended_steps (core.op_steps ho) h.ended, fun hqueued => h.notQueued ?_⟩
    exact (ConnState.op_sendFin hdrop hpass hfinish).symm.trans hqueued
  cases o with
  | drive f => exact hother (fun h => h) (by simp) (by simp)
  | call c =>
    cases c with
    | serviceStreams => exact (serviceStreams_over core).1 id h
    | streamFinish a => exact h.finish a
    | streamReset a code => exact h.reset a code
    | forgetSend a => exact h.forget a
    | forgetStream a => exact ⟨h.ended, (h.forget a).notQueued⟩
    | _ => exact hother (fun h => h) (by simp) (by simp)

/-- Nor do any number of them. -/
theorem SendOver.driven (h : SendOver S core id) {P : ConnOp Q → Prop} {core' : ConnState Q}
    (hdriven : ConnState.Driven P core core') : SendOver S core' id :=
  hdriven.keeps (I := fun core => SendOver S core id) (fun _ _ ho _ hs => hs.op ho) h

/-- Nothing of the stream's send half is parked. -/
structure NoneParked (p : Parked) (id : StreamId) : Prop where
  writes : p.blockedWrites.lookup id = none
  waiters : p.finWaiters.lookup id = none

theorem offerWrite_writes {p : Parked} {a : StreamId} (hne : a ≠ id) (pending : PendingWrite) :
    (p.offerWrite core a pending).parked.blockedWrites.lookup id = p.blockedWrites.lookup id := by
  unfold Parked.offerWrite
  dsimp only
  split
  · rfl
  · exact AList.lookup_insert_ne hne.symm

theorem NoneParked.offerRead {p : Parked} (hp : NoneParked p id) (a : StreamId)
    (pending : PendingRead) : NoneParked (p.offerRead core a pending).parked id := by
  obtain ⟨hwrites, hwaiters⟩ := p.offerRead_parked core a pending
  exact ⟨by rw [hwrites]; exact hp.writes, by rw [hwaiters]; exact hp.waiters⟩

/-- A write of a stream that is over is answered at once, unless it is starved. -/
theorem offerWrite_over (h : SendOver S core id) (p : Parked) {pending : PendingWrite}
    (hstarved : pending.data.drop pending.offset ≠ [] → ¬ S.starved core.conn id) :
    (p.offerWrite core id pending).parked = p := by
  have hreply : (pumpWrite core id pending).reply ≠ none :=
    pumpWrite_refused fun hne => S.write h.ended (hstarved hne) hne
  unfold Parked.offerWrite
  dsimp only
  split
  · rfl
  · rename_i hnone
    exact absurd hnone hreply

/-- A command parks nothing at a stream that is over. -/
theorem NoneParked.applyCmd {p : Parked} (hp : NoneParked p id) (h : SendOver S core id)
    {cmd : Cmd} (now : Instant)
    (hstarved : ∀ data t, cmd = .write id data t → data ≠ [] → ¬ S.starved core.conn id) :
    NoneParked (p.applyCmd core cmd now).parked id := by
  cases cmd with
  | openBi t => exact hp
  | acceptBi t =>
    simp only [Parked.applyCmd]
    split <;> exact ⟨hp.writes, hp.waiters⟩
  | write a data t =>
    by_cases ha : a = id
    · subst ha
      have hsame : (p.offerWrite core a { data, offset := 0, reply := t }).parked = p :=
        offerWrite_over h p fun hne => hstarved data t rfl hne
      show NoneParked (p.offerWrite core a { data, offset := 0, reply := t }).parked a
      rw [hsame]
      exact hp
    · refine ⟨(offerWrite_writes ha _).trans hp.writes, ?_⟩
      show (p.offerWrite core a _).parked.finWaiters.lookup id = none
      rw [(p.offerWrite_parked core a _).2]
      exact hp.waiters
  | finish a t => exact hp
  | waitFinished a t =>
    simp only [Parked.applyCmd]
    split
    case h_3 hqueued =>
      have hne : id ≠ a := by
        rintro rfl
        exact h.notQueued hqueued
      exact ⟨hp.writes, (AList.lookup_insert_ne hne).trans hp.waiters⟩
    all_goals exact hp
  | reset a code t =>
    simp only [Parked.applyCmd]
    split
    · refine ⟨?_, ?_⟩
      · show (p.blockedWrites.erase a).lookup id = none
        rw [AMap.lookup_erase_eq, hp.writes, ite_self]
      · show (p.finWaiters.erase a).lookup id = none
        rw [AMap.lookup_erase_eq, hp.waiters, ite_self]
    · exact hp
  | stop a code t =>
    simp only [Parked.applyCmd]
    split <;> exact ⟨hp.writes, hp.waiters⟩
  | releaseSend a => exact hp
  | readToEnd a limit t => exact hp.offerRead a _
  | read a len t => exact hp.offerRead a _
  | close code reason => exact hp

theorem NoneParked.onWritable {p : Parked} (hp : NoneParked p id) (a : StreamId) :
    NoneParked (p.onWritable core a).parked id := by
  unfold Parked.onWritable
  split
  · exact hp
  · rename_i pending hpending
    have ha : a ≠ id := by
      rintro rfl
      exact absurd hp.writes (by simp [hpending])
    refine ⟨?_, ?_⟩
    · rw [offerWrite_writes ha]
      exact (AList.lookup_erase_ne ha.symm).trans hp.writes
    · rw [(Parked.offerWrite_parked _ core a pending).2]
      exact hp.waiters

theorem NoneParked.onEvent {p : Parked} (hp : NoneParked p id) (e : Event) :
    NoneParked (p.onEvent core e).parked id := by
  have hwaiters : ∀ a, NoneParked { p with finWaiters := p.finWaiters.erase a } id := fun a =>
    ⟨hp.writes, by
      show (p.finWaiters.erase a).lookup id = none
      rw [AMap.lookup_erase_eq, hp.waiters, ite_self]⟩
  cases e with
  | connected ch => exact hp
  | connectionLost ch reason => exact hp
  | streamOpened ch a dir => exact ⟨hp.writes, hp.waiters⟩
  | streamReadable ch a =>
    show NoneParked (p.onReadable core a).parked id
    unfold Parked.onReadable
    split
    · exact hp
    · have hp' : NoneParked { p with pendingReads := p.pendingReads.erase a } id :=
        ⟨hp.writes, hp.waiters⟩
      exact hp'.offerRead a _
  | streamWritable ch a => exact hp.onWritable a
  | streamFinAcked ch a => exact hwaiters a
  | streamStopped ch a code => exact (hwaiters a).onWritable a

/-! ## The terminal facts -/

/-- An acknowledged FIN answers the waiters, and leaves a parked write where it is. -/
theorem onFinAcked_parked (core : ConnState Q) (p : Parked) (ch : ConnectionHandle) (id : StreamId)
    (hwrites : p.blockedWrites.lookup id = none) :
    NoneParked (p.onEvent core (.streamFinAcked ch id)).parked id :=
  ⟨hwrites, AList.lookup_erase id _⟩

/-- The peer's stop fails the waiters and offers a parked write once more. -/
theorem onStopped_parked (h : SendOver S core id) (p : Parked) (ch : ConnectionHandle) (code : Nat)
    (hstarved : p.blockedWrites.lookup id ≠ none → ¬ S.starved core.conn id) :
    NoneParked (p.onEvent core (.streamStopped ch id code)).parked id := by
  show NoneParked (Parked.onWritable { p with finWaiters := p.finWaiters.erase id } core id).parked id
  unfold Parked.onWritable
  split
  · rename_i hnone
    exact ⟨hnone, AList.lookup_erase id _⟩
  · rename_i pending hpending
    rw [offerWrite_over h _ fun _ => hstarved (by rw [show _ = some pending from hpending]; simp)]
    exact ⟨AList.lookup_erase id _, AList.lookup_erase id _⟩

/-- A reset that succeeds ends the send half, and fails what was parked. -/
theorem reset_parked {code : Nat} (hok : (core.streamReset id code).1 = .ok ()) (p : Parked)
    (t : Token) (now : Instant) :
    SendOver S (p.applyCmd core (.reset id code t) now).core id ∧
      NoneParked (p.applyCmd core (.reset id code t) now).parked id := by
  have hover : SendOver S (core.streamReset id code).2 id := by
    unfold ConnState.streamReset at hok ⊢
    split at hok
    · exact absurd hok (by simp)
    · dsimp only at hok ⊢
      split at hok
      · rename_i hreset
        exact ⟨S.reset (Prod.ext hreset rfl), by simp⟩
      · exact absurd hok (by simp)
  simp only [Parked.applyCmd, hok]
  exact ⟨hover, AList.lookup_erase id _, AList.lookup_erase id _⟩

end Driver

/-! ## Whole runs -/

namespace Sys

/-- The action is the end of a stream's send half: its terminal fact is dispatched, or a reset of
it succeeds. -/
def Ends (s : Sys Q) (id : StreamId) : Action Q → Prop
  | .dispatch => (∃ ch rest, s.events = .streamFinAcked ch id :: rest) ∨
      ∃ ch code rest, s.events = .streamStopped ch id code :: rest
  | .execute _ => ∃ code t rest, s.commands = .reset id code t :: rest ∧
      (s.core.streamReset id code).1 = .ok ()
  | _ => False

/-- **The condition.** An acknowledged FIN finds no write of its stream parked, a stop that finds
one finds it not starved, and a write that is applied after the end is not starved. -/
def SendsSettle (S : Q.SendHalf) (id : StreamId) (s : Sys Q) : Action Q → Prop
  | .dispatch =>
      (∀ ch rest, s.events = .streamFinAcked ch id :: rest →
        s.parked.blockedWrites.lookup id = none) ∧
      ∀ ch code rest, s.events = .streamStopped ch id code :: rest →
        s.parked.blockedWrites.lookup id ≠ none → ¬ S.starved s.core.conn id
  | .execute _ => ∀ data t rest, s.commands = .write id data t :: rest → data ≠ [] →
      ¬ S.starved s.core.conn id
  | _ => True

/-- Every terminal fact that is queued is one. -/
def Announced (S : Q.SendHalf) (id : StreamId) (s : Sys Q) : Prop :=
  ∀ e ∈ s.events, IsTerminal id e → SendOver S s.core id

/-- The stream's send half is over, and nothing of it is parked. -/
structure Settled (S : Q.SendHalf) (id : StreamId) (s : Sys Q) : Prop where
  ended : SendOver S s.core id
  empty : NoneParked s.parked id

variable {s : Sys Q}

/-- No action brings a send half back. -/
theorem Taken.over {s' : Sys Q} {a : Action Q} (htaken : Taken s a s')
    (h : SendOver S s.core id) : SendOver S s'.core id := by
  cases htaken with
  | executed now => exact h.driven (applyCmd_driven s.parked s.core _ now)
  | dispatched => exact h.driven (onEvent_driven s.parked s.core _)
  | serviced now => exact h.driven (serviceOne_driven now s.handle s.core)
  | called hstep => exact ⟨S.stays hstep h.ended, h.notQueued⟩
  | _ => exact h

/-- A terminal fact is queued when it has become one. -/
theorem Taken.announced {s' : Sys Q} {a : Action Q} (htaken : Taken s a s')
    (h : s.Announced S id) : s'.Announced S id := by
  intro e he hterm
  have hold : e ∈ s.events → SendOver S s'.core id := fun he => htaken.over (h e he hterm)
  cases htaken with
  | dispatched hevents =>
    refine hold ?_
    rw [hevents]
    exact List.mem_cons_of_mem _ he
  | serviced now =>
    rcases List.mem_append.mp he with he | he
    · exact hold he
    · exact serviceOne_over now s.handle s.core he hterm
  | _ => exact hold he

/-- **The end of a send half** leaves nothing of it parked. -/
theorem Announced.ends (h : s.Announced S id) {a : Action Q} (hends : s.Ends id a)
    (hcond : s.SendsSettle S id a) : (s.step a).Settled S id := by
  cases a with
  | dispatch =>
    rcases hends with ⟨ch, rest, hevents⟩ | ⟨ch, code, rest, hevents⟩
    · have hover := h (.streamFinAcked ch id) (by rw [hevents]; exact List.mem_cons_self) rfl
      refine ⟨(taken s .dispatch).over hover, ?_⟩
      simp only [Sys.step, hevents]
      exact onFinAcked_parked s.core s.parked ch id (hcond.1 ch rest hevents)
    · have hover := h (.streamStopped ch id code) (by rw [hevents]; exact List.mem_cons_self) rfl
      refine ⟨(taken s .dispatch).over hover, ?_⟩
      simp only [Sys.step, hevents]
      exact onStopped_parked hover s.parked ch code (hcond.2 ch code rest hevents)
  | execute now =>
    obtain ⟨code, t, rest, hcmds, hok⟩ := hends
    obtain ⟨hover, hnone⟩ := reset_parked (S := S) hok s.parked t now
    simp only [Sys.step, hcmds]
    exact ⟨hover, hnone⟩
  | _ => exact absurd hends (by simp [Ends])

/-- **Once settled, settled.** -/
theorem Taken.settled {s' : Sys Q} {a : Action Q} (htaken : Taken s a s') (h : s.Settled S id)
    (hcond : s.SendsSettle S id a) : s'.Settled S id := by
  refine ⟨htaken.over h.ended, ?_⟩
  cases htaken with
  | @executed cmd rest now hcmds =>
    refine h.empty.applyCmd h.ended now fun data t hcmd => ?_
    subst hcmd
    exact hcond data t rest hcmds
  | dispatched => exact h.empty.onEvent _
  | _ => exact h.empty

/-- What is parked at a slot when a send half ends is answered, or still parked. -/
theorem Ends.answers {a : Action Q} (hends : s.Ends id a) {σ : Slot} {t : Token}
    (ht : t ∈ s.parked.tokens σ) :
    t ∈ (s.step a).sent.map Prod.fst ∨ t ∈ (s.step a).parked.tokens σ := by
  have hrel : ∀ {o : Outcome Q} {sent own : List (Token × Reply)}, o.sent = sent ++ own →
      Releases s.parked o.parked sent →
      t ∈ (s.sent ++ o.sent).map Prod.fst ∨ t ∈ o.parked.tokens σ := by
    intro o sent own hsent hrel
    rcases hrel.mem ht with hmem | hmem
    · refine Or.inl ?_
      rw [hsent, List.map_append, List.map_append]
      exact List.mem_append_right _ (List.mem_append_left _ hmem)
    · exact Or.inr hmem
  cases a with
  | dispatch =>
    obtain ⟨e, rest, hevents⟩ : ∃ e rest, s.events = e :: rest := by
      rcases hends with ⟨ch, rest, h⟩ | ⟨ch, code, rest, h⟩ <;> exact ⟨_, rest, h⟩
    simp only [Sys.step, hevents]
    exact hrel (List.append_nil _).symm (onEvent_releases s.parked s.core e)
  | execute now =>
    obtain ⟨code, u, rest, hcmds, -⟩ := hends
    simp only [Sys.step, hcmds]
    rcases applyCmd_moves s.parked s.core (.reset id code u) now with
      ⟨sent, own, hsent, hreleases, -⟩ | ⟨-, τ, v, hslot, -⟩
    · exact hrel hsent hreleases
    · exact absurd hslot (by simp [Cmd.slot])
  | _ => exact absurd hends (by simp [Ends])

/-- An awaited channel that has left the queue, and is not parked at its slot, was used. -/
theorem Sound.used (hs : s.Sound) {σ : Slot} {t : Token} (ht : t ∈ s.waiting)
    (hslot : s.slotOf t = some σ) (hqueue : t ∉ s.commands.filterMap Cmd.reply)
    (hparked : t ∉ s.parked.tokens σ) : t ∈ s.sent.map Prod.fst := by
  have hone := (hs.covered t ht).2
  rw [Sys.places, List.count_eq_zero.mpr hqueue, held, hslot] at hone
  dsimp only at hone
  rw [List.count_eq_zero.mpr hparked] at hone
  exact List.count_pos_iff.mp (by omega)

/-- **No send-half operation stays parked past the end of its stream, unless it was parked when
the FIN was acknowledged or is starved.** In every run in which the stream's send half ends, and
from there on every action meets the condition: neither `blocked_writes` nor `fin_waiters` holds an
entry for the stream, every write and every waiter that was parked when the end came has been
answered, and so has every one that is awaited and has left the command queue. -/
theorem sends_settled (S : Q.SendHalf) (handle : ConnectionHandle) (core : ConnState Q)
    (id : StreamId) (before : List (Action Q)) (a : Action Q) (after : List (Action Q))
    (hends : ((start handle core).run before).Ends id a)
    (hcond : Meets (SendsSettle S id) ((start handle core).run before) (a :: after)) :
    let s := (start handle core).run (before ++ a :: after)
    s.parked.blockedWrites.lookup id = none ∧ s.parked.finWaiters.lookup id = none ∧
    (∀ σ, σ = .write id ∨ σ = .fin id →
      (∀ t ∈ ((start handle core).run before).parked.tokens σ, t ∈ s.sent.map Prod.fst) ∧
      ∀ t ∈ s.waiting, s.slotOf t = some σ → t ∉ s.commands.filterMap Cmd.reply →
        t ∈ s.sent.map Prod.fst) := by
  intro s
  let s₀ := (start handle core).run before
  have hrun : s = (s₀.step a).run after := List.foldl_append ..
  have hannounced : s₀.Announced S id := run_keeps (fun s b h => (taken s b).announced h) _
    (by simp [Announced, start])
  have hsound : s.Sound := run_keeps (fun s b h => h.step b) _ (.start handle core)
  have hend : (s₀.step a).Settled S id := hannounced.ends hends hcond.1
  have hsettled : s.Settled S id := by
    rw [hrun]
    exact run_inv (I := Settled S id) (fun s b hP h => (taken s b).settled h hP) hcond.2 hend
  have hempty : ∀ {p : Parked} {σ : Slot}, NoneParked p id → σ = .write id ∨ σ = .fin id →
      p.tokens σ = [] := by
    rintro p σ hp (rfl | rfl)
    · simp [Parked.tokens, hp.writes]
    · simp [Parked.tokens, hp.waiters]
  refine ⟨hsettled.empty.writes, hsettled.empty.waiters, fun σ hσ => ⟨fun t ht => ?_, ?_⟩⟩
  · have hsent : t ∈ (s₀.step a).sent.map Prod.fst := by
      refine (Ends.answers hends ht).resolve_right ?_
      rw [hempty hend.empty hσ]
      exact List.not_mem_nil
    rw [hrun]
    refine run_keeps (I := fun s => t ∈ s.sent.map Prod.fst) ?_ after hsent
    intro s b ht
    obtain ⟨x, hx, rfl⟩ := List.mem_map.mp ht
    exact List.mem_map_of_mem ((taken s b).mem_sent hx)
  · intro t ht hslot hqueue
    refine hsound.used ht hslot hqueue ?_
    rw [hempty hsettled.empty hσ]
    exact List.not_mem_nil

/-- Stream 0 is finished, a waiter is parked, and the FIN is acknowledged. -/
def finishThenAck : List (Action Mini) :=
  [.issue (.finish 0 0), .execute 0, .issue (.waitFinished 0 1), .execute 0,
    .handleEvent (.finAck 0), .service 0]

theorem sends_settled_waiter :
    (miniStart.run finishThenAck).Ends 0 .dispatch ∧
      Meets (SendsSettle Mini.sendHalf 0) (miniStart.run finishThenAck) [.dispatch, .receive 1] ∧
      1 ∈ (miniStart.run finishThenAck).parked.tokens (.fin 0) ∧
      1 ∈ (miniStart.run (finishThenAck ++ [.dispatch, .receive 1])).sent.map Prod.fst := by
  have hends : (miniStart.run finishThenAck).Ends 0 .dispatch :=
    Or.inl ⟨⟨0, 1⟩, [], by decide⟩
  have hnone : (miniStart.run finishThenAck).parked.blockedWrites.lookup 0 = none := by decide
  have hcond : Meets (SendsSettle Mini.sendHalf 0) (miniStart.run finishThenAck)
      [.dispatch, .receive 1] :=
    ⟨⟨fun _ _ _ => hnone, fun _ _ _ _ hparked => absurd hnone hparked⟩, trivial, trivial⟩
  have hwaiter : 1 ∈ (miniStart.run finishThenAck).parked.tokens (.fin 0) := by decide
  obtain ⟨-, -, hanswered⟩ := sends_settled Mini.sendHalf ⟨0, 1⟩ _ 0 finishThenAck .dispatch
    [.receive 1] hends hcond
  exact ⟨hends, hcond, hwaiter, (hanswered (.fin 0) (Or.inr rfl)).1 1 hwaiter⟩

/-- A write of stream 0 is parked for lack of credit, another handle finishes the stream, and the
FIN is acknowledged. -/
def parkThenFinish : List (Action Mini) :=
  [.issue (.write 0 [1] 0), .execute 0, .issue (.finish 0 1), .execute 0,
    .handleEvent (.finAck 0), .service 0]

/-- **A parked write outlives its stream.** After `StreamFinAcked` is dispatched the write is still
parked, awaited and not answered. -/
theorem write_parked_past_fin :
    (miniStart.run parkThenFinish).events = [.streamFinAcked ⟨0, 1⟩ 0] ∧
    ((miniStart.run parkThenFinish).step .dispatch).parked.blockedWrites.lookup 0 ≠ none ∧
    0 ∈ ((miniStart.run parkThenFinish).step .dispatch).waiting ∧
    0 ∉ ((miniStart.run parkThenFinish).step .dispatch).sent.map Prod.fst := by
  decide

end Sys

end QuietQuic.Tokio
