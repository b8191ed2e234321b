import QuietQuic.Proto.ConnRuns
import QuietQuic.Tokio.System

/-!
# The driver's calls on the core

The driver acts on a connection's `ConnState` through its operations and in no other way, and which
ones it may call is decided by the command or the event it serves. What is known of the operations
along any run of a `ConnState` therefore holds along every run of the system.

* `applyCmd_driven`, `onEvent_driven`: the operations behind a command and behind an event.
* `step_driven`: the operations behind one action of the system.
-/

namespace QuietQuic.Tokio

open QuietQuic.Lib QuietQuic.Proto

variable {Q : Quinn}

/-- The operations of a read pump. -/
def ReadsOf (id : StreamId) (o : ConnOp Q) : Prop :=
  (∃ len, o = .call (.streamRead id len)) ∨ o = .call (.forgetRecv id)

/-- The operations of a write pump. -/
def WritesOf (id : StreamId) (o : ConnOp Q) : Prop := ∃ buf, o = .call (.streamWrite id buf)

/-- The operations `apply_cmd` may call. -/
def Cmd.Asks : Cmd → ConnOp Q → Prop
  | .openBi _, o => o = .call .openBi
  | .acceptBi _, o => o = .call .acceptBi
  | .write id _ _, o => WritesOf id o
  | .finish id _, o => o = .call (.streamFinish id)
  | .waitFinished _ _, _ => False
  | .reset id code _, o => o = .call (.streamReset id code)
  | .stop id code _, o => o = .call (.streamStop id code)
  | .releaseSend id, o => o = .call (.forgetSend id)
  | .readToEnd id _ _, o | .read id _ _, o => ReadsOf id o
  | .close code reason, o => ∃ now, o = .call (.close now code reason)

/-- The operations the reaction to an event may call. -/
def EventAsks : Event → ConnOp Q → Prop
  | .streamOpened _ _ _, o => o = .call .acceptBi
  | .streamReadable _ id, o => ReadsOf id o
  | .streamWritable _ id, o | .streamStopped _ id _, o => WritesOf id o
  | .connected _, _ | .streamFinAcked _ _, _ | .connectionLost _ _, _ => False

/-- The operations of a servicing pass. -/
def PassAsks (o : ConnOp Q) : Prop :=
  o = .call .serviceStreams ∨ o = .call .clearDirty ∨ ∃ f, o = .drive f

/-! ## The pumps -/

theorem pumpRead_driven (core : ConnState Q) (id : StreamId) (pending : PendingRead) :
    ConnState.Driven (ReadsOf id) core (pumpRead core id pending).core := by
  have hread : ∀ {s : ConnState Q} len, ConnState.Driven (ReadsOf id) core s →
      ConnState.Driven (ReadsOf id) core (s.streamRead id len).2.2 := fun len h =>
    h.trans (.call (c := .streamRead id len) (Or.inl ⟨len, rfl⟩))
  refine loop_inv (I := fun r : ReadPump Q => ConnState.Driven (ReadsOf id) core r.core) ?_ ?_ _
    .refl
  · intro r r' hr hround
    obtain ⟨-, rfl⟩ := readPumpRound_again hround
    exact hread _ hr
  · intro r r' hr hround
    rcases (readPumpRound_done hround).core with hcore | hcore
    · rw [hcore]
      exact hread _ hr
    · rw [hcore]
      exact (hread _ hr).trans (.call (c := .forgetRecv id) (Or.inr rfl))

theorem pumpWrite_driven (core : ConnState Q) (id : StreamId) (pending : PendingWrite) :
    ConnState.Driven (WritesOf id) core (pumpWrite core id pending).core := by
  have hwrite : ∀ {s : ConnState Q} buf, ConnState.Driven (WritesOf id) core s →
      ConnState.Driven (WritesOf id) core (s.streamWrite id buf).2 := fun buf h =>
    h.trans (.call (c := .streamWrite id buf) ⟨buf, rfl⟩)
  refine loop_inv (I := fun w : WritePump Q => ConnState.Driven (WritesOf id) core w.core) ?_ ?_ _
    .refl
  · intro w w' hw hround
    obtain ⟨n, -, -, rfl⟩ := writePumpRound_again hround
    exact hwrite _ hw
  · intro w w' hw hround
    rcases (writePumpRound_done hround).1.core with hcore | hcore
    · rw [hcore]
      exact hw
    · rw [hcore]
      exact hwrite _ hw

theorem onWritable_driven (p : Parked) (core : ConnState Q) (id : StreamId) :
    ConnState.Driven (WritesOf id) core (p.onWritable core id).core := by
  unfold Parked.onWritable
  split
  · exact .refl
  · rw [Parked.offerWrite_core]
    exact pumpWrite_driven core id _

theorem acceptParked_driven (core : ConnState Q) (waiters : List Token) :
    ConnState.Driven (· = .call .acceptBi) core (Parked.acceptParked core waiters).1 := by
  induction waiters generalizing core with
  | nil => exact .refl
  | cons t rest ih =>
    have hone : ConnState.Driven (· = .call .acceptBi) core core.acceptBi.2 :=
      .call (c := .acceptBi) rfl
    unfold Parked.acceptParked
    dsimp only
    split
    · exact hone.trans (ih _)
    · exact hone
    · exact hone

/-! ## Commands, events, actions -/

/-- **The operations behind a command.** -/
theorem applyCmd_driven (p : Parked) (core : ConnState Q) (cmd : Cmd) (now : Instant) :
    ConnState.Driven cmd.Asks core (p.applyCmd core cmd now).core := by
  cases cmd with
  | openBi t => exact .call (c := .openBi) rfl
  | acceptBi t =>
    have hone : ConnState.Driven (Cmd.Asks (.acceptBi t)) core core.acceptBi.2 :=
      .call (c := .acceptBi) rfl
    simp only [Parked.applyCmd]
    split <;> exact hone
  | write id data t =>
    show ConnState.Driven _ core (p.offerWrite core id _).core
    rw [Parked.offerWrite_core]
    exact pumpWrite_driven core id _
  | finish id t => exact .call (c := .streamFinish id) rfl
  | waitFinished id t =>
    simp only [Parked.applyCmd]
    split <;> exact .refl
  | reset id code t =>
    have hone : ConnState.Driven (Cmd.Asks (.reset id code t)) core (core.streamReset id code).2 :=
      .call (c := .streamReset id code) rfl
    simp only [Parked.applyCmd]
    split <;> exact hone
  | stop id code t =>
    have hone : ConnState.Driven (Cmd.Asks (.stop id code t)) core (core.streamStop id code).2 :=
      .call (c := .streamStop id code) rfl
    simp only [Parked.applyCmd]
    split <;> exact hone
  | releaseSend id => exact .call (c := .forgetSend id) rfl
  | readToEnd id limit t =>
    show ConnState.Driven _ core (p.offerRead core id _).core
    rw [Parked.offerRead_core]
    exact pumpRead_driven core id _
  | read id len t =>
    show ConnState.Driven _ core (p.offerRead core id _).core
    rw [Parked.offerRead_core]
    exact pumpRead_driven core id _
  | close code reason => exact .call (c := .close now code reason) ⟨now, rfl⟩

/-- **The operations behind an event.** -/
theorem onEvent_driven (p : Parked) (core : ConnState Q) (e : Event) :
    ConnState.Driven (EventAsks e) core (p.onEvent core e).core := by
  cases e with
  | streamOpened ch id dir => exact acceptParked_driven core p.pendingAccepts
  | streamReadable ch id =>
    show ConnState.Driven _ core (p.onReadable core id).core
    unfold Parked.onReadable
    split
    · exact .refl
    · rw [Parked.offerRead_core]
      exact pumpRead_driven core id _
  | streamWritable ch id => exact onWritable_driven p core id
  | streamStopped ch id code => exact onWritable_driven _ core id
  | connected | streamFinAcked | connectionLost => exact .refl

theorem serviceOne_driven (now : Instant) (ch : ConnectionHandle) (core : ConnState Q) :
    ConnState.Driven PassAsks core (Core.serviceOne now ch core).1 := by
  have hdrive : (ConnOp.drive (Q := Q) fun c => (Core.drainTransmits now c).1).Lawful := fun c =>
    (Core.drainTransmits_steps now c).mono (by rintro l rfl; exact trivial)
  have hpass : ConnState.Driven PassAsks core core.serviceStreams.2 :=
    .call (c := .serviceStreams) (Or.inl rfl)
  exact (hpass.trans (.op hdrive (Or.inr (Or.inr ⟨_, rfl⟩)))).trans
    (.call (c := .clearDirty) (Or.inr (Or.inl rfl)))

namespace Sys

/-- The operations an action may call. -/
def Asks (s : Sys Q) (a : Action Q) (o : ConnOp Q) : Prop :=
  match a with
  | .execute _ => ∃ cmd rest, s.commands = cmd :: rest ∧ cmd.Asks o
  | .dispatch => ∃ e rest, s.events = e :: rest ∧ EventAsks e o
  | .service _ => PassAsks o
  | .handleEvent _ | .handleTimeout _ | .endpointEvent => ∃ f, o = .drive f
  | .issue _ | .cancel _ | .receive _ => False

/-- **The operations behind an action.** -/
theorem step_driven (s : Sys Q) (a : Action Q) :
    ConnState.Driven (s.Asks a) s.core (s.step a).core := by
  have hone : ∀ {f : Q.Conn → Q.Conn} {P : ConnOp Q → Prop}, (ConnOp.drive f).Lawful →
      P (.drive f) → ConnState.Driven P s.core (s.withConn (f s.core.conn)).core :=
    fun hlawful hP => .op hlawful hP
  cases a with
  | issue cmd =>
    simp only [step]
    split
    · exact .refl
    · split <;> exact .refl
  | cancel t => exact .refl
  | receive t =>
    simp only [step]
    split
    · split <;> exact .refl
    · exact .refl
  | execute now =>
    simp only [step]
    split
    · exact .refl
    · rename_i cmd rest hcmds
      exact (applyCmd_driven s.parked s.core cmd now).mono fun o ho => ⟨cmd, rest, hcmds, ho⟩
  | dispatch =>
    simp only [step]
    split
    · exact .refl
    · rename_i e rest hevents
      exact (onEvent_driven s.parked s.core e).mono fun o ho => ⟨e, rest, hevents, ho⟩
  | service now =>
    simp only [step]
    split
    · exact serviceOne_driven now s.handle s.core
    · exact .refl
  | handleEvent ev => exact hone (ConnOp.lawful_handleEvent ev) ⟨_, rfl⟩
  | handleTimeout now =>
    exact hone (f := fun c => Q.handleTimeout c now)
      (fun c => .single (l := .handleTimeout now) trivial (.handleTimeout c now)) ⟨_, rfl⟩
  | endpointEvent =>
    exact hone (f := fun c => (Q.pollEndpointEvents c).2)
      (fun c => .single (l := .endpointEvent _) trivial (.endpointEvent c)) ⟨_, rfl⟩

/-- What every operation keeps holds of the core after any run. -/
theorem core_run_keeps {I : ConnState Q → Prop}
    (hop : ∀ o s, o.Lawful → I s → I (s.op o).2) (actions : List (Action Q)) {s : Sys Q}
    (h : I s.core) : I (s.run actions).core :=
  run_keeps (I := fun s => I s.core)
    (fun s a hs => (s.step_driven a).keeps (fun o c ho _ hc => hop o c ho hc) hs) actions h

end Sys

end QuietQuic.Tokio
