import QuietQuic.Proto.Actionable
import QuietQuic.Proto.Deadlines
import QuietQuic.Proto.Provenance
import QuietQuic.Tokio.Calls

/-!
# The loop of the drivers

Model of `run` and `pump`, which `src/server.rs` and `src/client.rs` have in common: between two
waits a driver drains the core's events, then its transmits, until a whole round finds neither; a
wait ends in one `select!` arm. `Drives` is what the two drivers differ in. A `Move` is one step of
the loop, or one of the application: it enqueues a command, drops a receiver, or is woken by a
reply. Moves come in any order, and one that is not enabled does nothing.

The sleep is not modelled: its arm may fire at any wait. `handled` and `wire` are history
variables, the events polled and the datagrams handed to the socket.

* `Loop.run_calls`: the loop works the core through its public calls alone.
* `Loop.Paced.run`: what a driver leaves behind when it waits.
-/

namespace QuietQuic.Tokio

open QuietQuic.Lib QuietQuic.Proto

/-! ## Drivers -/

/-- What the loop asks of a driver. -/
class Drives (Q : outParam Quinn) (D : Type) where
  /-- The `select!` arms only this driver has. -/
  Arm : Type
  core : D → Endpoint Q
  setCore : D → Endpoint Q → D
  /-- What is parked for a connection; nothing where it has no `Parked`. -/
  parked : D → ConnectionHandle → Parked
  /-- Every reply sent, oldest first. -/
  replies : D → List (Token × Reply)
  /-- The application was handed a `Connection` of the handle. -/
  holds : D → ConnectionHandle → Bool
  /-- A command of the handle finds its `Parked` and its `ConnState`. -/
  takes : D → ConnectionHandle → Bool
  /-- `on_event`, and whether the driver is to stop. -/
  onEvent : D → Event → D × Bool
  /-- `on_command`. -/
  onCommand : D → ConnectionHandle → Cmd → Instant → D
  /-- An arm of its own, where it is enabled, and whether `run` returns. -/
  onArm : D → Arm → Option (D × Bool)

/-- Where `run` is. -/
inductive Phase where
  /-- `pump` drains `poll_event`. -/
  | events (now : Instant) (progressed lost : Bool)
  /-- `pump` drains `poll_transmit`. -/
  | transmits (now : Instant) (progressed lost : Bool)
  /-- In `select!`. -/
  | waiting
  | returned
  deriving DecidableEq

/-- What awaiting the channel of a command comes to when its sender is dropped. -/
def Cmd.closedReply : Cmd → Option (Token × Reply)
  | .openBi t | .acceptBi t => some (t, .stream (.error .closed))
  | .write _ _ t | .finish _ t | .waitFinished _ t | .reset _ _ t | .stop _ _ t =>
    some (t, .done (.error .closed))
  | .readToEnd _ _ t | .read _ _ t => some (t, .bytes (.error .closed))
  | .releaseSend _ | .close _ _ => none

/-- A driver in its loop, with the application. -/
structure Loop (D : Type) where
  driver : D
  phase : Phase
  /-- `cmd_rx`, oldest first. -/
  commands : List (ConnectionHandle × Cmd)
  /-- Everything sent to the socket, oldest first. -/
  wire : List Transmit
  /-- Every event handled, oldest first. -/
  handled : List Event
  /-- Every command that carries a channel, with its connection, by its channel. -/
  issued : AMap Token (ConnectionHandle × Cmd)
  /-- The receivers the application awaits. -/
  waiting : Finset Token
  /-- What was put into each channel, oldest first: a reply, or `Closed` for a dropped sender. -/
  answers : List (Token × Reply)
  /-- What the application took out of its channels, oldest first. -/
  received : List (Token × Reply)

/-- What can happen. `next` is the instant `pump` reads when it starts its next round. -/
inductive Move (Q : Quinn) (D : Type) [Drives Q D] where
  /-- The next step of `pump`. -/
  | pump (ord : IterOrder) (next : Instant)
  | datagram (ord : IterOrder) (now : Instant) (src : SocketAddr) (minute : UInt32)
      (data : List UInt8) (next : Instant)
  /-- `recv_from` fails. -/
  | socketError (next : Instant)
  | command (now next : Instant)
  /-- The sleep is over. -/
  | timeout (ord : IterOrder) (now next : Instant)
  | arm (a : Drives.Arm D) (next : Instant)
  /-- The application's command reaches the channel. -/
  | issue (ch : ConnectionHandle) (cmd : Cmd)
  /-- The application drops a receiver. -/
  | cancel (t : Token)
  /-- An awaited channel resolves. -/
  | receive (t : Token)

namespace Loop

variable {Q : Quinn} {D : Type} [Drives Q D]

/-- A driver that was just spawned. -/
def spawn (d : D) (now : Instant) : Loop D where
  driver := d
  phase := .events now false false
  commands := []
  wire := []
  handled := []
  issued := ∅
  waiting := ∅
  answers := []
  received := []

/-- The sans-IO core. -/
def core (l : Loop D) : Endpoint Q := Drives.core l.driver

/-- `pump` begins a round. -/
def enter (l : Loop D) (now : Instant) : Loop D := { l with phase := .events now false false }

/-- The core has moved on. -/
def withCore (l : Loop D) (ep : Endpoint Q) : Loop D :=
  { l with driver := Drives.setCore l.driver ep }

/-- The driver has done something, and its replies are in their channels. -/
def after (l : Loop D) (d : D) : Loop D :=
  { l with
    driver := d
    answers := l.answers ++ (Drives.replies d).drop (Drives.replies l.driver).length }

/-- The next step of `pump`. -/
def pump (l : Loop D) (ord : IterOrder) (next : Instant) : Loop D :=
  match l.phase with
  | .events now progressed lost =>
    match l.core.toCore.pollEvent with
    | (some e, core) =>
      let l := l.withCore { l.core with toCore := core }
      let (d, loses) := Drives.onEvent l.driver e
      { l.after d with handled := l.handled ++ [e], phase := .events now true (lost || loses) }
    | (none, _) => { l with phase := .transmits now progressed lost }
  | .transmits now progressed lost =>
    match l.core.toCore.pollTransmit ord now with
    | (some t, core) =>
      { l.withCore { l.core with toCore := core } with
        wire := l.wire ++ [t]
        phase := .transmits now true lost }
    | (none, core) =>
      { l.withCore { l.core with toCore := core } with
        phase := if lost then .returned
          else if progressed then .events next false false
          else .waiting }
  | .waiting | .returned => l

/-- The connection and the slot the command of a channel belongs to. -/
def slotOf (l : Loop D) (t : Token) : Option (ConnectionHandle × Slot) :=
  (l.issued.lookup t).bind fun x => x.2.slot.map fun σ => (x.1, σ)

/-- The stream handle a command needs is borrowed by a call that is still awaited. -/
def borrowed (l : Loop D) (ch : ConnectionHandle) (cmd : Cmd) : Bool :=
  match cmd.slot with
  | some (.read id) => decide (∃ t ∈ l.waiting, l.slotOf t = some (ch, .read id))
  | some (.write id) => decide (∃ t ∈ l.waiting, l.slotOf t = some (ch, .write id))
  | _ => false

/-- What awaiting a channel comes to, once it does: what was put into it, or `Closed` when the
driver is gone. -/
def outcome (l : Loop D) (t : Token) : Option Reply :=
  match l.answers.find? fun x => x.1 = t with
  | some x => some x.2
  | none =>
    if l.phase = .returned then
      (l.issued.lookup t).bind fun x => x.2.closedReply.map Prod.snd
    else none

/-- One move. -/
def step (H : KeyedHash) (l : Loop D) : Move Q D → Loop D
  | .pump ord next => l.pump ord next
  | .datagram ord now src minute data next =>
    if l.phase = .waiting then
      (l.withCore (l.core.handleDatagram H ord now src minute data).2).enter next
    else l
  | .socketError next => if l.phase = .waiting then l.enter next else l
  | .command now next =>
    match l.phase, l.commands with
    | .waiting, (ch, cmd) :: rest =>
      let d := Drives.onCommand l.driver ch cmd now
      let dropped := if Drives.takes l.driver ch then [] else cmd.closedReply.toList
      let l := Loop.after { l with commands := rest } d
      { l with answers := l.answers ++ dropped, phase := .events next false false }
    | _, _ => l
  | .timeout ord now next =>
    if l.phase = .waiting then
      (l.withCore { l.core with toCore := l.core.toCore.handleTimeout ord now }).enter next
    else l
  | .arm a next =>
    match l.phase, Drives.onArm l.driver a with
    | .waiting, some (d, returns) =>
      { l.after d with phase := if returns then .returned else .events next false false }
    | _, _ => l
  | .issue ch cmd =>
    if l.phase = .returned ∨ Drives.holds l.driver ch = false then l
    else
      match cmd.reply with
      | none => { l with commands := l.commands ++ [(ch, cmd)] }
      | some t =>
        if t ∈ l.issued ∨ l.borrowed ch cmd then l
        else
          { l with
            commands := l.commands ++ [(ch, cmd)]
            issued := l.issued.insert t (ch, cmd)
            waiting := insert t l.waiting }
  | .cancel t => { l with waiting := l.waiting.erase t }
  | .receive t =>
    match l.outcome t with
    | some r =>
      if t ∈ l.waiting then
        { l with waiting := l.waiting.erase t, received := l.received ++ [(t, r)] }
      else l
    | none => l

/-- The state a run of moves leaves. -/
def run (H : KeyedHash) (l : Loop D) (moves : List (Move Q D)) : Loop D :=
  moves.foldl (fun l m => l.step H m) l

end Loop

/-! ## What a driver does -/

section

variable {Q : Quinn} {D : Type} [Drives Q D]

/-- **What `on_event` does**, in either driver. -/
inductive Reacts (d : D) (e : Event) (d' : D) : Prop
  /-- The connection's `Parked` reacts on its `ConnState`. -/
  | stream {s} (hlost : e.isLost = false)
      (hs : (Drives.core d).connections.lookup e.conn = some s)
      (hcore : Drives.core d' =
        { Drives.core d with
          connections := (Drives.core d).connections.insert e.conn
            ((Drives.parked d e.conn).onEvent s e).core })
      (hparked : Drives.parked d' = Function.update (Drives.parked d) e.conn
        ((Drives.parked d e.conn).onEvent s e).parked)
      (hreplies : Drives.replies d' =
        Drives.replies d ++ ((Drives.parked d e.conn).onEvent s e).sent)
  /-- A finish waiter needs no `ConnState`. -/
  | finAcked {ch id} (he : e = .streamFinAcked ch id) (hcore : Drives.core d' = Drives.core d)
      (hparked : Drives.parked d' = Function.update (Drives.parked d) ch
        ((Drives.parked d ch).onFinAcked id).1)
      (hreplies : Drives.replies d' =
        Drives.replies d ++ ((Drives.parked d ch).onFinAcked id).2)
  | lost (hlost : e.isLost = true) (hcore : Drives.core d' = Drives.core d)
      (hparked : Drives.parked d' = Function.update (Drives.parked d) e.conn .new)
      (hreplies : Drives.replies d' =
        Drives.replies d ++ (Drives.parked d e.conn).failAll.2)
  /-- Nothing is parked, nothing is there to react on, or there is nothing to react to. -/
  | quiet (hlost : e.isLost = false) (hcore : Drives.core d' = Drives.core d)
      (hparked : Drives.parked d' = Drives.parked d)
      (hreplies : Drives.replies d' = Drives.replies d)
      (hidle : e = .connected e.conn ∨ Drives.parked d e.conn = .new ∨
        (Drives.core d).connections.lookup e.conn = none)

/-- What `on_command` does with a command that finds its connection. -/
structure Applies (d : D) (ch : ConnectionHandle) (cmd : Cmd) (now : Instant) (s : ConnState Q)
    (d' : D) : Prop where
  live : (Drives.core d).connections.lookup ch = some s
  core : Drives.core d' =
    { Drives.core d with
      connections := (Drives.core d).connections.insert ch
        ((Drives.parked d ch).applyCmd s cmd now).core }
  parked : Drives.parked d' = Function.update (Drives.parked d) ch
    ((Drives.parked d ch).applyCmd s cmd now).parked
  replies : Drives.replies d' = Drives.replies d ++ ((Drives.parked d ch).applyCmd s cmd now).sent

end

/-- A driver that keeps its own books, whatever the core does. -/
class LawfulDrives (Q : outParam Quinn) (D : Type) [Drives Q D] where
  /-- The invariant of the books. -/
  Fits : D → Prop
  core_setCore (d : D) (ep : Endpoint Q) : Drives.core (Drives.setCore d ep) = ep
  parked_setCore (d : D) (ep : Endpoint Q) :
    Drives.parked (Drives.setCore d ep) = Drives.parked d
  replies_setCore (d : D) (ep : Endpoint Q) :
    Drives.replies (Drives.setCore d ep) = Drives.replies d
  holds_setCore (d : D) (ep : Endpoint Q) : Drives.holds (Drives.setCore d ep) = Drives.holds d
  fits_step {H : KeyedHash} {d : D} (call : Call) : Queued (Drives.core d).toCore → Fits d →
    Fits (Drives.setCore d ((Drives.core d).step H call).2)
  reacts {d : D} (e : Event) : Fits d → Reacts d e (Drives.onEvent d e).1
  fits_event {d : D} {e : Event} : Fits d → Queued (Drives.core d).toCore →
    (e.isLost = true → e.conn ∉ (Drives.core d).connections) → Fits (Drives.onEvent d e).1
  holds_event (d : D) (e : Event) (ch : ConnectionHandle) :
    Drives.holds d ch = true → Drives.holds (Drives.onEvent d e).1 ch = true
  applies {d : D} {ch : ConnectionHandle} (cmd : Cmd) (now : Instant) : Fits d →
    Drives.takes d ch = true → ∃ s, Applies d ch cmd now s (Drives.onCommand d ch cmd now)
  drops {d : D} {ch : ConnectionHandle} (cmd : Cmd) (now : Instant) :
    Drives.takes d ch = false → Drives.onCommand d ch cmd now = d
  fits_command {d : D} (ch : ConnectionHandle) (cmd : Cmd) (now : Instant) : Fits d →
    Fits (Drives.onCommand d ch cmd now)
  holds_command (d : D) (ch : ConnectionHandle) (cmd : Cmd) (now : Instant) :
    Drives.holds (Drives.onCommand d ch cmd now) = Drives.holds d
  arm_same {d d' : D} {a : Drives.Arm D} {returns : Bool} :
    Drives.onArm d a = some (d', returns) → Drives.core d' = Drives.core d ∧
      Drives.parked d' = Drives.parked d ∧ Drives.replies d' = Drives.replies d
  fits_arm {d d' : D} {a : Drives.Arm D} {returns : Bool} :
    Drives.onArm d a = some (d', returns) → Fits d → Fits d'
  holds_arm {d d' : D} {a : Drives.Arm D} {returns : Bool} (ch : ConnectionHandle) :
    Drives.onArm d a = some (d', returns) → Drives.holds d ch = true → Drives.holds d' ch = true
  /-- A connection the application was handed takes its commands until it is gone. -/
  takes_of_holds {d : D} {ch : ConnectionHandle} : Fits d → Drives.holds d ch = true →
    ch ∈ (Drives.core d).connections → Drives.takes d ch = true
  /-- A connection the application was handed had a state. -/
  inhabited {d : D} {ch : ConnectionHandle} : Fits d → Drives.holds d ch = true →
    Nonempty (ConnState Q)
  /-- Nothing is known of a handle that was not given out yet. -/
  unknown {d : D} {ch : ConnectionHandle} : Fits d →
    (Drives.core d).nextGeneration ≤ ch.generation →
    Drives.holds d ch = false ∧ Drives.parked d ch = .new

/-! ## What a move can do -/

namespace Loop

variable {Q : Quinn} {D : Type} [Drives Q D]

/-- `on_event` is called with an event off the queue. -/
def reacting (l : Loop D) (e : Event) (rest : List Event) : D × Bool :=
  Drives.onEvent (Drives.setCore l.driver { l.core with events := rest }) e

/-- Nothing, where the move is not enabled, or what its guard allows. -/
inductive Taken (H : KeyedHash) (l : Loop D) : Move Q D → Loop D → Prop
  | idle (m) : Taken H l m l
  | polled {ord next now progressed lost e rest} (hphase : l.phase = .events now progressed lost)
      (hq : l.core.events = e :: rest) : Taken H l (.pump ord next)
        { (l.withCore { l.core with events := rest }).after (l.reacting e rest).1 with
          handled := l.handled ++ [e]
          phase := .events now true (lost || (l.reacting e rest).2) }
  | drained {ord next now progressed lost} (hphase : l.phase = .events now progressed lost)
      (hq : l.core.events = []) : Taken H l (.pump ord next)
        { l with phase := .transmits now progressed lost }
  | sent {ord next now progressed lost t} (hphase : l.phase = .transmits now progressed lost)
      (ht : (l.core.step H (.pollTransmit ord now)).1 = .transmit (some t)) :
      Taken H l (.pump ord next)
        { l.withCore (l.core.step H (.pollTransmit ord now)).2 with
          wire := l.wire ++ [t]
          phase := .transmits now true lost }
  | flushed {ord next now progressed lost} (hphase : l.phase = .transmits now progressed lost)
      (ht : (l.core.step H (.pollTransmit ord now)).1 = .transmit none) :
      Taken H l (.pump ord next)
        { l.withCore (l.core.step H (.pollTransmit ord now)).2 with
          phase := if lost then .returned
            else if progressed then .events next false false
            else .waiting }
  | arrived (ord now src minute data next) (hphase : l.phase = .waiting) :
      Taken H l (.datagram ord now src minute data next)
        ((l.withCore (l.core.step H (.handleDatagram ord now src minute data)).2).enter next)
  | failed (next) (hphase : l.phase = .waiting) : Taken H l (.socketError next) (l.enter next)
  | applied (now next) {ch cmd rest} (hphase : l.phase = .waiting)
      (hcmds : l.commands = (ch, cmd) :: rest) (htakes : Drives.takes l.driver ch = true) :
      Taken H l (.command now next)
        ((Loop.after { l with commands := rest }
          (Drives.onCommand l.driver ch cmd now)).enter next)
  | dropped (now next) {ch cmd rest} (hphase : l.phase = .waiting)
      (hcmds : l.commands = (ch, cmd) :: rest) (htakes : Drives.takes l.driver ch = false) :
      Taken H l (.command now next)
        (Loop.enter
          { Loop.after { l with commands := rest } (Drives.onCommand l.driver ch cmd now) with
            answers := (Loop.after { l with commands := rest }
              (Drives.onCommand l.driver ch cmd now)).answers ++ cmd.closedReply.toList } next)
  | fired (ord now next) (hphase : l.phase = .waiting) : Taken H l (.timeout ord now next)
      ((l.withCore (l.core.step H (.handleTimeout ord now)).2).enter next)
  | armed {a d returns} (next) (hphase : l.phase = .waiting)
      (harm : Drives.onArm l.driver a = some (d, returns)) : Taken H l (.arm a next)
      { l.after d with phase := if returns then .returned else .events next false false }
  | told {ch cmd} (hphase : l.phase ≠ .returned) (hholds : Drives.holds l.driver ch = true)
      (hreply : cmd.reply = none) :
      Taken H l (.issue ch cmd) { l with commands := l.commands ++ [(ch, cmd)] }
  | issued {ch cmd t} (hphase : l.phase ≠ .returned) (hholds : Drives.holds l.driver ch = true)
      (hreply : cmd.reply = some t) (hfresh : t ∉ l.issued) (hfree : ¬ l.borrowed ch cmd = true) :
      Taken H l (.issue ch cmd)
        { l with
          commands := l.commands ++ [(ch, cmd)]
          issued := l.issued.insert t (ch, cmd)
          waiting := insert t l.waiting }
  | cancelled (t) : Taken H l (.cancel t) { l with waiting := l.waiting.erase t }
  | received {t r} (houtcome : l.outcome t = some r) (hwait : t ∈ l.waiting) :
      Taken H l (.receive t)
        { l with waiting := l.waiting.erase t, received := l.received ++ [(t, r)] }

/-- **Every move does one of these.** -/
theorem taken (H : KeyedHash) (l : Loop D) (m : Move Q D) : Taken H l m (l.step H m) := by
  cases m with
  | pump ord next =>
    show Taken H l _ (l.pump ord next)
    unfold pump
    split
    · rename_i now progressed lost hphase
      cases hq : l.core.events with
      | nil =>
        have hpoll : l.core.toCore.pollEvent = (none, l.core.toCore) := by
          rw [Core.pollEvent, hq]
        rw [hpoll]
        exact .drained hphase hq
      | cons e rest =>
        have hpoll : l.core.toCore.pollEvent =
            (some e, { l.core.toCore with events := rest }) := by
          rw [Core.pollEvent, hq]
        rw [hpoll]
        exact .polled hphase hq
    · rename_i now progressed lost hphase
      split
      · rename_i t core hpoll
        obtain ⟨ht, hcore⟩ := Prod.ext_iff.mp hpoll
        dsimp only at ht hcore
        subst hcore
        exact .sent hphase (congrArg Answer.transmit ht)
      · rename_i core hpoll
        obtain ⟨ht, hcore⟩ := Prod.ext_iff.mp hpoll
        dsimp only at ht hcore
        subst hcore
        exact .flushed hphase (congrArg Answer.transmit ht)
    · exact .idle _
    · exact .idle _
  | datagram ord now src minute data next =>
    simp only [step]
    split
    · rename_i hphase
      exact .arrived ord now src minute data next hphase
    · exact .idle _
  | socketError next =>
    simp only [step]
    split
    · rename_i hphase
      exact .failed next hphase
    · exact .idle _
  | command now next =>
    simp only [step]
    split
    · rename_i ch cmd rest hphase hcmds
      cases htakes : Drives.takes l.driver ch with
      | true =>
        simpa [enter] using Taken.applied (H := H) now next hphase hcmds htakes
      | false => exact .dropped now next hphase hcmds htakes
    · exact .idle _
  | timeout ord now next =>
    simp only [step]
    split
    · rename_i hphase
      exact .fired ord now next hphase
    · exact .idle _
  | arm a next =>
    simp only [step]
    split
    · rename_i d returns hphase harm
      exact .armed next hphase harm
    · exact .idle _
  | issue ch cmd =>
    simp only [step]
    split
    · exact .idle _
    · rename_i hopen
      obtain ⟨hphase, hholds⟩ := not_or.mp hopen
      rw [Bool.not_eq_false] at hholds
      split
      · rename_i hreply
        exact .told hphase hholds hreply
      · rename_i t hreply
        split
        · exact .idle _
        · rename_i hnot
          obtain ⟨hfresh, hfree⟩ := not_or.mp hnot
          exact .issued hphase hholds hreply hfresh hfree
  | cancel t => exact .cancelled t
  | receive t =>
    simp only [step]
    split
    · rename_i r houtcome
      split
      · rename_i hwait
        exact .received houtcome hwait
      · exact .idle _
    · exact .idle _

end Loop

/-! ## The calls on the core -/

namespace Loop

variable {Q : Quinn} {D : Type} [Drives Q D] {H : KeyedHash}

/-- The answers of a run, and of one behind it. -/
theorem answers_append (ep : Endpoint Q) (before after : List Call) :
    Endpoint.answers H ep (before ++ after) =
      Endpoint.answers H ep before ++ Endpoint.answers H (ep.run H before) after := by
  induction before generalizing ep with
  | nil => rfl
  | cons call before ih => exact congrArg (_ :: ·) (ih (ep.step H call).2)

/-- Stream operations hand out nothing. -/
theorem answers_conn (ch : ConnectionHandle) (ops : List ConnCall) (ep : Endpoint Q) :
    (Endpoint.answers H ep (ops.map (Call.conn ch))).flatMap Endpoint.handed = [] ∧
      (Endpoint.answers H ep (ops.map (Call.conn ch))).flatMap Proto.taken = [] := by
  induction ops generalizing ep with
  | nil => exact ⟨rfl, rfl⟩
  | cons c ops ih => exact ih (ep.step H (.conn ch c)).2

/-- A run of stream operations on one connection, one after another. -/
theorem run_conn_of_insert {ch : ConnectionHandle} {m : AMap ConnectionHandle (ConnState Q)}
    (ops : List (ConnOp Q)) (hops : ∀ o ∈ ops, ∃ c, o = .call c) {ep : Endpoint Q}
    {s : ConnState Q} (h : ep.connections = m.insert ch s) :
    ∃ calls : List ConnCall, ep.run H (calls.map (Call.conn ch)) =
      { ep with connections := m.insert ch (s.runOps ops) } := by
  induction ops generalizing ep s with
  | nil =>
    refine ⟨[], ?_⟩
    show ep = { ep with connections := m.insert ch s }
    rw [← h]
  | cons o ops ih =>
    obtain ⟨c, rfl⟩ := hops o List.mem_cons_self
    have hs : ep.connections.lookup ch = some s := by
      rw [h]
      exact AList.lookup_insert m
    have hstep : (ep.step H (.conn ch c)).2 =
        { ep with connections := m.insert ch (s.call c).2 } := by
      show ({ ep with toCore := (ep.toCore.onConn ch c).2 } : Endpoint Q) = _
      rw [Core.onConn, hs]
      show ({ ep with connections := ep.connections.insert ch (s.call c).2 } : Endpoint Q) = _
      rw [h, AList.insert_insert]
    have hnext : ({ ep with connections := m.insert ch (s.call c).2 } : Endpoint Q).connections =
        m.insert ch (s.call c).2 := rfl
    obtain ⟨calls, hcalls⟩ := ih (fun o ho => hops o (List.mem_cons_of_mem _ ho)) hnext
    refine ⟨c :: calls, ?_⟩
    show (ep.step H (.conn ch c)).2.run H (calls.map (Call.conn ch)) = _
    rw [hstep, hcalls]
    rfl

/-- **A driver's operation on a connection is a run of calls.** The first call looks whether the
connection is dirty: `conn_mut` has found it. -/
theorem run_conn {ep : Endpoint Q} {ch : ConnectionHandle} {s s' : ConnState Q}
    {P : ConnOp Q → Prop} (hs : ep.connections.lookup ch = some s)
    (hdriven : ConnState.Driven P s s') (hP : ∀ o, P o → ∃ c, o = .call c) :
    ∃ calls : List ConnCall, ep.run H (calls.map (Call.conn ch)) =
      { ep with connections := ep.connections.insert ch s' } := by
  obtain ⟨ops, hops, rfl⟩ := hdriven
  have hstep : (ep.step H (.conn ch .isDirty)).2 =
      { ep with connections := ep.connections.insert ch s } := by
    show ({ ep with toCore := (ep.toCore.onConn ch .isDirty).2 } : Endpoint Q) = _
    rw [Core.onConn, hs]
    rfl
  have hfirst : ({ ep with connections := ep.connections.insert ch s } : Endpoint Q).connections =
      ep.connections.insert ch s := rfl
  obtain ⟨calls, hcalls⟩ :=
    run_conn_of_insert (H := H) ops (fun o ho => hP o (hops o ho).2) hfirst
  refine ⟨.isDirty :: calls, ?_⟩
  show (ep.step H (.conn ch .isDirty)).2.run H (calls.map (Call.conn ch)) = _
  rw [hstep, hcalls]

theorem eventAsks_call {e : Event} {o : ConnOp Q} (h : EventAsks e o) : ∃ c, o = .call c := by
  cases e with
  | streamOpened => exact ⟨_, h⟩
  | streamReadable =>
    rcases h with ⟨len, rfl⟩ | rfl
    · exact ⟨_, rfl⟩
    · exact ⟨_, rfl⟩
  | streamWritable => exact h.elim fun _ h => ⟨_, h⟩
  | streamStopped => exact h.elim fun _ h => ⟨_, h⟩
  | connected | streamFinAcked | connectionLost => exact h.elim

theorem cmdAsks_call {cmd : Cmd} {o : ConnOp Q} (h : cmd.Asks o) : ∃ c, o = .call c := by
  cases cmd with
  | write => exact h.elim fun _ h => ⟨_, h⟩
  | waitFinished => exact h.elim
  | readToEnd | read =>
    rcases h with ⟨len, rfl⟩ | rfl
    · exact ⟨_, rfl⟩
    · exact ⟨_, rfl⟩
  | close => exact h.elim fun _ h => ⟨_, h⟩
  | openBi | acceptBi | finish | reset | stop | releaseSend => exact ⟨_, h⟩

/-- The call brings a datagram. -/
def arrives : Call → Bool
  | .handleDatagram .. => true
  | _ => false

/-- The datagram a move brings, as the call that would hand it to the core. -/
def arrival : Move Q D → Option Call
  | .datagram ord now src minute data _ => some (.handleDatagram ord now src minute data)
  | _ => none

theorem arrives_conn (ch : ConnectionHandle) (ops : List ConnCall) :
    (ops.map (Call.conn ch)).filter arrives = [] :=
  List.filter_eq_nil_iff.mpr fun call hcall => by
    obtain ⟨c, -, rfl⟩ := List.mem_map.mp hcall
    exact Bool.false_ne_true

/-- `l'` comes from `l` by the calls: their transmits are what was sent, their events what was
handled. -/
structure Worked (H : KeyedHash) (l : Loop D) (calls : List Call) (l' : Loop D) : Prop where
  core : l'.core = l.core.run H calls
  wire : l'.wire = l.wire ++ Endpoint.handedOut H l.core calls
  handled : l'.handled = l.handled ++ (Endpoint.answers H l.core calls).flatMap Proto.taken

namespace Worked

variable {l l' l'' : Loop D} {calls calls' : List Call}

theorem refl (hcore : l'.core = l.core) (hwire : l'.wire = l.wire)
    (hhandled : l'.handled = l.handled) : Worked H l [] l' :=
  ⟨hcore, hwire.trans (List.append_nil _).symm, hhandled.trans (List.append_nil _).symm⟩

theorem trans (h : Worked H l calls l') (h' : Worked H l' calls' l'') :
    Worked H l (calls ++ calls') l'' := by
  refine ⟨?_, ?_, ?_⟩
  · rw [h'.core, h.core, Endpoint.run_append]
  · rw [h'.wire, h.wire, h.core, Endpoint.handedOut, Endpoint.handedOut, Endpoint.handedOut,
      answers_append, List.flatMap_append, List.append_assoc]
  · rw [h'.handled, h.handled, h.core, answers_append, List.flatMap_append, List.append_assoc]

/-- One call. -/
theorem one (call : Call) (hcore : l'.core = (l.core.step H call).2)
    (hwire : l'.wire = l.wire ++ Endpoint.handed (l.core.step H call).1)
    (hhandled : l'.handled = l.handled ++ Proto.taken (l.core.step H call).1) :
    Worked H l [call] l' := by
  refine ⟨hcore, hwire.trans ?_, hhandled.trans ?_⟩
  · show _ = l.wire ++ (Endpoint.handed (l.core.step H call).1 ++ [])
    rw [List.append_nil]
  · show _ = l.handled ++ (Proto.taken (l.core.step H call).1 ++ [])
    rw [List.append_nil]

/-- After calls that bring no datagram, a driver's operation on a connection. -/
theorem operated (h : Worked H l calls l') (harr : calls.filter arrives = [])
    {ch : ConnectionHandle} {s s' : ConnState Q} {P : ConnOp Q → Prop}
    (hs : l'.core.connections.lookup ch = some s) (hdriven : ConnState.Driven P s s')
    (hP : ∀ o, P o → ∃ c, o = .call c)
    (hcore : l''.core = { l'.core with connections := l'.core.connections.insert ch s' })
    (hwire : l''.wire = l'.wire) (hhandled : l''.handled = l'.handled) (arrivals : List Call) :
    ∃ calls, Worked H l calls l'' ∧ (calls.filter arrives).Sublist arrivals := by
  obtain ⟨ops, hrun⟩ := run_conn (H := H) hs hdriven hP
  obtain ⟨hhanded, htaken⟩ := answers_conn (H := H) ch ops l'.core
  have hops : Worked H l' (ops.map (Call.conn ch)) l'' := by
    refine ⟨hcore.trans hrun.symm, ?_, ?_⟩
    · rw [hwire, Endpoint.handedOut, hhanded, List.append_nil]
    · rw [hhandled, htaken, List.append_nil]
  refine ⟨_, h.trans hops, ?_⟩
  rw [List.filter_append, harr, arrives_conn]
  exact List.nil_sublist _

end Worked

end Loop

/-! ## The books of the loop -/

section

variable {Q : Quinn} {D : Type} [Drives Q D] {H : KeyedHash}

/-- A live connection's `ConnState` is replaced. -/
theorem queued_operated {ep : Endpoint Q} {ch : ConnectionHandle} {s s' : ConnState Q}
    (h : Queued ep.toCore) (hs : ep.connections.lookup ch = some s) :
    Queued { ep.toCore with connections := ep.connections.insert ch s' } :=
  h.book ⟨rfl, rfl, rfl, rfl, rfl, rfl⟩ fun _ => AMap.mem_insert_of_lookup hs

theorem Reacts.queued {d d' : D} {e : Event} (h : Reacts d e d')
    (hqueued : Queued (Drives.core d).toCore) : Queued (Drives.core d').toCore := by
  cases h with
  | stream _ hs hcore =>
    rw [hcore]
    exact queued_operated hqueued hs
  | finAcked _ hcore => rwa [hcore]
  | lost _ hcore => rwa [hcore]
  | quiet _ hcore => rwa [hcore]

/-- Reacting leaves the queue, and which connections are live. -/
theorem Reacts.stays {d d' : D} {e : Event} (h : Reacts d e d') :
    (Drives.core d').events = (Drives.core d).events ∧
      ∀ ch, ch ∈ (Drives.core d').connections ↔ ch ∈ (Drives.core d).connections := by
  cases h with
  | stream _ hs hcore =>
    rw [hcore]
    exact ⟨rfl, fun _ => AMap.mem_insert_of_lookup hs⟩
  | finAcked _ hcore | lost _ hcore | quiet _ hcore =>
    rw [hcore]
    exact ⟨rfl, fun _ => Iff.rfl⟩

theorem Reacts.generation {d d' : D} {e : Event} (h : Reacts d e d') :
    (Drives.core d').nextGeneration = (Drives.core d).nextGeneration := by
  cases h with
  | stream _ _ hcore | finAcked _ hcore | lost _ hcore | quiet _ hcore => rw [hcore]

theorem Applies.queued {d d' : D} {ch : ConnectionHandle} {cmd : Cmd} {now : Instant}
    {s : ConnState Q} (h : Applies d ch cmd now s d')
    (hqueued : Queued (Drives.core d).toCore) : Queued (Drives.core d').toCore := by
  rw [h.core]
  exact queued_operated hqueued h.live

end

namespace Loop

variable {Q : Quinn} {D : Type} [Drives Q D] [LawfulDrives Q D] {H : KeyedHash}

/-- What holds of the loop between two moves: the driver's and the core's books, and that commands
are of connections the application was handed. -/
structure Fit (l : Loop D) : Prop where
  books : LawfulDrives.Fits l.driver
  queued : Queued l.core.toCore
  commands : ∀ x ∈ l.commands, Drives.holds l.driver x.1 = true
  issued : ∀ t x, l.issued.lookup t = some x → Drives.holds l.driver x.1 = true

theorem core_withCore (l : Loop D) (ep : Endpoint Q) : (l.withCore ep).core = ep :=
  LawfulDrives.core_setCore l.driver ep

/-- A `ConnectionLost` off the queue is of a handle that is gone. -/
theorem gone_of_head {ep : Endpoint Q} (h : Queued ep.toCore) {e : Event} {rest : List Event}
    (hq : ep.events = e :: rest) (hlost : e.isLost = true) : e.conn ∉ ep.connections := by
  cases e with
  | connectionLost ch reason =>
    refine h.gone ch reason ?_
    rw [hq]
    exact List.mem_cons_self
  | _ => exact absurd hlost (by simp [Event.isLost])

/-- Polling an event is a call of the core. -/
theorem step_pollEvent_cons {ep : Endpoint Q} {e : Event} {rest : List Event}
    (hq : ep.events = e :: rest) :
    ep.step H .pollEvent = (.event (some e), { ep with events := rest }) := by
  show ((.event ep.toCore.pollEvent.1, { ep with toCore := ep.toCore.pollEvent.2 }) :
    Answer × Endpoint Q) = _
  rw [Core.pollEvent, hq]

namespace Fit

variable {l : Loop D}

/-- The driver and its core change, the queue of commands shrinks. -/
theorem moved (h : Fit l) {d : D} {rest : List (ConnectionHandle × Cmd)} {l' : Loop D}
    (hdriver : l'.driver = d) (hcommands : l'.commands = rest) (hrest : rest <:+ l.commands)
    (hissued : l'.issued = l.issued) (hbooks : LawfulDrives.Fits d)
    (hqueued : Queued (Drives.core d).toCore)
    (hholds : ∀ ch, Drives.holds l.driver ch = true → Drives.holds d ch = true) : Fit l' := by
  subst hdriver hcommands
  exact ⟨hbooks, hqueued, fun x hx => hholds _ (h.commands x (hrest.subset hx)),
    fun t x hx => hholds _ (h.issued t x (hissued ▸ hx))⟩

/-- The core was called. -/
theorem called (h : Fit l) (call : Call) {l' : Loop D}
    (hdriver : l'.driver = Drives.setCore l.driver (l.core.step H call).2)
    (hcommands : l'.commands = l.commands) (hissued : l'.issued = l.issued) : Fit l' := by
  refine h.moved hdriver hcommands (List.suffix_refl _) hissued
    (LawfulDrives.fits_step call h.queued h.books) ?_ fun ch hch => ?_
  · rw [LawfulDrives.core_setCore]
    exact h.queued.step call
  · rwa [LawfulDrives.holds_setCore]

/-- The driver finds the core with the polled event gone from its queue. -/
theorem polling (H : KeyedHash) (h : Fit l) {e : Event} {rest : List Event}
    (hq : l.core.events = e :: rest) : Fit (l.withCore { l.core with events := rest }) := by
  refine h.called (H := H) .pollEvent ?_ rfl rfl
  rw [step_pollEvent_cons hq]
  rfl

/-- What `on_event` makes of the polled event. -/
theorem reacts (H : KeyedHash) (h : Fit l) {e : Event} {rest : List Event}
    (hq : l.core.events = e :: rest) :
    Reacts (Drives.setCore l.driver { l.core with events := rest }) e (l.reacting e rest).1 :=
  LawfulDrives.reacts e (h.polling H hq).books

/-- **Every move keeps the books.** -/
theorem step (h : Fit l) (m : Move Q D) : Fit (l.step H m) := by
  have htaken := Loop.taken H l m
  generalize l.step H m = l' at htaken ⊢
  cases htaken with
  | idle => exact h
  | @polled _ _ _ _ _ e rest hphase hq =>
    have hpolling := h.polling H hq
    have hcore := LawfulDrives.core_setCore l.driver { l.core with events := rest }
    refine hpolling.moved rfl rfl (List.suffix_refl _) rfl ?_
      ((h.reacts H hq).queued hpolling.queued) (LawfulDrives.holds_event _ e)
    refine LawfulDrives.fits_event hpolling.books hpolling.queued fun hlost => ?_
    show e.conn ∉ (Drives.core (Drives.setCore l.driver { l.core with events := rest })).connections
    rw [hcore]
    exact gone_of_head h.queued hq hlost
  | drained => exact ⟨h.books, h.queued, h.commands, h.issued⟩
  | sent => exact h.called _ rfl rfl rfl
  | flushed => exact h.called _ rfl rfl rfl
  | arrived => exact h.called _ rfl rfl rfl
  | failed => exact ⟨h.books, h.queued, h.commands, h.issued⟩
  | @applied now next ch cmd rest hphase hcmds htakes =>
    have hrest : rest <:+ l.commands := by
      rw [hcmds]
      exact List.suffix_cons _ rest
    obtain ⟨s, happlies⟩ := LawfulDrives.applies cmd now h.books htakes
    refine h.moved rfl rfl hrest rfl (LawfulDrives.fits_command ch cmd now h.books)
      (happlies.queued h.queued) fun a ha => ?_
    show Drives.holds (Drives.onCommand l.driver ch cmd now) a = true
    rwa [LawfulDrives.holds_command]
  | @dropped now next ch cmd rest hphase hcmds htakes =>
    have hrest : rest <:+ l.commands := by
      rw [hcmds]
      exact List.suffix_cons _ rest
    exact h.moved (LawfulDrives.drops cmd now htakes) rfl hrest rfl h.books h.queued fun a ha => ha
  | fired => exact h.called _ rfl rfl rfl
  | @armed _ d _ next hphase harm =>
    have hqueued : Queued (Drives.core d).toCore := by
      rw [(LawfulDrives.arm_same harm).1]
      exact h.queued
    exact h.moved rfl rfl (List.suffix_refl _) rfl (LawfulDrives.fits_arm harm h.books) hqueued
      fun ch => LawfulDrives.holds_arm ch harm
  | told hphase hholds =>
    refine ⟨h.books, h.queued, fun x hx => ?_, h.issued⟩
    rcases List.mem_append.mp hx with hx | hx
    · exact h.commands x hx
    · rw [List.mem_singleton.mp hx]
      exact hholds
  | @issued ch cmd t hphase hholds hreply hfresh =>
    refine ⟨h.books, h.queued, fun x hx => ?_, fun a x hx => ?_⟩
    · rcases List.mem_append.mp hx with hx | hx
      · exact h.commands x hx
      · rw [List.mem_singleton.mp hx]
        exact hholds
    · change (l.issued.insert t (ch, cmd)).lookup a = some x at hx
      rw [AMap.lookup_insert_eq] at hx
      split at hx
      · rw [← Option.some.inj hx]
        exact hholds
      · exact h.issued a x hx
  | cancelled => exact ⟨h.books, h.queued, h.commands, h.issued⟩
  | received => exact ⟨h.books, h.queued, h.commands, h.issued⟩

theorem run (h : Fit l) (moves : List (Move Q D)) : Fit (l.run H moves) := by
  induction moves generalizing l with
  | nil => exact h
  | cons m moves ih => exact ih (h.step m)

end Fit

/-! ## The calls of a run -/

/-- **The calls of one move.** -/
theorem step_calls {l : Loop D} (h : Fit l) (m : Move Q D) :
    ∃ calls, Worked H l calls (l.step H m) ∧
      (calls.filter arrives).Sublist (arrival m).toList := by
  have hnone : ∀ {l' : Loop D}, l'.core = l.core → l'.wire = l.wire → l'.handled = l.handled →
      ∃ calls, Worked H l calls l' ∧ (calls.filter arrives).Sublist (arrival m).toList :=
    fun hcore hwire hhandled => ⟨[], .refl hcore hwire hhandled, List.nil_sublist _⟩
  have htaken := Loop.taken H l m
  generalize l.step H m = l' at htaken ⊢
  cases htaken with
  | idle => exact hnone rfl rfl rfl
  | drained | failed | told | issued | cancelled | received => exact hnone rfl rfl rfl
  | @polled ord next now progressed lost e rest hphase hq =>
    have hstep := step_pollEvent_cons (H := H) hq
    have hcore := LawfulDrives.core_setCore l.driver { l.core with events := rest }
    have hpoll : Worked H l [.pollEvent]
        { l.withCore { l.core with events := rest } with handled := l.handled ++ [e] } := by
      refine .one .pollEvent ?_ ?_ ?_
      · rw [hstep]
        exact hcore
      · rw [hstep]
        exact (List.append_nil _).symm
      · rw [hstep]
        rfl
    cases h.reacts H hq with
    | @stream s _ hs hcore' =>
      have hdriven := onEvent_driven
        (Drives.parked (Drives.setCore l.driver { l.core with events := rest }) e.conn) s e
      refine hpoll.operated rfl hs hdriven (fun o => eventAsks_call) ?_ ?_ ?_ _
      exacts [hcore', rfl, rfl]
    | finAcked _ hcore' | lost _ hcore' | quiet _ hcore' =>
      exact ⟨_, hpoll.trans (.refl hcore' rfl rfl), List.nil_sublist _⟩
  | @sent ord _ now _ _ t hphase ht =>
    refine ⟨_, .one (.pollTransmit ord now) (core_withCore l _) ?_ ?_, List.nil_sublist _⟩
    · rw [ht]
      rfl
    · rw [ht]
      exact (List.append_nil _).symm
  | @flushed ord _ now _ _ hphase ht =>
    refine ⟨_, .one (.pollTransmit ord now) (core_withCore l _) ?_ ?_, List.nil_sublist _⟩
    · rw [ht]
      exact (List.append_nil _).symm
    · rw [ht]
      exact (List.append_nil _).symm
  | arrived ord now src minute data next hphase =>
    exact ⟨_, .one (.handleDatagram ord now src minute data) (core_withCore l _)
      (List.append_nil _).symm (List.append_nil _).symm, List.Sublist.refl _⟩
  | fired ord now next hphase =>
    exact ⟨_, .one (.handleTimeout ord now) (core_withCore l _) (List.append_nil _).symm
      (List.append_nil _).symm, List.nil_sublist _⟩
  | @applied now next ch cmd rest hphase hcmds htakes =>
    obtain ⟨s, happlies⟩ := LawfulDrives.applies cmd now h.books htakes
    have hnil : Worked H l [] l := .refl rfl rfl rfl
    have hdriven := applyCmd_driven (Drives.parked l.driver ch) s cmd now
    refine hnil.operated rfl happlies.live hdriven (fun o => cmdAsks_call) ?_ ?_ ?_ _
    exacts [happlies.core, rfl, rfl]
  | @dropped now next ch cmd rest hphase hcmds htakes =>
    exact hnone (congrArg Drives.core (LawfulDrives.drops cmd now htakes)) rfl rfl
  | armed next hphase harm => exact hnone (LawfulDrives.arm_same harm).1 rfl rfl

/-- **The loop works the core through its public calls alone**: in every run, the core is where a
run of calls leaves it, what was sent is what `poll_transmit` handed out, in order, what was handled
is what `poll_event` handed out, in order, and the datagrams it was called with arrived. -/
theorem run_calls {l : Loop D} (h : Fit l) (moves : List (Move Q D)) :
    ∃ calls, Worked H l calls (l.run H moves) ∧
      (calls.filter arrives).Sublist (moves.filterMap arrival) := by
  induction moves generalizing l with
  | nil => exact ⟨[], .refl rfl rfl rfl, List.Sublist.refl _⟩
  | cons m moves ih =>
    obtain ⟨calls, hworked, harrives⟩ := step_calls (H := H) h m
    obtain ⟨calls', hworked', harrives'⟩ := ih (h.step m)
    refine ⟨calls ++ calls', hworked.trans hworked', ?_⟩
    have hcons : (m :: moves).filterMap arrival =
        (arrival m).toList ++ moves.filterMap arrival := by
      cases harr : arrival m <;> simp [harr]
    rw [List.filter_append, hcons]
    exact harrives.append harrives'

end Loop

/-! ## Waiting -/

/-- How a driver leaves the core when it waits: one pass after there was nothing to handle and
nothing to send, with nothing to send again, no connection marked, and the real deadline. -/
structure Rested {Q : Quinn} (core : Core Q) : Prop where
  pass : ∃ (core₀ : Core Q) (ord : IterOrder) (now : Instant), core₀.events = [] ∧
    core₀.outbound = [] ∧ core = core₀.serviceConnections ord now
  sent : core.outbound = []
  clean : ∀ ch s, core.connections.lookup ch = some s → s.dirty = false
  deadline : ∀ t, core.nextTimeoutAt = some t ↔ IsLeast core.deadlines t
  idle : core.nextTimeoutAt = none ↔ core.deadlines = ∅

/-- A `poll_transmit` that answers `None` is a pass that queues nothing to send. -/
theorem pollTransmit_none {Q : Quinn} {core : Core Q} {ord : IterOrder} {now : Instant}
    (h : (core.pollTransmit ord now).1 = none) :
    core.outbound = [] ∧ (core.pollTransmit ord now).2 = core.serviceConnections ord now ∧
      (core.serviceConnections ord now).outbound = [] := by
  have hpop : ∀ core : Core Q, core.popTransmit.1 = none →
      core.popTransmit = (none, core) ∧ core.outbound = [] := by
    intro core h
    unfold Core.popTransmit at h ⊢
    split at h
    · exact absurd h (by simp)
    · rename_i hempty
      exact ⟨rfl, hempty⟩
  have hfirst : core.popTransmit.1 = none := by
    cases hfirst : core.popTransmit with
    | mk answer core' =>
      cases answer with
      | none => rfl
      | some t => exact absurd h (by simp [Core.pollTransmit, hfirst])
  obtain ⟨hsame, hempty⟩ := hpop core hfirst
  have hpoll : core.pollTransmit ord now = (core.serviceConnections ord now).popTransmit := by
    rw [Core.pollTransmit, hsame]
  rw [hpoll] at h ⊢
  obtain ⟨hsame', hempty'⟩ := hpop _ h
  rw [hsame']
  exact ⟨hempty, rfl, hempty'⟩

theorem Rested.of_pass {Q : Quinn} {core : Core Q} {ord : IterOrder} {now : Instant}
    (hevents : core.events = []) (h : (core.pollTransmit ord now).1 = none) :
    Rested (core.pollTransmit ord now).2 := by
  obtain ⟨hempty, hpass, hsent⟩ := pollTransmit_none h
  rw [hpass]
  have hclean : ∀ ch s, (core.serviceConnections ord now).connections.lookup ch = some s →
      s.dirty = false := fun ch s hs => Core.serviceConnections_clean hs
  have hfresh : (core.serviceConnections ord now).Fresh := rfl
  obtain ⟨hdeadline, hidle⟩ := Core.nextTimeoutAt_fresh hfresh hclean
  exact ⟨⟨core, ord, now, hevents, hempty, rfl⟩, hsent, hclean, hdeadline, hidle⟩

namespace Loop

variable {Q : Quinn} {D : Type} [Drives Q D] {H : KeyedHash}

/-- A driver waits with a rested core, and drains transmits in a round without progress only when
the round found no event. -/
structure Paced (l : Loop D) : Prop where
  waits : l.phase = .waiting → Rested l.core.toCore
  found : ∀ now lost, l.phase = .transmits now false lost → l.core.events = []

theorem Paced.spawn (d : D) (now : Instant) : Paced (Loop.spawn d now) :=
  ⟨fun hwait => absurd hwait (by simp [Loop.spawn]),
    fun _ _ hfound => absurd hfound (by simp [Loop.spawn])⟩

variable [LawfulDrives Q D]

theorem Paced.step {l : Loop D} (h : Paced l) (m : Move Q D) : Paced (l.step H m) := by
  have hbusy : ∀ {l' : Loop D} {now progressed lost},
      l'.phase = .events now progressed lost → Paced l' := fun hphase =>
    ⟨fun hwait => absurd (hphase.symm.trans hwait) (by simp),
      fun _ _ hfound => absurd (hphase.symm.trans hfound) (by simp)⟩
  have htaken := Loop.taken H l m
  generalize l.step H m = l' at htaken ⊢
  cases htaken with
  | idle => exact h
  | told | issued | cancelled | received => exact ⟨h.waits, h.found⟩
  | polled | arrived | failed | applied | dropped | fired => exact hbusy rfl
  | drained hphase hq => exact ⟨fun hwait => absurd hwait (by simp), fun _ _ _ => hq⟩
  | sent => exact ⟨fun hwait => absurd hwait (by simp), fun _ _ hfound => absurd hfound (by simp)⟩
  | @flushed ord next now progressed lost hphase ht =>
    refine ⟨fun hwait => ?_, fun now' lost' hfound => ?_⟩
    · have hstill : lost = false ∧ progressed = false := by
        cases lost <;> cases progressed <;> simp_all
      obtain ⟨rfl, rfl⟩ := hstill
      have hnone : (l.core.toCore.pollTransmit ord now).1 = none := Answer.transmit.inj ht
      have hrested := Rested.of_pass (h.found now false hphase) hnone
      show Rested (Loop.core (l.withCore _)).toCore
      rw [core_withCore]
      exact hrested
    · exfalso
      dsimp only at hfound
      split at hfound
      · exact absurd hfound (by simp)
      · split at hfound <;> exact absurd hfound (by simp)
  | @armed _ _ returns next hphase harm =>
    cases returns with
    | true =>
      exact ⟨fun hwait => absurd hwait (by simp), fun _ _ hfound => absurd hfound (by simp)⟩
    | false => exact hbusy rfl

/-- **What a driver leaves behind when it waits.** -/
theorem Paced.run {l : Loop D} (h : Paced l) (moves : List (Move Q D)) : Paced (l.run H moves) := by
  induction moves generalizing l with
  | nil => exact h
  | cons m moves ih => exact ih (h.step m)

end Loop

end QuietQuic.Tokio
