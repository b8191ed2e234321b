import QuietQuic.Proto.Admissions
import QuietQuic.Tokio.Awaited
import QuietQuic.Tokio.Followed
import QuietQuic.Tokio.Server

/-!
# The client in its loop

`ClientDriver` of `src/client.rs` as a `Loop`, and `connect_with_timeout` around it: a `Dial` is the
loop of the driver it spawned and what `connect` returned, if it did. Its moves are the loop's, in
any order with the two ways `connect` ends: the channel it waits on resolves, or its timeout elapses
while the channel is open. After a timeout the driver goes on until the abort is seen; no more of it
is modelled than that it stops. What `connect` does before it spawns the driver is left out: the
socket it binds, and its returns when that or `new_client` fails.

* `ClientDriver.Booked`: the books of the driver, whatever the core does.
-/

namespace QuietQuic.Tokio

open QuietQuic.Lib QuietQuic.Proto

variable {Q : Quinn} {H : KeyedHash}

/-! ## The driver -/

/-- `ClientError`, of those a driver that was spawned can end in. -/
inductive ClientError where
  | handshakeIncomplete
  | timedOut
  deriving DecidableEq

/-- The driver's end of the channel `connect` waits on. -/
inductive Handoff where
  /-- `connected` is still there. -/
  | held
  | sent (result : Except ClientError Connection)
  /-- It was taken, and dropped unused. -/
  | dropped

/-- `ClientDriver`. -/
structure ClientDriver (Q : Quinn) where
  core : Endpoint Q
  handle : ConnectionHandle
  parked : Parked
  connected : Handoff
  /-- Every reply sent, oldest first. -/
  replies : List (Token × Reply)

namespace ClientDriver

/-- `ClientDriver::new`. -/
def new (core : Endpoint Q) (handle : ConnectionHandle) : ClientDriver Q where
  core := core
  handle := handle
  parked := .new
  connected := .held
  replies := []

/-- `surface`. A connection that was reaped is not there to be surfaced, and the sender is gone. -/
def surface (d : ClientDriver Q) : ClientDriver Q :=
  match d.connected with
  | .held =>
    match d.core.connections.lookup d.handle with
    | none => { d with connected := .dropped }
    | some state =>
      let remote := Q.remoteAddress state.conn
      { d with
        connected := .sent
          (.ok { handle := d.handle, remote, clientId := none, cmds := d.handle }) }
  | .sent _ | .dropped => d

/-- The core's state of the connection, if it is there. -/
def withState (d : ClientDriver Q) (f : Parked → ConnState Q → Outcome Q) : ClientDriver Q :=
  match d.core.connections.lookup d.handle with
  | some state =>
    let o := f d.parked state
    { d with
      core := { d.core with connections := d.core.connections.insert d.handle o.core }
      parked := o.parked
      replies := d.replies ++ o.sent }
  | none => d

/-- The `ConnectionLost` arm of `on_event`. -/
def onLost (d : ClientDriver Q) : ClientDriver Q :=
  { d with
    parked := d.parked.failAll.1
    replies := d.replies ++ d.parked.failAll.2
    connected :=
      match d.connected with
      | .held => .sent (.error .handshakeIncomplete)
      | taken => taken }

/-- `on_event`, and whether the connection was lost. -/
def onEvent (d : ClientDriver Q) (e : Event) : ClientDriver Q × Bool :=
  if e.conn = d.handle then
    match e with
    | .connected _ => (d.surface, false)
    | .streamFinAcked _ id =>
      ({ d with
        parked := (d.parked.onFinAcked id).1
        replies := d.replies ++ (d.parked.onFinAcked id).2 }, false)
    | .connectionLost _ _ => (d.onLost, true)
    | .streamOpened _ _ _ | .streamReadable _ _ | .streamWritable _ _ | .streamStopped _ _ _ =>
      (d.withState fun p state => p.onEvent state e, false)
  else (d, false)

/-- `on_command`. -/
def onCommand (d : ClientDriver Q) (ch : ConnectionHandle) (cmd : Cmd) (now : Instant) :
    ClientDriver Q :=
  if ch = d.handle then d.withState fun p state => p.applyCmd state cmd now else d

instance : Drives Q (ClientDriver Q) where
  Arm := Empty
  core := ClientDriver.core
  setCore := fun d ep => { d with core := ep }
  parked := fun d ch => if ch = d.handle then d.parked else .new
  replies := ClientDriver.replies
  holds := fun d ch =>
    match d.connected with
    | .sent (.ok conn) => decide (conn.cmds = ch)
    | _ => false
  takes := fun d ch => decide (ch = d.handle) && (d.core.connections.lookup ch).isSome
  onEvent := ClientDriver.onEvent
  onCommand := ClientDriver.onCommand
  onArm := fun _ a => a.elim

/-! ## What an event does -/

/-- The event settles what `connect` on `ch` waits for. -/
def settles (ch : ConnectionHandle) : Event → Bool
  | .connected c | .connectionLost c _ => c = ch
  | _ => false

/-- Nothing of the dial has changed but what is parked, and the `ConnState`. -/
structure Same (d d' : ClientDriver Q) : Prop where
  handle : d'.handle = d.handle
  connected : d'.connected = d.connected
  generation : d'.core.nextGeneration = d.core.nextGeneration
  live : ∀ ch, ch ∈ d'.core.connections ↔ ch ∈ d.core.connections

theorem Same.refl (d : ClientDriver Q) : Same d d := ⟨rfl, rfl, rfl, fun _ => Iff.rfl⟩

theorem withState_same (d : ClientDriver Q) (f : Parked → ConnState Q → Outcome Q) :
    Same d (d.withState f) := by
  unfold withState
  split
  · rename_i state hstate
    exact ⟨rfl, rfl, rfl, fun _ => AMap.mem_insert_of_lookup hstate⟩
  · exact .refl d

theorem onCommand_same (d : ClientDriver Q) (ch : ConnectionHandle) (cmd : Cmd) (now : Instant) :
    Same d (d.onCommand ch cmd now) := by
  unfold onCommand
  split
  · exact d.withState_same _
  · exact .refl d

/-- `surface` is about the channel alone. -/
theorem surface_eq (d : ClientDriver Q) :
    d.surface = { d with connected := d.surface.connected } := by
  unfold surface
  split
  · split <;> rfl
  · rfl
  · rfl

/-- A loss that comes first is what `connect` is told. -/
theorem onLost_held {d : ClientDriver Q} (h : d.connected = .held) :
    d.onLost.connected = .sent (.error .handshakeIncomplete) := by
  simp only [onLost, h]

/-- The two events that settle a dial, and the rest. -/
inductive Turns (d : ClientDriver Q) (e : Event) : ClientDriver Q × Bool → Prop
  | connected (he : e = .connected d.handle) : Turns d e (d.surface, false)
  | lost {reason} (he : e = .connectionLost d.handle reason) : Turns d e (d.onLost, true)
  | idle {d'} (hno : settles d.handle e = false) (hsame : Same d d') : Turns d e (d', false)

/-- **Every event does one of these.** -/
theorem turns (d : ClientDriver Q) (e : Event) : Turns d e (d.onEvent e) := by
  unfold onEvent
  split
  · rename_i hconn
    cases e with
    | connected ch => exact .connected (congrArg Event.connected hconn)
    | connectionLost ch reason => exact .lost (congrArg (Event.connectionLost · reason) hconn)
    | streamFinAcked ch id => exact .idle rfl ⟨rfl, rfl, rfl, fun _ => Iff.rfl⟩
    | streamOpened | streamReadable | streamWritable | streamStopped =>
      exact .idle rfl (d.withState_same _)
  · rename_i hconn
    refine .idle ?_ (.refl d)
    cases e with
    | connected | connectionLost => exact decide_eq_false hconn
    | streamOpened | streamReadable | streamWritable | streamFinAcked | streamStopped => rfl

/-! ## The books -/

/-- What the driver holds of its one connection. -/
structure Booked (d : ClientDriver Q) : Prop where
  known : d.handle.generation < d.core.nextGeneration
  tagged : ∀ conn, d.connected = .sent (.ok conn) → conn.cmds = d.handle
  inhabited : Nonempty (ConnState Q)

namespace Booked

variable {d d' : ClientDriver Q}

theorem same (h : Booked d) (hsame : Same d d') : Booked d' := by
  refine ⟨?_, fun conn hconn => ?_, h.inhabited⟩
  · rw [hsame.handle, hsame.generation]
    exact h.known
  · rw [hsame.handle]
    exact h.tagged conn (hsame.connected ▸ hconn)

/-- A connection is sent under the driver's own handle. -/
theorem tagged_surface (h : Booked d) {conn : Connection}
    (hconn : d.surface.connected = .sent (.ok conn)) : conn.cmds = d.handle := by
  unfold surface at hconn
  split at hconn
  · split at hconn
    · exact absurd hconn (by simp)
    · rw [← Except.ok.inj (Handoff.sent.inj hconn)]
  · exact h.tagged conn hconn
  · exact h.tagged conn hconn

theorem onEvent (h : Booked d) (e : Event) : Booked (d.onEvent e).1 := by
  have hturns := d.turns e
  generalize d.onEvent e = r at hturns
  cases hturns with
  | connected =>
    have hsurface := d.surface_eq
    refine ⟨?_, fun conn hconn => ?_, h.inhabited⟩
    · rw [hsurface]
      exact h.known
    · rw [h.tagged_surface hconn, hsurface]
  | lost =>
    refine ⟨h.known, fun conn hconn => h.tagged conn ?_, h.inhabited⟩
    change (match d.connected with
      | .held => Handoff.sent (.error .handshakeIncomplete)
      | taken => taken) = _ at hconn
    split at hconn
    · exact absurd hconn (by simp)
    · exact hconn
  | idle _ hsame => exact h.same hsame

end Booked

/-! ## The laws -/

/-- What is parked, as a function. -/
theorem parked_update (d : ClientDriver Q) (p : Parked) :
    (fun ch => if ch = d.handle then p else .new) =
      Function.update (fun ch => if ch = d.handle then d.parked else .new) d.handle p := by
  funext ch
  rw [Function.update_apply]
  split <;> rfl

theorem parked_self (d : ClientDriver Q) : Drives.parked d d.handle = d.parked := if_pos rfl

/-- A stream event of the connection, whatever `Parked` makes of it. -/
theorem withState_reacts (d : ClientDriver Q) {e : Event} (hconn : e.conn = d.handle)
    (hlost : e.isLost = false) : Reacts d e (d.withState fun p state => p.onEvent state e) := by
  unfold withState
  split
  · rename_i state hstate
    rw [← hconn] at hstate
    refine .stream hlost hstate ?_ ?_ ?_ <;> rw [hconn, parked_self]
    · rfl
    · exact d.parked_update _
    · rfl
  · rename_i hnone
    rw [← hconn] at hnone
    exact .quiet hlost rfl rfl rfl (.inr (.inr hnone))

/-- **`on_event` does what the loop expects.** -/
theorem onEvent_reacts (d : ClientDriver Q) (e : Event) : Reacts d e (d.onEvent e).1 := by
  unfold ClientDriver.onEvent
  split
  · rename_i hconn
    cases e with
    | streamOpened | streamReadable | streamWritable | streamStopped =>
      exact d.withState_reacts hconn rfl
    | streamFinAcked ch id =>
      obtain rfl : ch = d.handle := hconn
      refine .finAcked rfl rfl ?_ ?_ <;> rw [parked_self]
      · exact d.parked_update _
      · rfl
    | connected ch =>
      show Reacts d _ d.surface
      rw [surface_eq]
      exact .quiet rfl rfl rfl rfl (.inl rfl)
    | connectionLost ch reason =>
      obtain rfl : ch = d.handle := hconn
      refine .lost rfl rfl (d.parked_update _) ?_
      show d.replies ++ _ = d.replies ++ (Drives.parked d d.handle).failAll.2
      rw [parked_self]
  · rename_i hconn
    have hparked : Drives.parked d e.conn = .new := if_neg hconn
    cases hlost : e.isLost with
    | false => exact .quiet hlost rfl rfl rfl (.inr (.inl hparked))
    | true =>
      refine .lost hlost rfl ?_ ?_
      · rw [← hparked, Function.update_eq_self]
      · rw [hparked]
        exact (List.append_nil _).symm

/-- **`on_command` does what the loop expects**, where it finds the connection. -/
theorem onCommand_applies {d : ClientDriver Q} {ch : ConnectionHandle} (cmd : Cmd) (now : Instant)
    (h : Drives.takes d ch = true) : ∃ s, Applies d ch cmd now s (d.onCommand ch cmd now) := by
  obtain ⟨hch, hstate⟩ := Bool.and_eq_true_iff.mp h
  obtain rfl : ch = d.handle := of_decide_eq_true hch
  obtain ⟨s, hs⟩ := Option.isSome_iff_exists.mp hstate
  have hcommand : d.onCommand d.handle cmd now =
      { d with
        core := { d.core with
          connections := d.core.connections.insert d.handle (d.parked.applyCmd s cmd now).core }
        parked := (d.parked.applyCmd s cmd now).parked
        replies := d.replies ++ (d.parked.applyCmd s cmd now).sent } := by
    unfold onCommand withState
    rw [if_pos rfl, hs]
  rw [hcommand]
  refine ⟨s, hs, ?_, ?_, ?_⟩ <;> rw [parked_self]
  · rfl
  · exact d.parked_update _
  · rfl

theorem onCommand_drops {d : ClientDriver Q} {ch : ConnectionHandle} (cmd : Cmd) (now : Instant)
    (h : Drives.takes d ch = false) : d.onCommand ch cmd now = d := by
  unfold onCommand withState
  split
  · rename_i hch
    split
    · rename_i s hs
      rw [← hch] at hs
      refine absurd h ?_
      show ¬ (decide (ch = d.handle) && (d.core.connections.lookup ch).isSome) = false
      rw [decide_eq_true hch, hs]
      simp
    · rfl
  · rfl

/-- What the application was handed. -/
theorem holds_iff {d : ClientDriver Q} {ch : ConnectionHandle} :
    Drives.holds d ch = true ↔ ∃ conn, d.connected = .sent (.ok conn) ∧ conn.cmds = ch := by
  show (match d.connected with
    | .sent (.ok conn) => decide (conn.cmds = ch)
    | _ => false) = true ↔ _
  split
  · rename_i conn hconn
    refine ⟨fun h => ⟨conn, hconn, of_decide_eq_true h⟩, ?_⟩
    rintro ⟨conn', hconn', htag⟩
    rw [hconn] at hconn'
    rw [Except.ok.inj (Handoff.sent.inj hconn')]
    exact decide_eq_true htag
  · rename_i hnot
    refine ⟨fun h => absurd h (by simp), ?_⟩
    rintro ⟨conn, hconn, -⟩
    exact absurd hconn (hnot conn)

/-- The channel takes one value. -/
theorem Turns.used {d : ClientDriver Q} {e : Event} {r : ClientDriver Q × Bool} (h : Turns d e r)
    (hused : d.connected ≠ .held) : r.1.connected = d.connected := by
  cases h with
  | connected =>
    show d.surface.connected = _
    unfold surface
    split
    · rename_i hheld
      exact absurd hheld hused
    · rfl
    · rfl
  | lost =>
    show (match d.connected with
      | .held => Handoff.sent (.error .handshakeIncomplete)
      | taken => taken) = _
    split
    · rename_i hheld
      exact absurd hheld hused
    · rfl
  | idle _ hsame => exact hsame.connected

instance : LawfulDrives Q (ClientDriver Q) where
  Fits := Booked
  core_setCore := fun _ _ => rfl
  parked_setCore := fun _ _ => rfl
  replies_setCore := fun _ _ => rfl
  holds_setCore := fun _ _ => rfl
  fits_step := fun call _ h =>
    ⟨h.known.trans_le (Endpoint.le_nextGeneration_step _ call), h.tagged, h.inhabited⟩
  reacts := fun e _ => onEvent_reacts _ e
  fits_event := fun h _ _ => h.onEvent _
  holds_event := by
    intro d e ch h
    obtain ⟨conn, hconn, htag⟩ := holds_iff.mp h
    refine holds_iff.mpr ⟨conn, ((d.turns e).used ?_).trans hconn, htag⟩
    rw [hconn]
    exact Handoff.noConfusion
  applies := fun cmd now _ htakes => onCommand_applies cmd now htakes
  drops := fun cmd now htakes => onCommand_drops cmd now htakes
  fits_command := fun ch cmd now h => h.same (onCommand_same _ ch cmd now)
  holds_command := by
    intro d ch cmd now
    funext a
    rw [Bool.eq_iff_iff, holds_iff, holds_iff]
    exact exists_congr fun conn => and_congr_left fun _ =>
      (d.onCommand_same ch cmd now).connected ▸ Iff.rfl
  arm_same := fun {_ _ a _} => a.elim
  fits_arm := fun {_ _ a _} => a.elim
  holds_arm := fun {_ _ a _} => a.elim
  takes_of_holds := by
    intro d ch h hholds hlive
    obtain ⟨conn, hconn, rfl⟩ := holds_iff.mp hholds
    rw [h.tagged conn hconn] at hlive ⊢
    exact Bool.and_eq_true_iff.mpr ⟨decide_eq_true rfl, AList.lookup_isSome.mpr hlive⟩
  inhabited := fun h _ => h.inhabited
  unknown := by
    intro d ch h hgen
    have hne : ch ≠ d.handle := by
      rintro rfl
      exact absurd h.known (Nat.not_lt.mpr hgen)
    refine ⟨?_, if_neg hne⟩
    rw [← Bool.not_eq_true, holds_iff]
    rintro ⟨conn, hconn, rfl⟩
    exact hne (h.tagged conn hconn)

end ClientDriver

/-! ## The dial -/

/-- `connect_with_timeout`, and the driver it spawned. -/
structure Dial (Q : Quinn) where
  loop : Loop (ClientDriver Q)
  /-- What `connect` returned. -/
  result : Option (Except ClientError Connection)

/-- What can happen. -/
inductive DialMove (Q : Quinn) where
  /-- A move of the driver, or of the application on the handles it has. -/
  | drive (m : Move Q (ClientDriver Q))
  /-- `connected_rx` resolves. -/
  | resolve
  /-- The timeout elapses. -/
  | elapse
  /-- The driver sees the abort. -/
  | abort

namespace Dial

/-- A driver that was just spawned. -/
def spawn (core : Endpoint Q) (handle : ConnectionHandle) (now : Instant) : Dial Q where
  loop := .spawn (.new core handle) now
  result := none

/-- What awaiting `connected_rx` comes to, once it does. -/
def outcome (d : Dial Q) : Option (Except ClientError Connection) :=
  match d.loop.driver.connected with
  | .held => if d.loop.phase = .returned then some (.error .handshakeIncomplete) else none
  | .sent result => some result
  | .dropped => some (.error .handshakeIncomplete)

/-- One move. The application has handles once `connect` has returned the connection; a timeout
looks at the channel first. -/
def step (H : KeyedHash) (d : Dial Q) : DialMove Q → Dial Q
  | .drive (.issue ch cmd) =>
    match d.result with
    | some (.ok _) => { d with loop := d.loop.step H (.issue ch cmd) }
    | _ => d
  | .drive m => { d with loop := d.loop.step H m }
  | .resolve =>
    match d.result with
    | none => { d with result := d.outcome }
    | some _ => d
  | .elapse =>
    match d.result, d.outcome with
    | none, none => { d with result := some (.error .timedOut) }
    | _, _ => d
  | .abort =>
    match d.result with
    | some (.error .timedOut) => { d with loop := { d.loop with phase := .returned } }
    | _ => d

/-- The state a run of moves leaves. -/
def run (H : KeyedHash) (d : Dial Q) (moves : List (DialMove Q)) : Dial Q :=
  moves.foldl (fun d m => d.step H m) d

/-- Nothing, where the move is not enabled, or what its guard allows. -/
inductive Taken (H : KeyedHash) (d : Dial Q) : DialMove Q → Dial Q → Prop
  | idle (m) : Taken H d m d
  | drove (m) : Taken H d (.drive m) { d with loop := d.loop.step H m }
  | resolved {r} (hresult : d.result = none) (houtcome : d.outcome = some r) :
      Taken H d .resolve { d with result := some r }
  | elapsed (hresult : d.result = none) (houtcome : d.outcome = none) :
      Taken H d .elapse { d with result := some (.error .timedOut) }
  | aborted (hresult : d.result = some (.error .timedOut)) :
      Taken H d .abort { d with loop := { d.loop with phase := .returned } }

/-- **Every move does one of these.** -/
theorem taken (H : KeyedHash) (d : Dial Q) (m : DialMove Q) : Taken H d m (d.step H m) := by
  cases m with
  | drive m =>
    cases m with
    | issue ch cmd =>
      simp only [step]
      split
      · exact .drove _
      · exact .idle _
    | _ => exact .drove _
  | resolve =>
    simp only [step]
    split
    · rename_i hresult
      cases houtcome : d.outcome with
      | none =>
        have hsame : ({ d with result := none } : Dial Q) = d := by rw [← hresult]
        rw [hsame]
        exact .idle _
      | some r => exact .resolved hresult houtcome
    · exact .idle _
  | elapse =>
    simp only [step]
    split
    · rename_i hresult houtcome
      exact .elapsed hresult houtcome
    · exact .idle _
  | abort =>
    simp only [step]
    split
    · rename_i hresult
      exact .aborted hresult
    · exact .idle _

end Dial

end QuietQuic.Tokio
