import QuietQuic.Proto.Silence

/-!
# Where the transmitted bytes come from

quinn-proto hands out bytes in four places: a connection's `poll_transmit`, the response of
`handle`, and the buffer of an `accept` that succeeds or fails. `produced` is the record of all of
them over a run, in the order they were made; it reads the calls' own results and changes nothing.

* `pass_outbound`: a servicing pass queues exactly what its connections' `poll_transmit` answered.
* `transmits_conserved`: what `poll_transmit` has handed out, followed by what is still queued, is
  the record without its empty buffers, the responses on a client and the refused accepts.
-/

namespace QuietQuic.Proto

open QuietQuic.Lib

variable {Q : Quinn} {H : KeyedHash}

/-- Where quinn-proto produced bytes. -/
inductive ByteSource where
  | conn (ch : ConnectionHandle)
  | response (role : Role)
  | accepted (ch : ConnectionHandle)
  | refused
  deriving DecidableEq

/-- The sources whose bytes are sent: a client answers nothing at the endpoint level, and a refused
accept is silent. -/
def ByteSource.mayLeave : ByteSource → Bool
  | .conn _ | .response .server | .accepted _ => true
  | .response .client | .refused => false

/-- A record of produced bytes. -/
abbrev ByteLog := List (ByteSource × Transmit)

/-- What a record sends. -/
def ByteLog.leaving (log : ByteLog) : List Transmit :=
  (log.filter fun e => e.1.mayLeave && decide (e.2.contents ≠ [])).map Prod.snd

theorem ByteLog.leaving_append (log log' : ByteLog) :
    ByteLog.leaving (log ++ log') = log.leaving ++ ByteLog.leaving log' := by
  simp [ByteLog.leaving]

namespace Core

/-! ## The record of a call -/

/-- What `accept` produces. -/
def acceptProduces (core : Core Q) (now : Instant) (src : SocketAddr) (incoming : Q.Incoming) :
    ByteLog :=
  match (Q.accept core.inner core.serverConfig incoming now).out with
  | (some (quinn, conn), buf) =>
    [(.accepted ⟨quinn, core.nextGeneration⟩, ⟨Q.remoteAddress conn, buf⟩)]
  | (none, buf) => [(.refused, ⟨src, buf⟩)]

/-- What `feed` produces. -/
def feedProduces (core : Core Q) (now : Instant) (src : SocketAddr) (data : List UInt8)
    (admitted : Option Nat) : ByteLog :=
  let r := Q.handle core.inner core.serverConfig now src data
  (.response core.role, ⟨src, r.out.2⟩) ::
    match r.out.1, core.role, admitted with
    | some (.newConnection incoming), .server, some _ =>
      (core.handOver now src data).2.acceptProduces now src incoming
    | _, _, _ => []

/-- What `poll_transmit` answers while connection `ch` is drained. -/
def drainProduces (now : Instant) (ch : ConnectionHandle) (c : Q.Conn) : ByteLog :=
  (visited (transmitRound now) (Q.transmitRank c + 1) (c, [])).filterMap fun p =>
    (Q.pollTransmit p.1 now).1.map fun t => (.conn ch, ⟨t.1, t.2⟩)

/-- What a pass produces. -/
def passProduces (core : Core Q) (ord : IterOrder) (now : Instant) : ByteLog :=
  (core.handles ord).flatMap fun ch =>
    match (core.routed ord now).connections.lookup ch with
    | none => []
    | some s => drainProduces now ch s.serviceStreams.2.conn

end Core

namespace Endpoint

/-- What the feeding of a datagram produces. -/
def fedProduces (core : Core Q) (g : Gate) (now : Instant) (src : SocketAddr) (data : List UInt8) :
    ByteLog :=
  match g with
  | .rejected => []
  | .bypass => core.feedProduces now src data none
  | .admitted clientIdx => (install core clientIdx).feedProduces now src data (some clientIdx)

/-- What a public call produces before its pass. -/
def arrivalProduces (H : KeyedHash) (ep : Endpoint Q) : Call → ByteLog
  | .handleDatagram _ now src minute data =>
    fedProduces ep.toCore (ep.gate H now src minute data).1 now src data
  | _ => []

/-- What a public call produces. -/
def produces (H : KeyedHash) (ep : Endpoint Q) (call : Call) : ByteLog :=
  arrivalProduces H ep call ++
    match passStart H ep call with
    | some (core, ord, now) => core.passProduces ord now
    | none => []

/-- What a run produces. -/
def produced (H : KeyedHash) (ep : Endpoint Q) : List Call → ByteLog
  | [] => []
  | call :: calls => ep.produces H call ++ (ep.step H call).2.produced H calls

/-- The transmit an answer hands out. -/
def handed : Answer → List Transmit
  | .transmit t => t.toList
  | _ => []

/-- What `poll_transmit` hands out over a run. -/
def handedOut (H : KeyedHash) (ep : Endpoint Q) (calls : List Call) : List Transmit :=
  (answers H ep calls).flatMap handed

end Endpoint

/-! ## What is queued -/

namespace Core

/-- **Draining a connection** collects what `poll_transmit` answers, up to the first `None` or
empty buffer. -/
theorem drainTransmits_eq (now : Instant) (ch : ConnectionHandle) (c : Q.Conn) :
    (drainTransmits now c).2 = (drainProduces now ch c).leaving := by
  refine loop_visited (I := fun (l : List (Q.Conn × List Transmit)) p =>
    p.2 = ByteLog.leaving (l.filterMap fun p =>
      (Q.pollTransmit p.1 now).1.map fun t => (.conn ch, ⟨t.1, t.2⟩))) ?_ ?_ _ rfl
  · intro l p p' hI hround
    unfold transmitRound at hround
    split at hround
    · exact absurd hround (by simp)
    · rename_i destination buf c' hpoll
      split at hround
      · exact absurd hround (by simp)
      · rename_i hne
        obtain rfl := Ctl.again.inj hround
        rw [List.filterMap_append, ByteLog.leaving_append, ← hI]
        simp [ByteLog.leaving, ByteSource.mayLeave, hpoll, hne]
  · intro l p p' hI hround
    rw [List.filterMap_append, ByteLog.leaving_append, ← hI]
    unfold transmitRound at hround
    split at hround
    · rename_i c' hpoll
      obtain rfl := Ctl.done.inj hround
      simp [ByteLog.leaving, hpoll]
    · rename_i destination buf c' hpoll
      split at hround
      · rename_i hempty
        obtain rfl := Ctl.done.inj hround
        simp [ByteLog.leaving, hpoll, hempty]
      · exact absurd hround (by simp)

theorem outbound_routed (core : Core Q) (ord : IterOrder) (now : Instant) :
    (core.routed ord now).outbound = core.outbound :=
  routed_kept Core.outbound (fun _ _ _ _ _ _ => rfl) core ord now

/-- **A pass queues** what its connections' `poll_transmit` answered, connection by connection. -/
theorem pass_outbound (core : Core Q) (ord : IterOrder) (now : Instant) :
    (core.serviceConnections ord now).outbound =
      core.outbound ++ (core.passProduces ord now).leaving := by
  have hreap : ∀ lost (core' : Core Q), (core'.reapAll lost).outbound = core'.outbound := by
    intro lost core'
    induction lost generalizing core' with
    | nil => rfl
    | cons l lost ih =>
      refine (ih (core'.reap l)).trans ?_
      by_cases hl : l.1 ∈ core'.connections
      · rw [reap_eq hl]
      · rw [reap, if_neg hl]
  have hleaving : ByteLog.leaving (core.passProduces ord now) =
      (core.handles ord).flatMap fun ch => (stagedOf now (core.routed ord now) ch).transmits := by
    unfold passProduces
    induction core.handles ord with
    | nil => rfl
    | cons ch handles ih =>
      rw [List.flatMap_cons, ByteLog.leaving_append, ih, List.flatMap_cons]
      congr 1
      unfold stagedOf
      cases (core.routed ord now).connections.lookup ch with
      | none => rfl
      | some s => exact (drainTransmits_eq ..).symm
  rw [serviceConnections_eq]
  show (reapAll _ _).outbound = _
  rw [hreap]
  show (core.serviced ord now).1.outbound ++ (core.serviced ord now).2.transmits = _
  rw [serviced_eq, hleaving]
  unfold serviced
  rw [serviceAll_staged _ _ (nodup_handles core ord)]
  show (core.routed ord now).outbound ++ _ = _
  rw [outbound_routed]

/-- `handle` queues its response on a server. -/
theorem handOver_outbound (core : Core Q) (now : Instant) (src : SocketAddr) (data : List UInt8) :
    (core.handOver now src data).2.outbound = core.outbound ++ ByteLog.leaving
      [(.response core.role, ⟨src, (Q.handle core.inner core.serverConfig now src data).out.2⟩)] := by
  have hrole : (core.afterCall (Q.handle core.inner core.serverConfig now src data)).role =
      core.role := rfl
  unfold handOver
  dsimp only
  rw [hrole]
  cases core.role with
  | client => simp [ByteLog.leaving, ByteSource.mayLeave, afterCall]
  | server =>
    by_cases hbuf : (Q.handle core.inner core.serverConfig now src data).out.2 = []
    · simp [ByteLog.leaving, ByteSource.mayLeave, afterCall, hbuf]
    · simp [ByteLog.leaving, ByteSource.mayLeave, afterCall, pushTransmit, hbuf]

/-- `accept` queues its buffer when it succeeds. -/
theorem admitIncoming_outbound (core : Core Q) (now : Instant) (src : SocketAddr)
    (incoming : Q.Incoming) (clientIdx : Nat) :
    (core.admitIncoming now incoming clientIdx).2.outbound =
      core.outbound ++ (core.acceptProduces now src incoming).leaving := by
  unfold admitIncoming acceptProduces
  dsimp only
  cases (Q.accept core.inner core.serverConfig incoming now).out with
  | mk made buf =>
    cases made with
    | none => simp [ByteLog.leaving, ByteSource.mayLeave, afterCall]
    | some made =>
      obtain ⟨quinn, conn⟩ := made
      dsimp only
      rw [register_eq]
      by_cases hbuf : buf = []
      · simp [ByteLog.leaving, ByteSource.mayLeave, afterCall, hbuf]
      · simp [ByteLog.leaving, ByteSource.mayLeave, afterCall, hbuf]

/-- **Feeding a datagram queues** the response, and the buffer of an accept that succeeds. -/
theorem feed_outbound (core : Core Q) (now : Instant) (src : SocketAddr) (data : List UInt8)
    (admitted : Option Nat) :
    (core.feed now src data admitted).2.outbound =
      core.outbound ++ (core.feedProduces now src data admitted).leaving := by
  have hover := core.handOver_outbound now src data
  have hrole : (core.handOver now src data).2.role = core.role := by
    rw [handOver_eq]
    rfl
  have hev : (core.handOver now src data).1 =
      (Q.handle core.inner core.serverConfig now src data).out.1 := rfl
  have hcons : ∀ rest : ByteLog, ByteLog.leaving
      ((.response core.role, ⟨src, (Q.handle core.inner core.serverConfig now src data).out.2⟩) ::
        rest) =
      ByteLog.leaving [(.response core.role,
        ⟨src, (Q.handle core.inner core.serverConfig now src data).out.2⟩)] ++ rest.leaving :=
    fun rest => ByteLog.leaving_append [_] rest
  unfold feed feedProduces
  dsimp only
  rw [hcons, ← List.append_assoc, ← hover, hev, hrole]
  cases (Q.handle core.inner core.serverConfig now src data).out.1 with
  | none => exact (List.append_nil _).symm
  | some event =>
    cases event with
    | response => exact (List.append_nil _).symm
    | connectionEvent quinn cev =>
      unfold react
      dsimp only
      split
      · exact (List.append_nil _).symm
      · exact (List.append_nil _).symm
    | newConnection incoming =>
      unfold react
      cases hserver : core.role with
      | client =>
        rw [hrole, hserver]
        exact (List.append_nil _).symm
      | server =>
        cases admitted with
        | none => exact (List.append_nil _).symm
        | some clientIdx =>
          rw [hrole, hserver]
          exact admitIncoming_outbound ..

end Core

namespace Endpoint

theorem fed_outbound (core : Core Q) (g : Gate) (now : Instant) (src : SocketAddr)
    (data : List UInt8) :
    (fed core g now src data).2.outbound =
      core.outbound ++ (fedProduces core g now src data).leaving := by
  cases g with
  | rejected => exact (List.append_nil _).symm
  | bypass => exact core.feed_outbound now src data none
  | admitted clientIdx => exact (install core clientIdx).feed_outbound now src data (some clientIdx)

/-- Taking from the queue. -/
theorem popTransmit_outbound (core : Core Q) :
    core.popTransmit.1.toList ++ core.popTransmit.2.outbound = core.outbound := by
  unfold Core.popTransmit
  split
  · rename_i t rest hq
    rw [hq]
    rfl
  · rename_i hq
    rfl

/-- **One public call**: what it hands out and what it leaves queued is what was queued and what
it produced. -/
theorem step_outbound (ep : Endpoint Q) (call : Call) :
    handed (ep.step H call).1 ++ (ep.step H call).2.outbound =
      ep.outbound ++ (ep.produces H call).leaving := by
  unfold produces
  rw [ByteLog.leaving_append]
  cases call with
  | handleDatagram ord now src minute data =>
    show (ep.step H (.handleDatagram ord now src minute data)).2.toCore.outbound = _
    by_cases hg : (ep.gate H now src minute data).1 = .rejected
    · rw [step_of_rejected hg]
      simp [arrivalProduces, passStart, hg, fedProduces, ByteLog.leaving]
    · rw [step_of_gate hg, Core.pass_outbound, fed_outbound, List.append_assoc]
      simp only [arrivalProduces, passStart, if_neg hg]
  | handleTimeout ord now => exact (ep.fireTimers now).pass_outbound ord now
  | pollTransmit ord now =>
    show (ep.toCore.pollTransmit ord now).1.toList ++ (ep.toCore.pollTransmit ord now).2.outbound = _
    cases hq : ep.outbound with
    | nil =>
      have hpop : ep.toCore.popTransmit = (none, ep.toCore) := by
        unfold Core.popTransmit
        rw [hq]
      have hpass := ep.toCore.pass_outbound ord now
      rw [hq] at hpass
      unfold Core.pollTransmit
      rw [hpop]
      dsimp only
      rw [popTransmit_outbound, hpass]
      simp only [arrivalProduces, passStart, if_pos hq]
      rfl
    | cons t rest =>
      have hpop : ep.toCore.popTransmit = (some t, { ep.toCore with outbound := rest }) := by
        unfold Core.popTransmit
        rw [hq]
      unfold Core.pollTransmit
      rw [hpop]
      simp [arrivalProduces, passStart, hq, ByteLog.leaving]
  | pollEvent =>
    show ep.toCore.pollEvent.2.outbound = ep.outbound ++ []
    unfold Core.pollEvent
    rw [List.append_nil]
    split <;> rfl
  | conn ch c =>
    show (ep.toCore.onConn ch c).2.outbound = ep.outbound ++ []
    rw [Core.onConn_eq, List.append_nil]
  | nextTimeout => exact (List.append_nil _).symm
  | clientId ch => exact (List.append_nil _).symm
  | issuedCidCount => exact (List.append_nil _).symm

theorem run_outbound (calls : List Call) (ep : Endpoint Q) :
    handedOut H ep calls ++ (ep.run H calls).outbound =
      ep.outbound ++ (ep.produced H calls).leaving := by
  induction calls generalizing ep with
  | nil => exact (List.append_nil _).symm
  | cons call calls ih =>
    have hstep := ep.step_outbound (H := H) call
    have hrest := ih (ep.step H call).2
    unfold handedOut at hrest ⊢
    rw [answers, List.flatMap_cons, produced, ByteLog.leaving_append, ← List.append_assoc, ← hstep,
      List.append_assoc, List.append_assoc, ← hrest]
    rfl

/-! ## Who the bytes are for -/

/-- What a call may send, and why: what `poll_transmit` of a connection of the endpoint answers in
the call's pass; on a server, the response to the sender of a datagram that carried an issued CID
or passed the pre-filter in this call, and the buffer of the `accept` of one that passed it. -/
def Justified (H : KeyedHash) (ep : Endpoint Q) (call : Call) (t : Transmit) : ByteSource → Prop
  | .conn ch => ∃ core ord now s c, passStart H ep call = some (core, ord, now) ∧
      core.connections.lookup ch = some s ∧ Q.ConnSteps (fun _ => True) s.conn c ∧
      (Q.pollTransmit c now).1 = some (t.destination, t.contents)
  | .response _ => ep.role = .server ∧ ∃ ord now minute data,
      call = .handleDatagram ord now t.destination minute data ∧
      ((∃ dcid, Core.readDcidAny data = some dcid ∧ dcid ∈ ep.issuedCids) ∨
        ∃ clientIdx, (prefilter H ep.psks ep.replay minute data).1 = some clientIdx)
  | .accepted ch => ep.role = .server ∧ ∃ ord now src minute data clientIdx incoming conn,
      call = .handleDatagram ord now src minute data ∧
      (prefilter H ep.psks ep.replay minute data).1 = some clientIdx ∧
      (Q.handle ep.inner (install ep.toCore clientIdx).serverConfig now src data).out.1 =
        some (.newConnection incoming) ∧
      (Q.accept (Q.handle ep.inner (install ep.toCore clientIdx).serverConfig now src data).ep
        (install ep.toCore clientIdx).serverConfig incoming now).out =
          (some (ch.quinn, conn), t.contents) ∧
      t.destination = Q.remoteAddress conn
  | .refused => False

/-- The polls of a drain are made on the connection, as the polls before left it. -/
theorem drainProduces_steps {now : Instant} {ch : ConnectionHandle} {c : Q.Conn}
    {e : ByteSource × Transmit} (he : e ∈ Core.drainProduces now ch c) :
    e.1 = .conn ch ∧ ∃ c', Q.ConnSteps (fun _ => True) c c' ∧
      (Q.pollTransmit c' now).1 = some (e.2.destination, e.2.contents) := by
  obtain ⟨p, hp, hmap⟩ := List.mem_filterMap.mp he
  obtain ⟨t, hpoll, rfl⟩ := Option.map_eq_some_iff.mp hmap
  refine ⟨rfl, p.1, ?_, hpoll⟩
  have hround : ∀ (l : List (Q.Conn × List Transmit)) (p p' : Q.Conn × List Transmit),
      ((∀ q ∈ l, Q.ConnSteps (fun _ => True) c q.1) ∧ Q.ConnSteps (fun _ => True) c p.1) →
      (Core.transmitRound now p = .again p' ∨ Core.transmitRound now p = .done p') →
      (∀ q ∈ l ++ [p], Q.ConnSteps (fun _ => True) c q.1) ∧
        Q.ConnSteps (fun _ => True) c p'.1 := by
    intro l p p' hI hp
    refine ⟨fun q hq => ?_, ?_⟩
    · rcases List.mem_append.mp hq with hq | hq
      · exact hI.1 q hq
      · rw [List.mem_singleton.mp hq]
        exact hI.2
    · rw [Core.transmitRound_conn hp]
      exact hI.2.tail ⟨_, trivial, .transmit p.1 now⟩
  have hvisited := loop_visited (I := fun (l : List (Q.Conn × List Transmit)) p =>
      (∀ q ∈ l, Q.ConnSteps (fun _ => True) c q.1) ∧ Q.ConnSteps (fun _ => True) c p.1)
    (fun l p p' hI h => hround l p p' hI (.inl h)) (fun l p p' hI h => hround l p p' hI (.inr h))
    (Q.transmitRank c + 1) (s := (c, [])) ⟨by simp, .refl⟩
  exact hvisited.1 p hp

/-- What a pass produces is its connections' own. -/
theorem passProduces_justified {ep : Endpoint Q} {call : Call} {core : Core Q} {ord : IterOrder}
    {now : Instant} (hstart : passStart H ep call = some (core, ord, now))
    {e : ByteSource × Transmit} (he : e ∈ core.passProduces ord now) :
    Justified H ep call e.2 e.1 := by
  obtain ⟨ch, -, he⟩ := List.mem_flatMap.mp he
  split at he
  · exact absurd he List.not_mem_nil
  · rename_i s hs
    obtain ⟨hsrc, c, hdrain, hpoll⟩ := drainProduces_steps he
    obtain ⟨s₀, hs₀, hrouted⟩ :=
      Core.routeAll_moved (core.handles ord) { core with lastService := some now } ch s hs
    rw [hsrc]
    refine ⟨core, ord, now, s₀, c, hstart, hs₀, ?_, hpoll⟩
    have hserviced := (ConnState.serviceStreams_steps s).mono (R := fun _ => True) fun _ _ => trivial
    exact ((hrouted.mono fun _ _ => trivial).trans hserviced).trans hdrain

/-- What `accept` produces and sends is the buffer of one that succeeded. -/
theorem acceptProduces_sends {core : Core Q} {now : Instant} {src : SocketAddr}
    {incoming : Q.Incoming} {e : ByteSource × Transmit}
    (he : e ∈ core.acceptProduces now src incoming) (hleaves : e.1.mayLeave = true) :
    ∃ ch conn, e.1 = .accepted ch ∧
      (Q.accept core.inner core.serverConfig incoming now).out =
        (some (ch.quinn, conn), e.2.contents) ∧ e.2.destination = Q.remoteAddress conn := by
  unfold Core.acceptProduces at he
  split at he
  · rename_i quinn conn buf hacc
    rw [List.mem_singleton.mp he]
    exact ⟨_, conn, rfl, hacc, rfl⟩
  · rw [List.mem_singleton.mp he] at hleaves
    exact absurd hleaves (by simp [ByteSource.mayLeave])

/-- What the feeding of a datagram produces and sends. -/
theorem feedProduces_sends {core : Core Q} {now : Instant} {src : SocketAddr} {data : List UInt8}
    {admitted : Option Nat} {e : ByteSource × Transmit}
    (he : e ∈ core.feedProduces now src data admitted) (hleaves : e.1.mayLeave = true) :
    core.role = .server ∧
      ((e.1 = .response .server ∧ e.2.destination = src) ∨
        ∃ clientIdx ch incoming conn, admitted = some clientIdx ∧ e.1 = .accepted ch ∧
          (Q.handle core.inner core.serverConfig now src data).out.1 =
            some (.newConnection incoming) ∧
          (Q.accept (Q.handle core.inner core.serverConfig now src data).ep core.serverConfig
            incoming now).out = (some (ch.quinn, conn), e.2.contents) ∧
          e.2.destination = Q.remoteAddress conn) := by
  unfold Core.feedProduces at he
  rcases List.mem_cons.mp he with rfl | he
  · cases hrole : core.role with
    | client =>
      rw [hrole] at hleaves
      exact absurd hleaves (by simp [ByteSource.mayLeave])
    | server => exact ⟨rfl, .inl ⟨rfl, rfl⟩⟩
  · split at he
    · rename_i incoming clientIdx hout hrole _
      obtain ⟨ch, conn, hsrc, hacc, hdst⟩ := acceptProduces_sends he hleaves
      rw [Core.handOver_eq] at hacc
      exact ⟨hrole, .inr ⟨clientIdx, ch, incoming, conn, rfl, hsrc, hout, hacc, hdst⟩⟩
    · exact absurd he List.not_mem_nil

/-- **What a call produces and sends is justified.** -/
theorem produces_justified {ep : Endpoint Q} {call : Call} {e : ByteSource × Transmit}
    (he : e ∈ ep.produces H call) (hleaves : e.1.mayLeave = true) :
    Justified H ep call e.2 e.1 := by
  rcases List.mem_append.mp he with he | he
  · cases call with
    | handleDatagram ord now src minute data =>
      simp only [arrivalProduces] at he
      cases hg : (ep.gate H now src minute data).1 with
      | rejected =>
        rw [hg] at he
        exact absurd he List.not_mem_nil
      | bypass =>
        rw [hg] at he
        obtain ⟨hserver, ⟨hsrc, hdst⟩ | ⟨_, _, _, _, hadm, -⟩⟩ := feedProduces_sends he hleaves
        · rw [hsrc]
          refine ⟨hserver, ord, now, minute, data, ?_, .inl (gate_bypass hserver hg)⟩
          rw [hdst]
        · exact absurd hadm (by simp)
      | admitted idx =>
        rw [hg] at he
        obtain ⟨-, -, hpre⟩ := gate_admitted hg
        obtain ⟨hserver, ⟨hsrc, hdst⟩ | ⟨idx', ch, incoming, conn, hadm, hsrc, hout, hacc, hdst⟩⟩ :=
          feedProduces_sends he hleaves
        · rw [hsrc]
          refine ⟨hserver, ord, now, minute, data, ?_, .inr ⟨idx, hpre⟩⟩
          rw [hdst]
        · rw [hsrc]
          exact ⟨hserver, ord, now, src, minute, data, idx, incoming, conn, rfl, hpre, hout, hacc,
            hdst⟩
    | _ => exact absurd he List.not_mem_nil
  · split at he
    · rename_i core ord now hstart
      exact passProduces_justified hstart he
    · exact absurd he List.not_mem_nil

/-- **Transmit provenance.** In every run of either role, over any quinn-proto: the transmits that
`poll_transmit` has handed out, followed by the ones still queued, are everything quinn-proto
produced, in order, without its empty buffers, the endpoint-level responses on a client and the
bytes of refused accepts; and each of them is justified by the call that produced it. -/
theorem transmits_conserved (H : KeyedHash) (ep₀ : Endpoint Q) (hnew : IsNew H ep₀)
    (calls : List Call) :
    handedOut H ep₀ calls ++ (ep₀.run H calls).outbound = (ep₀.produced H calls).leaving ∧
    ∀ before call after, calls = before ++ call :: after →
      ∀ e ∈ (ep₀.run H before).produces H call, e.1.mayLeave = true →
        Justified H (ep₀.run H before) call e.2 e.1 := by
  refine ⟨?_, fun before call after _ e he hleaves => produces_justified he hleaves⟩
  have hempty : ep₀.outbound = [] := by
    rcases hnew with ⟨tls, secrets, h⟩ | ⟨tls, now, minute, cfg, ch, h⟩
    · obtain ⟨clients, -, hcore⟩ := newServer_core h
      rw [hcore]
      rfl
    · obtain ⟨dialCfg, conn, -, -, hcore⟩ := newClient_core h
      rw [hcore]
      rfl
  rw [run_outbound, hempty, List.nil_append]

theorem transmits_conserved_client :
    IsNew zeroHash miniClient ∧
      handedOut zeroHash miniClient [.pollTransmit keyOrder 0] = [⟨miniAddr, [0x40]⟩] ∧
      handedOut zeroHash miniClient [.pollTransmit keyOrder 0] ++
          (miniClient.run zeroHash [.pollTransmit keyOrder 0]).outbound =
        (miniClient.produced zeroHash [.pollTransmit keyOrder 0]).leaving :=
  ⟨miniClient_new, by decide +kernel,
    (transmits_conserved zeroHash miniClient miniClient_new [.pollTransmit keyOrder 0]).1⟩

end Endpoint

end QuietQuic.Proto
