import QuietQuic.Proto.Routing

/-!
# Who minted a CID

quinn-proto mints CIDs inside its calls, and quietquic gives what is pending to whichever
connection it drains for next. `MintedIn` says where a CID was minted, and `mintLog` is the record
of a run: it reads the calls' own results and changes nothing. `Ledger` relates it to the tables.

* `cids_attributed`: in every run in which no datagram past the gates of a server makes `handle`
  both mint a CID and answer with a new connection, every CID of a connection was minted for it.
* `stray_misattributed`: such a datagram returns before the sweep, and the pass that follows gives
  the CID to a connection that has nothing to do with it.
-/

namespace QuietQuic.Proto

open QuietQuic.Lib

variable {Q : Quinn} {H : KeyedHash}

/-- Where a CID was minted: in the `connect` or the feeding of a datagram that created `ch`, in an
`inner.handle_event` made for `ch`, or while feeding a datagram that created no connection. -/
inductive MintedIn where
  | creating (ch : ConnectionHandle)
  | event (ch : ConnectionHandle)
  | orphan
  deriving DecidableEq

/-- A record of minted CIDs. -/
abbrev MintLog := List (MintedIn × ConnectionId)

namespace Core

/-! ## The record of a call -/

/-- What `accept` adds to the record of an admitted datagram, and whom it is for. -/
def acceptMints (core : Core Q) (now : Instant) (incoming : Q.Incoming)
    (cids : List ConnectionId) : MintLog :=
  let r := Q.accept core.inner core.serverConfig incoming now
  match r.out.1 with
  | some (quinn, _) => (cids ++ r.minted).map (.creating ⟨quinn, core.nextGeneration⟩, ·)
  | none => (cids ++ r.minted).map (.orphan, ·)

/-- What `feed` mints: in `handle`, and in `accept` where it gets that far. -/
def feedMints (core : Core Q) (now : Instant) (src : SocketAddr) (data : List UInt8)
    (admitted : Option Nat) : MintLog :=
  let r := Q.handle core.inner core.serverConfig now src data
  match r.out.1, core.role, admitted with
  | some (.newConnection incoming), .server, some _ =>
    (core.handOver now src data).2.acceptMints now incoming r.minted
  | _, _, _ => r.minted.map (.orphan, ·)

/-- What one round of the endpoint-event loop of `ch` mints. -/
def roundMints (ch : ConnectionHandle) (core : Core Q) : List ConnectionId :=
  match core.connections.lookup ch with
  | none => []
  | some s =>
    match (Q.pollEndpointEvents s.conn).1 with
    | none => []
    | some ev => (Q.epHandleEvent core.inner ch.quinn ev).minted

/-- What the endpoint-event loop of `ch` mints. -/
def routeMints (core : Core Q) (ch : ConnectionHandle) : List ConnectionId :=
  (visited (routeRound ch) (routeRank ch core + 1) core).flatMap (roundMints ch)

/-- What stage 1 of a pass mints. -/
def routeAllMints (core : Core Q) : List ConnectionHandle → MintLog
  | [] => []
  | ch :: handles =>
    (core.routeMints ch).map (.event ch, ·) ++ (core.route ch).routeAllMints handles

/-- What a pass mints. -/
def passMints (core : Core Q) (ord : IterOrder) (now : Instant) : MintLog :=
  routeAllMints { core with lastService := some now } (core.handles ord)

/-- `handle` mints a CID for a datagram and answers a server with a new connection. -/
def StrayMint (core : Core Q) (now : Instant) (src : SocketAddr) (data : List UInt8) : Prop :=
  core.role = .server ∧ (Q.handle core.inner core.serverConfig now src data).minted ≠ [] ∧
    ∃ incoming, (Q.handle core.inner core.serverConfig now src data).out.1 =
      some (.newConnection incoming)

end Core

namespace Endpoint

/-- What the feeding of a datagram mints. -/
def fedMints (core : Core Q) (g : Gate) (now : Instant) (src : SocketAddr) (data : List UInt8) :
    MintLog :=
  match g with
  | .rejected => []
  | .bypass => core.feedMints now src data none
  | .admitted clientIdx => (install core clientIdx).feedMints now src data (some clientIdx)

/-- What a public call mints before its pass. -/
def arrivalMints (H : KeyedHash) (ep : Endpoint Q) : Call → MintLog
  | .handleDatagram _ now src minute data =>
    fedMints ep.toCore (ep.gate H now src minute data).1 now src data
  | _ => []

/-- What a public call mints. -/
def mints (H : KeyedHash) (ep : Endpoint Q) (call : Call) : MintLog :=
  arrivalMints H ep call ++
    match passStart H ep call with
    | some (core, ord, now) => core.passMints ord now
    | none => []

/-- What a run mints. -/
def mintLog (H : KeyedHash) (ep : Endpoint Q) : List Call → MintLog
  | [] => []
  | call :: calls => ep.mints H call ++ (ep.step H call).2.mintLog H calls

/-- What making an endpoint mints: nothing on a server, and on a client what `connect` mints for
the connection it makes. -/
inductive NewMints (H : KeyedHash) : Endpoint Q → MintLog → Prop
  | server {tls secrets ep} (h : newServer tls secrets = .ok ep) : NewMints H ep []
  | client {tls now minute cfg quicClient ep ch} (hcfg : tls.quicClientConfig = .ok quicClient)
      (h : newClient H tls now minute cfg = .ok (ep, ch)) :
      NewMints H ep ((Q.connect Q.new now (dialConfig H tls minute cfg quicClient) cfg.server
        SERVER_NAME).minted.map (.creating ch, ·))

/-- The call is not a datagram past the gates that makes `handle` mint and answer with a new
connection. -/
def NoStray (H : KeyedHash) (ep : Endpoint Q) : Call → Prop
  | .handleDatagram _ now src minute data =>
    (ep.gate H now src minute data).1 = .bypass → ¬ ep.StrayMint now src data
  | _ => True

/-- No call of the run is one. -/
def NoStrays (H : KeyedHash) : Endpoint Q → List Call → Prop
  | _, [] => True
  | ep, call :: calls => NoStray H ep call ∧ NoStrays H (ep.step H call).2 calls

end Endpoint

/-! ## The ledger -/

/-- The CIDs of the record were minted, each in one place. -/
structure Recorded (L : Q.FreshCids) (log : MintLog) (q : Q.Ep) : Prop where
  minted : ∀ e ∈ log, L.minted q e.2
  once : ∀ e ∈ log, ∀ e' ∈ log, e.2 = e'.2 → e.1 = e'.1

/-- What a call mints is new to the record. -/
theorem Recorded.call {L : Q.FreshCids} {log : MintLog} {q q' : Q.Ep} {l : Quinn.SlabEffect}
    {cids : List ConnectionId} (h : Recorded L log q) (hstep : Q.EpStep q l cids q')
    (t : MintedIn) : Recorded L (log ++ cids.map (t, ·)) q' := by
  obtain ⟨-, hnew, hafter⟩ := L.step hstep
  have hcases : ∀ e ∈ log ++ cids.map (t, ·), e ∈ log ∨ e.2 ∈ cids ∧ e.1 = t := by
    intro e he
    rcases List.mem_append.mp he with he | he
    · exact .inl he
    · obtain ⟨cid, hcid, rfl⟩ := List.mem_map.mp he
      exact .inr ⟨hcid, rfl⟩
  constructor
  · intro e he
    rcases hcases e he with he | ⟨he, -⟩
    · exact (hafter _).mpr (.inl (h.minted e he))
    · exact (hafter _).mpr (.inr he)
  · intro e he e' he' heq
    rcases hcases e he with he | ⟨he, htag⟩
    · rcases hcases e' he' with he' | ⟨he', -⟩
      · exact h.once e he e' he' heq
      · exact absurd (heq ▸ h.minted e he) (hnew _ he').1
    · rcases hcases e' he' with he' | ⟨-, htag'⟩
      · exact absurd (heq.symm ▸ h.minted e' he') (hnew _ he).1
      · rw [htag, htag']

/-- The record agrees with the tables: every CID of a connection was minted for it, and nothing is
pending. -/
structure Ledger (L : Q.FreshCids) (log : MintLog) (core : Core Q) : Prop where
  recorded : Recorded L log core.inner
  owned : ∀ ch cid, core.Owns ch cid → (.creating ch, cid) ∈ log ∨ (.event ch, cid) ∈ log
  idle : core.pendingCids = []

namespace Ledger

variable {L : Q.FreshCids} {log : MintLog} {core core' : Core Q}

/-- The ledger reads these fields. -/
theorem frame (h : Ledger L log core) (hinner : core'.inner = core.inner)
    (hcids : ∀ ch cid, core'.Owns ch cid → core.Owns ch cid) (hidle : core'.pendingCids = []) :
    Ledger L log core' := by
  refine ⟨?_, fun ch cid hown => h.owned ch cid (hcids ch cid hown), hidle⟩
  rw [hinner]
  exact h.recorded

/-- CIDs minted for `ch` and drained for it. -/
theorem drained {cids : List ConnectionId} {ch : ConnectionHandle} {t : MintedIn}
    (h : Ledger L log core) (hrec : Recorded L (log ++ cids.map (t, ·)) core'.inner)
    (howns : ∀ a cid, core'.Owns a cid → core.Owns a cid ∨ a = ch ∧ cid ∈ cids)
    (hidle : core'.pendingCids = []) (ht : t = .creating ch ∨ t = .event ch) :
    Ledger L (log ++ cids.map (t, ·)) core' := by
  refine ⟨hrec, fun a cid hown => ?_, hidle⟩
  rcases howns a cid hown with hown | ⟨rfl, hcid⟩
  · exact (h.owned a cid hown).imp (List.mem_append_left _) (List.mem_append_left _)
  · have hmem : (t, cid) ∈ log ++ cids.map (t, ·) :=
      List.mem_append_right _ (List.mem_map_of_mem hcid)
    rcases ht with rfl | rfl
    · exact .inl hmem
    · exact .inr hmem

/-- CIDs minted for no connection, and not drained. -/
theorem orphaned {cids : List ConnectionId} (h : Ledger L log core)
    (hrec : Recorded L (log ++ cids.map (.orphan, ·)) core'.inner)
    (hcids : core'.cidsByConn = core.cidsByConn) (hidle : core'.pendingCids = []) :
    Ledger L (log ++ cids.map (.orphan, ·)) core' := by
  refine ⟨hrec, fun a cid hown => ?_, hidle⟩
  have hold : core.Owns a cid := by
    rw [Core.owns_iff] at hown ⊢
    rwa [← hcids]
  exact (h.owned a cid hold).imp (List.mem_append_left _) (List.mem_append_left _)

/-! ### Feeding a datagram -/

/-- No CID of the list is issued or pending. -/
def Gone (cids : List ConnectionId) (core : Core Q) : Prop :=
  ∀ cid ∈ cids, cid ∉ core.issuedCids ∧ cid ∉ core.pendingCids

/-- The sweep takes what is pending. -/
theorem gone_sweep {cids : List ConnectionId} (h : ∀ cid ∈ cids, cid ∈ core.pendingCids) :
    Gone cids core.sweepOrphanCids := by
  intro cid hcid
  refine ⟨fun hissued => ?_, List.not_mem_nil⟩
  exact ((mem_foldl_erase ..).mp hissued).2 (h cid hcid)

/-- The state after `handle` and before anything is swept. -/
theorem handOver_spec (core : Core Q) (now : Instant) (src : SocketAddr) (data : List UInt8) :
    (core.handOver now src data).2.inner =
        (Q.handle core.inner core.serverConfig now src data).ep ∧
      (core.handOver now src data).2.cidsByConn = core.cidsByConn ∧
      (core.handOver now src data).2.pendingCids = core.pendingCids ++
        (Q.handle core.inner core.serverConfig now src data).minted ∧
      (core.handOver now src data).2.role = core.role := by
  rw [Core.handOver_eq]
  exact ⟨rfl, rfl, rfl, rfl⟩

/-- What was minted for no connection, by the record. -/
def orphansOf (log : MintLog) : List ConnectionId :=
  log.filterMap fun e => if e.1 = .orphan then some e.2 else none

theorem orphansOf_orphan (cids : List ConnectionId) :
    orphansOf (cids.map (.orphan, ·)) = cids := by
  simp [orphansOf, List.filterMap_map]

theorem orphansOf_creating (ch : ConnectionHandle) (cids : List ConnectionId) :
    orphansOf (cids.map (.creating ch, ·)) = [] := by
  simp [orphansOf, List.filterMap_map]

/-- A datagram that reaches no `accept`, swept. -/
theorem feed_swept (h : Ledger L log core) {now : Instant} {src : SocketAddr} {data : List UInt8}
    (hinner : core'.inner = (core.handOver now src data).2.inner)
    (hcids : core'.cidsByConn = (core.handOver now src data).2.cidsByConn)
    (hpending : core'.pendingCids = (core.handOver now src data).2.pendingCids) :
    Ledger L (log ++ (Q.handle core.inner core.serverConfig now src data).minted.map (.orphan, ·))
        core'.sweepOrphanCids ∧
      Gone (Q.handle core.inner core.serverConfig now src data).minted core'.sweepOrphanCids := by
  obtain ⟨hep, hsame, hmint, -⟩ := handOver_spec core now src data
  refine ⟨h.orphaned ?_ ?_ rfl, gone_sweep fun cid hcid => ?_⟩
  · show Recorded L _ core'.inner
    rw [hinner, hep]
    exact h.recorded.call (.handle ..) .orphan
  · exact hcids.trans hsame
  · rw [hpending, hmint]
    exact List.mem_append_right _ hcid

/-- A datagram that reaches `accept`: what is pending goes to the connection it makes, or is
swept. -/
theorem accepted (h : Ledger L log core) {cids : List ConnectionId}
    (hrec : ∀ t, Recorded L (log ++ cids.map (t, ·)) core'.inner)
    (hcids : core'.cidsByConn = core.cidsByConn) (hpending : core'.pendingCids = cids)
    (now : Instant) (incoming : Q.Incoming) (clientIdx : Nat) :
    Ledger L (log ++ core'.acceptMints now incoming cids)
        (core'.admitIncoming now incoming clientIdx).2.sweepOrphanCids ∧
      Gone (orphansOf (core'.acceptMints now incoming cids))
        (core'.admitIncoming now incoming clientIdx).2.sweepOrphanCids := by
  unfold Core.acceptMints Core.admitIncoming
  dsimp only
  cases hacc : (Q.accept core'.inner core'.serverConfig incoming now).out with
  | mk made buf =>
    cases made with
    | none =>
      dsimp only
      rw [orphansOf_orphan]
      refine ⟨h.orphaned ?_ hcids rfl, gone_sweep fun cid hcid => ?_⟩
      · rw [List.map_append, ← List.append_assoc]
        exact (hrec .orphan).call (.acceptErr _ _ _ _ _ hacc) .orphan
      · rw [← hpending] at hcid
        exact hcid
    | some made =>
      obtain ⟨quinn, conn⟩ := made
      dsimp only
      rw [orphansOf_creating, Core.register_eq]
      refine ⟨h.drained ?_ (fun a cid hown => ?_) rfl (.inl rfl), fun _ h => absurd h List.not_mem_nil⟩
      · rw [List.map_append, ← List.append_assoc]
        exact (hrec _).call (.acceptOk _ _ _ _ _ _ _ hacc) _
      · have hown' := (Core.owns_drained (core'.afterCall
          (Q.accept core'.inner core'.serverConfig incoming now)) rfl a cid).mp hown
        rw [Core.owns_iff] at hown' ⊢
        simp only [Core.afterCall, hcids, hpending] at hown'
        exact hown'

/-- **Feeding a datagram keeps the ledger**, and what it minted for no connection is gone before
anything is serviced, unless the datagram makes `handle` mint and answer with a new connection. -/
theorem feed (h : Ledger L log core) (now : Instant) (src : SocketAddr) (data : List UInt8)
    {admitted : Option Nat} (hno : admitted = none → ¬ core.StrayMint now src data) :
    Ledger L (log ++ core.feedMints now src data admitted) (core.feed now src data admitted).2 ∧
      Gone (orphansOf (core.feedMints now src data admitted))
        (core.feed now src data admitted).2 := by
  obtain ⟨hep, hcids, hpending, hrole⟩ := handOver_spec core now src data
  rw [h.idle, List.nil_append] at hpending
  have hev : (core.handOver now src data).1 =
      (Q.handle core.inner core.serverConfig now src data).out.1 := rfl
  unfold Core.feed Core.feedMints
  dsimp only
  rw [hev, hrole]
  cases hout : (Q.handle core.inner core.serverConfig now src data).out.1 with
  | none =>
    dsimp only
    rw [orphansOf_orphan]
    exact h.feed_swept rfl rfl rfl
  | some event =>
    cases event with
    | response =>
      dsimp only
      rw [orphansOf_orphan]
      exact h.feed_swept rfl rfl rfl
    | connectionEvent quinn cev =>
      dsimp only
      rw [orphansOf_orphan]
      unfold Core.react
      dsimp only
      split
      · exact h.feed_swept rfl rfl rfl
      · exact h.feed_swept rfl rfl rfl
    | newConnection incoming =>
      cases hserver : core.role with
      | client =>
        dsimp only
        rw [orphansOf_orphan]
        unfold Core.react
        rw [hrole, hserver]
        exact h.feed_swept rfl rfl rfl
      | server =>
        cases admitted with
        | none =>
          -- the early return: nothing was minted, so nothing is left pending
          have hnil : (Q.handle core.inner core.serverConfig now src data).minted = [] := by
            by_contra hne
            exact hno rfl ⟨hserver, hne, incoming, hout⟩
          dsimp only
          rw [hnil, List.map_nil, List.append_nil]
          rw [hnil] at hpending
          have hrec := h.recorded.call (.handle core.inner core.serverConfig now src data) .orphan
          rw [hnil, List.map_nil, List.append_nil, ← hep] at hrec
          refine ⟨⟨hrec, fun a cid hown => h.owned a cid ?_, hpending⟩, fun cid hcid => ?_⟩
          · rw [Core.owns_iff] at hown ⊢
            rwa [← hcids]
          · exact absurd hcid List.not_mem_nil
        | some clientIdx =>
          dsimp only
          unfold Core.react
          rw [hrole, hserver]
          refine h.accepted (fun t => ?_) hcids hpending now incoming clientIdx
          rw [hep]
          exact h.recorded.call (.handle ..) t

theorem fed (h : Ledger L log core) {g : Endpoint.Gate} {now : Instant} {src : SocketAddr}
    {data : List UInt8} (hno : g = .bypass → ¬ core.StrayMint now src data) :
    Ledger L (log ++ Endpoint.fedMints core g now src data) (Endpoint.fed core g now src data).2 ∧
      Gone (orphansOf (Endpoint.fedMints core g now src data))
        (Endpoint.fed core g now src data).2 := by
  cases g with
  | rejected =>
    refine ⟨?_, fun cid hcid => absurd hcid List.not_mem_nil⟩
    rw [Endpoint.fedMints, List.append_nil]
    exact h
  | bypass => exact h.feed now src data fun _ => hno rfl
  | admitted clientIdx =>
    have hinstall : Ledger L log (Endpoint.install core clientIdx) :=
      h.frame rfl (fun _ _ hown => hown) h.idle
    exact hinstall.feed now src data fun hnone => absurd hnone (by simp)

/-! ### Through a pass -/

theorem deliver (h : Ledger L log core) (ch : ConnectionHandle) (c : Q.Conn) (ev : Q.EpEvent) :
    Ledger L (log ++ (Q.epHandleEvent core.inner ch.quinn ev).minted.map (.event ch, ·))
      (core.deliver ch c ev) := by
  have hidle := h.idle
  rw [Core.deliver_eq, Core.drainPendingCids_eq]
  refine h.drained ?_ (fun a cid hown => ?_) rfl (.inr rfl)
  · exact h.recorded.call (.ofEvent core.inner ch.quinn ev) _
  · have hown' := (Core.owns_drained (core.afterCall (Q.epHandleEvent core.inner ch.quinn ev)) rfl
      a cid).mp hown
    rw [Core.owns_iff] at hown' ⊢
    simp only [Core.afterCall, hidle, List.nil_append] at hown'
    exact hown'

theorem route (h : Ledger L log core) (ch : ConnectionHandle) :
    Ledger L (log ++ (core.routeMints ch).map (.event ch, ·)) (core.route ch) := by
  refine loop_visited (I := fun l core' =>
    Ledger L (log ++ (l.flatMap (Core.roundMints ch)).map (.event ch, ·)) core') ?_ ?_ _
    (by simpa using h)
  · intro l core' core'' hI hround
    obtain ⟨s, ev, c, hs, hpoll, rfl⟩ := Core.routeRound_again hround
    have hmints : Core.roundMints ch core' =
        (Q.epHandleEvent core'.inner ch.quinn ev).minted := by
      simp [Core.roundMints, hs, hpoll]
    rw [List.flatMap_append, List.map_append, ← List.append_assoc, List.flatMap_singleton, hmints]
    exact hI.deliver ch c ev
  · intro l core' core'' hI hround
    have hnone : Core.roundMints ch core' = [] := by
      obtain ⟨hs, -⟩ | ⟨s, c, hs, hpoll, -⟩ := Core.routeRound_done hround
      · simp [Core.roundMints, hs]
      · simp [Core.roundMints, hs, hpoll]
    rw [List.flatMap_append, List.flatMap_singleton, hnone, List.append_nil]
    obtain ⟨-, rfl⟩ | ⟨s, c, -, -, rfl⟩ := Core.routeRound_done hround
    · exact hI
    · exact hI.frame rfl (fun _ _ hown => hown) hI.idle

theorem routeAll (handles : List ConnectionHandle) (h : Ledger L log core) :
    Ledger L (log ++ core.routeAllMints handles) (core.routeAll handles) := by
  induction handles generalizing core log with
  | nil =>
    rw [Core.routeAllMints, List.append_nil]
    exact h
  | cons ch handles ih =>
    rw [Core.routeAllMints, ← List.append_assoc]
    exact ih (h.route ch)

/-- **A pass keeps the ledger**: only stage 1 mints, and each time for the connection it drains
for. -/
theorem pass (h : Ledger L log core) (ord : IterOrder) (now : Instant) :
    Ledger L (log ++ core.passMints ord now) (core.serviceConnections ord now) := by
  have hstart : Ledger L log { core with lastService := some now } :=
    h.frame rfl (fun _ _ hown => hown) h.idle
  have hrouted : Ledger L (log ++ core.passMints ord now) (core.routed ord now) :=
    hstart.routeAll (core.handles ord)
  have hserviced : Ledger L (log ++ core.passMints ord now) (core.serviced ord now).1 := by
    rw [Core.serviced_eq]
    exact hrouted.frame rfl (fun _ _ hown => hown) hrouted.idle
  have hreaped : Ledger L (log ++ core.passMints ord now)
      (((core.serviced ord now).1.flush (core.serviced ord now).2).reapAll
        (core.serviced ord now).2.lost) := by
    refine Core.reapAll_inv (I := Ledger L (log ++ core.passMints ord now))
      (fun core l _ hI hl => ?_) (hserviced.frame rfl (fun _ _ hown => hown) hserviced.idle)
    refine hI.frame ?_ (fun a cid hown => ((Core.owns_reap hl a cid).mp hown).2) ?_
    · rw [Core.reap_eq hl]
    · rw [Core.reap_eq hl]
      exact hI.idle
  exact hreaped.frame rfl (fun _ _ hown => hown) rfl

end Ledger

/-! ## Whole runs -/

namespace Endpoint

variable {L : Q.FreshCids} {log : MintLog} {ep : Endpoint Q}

/-- Where a pass starts, the ledger has what the datagram minted, and its orphans are gone. -/
theorem ledger_passStart (h : Ledger L log ep.toCore) {call : Call} (hno : NoStray H ep call)
    {core : Core Q} {ord : IterOrder} {now : Instant}
    (hstart : passStart H ep call = some (core, ord, now)) :
    Ledger L (log ++ arrivalMints H ep call) core ∧
      Ledger.Gone (Ledger.orphansOf (arrivalMints H ep call)) core := by
  cases passStart_starts hstart with
  | datagram => exact h.fed hno
  | timeout =>
    refine ⟨?_, fun cid hcid => absurd hcid List.not_mem_nil⟩
    show Ledger L (log ++ []) _
    rw [List.append_nil]
    exact h.frame rfl (fun _ _ hown => hown) h.idle
  | transmit =>
    refine ⟨?_, fun cid hcid => absurd hcid List.not_mem_nil⟩
    show Ledger L (log ++ []) _
    rw [List.append_nil]
    exact h

theorem arrivalMints_of_no_pass {call : Call} (h : passStart H ep call = none) :
    arrivalMints H ep call = [] := by
  cases call with
  | handleDatagram ord now src minute data =>
    rw [arrivalMints, gate_of_no_pass h]
    rfl
  | _ => rfl

/-- **A public call keeps the ledger.** -/
theorem ledger_step (h : Ledger L log ep.toCore) {call : Call} (hno : NoStray H ep call) :
    Ledger L (log ++ mints H ep call) (ep.step H call).2.toCore := by
  unfold mints
  cases hstart : passStart H ep call with
  | some start =>
    obtain ⟨core, ord, now⟩ := start
    obtain ⟨outbound, heq⟩ := step_of_pass hstart
    have hpass := (ledger_passStart h hno hstart).1.pass ord now
    rw [heq, ← List.append_assoc]
    exact hpass.frame rfl (fun _ _ hown => hown) hpass.idle
  | none =>
    rw [arrivalMints_of_no_pass hstart]
    simp only [List.append_nil]
    obtain ⟨ch, c, -, heq⟩ | ⟨outbound, events, heq⟩ := step_of_no_pass hstart
    · rw [heq, Core.onConn_eq]
      exact h.frame rfl (fun _ _ hown => hown) h.idle
    · rw [heq]
      exact h.frame rfl (fun _ _ hown => hown) h.idle

theorem ledger_run (calls : List Call) (h : Ledger L log ep.toCore) (hno : NoStrays H ep calls) :
    Ledger L (log ++ mintLog H ep calls) (ep.run H calls).toCore := by
  induction calls generalizing ep log with
  | nil =>
    rw [mintLog, List.append_nil]
    exact h
  | cons call calls ih =>
    rw [mintLog, ← List.append_assoc]
    exact ih (ledger_step h hno.1) hno.2

theorem ledger_fresh (L : Q.FreshCids) (role : Role) (clients : List (ClientCrypto Q))
    (lastService : Option Instant) : Ledger L [] (Core.fresh role clients lastService) := by
  refine ⟨⟨by simp, by simp⟩, fun ch cid hown => ?_, rfl⟩
  rw [Core.owns_iff] at hown
  simp [Core.fresh] at hown

/-- The tables of a client endpoint around the connection `connect` made. -/
theorem dialed_tables (r : Minting Q.Ep (Except String (QuinnHandle × Q.Conn))) (now : Instant)
    (quinn : QuinnHandle) (conn : Q.Conn) :
    (dialed r now quinn conn).1.inner = r.ep ∧
      (dialed r now quinn conn).1.cidsByConn =
        (((Core.fresh .client [] (some now)).afterCall r).drainPendingCids
          (dialed r now quinn conn).2).cidsByConn ∧
      (dialed r now quinn conn).1.pendingCids = [] := by
  unfold dialed
  simp only [Core.drainPendingCids_eq]
  exact ⟨rfl, rfl, rfl⟩

theorem ledger_new (L : Q.FreshCids) (h : NewMints H ep log) : Ledger L log ep.toCore := by
  cases h with
  | server h =>
    obtain ⟨clients, -, hcore⟩ := newServer_core h
    rw [hcore]
    exact ledger_fresh L ..
  | @client tls now minute cfg quicClient _ ch hcfg h =>
    simp only [newClient, hcfg] at h
    split at h
    · exact absurd h (by simp)
    · rename_i quinn conn hout
      obtain rfl := congrArg Prod.fst (Except.ok.inj h)
      obtain rfl := congrArg Prod.snd (Except.ok.inj h)
      obtain ⟨hinner, hcids, hidle⟩ := dialed_tables (Q.connect Q.new now
        (dialConfig H tls minute cfg quicClient) cfg.server SERVER_NAME) now quinn conn
      have hfresh := ledger_fresh L .client ([] : List (ClientCrypto Q)) (some now)
      rw [← List.nil_append (List.map ..)]
      refine hfresh.drained ?_ (fun a cid hown => ?_) hidle (.inl rfl)
      · rw [hinner]
        exact hfresh.recorded.call (.connectOk _ _ _ _ _ _ _ hout) _
      · rw [Core.drainPendingCids_eq] at hcids
        exact (Core.owns_drained _ hcids a cid).mp hown

/-- A part of a run meets the condition, and so does the call after it. -/
theorem NoStrays.split {call : Call} {after : List Call} : ∀ {before : List Call} {ep : Endpoint Q},
    NoStrays H ep (before ++ call :: after) →
      NoStrays H ep before ∧ NoStray H (ep.run H before) call
  | [], _, h => ⟨trivial, h.1⟩
  | _ :: _, _, h => ⟨⟨h.1, (split h.2).1⟩, (split h.2).2⟩

end Endpoint

open Endpoint

/-- **A CID is attributed to the connection it was minted for.** In every run of either role in
which no datagram past a server's gates makes `handle` both mint and answer with a new connection:
every CID of a connection was minted in the call that created it, or in an `inner.handle_event`
made for it; what the feeding of a datagram mints for no connection is neither issued nor pending
any more where the pass of that call starts, and is never any connection's. -/
theorem cids_attributed (H : KeyedHash) (L : Q.FreshCids) (ep₀ : Endpoint Q) (log₀ : MintLog)
    (hnew : NewMints H ep₀ log₀) (calls : List Call) (hno : NoStrays H ep₀ calls) :
    (∀ ch cids cid, (ep₀.run H calls).cidsByConn.lookup ch = some cids → cid ∈ cids →
      (.creating ch, cid) ∈ log₀ ++ mintLog H ep₀ calls ∨
        (.event ch, cid) ∈ log₀ ++ mintLog H ep₀ calls) ∧
    (∀ before call after, calls = before ++ call :: after →
      ∀ core ord now, passStart H (ep₀.run H before) call = some (core, ord, now) →
        ∀ cid, (.orphan, cid) ∈ arrivalMints H (ep₀.run H before) call →
          cid ∉ core.issuedCids ∧ cid ∉ core.pendingCids) ∧
    ∀ cid, (.orphan, cid) ∈ log₀ ++ mintLog H ep₀ calls →
      ∀ ch cids, (ep₀.run H calls).cidsByConn.lookup ch = some cids → cid ∉ cids := by
  have hstart := ledger_new L hnew
  have hledger := ledger_run calls hstart hno
  refine ⟨fun ch cids cid hlook hcid => hledger.owned ch cid ⟨cids, hlook, hcid⟩, ?_, ?_⟩
  · rintro before call after rfl core ord now hpass cid hcid
    obtain ⟨hbefore, hcall⟩ := hno.split
    have hgone := (ledger_passStart (ledger_run before hstart hbefore) hcall hpass).2
    refine hgone cid (List.mem_filterMap.mpr ⟨_, hcid, ?_⟩)
    rw [if_pos rfl]
  · intro cid horphan ch cids hlook hcid
    rcases hledger.owned ch cid ⟨cids, hlook, hcid⟩ with hmem | hmem
    · exact absurd (hledger.recorded.once _ horphan _ hmem rfl) (by simp)
    · exact absurd (hledger.recorded.once _ horphan _ hmem rfl) (by simp)

/-! ## A stray CID -/

/-- `Mini`, but `handle` mints a CID for every new connection it reports, and a connection asks for
CIDs after it opened a stream. -/
abbrev Minter : Quinn :=
  { Mini with
    handle := fun ep _ _ _ data =>
      match ep.route data with
      | some (.newConnection _) =>
        if ep.minted < 256 then
          ⟨{ ep with minted := ep.minted + 1 }, [MiniEp.cidOf ep.minted],
            (some (.newConnection ()), [])⟩
        else ⟨ep, [], (some (.newConnection ()), [])⟩
      | out => ⟨ep, [], (out, [])⟩
    epHandleEvent := fun ep _ _ => ⟨ep, [], none⟩
    isDrainedEvent := fun _ => false
    streamsOpen := fun c => (c.streamsOpen.1, { c.streamsOpen.2 with drainedEvent := true })
    pollEndpointEvents := fun c =>
      if c.drainedEvent then (some (), { c with drainedEvent := false }) else (none, c)
    endpoint_lt := by
      intro c ev c' h
      split at h
      · rename_i hasks
        obtain ⟨-, rfl⟩ := Prod.mk.inj h
        simp [hasks]
      · exact absurd h (by simp) }

namespace Minter

/-- Its CIDs are new. -/
def freshCids : Minter.FreshCids where
  minted := MiniEp.Counted
  new := fun cid ⟨i, hi, _⟩ => absurd hi (Nat.not_lt_zero i)
  step := by
    intro q l cids q' h
    refine MiniEp.counted ?_
    cases h with
    | handle cfg now src data =>
      dsimp only
      split
      · split
        · rename_i hlt
          exact Or.inl ⟨hlt, rfl, rfl⟩
        · exact Or.inr ⟨rfl, rfl⟩
      · exact Or.inr ⟨rfl, rfl⟩
    | acceptOk cfg incoming now slot conn buf hout =>
      simp only [MiniEp.establish] at hout ⊢
      split
      · rename_i hlt
        exact Or.inl ⟨hlt, rfl, rfl⟩
      · exact Or.inr ⟨rfl, rfl⟩
    | acceptErr cfg incoming now buf hout =>
      simp only [MiniEp.establish] at hout ⊢
      split
      · rename_i hlt
        exact Or.inl ⟨hlt, rfl, rfl⟩
      · exact Or.inr ⟨rfl, rfl⟩
    | connectOk now cfg remote name slot conn hout =>
      simp only [MiniEp.establish] at hout ⊢
      split
      · rename_i hlt
        exact Or.inl ⟨hlt, rfl, rfl⟩
      · exact Or.inr ⟨rfl, rfl⟩
    | drained slot ev hdrained => exact absurd hdrained (by simp)
    | event slot ev hevent => exact Or.inr ⟨rfl, rfl⟩

/-- Configs without content, and a fixed nonce. -/
def tls : Tls Minter where
  Identity := Unit
  generate := .ok ()
  quicServerConfig := fun _ => .ok ()
  quicClientConfig := .ok ()
  tokenKey := ()
  nonce := List.Vector.replicate 8 1
  debugStr := id

/-- The server with one client. -/
def server : Endpoint Minter :=
  { Core.fresh .server (miniSecrets.clients.map (clientCrypto (Q := Minter) () ())) none with
    replay := [ReplayGuard.new WINDOW_MINUTES]
    rateLimiter := RateLimiter.new }

/-- An Initial to a CID of the first connection. -/
def strayInitial : List UInt8 := 0xc0 :: ([0, 0, 0, 1] ++ 8 :: MiniEp.cidOf 0)

/-- A client connects, its connection opens a stream, and then the Initial arrives. -/
def strayRun : List Call :=
  [arrival firstFlight, .conn ⟨0, 1⟩ .openBi, arrival strayInitial]

end Minter

theorem Minter.server_new : NewMints zeroHash Minter.server [] :=
  have h : newServer Minter.tls miniSecrets = .ok Minter.server := rfl
  .server h

theorem cids_attributed_accepted :
    NoStrays zeroHash Minter.server [arrival firstFlight] ∧
      ((Minter.server.run zeroHash [arrival firstFlight]).cidsByConn.lookup ⟨0, 1⟩) =
        some [MiniEp.cidOf 0, MiniEp.cidOf 1] ∧
      ((MintedIn.creating ⟨0, 1⟩, MiniEp.cidOf 0) ∈
          [] ++ mintLog zeroHash Minter.server [arrival firstFlight] ∨
        (MintedIn.event ⟨0, 1⟩, MiniEp.cidOf 0) ∈
          [] ++ mintLog zeroHash Minter.server [arrival firstFlight]) := by
  have hgate : (Minter.server.gate zeroHash 0 miniAddr 100 firstFlight).1 = .admitted 0 := by
    decide +kernel
  have hno : NoStrays zeroHash Minter.server [arrival firstFlight] :=
    ⟨fun hbypass => absurd (hgate.symm.trans hbypass) (by simp), trivial⟩
  have hcids : ((Minter.server.run zeroHash [arrival firstFlight]).cidsByConn.lookup ⟨0, 1⟩) =
      some [MiniEp.cidOf 0, MiniEp.cidOf 1] := by
    decide +kernel
  obtain ⟨howned, -⟩ := cids_attributed zeroHash Minter.freshCids Minter.server []
    Minter.server_new [arrival firstFlight] hno
  exact ⟨hno, hcids, howned _ _ _ hcids List.mem_cons_self⟩

/-- **The early return misattributes**: the CID minted for the stray Initial, which created no
connection, is now one of the first client's. -/
theorem stray_misattributed :
    Nonempty Minter.FreshCids ∧ NewMints zeroHash Minter.server [] ∧
      (MintedIn.orphan, MiniEp.cidOf 2) ∈ mintLog zeroHash Minter.server Minter.strayRun ∧
      ((Minter.server.run zeroHash Minter.strayRun).cidsByConn.lookup ⟨0, 1⟩) =
        some [MiniEp.cidOf 0, MiniEp.cidOf 1, MiniEp.cidOf 2] ∧
      (MintedIn.creating ⟨0, 1⟩, MiniEp.cidOf 2) ∉ mintLog zeroHash Minter.server Minter.strayRun ∧
      (MintedIn.event ⟨0, 1⟩, MiniEp.cidOf 2) ∉ mintLog zeroHash Minter.server Minter.strayRun :=
  ⟨⟨Minter.freshCids⟩, Minter.server_new, by decide +kernel, by decide +kernel, by decide +kernel,
    by decide +kernel⟩

end QuietQuic.Proto
