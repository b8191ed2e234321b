import Mathlib.Order.Bounds.Basic
import QuietQuic.Proto.Step

/-!
# Deadlines

`next_timeout` answers the earliest timer of a live connection, or, while stream work is waiting for
a servicing pass, an instant that has already passed. The second rests on three things: each stream
operation marks its connection before it reaches quinn-proto, only a pass takes the mark away, and
the instant of the last pass is known whenever there is a connection.

* `reaches_dirty`, `call_dirty`: a stream operation that reaches quinn-proto marks the connection, and
  no other operation takes the mark away.
* `Clocked`: the last pass's instant is one the caller gave, and is known once a connection exists.
* `drained_deadline`: what a `poll_transmit` that answers `None` leaves.
* `no_sleep_through_work`: both, along every run.
-/

namespace QuietQuic.Proto

open QuietQuic.Lib

variable {Q : Quinn}

/-! ## The mark -/

namespace ConnState

/-- The stream operation reaches quinn-proto: it is not answered from this state alone. -/
def Reaches (s : ConnState Q) : ConnCall → Prop
  | .streamRead id len => id ∉ s.finishedReads ∧ len ≠ 0
  | .streamWrite _ buf => buf ≠ []
  | .streamFinish id => s.sendFin id = none
  | .streamReset _ code | .streamStop _ code => code < 2 ^ 62
  | _ => False

/-- One of the five operations `next_timeout` speaks of. -/
def IsStreamWork : ConnCall → Prop
  | .streamRead .. | .streamWrite .. | .streamFinish _ | .streamReset .. | .streamStop .. => True
  | _ => False

/-- Stream work that does not reach quinn-proto is answered from this state alone: over any
connection it gives the same answer, and leaves everything as it was. -/
theorem not_reaches_untouched {s : ConnState Q} {call : ConnCall} (hwork : IsStreamWork call)
    (h : ¬ s.Reaches call) :
    ∃ answer, ∀ c, ({ s with conn := c } : ConnState Q).call call = (answer, { s with conn := c }) := by
  cases call with
  | streamRead id len =>
    by_cases hfin : id ∈ s.finishedReads
    · refine ⟨.streamRead (.ok .finished) [], fun c => ?_⟩
      simp only [ConnState.call, streamRead, if_pos hfin]
    · have hlen : len = 0 := by
        by_contra hlen
        exact h ⟨hfin, hlen⟩
      refine ⟨.streamRead (.ok .blocked) [], fun c => ?_⟩
      simp only [ConnState.call, streamRead, if_neg hfin, if_pos hlen]
  | streamWrite id buf =>
    have hbuf : buf = [] := not_not.mp h
    refine ⟨.streamWrite (.ok (.wrote 0)), fun c => ?_⟩
    simp only [ConnState.call, streamWrite, if_pos hbuf]
  | streamFinish id =>
    obtain ⟨fact, hfact⟩ := Option.ne_none_iff_exists'.mp h
    unfold sendFin at hfact
    cases fact with
    | stopped code =>
      exact ⟨.done (.error (.stopped code)), fun c => by simp only [ConnState.call, streamFinish, hfact]⟩
    | acked | queued =>
      exact ⟨.done (.error .closedStream), fun c => by simp only [ConnState.call, streamFinish, hfact]⟩
  | streamReset id code =>
    refine ⟨.done (.error (.invalidErrorCode code)), fun c => ?_⟩
    simp only [ConnState.call, streamReset, varint_of_not_lt h]
  | streamStop id code =>
    refine ⟨.done (.error (.invalidErrorCode code)), fun c => ?_⟩
    simp only [ConnState.call, streamStop, varint_of_not_lt h]
  | _ => exact hwork.elim

/-- **Stream work that reaches quinn-proto marks its connection.** -/
theorem reaches_dirty {s : ConnState Q} {call : ConnCall} (h : s.Reaches call) :
    (s.call call).2.dirty = true := by
  cases call with
  | streamRead id len =>
    show (s.streamRead id len).2.2.dirty = true
    unfold streamRead
    rw [if_neg h.1, if_neg h.2]
    dsimp only
    split
    · rfl
    · rfl
    · split <;> rfl
  | streamWrite id buf =>
    show (s.streamWrite id buf).2.dirty = true
    unfold streamWrite
    rw [if_neg h]
  | streamFinish id =>
    show (s.streamFinish id).2.dirty = true
    have hnone : s.sendFins.lookup id = none := h
    unfold streamFinish
    rw [hnone]
    dsimp only
    split
    · rfl
    · unfold recordSendFin
      split <;> rfl
    · rfl
  | streamReset id code =>
    show (s.streamReset id code).2.dirty = true
    unfold streamReset
    rw [varint_of_lt h]
  | streamStop id code =>
    show (s.streamStop id code).2.dirty = true
    unfold streamStop
    rw [varint_of_lt h]
  | _ => exact h.elim

/-- **Only `clear_dirty` takes the mark away.** -/
theorem call_dirty {s : ConnState Q} {call : ConnCall} (hcall : call ≠ .clearDirty)
    (h : s.dirty = true) : (s.call call).2.dirty = true := by
  by_cases hreach : s.Reaches call
  · exact reaches_dirty hreach
  · by_cases hwork : IsStreamWork call
    · obtain ⟨answer, hsame⟩ := not_reaches_untouched hwork hreach
      rw [show s.call call = (answer, s) from hsame s.conn]
      exact h
    · cases call with
      | openBi =>
        show s.openBi.2.dirty = true
        unfold openBi
        split <;> exact h
      | acceptBi =>
        show s.acceptBi.2.dirty = true
        unfold acceptBi
        split <;> exact h
      | serviceStreams => exact s.serviceStreams_dirty.trans h
      | clearDirty => exact absurd rfl hcall
      | streamRead | streamWrite | streamFinish | streamReset | streamStop =>
        exact absurd trivial hwork
      | forgetStream | forgetRecv | forgetSend | sendFin | isDrained | isDirty | close => exact h

end ConnState

/-! ## A pass -/

namespace Core

/-- A pass remembers its instant. -/
theorem lastService_serviceConnections (core : Core Q) (ord : IterOrder) (now : Instant) :
    (core.serviceConnections ord now).lastService = some now := by
  have hrouted : (core.routed ord now).lastService = some now :=
    routed_kept Core.lastService (fun _ _ _ _ _ _ => rfl) core ord now
  show (((core.serviced ord now).1.flush (core.serviced ord now).2).reapAll
    (core.serviced ord now).2.lost).lastService = some now
  refine reapAll_inv (I := fun core' => core'.lastService = some now)
    (fun core' l _ h hl => by rw [reap_eq hl]; exact h) ?_
  show (core.serviced ord now).1.lastService = some now
  rw [serviced_eq]
  exact hrouted

/-- It leaves no connection marked. -/
theorem serviceConnections_clean {core : Core Q} {ord : IterOrder} {now : Instant}
    {ch : ConnectionHandle} {s : ConnState Q}
    (h : (core.serviceConnections ord now).connections.lookup ch = some s) : s.dirty = false := by
  obtain ⟨t, -, -, rfl⟩ := (lookup_serviceConnections core ord now ch s).mp h
  rfl

/-- The deadlines quinn-proto has for the live connections. -/
def deadlines (core : Core Q) : Set Instant :=
  {t | ∃ ch s, core.connections.lookup ch = some s ∧ Q.pollTimeout s.conn = some t}

/-- The cached deadline, as `refresh_next_timeout` leaves it. -/
def Fresh (core : Core Q) : Prop :=
  core.nextTimeout = ((AMap.values core.connections).filterMap fun s => Q.pollTimeout s.conn).min?

theorem mem_deadlines {core : Core Q} {t : Instant} :
    t ∈ ((AMap.values core.connections).filterMap fun s => Q.pollTimeout s.conn) ↔
      t ∈ core.deadlines := by
  simp only [List.mem_filterMap, AMap.mem_values, deadlines, Set.mem_ofPred_eq]
  constructor
  · rintro ⟨s, ⟨ch, hs⟩, ht⟩
    exact ⟨ch, s, hs, ht⟩
  · rintro ⟨ch, s, hs, ht⟩
    exact ⟨s, ⟨ch, hs⟩, ht⟩

/-- **A fresh deadline with no connection marked** is the least of quinn-proto's. -/
theorem nextTimeoutAt_fresh {core : Core Q} (hfresh : core.Fresh)
    (hclean : ∀ ch s, core.connections.lookup ch = some s → s.dirty = false) :
    (∀ t, core.nextTimeoutAt = some t ↔ IsLeast core.deadlines t) ∧
      (core.nextTimeoutAt = none ↔ core.deadlines = ∅) := by
  have hany : (AMap.values core.connections).any ConnState.isDirty = false := by
    rw [List.any_eq_false]
    intro s hs
    obtain ⟨ch, hs⟩ := AMap.mem_values.mp hs
    simp [ConnState.isDirty, hclean ch s hs]
  have hnext : core.nextTimeoutAt =
      ((AMap.values core.connections).filterMap fun s => Q.pollTimeout s.conn).min? := by
    unfold nextTimeoutAt
    rw [hany]
    exact hfresh
  refine ⟨fun t => ?_, ?_⟩
  · rw [hnext, List.min?_eq_some_iff]
    constructor
    · rintro ⟨hmem, hle⟩
      exact ⟨mem_deadlines.mp hmem, fun b hb => hle b (mem_deadlines.mpr hb)⟩
    · rintro ⟨hmem, hle⟩
      exact ⟨mem_deadlines.mpr hmem, fun b hb => hle (mem_deadlines.mp hb)⟩
  · rw [hnext, List.min?_eq_none_iff, List.eq_nil_iff_forall_not_mem, Set.eq_empty_iff_forall_notMem]
    exact forall_congr' fun t => not_congr mem_deadlines

/-- While a connection is marked, the deadline is the last pass's instant. -/
theorem nextTimeoutAt_dirty {core : Core Q} {ch : ConnectionHandle} {s : ConnState Q}
    (hs : core.connections.lookup ch = some s) (hdirty : s.dirty = true) {t : Instant}
    (hlast : core.lastService = some t) : core.nextTimeoutAt = some t := by
  have hany : (AMap.values core.connections).any ConnState.isDirty = true :=
    List.any_eq_true.mpr ⟨s, AMap.mem_values.mpr ⟨ch, hs⟩, hdirty⟩
  unfold nextTimeoutAt
  rw [hany, hlast]
  rfl

/-- **What `poll_transmit` leaves when it answers `None`**: an empty queue, no connection marked, and
the least of quinn-proto's deadlines. -/
theorem drained_deadline {core : Core Q} {ord : IterOrder} {now : Instant}
    (h : (core.pollTransmit ord now).1 = none) :
    (core.pollTransmit ord now).2.outbound = [] ∧
      (∀ ch s, (core.pollTransmit ord now).2.connections.lookup ch = some s → s.dirty = false) ∧
      (core.pollTransmit ord now).2.Fresh := by
  have hpop : ∀ core : Core Q, core.popTransmit.1 = none →
      core.popTransmit.2 = core ∧ core.outbound = [] := by
    intro core h
    unfold popTransmit at h ⊢
    split at h
    · exact absurd h (by simp)
    · rename_i hempty
      exact ⟨rfl, hempty⟩
  have hstart : core.popTransmit.1 = none := by
    cases hfirst : core.popTransmit with
    | mk answer core' =>
      cases answer with
      | none => rfl
      | some t => exact absurd h (by simp [pollTransmit, hfirst])
  have hpoll : core.pollTransmit ord now = (core.serviceConnections ord now).popTransmit := by
    obtain ⟨hsame, -⟩ := hpop core hstart
    unfold pollTransmit
    rw [show core.popTransmit = (none, core) from Prod.ext hstart hsame]
  rw [hpoll] at h ⊢
  obtain ⟨hsame, hempty⟩ := hpop _ h
  rw [hsame]
  exact ⟨hempty, fun ch s hs => serviceConnections_clean hs, rfl⟩

end Core

/-! ## Runs -/

/-- The instant a call passes in. -/
def Call.instant : Call → Option Instant
  | .handleDatagram _ now .. | .handleTimeout _ now | .pollTransmit _ now => some now
  | _ => none

/-- The instants a run passes in, in order. -/
def instants (calls : List Call) : List Instant := calls.filterMap Call.instant

/-- The call modifies connections only through the endpoint and the stream methods: it neither takes
the mark away nor reaches for the quinn-proto connection. -/
def Call.StreamsOnly : Call → Prop
  | .conn _ .clearDirty | .conn _ (.close ..) => False
  | _ => True

namespace Endpoint

variable {H : KeyedHash}

/-- A new endpoint, with the instants its constructor was given. -/
def Created (H : KeyedHash) (given : List Instant) (ep : Endpoint Q) : Prop :=
  (∃ tls secrets, newServer tls secrets = .ok ep ∧ given = []) ∨
    ∃ tls now minute cfg ch, newClient H tls now minute cfg = .ok (ep, ch) ∧ given = [now]

/-- The last pass's instant is one the caller gave, and is known once there is a connection. -/
structure Clocked (given : List Instant) (core : Core Q) : Prop where
  given : ∀ t, core.lastService = some t → t ∈ given
  known : ∀ ch, ch ∈ core.connections → core.lastService ≠ none

theorem Created.clocked {given : List Instant} {ep : Endpoint Q} (h : Created H given ep) :
    Clocked given ep.toCore := by
  rcases h with ⟨tls, secrets, hnew, rfl⟩ | ⟨tls, now, minute, cfg, ch, hnew, rfl⟩
  · obtain ⟨clients, -, heq⟩ := newServer_core hnew
    rw [heq]
    exact ⟨fun t ht => absurd ht (by simp [Core.fresh]), fun ch hch => absurd hch (AList.notMem_empty ch)⟩
  · obtain ⟨dialCfg, conn, -, -, heq⟩ := newClient_core hnew
    rw [heq]
    refine ⟨fun t ht => ?_, fun a _ => by simp [Core.fresh, Core.afterCall]⟩
    obtain rfl : now = t := by simpa [Core.fresh, Core.afterCall] using ht
    simp

/-- The instant of a call's pass is the one it was given. -/
theorem passStart_instant {ep : Endpoint Q} {call : Call} {core : Core Q} {ord : IterOrder}
    {now : Instant} (h : passStart H ep call = some (core, ord, now)) : call.instant = some now := by
  cases passStart_starts h with
  | datagram | timeout | transmit => rfl

/-- Without a pass neither the last one's instant nor the set of connections changes. -/
theorem step_no_pass {ep : Endpoint Q} {call : Call} (h : passStart H ep call = none) :
    (ep.step H call).2.lastService = ep.lastService ∧
      ∀ ch, ch ∈ (ep.step H call).2.connections ↔ ch ∈ ep.connections := by
  rcases step_of_no_pass h with ⟨ch, c, -, heq⟩ | ⟨outbound, events, heq⟩
  · rw [heq]
    refine ⟨?_, fun a => Core.mem_onConn⟩
    rw [Core.onConn_eq]
  · rw [heq]
    exact ⟨rfl, fun _ => Iff.rfl⟩

/-- **One call keeps the clock.** -/
theorem step_clocked {given : List Instant} {ep : Endpoint Q} (call : Call)
    (h : Clocked given ep.toCore) :
    Clocked (given ++ instants [call]) (ep.step H call).2.toCore := by
  cases hpass : passStart H ep call with
  | some start =>
    obtain ⟨core, ord, now⟩ := start
    obtain ⟨outbound, heq⟩ := step_of_pass hpass
    have hlast : (ep.step H call).2.lastService = some now := by
      rw [heq]
      exact core.lastService_serviceConnections ord now
    refine ⟨fun t ht => ?_, fun ch _ => by rw [hlast]; simp⟩
    obtain rfl := Option.some.inj (hlast.symm.trans ht)
    simp [instants, passStart_instant hpass]
  | none =>
    have hsame := step_no_pass hpass
    refine ⟨fun t ht => List.mem_append_left _ (h.given t (hsame.1 ▸ ht)), fun ch hch => ?_⟩
    rw [hsame.1]
    exact h.known ch ((hsame.2 ch).mp hch)

theorem run_clocked {given : List Instant} (calls : List Call) {ep : Endpoint Q}
    (h : Clocked given ep.toCore) :
    Clocked (given ++ instants calls) (ep.run H calls).toCore := by
  induction calls generalizing ep given with
  | nil =>
    rw [instants, List.filterMap_nil, List.append_nil]
    exact h
  | cons call calls ih =>
    have hrest := ih (step_clocked (H := H) call h)
    rw [List.append_assoc, instants, instants, ← List.filterMap_append] at hrest
    exact hrest

/-- No call of a run makes a servicing pass. -/
def NoPass (H : KeyedHash) : Endpoint Q → List Call → Prop
  | _, [] => True
  | ep, call :: calls => passStart H ep call = none ∧ NoPass H (ep.step H call).2 calls

theorem run_lastService {calls : List Call} {ep : Endpoint Q} (h : NoPass H ep calls) :
    (ep.run H calls).lastService = ep.lastService := by
  induction calls generalizing ep with
  | nil => rfl
  | cons call calls ih => exact (ih h.2).trans (step_no_pass h.1).1

/-- A live connection that is marked. -/
def Marked (core : Core Q) (ch : ConnectionHandle) : Prop :=
  ∃ s, core.connections.lookup ch = some s ∧ s.dirty = true

/-- **The mark stays until a pass.** -/
theorem step_marked {ep : Endpoint Q} {call : Call} {ch : ConnectionHandle}
    (hcall : call.StreamsOnly) (hpass : passStart H ep call = none) (h : Marked ep.toCore ch) :
    Marked (ep.step H call).2.toCore ch := by
  obtain ⟨s, hs, hdirty⟩ := h
  rcases step_of_no_pass hpass with ⟨a, c, rfl, heq⟩ | ⟨outbound, events, heq⟩
  · rw [heq]
    unfold Core.onConn
    split
    · exact ⟨s, hs, hdirty⟩
    · rename_i t ht
      by_cases ha : a = ch
      · subst ha
        obtain rfl := Option.some.inj (ht.symm.trans hs)
        have hclear : c ≠ .clearDirty := by
          rintro rfl
          exact hcall
        exact ⟨_, AList.lookup_insert _, ConnState.call_dirty hclear hdirty⟩
      · exact ⟨s, (AList.lookup_insert_ne (Ne.symm ha)).trans hs, hdirty⟩
  · rw [heq]
    exact ⟨s, hs, hdirty⟩

theorem run_marked {ch : ConnectionHandle} {calls : List Call} {ep : Endpoint Q}
    (hcalls : ∀ call ∈ calls, call.StreamsOnly) (hpass : NoPass H ep calls)
    (h : Marked ep.toCore ch) : Marked (ep.run H calls).toCore ch := by
  induction calls generalizing ep with
  | nil => exact h
  | cons call calls ih =>
    exact ih (fun c hc => hcalls c (List.mem_cons_of_mem call hc)) hpass.2
      (step_marked (hcalls call (by simp)) hpass.1 h)

theorem run_append (ep : Endpoint Q) (before after : List Call) :
    ep.run H (before ++ after) = (ep.run H before).run H after :=
  List.foldl_append

/-- **No sleeping through unflushed work.** In every run of a new endpoint with non-decreasing
instants that modifies connections only through the endpoint and the stream methods: from stream work
that reaches quinn-proto on a live connection until the next servicing pass, `next_timeout` is an
instant the caller has already passed in, so no later one is before it; and whenever `poll_transmit`
answers `None` the outbound queue is empty, no live connection is marked, and `next_timeout` is the
least of quinn-proto's deadlines, or `None` where there are none. -/
theorem no_sleep_through_work {given : List Instant} {ep : Endpoint Q}
    (hnew : Created H given ep) (calls : List Call) (hcalls : ∀ call ∈ calls, call.StreamsOnly)
    (hmono : (given ++ instants calls).Pairwise (· ≤ ·)) :
    (∀ before ch c between after s, calls = before ++ .conn ch c :: (between ++ after) →
      (ep.run H before).connections.lookup ch = some s → s.Reaches c →
      NoPass H (ep.run H (before ++ [.conn ch c])) between →
      ∃ t, (ep.run H (before ++ .conn ch c :: between)).nextTimeoutAt = some t ∧
        t ∈ given ++ instants before ∧ ∀ now ∈ instants (between ++ after), t ≤ now) ∧
    ∀ before ord now after, calls = before ++ .pollTransmit ord now :: after →
      ((ep.run H before).step H (.pollTransmit ord now)).1 = .transmit none →
      let ep' := ep.run H (before ++ [.pollTransmit ord now])
      ep'.outbound = [] ∧
      (∀ ch s, ep'.connections.lookup ch = some s → s.isDirty = false) ∧
      (∀ t, ep'.nextTimeoutAt = some t ↔ IsLeast ep'.deadlines t) ∧
      (ep'.nextTimeoutAt = none ↔ ep'.deadlines = ∅) := by
  constructor
  · intro before ch c between after s heq hs hreach hpass
    have hmarked : Marked (ep.run H (before ++ [.conn ch c])).toCore ch := by
      rw [run_append]
      refine ⟨(s.call c).2, ?_, ConnState.reaches_dirty hreach⟩
      show (((ep.run H before).toCore.onConn ch c).2).connections.lookup ch = _
      unfold Core.onConn
      rw [hs]
      exact AList.lookup_insert _
    have hcons : before ++ .conn ch c :: between = before ++ [.conn ch c] ++ between := by simp
    have hstill : Marked (ep.run H (before ++ .conn ch c :: between)).toCore ch := by
      rw [hcons, run_append]
      exact run_marked (fun call hcall => hcalls call (by simp [heq, hcall])) hpass hmarked
    -- the last pass was made before the stream work, so its instant was given before it
    have hclock : Clocked (given ++ instants before) (ep.run H before).toCore :=
      run_clocked before hnew.clocked
    have hlive : ch ∈ (ep.run H before).connections := AMap.mem_iff_lookup.mpr ⟨s, hs⟩
    obtain ⟨t, ht⟩ := Option.ne_none_iff_exists'.mp (hclock.known ch hlive)
    have hlast : (ep.run H (before ++ .conn ch c :: between)).lastService = some t := by
      rw [hcons, run_append, run_lastService hpass, run_append]
      exact (step_no_pass (H := H) rfl).1.trans ht
    obtain ⟨s', hs', hdirty⟩ := hstill
    refine ⟨t, Core.nextTimeoutAt_dirty hs' hdirty hlast, hclock.given t ht, fun now hnow => ?_⟩
    have hsplit : given ++ instants calls =
        (given ++ instants before) ++ instants (between ++ after) := by
      rw [heq, instants, List.filterMap_append, List.filterMap_cons_none rfl, List.append_assoc]
      rfl
    rw [hsplit] at hmono
    exact (List.pairwise_append.mp hmono).2.2 t (hclock.given t ht) now hnow
  · intro before ord now after heq hnone
    have hstep : (ep.run H (before ++ [.pollTransmit ord now])).toCore =
        ((ep.run H before).toCore.pollTransmit ord now).2 := by
      rw [run_append]
      rfl
    have hanswer : ((ep.run H before).toCore.pollTransmit ord now).1 = none := Answer.transmit.inj hnone
    obtain ⟨hempty, hclean, hfresh⟩ := Core.drained_deadline hanswer
    obtain ⟨hsome, hnone'⟩ := Core.nextTimeoutAt_fresh hfresh hclean
    dsimp only
    rw [hstep]
    exact ⟨hempty, hclean, hsome, hnone'⟩

/-- A client flushes its first datagram, writes, and polls again. -/
def writeAfterFlush : List Call :=
  [.pollTransmit keyOrder 3, .conn ⟨0, 1⟩ (.streamWrite 0 [1]), .pollEvent,
    .pollTransmit keyOrder 5]

/-- Between the write and the pass the deadline is the first poll's instant, and after it nothing is
left to send. -/
theorem no_sleep_through_work_write :
    Created zeroHash [0] miniClient ∧ (∀ call ∈ writeAfterFlush, call.StreamsOnly) ∧
      ([0] ++ instants writeAfterFlush).Pairwise (· ≤ ·) ∧
      (∃ t, (miniClient.run zeroHash [.pollTransmit keyOrder 3,
          .conn ⟨0, 1⟩ (.streamWrite 0 [1]), .pollEvent]).nextTimeoutAt = some t ∧
        ∀ now ∈ instants ([.pollEvent] ++ [.pollTransmit keyOrder 5]), t ≤ now) ∧
      (miniClient.run zeroHash writeAfterFlush).outbound = [] := by
  have hnew : Created zeroHash [0] miniClient :=
    .inr ⟨miniTls, 0, 100, ⟨miniPsk, miniAddr⟩, ⟨0, 1⟩, rfl, rfl⟩
  have hcalls : ∀ call ∈ writeAfterFlush, call.StreamsOnly := by
    simp [writeAfterFlush, Call.StreamsOnly]
  have hmono : ([0] ++ instants writeAfterFlush).Pairwise (· ≤ ·) := by decide
  obtain ⟨hwork, hdrained⟩ := no_sleep_through_work hnew writeAfterFlush hcalls hmono
  obtain ⟨t, ht, -, hle⟩ := hwork [.pollTransmit keyOrder 3] ⟨0, 1⟩ (.streamWrite 0 [1]) [.pollEvent]
    [.pollTransmit keyOrder 5] _ rfl rfl (by simp [ConnState.Reaches]) ⟨rfl, trivial⟩
  obtain ⟨hempty, -⟩ := hdrained [.pollTransmit keyOrder 3, .conn ⟨0, 1⟩ (.streamWrite 0 [1]),
    .pollEvent] keyOrder 5 [] rfl rfl
  exact ⟨hnew, hcalls, hmono, ⟨t, ht, hle⟩, hempty⟩

end Endpoint

end QuietQuic.Proto
