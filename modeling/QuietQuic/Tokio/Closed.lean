import QuietQuic.Tokio.Accepting
import QuietQuic.Tokio.Connects

/-!
# How a connection learns its end

Every `Connection` has a receiver of a `watch` channel, whose sender is in its `Parked`: `closed`
waits for a value, or for the sender to be gone. `Parked` leaves the channel out, since no stream
operation reads it; here it runs beside the loop, for either driver (`Ending`), and `Tells` is what
the two have in common.

* `Losses.step`: the loss of a connection is handled once.
* `Marked.step`: a channel has a value exactly when that loss was handled, which is its reason.
* `closed_reports`, `closed_reports_dialled`: what `closed` comes to, on a server and on a client.
-/

namespace QuietQuic.Tokio

open QuietQuic.Lib QuietQuic.Proto

/-! ## Watch channels -/

/-- The `watch` channel of a connection: what was sent, and whether its sender is gone. -/
structure Watch where
  value : Option ConnectionError
  dropped : Bool
  deriving DecidableEq

namespace Watch

/-- `watch::channel(None)`. -/
def channel : Watch := ⟨none, false⟩

/-- `Parked::mark_closed`. -/
def markClosed (w : Watch) (reason : ConnectionError) : Watch := { w with value := some reason }

/-- The sender is dropped. -/
def drop (w : Watch) : Watch := { w with dropped := true }

/-- `Connection::closed`: what awaiting it comes to, once it does. The value is looked at before
the sender. -/
def closed (w : Watch) : Option ConnectionError :=
  match w.value with
  | some reason => some reason
  | none => if w.dropped then some .locallyClosed else none

end Watch

/-- The channels of a driver's connections. -/
abbrev Watches : Type := AMap ConnectionHandle Watch

/-- What a driver does with the channels when it handles an event. -/
class Closes (D : Type) where
  onEvent : D → Watches → Event → Watches

variable {Q : Quinn} {H : KeyedHash}

/-- `surface` opens a channel with the `Parked`; `on_lost` sends into it, and drops it. -/
def Driver.tell (d : Driver Q) (watches : Watches) : Event → Watches
  | .connected ch =>
    if ch ∈ d.surfaced then watches
    else
      match d.core.connections.lookup ch with
      | none => watches
      | some _ => watches.insert ch .channel
  | .connectionLost ch reason =>
    match d.parked.lookup ch, watches.lookup ch with
    | some _, some watch => watches.insert ch (watch.markClosed reason).drop
    | _, _ => watches
  | _ => watches

/-- The one channel is there from the start, and its sender as long as the driver. -/
def ClientDriver.tell (d : ClientDriver Q) (watches : Watches) : Event → Watches
  | .connectionLost ch reason =>
    if ch = d.handle then
      match watches.lookup ch with
      | some watch => watches.insert ch (watch.markClosed reason)
      | none => watches
    else watches
  | _ => watches

instance : Closes (Driver Q) := ⟨Driver.tell⟩

instance : Closes (ClientDriver Q) := ⟨ClientDriver.tell⟩

/-! ## The channels of a run -/

section

variable {D : Type} [Drives Q D]

/-- The channels after a move: `pump` handles an event, or they are left alone. -/
def Loop.tell [Closes D] (l : Loop D) (watches : Watches) : Move Q D → Watches
  | .pump _ _ =>
    match l.phase, l.core.toCore.pollEvent with
    | .events _ _ _, (some e, core) =>
      Closes.onEvent (Drives.setCore l.driver { l.core with toCore := core }) watches e
    | _, _ => watches
  | _ => watches

/-- A loop, with the channels of its connections. -/
structure Ending (D : Type) where
  loop : Loop D
  watches : Watches

namespace Ending

/-- One move. -/
def step [Closes D] (H : KeyedHash) (s : Ending D) (m : Move Q D) : Ending D where
  loop := s.loop.step H m
  watches := s.loop.tell s.watches m

/-- The state a run of moves leaves. -/
def run [Closes D] (H : KeyedHash) (s : Ending D) (moves : List (Move Q D)) : Ending D :=
  moves.foldl (fun s m => s.step H m) s

/-- What awaiting `closed` on a connection comes to, once it does. A driver that has returned is
dropped, with all its senders. -/
def closed (s : Ending D) (ch : ConnectionHandle) : Option ConnectionError :=
  (s.watches.lookup ch).bind fun watch =>
    (if s.loop.phase = .returned then watch.drop else watch).closed

end Ending

/-! ## Losses -/

/-- The loss of a connection is reported once, of one that is gone. -/
structure Losses (l : Loop D) : Prop where
  gone : ∀ ch reason, .connectionLost ch reason ∈ l.handled →
    ch ∉ l.core.connections ∧ ch.generation < l.core.nextGeneration
  once : ∀ ch, (naming ch (l.handled ++ l.core.events)).countP Event.isLost ≤ 1

/-- What a pass services was live, or was just registered. -/
theorem mem_start {ep : Endpoint Q} {call : Call} {core : Core Q} {ord : IterOrder} {now : Instant}
    (hpass : Endpoint.passStart H ep call = some (core, ord, now)) {ch : ConnectionHandle}
    (hch : ch ∈ core.connections) : ch ∈ ep.connections ∨ ep.nextGeneration ≤ ch.generation := by
  rcases Endpoint.passStart_cases hpass with rfl | rfl | ⟨g, src, data, hfits, hg, rfl⟩
  · exact .inl hch
  · exact .inl (AMap.mem_mapValues.mp hch)
  · rcases Endpoint.fed_spec now src data hfits hg with ⟨-, hmem, -⟩ |
      ⟨_, client, _, a, conn, _, _, _, _, _, hreg⟩
    · exact .inl ((hmem ch).mp hch)
    · rw [hreg.connections, AList.mem_insert] at hch
      rcases hch with rfl | hch
      · exact .inr hreg.generation.ge
      · exact .inl hch

/-- A pass reports at most one loss of a connection, and that one is live when the pass starts. -/
theorem losses_pass (core : Core Q) (ord : IterOrder) (now : Instant) (ch : ConnectionHandle) :
    (naming ch (passEvents core ord now)).countP Event.isLost ≤ 1 ∧
      (ch ∉ core.connections → naming ch (passEvents core ord now) = []) := by
  rw [naming_passEvents]
  cases hs : (core.routed ord now).connections.lookup ch with
  | none => exact ⟨Nat.zero_le 1, fun _ => rfl⟩
  | some s =>
    refine ⟨?_, fun hno => absurd (Core.mem_routed.mp (AMap.mem_iff_lookup.mpr ⟨s, hs⟩)) hno⟩
    have hprogress : (Core.progressEvents ch s.serviceStreams.1).countP Event.isLost = 0 :=
      List.countP_eq_zero.mpr fun e he => by simp [isLost_progressEvents he]
    rw [List.countP_append, hprogress, Nat.zero_add]
    refine List.countP_le_length.trans ?_
    cases Core.lossOf s.serviceStreams.1 s.serviceStreams.2 <;> simp

namespace Losses

variable {l : Loop D}

/-- A call that hands out no event. -/
theorem called [LawfulDrives Q D] (h : Losses l) (hqueued : Queued l.core.toCore) {call : Call}
    (htaken : Proto.taken (l.core.step H call).1 = []) {l' : Loop D}
    (hcore : l'.core = (l.core.step H call).2) (hhandled : l'.handled = l.handled) :
    Losses l' := by
  refine ⟨fun ch reason hlost => ?_, fun ch => ?_⟩
  · rw [hhandled] at hlost
    rw [hcore]
    obtain ⟨hdead, hgen⟩ := h.gone ch reason hlost
    have hle := Endpoint.le_nextGeneration_step (H := H) l.core call
    refine ⟨fun hch => ?_, by omega⟩
    rcases Endpoint.mem_or_newer hch with hold | hnewer
    · exact hdead hold
    · omega
  · rw [hhandled, hcore]
    cases hpass : Endpoint.passStart H l.core call with
    | none =>
      have hqueue := taken_of_no_pass hpass
      rw [htaken, List.nil_append] at hqueue
      rw [hqueue]
      exact h.once ch
    | some start =>
      obtain ⟨core, ord, now⟩ := start
      obtain ⟨outbound, heq⟩ := Endpoint.step_of_pass hpass
      obtain ⟨hstart, hevents, -⟩ := hqueued.start hpass
      have hqueue : (l.core.step H call).2.events = l.core.events ++ passEvents core ord now := by
        rw [heq, ← hevents]
        exact events_pass core ord now
      rw [hqueue, ← List.append_assoc, naming_append, List.countP_append]
      obtain ⟨hone, hnone⟩ := losses_pass core ord now ch
      by_cases hlive : ch ∈ core.connections
      · -- what is live was not lost so far
        have hzero : (naming ch (l.handled ++ l.core.events)).countP Event.isLost = 0 := by
          refine List.countP_eq_zero.mpr fun e he => ?_
          obtain ⟨hmem, hconn⟩ := List.mem_filter.mp he
          obtain rfl := of_decide_eq_true hconn
          cases e with
          | connectionLost c reason =>
            rcases List.mem_append.mp hmem with hold | hqueued'
            · obtain ⟨hdead, hgen⟩ := h.gone c reason hold
              rcases mem_start hpass hlive with hlive | hnewer
              · exact absurd hlive hdead
              · exact absurd hgen (Nat.not_lt.mpr hnewer)
            · exact absurd hlive (hstart.gone c reason (hevents ▸ hqueued'))
          | _ => simp [Event.isLost]
        omega
      · rw [hnone hlive]
        exact h.once ch

/-- **Every move keeps it.** -/
theorem step [LawfulDrives Q D] (h : Losses l) (hfit : Loop.Fit l) (m : Move Q D) :
    Losses (l.step H m) := by
  have hsame : ∀ {l' : Loop D}, l'.core = l.core → l'.handled = l.handled → Losses l' := by
    intro l' hcore hhandled
    exact ⟨by rw [hcore, hhandled]; exact h.gone, by rw [hcore, hhandled]; exact h.once⟩
  have htaken := Loop.taken H l m
  generalize l.step H m = l' at htaken ⊢
  cases htaken with
  | idle | drained | failed | told | issued | cancelled | received => exact hsame rfl rfl
  | @polled _ _ _ _ _ e rest hphase hq =>
    obtain ⟨hevents, hlive⟩ := (hfit.reacts H hq).stays
    have hgen := (hfit.reacts H hq).generation
    rw [LawfulDrives.core_setCore] at hevents hgen hlive
    have hhead : ∀ {x}, x ∈ [e] → x ∈ l.core.events := fun hx => by
      rw [hq, List.mem_singleton.mp hx]
      exact List.mem_cons_self
    refine ⟨fun ch reason hlost => ?_, fun ch => ?_⟩
    · have hdead : ch ∉ l.core.connections ∧ ch.generation < l.core.nextGeneration := by
        rcases List.mem_append.mp hlost with hold | hnow
        · exact h.gone ch reason hold
        · exact ⟨hfit.queued.gone ch reason (hhead hnow), hfit.queued.named _ (hhead hnow)⟩
      exact ⟨fun hch => hdead.1 ((hlive ch).mp hch), Nat.lt_of_lt_of_eq hdead.2 hgen.symm⟩
    · have htrace : (l.handled ++ [e]) ++ rest = l.handled ++ l.core.events := by
        rw [hq, List.append_assoc]
        rfl
      show (naming ch ((l.handled ++ [e]) ++ (Drives.core (l.reacting e rest).1).events)).countP
        Event.isLost ≤ 1
      rw [hevents]
      exact htrace ▸ h.once ch
  | sent _ ht =>
    refine h.called hfit.queued (H := H) ?_ (Loop.core_withCore ..) rfl
    rw [ht]
    rfl
  | flushed _ ht =>
    refine h.called hfit.queued (H := H) ?_ (Loop.core_withCore ..) rfl
    rw [ht]
    rfl
  | arrived | fired => exact h.called hfit.queued (H := H) rfl (Loop.core_withCore ..) rfl
  | @applied now _ c cmd _ hphase hcmds htakes =>
    obtain ⟨s, happlies⟩ := LawfulDrives.applies cmd now hfit.books htakes
    refine ⟨fun ch reason hlost => ?_, fun ch => ?_⟩
    · obtain ⟨hdead, hgen⟩ := h.gone ch reason hlost
      show ch ∉ (Drives.core (Drives.onCommand l.driver c cmd now)).connections ∧
        ch.generation < (Drives.core (Drives.onCommand l.driver c cmd now)).nextGeneration
      rw [happlies.core]
      exact ⟨fun hch => hdead ((AMap.mem_insert_of_lookup happlies.live).mp hch), hgen⟩
    · show (naming ch (l.handled ++
        (Drives.core (Drives.onCommand l.driver c cmd now)).events)).countP Event.isLost ≤ 1
      rw [happlies.core]
      exact h.once ch
  | dropped now _ _ _ htakes =>
    exact hsame (congrArg Drives.core (LawfulDrives.drops _ now htakes)) rfl
  | armed _ _ harm => exact hsame (LawfulDrives.arm_same harm).1 rfl

/-- The loss that is handled next is the first of its connection. -/
theorem first (h : Losses l) {ch : ConnectionHandle} {reason : ConnectionError} {rest : List Event}
    (hq : l.core.events = .connectionLost ch reason :: rest) (reason' : ConnectionError) :
    .connectionLost ch reason' ∉ l.handled := by
  intro hlost
  have honce := h.once ch
  have hold : Event.connectionLost ch reason' ∈ naming ch l.handled :=
    List.mem_filter.mpr ⟨hlost, decide_eq_true rfl⟩
  have hnow : Event.connectionLost ch reason ∈ naming ch l.core.events := by
    rw [hq]
    exact List.mem_filter.mpr ⟨List.mem_cons_self, decide_eq_true rfl⟩
  rw [naming_append, List.countP_append] at honce
  have := List.countP_pos_iff.mpr ⟨_, hold, (rfl : Event.isLost _ = true)⟩
  have := List.countP_pos_iff.mpr ⟨_, hnow, (rfl : Event.isLost _ = true)⟩
  omega

end Losses

/-! ## What a channel says -/

/-- **What a driver does with the channels** when it handles an event. -/
inductive Tells (d : D) (watches : Watches) (e : Event) : Watches → Prop
  | opened {ch} (he : e = .connected ch) (hlive : ch ∈ (Drives.core d).connections) :
      Tells d watches e (watches.insert ch .channel)
  | told {ch reason watch} (he : e = .connectionLost ch reason)
      (hwatch : watches.lookup ch = some watch) (dropped : Bool) :
      Tells d watches e (watches.insert ch ⟨some reason, dropped⟩)
  /-- A loss is not told only where nobody waits for it. -/
  | kept (hno : ∀ ch reason, e = .connectionLost ch reason → ∀ watch,
      watches.lookup ch = some watch → watch.value ≠ none) : Tells d watches e watches

/-- A driver that keeps the channels of its connections, whatever the core does. -/
class LawfulCloses (Q : outParam Quinn) (D : Type) [Drives Q D] [Closes D] where
  /-- The invariant of the books. -/
  Keeps : D → Watches → Prop
  keeps_setCore (d : D) (ep : Endpoint Q) (watches : Watches) :
    Keeps d watches → Keeps (Drives.setCore d ep) watches
  keeps_event {d : D} {watches : Watches} (e : Event) : Keeps d watches →
    Keeps (Drives.onEvent d e).1 (Closes.onEvent d watches e)
  keeps_command {d : D} {watches : Watches} (ch : ConnectionHandle) (cmd : Cmd) (now : Instant) :
    Keeps d watches → Keeps (Drives.onCommand d ch cmd now) watches
  keeps_arm {d d' : D} {a : Drives.Arm D} {returns : Bool} {watches : Watches} :
    Drives.onArm d a = some (d', returns) → Keeps d watches → Keeps d' watches
  tells {d : D} {watches : Watches} (e : Event) : Keeps d watches →
    Tells d watches e (Closes.onEvent d watches e)

/-- The channel says how its connection was lost, once that is handled; until then its sender is
there, and the connection will be heard of. -/
structure Speaks (l : Loop D) (ch : ConnectionHandle) (watch : Watch) : Prop where
  value : ∀ reason, watch.value = some reason ↔ .connectionLost ch reason ∈ l.handled
  sender : watch.dropped = true → watch.value ≠ none
  heard : watch.value = none → Heard l.core.toCore ch

/-- Every channel says so. -/
structure Marked [Closes D] [LawfulCloses Q D] (l : Loop D) (watches : Watches) : Prop where
  keeps : LawfulCloses.Keeps l.driver watches
  losses : Losses l
  speaks : ∀ ch watch, watches.lookup ch = some watch → Speaks l ch watch

/-- A channel that was replaced, and the others. -/
theorem speaks_insert {l : Loop D} {watches : Watches} {ch : ConnectionHandle} {watch : Watch}
    (hothers : ∀ c w, watches.lookup c = some w → c ≠ ch → Speaks l c w) (hspeaks : Speaks l ch watch) :
    ∀ c w, (watches.insert ch watch).lookup c = some w → Speaks l c w := by
  intro c w hw
  by_cases hc : c = ch
  · subst hc
    rw [AList.lookup_insert] at hw
    exact Option.some.inj hw ▸ hspeaks
  · rw [AList.lookup_insert_ne hc] at hw
    exact hothers c w hw hc

/-- Only `pump` handles an event. -/
theorem handled_step (l : Loop D) {m : Move Q D} (hm : ∀ ord next, m ≠ .pump ord next) :
    (l.step H m).handled = l.handled := by
  have htaken := Loop.taken H l m
  generalize l.step H m = l' at htaken ⊢
  cases htaken with
  | polled | drained | sent | flushed => exact absurd rfl (hm _ _)
  | _ => rfl

/-- A move handles no event, or the first one of the queue, and the channels are told. -/
theorem tell_cases [Closes D] (H : KeyedHash) (l : Loop D) (watches : Watches) (m : Move Q D) :
    l.tell watches m = watches ∧ (l.step H m).handled = l.handled ∨
      ∃ e rest, l.core.events = e :: rest ∧ (l.step H m).handled = l.handled ++ [e] ∧
        (l.step H m).driver = (l.reacting e rest).1 ∧
        l.tell watches m =
          Closes.onEvent (Drives.setCore l.driver { l.core with events := rest }) watches e := by
  cases m with
  | pump ord next =>
    have hstep : l.step H (.pump ord next) = l.pump ord next := rfl
    rw [hstep, Loop.pump, Loop.tell]
    cases hphase : l.phase with
    | events now progressed lost =>
      cases hq : l.core.events with
      | nil =>
        have hpoll : l.core.toCore.pollEvent = (none, l.core.toCore) := by
          rw [Core.pollEvent, hq]
        rw [hpoll]
        exact .inl ⟨rfl, rfl⟩
      | cons e rest =>
        have hpoll : l.core.toCore.pollEvent =
            (some e, { l.core.toCore with events := rest }) := by
          rw [Core.pollEvent, hq]
        rw [hpoll]
        exact .inr ⟨e, rest, rfl, rfl, rfl, rfl⟩
    | transmits now progressed lost =>
      refine .inl ⟨rfl, ?_⟩
      dsimp only
      split <;> rfl
    | waiting | returned => exact .inl ⟨rfl, rfl⟩
  | datagram | socketError | command | timeout | arm | issue | cancel | receive =>
    exact .inl ⟨rfl, handled_step l (by simp)⟩

namespace Marked

variable [LawfulDrives Q D] [Closes D] [LawfulCloses Q D] {l : Loop D} {watches : Watches}

/-- A move that handles no event. -/
theorem quiet (h : Marked l watches) (hfit : Loop.Fit l) (m : Move Q D)
    (hhandled : (l.step H m).handled = l.handled) : Marked (l.step H m) watches := by
  have hlength : ∀ e, l.handled ++ [e] ≠ l.handled := fun e heq =>
    absurd (congrArg List.length heq) (by simp)
  refine ⟨?_, h.losses.step hfit m, fun ch watch hwatch => ?_⟩
  · have htaken := Loop.taken H l m
    generalize l.step H m = l' at htaken hhandled ⊢
    cases htaken with
    | idle | drained | failed | told | issued | cancelled | received => exact h.keeps
    | polled => exact absurd hhandled (hlength _)
    | sent | flushed | arrived | fired => exact LawfulCloses.keeps_setCore _ _ _ h.keeps
    | applied now | dropped now => exact LawfulCloses.keeps_command _ _ now h.keeps
    | armed _ _ harm => exact LawfulCloses.keeps_arm harm h.keeps
  · have hspeaks := h.speaks ch watch hwatch
    refine ⟨fun reason => ?_, hspeaks.sender, fun hnone => ?_⟩
    · rw [hhandled]
      exact hspeaks.value reason
    · rcases Loop.heard_step hfit m (hspeaks.heard hnone) with hheard | ⟨reason, hlost⟩
      · exact hheard
      · exact absurd (hlost.symm.trans hhandled) (hlength _)

/-- **Every move keeps the marks.** -/
theorem step (h : Marked l watches) (hfit : Loop.Fit l) (m : Move Q D) :
    Marked (l.step H m) (l.tell watches m) := by
  rcases tell_cases H l watches m with ⟨htell, hhandled⟩ |
    ⟨e, rest, hq, hhandled, hdriver, htell⟩
  · rw [htell]
    exact h.quiet hfit m hhandled
  · have hlosses := h.losses.step (H := H) hfit m
    have hkeeps := LawfulCloses.keeps_setCore l.driver { l.core with events := rest } watches
      h.keeps
    have htells := LawfulCloses.tells e hkeeps
    have hkept : LawfulCloses.Keeps (l.step H m).driver (l.tell watches m) := by
      rw [hdriver, htell]
      exact LawfulCloses.keeps_event e hkeeps
    rw [← htell] at htells
    generalize l.tell watches m = watches' at htells hkept ⊢
    refine ⟨hkept, hlosses, ?_⟩
    -- an event that is no loss of the connection leaves its channel
    have hother : ∀ ch watch, watches.lookup ch = some watch →
        (∀ reason, e ≠ .connectionLost ch reason) → Speaks (l.step H m) ch watch := by
      intro ch watch hwatch hno
      have hspeaks := h.speaks ch watch hwatch
      refine ⟨fun reason => ?_, hspeaks.sender, fun hnone => ?_⟩
      · rw [hhandled, List.mem_append, List.mem_singleton, hspeaks.value reason]
        exact ⟨.inl, fun hor => hor.resolve_right fun heq => hno reason heq.symm⟩
      · refine (Loop.heard_step hfit m (hspeaks.heard hnone)).resolve_right ?_
        rintro ⟨reason, hlost⟩
        rw [hhandled] at hlost
        exact hno reason (List.singleton_inj.mp (List.append_cancel_left hlost))
    cases htells with
    | @opened ch he hlive =>
      subst he
      rw [LawfulDrives.core_setCore] at hlive
      have hno : ∀ c reason, Event.connected ch ≠ .connectionLost c reason := by simp
      refine speaks_insert (fun c w hw _ => hother c w hw (hno c)) ⟨fun reason => ?_, by
        simp [Watch.channel], fun _ => .inl ?_⟩
      · refine ⟨fun heq => absurd heq (by simp [Watch.channel]), fun hlost => ?_⟩
        rw [hhandled, List.mem_append, List.mem_singleton] at hlost
        rcases hlost with hold | heq
        · exact absurd hlive (h.losses.gone ch reason hold).1
        · exact absurd heq.symm (hno ch reason)
      · show ch ∈ (Drives.core (l.step H m).driver).connections
        rw [hdriver]
        refine ((hfit.reacts H hq).stays.2 ch).mpr ?_
        rw [LawfulDrives.core_setCore]
        exact hlive
    | @told ch reason watch he hwatch dropped =>
      subst he
      refine speaks_insert (fun c w hw hc => hother c w hw fun reason' heq =>
        hc (Event.connectionLost.inj heq).1.symm) ⟨fun reason' => ?_, by simp, by simp⟩
      rw [hhandled, List.mem_append, List.mem_singleton]
      refine ⟨fun heq => .inr (by rw [Option.some.inj heq]), fun hlost => ?_⟩
      rcases hlost with hold | heq
      · exact absurd hold (h.losses.first hq reason')
      · rw [(Event.connectionLost.inj heq).2]
    | kept hno =>
      refine fun ch watch hwatch => hother ch watch hwatch ?_
      rintro reason rfl
      obtain ⟨reason', hvalue⟩ := Option.ne_none_iff_exists'.mp (hno ch reason rfl watch hwatch)
      exact h.losses.first hq reason' (((h.speaks ch watch hwatch).value reason').mp hvalue)

end Marked

end

/-! ## The two drivers -/

namespace Driver

/-- Every connection handed out has a channel, and one without a value has its sender parked. -/
structure Keeps (d : Driver Q) (watches : Watches) : Prop where
  stocked : ∀ conn ∈ d.stock, conn.handle ∈ watches
  parked : ∀ ch watch, watches.lookup ch = some watch → watch.value = none → ch ∈ d.parked

variable {d d' : Driver Q} {watches : Watches}

/-- Nothing has happened to the collections. -/
theorem Keeps.same (h : Keeps d watches) (hsame : Same d d') : Keeps d' watches := by
  refine ⟨fun conn hconn => ?_, fun ch watch hwatch hnone => ?_⟩
  · rw [stock, hsame.accepted, hsame.pending] at hconn
    exact h.stocked conn hconn
  · exact (hsame.parked ch).mpr (h.parked ch watch hwatch hnone)

/-- Only the two events that change the collections concern the channels. -/
theorem tell_idle {e : Event} (h : Idle d (.event e)) : d.tell watches e = watches := by
  cases e with
  | connected ch =>
    simp only [tell]
    rcases h with hmem | hnone
    · rw [if_pos hmem]
    · rw [hnone]
      split <;> rfl
  | connectionLost => exact absurd h id
  | streamOpened | streamReadable | streamWritable | streamFinAcked | streamStopped => rfl

/-- No channel goes away. -/
theorem mem_tell (d : Driver Q) {ch : ConnectionHandle} (h : ch ∈ watches) (e : Event) :
    ch ∈ d.tell watches e := by
  have hinsert : ∀ c (watch : Watch), ch ∈ watches.insert c watch := fun _ _ =>
    (AList.mem_insert _).mpr (.inr h)
  cases e with
  | connected c =>
    simp only [tell]
    split
    · exact h
    · split
      · exact h
      · exact hinsert c _
  | connectionLost c reason =>
    simp only [tell]
    split
    · exact hinsert c _
    · exact h
  | streamOpened | streamReadable | streamWritable | streamFinAcked | streamStopped => exact h

theorem Keeps.onEvent (h : Keeps d watches) (e : Event) :
    Keeps (d.onEvent e) (d.tell watches e) := by
  rcases d.step_cases (.event e) with hchange | ⟨hidle, hsame⟩
  · change Changes d (.event e) (d.onEvent e) at hchange
    generalize d.onEvent e = d' at hchange ⊢
    cases hchange with
    | @surfaced ch state _ hnew hstate heq =>
      have htell : d.tell watches (.connected ch) = watches.insert ch .channel := by
        simp only [tell, if_neg hnew, hstate]
      rw [heq, htell]
      refine ⟨fun conn hconn => ?_, fun c watch hwatch hnone => ?_⟩
      · rw [stock, ← List.append_assoc] at hconn
        rcases List.mem_append.mp hconn with hold | hconn
        · exact (AList.mem_insert _).mpr (.inr (h.stocked conn hold))
        · rw [List.mem_singleton.mp hconn]
          exact (AList.mem_insert _).mpr (.inl rfl)
      · by_cases hc : c = ch
        · exact (AList.mem_insert _).mpr (.inl hc)
        · rw [AList.lookup_insert_ne hc] at hwatch
          exact (AList.mem_insert _).mpr (.inr (h.parked c watch hwatch hnone))
    | @lost ch reason =>
      have hlookup : ∀ c, c ≠ ch →
          (d.tell watches (.connectionLost ch reason)).lookup c = watches.lookup c := by
        intro c hc
        simp only [tell]
        split
        · rw [AList.lookup_insert_ne hc]
        · rfl
      refine ⟨fun conn hconn => ?_, fun c watch hwatch hnone => ?_⟩
      · refine d.mem_tell (h.stocked conn ?_) _
        rcases List.mem_append.mp hconn with hconn | hconn
        · exact List.mem_append_left _ hconn
        · exact List.mem_append_right _ (List.mem_filter.mp hconn).1
      · by_cases hc : c = ch
        · subst hc
          simp only [tell] at hwatch
          cases hparked : d.parked.lookup c with
          | none =>
            rw [hparked] at hwatch
            exact absurd (h.parked c watch hwatch hnone) (AList.lookup_eq_none.mp hparked)
          | some p =>
            rw [hparked] at hwatch
            cases hold : watches.lookup c with
            | none =>
              rw [hold] at hwatch
              exact absurd (hold.symm.trans hwatch) (by simp)
            | some watch₀ =>
              rw [hold] at hwatch
              have hnew := AList.lookup_insert (a := c) (b := (watch₀.markClosed reason).drop) watches
              rw [← Option.some.inj (hnew.symm.trans hwatch)] at hnone
              exact absurd hnone (by simp [Watch.markClosed, Watch.drop])
        · rw [hlookup c hc] at hwatch
          exact AList.mem_erase.mpr ⟨hc, h.parked c watch hwatch hnone⟩
  · rw [tell_idle hidle]
    exact h.same hsame

theorem Keeps.tells (h : Keeps d watches) (e : Event) : Tells d watches e (d.tell watches e) := by
  cases e with
  | connected ch =>
    simp only [tell]
    split
    · exact .kept fun _ _ he => absurd he (by simp)
    · cases hstate : d.core.connections.lookup ch with
      | none => exact .kept fun _ _ he => absurd he (by simp)
      | some state =>
        have hlive : ch ∈ d.core.connections := AMap.mem_iff_lookup.mpr ⟨state, hstate⟩
        exact .opened rfl hlive
  | connectionLost ch reason =>
    simp only [tell]
    cases hparked : d.parked.lookup ch with
    | none =>
      refine .kept fun c reason' he watch hwatch hnone => ?_
      obtain ⟨rfl, -⟩ := Event.connectionLost.inj he
      exact AList.lookup_eq_none.mp hparked (h.parked ch watch hwatch hnone)
    | some p =>
      cases hwatch : watches.lookup ch with
      | none =>
        refine .kept fun c reason' he watch hwatch' _ => ?_
        obtain ⟨rfl, -⟩ := Event.connectionLost.inj he
        exact absurd (hwatch.symm.trans hwatch') (by simp)
      | some watch => exact .told rfl hwatch true
  | streamOpened | streamReadable | streamWritable | streamFinAcked | streamStopped =>
    exact .kept fun _ _ he => absurd he (by simp)

instance : LawfulCloses Q (Driver Q) where
  Keeps := Keeps
  keeps_setCore := fun _ _ _ h => ⟨h.stocked, h.parked⟩
  keeps_event := fun e h => h.onEvent e
  keeps_command := fun ch _ _ h => h.same (withState_same _ ch _)
  keeps_arm := by
    intro d d' a returns watches harm h
    rcases onArm_cases harm with ⟨rfl, -⟩ | ⟨rfl, -⟩
    · refine ⟨fun conn hconn => h.stocked conn (d.stock_deliver ▸ hconn), ?_⟩
      rw [d.deliver_spec.2.1]
      exact h.parked
    · exact h
  tells := fun e h => h.tells e

end Driver

namespace ClientDriver

theorem onEvent_handle (d : ClientDriver Q) (e : Event) : (d.onEvent e).1.handle = d.handle := by
  have hturns := d.turns e
  generalize d.onEvent e = r at hturns ⊢
  cases hturns with
  | connected =>
    rw [d.surface_eq]
  | lost => rfl
  | idle _ hsame => exact hsame.handle

/-- The driver's own channel is the only one. -/
def Keeps (d : ClientDriver Q) (watches : Watches) : Prop := ∀ ch, ch ∈ watches ↔ ch = d.handle

theorem Keeps.tells {d : ClientDriver Q} {watches : Watches} (h : Keeps d watches) (e : Event) :
    Tells d watches e (d.tell watches e) ∧ Keeps d (d.tell watches e) := by
  cases e with
  | connectionLost ch reason =>
    simp only [tell]
    by_cases hch : ch = d.handle
    · subst hch
      obtain ⟨watch, hwatch⟩ := AMap.mem_iff_lookup.mp ((h d.handle).mpr rfl)
      rw [if_pos rfl, hwatch]
      refine ⟨.told rfl hwatch watch.dropped, fun c => ?_⟩
      rw [AMap.mem_insert_of_lookup hwatch]
      exact h c
    · rw [if_neg hch]
      refine ⟨.kept fun c reason' he watch hwatch _ => ?_, h⟩
      obtain ⟨rfl, -⟩ := Event.connectionLost.inj he
      exact hch ((h ch).mp (AMap.mem_iff_lookup.mpr ⟨watch, hwatch⟩))
  | connected | streamOpened | streamReadable | streamWritable | streamFinAcked | streamStopped =>
    exact ⟨.kept fun _ _ he => absurd he (by simp), h⟩

instance : LawfulCloses Q (ClientDriver Q) where
  Keeps := Keeps
  keeps_setCore := fun _ _ _ h => h
  keeps_event := by
    intro d watches e h ch
    show ch ∈ d.tell watches e ↔ ch = (d.onEvent e).1.handle
    rw [d.onEvent_handle]
    exact (h.tells e).2 ch
  keeps_command := by
    intro d watches ch cmd now h c
    show c ∈ watches ↔ c = (d.onCommand ch cmd now).handle
    rw [(d.onCommand_same ch cmd now).handle]
    exact h c
  keeps_arm := fun {_ _ a} _ _ => a.elim
  tells := fun e h => (h.tells e).1

end ClientDriver

/-! ## What `closed` comes to -/

section

variable {D : Type} [Drives Q D]

/-- Nothing of a driver without connections was lost. -/
theorem Losses.spawn {d : D} (hevents : (Drives.core d).events = []) (now : Instant) :
    Losses (Loop.spawn d now) := by
  refine ⟨fun ch reason hlost => absurd hlost List.not_mem_nil, fun ch => ?_⟩
  show (naming ch (Drives.core d).events).countP Event.isLost ≤ 1
  rw [hevents]
  exact Nat.zero_le 1

/-- No channel goes away. -/
theorem Tells.mem {d : D} {watches watches' : Watches} {e : Event} (h : Tells d watches e watches')
    {ch : ConnectionHandle} (hch : ch ∈ watches) : ch ∈ watches' := by
  cases h with
  | opened | told => exact (AList.mem_insert _).mpr (.inr hch)
  | kept => exact hch

/-- A driver that has returned handles no more. -/
theorem Loop.returned_stays {l : Loop D} (h : l.phase = .returned) (m : Move Q D) :
    (l.step H m).phase = .returned ∧ (l.step H m).handled = l.handled := by
  have htaken := Loop.taken H l m
  generalize l.step H m = l' at htaken ⊢
  cases htaken with
  | idle | cancelled | received => exact ⟨h, rfl⟩
  | told hphase | issued hphase => exact absurd h hphase
  | polled hphase | drained hphase | sent hphase | flushed hphase | arrived _ _ _ _ _ _ hphase
  | failed _ hphase | applied _ _ hphase | dropped _ _ hphase | fired _ _ _ hphase
  | armed _ hphase => exact absurd (h.symm.trans hphase) (by simp)

namespace Ending

variable [Closes D] {s : Ending D}

variable [LawfulCloses Q D]

/-- **What `closed` comes to.** -/
theorem closed_eq_some_iff (h : Marked s.loop s.watches) {ch : ConnectionHandle}
    (hch : ch ∈ s.watches) (reason : ConnectionError) :
    s.closed ch = some reason ↔ .connectionLost ch reason ∈ s.loop.handled ∨
      s.loop.phase = .returned ∧ reason = .locallyClosed ∧
        ∀ reason', .connectionLost ch reason' ∉ s.loop.handled := by
  obtain ⟨watch, hwatch⟩ := AMap.mem_iff_lookup.mp hch
  have hspeaks := h.speaks ch watch hwatch
  rw [closed, hwatch, Option.bind_some]
  cases hvalue : watch.value with
  | some reason₀ =>
    have hlost := (hspeaks.value reason₀).mp hvalue
    have hclosed : (if s.loop.phase = .returned then watch.drop else watch).closed =
        some reason₀ := by
      split <;> simp [Watch.closed, Watch.drop, hvalue]
    rw [hclosed]
    constructor
    · rintro heq
      exact .inl (Option.some.inj heq ▸ hlost)
    · rintro (hlost' | ⟨-, -, hno⟩)
      · exact hvalue ▸ (hspeaks.value reason).mpr hlost'
      · exact absurd hlost (hno reason₀)
  | none =>
    have hno : ∀ reason', .connectionLost ch reason' ∉ s.loop.handled := fun reason' hlost =>
      absurd (hvalue.symm.trans ((hspeaks.value reason').mpr hlost)) (by simp)
    have hsender : watch.dropped = false := by
      cases hdropped : watch.dropped with
      | false => rfl
      | true => exact absurd hvalue (hspeaks.sender hdropped)
    by_cases hphase : s.loop.phase = .returned
    · rw [if_pos hphase]
      simp only [Watch.closed, Watch.drop, hvalue, if_true, Option.some.injEq]
      exact ⟨fun heq => .inr ⟨hphase, heq.symm, hno⟩, fun hor =>
        hor.elim (fun hlost => absurd hlost (hno reason)) fun ⟨_, heq, _⟩ => heq.symm⟩
    · rw [if_neg hphase]
      simp only [Watch.closed, hvalue, hsender, Bool.false_eq_true, if_false]
      exact ⟨fun heq => absurd heq (by simp), fun hor =>
        hor.elim (fun hlost => absurd hlost (hno reason)) fun ⟨heq, _⟩ => absurd heq hphase⟩

/-- Whoever still waits waits for a connection that will be heard of. -/
theorem closed_eq_none (h : Marked s.loop s.watches) {ch : ConnectionHandle}
    (hch : ch ∈ s.watches) (hopen : s.closed ch = none) :
    s.loop.phase ≠ .returned ∧ (∀ reason, .connectionLost ch reason ∉ s.loop.handled) ∧
      Heard s.loop.core.toCore ch := by
  have hno : ∀ reason, .connectionLost ch reason ∉ s.loop.handled := fun reason hlost =>
    absurd (hopen.symm.trans ((closed_eq_some_iff h hch reason).mpr (.inl hlost))) (by simp)
  refine ⟨fun hphase => ?_, hno, ?_⟩
  · exact absurd (hopen.symm.trans ((closed_eq_some_iff h hch .locallyClosed).mpr
      (.inr ⟨hphase, rfl, hno⟩))) (by simp)
  · obtain ⟨watch, hwatch⟩ := AMap.mem_iff_lookup.mp hch
    have hspeaks := h.speaks ch watch hwatch
    refine hspeaks.heard ?_
    cases hvalue : watch.value with
    | none => rfl
    | some reason => exact absurd ((hspeaks.value reason).mp hvalue) (hno reason)

variable [LawfulDrives Q D]

theorem marked_run (h : Marked s.loop s.watches) (hfit : Loop.Fit s.loop)
    (moves : List (Move Q D)) :
    Marked (s.run H moves).loop (s.run H moves).watches ∧ Loop.Fit (s.run H moves).loop := by
  induction moves generalizing s with
  | nil => exact ⟨h, hfit⟩
  | cons m moves ih => exact ih (h.step hfit m) (hfit.step m)

/-- **Nobody is told two things.** -/
theorem closed_stays (h : Marked s.loop s.watches) (hfit : Loop.Fit s.loop) {ch : ConnectionHandle}
    (hch : ch ∈ s.watches) {reason : ConnectionError} (hclosed : s.closed ch = some reason)
    (moves : List (Move Q D)) : (s.run H moves).closed ch = some reason := by
  induction moves generalizing s with
  | nil => exact hclosed
  | cons m moves ih =>
    have hnext := h.step (H := H) hfit m
    have hchannel : ch ∈ (s.step H m).watches := by
      show ch ∈ s.loop.tell s.watches m
      rcases tell_cases H s.loop s.watches m with ⟨htell, -⟩ | ⟨e, rest, -, -, -, htell⟩
      · rw [htell]
        exact hch
      · rw [htell]
        exact (LawfulCloses.tells e (LawfulCloses.keeps_setCore _ _ _ h.keeps)).mem hch
    refine ih (s := s.step H m) hnext (hfit.step m) hchannel ?_
    rw [closed_eq_some_iff hnext hchannel]
    rcases (closed_eq_some_iff h hch reason).mp hclosed with hlost | ⟨hphase, hreason, hno⟩
    · refine .inl ?_
      show _ ∈ (s.loop.step H m).handled
      rcases tell_cases H s.loop s.watches m with ⟨-, hhandled⟩ | ⟨e, rest, -, hhandled, -⟩
      · rw [hhandled]
        exact hlost
      · rw [hhandled]
        exact List.mem_append_left _ hlost
    · obtain ⟨hphase', hhandled⟩ := Loop.returned_stays (H := H) hphase m
      refine .inr ⟨hphase', hreason, fun reason' => ?_⟩
      show _ ∉ (s.loop.step H m).handled
      rw [hhandled]
      exact hno reason'

end Ending

end

/-- A server that was just bound has no channels. -/
def Ending.serve (ep : Endpoint Q) (now : Instant) : Ending (Driver Q) := ⟨Tokio.serve ep now, ∅⟩

/-- **A connection learns its end.** In every run of a server's loop, for every connection the
application was handed: `closed` answers with a reason exactly when the connection's one
`ConnectionLost` was handled, and it is that reason, or `LocallyClosed` when the server is gone and
none was handled. Who still waits waits for a connection that is live, or whose loss is queued, on a
server that is there. What was answered once is answered ever after. -/
theorem closed_reports (H : KeyedHash) (tls : Tls Q) (secrets : ServerSecrets) (ep₀ : Endpoint Q)
    (hnew : Endpoint.newServer tls secrets = .ok ep₀) (now : Instant)
    (moves : List (Move Q (Driver Q))) (conn : Connection)
    (hconn : conn ∈ ((Ending.serve ep₀ now).run H moves).loop.driver.accepted) :
    (∀ reason, ((Ending.serve ep₀ now).run H moves).closed conn.handle = some reason ↔
      .connectionLost conn.handle reason ∈ ((Ending.serve ep₀ now).run H moves).loop.handled ∨
      ((Ending.serve ep₀ now).run H moves).loop.phase = .returned ∧ reason = .locallyClosed ∧
        ∀ reason', .connectionLost conn.handle reason' ∉
          ((Ending.serve ep₀ now).run H moves).loop.handled) ∧
    (((Ending.serve ep₀ now).run H moves).closed conn.handle = none →
      ((Ending.serve ep₀ now).run H moves).loop.phase ≠ .returned ∧
      (∀ reason, .connectionLost conn.handle reason ∉
        ((Ending.serve ep₀ now).run H moves).loop.handled) ∧
      Heard ((Ending.serve ep₀ now).run H moves).loop.core.toCore conn.handle) ∧
    ∀ reason more, ((Ending.serve ep₀ now).run H moves).closed conn.handle = some reason →
      (((Ending.serve ep₀ now).run H moves).run H more).closed conn.handle = some reason := by
  have hevents : ep₀.events = [] := by
    obtain ⟨clients, -, hcore⟩ := Endpoint.newServer_core hnew
    exact congrArg (fun core => core.events) hcore
  have hmarked : Marked (Tokio.serve ep₀ now) ∅ :=
    ⟨⟨by simp [Tokio.serve, Loop.spawn, Driver.stock, Driver.new], by simp⟩,
      .spawn hevents now, by simp⟩
  obtain ⟨hrun, hfit⟩ := Ending.marked_run (H := H) (s := Ending.serve ep₀ now) hmarked
    (serve_fit hnew now) moves
  have hchannel : conn.handle ∈ ((Ending.serve ep₀ now).run H moves).watches :=
    hrun.keeps.stocked conn (List.mem_append_left _ hconn)
  exact ⟨Ending.closed_eq_some_iff hrun hchannel, Ending.closed_eq_none hrun hchannel,
    fun reason more hclosed => Ending.closed_stays hrun hfit hchannel hclosed more⟩

theorem closed_reports_leave :
    Endpoint.newServer Endpoint.miniTls Endpoint.miniSecrets = .ok Endpoint.miniServer ∧
      ∃ conn ∈ ((Ending.serve Endpoint.miniServer 0).run zeroHash leave).loop.driver.accepted,
        ((Ending.serve Endpoint.miniServer 0).run zeroHash leave).closed conn.handle =
          some (.applicationClosed 0 []) := by
  have hconn : ⟨⟨0, 1⟩, Endpoint.miniAddr, some "alice", ⟨0, 1⟩⟩ ∈
      ((Ending.serve Endpoint.miniServer 0).run zeroHash leave).loop.driver.accepted := by
    decide +kernel
  obtain ⟨hclosed, -⟩ := closed_reports zeroHash Endpoint.miniTls Endpoint.miniSecrets
    Endpoint.miniServer Endpoint.miniServer_new 0 leave _ hconn
  exact ⟨Endpoint.miniServer_new, _, hconn, (hclosed _).mpr (.inl (by decide +kernel))⟩

/-! ## On a client -/

namespace Dial

/-- The channels after a move of a dial. -/
def tell (d : Dial Q) (watches : Watches) : DialMove Q → Watches
  | .drive m => d.loop.tell watches m
  | .resolve | .elapse | .abort => watches

/-- The driver that a run of a dial leaves, with its channel. -/
def ending (H : KeyedHash) (d : Dial Q) (watches : Watches) :
    List (DialMove Q) → Ending (ClientDriver Q)
  | [] => ⟨d.loop, watches⟩
  | m :: moves => (d.step H m).ending H (d.tell watches m) moves

theorem ending_loop (moves : List (DialMove Q)) (d : Dial Q) (watches : Watches) :
    (d.ending H watches moves).loop = (d.run H moves).loop := by
  induction moves generalizing d watches with
  | nil => rfl
  | cons m moves ih => exact ih (d.step H m) (d.tell watches m)

/-- What is left of a dial that stops is not about its phase. -/
theorem marked_step {d : Dial Q} {watches : Watches} (h : Marked d.loop watches)
    (hsound : Sound d) (m : DialMove Q) : Marked (d.step H m).loop (d.tell watches m) := by
  have hsame : ∀ {l : Loop (ClientDriver Q)}, l.driver = d.loop.driver →
      l.handled = d.loop.handled → Marked l watches := by
    intro l hdriver hhandled
    refine ⟨hdriver ▸ h.keeps, ⟨?_, ?_⟩, fun ch watch hwatch => ⟨?_, ?_, ?_⟩⟩
    · rw [Loop.core, hdriver, hhandled]
      exact h.losses.gone
    · rw [Loop.core, hdriver, hhandled]
      exact h.losses.once
    · rw [hhandled]
      exact (h.speaks ch watch hwatch).value
    · exact (h.speaks ch watch hwatch).sender
    · rw [Loop.core, hdriver]
      exact (h.speaks ch watch hwatch).heard
  have hdrove : ∀ m, (d.step H (.drive m)).loop = d.loop.step H m →
      Marked (d.step H (.drive m)).loop (d.tell watches (.drive m)) := fun m heq =>
    heq ▸ h.step hsound.fit m
  cases m with
  | drive m =>
    cases m with
    | issue ch cmd =>
      cases hresult : d.result with
      | none => exact hsame (by simp only [step, hresult]) (by simp only [step, hresult])
      | some r =>
        cases r with
        | ok conn => exact hdrove _ (by simp only [step, hresult])
        | error e => exact hsame (by simp only [step, hresult]) (by simp only [step, hresult])
    | _ => exact hdrove _ rfl
  | resolve | elapse | abort =>
    show Marked (d.step H _).loop watches
    simp only [step]
    split <;> exact hsame rfl rfl

theorem marked_run (moves : List (DialMove Q)) {d : Dial Q} {watches : Watches}
    (h : Marked d.loop watches) (hsound : Sound d) :
    Marked (d.ending H watches moves).loop (d.ending H watches moves).watches := by
  induction moves generalizing d watches with
  | nil => exact h
  | cons m moves ih => exact ih (marked_step h hsound m) (hsound.step m)

end Dial

/-- A client that was just spawned has the one channel. -/
def ClientDriver.watches (ch : ConnectionHandle) : Watches := (∅ : Watches).insert ch .channel

/-- **A client's connection learns its end.** In every run of a dial that returned the connection,
`closed` answers with a reason exactly when the connection's one `ConnectionLost` was handled, and it
is that reason: the driver is not gone before. Who still waits waits for a connection that is live,
or whose loss is queued, on a driver that is there. -/
theorem closed_reports_dialled (H : KeyedHash) (tls : Tls Q) (dialled : Instant) (minute : UInt32)
    (cfg : ClientConfigFile) (ep : Endpoint Q) (ch : ConnectionHandle)
    (hnew : Endpoint.newClient H tls dialled minute cfg = .ok (ep, ch)) (now : Instant)
    (moves : List (DialMove Q)) (conn : Connection)
    (hconn : ((Dial.spawn ep ch now).run H moves).result = some (.ok conn)) :
    (∀ reason, ((Dial.spawn ep ch now).ending H (ClientDriver.watches ch) moves).closed
        conn.handle = some reason ↔
      .connectionLost ch reason ∈ ((Dial.spawn ep ch now).run H moves).loop.handled) ∧
    (((Dial.spawn ep ch now).ending H (ClientDriver.watches ch) moves).closed conn.handle = none →
      ((Dial.spawn ep ch now).run H moves).loop.phase ≠ .returned ∧
      (∀ reason, .connectionLost ch reason ∉
        ((Dial.spawn ep ch now).run H moves).loop.handled) ∧
      Heard ((Dial.spawn ep ch now).run H moves).loop.core.toCore ch) := by
  have hspawn := Dial.Sound.spawn hnew now
  have hsound := hspawn.run (H := H) moves
  have hhandle : ((Dial.spawn ep ch now).run H moves).loop.driver.handle = ch :=
    Dial.handle_run (Dial.spawn ep ch now) moves
  have hevents : ep.events = [] := by
    obtain ⟨dialCfg, conn, -, -, hcore⟩ := Endpoint.newClient_core hnew
    exact congrArg (fun core => core.events) hcore
  have hfound : ∀ c watch, (ClientDriver.watches ch).lookup c = some watch →
      c = ch ∧ watch = .channel := by
    intro c watch hwatch
    rw [ClientDriver.watches, AMap.lookup_insert_eq] at hwatch
    split at hwatch
    · rename_i hc
      exact ⟨hc, (Option.some.inj hwatch).symm⟩
    · exact absurd hwatch (by simp)
  have hmarked : Marked (Dial.spawn ep ch now).loop (ClientDriver.watches ch) := by
    refine ⟨fun c => ?_, .spawn hevents now, fun c watch hwatch => ?_⟩
    · rw [ClientDriver.watches, AList.mem_insert]
      exact or_iff_left (AList.notMem_empty c)
    · obtain ⟨rfl, rfl⟩ := hfound c watch hwatch
      refine ⟨fun reason => ⟨fun heq => absurd heq (by simp [Watch.channel]), fun hlost =>
        absurd hlost List.not_mem_nil⟩, by simp [Watch.channel], fun _ => ?_⟩
      exact hspawn.hears.resolve_left (by simp [Loop.Gone, Dial.spawn, Loop.spawn])
  have hrun := Dial.marked_run (H := H) moves hmarked hspawn
  have hloop := Dial.ending_loop (H := H) moves (Dial.spawn ep ch now) (ClientDriver.watches ch)
  obtain ⟨-, hown, -, -⟩ := hsound.settled.handed conn (hsound.returned conn hconn)
  have hch : conn.handle = ch := hown.trans hhandle
  have hchannel : conn.handle ∈
      ((Dial.spawn ep ch now).ending H (ClientDriver.watches ch) moves).watches := by
    refine (hrun.keeps conn.handle).mpr ?_
    rw [hloop, hhandle, hch]
  have hreturned : ((Dial.spawn ep ch now).run H moves).loop.phase = .returned →
      ∃ reason, .connectionLost ch reason ∈ ((Dial.spawn ep ch now).run H moves).loop.handled := by
    intro hphase
    obtain ⟨reason, hlost⟩ := ((hsound.stops.returns hphase).resolve_left (by simp [hconn])).1
    rw [hhandle] at hlost
    exact ⟨reason, hlost⟩
  refine ⟨fun reason => ?_, fun hopen => ?_⟩
  · rw [Ending.closed_eq_some_iff hrun hchannel, hloop, hch]
    refine or_iff_left ?_
    rintro ⟨hphase, -, hno⟩
    obtain ⟨reason', hlost⟩ := hreturned hphase
    exact hno reason' hlost
  · have hnone := Ending.closed_eq_none hrun hchannel hopen
    rw [hloop, hch] at hnone
    exact hnone

theorem closed_reports_dialled_farewell :
    Endpoint.newClient zeroHash Endpoint.miniTls 0 100
      ⟨Endpoint.miniPsk, Endpoint.miniAddr⟩ = .ok (Endpoint.miniClient, ⟨0, 1⟩) ∧
    ((Dial.spawn Endpoint.miniClient ⟨0, 1⟩ 0).ending zeroHash (ClientDriver.watches ⟨0, 1⟩)
      farewell).closed ⟨0, 1⟩ = some (.applicationClosed 0 []) := by
  have hok : ((Dial.spawn Endpoint.miniClient ⟨0, 1⟩ 0).run zeroHash farewell).result =
      some (.ok ⟨⟨0, 1⟩, Endpoint.miniAddr, none, ⟨0, 1⟩⟩) := by decide +kernel
  obtain ⟨hclosed, -⟩ := closed_reports_dialled zeroHash Endpoint.miniTls 0 100
    ⟨Endpoint.miniPsk, Endpoint.miniAddr⟩ Endpoint.miniClient ⟨0, 1⟩ dialled_mini 0
    farewell _ hok
  exact ⟨dialled_mini, (hclosed _).mpr (by decide +kernel)⟩

end QuietQuic.Tokio
