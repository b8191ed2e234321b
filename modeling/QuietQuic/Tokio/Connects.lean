import QuietQuic.Proto.Client
import QuietQuic.Tokio.Dialing

/-!
# A dial to its end

What `connect` returns, when the driver it spawned stops, and what becomes of the calls on the
handles, over every run of a dial. The first event handled that settles the dial (`verdict`) decides
all of it.

* `Settled.step`: what the driver holds for `connect` says the verdict.
* `Stops.step`: the driver stops at the end of the round that handles the loss.
* `Dial.Sound.run`: the invariant of the dial.
-/

namespace QuietQuic.Tokio

open QuietQuic.Lib QuietQuic.Proto

variable {Q : Quinn} {H : KeyedHash}

namespace Loop

variable {l l' : Loop (ClientDriver Q)}

/-! ## What settles a dial -/

/-- The loss of the dialled connection was handled. -/
def Gone (l : Loop (ClientDriver Q)) : Prop :=
  ∃ reason, .connectionLost l.driver.handle reason ∈ l.handled

/-- The first event handled that settles the dial. -/
def verdict (l : Loop (ClientDriver Q)) : Option Event :=
  l.handled.find? (ClientDriver.settles l.driver.handle)

/-- A move on which no event is handled. -/
structure Still (l l' : Loop (ClientDriver Q)) : Prop where
  handle : l'.driver.handle = l.driver.handle
  connected : l'.driver.connected = l.driver.connected
  handled : l'.handled = l.handled

/-- A move that handles an event: the driver finds the connections as they were. -/
structure Handles (l l' : Loop (ClientDriver Q)) (e : Event) (d : ClientDriver Q) (loses : Bool) :
    Prop where
  handled : l'.handled = l.handled ++ [e]
  handle : d.handle = l.driver.handle
  connected : d.connected = l.driver.connected
  connections : d.core.connections = l.core.connections
  turns : ClientDriver.Turns d e (l'.driver, loses)

/-- **Every move handles an event, or none.** -/
theorem still_or_handles (m : Move Q (ClientDriver Q)) :
    Still l (l.step H m) ∨ ∃ e d loses, Handles l (l.step H m) e d loses := by
  have htaken := Loop.taken H l m
  generalize l.step H m = l' at htaken ⊢
  cases htaken with
  | @polled _ _ _ _ _ e rest hphase hq =>
    let d : ClientDriver Q := { l.driver with core := { l.core with events := rest } }
    exact .inr ⟨e, d, _, rfl, rfl, rfl, rfl, d.turns e⟩
  | @applied now _ ch cmd | @dropped now _ ch cmd =>
    have hsame := l.driver.onCommand_same ch cmd now
    exact .inl ⟨hsame.handle, hsame.connected, rfl⟩
  | @armed a => exact Empty.elim a
  | _ => exact .inl ⟨rfl, rfl, rfl⟩

namespace Handles

variable {e : Event} {d : ClientDriver Q} {loses : Bool}

/-- The driver keeps its connection. -/
theorem handle_eq (h : Handles l l' e d loses) : l'.driver.handle = l.driver.handle := by
  obtain ⟨-, hhandle, -, -, hturns⟩ := h
  rw [← hhandle]
  generalize l'.driver = d' at hturns
  cases hturns with
  | connected => rw [d.surface_eq]
  | lost => rfl
  | idle _ hsame => exact hsame.handle

/-- Nothing is reaped, nothing comes. -/
theorem live (h : Handles l l' e d loses) (ch : ConnectionHandle) :
    ch ∈ l'.core.connections ↔ ch ∈ l.core.connections := by
  obtain ⟨-, -, -, hconns, hturns⟩ := h
  rw [← hconns]
  change ch ∈ l'.driver.core.connections ↔ _
  generalize l'.driver = d' at hturns
  cases hturns with
  | connected =>
    rw [d.surface_eq]
  | lost => exact Iff.rfl
  | idle _ hsame => exact hsame.live ch

theorem verdict_eq (h : Handles l l' e d loses) : l'.verdict =
    l.verdict.or (if ClientDriver.settles l.driver.handle e then some e else none) := by
  rw [verdict, h.handled, h.handle_eq, List.find?_append, verdict, List.find?_singleton]

/-- The driver is to stop when the event is the loss. -/
theorem loses_iff (h : Handles l l' e d loses) :
    loses = true ↔ ∃ reason, e = .connectionLost l.driver.handle reason := by
  obtain ⟨-, hhandle, -, -, hturns⟩ := h
  rw [← hhandle]
  generalize l'.driver = d' at hturns
  cases hturns with
  | connected he =>
    rw [he]
    simp
  | lost he => exact ⟨fun _ => ⟨_, he⟩, fun _ => rfl⟩
  | idle hno =>
    refine ⟨fun hyes => absurd hyes (by simp), ?_⟩
    rintro ⟨reason, rfl⟩
    exact absurd hno (by simp [ClientDriver.settles])

/-- A channel that was used stays as it is. -/
theorem used (h : Handles l l' e d loses) (hused : l.driver.connected ≠ .held) :
    l'.driver.connected = l.driver.connected :=
  (h.turns.used (h.connected ▸ hused)).trans h.connected

theorem gone_iff (h : Handles l l' e d loses) : Gone l' ↔ Gone l ∨ loses = true := by
  rw [h.loses_iff]
  unfold Gone
  rw [h.handle_eq, h.handled, ← exists_or]
  exact exists_congr fun reason => by
    rw [List.mem_append, List.mem_singleton, eq_comm (a := e)]

end Handles

theorem Still.gone_iff (h : Still l l') : Gone l' ↔ Gone l := by
  unfold Gone
  rw [h.handle, h.handled]

theorem Still.verdict_eq (h : Still l l') : l'.verdict = l.verdict := by
  rw [verdict, h.handle, h.handled, verdict]

/-- The channel takes one value. -/
theorem connected_stays (m : Move Q (ClientDriver Q)) (hused : l.driver.connected ≠ .held) :
    (l.step H m).driver.connected = l.driver.connected := by
  rcases still_or_handles (H := H) (l := l) m with hstill | ⟨e, d, loses, hhandles⟩
  · exact hstill.connected
  · exact hhandles.used hused

/-! ## What the channel holds -/

/-- What the driver's end of the channel says of the verdict. -/
structure Settled (l : Loop (ClientDriver Q)) : Prop where
  held : l.driver.connected = .held → l.verdict = none
  handed : ∀ conn, l.driver.connected = .sent (.ok conn) →
    l.verdict = some (.connected l.driver.handle) ∧ conn.handle = l.driver.handle ∧
      conn.cmds = l.driver.handle ∧ conn.clientId = none
  failed : ∀ e, l.driver.connected = .sent (.error e) →
    e = .handshakeIncomplete ∧ ∃ reason, l.verdict = some (.connectionLost l.driver.handle reason)
  dropped : l.driver.connected = .dropped → l.verdict = some (.connected l.driver.handle) ∧
    l.driver.handle ∉ l.core.connections

namespace Settled

/-- Once the sender is used the verdict is there. -/
theorem decided (h : Settled l) (hused : l.driver.connected ≠ .held) : ∃ e, l.verdict = some e := by
  cases hconn : l.driver.connected with
  | held => exact absurd hconn hused
  | sent result =>
    cases result with
    | ok conn => exact ⟨_, (h.handed conn hconn).1⟩
    | error e =>
      obtain ⟨-, reason, hverdict⟩ := h.failed e hconn
      exact ⟨_, hverdict⟩
  | dropped => exact ⟨_, (h.dropped hconn).1⟩

/-- Neither the verdict changes nor what is held. -/
theorem same (h : Settled l) (hhandle : l'.driver.handle = l.driver.handle)
    (hconn : l'.driver.connected = l.driver.connected) (hverdict : l'.verdict = l.verdict)
    (hreaped : l.driver.handle ∉ l.core.connections → l.driver.handle ∉ l'.core.connections) :
    Settled l' := by
  refine ⟨fun hc => ?_, fun conn hc => ?_, fun e hc => ?_, fun hc => ?_⟩ <;>
    rw [hconn] at hc <;> rw [hverdict]
  · exact h.held hc
  · rw [hhandle]
    exact h.handed conn hc
  · rw [hhandle]
    exact h.failed e hc
  · rw [hhandle]
    exact ⟨(h.dropped hc).1, hreaped (h.dropped hc).2⟩

/-- The event is handled once the sender was used. -/
theorem used (h : Settled l) {e : Event} {d : ClientDriver Q} {loses : Bool}
    (hhandles : Handles l l' e d loses) (hused : l.driver.connected ≠ .held) : Settled l' := by
  obtain ⟨first, hfirst⟩ := h.decided hused
  refine h.same hhandles.handle_eq (hhandles.used hused) ?_ fun hnot hlive =>
    hnot ((hhandles.live _).mp hlive)
  rw [hhandles.verdict_eq, hfirst]
  rfl

/-- `Connected` is handled: the connection is handed over, unless it was reaped. -/
theorem surfaced (h : Settled l) {d : ClientDriver Q}
    (hhandles : Handles l l' (.connected l.driver.handle) d false)
    (hdriver : l'.driver = d.surface) : Settled l' := by
  obtain ⟨hconn, hhandle⟩ := And.intro hhandles.connected hhandles.handle
  by_cases hheld : l.driver.connected = .held
  · have hverdict : l'.verdict = some (.connected l.driver.handle) := by
      rw [hhandles.verdict_eq, h.held hheld]
      simp [ClientDriver.settles]
    have hlive := hhandles.live l.driver.handle
    have hown := hhandles.handle_eq
    have hsurface : l'.driver.connected = d.surface.connected := congrArg _ hdriver
    unfold ClientDriver.surface at hsurface
    rw [hconn, hheld] at hsurface
    dsimp only at hsurface
    split at hsurface
    · rename_i hnone
      rw [hhandle, hhandles.connections] at hnone
      refine ⟨fun hc => ?_, fun conn hc => ?_, fun e hc => ?_, fun _ => ?_⟩
      · exact absurd (hsurface.symm.trans hc) (by simp)
      · exact absurd (hsurface.symm.trans hc) (by simp)
      · exact absurd (hsurface.symm.trans hc) (by simp)
      · rw [hown]
        exact ⟨hverdict, fun hmem => AList.lookup_eq_none.mp hnone (hlive.mp hmem)⟩
    · rename_i state hstate
      refine ⟨fun hc => ?_, fun conn hc => ?_, fun e hc => ?_, fun hc => ?_⟩
      · exact absurd (hsurface.symm.trans hc) (by simp)
      · rw [hown]
        obtain rfl := Except.ok.inj (Handoff.sent.inj (hsurface.symm.trans hc))
        exact ⟨hverdict, hhandle, hhandle, rfl⟩
      · exact absurd (hsurface.symm.trans hc) (by simp)
      · exact absurd (hsurface.symm.trans hc) (by simp)
  · exact h.used hhandles hheld

/-- The loss is handled. -/
theorem lost (h : Settled l) {d : ClientDriver Q} {reason : ConnectionError}
    (hhandles : Handles l l' (.connectionLost l.driver.handle reason) d true)
    (hdriver : l'.driver = d.onLost) : Settled l' := by
  by_cases hheld : l.driver.connected = .held
  · have hverdict : l'.verdict = some (.connectionLost l.driver.handle reason) := by
      rw [hhandles.verdict_eq, h.held hheld]
      simp [ClientDriver.settles]
    have hconn : l'.driver.connected = .sent (.error .handshakeIncomplete) := by
      rw [hdriver, ClientDriver.onLost_held (hhandles.connected.trans hheld)]
    refine ⟨fun hc => ?_, fun conn hc => ?_, fun e hc => ?_, fun hc => ?_⟩
    · exact absurd (hconn.symm.trans hc) (by simp)
    · exact absurd (hconn.symm.trans hc) (by simp)
    · rw [hhandles.handle_eq]
      exact ⟨(Except.error.inj (Handoff.sent.inj (hconn.symm.trans hc))).symm, reason, hverdict⟩
    · exact absurd (hconn.symm.trans hc) (by simp)
  · exact h.used hhandles hheld

/-- **Every move keeps it**: a channel that is still held takes what the event says. -/
theorem step (h : Settled l) (hfit : Fit l) (m : Move Q (ClientDriver Q)) :
    Settled (l.step H m) := by
  -- a reaped connection does not come back
  have hreaped : l.driver.handle ∉ l.core.connections →
      l.driver.handle ∉ (l.step H m).core.connections := by
    intro hnot hlive
    obtain ⟨calls, hworked, -⟩ := step_calls (H := H) hfit m
    rw [hworked.core] at hlive
    have hknown : l.driver.handle.generation < l.core.nextGeneration :=
      ClientDriver.Booked.known hfit.books
    exact (Endpoint.mem_run_or_newer calls hlive).elim hnot (Nat.not_le.mpr hknown)
  have hcases := still_or_handles (H := H) (l := l) m
  generalize l.step H m = l' at hcases hreaped ⊢
  rcases hcases with hstill | ⟨e, d, loses, hhandles⟩
  · exact h.same hstill.handle hstill.connected hstill.verdict_eq hreaped
  · have hturns := hhandles.turns
    generalize hdriver : l'.driver = d' at hturns
    cases hturns with
    | connected he =>
      rw [hhandles.handle] at he
      subst he
      exact h.surfaced hhandles hdriver
    | @lost reason he =>
      rw [hhandles.handle] at he
      subst he
      exact h.lost hhandles hdriver
    | idle hno hsame =>
      rw [hhandles.handle] at hno
      refine h.same hhandles.handle_eq ?_ ?_ hreaped
      · rw [hdriver, hsame.connected, hhandles.connected]
      · rw [hhandles.verdict_eq, hno]
        simp

end Settled

/-! ## When the driver stops -/

/-- The driver never waits once the loss is handled, and returns then, with everything sent; an
aborted one may return before. -/
structure Stops (aborted : Prop) (l : Loop (ClientDriver Q)) : Prop where
  handling : ∀ now progressed lost, l.phase = .events now progressed lost → (lost = true ↔ Gone l)
  sending : ∀ now progressed lost, l.phase = .transmits now progressed lost →
    (lost = true ↔ Gone l)
  waits : l.phase = .waiting → ¬ Gone l
  returns : l.phase = .returned → aborted ∨ Gone l ∧ l.core.outbound = []

namespace Stops

variable {aborted : Prop}

theorem mono (h : Stops aborted l) {aborted' : Prop} (haborted : aborted → aborted') :
    Stops aborted' l :=
  ⟨h.handling, h.sending, h.waits, fun hp => (h.returns hp).imp_left haborted⟩

/-- Nothing has happened to the loss, the phase or what is to be sent. -/
theorem same (h : Stops aborted l) (hgone : Gone l' ↔ Gone l) (hphase : l'.phase = l.phase)
    (hcore : l'.core = l.core) : Stops aborted l' := by
  refine ⟨fun now progressed lost hp => ?_, fun now progressed lost hp => ?_, fun hp => ?_,
    fun hp => ?_⟩ <;> rw [hphase] at hp <;> rw [hgone]
  · exact h.handling now progressed lost hp
  · exact h.sending now progressed lost hp
  · exact h.waits hp
  · rw [hcore]
    exact h.returns hp

theorem handles (hphase : ∃ now progressed lost, l.phase = .events now progressed lost ∧
    (lost = true ↔ Gone l)) : Stops aborted l := by
  obtain ⟨now, progressed, lost, hphase, hlost⟩ := hphase
  refine ⟨fun now' progressed' lost' hp => ?_, fun _ _ _ hp => ?_, fun hp => ?_, fun hp => ?_⟩
  · obtain ⟨-, -, rfl⟩ := Phase.events.inj (hphase.symm.trans hp)
    exact hlost
  all_goals exact absurd (hphase.symm.trans hp) (by simp)

theorem sends (hphase : ∃ now progressed lost, l.phase = .transmits now progressed lost ∧
    (lost = true ↔ Gone l)) : Stops aborted l := by
  obtain ⟨now, progressed, lost, hphase, hlost⟩ := hphase
  refine ⟨fun _ _ _ hp => ?_, fun now' progressed' lost' hp => ?_, fun hp => ?_, fun hp => ?_⟩
  · exact absurd (hphase.symm.trans hp) (by simp)
  · obtain ⟨-, -, rfl⟩ := Phase.transmits.inj (hphase.symm.trans hp)
    exact hlost
  all_goals exact absurd (hphase.symm.trans hp) (by simp)

/-- A wait ends in a new round. -/
theorem entered (h : Stops aborted l) (hwait : l.phase = .waiting) (hgone : Gone l' ↔ Gone l)
    {next : Instant} (hphase : l'.phase = .events next false false) : Stops aborted l' :=
  .handles ⟨next, false, false, hphase, by simp [hgone, h.waits hwait]⟩

theorem step (h : Stops aborted l) (m : Move Q (ClientDriver Q)) :
    Stops aborted (l.step H m) := by
  have htaken := Loop.taken H l m
  generalize l.step H m = l' at htaken ⊢
  cases htaken with
  | idle => exact h
  | @polled _ _ now progressed lost e rest hphase hq =>
    let d : ClientDriver Q := { l.driver with core := { l.core with events := rest } }
    have hhandles : Handles l
        { (l.withCore { l.core with events := rest }).after (l.reacting e rest).1 with
          handled := l.handled ++ [e]
          phase := .events now true (lost || (l.reacting e rest).2) } e d (l.reacting e rest).2 :=
      ⟨rfl, rfl, rfl, rfl, d.turns e⟩
    refine .handles ⟨now, true, _, rfl, ?_⟩
    rw [hhandles.gone_iff, Bool.or_eq_true, h.handling _ _ _ hphase]
  | @drained _ _ now progressed lost hphase hq =>
    exact .sends ⟨now, progressed, lost, rfl, h.handling _ _ _ hphase⟩
  | @sent _ _ now progressed lost t hphase ht =>
    exact .sends ⟨now, true, lost, rfl, h.sending _ _ _ hphase⟩
  | @flushed ord next now progressed lost hphase ht =>
    have hgone := h.sending _ _ _ hphase
    cases lost with
    | true =>
      have hnone : (l.core.toCore.pollTransmit ord now).1 = none := Answer.transmit.inj ht
      obtain ⟨-, hpass, hsent⟩ := pollTransmit_none hnone
      refine ⟨fun _ _ _ hp => ?_, fun _ _ _ hp => ?_, fun hp => ?_, fun _ =>
        .inr ⟨hgone.mp rfl, ?_⟩⟩
      · exact absurd hp (by simp)
      · exact absurd hp (by simp)
      · exact absurd hp (by simp)
      · show (l.core.toCore.pollTransmit ord now).2.outbound = []
        rw [hpass]
        exact hsent
    | false =>
      have hnot : ¬ Gone l := fun hlost => absurd (hgone.mpr hlost) (by simp)
      cases progressed with
      | true => exact .handles ⟨next, false, false, rfl, iff_of_false Bool.false_ne_true hnot⟩
      | false =>
        refine ⟨fun _ _ _ hp => ?_, fun _ _ _ hp => ?_, fun _ => hnot, fun hp => ?_⟩
        · exact absurd hp (by simp)
        · exact absurd hp (by simp)
        · exact absurd hp (by simp)
  | arrived _ _ _ _ _ _ hphase | failed _ hphase | fired _ _ _ hphase =>
    exact h.entered hphase Iff.rfl rfl
  | @applied now _ ch cmd _ hphase | @dropped now _ ch cmd _ hphase =>
    refine h.entered hphase ?_ rfl
    have hstill : Still l { l with driver := l.driver.onCommand ch cmd now } :=
      ⟨(l.driver.onCommand_same ch cmd now).handle,
        (l.driver.onCommand_same ch cmd now).connected, rfl⟩
    exact hstill.gone_iff
  | @armed a => exact Empty.elim a
  | told | issued | cancelled | received => exact h.same Iff.rfl rfl rfl

end Stops

/-- Until its loss is handled the connection is live, or the loss is queued. -/
def Hears (l : Loop (ClientDriver Q)) : Prop :=
  Gone l ∨ Heard l.core.toCore l.driver.handle

theorem Hears.step (h : Hears l) (hfit : Fit l) (m : Move Q (ClientDriver Q)) :
    Hears (l.step H m) := by
  have hheard : Heard l.core.toCore l.driver.handle → _ := heard_step (H := H) hfit m
  have hcases := still_or_handles (H := H) (l := l) m
  generalize l.step H m = l' at hcases hheard ⊢
  have hhandle : l'.driver.handle = l.driver.handle := by
    rcases hcases with hstill | ⟨e, d, loses, hhandles⟩
    · exact hstill.handle
    · exact hhandles.handle_eq
  have hgone : Gone l → Gone l' := by
    rcases hcases with hstill | ⟨e, d, loses, hhandles⟩
    · exact hstill.gone_iff.mpr
    · exact fun hgone => hhandles.gone_iff.mpr (.inl hgone)
  rcases h with hlost | hlive
  · exact .inl (hgone hlost)
  · rcases hheard hlive with hlive | ⟨reason, hlost⟩
    · exact .inr (hhandle ▸ hlive)
    · refine .inl ⟨reason, ?_⟩
      rw [hlost, hhandle]
      exact List.mem_append_right _ (List.mem_singleton_self _)

end Loop

/-! ## Runs of a dial -/

namespace Dial

/-- What holds of a dial between two moves. -/
structure Sound (d : Dial Q) : Prop where
  fit : d.loop.Fit
  accounted : d.loop.Accounted
  watched : d.loop.Watched
  followed : d.loop.Followed
  paced : d.loop.Paced
  settled : d.loop.Settled
  hears : d.loop.Hears
  stops : d.loop.Stops (d.result = some (.error .timedOut))
  returned : ∀ conn, d.result = some (.ok conn) → d.loop.driver.connected = .sent (.ok conn)
  failed : ∀ e, d.result = some (.error e) → e = .timedOut ∨
    e = .handshakeIncomplete ∧ (d.loop.driver.connected = .sent (.error .handshakeIncomplete) ∨
      d.loop.driver.connected = .dropped)

namespace Sound

variable {d : Dial Q}

/-- What the channel comes to, when the driver is there or stopped by itself. -/
theorem outcome_cases (h : Sound d) (hresult : d.result = none)
    {r : Except ClientError Connection} (houtcome : d.outcome = some r) :
    d.loop.driver.connected = .sent r ∨
      r = .error .handshakeIncomplete ∧ d.loop.driver.connected = .dropped := by
  unfold outcome at houtcome
  split at houtcome
  · rename_i hheld
    split at houtcome
    · rename_i hgone
      have hreturns := (h.stops.returns hgone).resolve_left (by simp [hresult])
      obtain ⟨reason, hlost⟩ := hreturns.1
      have hnone := h.settled.held hheld
      exact absurd (List.find?_eq_none.mp hnone _ hlost) (by simp [ClientDriver.settles])
    · exact absurd houtcome (by simp)
  · rename_i result hsent
    exact .inl (Option.some.inj houtcome ▸ hsent)
  · rename_i hdropped
    exact .inr ⟨(Option.some.inj houtcome).symm, hdropped⟩

/-- **Every move keeps it.** -/
theorem step (h : Sound d) (m : DialMove Q) : Sound (d.step H m) := by
  have htaken := Dial.taken H d m
  generalize d.step H m = d' at htaken ⊢
  cases htaken with
  | idle => exact h
  | drove m =>
    refine ⟨h.fit.step m, h.accounted.step h.fit m, h.watched.step h.accounted h.fit m,
      h.followed.step h.accounted h.fit m, h.paced.step m, h.settled.step h.fit m,
      h.hears.step h.fit m, h.stops.step m, fun conn hresult => ?_,
      fun e hresult => ?_⟩
    · have hsent := h.returned conn hresult
      exact (Loop.connected_stays m (by rw [hsent]; simp)).trans hsent
    · refine (h.failed e hresult).imp_right fun hfailed => ⟨hfailed.1, ?_⟩
      rcases hfailed.2 with hsent | hdropped
      · exact .inl ((Loop.connected_stays m (by rw [hsent]; simp)).trans hsent)
      · exact .inr ((Loop.connected_stays m (by rw [hdropped]; simp)).trans hdropped)
  | @resolved r hresult houtcome =>
    have hchannel := h.outcome_cases hresult houtcome
    refine ⟨h.fit, h.accounted, h.watched, h.followed, h.paced, h.settled, h.hears,
      h.stops.mono fun hno => absurd (hresult.symm.trans hno) (by simp), fun conn hr => ?_,
      fun e hr => ?_⟩
    · obtain rfl := Option.some.inj hr
      exact hchannel.resolve_right fun hno => absurd hno.1 (by simp)
    · obtain rfl := Option.some.inj hr
      refine .inr ?_
      rcases hchannel with hsent | ⟨he, hdropped⟩
      · obtain rfl := (h.settled.failed e hsent).1
        exact ⟨rfl, .inl hsent⟩
      · exact ⟨Except.error.inj he, .inr hdropped⟩
  | elapsed hresult houtcome =>
    refine ⟨h.fit, h.accounted, h.watched, h.followed, h.paced, h.settled, h.hears,
      h.stops.mono fun _ => rfl, fun conn hr => ?_, fun e hr => ?_⟩
    · exact absurd (Option.some.inj hr) (by simp)
    · exact .inl (Except.error.inj (Option.some.inj hr)).symm
  | aborted hresult =>
    refine ⟨⟨h.fit.books, h.fit.queued, h.fit.commands, h.fit.issued⟩, ?_, h.watched,
      fun hopen => absurd rfl hopen, ⟨fun hwait => absurd hwait (by simp),
        fun _ _ hfound => absurd hfound (by simp)⟩,
      ⟨h.settled.held, h.settled.handed, h.settled.failed, h.settled.dropped⟩, h.hears,
      ⟨fun _ _ _ hp => absurd hp (by simp), fun _ _ _ hp => absurd hp (by simp),
        fun hp => absurd hp (by simp), fun _ => .inl hresult⟩, h.returned, h.failed⟩
    exact h.accounted.frame (fun hopen => absurd rfl hopen) rfl rfl rfl rfl rfl rfl

theorem run (h : Sound d) (moves : List (DialMove Q)) : Sound (d.run H moves) := by
  induction moves generalizing d with
  | nil => exact h
  | cons m moves ih => exact ih (h.step m)

end Sound

/-- The datagram a move brings, as the call that would hand it to the core. -/
def arrival : DialMove Q → Option Call
  | .drive m => Loop.arrival m
  | .resolve | .elapse | .abort => none

/-- A dial works the core through its public calls alone. -/
theorem run_calls {d : Dial Q} (h : Sound d) (moves : List (DialMove Q)) :
    ∃ calls, Loop.Worked H d.loop calls (d.run H moves).loop ∧
      (calls.filter Loop.arrives).Sublist (moves.filterMap arrival) := by
  induction moves generalizing d with
  | nil => exact ⟨[], .refl rfl rfl rfl, List.Sublist.refl _⟩
  | cons m moves ih =>
    have hone : ∃ calls, Loop.Worked H d.loop calls (d.step H m).loop ∧
        (calls.filter Loop.arrives).Sublist (arrival m).toList := by
      have htaken := Dial.taken H d m
      generalize d.step H m = d' at htaken
      cases htaken with
      | drove m => exact Loop.step_calls h.fit m
      | idle | resolved | elapsed | aborted => exact ⟨[], .refl rfl rfl rfl, List.nil_sublist _⟩
    obtain ⟨calls, hworked, harrives⟩ := hone
    obtain ⟨calls', hworked', harrives'⟩ := ih (h.step m)
    refine ⟨calls ++ calls', hworked.trans hworked', ?_⟩
    have hcons : (m :: moves).filterMap arrival =
        (arrival m).toList ++ moves.filterMap arrival := by
      cases harr : arrival m <;> simp [harr]
    rw [List.filter_append, hcons]
    exact harrives.append harrives'

/-- The driver keeps its connection. -/
theorem handle_run (d : Dial Q) (moves : List (DialMove Q)) :
    (d.run H moves).loop.driver.handle = d.loop.driver.handle := by
  induction moves generalizing d with
  | nil => rfl
  | cons m moves ih =>
    refine (ih (d.step H m)).trans ?_
    have htaken := Dial.taken H d m
    generalize d.step H m = d' at htaken ⊢
    cases htaken with
    | drove m =>
      rcases Loop.still_or_handles (H := H) (l := d.loop) m with hstill | ⟨e, d, loses, hhandles⟩
      · exact hstill.handle
      · exact hhandles.handle_eq
    | idle | resolved | elapsed | aborted => rfl

/-- A timeout was one: the channel was open when it elapsed. -/
theorem timedOut_of_run {d : Dial Q} (h : Sound d) (hresult : d.result = none)
    (moves : List (DialMove Q)) (htimed : (d.run H moves).result = some (.error .timedOut)) :
    ∃ before after, moves = before ++ .elapse :: after ∧
      (d.run H before).result = none ∧ (d.run H before).outcome = none := by
  induction moves using List.reverseRecOn with
  | nil => exact absurd (hresult.symm.trans htimed) (by simp)
  | append_singleton moves m ih =>
    have hearlier : (d.run H moves).result = some (.error .timedOut) → ∃ before after,
        moves ++ [m] = before ++ .elapse :: after ∧
          (d.run H before).result = none ∧ (d.run H before).outcome = none := by
      intro hsame
      obtain ⟨before, after, heq, hbefore⟩ := ih hsame
      exact ⟨before, after ++ [m], by rw [heq, List.append_assoc]; rfl, hbefore⟩
    have hrun : d.run H (moves ++ [m]) = (d.run H moves).step H m := by
      rw [run, List.foldl_append]
      rfl
    have hsound := h.run (H := H) moves
    have htaken := Dial.taken H (d.run H moves) m
    rw [hrun] at htimed
    generalize (d.run H moves).step H m = d' at htaken htimed
    cases htaken with
    | idle | drove | aborted => exact hearlier htimed
    | elapsed hnone houtcome => exact ⟨moves, [], rfl, hnone, houtcome⟩
    | resolved hnone houtcome =>
      rw [Option.some.inj htimed] at houtcome
      rcases hsound.outcome_cases hnone houtcome with hsent | ⟨hno, -⟩
      · exact absurd (hsound.settled.failed _ hsent).1 (by simp)
      · exact absurd hno (by simp)

section Runs

variable {tls : Tls Q} {minute : UInt32} {cfg : ClientConfigFile} {ep : Endpoint Q}
  {ch : ConnectionHandle} {dialled : Instant}

/-- A new client, dialling. -/
theorem Sound.spawn (hnew : Endpoint.newClient H tls dialled minute cfg = .ok (ep, ch))
    (now : Instant) : Sound (Dial.spawn ep ch now) := by
  obtain ⟨dialCfg, conn, -, hgen, hcore⟩ := Endpoint.newClient_core hnew
  have hqueued : Queued ep.toCore :=
    .new (H := H) (.inr ⟨tls, dialled, minute, cfg, ch, hnew⟩)
  have hconns : ep.connections = (∅ : AMap ConnectionHandle (ConnState Q)).insert ch (.new conn) :=
    congrArg (fun core => core.connections) hcore
  have hevents : ep.events = [] := congrArg (fun core => core.events) hcore
  have hnext : ep.nextGeneration = 2 := congrArg (fun core => core.nextGeneration) hcore
  have hparked : ∀ c, Drives.parked (ClientDriver.new ep ch) c = .new := fun c => ite_self _
  have hlive : ch ∈ ep.connections := by
    rw [hconns]
    exact (AList.mem_insert _).mpr (.inl rfl)
  refine ⟨⟨⟨?_, fun conn hconn => absurd hconn
    (by simp [Dial.spawn, Loop.spawn, ClientDriver.new]), ⟨.new conn⟩⟩,
    hqueued, by simp [Loop.spawn, Dial.spawn], by simp [Loop.spawn, Dial.spawn]⟩,
    .spawn hparked now, .spawn hparked now, .spawn hparked hevents (fun c s hs => ?_) now,
    .spawn _ now, ⟨fun _ => rfl, fun conn hconn => ?_, fun e he => ?_, fun hc => ?_⟩,
    .inr (.inl hlive), .handles ⟨now, false, false, rfl, ?_⟩, fun conn hconn => ?_,
    fun e he => ?_⟩
  · show ch.generation < ep.nextGeneration
    omega
  · change ep.connections.lookup c = some s at hs
    rw [hconns, AMap.lookup_insert_eq] at hs
    split at hs
    · exact ⟨conn, (Option.some.inj hs).symm⟩
    · exact absurd hs (by simp)
  · exact absurd hconn (by simp [Dial.spawn, Loop.spawn, ClientDriver.new])
  · exact absurd he (by simp [Dial.spawn, Loop.spawn, ClientDriver.new])
  · exact absurd hc (by simp [Dial.spawn, Loop.spawn, ClientDriver.new])
  · simp [Loop.Gone, Dial.spawn, Loop.spawn]
  · exact absurd hconn (by simp [Dial.spawn])
  · exact absurd he (by simp [Dial.spawn])

end Runs

end Dial

/-! ## What a dial comes to -/

/-- **A client drives one connection.** In every run of a dial the core has no other connection than
the one it dialled, every event handled or still queued names it, and the loop works the core
through its public calls alone, with datagrams that arrived. Everything the socket was handed, in
order, is what those calls handed out, and each datagram of it is what the connection's own
`poll_transmit` answered: whoever sends the client whatever, nothing else leaves it. -/
theorem dials_one_connection (H : KeyedHash) (tls : Tls Q) (dialled : Instant) (minute : UInt32)
    (cfg : ClientConfigFile) (ep : Endpoint Q) (ch : ConnectionHandle)
    (hnew : Endpoint.newClient H tls dialled minute cfg = .ok (ep, ch)) (now : Instant)
    (moves : List (DialMove Q)) :
    (∀ a ∈ ((Dial.spawn ep ch now).run H moves).loop.core.connections, a = ch) ∧
    (∀ e ∈ ((Dial.spawn ep ch now).run H moves).loop.handled ++
      ((Dial.spawn ep ch now).run H moves).loop.core.events, e.conn = ch) ∧
    ∃ calls, ((Dial.spawn ep ch now).run H moves).loop.core = ep.run H calls ∧
      (calls.filter Loop.arrives).Sublist (moves.filterMap Dial.arrival) ∧
      ((Dial.spawn ep ch now).run H moves).loop.wire = Endpoint.handedOut H ep calls ∧
      ∀ t ∈ ((Dial.spawn ep ch now).run H moves).loop.wire,
        ∃ before call after, calls = before ++ call :: after ∧
          Endpoint.Justified H (ep.run H before) call t (.conn ch) := by
  obtain ⟨calls, hworked, harrives⟩ := Dial.run_calls (H := H) (Dial.Sound.spawn hnew now) moves
  obtain ⟨hlone, hempty⟩ := Lone.new hnew
  have hcore : ((Dial.spawn ep ch now).run H moves).loop.core = ep.run H calls := hworked.core
  have hwire : ((Dial.spawn ep ch now).run H moves).loop.wire = Endpoint.handedOut H ep calls :=
    hworked.wire
  have hhandled : ((Dial.spawn ep ch now).run H moves).loop.handled =
      (Endpoint.answers H ep calls).flatMap Proto.taken := hworked.handled
  rw [hcore, hwire, hhandled]
  refine ⟨(hlone.run calls).live, fun e he => ?_, calls, rfl, harrives, rfl,
    hlone.handedOut_own hempty calls⟩
  rcases List.mem_append.mp he with he | he
  · exact hlone.taken_run calls e he
  · exact (hlone.run calls).events e he

/-- `n` steps of `pump`. -/
def drives (n : Nat) : List (DialMove Mini) :=
  List.replicate n (.drive (.pump Endpoint.keyOrder 0))

/-- A datagram to the client's connection. -/
def hears (frame : List UInt8) : DialMove Mini :=
  .drive (.datagram Endpoint.keyOrder 0 Endpoint.miniAddr 100 (Endpoint.toFirst frame) 0)

/-- The server's greeting: `connect` returns, and the application waits for a stream. -/
def welcome : List (DialMove Mini) :=
  drives 5 ++ hears [0x1e] :: drives 5 ++
    [.resolve, .drive (.issue ⟨0, 1⟩ (.acceptBi 7)), .drive (.command 0 0)] ++ drives 3

/-- The server closes. -/
def farewell : List (DialMove Mini) := welcome ++ hears [0x1c] :: drives 3

theorem dialled_mini : Endpoint.newClient zeroHash Endpoint.miniTls 0 100
    ⟨Endpoint.miniPsk, Endpoint.miniAddr⟩ = .ok (Endpoint.miniClient, ⟨0, 1⟩) := rfl

theorem dials_one_connection_farewell :
    Endpoint.newClient zeroHash Endpoint.miniTls 0 100
      ⟨Endpoint.miniPsk, Endpoint.miniAddr⟩ = .ok (Endpoint.miniClient, ⟨0, 1⟩) ∧
    ((Dial.spawn Endpoint.miniClient ⟨0, 1⟩ 0).run zeroHash farewell).loop.wire =
      [⟨Endpoint.miniAddr, [0x40]⟩] ∧
    ∀ e ∈ ((Dial.spawn Endpoint.miniClient ⟨0, 1⟩ 0).run zeroHash farewell).loop.handled,
      e.conn = ⟨0, 1⟩ := by
  obtain ⟨-, hevents, -⟩ := dials_one_connection zeroHash Endpoint.miniTls 0 100
    ⟨Endpoint.miniPsk, Endpoint.miniAddr⟩ Endpoint.miniClient ⟨0, 1⟩ dialled_mini 0 farewell
  exact ⟨dialled_mini, by decide +kernel, fun e he => hevents e (List.mem_append_left _ he)⟩

/-- **When a client's driver stops.** In every run of a dial the driver leaves its core rested
whenever it waits, and does not wait once the loss of its connection is handled. When it returns,
unless the dial timed out and it was aborted, the loss was handled, and everything the connection
had to say was handed to the socket: the closing packets are not cut off. -/
theorem stops_once_lost (H : KeyedHash) (tls : Tls Q) (dialled : Instant) (minute : UInt32)
    (cfg : ClientConfigFile) (ep : Endpoint Q) (ch : ConnectionHandle)
    (hnew : Endpoint.newClient H tls dialled minute cfg = .ok (ep, ch)) (now : Instant)
    (moves : List (DialMove Q)) :
    (((Dial.spawn ep ch now).run H moves).loop.phase = .waiting →
      Rested ((Dial.spawn ep ch now).run H moves).loop.core.toCore ∧
      ∀ reason, .connectionLost ch reason ∉ ((Dial.spawn ep ch now).run H moves).loop.handled) ∧
    (((Dial.spawn ep ch now).run H moves).loop.phase = .returned →
      ((Dial.spawn ep ch now).run H moves).result = some (.error .timedOut) ∨
      (∃ reason, .connectionLost ch reason ∈
        ((Dial.spawn ep ch now).run H moves).loop.handled) ∧
      ∃ calls, ((Dial.spawn ep ch now).run H moves).loop.core = ep.run H calls ∧
        ((Dial.spawn ep ch now).run H moves).loop.wire = (ep.produced H calls).leaving) := by
  have hspawn := Dial.Sound.spawn hnew now
  have hsound := hspawn.run (H := H) moves
  obtain ⟨calls, hworked, -⟩ := Dial.run_calls (H := H) hspawn moves
  have hhandle : ((Dial.spawn ep ch now).run H moves).loop.driver.handle = ch :=
    Dial.handle_run (Dial.spawn ep ch now) moves
  have hgone : ((Dial.spawn ep ch now).run H moves).loop.Gone ↔ ∃ reason,
      .connectionLost ch reason ∈ ((Dial.spawn ep ch now).run H moves).loop.handled := by
    rw [Loop.Gone, hhandle]
  have hcore : ((Dial.spawn ep ch now).run H moves).loop.core = ep.run H calls := hworked.core
  have hwire : ((Dial.spawn ep ch now).run H moves).loop.wire = Endpoint.handedOut H ep calls :=
    hworked.wire
  refine ⟨fun hwait => ⟨hsound.paced.waits hwait, fun reason hlost => ?_⟩, fun hgone' => ?_⟩
  · exact hsound.stops.waits hwait (hgone.mpr ⟨reason, hlost⟩)
  · refine (hsound.stops.returns hgone').imp_right fun hlost => ⟨hgone.mp hlost.1, calls, hcore, ?_⟩
    have hsent := hlost.2
    rw [hcore] at hsent
    have hall := Endpoint.run_outbound (H := H) calls ep
    rw [hsent, List.append_nil, (Lone.new hnew).2, List.nil_append] at hall
    exact hwire.trans hall

theorem stops_once_lost_farewell :
    Endpoint.newClient zeroHash Endpoint.miniTls 0 100
      ⟨Endpoint.miniPsk, Endpoint.miniAddr⟩ = .ok (Endpoint.miniClient, ⟨0, 1⟩) ∧
    ((Dial.spawn Endpoint.miniClient ⟨0, 1⟩ 0).run zeroHash farewell).loop.phase = .returned ∧
    ∃ reason, .connectionLost ⟨0, 1⟩ reason ∈
      ((Dial.spawn Endpoint.miniClient ⟨0, 1⟩ 0).run zeroHash farewell).loop.handled := by
  have hgone : ((Dial.spawn Endpoint.miniClient ⟨0, 1⟩ 0).run zeroHash farewell).loop.phase =
      .returned := by decide +kernel
  obtain ⟨-, hreturns⟩ := stops_once_lost zeroHash Endpoint.miniTls 0 100
    ⟨Endpoint.miniPsk, Endpoint.miniAddr⟩ Endpoint.miniClient ⟨0, 1⟩ dialled_mini 0 farewell
  refine ⟨dialled_mini, hgone, ?_⟩
  rcases hreturns hgone with htimed | ⟨hlost, -⟩
  · exact absurd htimed (by decide +kernel)
  · exact hlost

/-- **What `connect` returns**, in every run of a dial. The dialled connection: its `Connected` was
the first event handled to settle the dial. `HandshakeIncomplete`: its loss was, or it was reaped
by the time its `Connected` was handled. `TimedOut`: the timeout elapsed while the channel was open.
While `connect` waits on the open channel the driver is there, nothing has settled the dial, and the
connection is live or its loss is queued. -/
theorem connect_returns (H : KeyedHash) (tls : Tls Q) (dialled : Instant) (minute : UInt32)
    (cfg : ClientConfigFile) (ep : Endpoint Q) (ch : ConnectionHandle)
    (hnew : Endpoint.newClient H tls dialled minute cfg = .ok (ep, ch)) (now : Instant)
    (moves : List (DialMove Q)) :
    (∀ conn, ((Dial.spawn ep ch now).run H moves).result = some (.ok conn) →
      conn.handle = ch ∧ conn.cmds = ch ∧ conn.clientId = none ∧
      ((Dial.spawn ep ch now).run H moves).loop.handled.find? (ClientDriver.settles ch) =
        some (.connected ch)) ∧
    (∀ e, ((Dial.spawn ep ch now).run H moves).result = some (.error e) →
      e = .handshakeIncomplete ∧
        ((∃ reason, ((Dial.spawn ep ch now).run H moves).loop.handled.find?
          (ClientDriver.settles ch) = some (.connectionLost ch reason)) ∨
        ((Dial.spawn ep ch now).run H moves).loop.handled.find? (ClientDriver.settles ch) =
          some (.connected ch) ∧
          ch ∉ ((Dial.spawn ep ch now).run H moves).loop.core.connections) ∨
      e = .timedOut ∧ ∃ before after, moves = before ++ .elapse :: after ∧
        ((Dial.spawn ep ch now).run H before).result = none ∧
        ((Dial.spawn ep ch now).run H before).outcome = none) ∧
    (((Dial.spawn ep ch now).run H moves).outcome = none →
      ((Dial.spawn ep ch now).run H moves).loop.phase ≠ .returned ∧
      ((Dial.spawn ep ch now).run H moves).loop.handled.find? (ClientDriver.settles ch) = none ∧
      Heard ((Dial.spawn ep ch now).run H moves).loop.core.toCore ch) := by
  have hspawn := Dial.Sound.spawn hnew now
  have hsound := hspawn.run (H := H) moves
  have htimed := Dial.timedOut_of_run hspawn rfl (H := H) moves
  have hhandle : ((Dial.spawn ep ch now).run H moves).loop.driver.handle = ch :=
    Dial.handle_run (Dial.spawn ep ch now) moves
  generalize (Dial.spawn ep ch now).run H moves = d at hsound htimed hhandle ⊢
  subst hhandle
  refine ⟨fun conn hconn => ?_, fun e he => ?_, fun hopen => ?_⟩
  · obtain ⟨hverdict, hown, htag, hid⟩ := hsound.settled.handed conn (hsound.returned conn hconn)
    exact ⟨hown, htag, hid, hverdict⟩
  · rcases hsound.failed e he with rfl | ⟨rfl, hsent | hdropped⟩
    · exact .inr ⟨rfl, htimed he⟩
    · exact .inl ⟨rfl, .inl (hsound.settled.failed _ hsent).2⟩
    · exact .inl ⟨rfl, .inr (hsound.settled.dropped hdropped)⟩
  · obtain ⟨hheld, hphase⟩ : d.loop.driver.connected = .held ∧ d.loop.phase ≠ .returned := by
      unfold Dial.outcome at hopen
      split at hopen
      · rename_i hheld
        refine ⟨hheld, fun hgone => absurd hopen ?_⟩
        rw [if_pos hgone]
        simp
      · exact absurd hopen (by simp)
      · exact absurd hopen (by simp)
    have hnone := hsound.settled.held hheld
    refine ⟨hphase, hnone, hsound.hears.resolve_left ?_⟩
    rintro ⟨reason, hlost⟩
    exact absurd (List.find?_eq_none.mp hnone _ hlost) (by simp [ClientDriver.settles])

theorem connect_returns_welcome :
    Endpoint.newClient zeroHash Endpoint.miniTls 0 100
      ⟨Endpoint.miniPsk, Endpoint.miniAddr⟩ = .ok (Endpoint.miniClient, ⟨0, 1⟩) ∧
    ∃ conn, ((Dial.spawn Endpoint.miniClient ⟨0, 1⟩ 0).run zeroHash welcome).result =
        some (.ok conn) ∧ conn.cmds = ⟨0, 1⟩ := by
  have hok : ((Dial.spawn Endpoint.miniClient ⟨0, 1⟩ 0).run zeroHash welcome).result =
      some (.ok ⟨⟨0, 1⟩, Endpoint.miniAddr, none, ⟨0, 1⟩⟩) := by decide +kernel
  obtain ⟨hconnected, -⟩ := connect_returns zeroHash Endpoint.miniTls 0 100
    ⟨Endpoint.miniPsk, Endpoint.miniAddr⟩ Endpoint.miniClient ⟨0, 1⟩ dialled_mini 0 welcome
  exact ⟨dialled_mini, _, hok, (hconnected _ hok).2.1⟩

/-- **A client's connection is as one alone.** While the driver runs, what the loop has of the live
connection, its `ConnState`, its `Parked`, its commands, its events, its channels and replies, is
what a run of the connection's own actions makes of a new one. -/
theorem dials_apart (H : KeyedHash) (tls : Tls Q) (dialled : Instant) (minute : UInt32)
    (cfg : ClientConfigFile) (ep : Endpoint Q) (ch : ConnectionHandle)
    (hnew : Endpoint.newClient H tls dialled minute cfg = .ok (ep, ch)) (now : Instant)
    (moves : List (DialMove Q))
    (hopen : ((Dial.spawn ep ch now).run H moves).loop.phase ≠ .returned) (core : ConnState Q)
    (hcore : ((Dial.spawn ep ch now).run H moves).loop.core.connections.lookup ch = some core) :
    ∃ conn actions yielded, (Sys.start ch (.new conn)).run actions =
      ((Dial.spawn ep ch now).run H moves).loop.view ch core yielded := by
  have hsound := (Dial.Sound.spawn hnew now).run (H := H) moves
  obtain ⟨yielded, conn, actions, hrun⟩ := hsound.followed hopen ch core hcore
  exact ⟨conn, actions, yielded, hrun⟩

theorem dials_apart_welcome :
    Endpoint.newClient zeroHash Endpoint.miniTls 0 100
      ⟨Endpoint.miniPsk, Endpoint.miniAddr⟩ = .ok (Endpoint.miniClient, ⟨0, 1⟩) ∧
    ∃ core conn actions yielded, (Sys.start ⟨0, 1⟩ (.new conn)).run actions =
      ((Dial.spawn Endpoint.miniClient ⟨0, 1⟩ 0).run zeroHash welcome).loop.view ⟨0, 1⟩ core
        yielded := by
  have hlive : (((Dial.spawn Endpoint.miniClient ⟨0, 1⟩ 0).run zeroHash
      welcome).loop.core.connections.lookup ⟨0, 1⟩).isSome = true := by decide +kernel
  obtain ⟨core, hcore⟩ := Option.isSome_iff_exists.mp hlive
  obtain ⟨conn, actions, yielded, hrun⟩ := dials_apart zeroHash Endpoint.miniTls 0 100
    ⟨Endpoint.miniPsk, Endpoint.miniAddr⟩ Endpoint.miniClient ⟨0, 1⟩ dialled_mini 0 welcome
    (by decide +kernel) core hcore
  exact ⟨dialled_mini, core, conn, actions, yielded, hrun⟩

/-- **No call on a client's handles is forgotten.** In every run of a dial, what is received is of
the kind the call is answered with, and once. Whoever still waits: while the driver runs, the channel
is behind its command in the queue, or parked under the connection, which is live or whose loss is
queued, or answered once; when the driver is gone, lost or aborted, every channel resolves. -/
theorem dials_everyone (H : KeyedHash) (tls : Tls Q) (dialled : Instant) (minute : UInt32)
    (cfg : ClientConfigFile) (ep : Endpoint Q) (ch : ConnectionHandle)
    (hnew : Endpoint.newClient H tls dialled minute cfg = .ok (ep, ch)) (now : Instant)
    (moves : List (DialMove Q)) :
    (((Dial.spawn ep ch now).run H moves).loop.received.map Prod.fst).Nodup ∧
    (∀ x ∈ ((Dial.spawn ep ch now).run H moves).loop.received,
      ((Dial.spawn ep ch now).run H moves).loop.Fitting x) ∧
    ∀ t ∈ ((Dial.spawn ep ch now).run H moves).loop.waiting, ∃ cmd,
      ((Dial.spawn ep ch now).run H moves).loop.issued.lookup t = some (ch, cmd) ∧
      (((Dial.spawn ep ch now).run H moves).loop.phase ≠ .returned →
        ((Dial.spawn ep ch now).run H moves).loop.Placed t ch cmd) ∧
      (((Dial.spawn ep ch now).run H moves).loop.phase = .returned →
        ∃ r, ((Dial.spawn ep ch now).run H moves).loop.outcome t = some r ∧ r.Fits cmd) := by
  have hsound := (Dial.Sound.spawn hnew now).run (H := H) moves
  have hhandle : ((Dial.spawn ep ch now).run H moves).loop.driver.handle = ch :=
    Dial.handle_run (Dial.spawn ep ch now) moves
  generalize (Dial.spawn ep ch now).run H moves = d at hsound hhandle ⊢
  refine ⟨hsound.accounted.once, fun x hx => (hsound.accounted.received x hx).1, fun t ht => ?_⟩
  obtain ⟨⟨c, cmd⟩, hcmd⟩ := AMap.mem_iff_lookup.mp (hsound.accounted.awaited t ht)
  -- the handles are of the connection that was handed over
  obtain rfl : c = ch := by
    obtain ⟨conn, hconn, htag⟩ := ClientDriver.holds_iff.mp (hsound.fit.issued t _ hcmd)
    rw [← hhandle, ← (hsound.settled.handed conn hconn).2.2.1]
    exact htag.symm
  refine ⟨cmd, hcmd, fun hopen => hsound.accounted.placed hsound.fit hsound.watched hopen ht hcmd,
    fun hgone => ?_⟩
  obtain ⟨r, hr, a, cmd', hcmd', hfits⟩ := hsound.accounted.resolved hgone ht
  obtain ⟨-, rfl⟩ := Prod.mk.inj (Option.some.inj (hcmd'.symm.trans hcmd))
  exact ⟨r, hr, hfits⟩

theorem dials_everyone_farewell :
    Endpoint.newClient zeroHash Endpoint.miniTls 0 100
      ⟨Endpoint.miniPsk, Endpoint.miniAddr⟩ = .ok (Endpoint.miniClient, ⟨0, 1⟩) ∧
    ∃ r, ((Dial.spawn Endpoint.miniClient ⟨0, 1⟩ 0).run zeroHash farewell).loop.outcome 7 =
      some r ∧ r.Fits (.acceptBi 7) := by
  have hwait : 7 ∈ ((Dial.spawn Endpoint.miniClient ⟨0, 1⟩ 0).run zeroHash
      farewell).loop.waiting := by decide +kernel
  have hissued : ((Dial.spawn Endpoint.miniClient ⟨0, 1⟩ 0).run zeroHash
      farewell).loop.issued.lookup 7 = some (⟨0, 1⟩, .acceptBi 7) := by decide +kernel
  obtain ⟨-, -, hplaced⟩ := dials_everyone zeroHash Endpoint.miniTls 0 100
    ⟨Endpoint.miniPsk, Endpoint.miniAddr⟩ Endpoint.miniClient ⟨0, 1⟩ dialled_mini 0 farewell
  obtain ⟨cmd, hcmd, -, hgone⟩ := hplaced 7 hwait
  obtain ⟨-, rfl⟩ := Prod.mk.inj (Option.some.inj (hissued.symm.trans hcmd))
  exact ⟨dialled_mini, hgone (by decide +kernel)⟩

end QuietQuic.Tokio
