import QuietQuic.Proto.Strangers
import QuietQuic.Tokio.Accepting

/-!
# A rejected datagram wakes the server, and no more

`Silence` compares two runs of the endpoint, one without datagrams that were rejected. Here the runs
are of the whole server: the loop, its driver and the application. A rejected datagram ends a wait,
so what is left of it in the other run is a wakeup for nothing (`Move.spurious`), which `run` has
when `recv_from` fails.

* `withGates_step`: no move but a datagram looks at what the gates remember.
* `Unseen.deleted`, `Unseen.kept`: the two runs differ in what the gates remember alone.

Where every datagram is a stranger's there is nothing to compare with: such a run is silent.

* `stock_uninvited`: no move of such a run brings the application a connection.
-/

namespace QuietQuic.Tokio

open QuietQuic.Lib QuietQuic.Proto

variable {Q : Quinn} {H : KeyedHash}

/-! ## What the gates remember -/

namespace Driver

/-- The driver, with other replay guards and another limiter in its core. -/
def withGates (d : Driver Q) (replay : List ReplayGuard) (rateLimiter : RateLimiter) : Driver Q :=
  { d with core := { d.core with replay := replay, rateLimiter := rateLimiter } }

variable (d : Driver Q) (replay : List ReplayGuard) (rateLimiter : RateLimiter)

theorem withGates_withState (ch : ConnectionHandle) (f : Parked → ConnState Q → Outcome Q) :
    (d.withGates replay rateLimiter).withState ch f =
      (d.withState ch f).withGates replay rateLimiter := by
  have hparked : (d.withGates replay rateLimiter).parked.lookup ch = d.parked.lookup ch := rfl
  have hstate : (d.withGates replay rateLimiter).core.connections.lookup ch =
      d.core.connections.lookup ch := rfl
  unfold withState
  rw [hparked, hstate]
  cases d.parked.lookup ch <;> cases d.core.connections.lookup ch <;> rfl

theorem withGates_surface (ch : ConnectionHandle) :
    (d.withGates replay rateLimiter).surface ch =
      (d.surface ch).withGates replay rateLimiter := by
  have hstate : (d.withGates replay rateLimiter).core.connections.lookup ch =
      d.core.connections.lookup ch := rfl
  unfold surface
  by_cases hold : ch ∈ d.surfaced
  · rw [if_pos hold, if_pos (show ch ∈ (d.withGates replay rateLimiter).surfaced from hold)]
  · rw [if_neg hold, if_neg (show ch ∉ (d.withGates replay rateLimiter).surfaced from hold)]
    dsimp only
    rw [hstate]
    cases d.core.connections.lookup ch <;> rfl

theorem withGates_onEvent (e : Event) : (d.withGates replay rateLimiter).onEvent e =
    (d.onEvent e).withGates replay rateLimiter := by
  cases e with
  | connected ch => exact d.withGates_surface replay rateLimiter ch
  | streamOpened ch | streamReadable ch | streamWritable ch | streamStopped ch =>
    exact d.withGates_withState replay rateLimiter ch _
  | streamFinAcked ch id =>
    have hparked : (d.withGates replay rateLimiter).parked.lookup ch = d.parked.lookup ch := rfl
    show Driver.withParked _ ch _ = Driver.withGates (d.withParked ch _) _ _
    unfold Driver.withParked
    rw [hparked]
    cases d.parked.lookup ch <;> rfl
  | connectionLost => rfl

theorem withGates_deliver : (d.withGates replay rateLimiter).deliver =
    d.deliver.withGates replay rateLimiter := by
  have hpending : (d.withGates replay rateLimiter).pendingAccept = d.pendingAccept := rfl
  unfold Driver.deliver
  rw [hpending]
  cases d.pendingAccept <;> rfl

theorem withGates_onArm (a : ServerArm) : (d.withGates replay rateLimiter).onArm a =
    (d.onArm a).map fun r => (r.1.withGates replay rateLimiter, r.2) := by
  have hpending : (d.withGates replay rateLimiter).pendingAccept = d.pendingAccept := rfl
  cases a with
  | reserve permit =>
    simp only [Driver.onArm, hpending, withGates_deliver]
    cases d.pendingAccept <;> cases permit <;> rfl
  | closed => rfl

end Driver

namespace Loop

/-- The loop, with other replay guards and another limiter in its core. -/
def withGates (l : Loop (Driver Q)) (replay : List ReplayGuard) (rateLimiter : RateLimiter) :
    Loop (Driver Q) :=
  { l with driver := l.driver.withGates replay rateLimiter }

variable (l : Loop (Driver Q)) (replay : List ReplayGuard) (rateLimiter : RateLimiter)

theorem withGates_pump (ord : IterOrder) (next : Instant) :
    (l.withGates replay rateLimiter).pump ord next =
      (l.pump ord next).withGates replay rateLimiter := by
  have hphase : (l.withGates replay rateLimiter).phase = l.phase := rfl
  have hcore : (l.withGates replay rateLimiter).core.toCore = l.core.toCore := rfl
  unfold Loop.pump
  rw [hphase, hcore]
  cases l.phase with
  | events now progressed lost =>
    dsimp only
    cases hpoll : l.core.toCore.pollEvent with
    | mk answer core =>
      cases answer with
      | none => rfl
      | some e =>
        have hreact := Driver.withGates_onEvent
          (l.withCore { l.core with toCore := core }).driver replay rateLimiter e
        show
          { Loop.after ((l.withGates replay rateLimiter).withCore
              { (l.withGates replay rateLimiter).core with toCore := core })
              (Driver.onEvent (Driver.withGates (l.withCore { l.core with toCore := core }).driver
                replay rateLimiter) e) with
            handled := l.handled ++ [e]
            phase := .events now true (lost || false) } = _
        rw [hreact]
        rfl
  | transmits now progressed lost =>
    dsimp only
    cases hpoll : l.core.toCore.pollTransmit ord now with
    | mk answer core => cases answer <;> rfl
  | waiting => rfl
  | returned => rfl

theorem withGates_command (now next : Instant) :
    (l.withGates replay rateLimiter).step H (.command now next) =
      (l.step H (.command now next)).withGates replay rateLimiter := by
  have hphase : (l.withGates replay rateLimiter).phase = l.phase := rfl
  have hcommands : (l.withGates replay rateLimiter).commands = l.commands := rfl
  simp only [step, hphase, hcommands]
  cases l.phase with
  | waiting =>
    cases hq : l.commands with
    | nil => rfl
    | cons x rest =>
      obtain ⟨ch, cmd⟩ := x
      have happly := l.driver.withGates_withState replay rateLimiter ch
        fun p state => p.applyCmd state cmd now
      have hcommand : Drives.onCommand (l.withGates replay rateLimiter).driver ch cmd now =
          Driver.withGates (l.driver.onCommand ch cmd now) replay rateLimiter := happly
      dsimp only
      rw [hcommand]
      rfl
  | events | transmits | returned => rfl

theorem withGates_arm (a : ServerArm) (next : Instant) :
    (l.withGates replay rateLimiter).step H (.arm a next) =
      (l.step H (.arm a next)).withGates replay rateLimiter := by
  have hphase : (l.withGates replay rateLimiter).phase = l.phase := rfl
  have harm : Drives.onArm (l.withGates replay rateLimiter).driver a =
      (Drives.onArm l.driver a).map fun r => (Driver.withGates r.1 replay rateLimiter, r.2) :=
    l.driver.withGates_onArm replay rateLimiter a
  simp only [step, hphase]
  rw [harm]
  cases l.phase with
  | waiting =>
    cases Drives.onArm l.driver a with
    | none => rfl
    | some r => rfl
  | events | transmits | returned => rfl

theorem withGates_issue (ch : ConnectionHandle) (cmd : Cmd) :
    (l.withGates replay rateLimiter).step H (.issue ch cmd) =
      (l.step H (.issue ch cmd)).withGates replay rateLimiter := by
  have hclosed : ((l.withGates replay rateLimiter).phase = .returned ∨
      Drives.holds (l.withGates replay rateLimiter).driver ch = false) ↔
        (l.phase = .returned ∨ Drives.holds l.driver ch = false) := Iff.rfl
  simp only [step, hclosed]
  by_cases h : l.phase = .returned ∨ Drives.holds l.driver ch = false
  · rw [if_pos h, if_pos h]
  · rw [if_neg h, if_neg h]
    cases cmd.reply with
    | none => rfl
    | some t =>
      have htaken : (t ∈ (l.withGates replay rateLimiter).issued ∨
          (l.withGates replay rateLimiter).borrowed ch cmd = true) ↔
            (t ∈ l.issued ∨ l.borrowed ch cmd = true) := Iff.rfl
      simp only [htaken]
      by_cases h : t ∈ l.issued ∨ l.borrowed ch cmd = true
      · rw [if_pos h, if_pos h]
      · rw [if_neg h, if_neg h]
        rfl

theorem withGates_receive (t : Token) :
    (l.withGates replay rateLimiter).step H (.receive t) =
      (l.step H (.receive t)).withGates replay rateLimiter := by
  have houtcome : (l.withGates replay rateLimiter).outcome t = l.outcome t := rfl
  have hwaiting : (l.withGates replay rateLimiter).waiting = l.waiting := rfl
  simp only [step, houtcome, hwaiting]
  cases l.outcome t with
  | none => rfl
  | some r =>
    by_cases h : t ∈ l.waiting
    · simp only [if_pos h]
      rfl
    · simp only [if_neg h]

/-- **No move but a datagram looks at what the gates remember.** -/
theorem withGates_step (m : Move Q (Driver Q)) (hm : arrival m = none) :
    (l.withGates replay rateLimiter).step H m =
      (l.step H m).withGates replay rateLimiter := by
  have hwaits : ∀ a b : Loop (Driver Q),
      (if (l.withGates replay rateLimiter).phase = .waiting then
        a.withGates replay rateLimiter else b.withGates replay rateLimiter) =
      (if l.phase = .waiting then a else b).withGates replay rateLimiter := by
    intro a b
    rw [show (l.withGates replay rateLimiter).phase = l.phase from rfl]
    split <;> rfl
  cases m with
  | pump ord next => exact l.withGates_pump replay rateLimiter ord next
  | datagram => exact absurd hm (by simp [arrival])
  | socketError next => exact hwaits (l.enter next) l
  | command now next => exact l.withGates_command replay rateLimiter now next
  | timeout ord now next =>
    exact hwaits ((l.withCore
      { l.core with toCore := l.core.toCore.handleTimeout ord now }).enter next) l
  | arm a next => exact l.withGates_arm replay rateLimiter a next
  | issue ch cmd => exact l.withGates_issue replay rateLimiter ch cmd
  | cancel t => rfl
  | receive t => exact l.withGates_receive replay rateLimiter t

/-- The guards stay as they are where no datagram arrives. -/
theorem replay_step (m : Move Q (Driver Q)) (hm : arrival m = none) :
    (l.step H m).core.replay = l.core.replay := by
  have hsame := l.withGates_step (H := H) l.core.replay l.core.rateLimiter m hm
  rw [show l.withGates l.core.replay l.core.rateLimiter = l from rfl] at hsame
  rw [hsame]
  rfl

/-- Two cores that differ in their gates alone. -/
theorem withCore_withGates {ep ep' : Endpoint Q} (h : ep.toCore = ep'.toCore) :
    (l.withCore ep).withGates ep'.replay ep'.rateLimiter = l.withCore ep' := by
  cases ep
  cases ep'
  cases h
  rfl

end Loop

/-! ## Two runs -/

/-- What a rejected datagram is to the server: the end of a wait. -/
def Move.spurious : Move Q (Driver Q) → Move Q (Driver Q)
  | .datagram _ _ _ _ _ next => .socketError next
  | m => m

namespace Loop

/-- The run without the marked datagrams. -/
def spared (marked : List (Move Q (Driver Q) × Bool)) : List (Move Q (Driver Q)) :=
  marked.map fun x => if x.2 then x.1.spurious else x.1

/-- The gates reject the datagram, if the driver reads it now. -/
def Rejects (H : KeyedHash) (l : Loop (Driver Q)) : Move Q (Driver Q) → Prop
  | .datagram ord now src minute data _ =>
    l.phase = .waiting → Endpoint.Rejected H l.core (.handleDatagram ord now src minute data)
  | _ => True

instance (H : KeyedHash) (l : Loop (Driver Q)) (m : Move Q (Driver Q)) :
    Decidable (Rejects H l m) :=
  match m with
  | .datagram _ now src minute data _ =>
    inferInstanceAs (Decidable (l.phase = .waiting →
      (l.core.gate H now src minute data).1 = .rejected))
  | .pump .. | .socketError .. | .command .. | .timeout .. | .arm .. | .issue .. | .cancel _
  | .receive _ => isTrue trivial

/-- Every marked datagram of a run (`true`) is rejected in it. -/
def MarkedRejected (H : KeyedHash) : Loop (Driver Q) → List (Move Q (Driver Q) × Bool) → Prop
  | _, [] => True
  | l, (m, marked) :: rest =>
    (marked = true → Rejects H l m) ∧ MarkedRejected H (l.step H m) rest

instance decidableMarkedRejected (H : KeyedHash) :
    ∀ (l : Loop (Driver Q)) (marked : List (Move Q (Driver Q) × Bool)),
      Decidable (MarkedRejected H l marked)
  | _, [] => isTrue trivial
  | l, (m, marked) :: rest =>
    have := decidableMarkedRejected H (l.step H m) rest
    inferInstanceAs (Decidable ((marked = true → Rejects H l m) ∧
      MarkedRejected H (l.step H m) rest))

/-- The limiters of two servers agree on a datagram, if it is read now and they are asked. -/
def SameVerdict (l l' : Loop (Driver Q)) : Move Q (Driver Q) → Prop
  | .datagram ord now src minute data _ =>
    l.phase = .waiting →
      Endpoint.SameVerdict l.core l'.core (.handleDatagram ord now src minute data)
  | _ => True

instance (l l' : Loop (Driver Q)) (m : Move Q (Driver Q)) : Decidable (SameVerdict l l' m) :=
  match m with
  | .datagram _ now src _ data _ =>
    inferInstanceAs (Decidable (l.phase = .waiting → l.core.role = .server →
      l.core.isActiveDcid data = false → l.core.limiterSays now src = l'.core.limiterSays now src))
  | .pump .. | .socketError .. | .command .. | .timeout .. | .arm .. | .issue .. | .cancel _
  | .receive _ => isTrue trivial

/-- They agree on every datagram that is left in both runs. -/
def SameVerdicts (H : KeyedHash) :
    Loop (Driver Q) → Loop (Driver Q) → List (Move Q (Driver Q) × Bool) → Prop
  | _, _, [] => True
  | l, l', (m, true) :: rest => SameVerdicts H (l.step H m) (l'.step H m.spurious) rest
  | l, l', (m, false) :: rest =>
    SameVerdict l l' m ∧ SameVerdicts H (l.step H m) (l'.step H m) rest

instance decidableSameVerdicts (H : KeyedHash) :
    ∀ (l l' : Loop (Driver Q)) (marked : List (Move Q (Driver Q) × Bool)),
      Decidable (SameVerdicts H l l' marked)
  | _, _, [] => isTrue trivial
  | l, l', (m, true) :: rest => decidableSameVerdicts H (l.step H m) (l'.step H m.spurious) rest
  | l, l', (m, false) :: rest =>
    have := decidableSameVerdicts H (l.step H m) (l'.step H m) rest
    inferInstanceAs (Decidable (SameVerdict l l' m ∧
      SameVerdicts H (l.step H m) (l'.step H m) rest))

/-- The reading of the clock that a move brings. -/
def reading (m : Move Q (Driver Q)) : Option UInt32 := (arrival m).bind Endpoint.reading

/-- The reading after a move. -/
def readingAfter (m : Nat) (mv : Move Q (Driver Q)) : Nat :=
  ((reading mv).map UInt32.toNat).getD m

/-- The servers differ in what the gates remember alone, and the guards agree from reading `m` on. -/
def Unseen (m : Nat) (l l' : Loop (Driver Q)) : Prop :=
  ∃ replay rateLimiter, l' = l.withGates replay rateLimiter ∧
    Endpoint.GuardsAlike m l.core.replay replay

namespace Unseen

variable {m : Nat} {l l' : Loop (Driver Q)}

/-- The two cores after a datagram, or after none. -/
theorem of_alike (l : Loop (Driver Q)) {ep ep' : Endpoint Q} (h : Endpoint.Alike m ep ep')
    (next : Instant) : Unseen m ((l.withCore ep).enter next) ((l.withCore ep').enter next) := by
  refine ⟨ep'.replay, ep'.rateLimiter, ?_, h.2⟩
  rw [← l.withCore_withGates h.1]
  rfl

/-- A move without a datagram. -/
theorem other (h : Unseen m l l') {mv : Move Q (Driver Q)} (hmv : arrival mv = none) :
    Unseen m (l.step H mv) (l'.step H mv) := by
  obtain ⟨replay, rateLimiter, rfl, hguards⟩ := h
  refine ⟨replay, rateLimiter, l.withGates_step replay rateLimiter mv hmv, ?_⟩
  rwa [l.replay_step mv hmv]

/-- **A rejected datagram is not seen.** -/
theorem deleted (h : Unseen m l l') {mv : Move Q (Driver Q)} (hrejects : Rejects H l mv)
    (hm : ∀ minute, reading mv = some minute → m ≤ minute.toNat) :
    Unseen (readingAfter m mv) (l.step H mv) (l'.step H mv.spurious) := by
  cases mv with
  | datagram ord now src minute data next =>
    have hlater : m ≤ minute.toNat := hm minute rfl
    obtain ⟨replay, rateLimiter, rfl, hguards⟩ := h
    show Unseen minute.toNat _ _
    have hphase : (l.withGates replay rateLimiter).phase = l.phase := rfl
    simp only [Move.spurious, step, hphase]
    by_cases hwait : l.phase = .waiting
    · rw [if_pos hwait, if_pos hwait]
      have halike : Endpoint.Alike m l.core (l.withGates replay rateLimiter).core := ⟨rfl, hguards⟩
      obtain ⟨minute', hread, hafter⟩ := halike.deleted (hrejects hwait) fun minute' hread => by
        rw [← Option.some.inj hread]
        exact hlater
      obtain rfl := Option.some.inj hread
      exact of_alike l hafter next
    · rw [if_neg hwait, if_neg hwait]
      exact ⟨replay, rateLimiter, rfl, hguards.mono hlater⟩
  | _ => exact h.other rfl

/-- **What is left is seen alike.** -/
theorem kept (h : Unseen m l l') {mv : Move Q (Driver Q)} (hsame : SameVerdict l l' mv)
    (hm : ∀ minute, reading mv = some minute → m ≤ minute.toNat) :
    Unseen (readingAfter m mv) (l.step H mv) (l'.step H mv) := by
  cases mv with
  | datagram ord now src minute data next =>
    have hlater : m ≤ minute.toNat := hm minute rfl
    obtain ⟨replay, rateLimiter, rfl, hguards⟩ := h
    show Unseen minute.toNat _ _
    have hphase : (l.withGates replay rateLimiter).phase = l.phase := rfl
    simp only [step, hphase]
    by_cases hwait : l.phase = .waiting
    · rw [if_pos hwait, if_pos hwait]
      have halike : Endpoint.Alike m l.core (l.withGates replay rateLimiter).core := ⟨rfl, hguards⟩
      have hkept := halike.kept (H := H) (hsame hwait) fun minute' hread => by
        rw [← Option.some.inj hread]
        exact hlater
      exact of_alike l hkept.2 next
    · rw [if_neg hwait, if_neg hwait]
      exact ⟨replay, rateLimiter, rfl, hguards.mono hlater⟩
  | _ => exact h.other rfl

/-- **Every run**, one move after another. -/
theorem run : ∀ (marked : List (Move Q (Driver Q) × Bool)) {m : Nat} {l l' : Loop (Driver Q)},
    Unseen m l l' → (marked.filterMap fun x => reading x.1).Pairwise (· ≤ ·) →
    (∀ minute ∈ marked.filterMap fun x => reading x.1, m ≤ minute.toNat) →
    MarkedRejected H l marked → SameVerdicts H l l' marked →
      ∃ n, Unseen n (l.run H (marked.map Prod.fst)) (l'.run H (spared marked))
  | [], m, _, _, h, _, _, _, _ => ⟨m, h⟩
  | (mv, marked) :: rest, m, l, l', h, hmono, hm, hrejected, hsame => by
    have hfirst : ∀ minute, reading mv = some minute → m ≤ minute.toNat := fun minute hread =>
      hm minute (List.mem_filterMap.mpr ⟨(mv, marked), List.mem_cons_self, hread⟩)
    have hmono' : (rest.filterMap fun x => reading x.1).Pairwise (· ≤ ·) :=
      hmono.sublist ((List.sublist_cons_self _ _).filterMap _)
    have hlater : ∀ minute ∈ rest.filterMap fun x => reading x.1,
        readingAfter m mv ≤ minute.toNat := by
      intro minute hmem
      unfold readingAfter
      cases hread : reading mv with
      | none =>
        obtain ⟨x, hx, hread'⟩ := List.mem_filterMap.mp hmem
        exact hm minute (List.mem_filterMap.mpr ⟨x, List.mem_cons_of_mem _ hx, hread'⟩)
      | some first =>
        have hcons := List.filterMap_cons_some (f := fun x : Move Q (Driver Q) × Bool =>
          reading x.1) (a := (mv, marked)) (l := rest) hread
        rw [hcons, List.pairwise_cons] at hmono
        exact UInt32.le_iff_toNat_le.mp (hmono.1 minute hmem)
    cases marked with
    | true => exact run rest (h.deleted (hrejected.1 rfl) hfirst) hmono' hlater hrejected.2 hsame
    | false => exact run rest (h.kept hsame.1 hfirst) hmono' hlater hrejected.2 hsame.2

end Unseen

end Loop

/-- **A rejected datagram wakes the server, and no more.** Take any run of a server's loop, with
non-decreasing minute readings, and any set of its datagrams that were rejected in it. Let each of
them be a failed `recv_from` instead. When the limiter gives every datagram that is left the same
verdict, the two runs end in servers that differ in what their gates remember alone: what went to
the socket, the events handled, the connections accepted, what is parked, and every reply are the
same. -/
theorem rejected_unseen (H : KeyedHash) (l : Loop (Driver Q))
    (marked : List (Move Q (Driver Q) × Bool))
    (hmono : (marked.filterMap fun x => Loop.reading x.1).Pairwise (· ≤ ·))
    (hrejected : Loop.MarkedRejected H l marked) (hsame : Loop.SameVerdicts H l l marked) :
    ∃ replay rateLimiter, l.run H (Loop.spared marked) =
      (l.run H (marked.map Prod.fst)).withGates replay rateLimiter := by
  have hrefl : Loop.Unseen 0 l l := ⟨_, _, rfl, .refl 0 _⟩
  obtain ⟨n, replay, rateLimiter, heq, -⟩ :=
    hrefl.run marked hmono (fun _ _ => Nat.zero_le _) hrejected hsame
  exact ⟨replay, rateLimiter, heq⟩

/-- Noise at the socket, then a client's first flight. -/
def noisyVisit : List (Move Mini (Driver Mini) × Bool) :=
  (pumps 2).map (·, false) ++
    (.datagram Endpoint.keyOrder 0 Endpoint.miniAddr 100 [1, 2, 3] 0, true) ::
    (pumps 2).map (·, false) ++
    (.datagram Endpoint.keyOrder 0 Endpoint.miniAddr 100 Endpoint.firstFlight 0, false) ::
    (pumps 5).map (·, false)

theorem rejected_unseen_noise :
    Loop.MarkedRejected zeroHash (serve Endpoint.miniServer 0) noisyVisit ∧
      ((serve Endpoint.miniServer 0).run zeroHash (Loop.spared noisyVisit)).core.connections.keys =
        [⟨0, 1⟩] ∧
      ∃ replay rateLimiter, (serve Endpoint.miniServer 0).run zeroHash (Loop.spared noisyVisit) =
        ((serve Endpoint.miniServer 0).run zeroHash (noisyVisit.map Prod.fst)).withGates replay
          rateLimiter := by
  have hrejected : Loop.MarkedRejected zeroHash (serve Endpoint.miniServer 0) noisyVisit := by
    decide +kernel
  have hsame : Loop.SameVerdicts zeroHash (serve Endpoint.miniServer 0)
      (serve Endpoint.miniServer 0) noisyVisit := by decide +kernel
  exact ⟨hrejected, by decide +kernel, rejected_unseen zeroHash (serve Endpoint.miniServer 0)
    noisyVisit (by decide) hrejected hsame⟩

/-! ## Strangers -/

/-- No datagram of the moves carries, within the window, the DCID of a client of the secrets. -/
def Uninvited (H : KeyedHash) (secrets : ServerSecrets) (moves : List (Move Q (Driver Q))) : Prop :=
  ∀ call ∈ moves.filterMap Loop.arrival, Strange H (secrets.clients.map ClientEntry.psk) call

section Runs

variable {tls : Tls Q} {secrets : ServerSecrets} {ep₀ : Endpoint Q}

/-- The calls of such a run are strangers'. -/
theorem Uninvited.strange {moves : List (Move Q (Driver Q))} (h : Uninvited H secrets moves)
    (hnew : Endpoint.newServer tls secrets = .ok ep₀) {calls : List Call}
    (harrives : (calls.filter Loop.arrives).Sublist (moves.filterMap Loop.arrival)) :
    ∀ call ∈ calls, Strange H ep₀.psks call := by
  intro call hcall
  cases call with
  | handleDatagram ord at₁ src minute data =>
    intro psk hpsk
    obtain ⟨entry, hentry, rfl⟩ := mem_psks_new hnew hpsk
    exact h _ (harrives.subset (List.mem_filter.mpr ⟨hcall, rfl⟩)) entry.psk
      (List.mem_map_of_mem hentry)
  | _ => exact trivial

/-- **No connection is stocked**: a move adds the live ones only, and there is none. -/
theorem stock_uninvited (hnew : Endpoint.newServer tls secrets = .ok ep₀) (now : Instant)
    (moves : List (Move Q (Driver Q))) (h : Uninvited H secrets moves) :
    ((serve ep₀ now).run H moves).driver.stock = [] := by
  induction moves using List.reverseRecOn with
  | nil => rfl
  | append_singleton moves m ih =>
    have hbefore : Uninvited H secrets moves := by
      intro call hcall
      refine h call ?_
      rw [List.filterMap_append]
      exact List.mem_append_left _ hcall
    obtain ⟨calls, hworked, harrives⟩ :=
      Loop.run_calls (H := H) (serve_fit hnew now) moves
    obtain ⟨hblank, -, -⟩ := (Blank.new hnew).run calls (hbefore.strange hnew harrives)
    have hcore : ((serve ep₀ now).run H moves).core = ep₀.run H calls := hworked.core
    have hrun : (serve ep₀ now).run H (moves ++ [m]) =
        ((serve ep₀ now).run H moves).step H m := by
      rw [Loop.run, List.foldl_append]
      rfl
    rw [hrun]
    refine List.eq_nil_iff_forall_not_mem.mpr fun conn hconn => ?_
    rcases stocked m conn hconn with hold | ⟨hlive, -⟩
    · rw [ih hbefore] at hold
      exact absurd hold List.not_mem_nil
    · rw [hcore, hblank.connections] at hlive
      exact absurd hlive (by simp)

end Runs

/-- **A server is silent to strangers.** In a run of the server's loop whose datagrams are all
strangers' (none carries, within the window, a DCID that a client's PSK writes), whatever the bytes
are, in any number and from any address, and whatever else happens: nothing is written to the
socket, no event is handled, no connection exists, and the application is handed none. -/
theorem silent_to_strangers (H : KeyedHash) (tls : Tls Q) (secrets : ServerSecrets)
    (ep₀ : Endpoint Q) (hnew : Endpoint.newServer tls secrets = .ok ep₀) (now : Instant)
    (moves : List (Move Q (Driver Q))) (hstrangers : Uninvited H secrets moves) :
    ((serve ep₀ now).run H moves).wire = [] ∧
      ((serve ep₀ now).run H moves).handled = [] ∧
      ((serve ep₀ now).run H moves).core.connections = ∅ ∧
      ((serve ep₀ now).run H moves).driver.accepted = [] := by
  obtain ⟨calls, hworked, harrives⟩ := Loop.run_calls (H := H) (serve_fit hnew now) moves
  obtain ⟨hblank, hout, hevents⟩ :=
    (Blank.new hnew).run calls (hstrangers.strange hnew harrives)
  have hwire : ((serve ep₀ now).run H moves).wire = Endpoint.handedOut H ep₀ calls := hworked.wire
  have hhandled : ((serve ep₀ now).run H moves).handled =
      (Endpoint.answers H ep₀ calls).flatMap taken := hworked.handled
  have hcore : ((serve ep₀ now).run H moves).core = ep₀.run H calls := hworked.core
  have hstock := stock_uninvited (H := H) hnew now moves hstrangers
  refine ⟨hwire.trans hout, hhandled.trans hevents, ?_, (List.append_eq_nil_iff.mp hstock).1⟩
  rw [hcore]
  exact hblank.connections

/-- Noise, then a DCID that is out of date. -/
def knocks : List (Move Mini (Driver Mini)) :=
  pumps 2 ++ .datagram Endpoint.keyOrder 0 Endpoint.miniAddr 100 [1, 2, 3] 0 :: pumps 2 ++
    .datagram Endpoint.keyOrder 0 Endpoint.miniAddr 110 Endpoint.firstFlight 0 :: pumps 5

theorem silent_to_strangers_knocks :
    Endpoint.newServer Endpoint.miniTls Endpoint.miniSecrets = .ok Endpoint.miniServer ∧
      Uninvited zeroHash Endpoint.miniSecrets knocks ∧
      ((serve Endpoint.miniServer 0).run zeroHash knocks).wire = [] := by
  have hnoise : reaches zeroHash [Endpoint.miniPsk] 100 [1, 2, 3] = none := by decide +kernel
  have hstale : reaches zeroHash [Endpoint.miniPsk] 110 Endpoint.firstFlight = none := by
    decide +kernel
  have hstrangers : Uninvited zeroHash Endpoint.miniSecrets knocks := by
    have hpsks : Endpoint.miniSecrets.clients.map ClientEntry.psk = [Endpoint.miniPsk] := rfl
    have hcalls : knocks.filterMap Loop.arrival =
        [.handleDatagram Endpoint.keyOrder 0 Endpoint.miniAddr 100 [1, 2, 3],
          .handleDatagram Endpoint.keyOrder 0 Endpoint.miniAddr 110 Endpoint.firstFlight] := rfl
    intro call hcall
    rw [hcalls] at hcall
    rw [hpsks]
    rcases List.mem_pair.mp hcall with rfl | rfl
    · intro psk hpsk hgenuine
      rw [List.mem_singleton.mp hpsk, genuine_iff, hnoise] at hgenuine
      exact absurd hgenuine (by simp)
    · intro psk hpsk hgenuine
      rw [List.mem_singleton.mp hpsk, genuine_iff, hstale] at hgenuine
      exact absurd hgenuine (by simp)
  exact ⟨Endpoint.miniServer_new, hstrangers, (silent_to_strangers zeroHash Endpoint.miniTls
    Endpoint.miniSecrets Endpoint.miniServer Endpoint.miniServer_new 0 knocks hstrangers).1⟩

end QuietQuic.Tokio
