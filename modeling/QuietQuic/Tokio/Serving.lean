import QuietQuic.Proto.Admissions
import QuietQuic.Tokio.Awaited
import QuietQuic.Tokio.Followed
import QuietQuic.Tokio.Server

/-!
# The server in its loop

`Driver::run` of `src/server.rs` as a `Loop`, with the two arms only the server has: a permit for
the next connection of `pending_accept`, and the end of the accept channel. A permit may come
whenever a connection waits for it: the channel's capacity is left open.

* `Driver.Booked`: the books of the driver, whatever the core does and in whichever order.
-/

namespace QuietQuic.Tokio

open QuietQuic.Lib QuietQuic.Proto

variable {Q : Quinn} {H : KeyedHash}

/-- The `select!` arms only the server has. -/
inductive ServerArm where
  /-- `accept_tx.reserve()` resolves, to a permit or to the end of the channel. -/
  | reserve (permit : Bool)
  /-- `accepted.closed()` resolves. -/
  | closed
  deriving DecidableEq

namespace Driver

/-- The arms of `run` that are the server's own. The first is disabled while nothing waits. -/
def onArm (d : Driver Q) : ServerArm → Option (Driver Q × Bool)
  | .reserve permit =>
    match d.pendingAccept with
    | [] => none
    | _ :: _ => if permit then some (d.deliver, false) else some (d, true)
  | .closed => some (d, true)

instance : Drives Q (Driver Q) where
  Arm := ServerArm
  core := Driver.core
  setCore := fun d ep => { d with core := ep }
  parked := fun d ch => (d.parked.lookup ch).getD .new
  replies := Driver.replies
  holds := fun d ch => decide (ch ∈ d.accepted.map Connection.cmds)
  takes := fun d ch => (d.parked.lookup ch).isSome && (d.core.connections.lookup ch).isSome
  onEvent := fun d e => (d.onEvent e, false)
  onCommand := Driver.onCommand
  onArm := Driver.onArm

/-! ## The books -/

/-- What the driver holds for the application, or has sent it, oldest first. -/
def stock (d : Driver Q) : List Connection := d.accepted ++ d.pendingAccept

/-- A delivery only moves a connection. -/
theorem stock_deliver (d : Driver Q) : d.deliver.stock = d.stock := by
  unfold Driver.deliver
  split
  · rfl
  · rename_i conn rest hpending
    show (d.accepted ++ [conn]) ++ rest = d.accepted ++ d.pendingAccept
    rw [hpending, List.append_assoc]
    rfl

/-- A delivery leaves the core and what is parked, and adds to what was accepted. -/
theorem deliver_spec (d : Driver Q) : d.deliver.core = d.core ∧ d.deliver.parked = d.parked ∧
    d.deliver.surfaced = d.surfaced ∧ d.deliver.replies = d.replies ∧
    d.accepted <+: d.deliver.accepted := by
  unfold Driver.deliver
  split
  · exact ⟨rfl, rfl, rfl, rfl, List.prefix_refl _⟩
  · exact ⟨rfl, rfl, rfl, rfl, List.prefix_append _ _⟩

/-- What the driver's collections say of each other and of the core. -/
structure Booked (d : Driver Q) : Prop where
  parked : ∀ ch, ch ∈ d.parked ↔ ch ∈ d.surfaced
  known : ∀ ch ∈ d.surfaced, ch.generation < d.core.nextGeneration
  issued : ∀ conn ∈ d.stock, conn.handle.generation < d.core.nextGeneration
  tagged : ∀ conn ∈ d.stock, conn.cmds = conn.handle
  live : ∀ conn ∈ d.stock, conn.handle ∈ d.core.connections → conn.handle ∈ d.surfaced
  once : (d.stock.map Connection.handle).Nodup
  inhabited : ∀ conn ∈ d.stock, Nonempty (ConnState Q)

namespace Booked

variable {d d' : Driver Q}

theorem new (ep : Endpoint Q) : Booked (Driver.new ep) := by
  refine ⟨fun ch => ?_, ?_, ?_, ?_, ?_, List.nodup_nil, ?_⟩ <;> simp [Driver.new, stock]

/-- The core moves on: no handle is given out twice. -/
theorem calls (h : Booked d) {ep : Endpoint Q} (hgen : d.core.nextGeneration ≤ ep.nextGeneration)
    (hmem : ∀ ch ∈ ep.connections, ch ∈ d.core.connections ∨
      d.core.nextGeneration ≤ ch.generation) : Booked { d with core := ep } := by
  refine ⟨h.parked, fun ch hch => (h.known ch hch).trans_le hgen,
    fun conn hconn => (h.issued conn hconn).trans_le hgen, h.tagged, fun conn hconn hlive => ?_,
    h.once, h.inhabited⟩
  rcases hmem _ hlive with hold | hnew
  · exact h.live conn hconn hold
  · exact absurd (h.issued conn hconn) (Nat.not_lt.mpr hnew)

/-- The collections stay as they are, up to what is parked. -/
theorem same (h : Booked d) (hsame : Same d d')
    (hgen : d'.core.nextGeneration = d.core.nextGeneration)
    (hmem : ∀ ch, ch ∈ d'.core.connections ↔ ch ∈ d.core.connections) : Booked d' := by
  have hall : d'.stock = d.stock := by
    rw [stock, hsame.accepted, hsame.pending]
    rfl
  refine ⟨fun ch => ?_, fun ch hch => ?_, ?_, ?_, fun conn hconn hlive => ?_, ?_, ?_⟩
  · rw [hsame.parked, hsame.surfaced]
    exact h.parked ch
  · rw [hgen]
    exact h.known ch (hsame.surfaced ▸ hch)
  · rw [hall, hgen]
    exact h.issued
  · rw [hall]
    exact h.tagged
  · rw [hsame.surfaced]
    exact h.live conn (hall ▸ hconn) ((hmem _).mp hlive)
  · rw [hall]
    exact h.once
  · rw [hall]
    exact h.inhabited

/-- A live connection is surfaced, for the first time. -/
theorem surfaced (h : Booked d) {ch : ConnectionHandle} (hnew : ch ∉ d.surfaced)
    {state : ConnState Q} (hstate : d.core.connections.lookup ch = some state)
    (hgen : ch.generation < d.core.nextGeneration) :
    Booked
      { d with
        surfaced := insert ch d.surfaced
        parked := d.parked.insert ch .new
        pendingAccept := d.pendingAccept ++ [d.surfacing ch state] } := by
  have hsplit : ∀ conn, conn ∈ d.accepted ++ (d.pendingAccept ++ [d.surfacing ch state]) →
      conn ∈ d.stock ∨ conn = d.surfacing ch state := by
    intro conn hconn
    rw [← List.append_assoc] at hconn
    exact (List.mem_append.mp hconn).imp_right List.mem_singleton.mp
  refine ⟨fun a => ?_, fun a ha => ?_, fun conn hconn => ?_, fun conn hconn => ?_,
    fun conn hconn hlive => ?_, ?_, fun _ _ => ⟨state⟩⟩
  · show a ∈ d.parked.insert ch .new ↔ a ∈ insert ch d.surfaced
    rw [AList.mem_insert, Finset.mem_insert, h.parked]
  · rcases Finset.mem_insert.mp ha with rfl | ha
    · exact hgen
    · exact h.known a ha
  · rcases hsplit conn hconn with hold | rfl
    · exact h.issued conn hold
    · exact hgen
  · rcases hsplit conn hconn with hold | rfl
    · exact h.tagged conn hold
    · rfl
  · rcases hsplit conn hconn with hold | rfl
    · exact Finset.mem_insert_of_mem (h.live conn hold hlive)
    · exact Finset.mem_insert_self ch d.surfaced
  · show ((d.accepted ++ (d.pendingAccept ++ [d.surfacing ch state])).map Connection.handle).Nodup
    rw [← List.append_assoc, List.map_append]
    refine List.nodup_append.mpr ⟨h.once, List.nodup_singleton ch, fun a ha b hb heq => ?_⟩
    obtain ⟨conn, hconn, rfl⟩ := List.mem_map.mp ha
    obtain rfl : b = ch := List.mem_singleton.mp hb
    refine hnew (heq ▸ h.live conn hconn ?_)
    rw [heq]
    exact AMap.mem_iff_lookup.mpr ⟨state, hstate⟩

/-- A connection that is gone is lost. -/
theorem lost (h : Booked d) {ch : ConnectionHandle} (hdead : ch ∉ d.core.connections) :
    Booked (d.onLost ch) := by
  have hmem : ∀ conn, conn ∈ d.accepted ++ d.pendingAccept.filter (fun c => c.handle ≠ ch) →
      conn ∈ d.stock := by
    intro conn hconn
    rcases List.mem_append.mp hconn with hconn | hconn
    · exact List.mem_append_left _ hconn
    · exact List.mem_append_right _ (List.mem_filter.mp hconn).1
  refine ⟨fun a => ?_, fun a ha => h.known a (Finset.mem_of_mem_erase ha),
    fun conn hconn => h.issued conn (hmem conn hconn),
    fun conn hconn => h.tagged conn (hmem conn hconn), fun conn hconn hlive => ?_, ?_,
    fun conn hconn => h.inhabited conn (hmem conn hconn)⟩
  · show a ∈ d.parked.erase ch ↔ a ∈ d.surfaced.erase ch
    rw [AList.mem_erase, Finset.mem_erase, h.parked]
  · refine Finset.mem_erase.mpr ⟨fun heq => hdead (heq ▸ hlive), ?_⟩
    exact h.live conn (hmem conn hconn) hlive
  · have hsub : (d.accepted ++ d.pendingAccept.filter fun c => c.handle ≠ ch).Sublist d.stock :=
      List.Sublist.append_left List.filter_sublist d.accepted
    exact (hsub.map Connection.handle).nodup h.once

theorem deliver (h : Booked d) : Booked d.deliver := by
  obtain ⟨hcore, hparked, hsurfaced, -, -⟩ := d.deliver_spec
  refine ⟨?_, ?_, ?_, ?_, ?_, ?_, ?_⟩ <;>
    simp only [stock_deliver, hcore, hparked, hsurfaced]
  exacts [h.parked, h.known, h.issued, h.tagged, h.live, h.once, h.inhabited]

end Booked

/-! ## The laws -/

/-- An operation on one connection brings no connection and takes none. -/
theorem withState_core (d : Driver Q) (ch : ConnectionHandle)
    (f : Parked → ConnState Q → Outcome Q) :
    (d.withState ch f).core.nextGeneration = d.core.nextGeneration ∧
      ∀ a, a ∈ (d.withState ch f).core.connections ↔ a ∈ d.core.connections := by
  unfold withState
  split
  · rename_i p state _ hstate
    exact ⟨rfl, fun a => AMap.mem_insert_of_lookup hstate⟩
  · exact ⟨rfl, fun a => Iff.rfl⟩

/-- What is parked apart from the core. -/
theorem withParked_core (d : Driver Q) (ch : ConnectionHandle)
    (f : Parked → Parked × List (Token × Reply)) : (d.withParked ch f).core = d.core := by
  unfold Driver.withParked
  split <;> rfl

theorem surface_core (d : Driver Q) (ch : ConnectionHandle) : (d.surface ch).core = d.core := by
  unfold Driver.surface
  split
  · rfl
  · dsimp only
    split <;> rfl

theorem Booked.withState {d : Driver Q} (h : Booked d) (ch : ConnectionHandle)
    (f : Parked → ConnState Q → Outcome Q) : Booked (d.withState ch f) :=
  h.same (d.withState_same ch f) (d.withState_core ch f).1 (d.withState_core ch f).2

theorem Booked.onEvent {d : Driver Q} (h : Booked d) (hqueued : Queued d.core.toCore) (e : Event)
    (hlost : e.isLost = true → e.conn ∉ d.core.connections) : Booked (d.onEvent e) := by
  rcases d.step_cases (.event e) with hchange | ⟨-, hsame⟩
  · change Changes d (.event e) (d.onEvent e) at hchange
    generalize d.onEvent e = d' at hchange
    cases hchange with
    | @surfaced ch state _ hnew hstate heq =>
      rw [heq]
      exact h.surfaced hnew hstate (hqueued.older ch (AMap.mem_iff_lookup.mpr ⟨state, hstate⟩))
    | lost => exact h.lost (hlost rfl)
  · change Same d (d.onEvent e) at hsame
    have hcore : (d.onEvent e).core.nextGeneration = d.core.nextGeneration ∧
        ∀ ch, ch ∈ (d.onEvent e).core.connections ↔ ch ∈ d.core.connections := by
      cases e with
      | streamOpened ch | streamReadable ch | streamWritable ch | streamStopped ch =>
        exact d.withState_core ch _
      | streamFinAcked ch id =>
        have hcore := d.withParked_core ch fun p => p.onFinAcked id
        exact ⟨congrArg (fun ep => ep.nextGeneration) hcore, fun a =>
          (congrArg (fun ep : Endpoint Q => a ∈ ep.connections) hcore).to_iff⟩
      | connected ch =>
        have hcore := d.surface_core ch
        exact ⟨congrArg (fun ep => ep.nextGeneration) hcore, fun a =>
          (congrArg (fun ep : Endpoint Q => a ∈ ep.connections) hcore).to_iff⟩
      | connectionLost ch reason => exact ⟨rfl, fun _ => Iff.rfl⟩
    exact h.same hsame hcore.1 hcore.2

/-- What is parked, as a function. -/
theorem parked_insert (d : Driver Q) (ch : ConnectionHandle) (p : Parked) :
    (fun a => ((d.parked.insert ch p).lookup a).getD .new) =
      Function.update (fun a => (d.parked.lookup a).getD .new) ch p := by
  funext a
  rw [AMap.lookup_insert_eq, Function.update_apply]
  split <;> rfl

/-- A stream event, whatever `Parked` makes of it. -/
theorem withState_reacts (d : Driver Q) {e : Event} (hlost : e.isLost = false) :
    Reacts d e (d.withState e.conn fun p state => p.onEvent state e) := by
  unfold Driver.withState
  split
  · rename_i p state hp hstate
    have hparked : Drives.parked d e.conn = p := by
      show (d.parked.lookup e.conn).getD .new = p
      rw [hp]
      rfl
    refine .stream hlost hstate ?_ ?_ ?_ <;> rw [hparked]
    · rfl
    · exact d.parked_insert e.conn _
    · rfl
  · rename_i hnone
    refine .quiet hlost rfl rfl rfl (.inr ?_)
    cases hp : d.parked.lookup e.conn with
    | none =>
      refine .inl ?_
      show (d.parked.lookup e.conn).getD .new = .new
      rw [hp]
      rfl
    | some p =>
      refine .inr (Option.eq_none_iff_forall_ne_some.mpr fun state hstate => ?_)
      exact hnone p state hp hstate

/-- **`on_event` does what the loop expects.** -/
theorem Booked.reacts {d : Driver Q} (h : Booked d) (e : Event) : Reacts d e (d.onEvent e) := by
  cases e with
  | streamOpened | streamReadable | streamWritable | streamStopped => exact d.withState_reacts rfl
  | streamFinAcked ch id =>
    show Reacts d _ (d.withParked ch fun p => p.onFinAcked id)
    unfold Driver.withParked
    split
    · rename_i p hp
      have hparked : Drives.parked d ch = p := by
        show (d.parked.lookup ch).getD .new = p
        rw [hp]
        rfl
      refine .finAcked rfl rfl ?_ ?_ <;> rw [hparked]
      · exact d.parked_insert ch _
      · rfl
    · rename_i hp
      refine .quiet rfl rfl rfl rfl (.inr (.inl ?_))
      show (d.parked.lookup ch).getD .new = .new
      rw [hp]
      rfl
  | connected ch =>
    show Reacts d _ (d.surface ch)
    unfold Driver.surface
    split
    · exact .quiet rfl rfl rfl rfl (.inl rfl)
    · rename_i hnew
      dsimp only
      split
      · exact .quiet rfl rfl rfl rfl (.inl rfl)
      · refine .quiet rfl rfl ?_ rfl (.inl rfl)
        have hnone : d.parked.lookup ch = none :=
          AList.lookup_eq_none.mpr fun hmem => hnew ((h.parked ch).mp hmem)
        refine (d.parked_insert ch .new).trans (Function.update_eq_self_iff.mpr ?_)
        rw [hnone]
        rfl
  | connectionLost ch reason =>
    refine .lost rfl rfl ?_ ?_
    · funext a
      show ((d.parked.erase ch).lookup a).getD .new =
        Function.update (fun a => (d.parked.lookup a).getD .new) ch .new a
      rw [AMap.lookup_erase_eq, Function.update_apply]
      split <;> rfl
    · show d.replies ++ _ = d.replies ++ _
      congr 1
      show _ = ((d.parked.lookup ch).getD .new).failAll.2
      cases d.parked.lookup ch <;> rfl

/-- **`on_command` does what the loop expects**, where it finds the connection. -/
theorem onCommand_applies {d : Driver Q} {ch : ConnectionHandle} (cmd : Cmd) (now : Instant)
    (h : Drives.takes d ch = true) : ∃ s, Applies d ch cmd now s (d.onCommand ch cmd now) := by
  obtain ⟨hparked, hstate⟩ := Bool.and_eq_true_iff.mp h
  obtain ⟨p, hp⟩ := Option.isSome_iff_exists.mp hparked
  obtain ⟨s, hs⟩ := Option.isSome_iff_exists.mp hstate
  have hcommand : d.onCommand ch cmd now =
      { d with
        core := { d.core with
          connections := d.core.connections.insert ch (p.applyCmd s cmd now).core }
        parked := d.parked.insert ch (p.applyCmd s cmd now).parked
        replies := d.replies ++ (p.applyCmd s cmd now).sent } := by
    unfold Driver.onCommand Driver.withState
    rw [hp, hs]
  have hlook : Drives.parked d ch = p := by
    show (d.parked.lookup ch).getD .new = p
    rw [hp]
    rfl
  rw [hcommand]
  refine ⟨s, hs, ?_, ?_, ?_⟩ <;> rw [hlook]
  · rfl
  · exact d.parked_insert ch _
  · rfl

theorem onCommand_drops {d : Driver Q} {ch : ConnectionHandle} (cmd : Cmd) (now : Instant)
    (h : Drives.takes d ch = false) : d.onCommand ch cmd now = d := by
  unfold Driver.onCommand Driver.withState
  split
  · rename_i p s hp hs
    refine absurd h ?_
    show ¬ ((d.parked.lookup ch).isSome && (d.core.connections.lookup ch).isSome) = false
    rw [hp, hs]
    simp
  · rfl

/-- An arm of the server's own is a delivery, or the end. -/
theorem onArm_cases {d d' : Driver Q} {a : ServerArm} {returns : Bool}
    (h : d.onArm a = some (d', returns)) : d' = d.deliver ∧ returns = false ∨
      d' = d ∧ returns = true := by
  unfold Driver.onArm at h
  split at h
  · split at h
    · exact absurd h (by simp)
    · split at h
      · obtain ⟨rfl, rfl⟩ := Prod.mk.inj (Option.some.inj h)
        exact .inl ⟨rfl, rfl⟩
      · obtain ⟨rfl, rfl⟩ := Prod.mk.inj (Option.some.inj h)
        exact .inr ⟨rfl, rfl⟩
  · obtain ⟨rfl, rfl⟩ := Prod.mk.inj (Option.some.inj h)
    exact .inr ⟨rfl, rfl⟩

/-- No event takes a connection from the application. -/
theorem onEvent_accepted (d : Driver Q) (e : Event) : (d.onEvent e).accepted = d.accepted := by
  rcases d.step_cases (.event e) with hchange | ⟨-, hsame⟩
  · change Changes d (.event e) (d.onEvent e) at hchange
    generalize d.onEvent e = d' at hchange
    cases hchange with
    | surfaced hnew hstate heq => rw [heq]
    | lost => rfl
  · exact hsame.accepted

instance : LawfulDrives Q (Driver Q) where
  Fits := Booked
  core_setCore := fun _ _ => rfl
  parked_setCore := fun _ _ => rfl
  replies_setCore := fun _ _ => rfl
  holds_setCore := fun _ _ => rfl
  fits_step := by
    intro H d call _ h
    exact h.calls (Endpoint.le_nextGeneration_step d.core call) fun ch => Endpoint.mem_or_newer
  reacts := fun e h => h.reacts e
  fits_event := fun h hqueued hlost => h.onEvent hqueued _ hlost
  holds_event := by
    intro d e ch h
    show decide (ch ∈ (d.onEvent e).accepted.map Connection.cmds) = true
    rw [onEvent_accepted]
    exact h
  applies := fun cmd now _ htakes => onCommand_applies cmd now htakes
  drops := fun cmd now htakes => onCommand_drops cmd now htakes
  fits_command := fun ch _ _ h => h.withState ch _
  holds_command := by
    intro d ch cmd now
    have hsame : (d.onCommand ch cmd now).accepted = d.accepted := (d.withState_same ch _).accepted
    funext a
    show decide (a ∈ (d.onCommand ch cmd now).accepted.map Connection.cmds) = _
    rw [hsame]
    rfl
  arm_same := by
    intro d d' a returns h
    rcases onArm_cases h with ⟨rfl, -⟩ | ⟨rfl, -⟩
    · obtain ⟨hcore, hparked, -, hreplies, -⟩ := d.deliver_spec
      refine ⟨hcore, ?_, hreplies⟩
      show (fun ch => (d.deliver.parked.lookup ch).getD .new) = _
      rw [hparked]
      rfl
    · exact ⟨rfl, rfl, rfl⟩
  fits_arm := by
    intro d d' a returns h hbooked
    rcases onArm_cases h with ⟨rfl, -⟩ | ⟨rfl, -⟩
    · exact hbooked.deliver
    · exact hbooked
  holds_arm := by
    intro d d' a returns ch h hholds
    rcases onArm_cases h with ⟨rfl, -⟩ | ⟨rfl, -⟩
    · obtain ⟨-, -, -, -, hprefix⟩ := d.deliver_spec
      have hmem : ch ∈ d.accepted.map Connection.cmds := of_decide_eq_true hholds
      exact decide_eq_true (List.map_subset Connection.cmds hprefix.subset hmem)
    · exact hholds
  takes_of_holds := by
    intro d ch h hholds hlive
    obtain ⟨conn, hconn, rfl⟩ := List.mem_map.mp (of_decide_eq_true hholds)
    have hall := List.mem_append_left d.pendingAccept hconn
    have htagged := h.tagged conn hall
    rw [htagged] at hlive ⊢
    have hparked := (h.parked _).mpr (h.live conn hall hlive)
    exact Bool.and_eq_true_iff.mpr ⟨AList.lookup_isSome.mpr hparked, AList.lookup_isSome.mpr hlive⟩
  inhabited := by
    intro d ch h hholds
    obtain ⟨conn, hconn, -⟩ := List.mem_map.mp (of_decide_eq_true hholds)
    exact h.inhabited conn (List.mem_append_left _ hconn)
  unknown := by
    intro d ch h hgen
    refine ⟨?_, ?_⟩
    · refine decide_eq_false fun hmem => ?_
      obtain ⟨conn, hconn, rfl⟩ := List.mem_map.mp hmem
      have hall := List.mem_append_left d.pendingAccept hconn
      have hissued := h.issued conn hall
      rw [← h.tagged conn hall] at hissued
      exact absurd hissued (Nat.not_lt.mpr hgen)
    · have hnone : d.parked.lookup ch = none := AList.lookup_eq_none.mpr fun hmem =>
        absurd (h.known ch ((h.parked ch).mp hmem)) (Nat.not_lt.mpr hgen)
      show (d.parked.lookup ch).getD .new = .new
      rw [hnone]
      rfl

end Driver

/-! ## Runs of the server -/

/-- The driver that `bind` spawns. -/
def serve (ep : Endpoint Q) (now : Instant) : Loop (Driver Q) := Loop.spawn (Driver.new ep) now

section Runs

variable {tls : Tls Q} {secrets : ServerSecrets} {ep₀ : Endpoint Q}

theorem serve_fit (hnew : Endpoint.newServer tls secrets = .ok ep₀) (now : Instant) :
    Loop.Fit (serve ep₀ now) := by
  have hqueued : Queued ep₀.toCore := Queued.new (H := zeroHash) (.inl ⟨tls, secrets, hnew⟩)
  exact ⟨.new ep₀, hqueued, by simp [serve, Loop.spawn], by simp [serve, Loop.spawn]⟩

theorem serve_accounted (ep : Endpoint Q) (now : Instant) : Loop.Accounted (serve ep now) :=
  .spawn (fun _ => rfl) now

theorem serve_watched (ep : Endpoint Q) (now : Instant) : Loop.Watched (serve ep now) :=
  .spawn (fun _ => rfl) now

theorem serve_followed (hnew : Endpoint.newServer tls secrets = .ok ep₀) (now : Instant) :
    Loop.Followed (serve ep₀ now) := by
  obtain ⟨clients, -, hcore⟩ := Endpoint.newServer_core hnew
  refine .spawn (fun _ => rfl) (congrArg Core.events hcore) (fun ch s hs => ?_) now
  change ep₀.toCore.connections.lookup ch = some s at hs
  rw [hcore] at hs
  exact absurd hs (by simp [Core.fresh])

end Runs

/-- **The server's loop and its core.** In every run the loop works the core through its public calls
alone: what goes to the socket is what `poll_transmit` hands out, in order, what is handled is what
`poll_event` hands out, in order, and the datagrams fed are ones that arrived. Whenever it waits it
leaves the core rested: a pass since there was anything to handle or to send, nothing left to send,
no connection marked, and a deadline that is the least of the connections'. -/
theorem serves_by_calls (H : KeyedHash) (tls : Tls Q) (secrets : ServerSecrets)
    (ep₀ : Endpoint Q) (hnew : Endpoint.newServer tls secrets = .ok ep₀) (now : Instant)
    (moves : List (Move Q (Driver Q))) :
    (∃ calls, ((serve ep₀ now).run H moves).core = ep₀.run H calls ∧
      ((serve ep₀ now).run H moves).wire = Endpoint.handedOut H ep₀ calls ∧
      ((serve ep₀ now).run H moves).handled =
        (Endpoint.answers H ep₀ calls).flatMap Proto.taken ∧
      (calls.filter Loop.arrives).Sublist (moves.filterMap Loop.arrival)) ∧
    (((serve ep₀ now).run H moves).phase = .waiting →
      Rested ((serve ep₀ now).run H moves).core.toCore) := by
  obtain ⟨calls, hworked, harrives⟩ := Loop.run_calls (H := H) (serve_fit hnew now) moves
  refine ⟨⟨calls, hworked.core, hworked.wire, hworked.handled, harrives⟩, ?_⟩
  have hpaced : Loop.Paced (serve ep₀ now) := .spawn _ now
  exact (hpaced.run moves).waits

/-- `n` steps of `pump`. -/
def pumps (n : Nat) : List (Move Mini (Driver Mini)) := List.replicate n (.pump Endpoint.keyOrder 0)

/-- A client's first flight and its greeting; the application takes the connection and waits for a
stream. -/
def visit : List (Move Mini (Driver Mini)) :=
  pumps 2 ++ .datagram Endpoint.keyOrder 0 Endpoint.miniAddr 100 Endpoint.firstFlight 0 :: pumps 5 ++
    .datagram Endpoint.keyOrder 0 Endpoint.miniAddr 100 (Endpoint.toFirst [0x1e]) 0 :: pumps 5 ++
    .arm (.reserve true) 0 :: pumps 2 ++
    [.issue ⟨0, 1⟩ (.acceptBi 7), .command 0 0] ++ pumps 2

theorem serves_by_calls_visit :
    Endpoint.newServer Endpoint.miniTls Endpoint.miniSecrets = .ok Endpoint.miniServer ∧
      ((serve Endpoint.miniServer 0).run zeroHash visit).driver.accepted.map
        Connection.clientId = [some "alice"] ∧
      Rested ((serve Endpoint.miniServer 0).run zeroHash visit).core.toCore := by
  refine ⟨Endpoint.miniServer_new, by decide +kernel, ?_⟩
  have hcalls := serves_by_calls zeroHash Endpoint.miniTls Endpoint.miniSecrets Endpoint.miniServer
    Endpoint.miniServer_new 0 visit
  exact hcalls.2 (by decide +kernel)

/-- **Every connection of a server is on its own.** While the server runs, what the loop has of a
live connection, its `ConnState`, its `Parked`, its commands, its events, its channels and replies,
is what a run of that connection's own actions makes of a new connection: no move of another
connection is seen in it, and no other command or event reaches it. -/
theorem serves_apart (H : KeyedHash) (tls : Tls Q) (secrets : ServerSecrets)
    (ep₀ : Endpoint Q) (hnew : Endpoint.newServer tls secrets = .ok ep₀) (now : Instant)
    (moves : List (Move Q (Driver Q)))
    (hopen : ((serve ep₀ now).run H moves).phase ≠ .returned) :
    ∀ ch core, ((serve ep₀ now).run H moves).core.connections.lookup ch = some core →
      ∃ conn actions yielded, (Sys.start ch (.new conn)).run actions =
        ((serve ep₀ now).run H moves).view ch core yielded := by
  intro ch core hcore
  have hfollowed := (serve_followed hnew now).run (H := H) (serve_accounted ep₀ now)
    (serve_fit hnew now) moves
  obtain ⟨yielded, conn, actions, hrun⟩ := hfollowed hopen ch core hcore
  exact ⟨conn, actions, yielded, hrun⟩

theorem serves_apart_visit :
    Endpoint.newServer Endpoint.miniTls Endpoint.miniSecrets = .ok Endpoint.miniServer ∧
      ∃ core conn actions yielded,
        ((serve Endpoint.miniServer 0).run zeroHash visit).core.connections.lookup ⟨0, 1⟩ =
          some core ∧
        (Sys.start ⟨0, 1⟩ (.new conn)).run actions =
          ((serve Endpoint.miniServer 0).run zeroHash visit).view ⟨0, 1⟩ core yielded := by
  refine ⟨Endpoint.miniServer_new, ?_⟩
  have hlive : (((serve Endpoint.miniServer 0).run zeroHash visit).core.connections.lookup
      ⟨0, 1⟩).isSome = true := by decide +kernel
  obtain ⟨core, hcore⟩ := Option.isSome_iff_exists.mp hlive
  obtain ⟨conn, actions, yielded, hrun⟩ := serves_apart zeroHash Endpoint.miniTls
    Endpoint.miniSecrets Endpoint.miniServer Endpoint.miniServer_new 0 visit (by decide +kernel)
    ⟨0, 1⟩ core hcore
  exact ⟨core, conn, actions, yielded, hcore, hrun⟩

/-- **No call on a server's handles is forgotten.** In every run, what is received is of the kind the
call is answered with, and once. Whoever still waits: while the server runs, the channel is behind
its command in the queue, or parked under a connection that is live or whose `ConnectionLost` is
queued, or answered once; when the server is gone, every channel resolves. -/
theorem serves_everyone (H : KeyedHash) (tls : Tls Q) (secrets : ServerSecrets)
    (ep₀ : Endpoint Q) (hnew : Endpoint.newServer tls secrets = .ok ep₀) (now : Instant)
    (moves : List (Move Q (Driver Q))) :
    (((serve ep₀ now).run H moves).received.map Prod.fst).Nodup ∧
    (∀ x ∈ ((serve ep₀ now).run H moves).received, ((serve ep₀ now).run H moves).Fitting x) ∧
    ∀ t ∈ ((serve ep₀ now).run H moves).waiting, ∃ ch cmd,
      ((serve ep₀ now).run H moves).issued.lookup t = some (ch, cmd) ∧
      (((serve ep₀ now).run H moves).phase ≠ .returned →
        ((serve ep₀ now).run H moves).Placed t ch cmd) ∧
      (((serve ep₀ now).run H moves).phase = .returned →
        ∃ r, ((serve ep₀ now).run H moves).outcome t = some r ∧ r.Fits cmd) := by
  have hfit := serve_fit hnew now
  have hacc := serve_accounted ep₀ now
  have hwatched := (serve_watched ep₀ now).run (H := H) hacc hfit moves
  have hacc := hacc.run (H := H) hfit moves
  have hfit := hfit.run (H := H) moves
  refine ⟨hacc.once, fun x hx => (hacc.received x hx).1, fun t ht => ?_⟩
  obtain ⟨⟨ch, cmd⟩, hcmd⟩ := AMap.mem_iff_lookup.mp (hacc.awaited t ht)
  refine ⟨ch, cmd, hcmd, fun hopen => hacc.placed hfit hwatched hopen ht hcmd, fun hgone => ?_⟩
  obtain ⟨r, hr, a, cmd', hcmd', hfits⟩ := hacc.resolved hgone ht
  obtain ⟨-, rfl⟩ := Prod.mk.inj (Option.some.inj (hcmd'.symm.trans hcmd))
  exact ⟨r, hr, hfits⟩

theorem serves_everyone_visit :
    Endpoint.newServer Endpoint.miniTls Endpoint.miniSecrets = .ok Endpoint.miniServer ∧
      7 ∈ ((serve Endpoint.miniServer 0).run zeroHash visit).waiting ∧
      ((serve Endpoint.miniServer 0).run zeroHash visit).Placed 7 ⟨0, 1⟩ (.acceptBi 7) := by
  have hwait : 7 ∈ ((serve Endpoint.miniServer 0).run zeroHash visit).waiting := by decide +kernel
  have hissued : ((serve Endpoint.miniServer 0).run zeroHash visit).issued.lookup 7 =
      some (⟨0, 1⟩, .acceptBi 7) := by decide +kernel
  obtain ⟨-, -, hplaced⟩ := serves_everyone zeroHash Endpoint.miniTls Endpoint.miniSecrets
    Endpoint.miniServer Endpoint.miniServer_new 0 visit
  obtain ⟨ch, cmd, hcmd, hplaced, -⟩ := hplaced 7 hwait
  obtain ⟨rfl, rfl⟩ := Prod.mk.inj (Option.some.inj (hissued.symm.trans hcmd))
  exact ⟨Endpoint.miniServer_new, hwait, hplaced (by decide +kernel)⟩

end QuietQuic.Tokio
