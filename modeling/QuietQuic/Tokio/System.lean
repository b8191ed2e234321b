import QuietQuic.Proto.Mini
import QuietQuic.Proto.Pass
import QuietQuic.Tokio.Channels

/-!
# One connection under its driver

`Sys` is a live connection with everything around it: the core's `ConnState`, the driver's
`Parked`, the command channel, the connection's queued events, and the application, which issues
commands, awaits their replies and may drop a receiver at any time. An `Action` is one thing any of
them does, in any order; `Sys.step` is total, and an action that is not enabled does nothing.

The application's `&mut self` methods (`RecvStream::read`, `SendStream::write_all`) are borrowed
while their future lives, so a read or a write of a stream is issued only when none of that stream
is awaited (`Sys.borrowed`). Everything else may be issued at any time, from any clone.

Every reply channel is in one place: in the command channel, parked at the `Slot` its command
belongs to, or used. `Sys.Sound` says so, with the kinds of the replies, and `Sys.Sound.step` is its
preservation; a receiver that is still awaited is never forgotten (`covered`).
-/

namespace QuietQuic.Tokio

open QuietQuic.Lib QuietQuic.Proto

/-! ## The system -/

/-- A live connection, its driver and the application. -/
structure Sys (Q : Quinn) where
  handle : ConnectionHandle
  core : ConnState Q
  parked : Parked
  /-- The command channel, oldest first. -/
  commands : List Cmd
  /-- The connection's queued events, oldest first. -/
  events : List Event
  /-- Every command that carries a channel, by its channel. -/
  issued : AMap Token Cmd
  /-- The receivers the application still holds. -/
  waiting : Finset Token
  /-- Every reply sent, oldest first, whether or not anybody was there to receive it. -/
  sent : List (Token × Reply)
  /-- The replies the application has taken out of their channels, oldest first. -/
  received : List (Token × Reply)
  /-- The ids `accept_bi` has handed out, oldest first. -/
  yielded : List StreamId

/-- What can happen. -/
inductive Action (Q : Quinn) where
  /-- The application calls a method of a handle. -/
  | issue (cmd : Cmd)
  /-- The application drops a receiver. -/
  | cancel (t : Token)
  /-- An awaited reply is taken out of its channel. -/
  | receive (t : Token)
  /-- The driver applies the next command. -/
  | execute (now : Instant)
  /-- The driver reacts to the next event. -/
  | dispatch
  /-- A servicing pass of the core. -/
  | service (now : Instant)
  /-- The core hands the connection a datagram's event. -/
  | handleEvent (ev : Q.ConnEvent)
  | handleTimeout (now : Instant)
  | endpointEvent

namespace Sys

variable {Q : Quinn}

/-- A connection the driver has just made its `Parked` for. -/
def start (handle : ConnectionHandle) (core : ConnState Q) : Sys Q where
  handle := handle
  core := core
  parked := .new
  commands := []
  events := []
  issued := ∅
  waiting := ∅
  sent := []
  received := []
  yielded := []

/-- The slot the command of a channel belongs to. -/
def slotOf (s : Sys Q) (t : Token) : Option Slot := (s.issued.lookup t).bind Cmd.slot

/-- The stream handle a command needs is borrowed by a call that is still awaited. -/
def borrowed (s : Sys Q) (cmd : Cmd) : Bool :=
  match cmd.slot with
  | some (.read id) => decide (∃ t ∈ s.waiting, s.slotOf t = some (.read id))
  | some (.write id) => decide (∃ t ∈ s.waiting, s.slotOf t = some (.write id))
  | _ => false

/-- The state after an operation of the driver. -/
def after (s : Sys Q) (o : Outcome Q) : Sys Q :=
  { s with
    core := o.core
    parked := o.parked
    sent := s.sent ++ o.sent
    yielded := s.yielded ++ o.yielded }

/-- The connection moves on by a call the endpoint makes on it. -/
def withConn (s : Sys Q) (c : Q.Conn) : Sys Q := { s with core := { s.core with conn := c } }

/-- One action. -/
def step (s : Sys Q) : Action Q → Sys Q
  | .issue cmd =>
    match cmd.reply with
    | none => { s with commands := s.commands ++ [cmd] }
    | some t =>
      if t ∈ s.issued ∨ s.borrowed cmd then s
      else
        { s with
          commands := s.commands ++ [cmd]
          issued := s.issued.insert t cmd
          waiting := insert t s.waiting }
  | .cancel t => { s with waiting := s.waiting.erase t }
  | .receive t =>
    match s.sent.find? fun x => x.1 = t with
    | some x =>
      if t ∈ s.waiting then
        { s with waiting := s.waiting.erase t, received := s.received ++ [x] }
      else s
    | none => s
  | .execute now =>
    match s.commands with
    | [] => s
    | cmd :: rest => Sys.after { s with commands := rest } (s.parked.applyCmd s.core cmd now)
  | .dispatch =>
    match s.events with
    | [] => s
    | e :: rest => Sys.after { s with events := rest } (s.parked.onEvent s.core e)
  | .service now =>
    let (core, staged) := Core.serviceOne now s.handle s.core
    if staged.lost = [] then { s with core := core, events := s.events ++ staged.events }
    else s -- the connection is lost, and this is about a live one
  | .handleEvent ev => s.withConn (Q.connHandleEvent s.core.conn ev)
  | .handleTimeout now => s.withConn (Q.handleTimeout s.core.conn now)
  | .endpointEvent => s.withConn (Q.pollEndpointEvents s.core.conn).2

/-- The state a run of actions leaves. -/
def run (s : Sys Q) (actions : List (Action Q)) : Sys Q := actions.foldl step s

/-- Every action of a run meets `P` in the state it is taken in. -/
def Meets (P : Sys Q → Action Q → Prop) : Sys Q → List (Action Q) → Prop
  | _, [] => True
  | s, a :: actions => P s a ∧ Meets P (s.step a) actions

/-- **The run rule**: what every action in `P` keeps holds after a run of them. -/
theorem run_inv {P : Sys Q → Action Q → Prop} {I : Sys Q → Prop}
    (hstep : ∀ s a, P s a → I s → I (s.step a)) {actions : List (Action Q)} {s : Sys Q}
    (hP : Meets P s actions) (h : I s) : I (s.run actions) := by
  induction actions generalizing s with
  | nil => exact h
  | cons a actions ih => exact ih hP.2 (hstep s a hP.1 h)

/-- What every action keeps holds after any run. -/
theorem run_keeps {I : Sys Q → Prop} (hstep : ∀ s a, I s → I (s.step a))
    (actions : List (Action Q)) {s : Sys Q} (h : I s) : I (s.run actions) := by
  induction actions generalizing s with
  | nil => exact h
  | cons a actions ih => exact ih (hstep s a h)

/-! ## What an action can do -/

/-- The state after a call that carries a channel. -/
def issuing (s : Sys Q) (cmd : Cmd) (t : Token) : Sys Q :=
  { s with
    commands := s.commands ++ [cmd]
    issued := s.issued.insert t cmd
    waiting := insert t s.waiting }

theorem slotOf_issuing (s : Sys Q) (cmd : Cmd) (t a : Token) :
    (s.issuing cmd t).slotOf a = if a = t then cmd.slot else s.slotOf a := by
  show ((s.issued.insert t cmd).lookup a).bind Cmd.slot = _
  rw [AMap.lookup_insert_eq]
  split <;> rfl

/-- Nothing, where the action is not enabled, or what its guard allows. -/
inductive Taken (s : Sys Q) : Action Q → Sys Q → Prop
  | idle (a) : Taken s a s
  | told {cmd} (hreply : cmd.reply = none) :
      Taken s (.issue cmd) { s with commands := s.commands ++ [cmd] }
  | issued {cmd t} (hreply : cmd.reply = some t) (hfresh : t ∉ s.issued)
      (hfree : ¬ s.borrowed cmd = true) : Taken s (.issue cmd) (s.issuing cmd t)
  | cancelled (t) : Taken s (.cancel t) { s with waiting := s.waiting.erase t }
  | received {x} (hx : x ∈ s.sent) (hwait : x.1 ∈ s.waiting) : Taken s (.receive x.1)
      { s with waiting := s.waiting.erase x.1, received := s.received ++ [x] }
  | executed {cmd rest} (now) (hcmds : s.commands = cmd :: rest) : Taken s (.execute now)
      (Sys.after { s with commands := rest } (s.parked.applyCmd s.core cmd now))
  | dispatched {e rest} (hevents : s.events = e :: rest) : Taken s .dispatch
      (Sys.after { s with events := rest } (s.parked.onEvent s.core e))
  | serviced (now) : Taken s (.service now)
      { s with
        core := (Core.serviceOne now s.handle s.core).1
        events := s.events ++ (Core.serviceOne now s.handle s.core).2.events }
  /-- What the endpoint calls is never a read. -/
  | called {a l c} (hstep : Q.ConnStep s.core.conn l c) (hread : ∀ id bytes, l ≠ .read id bytes) :
      Taken s a (s.withConn c)

/-- **Every action does one of these.** -/
theorem taken (s : Sys Q) (a : Action Q) : Taken s a (s.step a) := by
  cases a with
  | issue cmd =>
    simp only [step]
    split
    · rename_i hreply
      exact .told hreply
    · rename_i t hreply
      split
      · exact .idle _
      · rename_i hnot
        obtain ⟨hfresh, hfree⟩ := not_or.mp hnot
        exact .issued hreply hfresh hfree
  | cancel t => exact .cancelled t
  | receive t =>
    simp only [step]
    split
    · rename_i x hfind
      obtain rfl : x.1 = t := by simpa using List.find?_some hfind
      split
      · rename_i hwait
        exact .received (List.mem_of_find?_eq_some hfind) hwait
      · exact .idle _
    · exact .idle _
  | execute now =>
    simp only [step]
    split
    · exact .idle _
    · rename_i cmd rest hcmds
      exact .executed now hcmds
  | dispatch =>
    simp only [step]
    split
    · exact .idle _
    · rename_i e rest hevents
      exact .dispatched hevents
  | service now =>
    simp only [step]
    split
    · exact .serviced now
    · exact .idle _
  | handleEvent ev => exact .called (.handleEvent s.core.conn ev) (by simp)
  | handleTimeout now => exact .called (.handleTimeout s.core.conn now) (by simp)
  | endpointEvent => exact .called (.endpointEvent s.core.conn) (by simp)

namespace Taken

variable {s s' : Sys Q} {a : Action Q}

/-- A receiver that is not dropped, and whose reply is not taken, stays. -/
theorem mem_waiting (h : Taken s a s') {t : Token} (ht : t ∈ s.waiting) (hcancel : a ≠ .cancel t)
    (hreceive : a ≠ .receive t) : t ∈ s'.waiting := by
  cases h with
  | issued => exact Finset.mem_insert_of_mem ht
  | cancelled t' => exact Finset.mem_erase.mpr ⟨fun heq => hcancel (heq ▸ rfl), ht⟩
  | received => exact Finset.mem_erase.mpr ⟨fun heq => hreceive (heq ▸ rfl), ht⟩
  | _ => exact ht

/-- What was received stays received. -/
theorem mem_received (h : Taken s a s') {x : Token × Reply} (hx : x ∈ s.received) :
    x ∈ s'.received := by
  cases h with
  | received => exact List.mem_append_left _ hx
  | _ => exact hx

/-- What was sent stays sent. -/
theorem mem_sent (h : Taken s a s') {x : Token × Reply} (hx : x ∈ s.sent) : x ∈ s'.sent := by
  cases h with
  | executed => exact List.mem_append_left _ hx
  | dispatched => exact List.mem_append_left _ hx
  | _ => exact hx

/-- A channel that was given to a command keeps its slot. -/
theorem slotOf (h : Taken s a s') {t : Token} (ht : t ∈ s.issued) :
    t ∈ s'.issued ∧ s'.slotOf t = s.slotOf t := by
  cases h with
  | @issued cmd t' hreply hfresh hfree =>
    have hne : t ≠ t' := fun heq => hfresh (heq ▸ ht)
    exact ⟨(AList.mem_insert _).mpr (Or.inr ht), by rw [slotOf_issuing, if_neg hne]⟩
  | _ => exact ⟨ht, rfl⟩

/-- A receiver that is not awaited is not awaited again, and its channel's reply is not taken. -/
theorem dropped (h : Taken s a s') {t : Token} (hissued : t ∈ s.issued) (ht : t ∉ s.waiting)
    (hnone : ∀ r, (t, r) ∉ s.received) : t ∉ s'.waiting ∧ ∀ r, (t, r) ∉ s'.received := by
  cases h with
  | issued hreply hfresh =>
    refine ⟨fun hmem => ?_, hnone⟩
    rcases Finset.mem_insert.mp hmem with rfl | hmem
    · exact hfresh hissued
    · exact ht hmem
  | cancelled => exact ⟨fun hmem => ht (Finset.mem_of_mem_erase hmem), hnone⟩
  | received _ hwait =>
    refine ⟨fun hmem => ht (Finset.mem_of_mem_erase hmem), fun r hmem => ?_⟩
    rcases List.mem_append.mp hmem with hmem | hmem
    · exact hnone r hmem
    · rw [← List.mem_singleton.mp hmem] at hwait
      exact ht hwait
  | _ => exact ⟨ht, hnone⟩

end Taken

/-- A receiver that was dropped is not awaited again, and its channel's reply is never taken. -/
theorem dropped_run {s : Sys Q} {t : Token} (hissued : t ∈ s.issued) (ht : t ∉ s.waiting)
    (hnone : ∀ r, (t, r) ∉ s.received) (actions : List (Action Q)) (r : Reply) :
    (t, r) ∉ (s.run actions).received := by
  have hkept : t ∈ (s.run actions).issued ∧ t ∉ (s.run actions).waiting ∧
      ∀ r, (t, r) ∉ (s.run actions).received := by
    refine run_keeps (I := fun s => t ∈ s.issued ∧ t ∉ s.waiting ∧ ∀ r, (t, r) ∉ s.received) ?_
      actions ⟨hissued, ht, hnone⟩
    rintro s a ⟨hissued, ht, hnone⟩
    exact ⟨((taken s a).slotOf hissued).1, (taken s a).dropped hissued ht hnone⟩
  exact hkept.2.2 r

/-! ## Every channel is in one place -/

/-- How many places a channel has. -/
def places (s : Sys Q) (t : Token) : Nat :=
  (s.commands.filterMap Cmd.reply).count t + held s.slotOf s.parked t +
    (s.sent.map Prod.fst).count t

/-- The commands in the channel that belong to a slot. -/
def queuedAt (s : Sys Q) (σ : Slot) : List Cmd := s.commands.filter fun cmd => cmd.slot = some σ

/-- Every channel has at most one place, every awaited one has one, and the replies are of the
right kind. At a slot that fits one channel only one is awaited, and it is the youngest. -/
structure Sound (s : Sys Q) : Prop where
  queued : ∀ cmd ∈ s.commands, ∀ t, cmd.reply = some t → s.issued.lookup t = some cmd
  typed : Typed s.slotOf s.parked
  fits : ∀ x ∈ s.sent, ∃ cmd, s.issued.lookup x.1 = some cmd ∧ x.2.Fits cmd
  once : ∀ t, s.places t ≤ 1
  covered : ∀ t ∈ s.waiting, t ∈ s.issued ∧ s.places t = 1
  taken : ∀ x ∈ s.received, x ∈ s.sent ∧ x.1 ∉ s.waiting
  last : ∀ σ, σ.single = true → ∀ t ∈ s.waiting, s.slotOf t = some σ →
    ∀ cmd, (s.queuedAt σ).getLast? = some cmd → cmd.reply = some t
  unique : ∀ σ, σ.single = true → ∀ t ∈ s.waiting, ∀ t' ∈ s.waiting, s.slotOf t = some σ →
    s.slotOf t' = some σ → t = t'

namespace Sound

theorem start (handle : ConnectionHandle) (core : ConnState Q) : Sound (Sys.start handle core) := by
  refine ⟨by simp [Sys.start], ?_, by simp [Sys.start], ?_, by simp [Sys.start], by simp [Sys.start],
    by simp [Sys.start], by simp [Sys.start]⟩
  · intro σ t ht
    cases σ <;> simp [Sys.start, Parked.new, Parked.tokens] at ht
  · intro t
    simp [Sys.places, held, Sys.slotOf, Sys.start]

variable {s : Sys Q}

/-- A channel nobody was given has no place. -/
theorem places_fresh (h : Sound s) {t : Token} (ht : t ∉ s.issued) :
    t ∉ s.commands.filterMap Cmd.reply ∧ (∀ σ, t ∉ s.parked.tokens σ) ∧
      t ∉ s.sent.map Prod.fst := by
  have hnone : s.issued.lookup t = none := AList.lookup_eq_none.mpr ht
  refine ⟨fun hmem => ?_, fun σ hmem => ?_, fun hmem => ?_⟩
  · obtain ⟨cmd, hcmd, hreply⟩ := List.mem_filterMap.mp hmem
    exact absurd (h.queued cmd hcmd t hreply) (by simp [hnone])
  · exact absurd (h.typed σ t hmem) (by simp [Sys.slotOf, hnone])
  · obtain ⟨x, hx, rfl⟩ := List.mem_map.mp hmem
    obtain ⟨cmd, hcmd, -⟩ := h.fits x hx
    exact absurd hcmd (by simp [hnone])

/-- The core, the events and the history of accepts are not part of it. -/
theorem frame (h : Sound s) (core : ConnState Q) (events : List Event) (yielded : List StreamId) :
    Sound { s with core := core, events := events, yielded := yielded } :=
  ⟨h.queued, h.typed, h.fits, h.once, h.covered, h.taken, h.last, h.unique⟩

theorem cancelled (h : Sound s) (t : Token) :
    Sound { s with waiting := s.waiting.erase t } := by
  refine ⟨h.queued, h.typed, h.fits, h.once, fun a ha => h.covered a (Finset.mem_of_mem_erase ha),
    fun x hx => ?_, fun σ hσ a ha => h.last σ hσ a (Finset.mem_of_mem_erase ha), ?_⟩
  · obtain ⟨hsent, hnot⟩ := h.taken x hx
    exact ⟨hsent, fun ha => hnot (Finset.mem_of_mem_erase ha)⟩
  · exact fun σ hσ a ha b hb =>
      h.unique σ hσ a (Finset.mem_of_mem_erase ha) b (Finset.mem_of_mem_erase hb)

theorem received (h : Sound s) {x : Token × Reply} (hx : x ∈ s.sent) :
    Sound { s with waiting := s.waiting.erase x.1, received := s.received ++ [x] } := by
  have hc := h.cancelled x.1
  refine ⟨hc.queued, hc.typed, hc.fits, hc.once, hc.covered, fun y hy => ?_, hc.last, hc.unique⟩
  rcases List.mem_append.mp hy with hy | hy
  · exact hc.taken y hy
  · rw [List.mem_singleton.mp hy]
    exact ⟨hx, Finset.notMem_erase x.1 _⟩

/-- What the driver answers of what was parked, it answers with the right kind of reply. -/
theorem fits_of_releases (h : Sound s) {p : Parked} {sent : List (Token × Reply)}
    (hrel : Releases s.parked p sent) {x : Token × Reply} (hx : x ∈ sent) :
    ∃ cmd, s.issued.lookup x.1 = some cmd ∧ x.2.Fits cmd := by
  obtain ⟨σ, hslot, -, htakes⟩ := hrel.takes h.typed hx
  obtain ⟨cmd, hcmd, hσ⟩ := Option.bind_eq_some_iff.mp hslot
  refine ⟨cmd, hcmd, ?_⟩
  unfold Reply.Fits
  rw [hσ]
  exact htakes

/-- The youngest of what is left is the youngest of what was there. -/
theorem getLast_queuedAt {rest : List Cmd} (hrest : rest <:+ s.commands) {σ : Slot} {last : Cmd}
    (h : (Sys.queuedAt { s with commands := rest } σ).getLast? = some last) :
    (s.queuedAt σ).getLast? = some last := by
  obtain ⟨front, hfront⟩ := hrest
  unfold Sys.queuedAt at h ⊢
  rw [← hfront, List.filter_append, List.getLast?_append, h]
  rfl

/-- **What an operation of the driver owes**: what it parks and sends is of the right kind, no
channel gets one more place, and an awaited one keeps its own. -/
theorem operated (h : Sound s) {rest : List Cmd} (hrest : rest <:+ s.commands) {o : Outcome Q}
    (htyped : Typed s.slotOf o.parked)
    (hfits : ∀ x ∈ o.sent, ∃ cmd, s.issued.lookup x.1 = some cmd ∧ x.2.Fits cmd)
    (hle : ∀ t, (Sys.after { s with commands := rest } o).places t ≤ s.places t)
    (hkept : ∀ t ∈ s.waiting, (Sys.after { s with commands := rest } o).places t = s.places t) :
    Sound (Sys.after { s with commands := rest } o) := by
  refine ⟨fun c hc => h.queued c (hrest.subset hc), htyped, fun x hx => ?_,
    fun t => (hle t).trans (h.once t),
    fun t ht => ⟨(h.covered t ht).1, (hkept t ht).trans (h.covered t ht).2⟩, fun x hx => ?_,
    fun σ hσ t ht hslot last hlast => h.last σ hσ t ht hslot last (getLast_queuedAt hrest hlast),
    h.unique⟩
  · rcases List.mem_append.mp hx with hx | hx
    · exact h.fits x hx
    · exact hfits x hx
  · obtain ⟨hsent, hnot⟩ := h.taken x hx
    exact ⟨List.mem_append_left _ hsent, hnot⟩

/-- An operation of the driver that answers what it takes, under an unchanged queue. -/
theorem reacts (h : Sound s) {o : Outcome Q} (hrel : Releases s.parked o.parked o.sent) :
    Sound (s.after o) := by
  have hplaces : ∀ t, (s.after o).places t = s.places t := by
    intro t
    have hcount := hrel.count h.typed t
    show (s.commands.filterMap Cmd.reply).count t + held s.slotOf o.parked t +
      ((s.sent ++ o.sent).map Prod.fst).count t = s.places t
    rw [List.map_append, List.count_append, Sys.places]
    omega
  exact h.operated (List.suffix_refl _) (hrel.typed h.typed) (fun x => h.fits_of_releases hrel)
    (fun t => (hplaces t).le) fun t _ => hplaces t

theorem filterMap_reply_cons (cmd : Cmd) (rest : List Cmd) :
    (cmd :: rest).filterMap Cmd.reply = cmd.reply.toList ++ rest.filterMap Cmd.reply := by
  cases h : cmd.reply <;> simp [h]

theorem suffix_commands {cmd : Cmd} {rest : List Cmd} (hcmds : s.commands = cmd :: rest) :
    rest <:+ s.commands := by
  rw [hcmds]
  exact List.suffix_cons cmd rest

/-- An awaited channel is not parked where a command of its slot is still queued. -/
theorem not_parked_of_queued (h : Sound s) {σ : Slot} (hσ : σ.single = true) {cmd : Cmd}
    (hcmd : cmd ∈ s.commands) (hslot : cmd.slot = some σ) {a : Token} (ha : a ∈ s.waiting)
    (hslot' : s.slotOf a = some σ) :
    a ∈ s.commands.filterMap Cmd.reply ∧ held s.slotOf s.parked a = 0 ∧
      a ∉ s.sent.map Prod.fst := by
  have hne : s.queuedAt σ ≠ [] := by
    intro hnil
    have := List.filter_eq_nil_iff.mp hnil cmd hcmd
    simp [hslot] at this
  obtain ⟨last, hlast⟩ := Option.ne_none_iff_exists'.mp (mt List.getLast?_eq_none_iff.mp hne)
  have hmem : a ∈ s.commands.filterMap Cmd.reply :=
    List.mem_filterMap.mpr ⟨last, (List.mem_filter.mp (List.mem_of_getLast? hlast)).1,
      h.last σ hσ a ha hslot' last hlast⟩
  have hpos := List.count_pos_iff.mpr hmem
  have honce := h.once a
  unfold Sys.places at honce
  exact ⟨hmem, by omega, List.count_eq_zero.mp (by omega)⟩

/-- The command at the head of the queue is answered. -/
theorem answered (h : Sound s) {cmd : Cmd} {rest : List Cmd} (hcmds : s.commands = cmd :: rest)
    {o : Outcome Q} {sent own : List (Token × Reply)} (hsent : o.sent = sent ++ own)
    (hrel : Releases s.parked o.parked sent) (hown : own.map Prod.fst = cmd.reply.toList)
    (hfits : ∀ x ∈ own, x.2.Fits cmd) : Sound (Sys.after { s with commands := rest } o) := by
  have hplaces : ∀ t, (Sys.after { s with commands := rest } o).places t = s.places t := by
    intro t
    have hcount := hrel.count h.typed t
    show (rest.filterMap Cmd.reply).count t + held s.slotOf o.parked t +
      ((s.sent ++ o.sent).map Prod.fst).count t = s.places t
    rw [hsent, List.map_append, List.map_append, List.count_append, List.count_append, hown,
      Sys.places, hcmds, filterMap_reply_cons, List.count_append]
    omega
  refine h.operated (suffix_commands hcmds) (hrel.typed h.typed) (fun x hx => ?_)
    (fun t => (hplaces t).le) fun t _ => hplaces t
  rw [hsent] at hx
  rcases List.mem_append.mp hx with hx | hx
  · exact h.fits_of_releases hrel hx
  · have hreply : cmd.reply = some x.1 := by
      have : x.1 ∈ cmd.reply.toList := by
        rw [← hown]
        exact List.mem_map_of_mem hx
      simpa using this
    exact ⟨cmd, h.queued cmd (by rw [hcmds]; exact List.mem_cons_self) x.1 hreply, hfits x hx⟩

/-- The command at the head of the queue is parked. The channel it replaces at a single slot is
not awaited: an awaited one would still be in the queue. -/
theorem parks (h : Sound s) {cmd : Cmd} {rest : List Cmd} (hcmds : s.commands = cmd :: rest)
    {o : Outcome Q} {σ : Slot} {t : Token} (hsent : o.sent = []) (hslot : cmd.slot = some σ)
    (hreply : cmd.reply = some t) (hparks : Parks s.parked o.parked σ t) :
    Sound (Sys.after { s with commands := rest } o) := by
  have hcmd : cmd ∈ s.commands := by
    rw [hcmds]
    exact List.mem_cons_self
  have hslotOf : s.slotOf t = some σ := by
    rw [Sys.slotOf, h.queued cmd hcmd t hreply]
    exact hslot
  have hcount : ∀ a, (s.commands.filterMap Cmd.reply).count a =
      [t].count a + (rest.filterMap Cmd.reply).count a := by
    intro a
    rw [hcmds, filterMap_reply_cons, hreply, List.count_append]
    rfl
  have hplaces : ∀ a, (Sys.after { s with commands := rest } o).places a =
      (rest.filterMap Cmd.reply).count a + held s.slotOf o.parked a +
        (s.sent.map Prod.fst).count a := by
    intro a
    show (rest.filterMap Cmd.reply).count a + held s.slotOf o.parked a +
      ((s.sent ++ o.sent).map Prod.fst).count a = _
    rw [hsent, List.append_nil]
  have hle : ∀ a, (Sys.after { s with commands := rest } o).places a ≤ s.places a := by
    intro a
    have hp := hparks.count hslotOf a
    have hc := hcount a
    rw [hplaces, Sys.places, hp]
    split <;> omega
  refine h.operated (suffix_commands hcmds) (hparks.typed h.typed hslotOf) (fun x hx => ?_) hle
    fun a ha => ?_
  · rw [hsent] at hx
    exact absurd hx List.not_mem_nil
  · have hp := hparks.count hslotOf a
    have hc := hcount a
    rw [hplaces, hp, Sys.places]
    split
    · rename_i hsingle
      obtain ⟨-, hzero, -⟩ := h.not_parked_of_queued hsingle.1 hcmd hslot ha hsingle.2
      omega
    · omega

theorem executed (h : Sound s) {cmd : Cmd} {rest : List Cmd} (hcmds : s.commands = cmd :: rest)
    (now : Instant) :
    Sound (Sys.after { s with commands := rest } (s.parked.applyCmd s.core cmd now)) := by
  rcases applyCmd_moves s.parked s.core cmd now with
    ⟨sent, own, hsent, hrel, hown, hfits⟩ | ⟨hsent, σ, t, hslot, hreply, hparks⟩
  · exact h.answered hcmds hsent hrel hown hfits
  · exact h.parks hcmds hsent hslot hreply hparks

theorem not_awaited_of_not_borrowed {cmd : Cmd} (h : ¬ s.borrowed cmd = true) {σ : Slot}
    (hσ : σ.single = true) (hslot : cmd.slot = some σ) {a : Token} (ha : a ∈ s.waiting) :
    s.slotOf a ≠ some σ := by
  intro hslot'
  refine h ?_
  unfold Sys.borrowed
  rw [hslot]
  cases σ with
  | accept => exact absurd hσ (by simp [Slot.single])
  | fin id => exact absurd hσ (by simp [Slot.single])
  | read id => exact decide_eq_true ⟨a, ha, hslot'⟩
  | write id => exact decide_eq_true ⟨a, ha, hslot'⟩

theorem queuedAt_concat (s : Sys Q) (cmd : Cmd) (σ : Slot) :
    (s.commands ++ [cmd]).filter (fun c => c.slot = some σ) =
      s.queuedAt σ ++ if cmd.slot = some σ then [cmd] else [] := by
  rw [List.filter_append]
  by_cases hslot : cmd.slot = some σ <;> simp [hslot, Sys.queuedAt]

/-- A new channel gets its one place, and the others keep theirs. -/
theorem places_issuing (h : Sound s) {cmd : Cmd} {t : Token} (hreply : cmd.reply = some t)
    (hfresh : t ∉ s.issued) (a : Token) :
    (s.issuing cmd t).places a = if a = t then 1 else s.places a := by
  obtain ⟨hqueue, hparked, hsent⟩ := h.places_fresh hfresh
  show ((s.commands ++ [cmd]).filterMap Cmd.reply).count a +
    held (s.issuing cmd t).slotOf s.parked a + (s.sent.map Prod.fst).count a = _
  rw [List.filterMap_append, show [cmd].filterMap Cmd.reply = [t] by simp [hreply],
    List.count_append]
  by_cases ha : a = t
  · subst ha
    have hheld : held (s.issuing cmd a).slotOf s.parked a = 0 := by
      unfold held
      split
      · exact List.count_eq_zero.mpr (hparked _)
      · rfl
    rw [if_pos rfl, hheld, List.count_eq_zero.mpr hqueue, List.count_eq_zero.mpr hsent,
      List.count_singleton_self]
  · have hheld : held (s.issuing cmd t).slotOf s.parked a = held s.slotOf s.parked a := by
      unfold held
      rw [slotOf_issuing, if_neg ha]
    have hnone : [t].count a = 0 := List.count_eq_zero.mpr (by simpa using ha)
    rw [if_neg ha, hheld, hnone, Nat.add_zero, Sys.places]

/-- At a slot for one channel it is the new call that is awaited, or, of another slot, the one that
was: the handle was not borrowed. -/
theorem awaited_issuing {cmd : Cmd} {t : Token} (hfree : ¬ s.borrowed cmd = true) {σ : Slot}
    (hσ : σ.single = true) {a : Token} (ha : a ∈ (s.issuing cmd t).waiting)
    (hslot : (s.issuing cmd t).slotOf a = some σ) :
    (a = t ∧ cmd.slot = some σ) ∨ (a ∈ s.waiting ∧ s.slotOf a = some σ ∧ cmd.slot ≠ some σ) := by
  rw [slotOf_issuing] at hslot
  split at hslot
  · rename_i heq
    exact Or.inl ⟨heq, hslot⟩
  · rename_i hne
    have ha := (Finset.mem_insert.mp ha).resolve_left hne
    exact Or.inr ⟨ha, hslot, fun hcmd => not_awaited_of_not_borrowed hfree hσ hcmd ha hslot⟩

/-- A new call, on a handle that is not borrowed. -/
theorem issued (h : Sound s) {cmd : Cmd} {t : Token} (hreply : cmd.reply = some t)
    (hfresh : t ∉ s.issued) (hfree : ¬ s.borrowed cmd = true) : Sound (s.issuing cmd t) := by
  obtain ⟨-, hparked, hsent⟩ := h.places_fresh hfresh
  have hplaces := h.places_issuing hreply hfresh
  have hlook : ∀ {a c}, s.issued.lookup a = some c →
      (s.issuing cmd t).issued.lookup a = some c := by
    intro a c ha
    show (s.issued.insert t cmd).lookup a = some c
    rw [AMap.lookup_insert_eq, if_neg, ha]
    rintro rfl
    exact hfresh (AMap.mem_iff_lookup.mpr ⟨c, ha⟩)
  refine ⟨fun c hc a ha => ?_, fun σ a ha => ?_, fun x hx => ?_, fun a => ?_, fun a ha => ?_,
    fun x hx => ?_, fun σ hσ a ha hslot last hlast => ?_, fun σ hσ a ha b hb hsa hsb => ?_⟩
  · rcases List.mem_append.mp hc with hc | hc
    · exact hlook (h.queued c hc a ha)
    · obtain rfl := List.mem_singleton.mp hc
      obtain rfl := Option.some.inj (hreply.symm.trans ha)
      exact AList.lookup_insert _
  · have hne : a ≠ t := fun heq => hparked σ (heq ▸ ha)
    rw [slotOf_issuing, if_neg hne]
    exact h.typed σ a ha
  · obtain ⟨c, hc, hfits⟩ := h.fits x hx
    exact ⟨c, hlook hc, hfits⟩
  · rw [hplaces]
    split
    · exact le_rfl
    · exact h.once a
  · rcases Finset.mem_insert.mp ha with rfl | ha
    · exact ⟨(AList.mem_insert _).mpr (Or.inl rfl), by rw [hplaces, if_pos rfl]⟩
    · obtain ⟨hmem, hone⟩ := h.covered a ha
      have hne : a ≠ t := fun heq => hfresh (heq ▸ hmem)
      refine ⟨(AList.mem_insert _).mpr (Or.inr hmem), ?_⟩
      rw [hplaces, if_neg hne]
      exact hone
  · obtain ⟨hmem, hnot⟩ := h.taken x hx
    refine ⟨hmem, fun hwait => ?_⟩
    rcases Finset.mem_insert.mp hwait with heq | hwait
    · exact hsent (heq ▸ List.mem_map_of_mem hmem)
    · exact hnot hwait
  · change ((s.commands ++ [cmd]).filter fun c => c.slot = some σ).getLast? = some last at hlast
    rw [queuedAt_concat] at hlast
    rcases awaited_issuing hfree hσ ha hslot with ⟨rfl, hcmd⟩ | ⟨ha, hslot, hcmd⟩
    · rw [if_pos hcmd, List.getLast?_concat] at hlast
      obtain rfl := Option.some.inj hlast
      exact hreply
    · rw [if_neg hcmd, List.append_nil] at hlast
      exact h.last σ hσ a ha hslot last hlast
  · rcases awaited_issuing hfree hσ ha hsa with ⟨rfl, hcmd⟩ | ⟨ha, hsa, hcmd⟩
    · rcases awaited_issuing hfree hσ hb hsb with ⟨rfl, -⟩ | ⟨-, -, hnot⟩
      · rfl
      · exact absurd hcmd hnot
    · rcases awaited_issuing hfree hσ hb hsb with ⟨-, hyes⟩ | ⟨hb, hsb, -⟩
      · exact absurd hyes hcmd
      · exact h.unique σ hσ a ha b hb hsa hsb

/-- A command without a channel has no slot either. -/
theorem told (h : Sound s) {cmd : Cmd} (hreply : cmd.reply = none) :
    Sound { s with commands := s.commands ++ [cmd] } := by
  have hslot : cmd.slot = none := by cases cmd <;> simp_all [Cmd.reply, Cmd.slot]
  have hplaces : ∀ t, Sys.places { s with commands := s.commands ++ [cmd] } t = s.places t := by
    intro t
    show ((s.commands ++ [cmd]).filterMap Cmd.reply).count t + _ + _ = s.places t
    rw [List.filterMap_append, show [cmd].filterMap Cmd.reply = [] by simp [hreply],
      List.append_nil]
    rfl
  refine ⟨fun c hc t ht => ?_, h.typed, h.fits, fun t => (hplaces t).le.trans (h.once t),
    fun t ht => ⟨(h.covered t ht).1, (hplaces t).trans (h.covered t ht).2⟩, h.taken,
    fun σ hσ t ht hs last hlast => h.last σ hσ t ht hs last ?_, h.unique⟩
  · rcases List.mem_append.mp hc with hc | hc
    · exact h.queued c hc t ht
    · rw [List.mem_singleton.mp hc, hreply] at ht
      exact absurd ht (by simp)
  · change ((s.commands ++ [cmd]).filter fun c => c.slot = some σ).getLast? = some last at hlast
    rwa [queuedAt_concat, if_neg (by simp [hslot]), List.append_nil] at hlast

/-- **Every action keeps the channels in order.** -/
theorem step (h : Sound s) (a : Action Q) : Sound (s.step a) := by
  have htaken := Sys.taken s a
  generalize s.step a = s' at htaken ⊢
  cases htaken with
  | idle => exact h
  | told hreply => exact h.told hreply
  | issued hreply hfresh hfree => exact h.issued hreply hfresh hfree
  | cancelled t => exact h.cancelled t
  | received hx hwait => exact h.received hx
  | executed now hcmds => exact h.executed hcmds now
  | @dispatched e rest hevents =>
    exact (h.frame s.core rest s.yielded).reacts (onEvent_releases s.parked s.core e)
  | serviced now => exact h.frame _ _ s.yielded
  | called hstep => exact h.frame _ s.events s.yielded

end Sound

variable {s : Sys Q}

/-- A channel is used once. -/
theorem Sound.nodup_sent (h : s.Sound) : (s.sent.map Prod.fst).Nodup := by
  refine List.nodup_iff_count_le_one.mpr fun t => ?_
  have := h.once t
  unfold Sys.places at this
  omega

/-- What is taken out of a channel is what was sent into it. -/
theorem Sound.find_sent (h : s.Sound) {x : Token × Reply} (hx : x ∈ s.sent) :
    (s.sent.find? fun y => y.1 = x.1) = some x := by
  cases hfind : s.sent.find? fun y => y.1 = x.1 with
  | none => exact absurd (List.find?_eq_none.mp hfind x hx) (by simp)
  | some y =>
    have hfst : y.1 = x.1 := by simpa using List.find?_some hfind
    rw [List.inj_on_of_nodup_map h.nodup_sent (List.mem_of_find?_eq_some hfind) hx hfst]

/-- A reply goes to a channel that was given to a command. -/
theorem Sound.issued_of_sent (h : s.Sound) {x : Token × Reply} (hx : x ∈ s.sent) :
    x.1 ∈ s.issued := by
  obtain ⟨cmd, hcmd, -⟩ := h.fits x hx
  exact AMap.mem_iff_lookup.mpr ⟨cmd, hcmd⟩

/-- A command in the queue belongs to the slot of its channel. -/
theorem Sound.slotOf_queued (h : s.Sound) {cmd : Cmd} (hcmd : cmd ∈ s.commands) {t : Token}
    (ht : cmd.reply = some t) : s.slotOf t = cmd.slot := by
  rw [Sys.slotOf, h.queued cmd hcmd t ht]
  rfl

/-- A parked channel is neither in the queue nor used. -/
theorem Sound.parked_only (h : s.Sound) {σ : Slot} {t : Token} (ht : t ∈ s.parked.tokens σ) :
    t ∉ s.commands.filterMap Cmd.reply ∧ t ∉ s.sent.map Prod.fst := by
  have hpos : 0 < held s.slotOf s.parked t := by
    unfold held
    rw [h.typed σ t ht]
    exact List.count_pos_iff.mpr ht
  have honce := h.once t
  unfold Sys.places at honce
  exact ⟨List.count_eq_zero.mp (by omega), List.count_eq_zero.mp (by omega)⟩

/-- A channel in the queue is neither parked nor used. -/
theorem Sound.queued_only (h : s.Sound) {cmd : Cmd} (hcmd : cmd ∈ s.commands) {t : Token}
    (ht : cmd.reply = some t) : (∀ σ, t ∉ s.parked.tokens σ) ∧ t ∉ s.sent.map Prod.fst := by
  have hmem : t ∈ s.commands.filterMap Cmd.reply := List.mem_filterMap.mpr ⟨cmd, hcmd, ht⟩
  have hpos := List.count_pos_iff.mpr hmem
  have honce := h.once t
  unfold Sys.places at honce
  exact ⟨fun σ hσ => (h.parked_only hσ).1 hmem, List.count_eq_zero.mp (by omega)⟩

/-- The channel of the next command is in the queue once. -/
theorem Sound.head_only (h : s.Sound) {cmd : Cmd} {rest : List Cmd} (hcmds : s.commands = cmd :: rest)
    {t : Token} (ht : cmd.reply = some t) : t ∉ rest.filterMap Cmd.reply := by
  have honce := h.once t
  unfold Sys.places at honce
  rw [hcmds, Sound.filterMap_reply_cons, ht, List.count_append] at honce
  have hself : (some t).toList.count t = 1 := List.count_singleton_self
  exact List.count_eq_zero.mp (by omega)

/-- A read reply is bytes. -/
theorem Sound.bytes_of_read (h : s.Sound) {x : Token × Reply} (hx : x ∈ s.sent) {id : StreamId}
    (hslot : s.slotOf x.1 = some (.read id)) : ∃ answer, x.2 = .bytes answer := by
  obtain ⟨cmd, hcmd, hfits⟩ := h.fits x hx
  rw [Sys.slotOf, hcmd] at hslot
  unfold Reply.Fits at hfits
  rw [show cmd.slot = some (.read id) from hslot] at hfits
  cases hr : x.2 with
  | bytes answer => exact ⟨answer, rfl⟩
  | stream answer => exact absurd hfits (by simp [hr, Slot.Takes])
  | done answer => exact absurd hfits (by simp [hr, Slot.Takes])

/-- A new connection of `Mini`, with no credit yet. -/
def miniStart : Sys Mini := .start ⟨0, 1⟩ (.new (MiniConn.new ⟨.v4 0, 0⟩ 0))

end Sys

end QuietQuic.Tokio
