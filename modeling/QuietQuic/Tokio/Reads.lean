import QuietQuic.Tokio.Calls

/-!
# Bytes, reads and cancellation

A read consumes bytes from the core where it is pumped: when its command is applied, and from
`on_readable` while it is parked. The bytes go into its accumulator and then into its reply. A read
whose receiver was dropped is pumped all the same, and what it takes is discarded with the reply
nobody receives, or with the accumulator the next read replaces.

`reads_delivered` is the exact extent of that. As long as no dropped read takes a byte and no read
is dropped with bytes in hand, every byte consumed is received or still in the hands of the one
read that is awaited (`Flow`), so what the application received is a prefix of the stream.
-/

namespace QuietQuic.Tokio

open QuietQuic.Lib QuietQuic.Proto

variable {Q : Quinn}

/-! ## Which streams an operation reads from -/

/-- The pending read a command starts with. -/
def Cmd.pendingRead : Cmd → Option PendingRead
  | .readToEnd _ limit reply => some { buf := [], endLimit := some limit, max := none, reply }
  | .read _ len reply => some { buf := [], endLimit := none, max := some (max len 1), reply }
  | _ => none

/-- A read command is offered to the core with an empty accumulator. -/
theorem applyCmd_read {cmd : Cmd} {id : StreamId} (h : cmd.slot = some (.read id)) (p : Parked)
    (core : ConnState Q) (now : Instant) :
    ∃ pending, cmd.pendingRead = some pending ∧ cmd.reply = some pending.reply ∧
      pending.buf = [] ∧ p.applyCmd core cmd now = p.offerRead core id pending := by
  cases cmd with
  | readToEnd a limit t =>
    obtain rfl : a = id := by simpa [Cmd.slot] using h
    exact ⟨_, rfl, rfl, rfl, rfl⟩
  | read a len t =>
    obtain rfl : a = id := by simpa [Cmd.slot] using h
    exact ⟨_, rfl, rfl, rfl, rfl⟩
  | _ => exact absurd h (by simp [Cmd.slot])

/-- The calls that read nothing from stream `id`. -/
def ReadsElsewhere (id : StreamId) (l : Q.ConnLabel) : Prop := ∀ bytes, l ≠ .read id bytes

/-- Only `stream_read` reads. -/
theorem makes_readsElsewhere {o : ConnOp Q} {l : Q.ConnLabel} {id : StreamId}
    (h : ∀ len, o ≠ .call (.streamRead id len)) (hl : o.Makes l) : ReadsElsewhere id l := by
  rintro bytes rfl
  cases o with
  | drive f => exact hl
  | call c =>
    cases c with
    | streamRead a len =>
      obtain ⟨bytes', heq⟩ := hl
      exact h len (by rw [(Quinn.ConnLabel.read.inj heq).1])
    | serviceStreams => exact hl
    | _ => simp [ConnOp.Makes, ConnCall.Makes] at hl

/-- A read of another stream. -/
theorem readsOf_elsewhere {a id : StreamId} (ha : a ≠ id) {o : ConnOp Q} (h : ReadsOf a o)
    (len : Nat) : o ≠ .call (.streamRead id len) := by
  rcases h with ⟨len', rfl⟩ | rfl
  · intro heq
    exact ha (by simpa using (ConnCall.streamRead.inj (ConnOp.call.inj heq)).1)
  · simp

theorem writesOf_elsewhere {a id : StreamId} {o : ConnOp Q} (h : WritesOf a o) (len : Nat) :
    o ≠ .call (.streamRead id len) := by
  obtain ⟨buf, rfl⟩ := h
  simp

/-- A command reads from its own stream only. -/
theorem applyCmd_steps {cmd : Cmd} {id : StreamId} (h : cmd.slot ≠ some (.read id)) (p : Parked)
    (core : ConnState Q) (now : Instant) :
    Q.ConnSteps (ReadsElsewhere id) core.conn (p.applyCmd core cmd now).core.conn := by
  refine (applyCmd_driven p core cmd now).steps fun o l ho hl => makes_readsElsewhere ?_ hl
  cases cmd with
  | write => exact writesOf_elsewhere ho
  | waitFinished => exact ho.elim
  | readToEnd a | read a => exact readsOf_elsewhere (fun ha => h (by rw [ha]; rfl)) ho
  | close =>
    obtain ⟨now', rfl⟩ := ho
    simp
  | _ =>
    obtain rfl := ho
    simp

/-- So does an event. -/
theorem onEvent_steps {e : Event} {id : StreamId} (h : ∀ ch, e ≠ .streamReadable ch id) (p : Parked)
    (core : ConnState Q) :
    Q.ConnSteps (ReadsElsewhere id) core.conn (p.onEvent core e).core.conn := by
  refine (onEvent_driven p core e).steps fun o l ho hl => makes_readsElsewhere ?_ hl
  cases e with
  | streamOpened =>
    obtain rfl := ho
    simp
  | streamReadable ch a => exact readsOf_elsewhere (fun ha => h ch (by rw [ha])) ho
  | streamWritable | streamStopped => exact writesOf_elsewhere ho
  | connected | streamFinAcked | connectionLost => exact ho.elim

/-! ## What an operation does to a stream's reads -/

/-- The operation leaves the parked read of stream `id` alone, and sends no bytes to a read of
it. -/
def LeavesReads (slotOf : Token → Option Slot) (id : StreamId) (p : Parked) (o : Outcome Q) : Prop :=
  o.parked.pendingReads.lookup id = p.pendingReads.lookup id ∧
    ∀ x ∈ o.sent, ∀ b, x.2 = .bytes b → slotOf x.1 ≠ some (.read id)

theorem leavesReads_of_kind {slotOf : Token → Option Slot} {id : StreamId} {p : Parked}
    {o : Outcome Q} (hp : o.parked.pendingReads = p.pendingReads)
    (hsent : ∀ x ∈ o.sent, ∀ b, x.2 ≠ .bytes b) : LeavesReads slotOf id p o :=
  ⟨by rw [hp], fun x hx b hb => absurd hb (hsent x hx b)⟩

theorem offerWrite_leavesReads {slotOf : Token → Option Slot} {id : StreamId} (p : Parked)
    (core : ConnState Q) (a : StreamId) (pending : PendingWrite) :
    LeavesReads slotOf id p (p.offerWrite core a pending) := by
  refine leavesReads_of_kind (p.offerWrite_parked core a pending).1 fun x hx b => ?_
  obtain ⟨answer, -, rfl⟩ := Parked.mem_offerWrite_sent hx
  simp

/-- A read of another stream. -/
theorem offerRead_leavesReads {slotOf : Token → Option Slot} {id a : StreamId} (ha : a ≠ id)
    (p : Parked) (core : ConnState Q) {pending : PendingRead}
    (hslot : slotOf pending.reply = some (.read a)) :
    LeavesReads slotOf id p (p.offerRead core a pending) := by
  unfold Parked.offerRead
  dsimp only
  split
  · refine ⟨rfl, fun x hx b _ => ?_⟩
    rw [List.mem_singleton.mp hx, hslot]
    simpa using ha
  · exact ⟨AList.lookup_insert_ne ha.symm, by simp⟩

theorem onWritable_leavesReads {slotOf : Token → Option Slot} {id : StreamId} (p : Parked)
    (core : ConnState Q) (a : StreamId) : LeavesReads slotOf id p (p.onWritable core a) := by
  unfold Parked.onWritable
  split
  · exact leavesReads_of_kind rfl (by simp)
  · exact offerWrite_leavesReads _ core a _

theorem applyCmd_leavesReads {slotOf : Token → Option Slot} {cmd : Cmd} {id : StreamId}
    {p : Parked} (hp : Typed slotOf p) (hcmd : ∀ t, cmd.reply = some t → slotOf t = cmd.slot)
    (hread : cmd.slot ≠ some (.read id)) (hstop : ∀ code t, cmd ≠ .stop id code t)
    (core : ConnState Q) (now : Instant) : LeavesReads slotOf id p (p.applyCmd core cmd now) := by
  have hone : ∀ (core : ConnState Q) (t : Token) (r : Reply), (∀ b, r ≠ .bytes b) →
      LeavesReads slotOf id p { core, parked := p, sent := [(t, r)] } := fun core t r hr =>
    leavesReads_of_kind rfl fun x hx b => by rw [List.mem_singleton.mp hx]; exact hr b
  cases cmd with
  | openBi t => exact hone _ t _ (by simp)
  | acceptBi t =>
    simp only [Parked.applyCmd]
    split
    · exact leavesReads_of_kind rfl fun x hx b => by rw [List.mem_singleton.mp hx]; simp
    · exact leavesReads_of_kind rfl (by simp)
    · exact hone _ t _ (by simp)
  | write a data t => exact offerWrite_leavesReads p core a _
  | finish a t => exact hone _ t _ (by simp)
  | waitFinished a t =>
    simp only [Parked.applyCmd]
    split
    case h_3 => exact leavesReads_of_kind rfl (by simp)
    all_goals exact hone _ t _ (by simp)
  | reset a code t =>
    simp only [Parked.applyCmd]
    split
    · refine leavesReads_of_kind rfl fun x hx b hb => ?_
      simp only [Parked.failFinWaiters, Parked.failBlockedWrite, List.mem_append, List.mem_map,
        List.mem_singleton] at hx
      rcases hx with (⟨_, -, rfl⟩ | ⟨_, -, rfl⟩) | rfl <;> exact absurd hb (by simp)
    · exact hone _ t _ (by simp)
  | stop a code t =>
    have ha : a ≠ id := fun ha => hstop code t (by rw [ha])
    simp only [Parked.applyCmd]
    split
    · have hrel := failPendingRead_releases p a .closedStream
      refine ⟨AList.lookup_erase_ne ha.symm, fun x hx b hb => ?_⟩
      rcases List.mem_append.mp hx with hx | hx
      · have hslot := hp (.read a) x.1 (by
          rw [hrel.split]
          exact List.mem_append_left _ (List.mem_map_of_mem hx))
        rw [hslot]
        simpa using ha
      · rw [List.mem_singleton.mp hx] at hb
        exact absurd hb (by simp)
    · exact hone _ t _ (by simp)
  | releaseSend a => exact leavesReads_of_kind rfl (by simp [Parked.applyCmd])
  | readToEnd a limit t =>
    exact offerRead_leavesReads (fun ha => hread (by rw [ha]; rfl)) p core (hcmd t rfl)
  | read a len t =>
    exact offerRead_leavesReads (fun ha => hread (by rw [ha]; rfl)) p core (hcmd t rfl)
  | close code reason => exact leavesReads_of_kind rfl (by simp [Parked.applyCmd])

/-- A `Stop` fails the parked read of its stream, if there is one. -/
theorem applyCmd_stop (slotOf : Token → Option Slot) (p : Parked) (core : ConnState Q)
    (id : StreamId) (code : Nat) (t : Token) (now : Instant) :
    (∃ pending, p.pendingReads.lookup id = some pending ∧
        (pending.reply, .bytes (.error .closedStream)) ∈
          (p.applyCmd core (.stop id code t) now).sent) ∨
      LeavesReads slotOf id p (p.applyCmd core (.stop id code t) now) := by
  simp only [Parked.applyCmd]
  split
  · cases hparked : p.pendingReads.lookup id with
    | some pending =>
      exact Or.inl ⟨pending, rfl, by simp [Parked.failPendingRead, hparked]⟩
    | none =>
      refine Or.inr ⟨?_, fun x hx b hb => ?_⟩
      · rw [hparked]
        exact AList.lookup_erase id _
      · simp only [Parked.failPendingRead, hparked, Option.toList_none, List.map_nil,
          List.nil_append, List.mem_singleton] at hx
        rw [hx] at hb
        exact absurd hb (by simp)
  · exact Or.inr (leavesReads_of_kind rfl fun x hx b => by rw [List.mem_singleton.mp hx]; simp)

theorem onEvent_leavesReads {slotOf : Token → Option Slot} {e : Event} {id : StreamId}
    {p : Parked} (hp : Typed slotOf p) (h : ∀ ch, e ≠ .streamReadable ch id) (core : ConnState Q) :
    LeavesReads slotOf id p (p.onEvent core e) := by
  cases e with
  | connected ch => exact leavesReads_of_kind rfl (by simp [Parked.onEvent])
  | connectionLost ch reason => exact leavesReads_of_kind rfl (by simp [Parked.onEvent])
  | streamOpened ch a dir =>
    refine leavesReads_of_kind rfl fun x hx b hb => ?_
    have htakes := (onStreamOpened_releases p core).takes x hx
    rw [hb] at htakes
    exact htakes
  | streamReadable ch a =>
    have ha : a ≠ id := fun ha => h ch (by rw [ha])
    show LeavesReads slotOf id p (p.onReadable core a)
    unfold Parked.onReadable
    split
    · exact leavesReads_of_kind rfl (by simp)
    · rename_i pending hpending
      have hslot : slotOf pending.reply = some (.read a) :=
        hp _ _ (Parked.mem_tokens_read hpending)
      obtain ⟨hlook, hsent⟩ : LeavesReads slotOf id { p with pendingReads := p.pendingReads.erase a }
          (Parked.offerRead { p with pendingReads := p.pendingReads.erase a } core a pending) :=
        offerRead_leavesReads ha _ core hslot
      exact ⟨hlook.trans (AList.lookup_erase_ne ha.symm), hsent⟩
  | streamWritable ch a => exact onWritable_leavesReads p core a
  | streamFinAcked ch a =>
    exact leavesReads_of_kind rfl fun x hx => by rw [reply_of_waiters hx]; simp
  | streamStopped ch a code =>
    obtain ⟨hlook, hsent⟩ : LeavesReads slotOf id (p.failFinWaiters a (.stopped code)).1
        ((p.failFinWaiters a (.stopped code)).1.onWritable core a) :=
      onWritable_leavesReads _ core a
    refine ⟨hlook, fun x hx b hb => ?_⟩
    rcases List.mem_append.mp hx with hx | hx
    · exact absurd hb (by rw [reply_of_waiters hx]; simp)
    · exact hsent x hx b hb

/-! ## The bytes a stream's reads hold -/

/-- The bytes a reply carries. -/
def Reply.payload : Reply → List UInt8
  | .bytes (.ok buf) => buf
  | _ => []

/-- `stream_read` would copy bytes for this read right now. -/
def Ready (core : ConnState Q) (id : StreamId) (pending : PendingRead) : Prop :=
  (core.streamRead id (readRequest pending)).2.1 ≠ []

namespace Sys

/-- What the application has received of a stream, in order. -/
def receivedBytes (s : Sys Q) (id : StreamId) : List UInt8 :=
  (s.received.filter fun x => s.slotOf x.1 = some (.read id)).flatMap fun x => x.2.payload

/-- A read of the stream was answered with an error. -/
def ReadErred (s : Sys Q) (id : StreamId) : Prop :=
  ∃ x ∈ s.sent, s.slotOf x.1 = some (.read id) ∧ x.2.isError = true

/-- **The condition.** A read that was dropped finds no bytes where it is pumped, and no read is
dropped with bytes in its accumulator or in its channel. -/
def ReadsAwaited (id : StreamId) (s : Sys Q) : Action Q → Prop
  | .execute _ => ∀ cmd rest pending, s.commands = cmd :: rest → cmd.slot = some (.read id) →
      cmd.pendingRead = some pending → Ready s.core id pending → pending.reply ∈ s.waiting
  | .dispatch => ∀ ch rest pending, s.events = .streamReadable ch id :: rest →
      s.parked.pendingReads.lookup id = some pending → Ready s.core id pending →
      pending.reply ∈ s.waiting
  | .cancel t => t ∈ s.waiting → s.slotOf t = some (.read id) →
      (∀ bytes, (t, .bytes (.ok bytes)) ∈ s.sent → bytes = []) ∧
      ∀ pending, s.parked.pendingReads.lookup id = some pending → pending.reply = t →
        pending.buf = []
  | _ => True

/-- `hand` is what the awaited read of the stream holds: in its accumulator, or in its channel. A
dropped read holds nothing. -/
structure InHand (s : Sys Q) (id : StreamId) (hand : List UInt8) : Prop where
  parked : ∀ pending, s.parked.pendingReads.lookup id = some pending →
    pending.buf = if pending.reply ∈ s.waiting then hand else []
  sent : ∀ t bytes, (t, .bytes (.ok bytes)) ∈ s.sent → t ∈ s.waiting →
    s.slotOf t = some (.read id) → bytes = hand
  held : hand ≠ [] → ∃ t ∈ s.waiting, s.slotOf t = some (.read id) ∧
    t ∉ s.commands.filterMap Cmd.reply

/-- **Every byte consumed is received or in hand**, in order, from where the stream stood at
`base`. -/
def Flow (B : Q.ByteStream) (base : List UInt8) (id : StreamId) (s : Sys Q) : Prop :=
  ∃ hand, s.InHand id hand ∧ B.consumed s.core.conn id = base ++ s.receivedBytes id ++ hand

variable {s : Sys Q} {B : Q.ByteStream} {base : List UInt8} {id : StreamId}

/-- No bytes are in hand while a read of the stream is in the queue. -/
theorem InHand.nil_of_queued {hand : List UInt8} (h : s.InHand id hand) (hs : s.Sound) {cmd : Cmd}
    (hcmd : cmd ∈ s.commands) (hslot : cmd.slot = some (.read id)) : hand = [] := by
  by_contra hne
  obtain ⟨t, ht, hread, hnot⟩ := h.held hne
  exact hnot (hs.not_parked_of_queued rfl hcmd hslot ht hread).1

/-- Consumed bytes after read sessions. -/
theorem consumed_reads {c c' : Q.Conn} {bytes : List UInt8} (h : Q.Reads id c bytes c') :
    B.consumed c' id = B.consumed c id ++ bytes := by
  induction h with
  | refl => simp
  | snoc _ hread ih => rw [B.read hread, ih, List.append_assoc]

theorem consumed_elsewhere {c c' : Q.Conn} (h : Q.ConnSteps (ReadsElsewhere id) c c') :
    B.consumed c' id = B.consumed c id :=
  h.keeps (I := fun c' => B.consumed c' id = B.consumed c id)
    (fun hl hstep hc => (B.keeps hstep hl).trans hc) rfl

/-- What a call of the endpoint, or a pass, does to the connection reads nothing. -/
theorem Flow.frame (h : s.Flow B base id) {core : ConnState Q} (events : List Event)
    (hsteps : Q.ConnSteps (ReadsElsewhere id) s.core.conn core.conn) :
    Flow B base id { s with core := core, events := events } := by
  obtain ⟨hand, hhand, hconsumed⟩ := h
  exact ⟨hand, ⟨hhand.parked, hhand.sent, hhand.held⟩, (consumed_elsewhere hsteps).trans hconsumed⟩

/-- An operation that leaves the stream's reads alone. -/
theorem Flow.leaves (h : s.Flow B base id) {o : Outcome Q} {commands : List Cmd}
    {events : List Event}
    (hcommands : ∀ t ∈ commands.filterMap Cmd.reply, t ∈ s.commands.filterMap Cmd.reply)
    (hleaves : LeavesReads s.slotOf id s.parked o)
    (hsteps : Q.ConnSteps (ReadsElsewhere id) s.core.conn o.core.conn) :
    Flow B base id (Sys.after { s with commands := commands, events := events } o) := by
  obtain ⟨hand, hhand, hconsumed⟩ := h
  refine ⟨hand, ⟨fun pending hp => hhand.parked pending (hleaves.1 ▸ hp), fun t bytes hx ht hslot => ?_,
    fun hne => ?_⟩, (consumed_elsewhere hsteps).trans hconsumed⟩
  · rcases List.mem_append.mp hx with hx | hx
    · exact hhand.sent t bytes hx ht hslot
    · exact absurd hslot (hleaves.2 _ hx _ rfl)
  · obtain ⟨t, ht, hslot, hnot⟩ := hhand.held hne
    exact ⟨t, ht, hslot, fun hmem => hnot (hcommands t hmem)⟩

/-- **A read is pumped.** What it takes is in hand if it is awaited, and it takes nothing
otherwise. -/
theorem InHand.offered {hand : List UInt8} (h : s.InHand id hand) (hs : s.Sound)
    (hconsumed : B.consumed s.core.conn id = base ++ s.receivedBytes id ++ hand) {p : Parked}
    {pending : PendingRead} {commands : List Cmd} {events : List Event}
    (hslot : s.slotOf pending.reply = some (.read id))
    (hbuf : pending.buf = if pending.reply ∈ s.waiting then hand else [])
    (hready : Ready s.core id pending → pending.reply ∈ s.waiting)
    (hunsent : pending.reply ∉ s.sent.map Prod.fst)
    (hunqueued : pending.reply ∉ commands.filterMap Cmd.reply)
    (hcommands : ∀ t ∈ commands.filterMap Cmd.reply, t ∈ s.commands.filterMap Cmd.reply)
    (hp : ∀ other, p.pendingReads.lookup id = some other →
      other.reply ∉ s.waiting ∧ other.buf = []) :
    ReadErred (Sys.after { s with commands := commands, events := events }
        (p.offerRead s.core id pending)) id ∨
      Flow B base id (Sys.after { s with commands := commands, events := events }
        (p.offerRead s.core id pending)) := by
  obtain ⟨taken, hreads, hcases, hfirst⟩ := pumpRead_spec s.core id pending
  have hnone : pending.reply ∉ s.waiting → taken = [] := fun hnot =>
    hfirst (not_not.mp fun hne => hnot (hready hne))
  have hbuf' : pending.buf ++ taken = if pending.reply ∈ s.waiting then hand ++ taken else [] := by
    rw [hbuf]
    split
    · rfl
    · rename_i hnot
      exact hnone hnot
  have hold : ∀ t bytes, (t, .bytes (.ok bytes)) ∈ s.sent → t ∈ s.waiting →
      s.slotOf t = some (.read id) → bytes = hand ++ taken := by
    intro t bytes hx ht hread
    by_cases hwait : pending.reply ∈ s.waiting
    · obtain rfl := hs.unique (.read id) rfl t ht pending.reply hwait hread hslot
      exact absurd (List.mem_map_of_mem hx) hunsent
    · rw [hnone hwait, List.append_nil]
      exact h.sent t bytes hx ht hread
  have hheld : hand ++ taken ≠ [] → ∃ t ∈ s.waiting, s.slotOf t = some (.read id) ∧
      t ∉ commands.filterMap Cmd.reply := by
    intro hne
    by_cases hwait : pending.reply ∈ s.waiting
    · exact ⟨pending.reply, hwait, hslot, hunqueued⟩
    · rw [hnone hwait, List.append_nil] at hne
      obtain ⟨t, ht, hread, hnot⟩ := h.held hne
      exact ⟨t, ht, hread, fun hmem => hnot (hcommands t hmem)⟩
  have hbytes : B.consumed (pumpRead s.core id pending).core.conn id =
      base ++ s.receivedBytes id ++ (hand ++ taken) := by
    rw [consumed_reads hreads, hconsumed, List.append_assoc]
  unfold Parked.offerRead
  dsimp only
  rcases hcases with ⟨hreply, hpending⟩ | hreply | ⟨e, hreply⟩
  · rw [hreply]
    refine Or.inr ⟨hand ++ taken, ⟨fun other hother => ?_, fun t bytes hx => ?_, hheld⟩, hbytes⟩
    · obtain rfl := Option.some.inj ((AList.lookup_insert _).symm.trans hother)
      rw [hpending]
      exact hbuf'
    · exact hold t bytes (by simpa [Sys.after] using hx)
  · rw [hreply]
    refine Or.inr ⟨hand ++ taken, ⟨fun other hother => ?_, fun t bytes hx ht hread => ?_, hheld⟩,
      hbytes⟩
    · obtain ⟨hnot, hnil⟩ := hp other hother
      rw [hnil]
      exact (if_neg hnot).symm
    · rcases List.mem_append.mp hx with hx | hx
      · exact hold t bytes hx ht hread
      · obtain ⟨rfl, hb⟩ := Prod.mk.inj (List.mem_singleton.mp hx)
        rw [Except.ok.inj (Reply.bytes.inj hb), hbuf']
        exact if_pos ht
  · rw [hreply]
    exact Or.inl ⟨_, List.mem_append_right _ (List.mem_singleton_self _), hslot, rfl⟩

theorem Flow.executed (h : s.Flow B base id) (hs : s.Sound) {cmd : Cmd} {rest : List Cmd}
    (hcmds : s.commands = cmd :: rest) (now : Instant)
    (hcond : s.ReadsAwaited id (.execute now)) :
    ReadErred (Sys.after { s with commands := rest } (s.parked.applyCmd s.core cmd now)) id ∨
      Flow B base id (Sys.after { s with commands := rest } (s.parked.applyCmd s.core cmd now)) := by
  have hcmd : cmd ∈ s.commands := by
    rw [hcmds]
    exact List.mem_cons_self
  have hrest : ∀ t ∈ rest.filterMap Cmd.reply, t ∈ s.commands.filterMap Cmd.reply := by
    intro t ht
    rw [hcmds, Sound.filterMap_reply_cons]
    exact List.mem_append_right _ ht
  by_cases hread : cmd.slot = some (.read id)
  · obtain ⟨hand, hhand, hconsumed⟩ := h
    obtain rfl := hhand.nil_of_queued hs hcmd hread
    obtain ⟨pending, hpending, hreply, hbuf, heq⟩ := applyCmd_read hread s.parked s.core now
    obtain ⟨-, hunsent⟩ := hs.queued_only hcmd hreply
    rw [heq]
    refine hhand.offered hs hconsumed ((hs.slotOf_queued hcmd hreply).trans hread)
      (by rw [hbuf, ite_self]) (hcond cmd rest pending hcmds hread hpending) hunsent ?_ hrest ?_
    · have honce := hs.once pending.reply
      rw [Sys.places, hcmds, Sound.filterMap_reply_cons, hreply, List.count_append] at honce
      simp only [Option.toList_some, List.count_singleton_self] at honce
      exact List.count_eq_zero.mp (by omega)
    · intro other hother
      have hmem := Parked.mem_tokens_read hother
      -- An awaited read would still be in the queue.
      have hnot : other.reply ∉ s.waiting := fun hwait =>
        (hs.parked_only hmem).1
          (hs.not_parked_of_queued rfl hcmd hread hwait (hs.typed _ _ hmem)).1
      exact ⟨hnot, by rw [hhand.parked other hother, if_neg hnot]⟩
  · by_cases hstop : ∃ code t, cmd = .stop id code t
    · obtain ⟨code, t, rfl⟩ := hstop
      rcases applyCmd_stop s.slotOf s.parked s.core id code t now with
        ⟨pending, hpending, hsent⟩ | hleaves
      · exact Or.inl ⟨_, List.mem_append_right _ hsent,
          hs.typed _ _ (Parked.mem_tokens_read hpending), rfl⟩
      · exact Or.inr (h.leaves hrest hleaves (applyCmd_steps hread s.parked s.core now))
    · have hleaves := applyCmd_leavesReads hs.typed (fun t ht => hs.slotOf_queued hcmd ht) hread
        (fun code t heq => hstop ⟨code, t, heq⟩) s.core now
      exact Or.inr (h.leaves hrest hleaves (applyCmd_steps hread s.parked s.core now))

theorem Flow.dispatched (h : s.Flow B base id) (hs : s.Sound) {e : Event} {rest : List Event}
    (hevents : s.events = e :: rest) (hcond : s.ReadsAwaited id .dispatch) :
    ReadErred (Sys.after { s with events := rest } (s.parked.onEvent s.core e)) id ∨
      Flow B base id (Sys.after { s with events := rest } (s.parked.onEvent s.core e)) := by
  by_cases hreadable : ∃ ch, e = .streamReadable ch id
  · obtain ⟨ch, rfl⟩ := hreadable
    show ReadErred (Sys.after { s with events := rest } (s.parked.onReadable s.core id)) id ∨
      Flow B base id (Sys.after { s with events := rest } (s.parked.onReadable s.core id))
    unfold Parked.onReadable
    split
    · exact Or.inr (h.leaves (fun _ ht => ht) ⟨rfl, by simp⟩ .refl)
    · rename_i pending hpending
      obtain ⟨hand, hhand, hconsumed⟩ := h
      have hmem := Parked.mem_tokens_read hpending
      obtain ⟨hunqueued, hunsent⟩ := hs.parked_only hmem
      exact hhand.offered hs hconsumed (hs.typed _ _ hmem) (hhand.parked pending hpending)
        (hcond ch rest pending hevents hpending) hunsent hunqueued (fun _ ht => ht) (by simp)
  · have hother : ∀ ch, e ≠ .streamReadable ch id := fun ch heq => hreadable ⟨ch, heq⟩
    exact Or.inr (h.leaves (fun _ ht => ht) (onEvent_leavesReads hs.typed hother s.core)
      (onEvent_steps hother s.parked s.core))

/-- Received bytes depend on the received replies and the slots of their channels. -/
theorem receivedBytes_congr {s s' : Sys Q} (hreceived : s'.received = s.received)
    (hslot : ∀ x ∈ s.received, s'.slotOf x.1 = s.slotOf x.1) :
    s'.receivedBytes id = s.receivedBytes id := by
  unfold receivedBytes
  rw [hreceived]
  congr 1
  refine List.filter_congr fun x hx => ?_
  rw [hslot x hx]

/-- A new read starts with nothing in hand: its handle was not borrowed. -/
theorem Flow.issued (h : s.Flow B base id) (hs : s.Sound) {cmd : Cmd} {t : Token}
    (hreply : cmd.reply = some t) (hfresh : t ∉ s.issued) : (s.issuing cmd t).Flow B base id := by
  obtain ⟨hand, hhand, hconsumed⟩ := h
  have hkept : ∀ a ∈ s.issued, (s.issuing cmd t).slotOf a = s.slotOf a := by
    intro a ha
    have hne : a ≠ t := fun heq => hfresh (heq ▸ ha)
    rw [slotOf_issuing, if_neg hne]
  obtain ⟨-, hunparked, hunsent⟩ := hs.places_fresh hfresh
  refine ⟨hand, ⟨fun pending hpending => ?_, fun a bytes hx ha hslot => ?_, fun hne => ?_⟩, ?_⟩
  · have hne : pending.reply ≠ t := fun heq =>
      hunparked (.read id) (heq ▸ Parked.mem_tokens_read hpending)
    rw [hhand.parked pending hpending]
    exact if_congr (by simp [issuing, hne]) rfl rfl
  · have hne : a ≠ t := fun heq => hunsent (heq ▸ List.mem_map_of_mem hx)
    have ha := (Finset.mem_insert.mp ha).resolve_left hne
    rw [hkept a (hs.covered a ha).1] at hslot
    exact hhand.sent a bytes hx ha hslot
  · obtain ⟨a, ha, hslot, hnot⟩ := hhand.held hne
    have hissued := (hs.covered a ha).1
    refine ⟨a, Finset.mem_insert_of_mem ha, (hkept a hissued).trans hslot, ?_⟩
    show a ∉ (s.commands ++ [cmd]).filterMap Cmd.reply
    rw [List.filterMap_append, List.mem_append]
    rintro (hmem | hmem)
    · exact hnot hmem
    · obtain rfl : a = t := by simpa [hreply] using hmem
      exact hfresh hissued
  · have hreceived : (s.issuing cmd t).receivedBytes id = s.receivedBytes id :=
      receivedBytes_congr rfl fun x hx => hkept x.1 (hs.issued_of_sent (hs.taken x hx).1)
    rw [hreceived]
    exact hconsumed

/-- A command without a channel is nobody's read. -/
theorem Flow.told (h : s.Flow B base id) {cmd : Cmd} (hreply : cmd.reply = none) :
    Flow B base id { s with commands := s.commands ++ [cmd] } := by
  obtain ⟨hand, hhand, hconsumed⟩ := h
  refine ⟨hand, ⟨hhand.parked, hhand.sent, fun hne => ?_⟩, hconsumed⟩
  obtain ⟨t, ht, hslot, hnot⟩ := hhand.held hne
  exact ⟨t, ht, hslot, by simpa [List.filterMap_append, hreply] using hnot⟩

/-- An awaited read that is not in the queue is parked, or answered. -/
theorem Sound.read_place (hs : s.Sound) {t : Token} (ht : t ∈ s.waiting)
    (hslot : s.slotOf t = some (.read id)) (hnot : t ∉ s.commands.filterMap Cmd.reply) :
    (∃ pending, s.parked.pendingReads.lookup id = some pending ∧ pending.reply = t) ∨
      ∃ answer, (t, .bytes answer) ∈ s.sent := by
  have hone := (hs.covered t ht).2
  rw [Sys.places, List.count_eq_zero.mpr hnot, held, hslot] at hone
  by_cases hsent : t ∈ s.sent.map Prod.fst
  · obtain ⟨x, hx, rfl⟩ := List.mem_map.mp hsent
    obtain ⟨answer, hanswer⟩ := hs.bytes_of_read hx hslot
    exact Or.inr ⟨answer, by rw [← hanswer]; exact hx⟩
  · rw [List.count_eq_zero.mpr hsent] at hone
    have hmem : t ∈ s.parked.tokens (.read id) := List.count_pos_iff.mp (by dsimp only at hone; omega)
    obtain ⟨pending, hpending, rfl⟩ := List.mem_map.mp hmem
    exact Or.inl ⟨pending, by simpa using hpending, rfl⟩

/-- A receiver that goes, and is none of an awaited read of the stream. -/
theorem InHand.erase {hand : List UInt8} (h : s.InHand id hand) (hs : s.Sound) {t : Token}
    (received : List (Token × Reply)) (hnot : ¬ (t ∈ s.waiting ∧ s.slotOf t = some (.read id))) :
    InHand { s with waiting := s.waiting.erase t, received := received } id hand := by
  have hsame : ∀ a, s.slotOf a = some (.read id) → (a ∈ s.waiting.erase t ↔ a ∈ s.waiting) := by
    intro a hslot
    rw [Finset.mem_erase]
    refine ⟨And.right, fun ha => ⟨?_, ha⟩⟩
    rintro rfl
    exact hnot ⟨ha, hslot⟩
  refine ⟨fun pending hpending => ?_, fun a bytes hx ha hslot => ?_, fun hne => ?_⟩
  · have hread := hs.typed _ _ (Parked.mem_tokens_read hpending)
    rw [h.parked pending hpending]
    exact if_congr (hsame _ hread).symm rfl rfl
  · exact h.sent a bytes hx ((hsame a hslot).mp ha) hslot
  · obtain ⟨a, ha, hslot, hqueue⟩ := h.held hne
    exact ⟨a, (hsame a hslot).mpr ha, hslot, hqueue⟩

/-- A receiver that is dropped had nothing in hand. -/
theorem Flow.cancelled (h : s.Flow B base id) (hs : s.Sound) (t : Token)
    (hcond : s.ReadsAwaited id (.cancel t)) (herr : ¬ s.ReadErred id) :
    Flow B base id { s with waiting := s.waiting.erase t } := by
  obtain ⟨hand, hhand, hconsumed⟩ := h
  by_cases hread : t ∈ s.waiting ∧ s.slotOf t = some (.read id)
  · obtain ⟨ht, hslot⟩ := hread
    obtain ⟨hsent, hparked⟩ := hcond ht hslot
    obtain rfl : hand = [] := by
      by_contra hne
      obtain ⟨a, ha, hslot', hnot⟩ := hhand.held hne
      obtain rfl := hs.unique (.read id) rfl t ht a ha hslot hslot'
      rcases hs.read_place ht hslot hnot with ⟨pending, hpending, rfl⟩ | ⟨answer, hx⟩
      · have hbuf := hhand.parked pending hpending
        rw [if_pos ht, hparked pending hpending rfl] at hbuf
        exact hne hbuf.symm
      · cases answer with
        | ok bytes => exact hne (hhand.sent t bytes hx ht hslot ▸ hsent bytes hx)
        | error e => exact herr ⟨_, hx, hslot, rfl⟩
    refine ⟨[], ⟨fun pending hpending => ?_, fun a bytes hx ha => ?_, fun hne => absurd rfl hne⟩,
      hconsumed⟩
    · rw [hhand.parked pending hpending, ite_self, ite_self]
    · exact hhand.sent a bytes hx (Finset.mem_of_mem_erase ha)
  · exact ⟨hand, hhand.erase hs s.received hread, hconsumed⟩

theorem receivedBytes_append (waiting : Finset Token) (x : Token × Reply) :
    Sys.receivedBytes { s with waiting := waiting, received := s.received ++ [x] } id =
      s.receivedBytes id ++ if s.slotOf x.1 = some (.read id) then x.2.payload else [] := by
  show ((s.received ++ [x]).filter fun x => s.slotOf x.1 = some (.read id)).flatMap _ = _
  rw [List.filter_append, List.flatMap_append, receivedBytes]
  split <;> rename_i hslot <;> simp [hslot]

/-- A reply that is taken out of its channel carries what its read had in hand. -/
theorem Flow.received (h : s.Flow B base id) (hs : s.Sound) {x : Token × Reply} (hx : x ∈ s.sent)
    (ht : x.1 ∈ s.waiting) (herr : ¬ s.ReadErred id) :
    Flow B base id { s with waiting := s.waiting.erase x.1, received := s.received ++ [x] } := by
  obtain ⟨hand, hhand, hconsumed⟩ := h
  by_cases hslot : s.slotOf x.1 = some (.read id)
  · obtain ⟨answer, hanswer⟩ := hs.bytes_of_read hx hslot
    cases answer with
    | error e => exact absurd ⟨x, hx, hslot, by simp [hanswer, Reply.isError]⟩ herr
    | ok bytes =>
      obtain rfl := hhand.sent x.1 bytes (by rw [← hanswer]; exact hx) ht hslot
      refine ⟨[], ⟨fun pending hpending => ?_, fun a b _ ha hslot' => ?_,
        fun hne => absurd rfl hne⟩, ?_⟩
      · have hmem := Parked.mem_tokens_read hpending
        have hnot : pending.reply ∉ s.waiting := by
          intro hwait
          have heq := hs.unique (.read id) rfl _ hwait x.1 ht (hs.typed _ _ hmem) hslot
          exact (hs.parked_only hmem).2 (heq ▸ List.mem_map_of_mem hx)
        rw [hhand.parked pending hpending, if_neg hnot, ite_self]
      · obtain ⟨hne, ha⟩ := Finset.mem_erase.mp ha
        exact absurd (hs.unique (.read id) rfl a ha x.1 ht hslot' hslot) hne
      · rw [receivedBytes_append, if_pos hslot, hanswer, List.append_nil]
        simpa [Reply.payload] using hconsumed
  · refine ⟨hand, hhand.erase hs _ fun hread => hslot hread.2, ?_⟩
    rw [receivedBytes_append, if_neg hslot, List.append_nil]
    exact hconsumed

theorem ReadErred.step (h : s.ReadErred id) (hs : s.Sound) (a : Action Q) :
    (s.step a).ReadErred id := by
  obtain ⟨x, hx, hslot, herr⟩ := h
  exact ⟨x, (taken s a).mem_sent hx, ((taken s a).slotOf (hs.issued_of_sent hx)).2.trans hslot, herr⟩

/-- **One action.** -/
theorem Taken.flow {s' : Sys Q} {a : Action Q} (htaken : Taken s a s') (h : s.Flow B base id)
    (hs : s.Sound) (herr : ¬ s.ReadErred id) (hcond : s.ReadsAwaited id a) :
    s'.ReadErred id ∨ s'.Flow B base id := by
  cases htaken with
  | idle => exact Or.inr h
  | told hreply => exact Or.inr (h.told hreply)
  | issued hreply hfresh => exact Or.inr (h.issued hs hreply hfresh)
  | cancelled t => exact Or.inr (h.cancelled hs t hcond herr)
  | received hx hwait => exact Or.inr (h.received hs hx hwait herr)
  | executed now hcmds => exact h.executed hs hcmds now hcond
  | dispatched hevents => exact h.dispatched hs hevents hcond
  | serviced now =>
    have hsteps := (Core.serviceOne_steps now s.handle s.core).mono (R := ReadsElsewhere id)
      fun l hl bytes heq => by rw [heq] at hl; exact hl
    exact Or.inr (h.frame _ hsteps)
  | called hstep hread => exact Or.inr (h.frame s.events (.single (hread id) hstep))

/-- **Every run** whose reads are awaited is in flow, or an error was answered. -/
theorem flow_run (B : Q.ByteStream) (handle : ConnectionHandle) (core : ConnState Q) (id : StreamId)
    {actions : List (Action Q)} (hcond : Meets (ReadsAwaited id) (start handle core) actions) :
    ((start handle core).run actions).ReadErred id ∨
      ((start handle core).run actions).Flow B (B.consumed core.conn id) id := by
  have h := run_inv (P := ReadsAwaited id)
    (I := fun s => s.Sound ∧ (s.ReadErred id ∨ s.Flow B (B.consumed core.conn id) id)) ?_ hcond
    ⟨.start handle core, Or.inr ⟨[], ⟨?_, ?_, fun h => absurd rfl h⟩, ?_⟩⟩
  · exact h.2
  · rintro s a hP ⟨hs, hflow⟩
    refine ⟨hs.step a, ?_⟩
    by_cases herr : s.ReadErred id
    · exact Or.inl (herr.step hs a)
    · exact (taken s a).flow (hflow.resolve_left herr) hs herr hP
  · simp [start, Parked.new]
  · simp [start]
  · simp [start, receivedBytes]

/-- What was received is a front of what has arrived. -/
theorem Flow.front {B : Q.ByteStream} {base : List UInt8} {s : Sys Q} {id : StreamId}
    (h : s.Flow B base id) : base ++ s.receivedBytes id <+: B.content s.core.conn id := by
  obtain ⟨hand, -, hconsumed⟩ := h
  refine List.IsPrefix.trans ?_ (B.front s.core.conn id)
  rw [hconsumed]
  exact List.prefix_append _ _

/-- **No received byte is lost, as far as bytes go to awaited reads.** In every run whose actions
all meet the condition, as long as no read of the stream was answered with an error: what the
application received, behind what had been consumed before, is a prefix of what the core handed
out, in order and without a gap, which is a prefix of the stream; and what is missing of it is in
the hands of the one read that is awaited. -/
theorem reads_delivered (B : Q.ByteStream) (handle : ConnectionHandle) (core : ConnState Q)
    (id : StreamId) (actions : List (Action Q))
    (hcond : Meets (ReadsAwaited id) (start handle core) actions) :
    let s := (start handle core).run actions
    s.ReadErred id ∨ ∃ hand, s.InHand id hand ∧
      B.consumed s.core.conn id = B.consumed core.conn id ++ s.receivedBytes id ++ hand ∧
      B.consumed core.conn id ++ s.receivedBytes id <+: B.content s.core.conn id := by
  intro s
  refine (flow_run B handle core id hcond).imp_right fun hflow => ?_
  obtain ⟨hand, hhand, hconsumed⟩ := hflow
  exact ⟨hand, hhand, hconsumed, Flow.front ⟨hand, hhand, hconsumed⟩⟩

/-- A read of the peer's stream 1 is parked, answered when two bytes arrive, and received. -/
def readThenArrival : List (Action Mini) :=
  [.handleEvent (.stream 1 []), .service 0, .dispatch, .issue (.read 1 4 0), .execute 0,
    .handleEvent (.stream 1 [1, 2]), .service 0, .dispatch, .receive 0]

theorem readThenArrival_awaited : Meets (ReadsAwaited 1) miniStart readThenArrival := by
  refine ⟨trivial, trivial, fun ch rest pending _ hpending _ => ?_, trivial,
    fun cmd rest pending hcmds _ hpending _ => ?_, trivial, trivial,
    fun ch rest pending _ hpending _ => ?_, trivial, trivial⟩
  · have hnone : (miniStart.run (readThenArrival.take 2)).parked.pendingReads.lookup 1 = none := by
      decide
    exact absurd (hnone.symm.trans hpending) (by simp)
  · obtain rfl : .read 1 4 0 = cmd := (List.cons.inj hcmds).1
    obtain rfl := Option.some.inj hpending
    decide
  · have hreply : ((miniStart.run (readThenArrival.take 7)).parked.pendingReads.lookup 1).map
        PendingRead.reply = some 0 := by decide
    have hlook : (miniStart.run (readThenArrival.take 7)).parked.pendingReads.lookup 1 =
        some pending := hpending
    rw [hlook] at hreply
    rw [Option.some.inj hreply]
    decide

theorem readThenArrival_answered : ¬ (miniStart.run readThenArrival).ReadErred 1 := by
  unfold ReadErred
  decide

theorem reads_delivered_two :
    Meets (ReadsAwaited 1) miniStart readThenArrival ∧
      (miniStart.run readThenArrival).receivedBytes 1 = [1, 2] ∧
      (miniStart.run readThenArrival).receivedBytes 1 <+:
        Mini.byteStream.content (miniStart.run readThenArrival).core.conn 1 := by
  obtain ⟨hand, -, -, hprefix⟩ := (reads_delivered Mini.byteStream ⟨0, 1⟩ _ 1 readThenArrival
    readThenArrival_awaited).resolve_left readThenArrival_answered
  exact ⟨readThenArrival_awaited, by decide, hprefix⟩

/-- A read of stream 1 is parked and dropped; two bytes arrive, and a third one, which a new read
receives. -/
def dropThenRead : List (Action Mini) :=
  [.handleEvent (.stream 1 []), .service 0, .dispatch, .issue (.read 1 4 0), .execute 0, .cancel 0,
    .handleEvent (.stream 1 [1, 2]), .service 0, .dispatch, .handleEvent (.stream 1 [3]),
    .issue (.read 1 4 1), .execute 0, .receive 1]

/-- **Bytes go to a read that was dropped.** No reply was an error, and what the application
received is not a prefix of the stream: two bytes are missing in front of it. -/
theorem bytes_to_dropped_read :
    ¬ (miniStart.run dropThenRead).ReadErred 1 ∧
    (miniStart.run dropThenRead).receivedBytes 1 = [3] ∧
    Mini.byteStream.content (miniStart.run dropThenRead).core.conn 1 = [1, 2, 3] ∧
    ¬ (miniStart.run dropThenRead).receivedBytes 1 <+:
      Mini.byteStream.content (miniStart.run dropThenRead).core.conn 1 := by
  refine ⟨?_, by decide, by decide, by decide⟩
  unfold ReadErred
  decide

end Sys

end QuietQuic.Tokio
