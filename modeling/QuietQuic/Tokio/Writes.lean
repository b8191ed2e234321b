import QuietQuic.Lib.Batches
import QuietQuic.Tokio.Calls

/-!
# Writes and their order

A `Write` is offered to the core when its command is applied, and again whenever `Writable` or
`Stopped` is dispatched while it is parked. A write whose caller gave up stays parked and is offered
all the same, and a later write of the stream goes to the core first and takes its place only when
it blocks.

`pumpAccepts` is what the core takes in one pump, round by round. A `WriteLog` is the history of one
stream: the writes that were issued and applied, what the core took of which, and whether the stream
has answered `Blocked` and was not woken since. A parked write is `held` by that answer, which is
what keeps a later write from going past it (`Writing.parked`).

* `pumpWrite_accepts`: one pump.
* `Writing.step`: one action of the system.
* `writes_in_order`: every run in which a blocked stream takes nothing until it is woken.
-/

namespace QuietQuic.Tokio

open QuietQuic.Lib QuietQuic.Proto

variable {Q : Quinn}

/-! ## One pump -/

/-- The bytes the core takes in the next round of a pump. -/
def roundAccepts (id : StreamId) (w : WritePump Q) : List UInt8 :=
  match (w.core.streamWrite id (w.pending.data.drop w.pending.offset)).1 with
  | .ok (.wrote n) => (w.pending.data.drop w.pending.offset).take n
  | _ => []

/-- The bytes the core takes in a pump, in order. -/
def pumpAccepts (core : ConnState Q) (id : StreamId) (p : PendingWrite) : List UInt8 :=
  (visited (writePumpRound id) (p.data.length - p.offset + 1) { core, pending := p }).flatMap
    (roundAccepts id)

/-- Between two rounds, with what the core took so far. -/
structure WroteSoFar (p : PendingWrite) (got : List UInt8) (w : WritePump Q) : Prop where
  data : w.pending.data = p.data
  reply : w.pending.reply = p.reply
  within : w.pending.offset ≤ p.data.length
  taken : p.data.take p.offset ++ got = p.data.take w.pending.offset

/-- A further round was a write the core took some of. -/
theorem writePumpRound_wrote {id : StreamId} {w w' : WritePump Q}
    (h : writePumpRound id w = .again w') :
    ∃ n, w.pending.data.drop w.pending.offset ≠ [] ∧
      (w.core.streamWrite id (w.pending.data.drop w.pending.offset)).1 = .ok (.wrote n) ∧
      w'.pending = { w.pending with offset := w.pending.offset + n } := by
  unfold writePumpRound at h
  split at h
  · exact absurd h (by simp)
  · rename_i hlt
    dsimp only at h
    split at h
    · rename_i n hanswer
      refine ⟨n, ?_, hanswer, by rw [← Ctl.again.inj h]⟩
      rw [ne_eq, List.drop_eq_nil_iff]
      exact hlt
    · exact absurd h (by simp)
    · exact absurd h (by simp)

/-- What `stream_write` reports as written quinn-proto has taken. -/
theorem sendWrite_of_wrote {s : ConnState Q} {id : StreamId} {buf : List UInt8} {n : Nat}
    (hne : buf ≠ []) (h : (s.streamWrite id buf).1 = .ok (.wrote n)) :
    (Q.sendWrite s.conn id buf).1 = .ok n := by
  unfold ConnState.streamWrite at h
  rw [if_neg hne] at h
  dsimp only at h
  split at h
  · rename_i m hwrite
    rw [hwrite, WriteOutcome.wrote.inj (Except.ok.inj h)]
  all_goals exact absurd h (by simp)

/-- A further round takes what it moves the offset by. -/
theorem WroteSoFar.again {id : StreamId} {p : PendingWrite} {got : List UInt8} {w w' : WritePump Q}
    (h : WroteSoFar p got w) (hround : writePumpRound id w = .again w') :
    WroteSoFar p (got ++ roundAccepts id w) w' := by
  obtain ⟨n, -, hn, hpending⟩ := writePumpRound_wrote hround
  obtain ⟨m, -, hle, rfl⟩ := writePumpRound_again hround
  obtain rfl : m = n := by simpa using congrArg PendingWrite.offset hpending
  have hgot : roundAccepts id w = (w.pending.data.drop w.pending.offset).take m := by
    simp [roundAccepts, hn]
  refine ⟨h.data, h.reply, h.data ▸ hle, ?_⟩
  rw [hgot, ← List.append_assoc, h.taken, h.data]
  exact (List.take_add ..).symm

/-- The last round takes nothing. -/
theorem roundAccepts_done {id : StreamId} {w w' : WritePump Q}
    (hround : writePumpRound id w = .done w') : roundAccepts id w = [] := by
  unfold roundAccepts
  unfold writePumpRound at hround
  split at hround
  · rename_i hle
    rw [List.drop_eq_nil_of_le hle]
    split <;> simp
  · dsimp only at hround
    split at hround
    · exact absurd hround (by simp)
    · rename_i hanswer
      rw [hanswer]
    · rename_i e hanswer
      rw [hanswer]

/-- A pump replies `Ok` when the data is through, and stays parked only before. -/
theorem writePumpRound_reply {id : StreamId} {w w' : WritePump Q} (hnone : w.reply = none)
    (hround : writePumpRound id w = .done w') :
    (w'.reply = some (.ok ()) ↔ w.pending.data.length ≤ w.pending.offset) ∧
      (w'.reply = none → w.pending.offset < w.pending.data.length) := by
  unfold writePumpRound at hround
  split at hround
  · rename_i hle
    rw [← Ctl.done.inj hround]
    exact ⟨⟨fun _ => hle, fun _ => rfl⟩, fun h => absurd h (by simp)⟩
  · rename_i hlt
    dsimp only at hround
    split at hround
    · exact absurd hround (by simp)
    · rw [← Ctl.done.inj hround]
      refine ⟨⟨fun h => absurd (hnone.symm.trans h) (by simp), fun h => absurd h hlt⟩, fun _ => ?_⟩
      exact Nat.lt_of_not_le hlt
    · rw [← Ctl.done.inj hround]
      exact ⟨⟨fun h => absurd h (by simp), fun h => absurd h hlt⟩, fun h => absurd h (by simp)⟩

/-- **What the core takes in one pump**: the bytes between the offsets. -/
structure Pumped (p : PendingWrite) (got : List UInt8) (w : WritePump Q) : Prop where
  sofar : WroteSoFar p got w
  answered : w.reply = some (.ok ()) ↔ w.pending.offset = p.data.length
  parked : w.reply = none → w.pending.offset < p.data.length

theorem pumpWrite_accepts (core : ConnState Q) (id : StreamId) {p : PendingWrite}
    (hp : p.offset ≤ p.data.length) :
    Pumped p (pumpAccepts core id p) (pumpWrite core id p) := by
  have hsofar : WroteSoFar p (pumpAccepts core id p) (pumpWrite core id p) := by
    refine loop_visited (I := fun l w => WroteSoFar p (l.flatMap (roundAccepts id)) w) ?_ ?_ _
      ⟨rfl, rfl, hp, List.append_nil _⟩
    · intro l w w' h hround
      rw [List.flatMap_append, List.flatMap_singleton]
      exact h.again hround
    · intro l w w' h hround
      have hsame := (writePumpRound_done hround).2
      rw [List.flatMap_append, List.flatMap_singleton, roundAccepts_done hround, List.append_nil]
      exact ⟨hsame ▸ h.data, hsame ▸ h.reply, hsame ▸ h.within, hsame ▸ h.taken⟩
  obtain ⟨t, ⟨hnone, hdata⟩, hdone⟩ := pumpWrite_exit
    (I := fun w : WritePump Q => w.reply = none ∧ w.pending.data = p.data) core id p
    (fun w w' h hround => by
      obtain ⟨n, -, -, rfl⟩ := writePumpRound_again hround
      exact h) ⟨rfl, rfl⟩
  have hsame := (writePumpRound_done hdone).2
  obtain ⟨hok, hblocked⟩ := writePumpRound_reply hnone hdone
  rw [← hsame, hsofar.data] at hok hblocked
  refine ⟨hsofar, hok.trans ⟨fun h => Nat.le_antisymm hsofar.within h, fun h => h.ge⟩, hblocked⟩

/-- A pump whose first write is not taken takes nothing. -/
theorem pumpAccepts_refused {core : ConnState Q} {id : StreamId} {p : PendingWrite}
    (h : p.data.drop p.offset ≠ [] →
      ∀ n, (Q.sendWrite core.conn id (p.data.drop p.offset)).1 ≠ .ok n) :
    pumpAccepts core id p = [] := by
  have hround : ∃ w, writePumpRound id { core, pending := p } = .done w := by
    cases hr : writePumpRound id { core, pending := p } with
    | done w => exact ⟨w, rfl⟩
    | again w =>
      obtain ⟨n, hne, hn, -⟩ := writePumpRound_wrote hr
      exact absurd (sendWrite_of_wrote hne hn) (h hne n)
  obtain ⟨w, hw⟩ := hround
  simp [pumpAccepts, visited, hw, roundAccepts_done hw]

/-! ## The bytes a core takes -/

/-- The bytes of stream `id` the core takes in an operation. -/
def bytesTaken (id : StreamId) (s : ConnState Q) : ConnOp Q → List UInt8
  | .call (.streamWrite a buf) =>
    match (s.streamWrite a buf).1 with
    | .ok (.wrote n) => if a = id then buf.take n else []
    | _ => []
  | _ => []

/-- `s'` comes from `s` through operations in which the core takes `bytes` of stream `id`. -/
inductive Took (id : StreamId) (s : ConnState Q) : List UInt8 → ConnState Q → Prop
  | nothing : Took id s [] s
  | op {bytes s'} (h : Took id s bytes s') {o : ConnOp Q} (ho : o.Lawful) :
      Took id s (bytes ++ bytesTaken id s' o) (s'.op o).2

namespace Took

variable {id : StreamId} {s s' s'' : ConnState Q} {bytes more : List UInt8}

theorem trans (h : Took id s bytes s') (h' : Took id s' more s'') : Took id s (bytes ++ more) s'' := by
  induction h' with
  | nothing =>
    rw [List.append_nil]
    exact h
  | op _ ho ih =>
    rw [← List.append_assoc]
    exact ih.op ho

/-- Operations that do not write to the stream take nothing of it. -/
theorem of_driven {P : ConnOp Q → Prop} (hP : ∀ o, P o → ¬ WritesOf id o)
    (h : ConnState.Driven P s s') : Took id s [] s' := by
  refine h.keeps (I := Took id s []) (fun o t ho hPo ht => ?_) .nothing
  have hnone : bytesTaken id t o = [] := by
    unfold bytesTaken
    split
    · rename_i a buf
      have ha : a ≠ id := fun ha => hP _ hPo ⟨buf, by rw [ha]⟩
      split
      · exact if_neg ha
      · rfl
    · rfl
  simpa [hnone] using ht.op ho

/-- A round that calls the core. -/
theorem round {w : WritePump Q} (h : Took id s bytes w.core) :
    Took id s (bytes ++ roundAccepts id w)
      (w.core.streamWrite id (w.pending.data.drop w.pending.offset)).2 := by
  have htakes : bytesTaken id w.core
      (.call (.streamWrite id (w.pending.data.drop w.pending.offset))) = roundAccepts id w := by
    simp only [bytesTaken, roundAccepts, if_true]
  rw [← htakes]
  exact h.op (o := .call (.streamWrite id _)) trivial

end Took

/-- **What a pump accepts the core has taken.** -/
theorem pumpWrite_took (core : ConnState Q) (id : StreamId) (p : PendingWrite) :
    Took id core (pumpAccepts core id p) (pumpWrite core id p).core := by
  refine loop_visited (I := fun l w => Took id core (l.flatMap (roundAccepts id)) w.core) ?_ ?_ _
    .nothing
  · intro l w w' h hround
    rw [List.flatMap_append, List.flatMap_singleton]
    obtain ⟨n, -, -, rfl⟩ := writePumpRound_again hround
    exact h.round
  · intro l w w' h hround
    rw [List.flatMap_append, List.flatMap_singleton]
    rcases (writePumpRound_done hround).1.core with hcore | hcore
    · rw [hcore, roundAccepts_done hround, List.append_nil]
      exact h
    · rw [hcore]
      exact h.round

/-! ## Operations that offer no write of the stream -/

/-- The operation parks no write of stream `id`, and tells none that it is through. -/
structure LeavesWrites (slotOf : Token → Option Slot) (id : StreamId) (p : Parked) (o : Outcome Q) :
    Prop where
  parked : o.parked.blockedWrites.lookup id = p.blockedWrites.lookup id ∨
    o.parked.blockedWrites.lookup id = none
  sent : ∀ x ∈ o.sent, x.2 = .done (.ok ()) → slotOf x.1 ≠ some (.write id)

section Leaves

variable {slotOf : Token → Option Slot} {id : StreamId} {p : Parked}

theorem offerRead_leavesWrites (p : Parked) (core : ConnState Q) (a : StreamId)
    (pending : PendingRead) : LeavesWrites slotOf id p (p.offerRead core a pending) := by
  refine ⟨Or.inl (by rw [(p.offerRead_parked core a pending).1]), fun x hx hok => ?_⟩
  obtain ⟨answer, -, rfl⟩ := Parked.mem_offerRead_sent hx
  exact absurd hok (by simp)

/-- A write of another stream. -/
theorem offerWrite_leavesWrites {a : StreamId} (ha : a ≠ id) (p : Parked) (core : ConnState Q)
    {pending : PendingWrite} (hslot : slotOf pending.reply = some (.write a)) :
    LeavesWrites slotOf id p (p.offerWrite core a pending) := by
  refine ⟨Or.inl ?_, fun x hx _ => ?_⟩
  · unfold Parked.offerWrite
    dsimp only
    split
    · rfl
    · exact AList.lookup_insert_ne ha.symm
  · obtain ⟨answer, -, rfl⟩ := Parked.mem_offerWrite_sent hx
    rw [hslot]
    simpa using ha

theorem onWritable_leavesWrites {a : StreamId} (hp : Typed slotOf p) (ha : a ≠ id)
    (core : ConnState Q) : LeavesWrites slotOf id p (p.onWritable core a) := by
  unfold Parked.onWritable
  split
  · exact ⟨Or.inl rfl, by simp⟩
  · rename_i pending hpending
    have hslot : slotOf pending.reply = some (.write a) :=
      hp (.write a) pending.reply (by simp [Parked.tokens, hpending])
    obtain ⟨hlook, hsent⟩ := offerWrite_leavesWrites ha
      { p with blockedWrites := p.blockedWrites.erase a } core hslot
    refine ⟨hlook.imp_left fun h => h.trans ?_, hsent⟩
    exact AList.lookup_erase_ne ha.symm

theorem applyCmd_leavesWrites {cmd : Cmd} (hcmd : ∀ t, cmd.reply = some t → slotOf t = cmd.slot)
    (hwrite : cmd.slot ≠ some (.write id)) (core : ConnState Q) (now : Instant) :
    LeavesWrites slotOf id p (p.applyCmd core cmd now) := by
  -- its own channel does not belong to a write of `id`
  have hown : ∀ {t r}, cmd.reply = some t → ∀ x ∈ [((t, r) : Token × Reply)],
      x.2 = .done (.ok ()) → slotOf x.1 ≠ some (.write id) := by
    intro t r ht x hx _
    rw [List.mem_singleton.mp hx, hcmd t ht]
    exact hwrite
  cases cmd with
  | openBi t => exact ⟨Or.inl rfl, hown rfl⟩
  | acceptBi t =>
    simp only [Parked.applyCmd]
    split
    · exact ⟨Or.inl rfl, hown rfl⟩
    · exact ⟨Or.inl rfl, by simp⟩
    · exact ⟨Or.inl rfl, hown rfl⟩
  | write a data t =>
    exact offerWrite_leavesWrites (fun ha => hwrite (by rw [ha]; rfl)) p core (hcmd t rfl)
  | finish a t => exact ⟨Or.inl rfl, hown rfl⟩
  | waitFinished a t =>
    simp only [Parked.applyCmd]
    split
    case h_3 => exact ⟨Or.inl rfl, by simp⟩
    all_goals exact ⟨Or.inl rfl, hown rfl⟩
  | reset a code t =>
    simp only [Parked.applyCmd]
    split
    · refine ⟨?_, fun x hx hok => ?_⟩
      · show (p.blockedWrites.erase a).lookup id = _ ∨ (p.blockedWrites.erase a).lookup id = none
        rw [AMap.lookup_erase_eq]
        split
        · exact Or.inr rfl
        · exact Or.inl rfl
      · rcases List.mem_append.mp hx with hx | hx
        · simp only [Parked.failFinWaiters, Parked.failBlockedWrite, List.mem_append,
            List.mem_map] at hx
          rcases hx with ⟨_, -, rfl⟩ | ⟨_, -, rfl⟩ <;> exact absurd hok (by simp)
        · exact hown rfl x hx hok
    · exact ⟨Or.inl rfl, hown rfl⟩
  | stop a code t =>
    simp only [Parked.applyCmd]
    split
    · refine ⟨Or.inl rfl, fun x hx hok => ?_⟩
      rcases List.mem_append.mp hx with hx | hx
      · obtain ⟨_, -, rfl⟩ := List.mem_map.mp hx
        exact absurd hok (by simp)
      · exact hown rfl x hx hok
    · exact ⟨Or.inl rfl, hown rfl⟩
  | releaseSend a => exact ⟨Or.inl rfl, by simp [Parked.applyCmd]⟩
  | readToEnd a limit t => exact offerRead_leavesWrites p core a _
  | read a len t => exact offerRead_leavesWrites p core a _
  | close code reason => exact ⟨Or.inl rfl, by simp [Parked.applyCmd]⟩

/-- Finish waiters are not writes. -/
theorem waiters_not_write (hp : Typed slotOf p) {a : StreamId} {r : Reply} {x : Token × Reply}
    (hx : x ∈ ((p.finWaiters.lookup a).getD []).map fun t => (t, r)) :
    slotOf x.1 ≠ some (.write id) := by
  obtain ⟨t, ht, rfl⟩ := List.mem_map.mp hx
  rw [hp (.fin a) t ht]
  simp

theorem onEvent_leavesWrites (hp : Typed slotOf p) {e : Event}
    (hwritable : ∀ ch, e ≠ .streamWritable ch id) (hstopped : ∀ ch code, e ≠ .streamStopped ch id code)
    (core : ConnState Q) : LeavesWrites slotOf id p (p.onEvent core e) := by
  cases e with
  | connected ch => exact ⟨Or.inl rfl, by simp [Parked.onEvent]⟩
  | connectionLost ch reason => exact ⟨Or.inl rfl, by simp [Parked.onEvent]⟩
  | streamOpened ch a dir =>
    refine ⟨Or.inl rfl, fun x hx hok => ?_⟩
    have htakes := (onStreamOpened_releases p core).takes x hx
    rw [hok] at htakes
    exact absurd htakes (by simp [Slot.Takes])
  | streamReadable ch a =>
    show LeavesWrites slotOf id p (p.onReadable core a)
    unfold Parked.onReadable
    split
    · exact ⟨Or.inl rfl, by simp⟩
    · rename_i pending hpending
      have hleaves : LeavesWrites slotOf id { p with pendingReads := p.pendingReads.erase a } _ :=
        offerRead_leavesWrites _ core a pending
      exact ⟨hleaves.parked, hleaves.sent⟩
  | streamWritable ch a =>
    exact onWritable_leavesWrites hp (fun ha => hwritable ch (by rw [ha])) core
  | streamFinAcked ch a => exact ⟨Or.inl rfl, fun x hx _ => waiters_not_write hp hx⟩
  | streamStopped ch a code =>
    have hp' : Typed slotOf (p.failFinWaiters a (.stopped code)).1 :=
      (waiters_releases p a (.done (.error (.stopped code))) trivial).releases.typed hp
    have ha : a ≠ id := fun ha => hstopped ch code (by rw [ha])
    obtain ⟨hlook, hsent⟩ := onWritable_leavesWrites hp' ha core
    refine ⟨hlook, fun x hx hok => ?_⟩
    rcases List.mem_append.mp hx with hx | hx
    · exact waiters_not_write hp hx
    · exact hsent x hx hok

end Leaves

/-! ## The history of a stream's writes -/

/-- The write of stream `id` a command is. -/
def Cmd.writeOf (id : StreamId) : Cmd → Option (Token × List UInt8)
  | .write a data t => if a = id then some (t, data) else none
  | _ => none

namespace Sys

/-- The write of `id` an action issues. -/
def asked (id : StreamId) (s : Sys Q) : Action Q → Option (Token × List UInt8)
  | .issue cmd =>
    (cmd.writeOf id).filter fun w => ¬ (w.1 ∈ s.issued ∨ s.borrowed cmd = true)
  | _ => none

/-- The write of `id` an action applies. -/
def applied (id : StreamId) (s : Sys Q) : Action Q → Option (Token × List UInt8)
  | .execute _ => s.commands.head?.bind (Cmd.writeOf id)
  | _ => none

/-- The action dispatches an event that wakes the write of `id`. -/
def wakes (id : StreamId) (s : Sys Q) : Action Q → Bool
  | .dispatch =>
    match s.events.head? with
    | some (.streamWritable _ a) | some (.streamStopped _ a _) => a = id
    | _ => false
  | _ => false

/-- The write of `id` an action offers to the core. -/
def offered (id : StreamId) (s : Sys Q) (a : Action Q) : Option PendingWrite :=
  match s.applied id a with
  | some w => some ⟨w.2, 0, w.1⟩
  | none => if s.wakes id a then s.parked.blockedWrites.lookup id else none

end Sys

/-- What happened to the writes of a stream. -/
structure WriteLog where
  /-- The writes issued, in order. -/
  asked : List (Token × List UInt8)
  /-- The writes applied, in order. -/
  applied : List (Token × List UInt8)
  /-- What the core took, in order, and of which write. -/
  accepted : List (Token × List UInt8)
  /-- The stream has answered `Blocked` and was not woken since. -/
  held : Bool

namespace WriteLog

def empty : WriteLog := ⟨[], [], [], false⟩

/-- One action is entered. -/
def enter (id : StreamId) (log : WriteLog) (s : Sys Q) (a : Action Q) : WriteLog where
  asked := log.asked ++ (s.asked id a).toList
  applied := log.applied ++ (s.applied id a).toList
  accepted := log.accepted ++
    ((s.offered id a).map fun p => (p.reply, pumpAccepts s.core id p)).toList
  held := (s.offered id a).any (fun p => (pumpWrite s.core id p).reply.isNone) ||
    (log.held && !s.wakes id a)

/-- A run is entered. -/
def enterAll (id : StreamId) : WriteLog → Sys Q → List (Action Q) → WriteLog
  | log, _, [] => log
  | log, s, a :: actions => (log.enter id s a).enterAll id (s.step a) actions

end WriteLog

/-- **A blocked stream stays blocked**: after a `Blocked` answer the core takes nothing of the stream
until its `Writable` or `Stopped` is dispatched. -/
def StaysBlocked (id : StreamId) : WriteLog → Sys Q → List (Action Q) → Prop
  | _, _, [] => True
  | log, s, a :: actions =>
    (log.held = true → ∀ w, s.applied id a = some w → w.2 ≠ [] →
      ∀ n, (Q.sendWrite s.core.conn id w.2).1 ≠ .ok n) ∧
    StaysBlocked id (log.enter id s a) (s.step a) actions

/-! ## What one action does -/

section Actions

variable {id : StreamId} {s : Sys Q} {a : Action Q}

/-- A write is applied. -/
theorem step_applied {w : Token × List UInt8} (h : s.applied id a = some w) :
    ∃ rest, s.commands = .write id w.2 w.1 :: rest ∧
      s.step a = Sys.after { s with commands := rest }
        (s.parked.offerWrite s.core id ⟨w.2, 0, w.1⟩) := by
  cases a with
  | execute now =>
    obtain ⟨cmd, hhead, hwrite⟩ := Option.bind_eq_some_iff.mp h
    obtain ⟨rest, hcmds⟩ := List.head?_eq_some_iff.mp hhead
    cases cmd with
    | write b data t =>
      obtain ⟨rfl, rfl⟩ : b = id ∧ (t, data) = w := by simpa [Cmd.writeOf] using hwrite
      refine ⟨rest, hcmds, ?_⟩
      simp only [Sys.step, hcmds]
      rfl
    | _ => exact absurd hwrite (by simp [Cmd.writeOf])
  | _ => exact absurd h (by simp [Sys.applied])

/-- The events that wake. -/
theorem wakes_cases (h : s.wakes id a = true) :
    a = .dispatch ∧ ∃ rest ch, s.events = .streamWritable ch id :: rest ∨
      ∃ code, s.events = .streamStopped ch id code :: rest := by
  cases a with
  | dispatch =>
    refine ⟨rfl, ?_⟩
    simp only [Sys.wakes] at h
    split at h
    · rename_i ch b hhead
      obtain ⟨rest, hevents⟩ := List.head?_eq_some_iff.mp hhead
      obtain rfl : b = id := by simpa using h
      exact ⟨rest, ch, Or.inl hevents⟩
    · rename_i ch b code hhead
      obtain ⟨rest, hevents⟩ := List.head?_eq_some_iff.mp hhead
      obtain rfl : b = id := by simpa using h
      exact ⟨rest, ch, Or.inr ⟨code, hevents⟩⟩
    · exact absurd h (by simp)
  | _ => exact absurd h (by simp [Sys.wakes])

/-- The parked write is woken, after the waiters that a stop fails. -/
theorem step_wakes (h : s.wakes id a = true) :
    ∃ (q : Parked) (extra : List (Token × Reply)),
      q.blockedWrites = s.parked.blockedWrites ∧
      (∀ x ∈ extra, ∃ t ∈ s.parked.tokens (.fin id), x.1 = t) ∧
      (s.step a).parked = (q.onWritable s.core id).parked ∧
      (s.step a).sent = s.sent ++ (extra ++ (q.onWritable s.core id).sent) ∧
      (s.step a).core = (q.onWritable s.core id).core := by
  obtain ⟨rfl, rest, ch, hevents | ⟨code, hevents⟩⟩ := wakes_cases h
  · refine ⟨s.parked, [], rfl, by simp, ?_, ?_, ?_⟩ <;>
      simp [Sys.step, hevents, Parked.onEvent, Sys.after]
  · refine ⟨(s.parked.failFinWaiters id (.stopped code)).1,
      (s.parked.failFinWaiters id (.stopped code)).2, rfl, fun x hx => ?_, ?_, ?_, ?_⟩
    · obtain ⟨t, ht, rfl⟩ := List.mem_map.mp hx
      exact ⟨t, ht, rfl⟩
    all_goals simp [Sys.step, hevents, Parked.onEvent, Parked.onStopped, Sys.after]

/-- An action that neither applies nor wakes a write of `id`. -/
theorem step_leavesWrites (hsound : s.Sound) (happlied : s.applied id a = none)
    (hwakes : s.wakes id a = false) :
    ((s.step a).parked.blockedWrites.lookup id = s.parked.blockedWrites.lookup id ∨
        (s.step a).parked.blockedWrites.lookup id = none) ∧
      ∃ new, (s.step a).sent = s.sent ++ new ∧
        ∀ x ∈ new, x.2 = .done (.ok ()) → s.slotOf x.1 ≠ some (.write id) := by
  have hstep := Sys.taken s a
  generalize s.step a = s' at hstep ⊢
  cases hstep with
  | @executed cmd rest now hcmds =>
    have hcmd : cmd ∈ s.commands := by
      rw [hcmds]
      exact List.mem_cons_self
    have hwrite : cmd.slot ≠ some (.write id) := by
      cases cmd <;> simp_all [Cmd.slot, Sys.applied, Cmd.writeOf]
    obtain ⟨hparked, hsent⟩ := applyCmd_leavesWrites (p := s.parked)
      (fun t ht => hsound.slotOf_queued hcmd ht) hwrite s.core now
    exact ⟨hparked, _, rfl, hsent⟩
  | @dispatched e rest hevents =>
    have hne : (∀ ch, e ≠ .streamWritable ch id) ∧ ∀ ch code, e ≠ .streamStopped ch id code := by
      constructor
      · rintro ch rfl
        simp [Sys.wakes, hevents] at hwakes
      · rintro ch code rfl
        simp [Sys.wakes, hevents] at hwakes
    obtain ⟨hparked, hsent⟩ := onEvent_leavesWrites hsound.typed hne.1 hne.2 s.core
    exact ⟨hparked, _, rfl, hsent⟩
  | _ => exact ⟨Or.inl rfl, [], (List.append_nil _).symm, by simp⟩

/-- An action that neither applies nor wakes a write of `id` does not write to it. -/
theorem asks_no_write (happlied : s.applied id a = none) (hwakes : s.wakes id a = false)
    {o : ConnOp Q} (ho : s.Asks a o) : ¬ WritesOf id o := by
  rintro ⟨buf, rfl⟩
  cases a with
  | execute now =>
    obtain ⟨cmd, rest, hcmds, ho⟩ := ho
    cases cmd <;> simp_all [Cmd.Asks, WritesOf, ReadsOf, Sys.applied, Cmd.writeOf]
  | dispatch =>
    obtain ⟨e, rest, hevents, ho⟩ := ho
    cases e <;> simp_all [EventAsks, WritesOf, ReadsOf, Sys.wakes]
  | service now => exact absurd ho (by simp [Sys.Asks, PassAsks])
  | handleEvent | handleTimeout | endpointEvent => exact absurd ho (by simp [Sys.Asks])
  | issue | cancel | receive => exact ho

/-- **What is entered for an action is what the core takes in it.** -/
theorem took_step (id : StreamId) (s : Sys Q) (a : Action Q) :
    Took id s.core
      (((s.offered id a).map fun p => (p.reply, pumpAccepts s.core id p)).toList.flatMap Prod.snd)
      (s.step a).core := by
  cases happlied : s.applied id a with
  | some w =>
    obtain ⟨rest, -, hstep⟩ := step_applied happlied
    rw [hstep]
    simpa [Sys.offered, happlied, Sys.after] using pumpWrite_took s.core id ⟨w.2, 0, w.1⟩
  | none =>
    cases hwakes : s.wakes id a with
    | false =>
      simp only [Sys.offered, happlied, hwakes]
      exact .of_driven (fun o => asks_no_write happlied hwakes) (s.step_driven a)
    | true =>
      obtain ⟨q, -, hq, -, -, -, hcore⟩ := step_wakes hwakes
      rw [hcore]
      unfold Parked.onWritable
      rw [hq]
      cases hp : s.parked.blockedWrites.lookup id with
      | none => simpa [Sys.offered, happlied, hwakes, hp] using Took.nothing
      | some p =>
        simpa [Sys.offered, happlied, hwakes, hp] using pumpWrite_took s.core id p

/-- A channel that was issued and is not queued is not queued again. -/
theorem not_queued_step {t : Token} (hissued : t ∈ s.issued)
    (h : t ∉ s.commands.filterMap Cmd.reply) : t ∉ (s.step a).commands.filterMap Cmd.reply := by
  have hstep := Sys.taken s a
  generalize s.step a = s' at hstep ⊢
  cases hstep with
  | @told cmd hreply =>
    show t ∉ (s.commands ++ [cmd]).filterMap Cmd.reply
    rw [List.filterMap_append]
    simpa [hreply] using h
  | @issued cmd t' hreply hfresh hfree =>
    show t ∉ (s.commands ++ [cmd]).filterMap Cmd.reply
    have hne : t ≠ t' := fun heq => hfresh (heq ▸ hissued)
    rw [List.filterMap_append]
    simpa [hreply, hne] using h
  | @executed cmd rest now hcmds =>
    rw [hcmds] at h
    exact fun hmem => h (Sys.Sound.filterMap_reply_cons cmd rest ▸ List.mem_append_right _ hmem)
  | _ => exact h

theorem reply_of_writeOf {cmd : Cmd} {w : Token × List UInt8} (h : cmd.writeOf id = some w) :
    cmd.reply = some w.1 := by
  cases cmd with
  | write b data t =>
    obtain ⟨-, rfl⟩ : b = id ∧ (t, data) = w := by simpa [Cmd.writeOf] using h
    rfl
  | _ => exact absurd h (by simp [Cmd.writeOf])

/-- The writes issued are those applied and those still in the channel. -/
theorem asked_step {asked applied : List (Token × List UInt8)}
    (h : asked = applied ++ s.commands.filterMap (Cmd.writeOf id)) :
    asked ++ (s.asked id a).toList =
      applied ++ (s.applied id a).toList ++ (s.step a).commands.filterMap (Cmd.writeOf id) := by
  subst h
  cases a with
  | issue cmd =>
    simp only [Sys.asked, Sys.applied, Sys.step, Option.toList_none, List.append_nil,
      List.append_assoc, List.append_cancel_left_eq]
    cases hwrite : cmd.writeOf id with
    | none =>
      split
      · simp [hwrite]
      · split <;> simp [hwrite]
    | some w =>
      rw [reply_of_writeOf hwrite]
      dsimp only
      split
      · rename_i hguard
        have hnot : (¬ (w.1 ∈ s.issued ∨ s.borrowed cmd = true)) = False := by simp [hguard]
        simp only [Option.filter_some, hnot]
        simp
      · rename_i hguard
        have hnot : (¬ (w.1 ∈ s.issued ∨ s.borrowed cmd = true)) = True := by simp [hguard]
        simp only [Option.filter_some, hnot]
        simp [hwrite]
  | execute now =>
    simp only [Sys.asked, Sys.applied, Sys.step]
    cases hcmds : s.commands with
    | nil => simp [hcmds]
    | cons cmd rest =>
      cases hwrite : cmd.writeOf id <;> simp [hwrite, Sys.after]
  | dispatch =>
    simp only [Sys.asked, Sys.applied, Sys.step]
    split <;> simp [Sys.after]
  | receive t =>
    simp only [Sys.asked, Sys.applied, Sys.step]
    split
    · split <;> simp
    · simp
  | service now =>
    simp only [Sys.asked, Sys.applied, Sys.step]
    split <;> simp
  | cancel | handleEvent | handleTimeout | endpointEvent =>
    simp [Sys.asked, Sys.applied, Sys.step, Sys.withConn]

end Actions

/-! ## One write is offered -/

/-- The core has what lies before the offset of the write, and nothing of a later one. -/
structure Resumes (applied accepted : List (Token × List UInt8)) (p : PendingWrite) : Prop where
  within : p.offset ≤ p.data.length
  taken : takenOf p.reply accepted = p.data.take p.offset
  last : ∃ before after, applied = before ++ (p.reply, p.data) :: after ∧
    ∀ w ∈ after, takenOf w.1 accepted = []

namespace Resumes

variable {applied accepted : List (Token × List UInt8)} {p : PendingWrite}

/-- A write that is applied comes last. -/
theorem begin (h : InOrder applied accepted) {w : Token × List UInt8}
    (hw : w.1 ∉ applied.map Prod.fst) : Resumes (applied ++ [w]) accepted ⟨w.2, 0, w.1⟩ :=
  ⟨Nat.zero_le _, h.takenOf_new hw, applied, [], rfl, by simp⟩

/-- A write that the core takes nothing of may be applied meanwhile. -/
theorem pass (h : Resumes applied accepted p) {w : Token × List UInt8}
    (hw : takenOf w.1 accepted = []) : Resumes (applied ++ [w]) (accepted ++ [(w.1, [])]) p := by
  have hsame : ∀ t : Token, takenOf t (accepted ++ [(w.1, [])]) = takenOf t accepted := by
    intro t
    rw [takenOf_concat, List.append_nil, ite_self]
  obtain ⟨before, after, heq, hafter⟩ := h.last
  refine ⟨h.within, (hsame _).trans h.taken, before, after ++ [w], by simp [heq], fun b hb => ?_⟩
  rw [hsame]
  rcases List.mem_append.mp hb with hb | hb
  · exact hafter b hb
  · rw [List.mem_singleton.mp hb]
    exact hw

/-- **The write is offered.** What the core takes of it follows what it took before. -/
theorem offer (h : Resumes applied accepted p) (horder : InOrder applied accepted)
    {got : List UInt8} {w : WritePump Q} (hpump : Pumped p got w) :
    InOrder applied (accepted ++ [(p.reply, got)]) ∧
      Resumes applied (accepted ++ [(p.reply, got)]) w.pending := by
  obtain ⟨before, after, rfl, hafter⟩ := h.last
  have hgot : takenOf p.reply accepted ++ got = p.data.take w.pending.offset := by
    rw [h.taken, hpump.sofar.taken]
  have horder' : InOrder (before ++ (p.reply, p.data) :: after) (accepted ++ [(p.reply, got)]) :=
    horder.extend (hgot ▸ List.take_prefix _ _) hafter
  refine ⟨horder', ?_, ?_, before, after, ?_, fun b hb => ?_⟩
  · rw [hpump.sofar.data]
    exact hpump.sofar.within
  · rw [hpump.sofar.reply, hpump.sofar.data, takenOf_concat, if_pos rfl, hgot]
  · rw [hpump.sofar.reply, hpump.sofar.data]
  · rw [horder.takenOf_other (Or.inr hb)]
    exact hafter b hb

end Resumes

/-- Every write is told that it is through exactly when the core has all of it. -/
def Answered (applied accepted : List (Token × List UInt8)) (sent : List (Token × Reply)) : Prop :=
  ∀ w ∈ applied, (w.1, .done (.ok ())) ∈ sent ↔ takenOf w.1 accepted = w.2

theorem ok_mem_offerWrite {q : Parked} {core : ConnState Q} {id : StreamId} {p : PendingWrite} :
    (p.reply, .done (.ok ())) ∈ (q.offerWrite core id p).sent ↔
      (pumpWrite core id p).reply = some (.ok ()) := by
  unfold Parked.offerWrite
  dsimp only
  split
  · rename_i answer hreply
    simp [hreply, eq_comm]
  · rename_i hreply
    simp [hreply]

/-- What is parked after a write was offered: the write itself, or what was there before. -/
theorem lookup_offerWrite {q : Parked} {core : ConnState Q} {id : StreamId} {p r : PendingWrite}
    (h : (q.offerWrite core id p).parked.blockedWrites.lookup id = some r) :
    ((pumpWrite core id p).reply = none ∧ r = (pumpWrite core id p).pending) ∨
      q.blockedWrites.lookup id = some r := by
  unfold Parked.offerWrite at h
  dsimp only at h
  split at h
  · exact Or.inr h
  · rename_i hreply
    exact Or.inl ⟨hreply, (Option.some.inj ((AList.lookup_insert _).symm.trans h)).symm⟩

/-- The answers after a write was offered, with others that go to no write. -/
theorem Answered.offer {applied accepted : List (Token × List UInt8)}
    {sent extra : List (Token × Reply)} {p : PendingWrite} {q : Parked} {core : ConnState Q}
    {id : StreamId} (hothers : Answered (applied.filter fun w => w.1 ≠ p.reply) accepted sent)
    (horder : InOrder applied accepted) (hresumes : Resumes applied accepted p)
    (hunused : p.reply ∉ sent.map Prod.fst)
    (hextra : ∀ x ∈ extra, x.1 ∉ applied.map Prod.fst) :
    Answered applied (accepted ++ [(p.reply, pumpAccepts core id p)])
      (sent ++ (extra ++ (q.offerWrite core id p).sent)) := by
  intro w hw
  have hpump := pumpWrite_accepts core id hresumes.within
  have hnew : (w.1, .done (.ok ())) ∉ extra :=
    fun hmem => hextra _ hmem (List.mem_map_of_mem hw)
  rw [List.mem_append, List.mem_append, or_iff_right hnew, takenOf_append, takenOf_single]
  by_cases heq : w.1 = p.reply
  · have hdata : w = (p.reply, p.data) := by
      obtain ⟨before, after, rfl, -⟩ := hresumes.last
      exact List.inj_on_of_nodup_map horder.nodup hw (by simp) heq
    subst hdata
    have hnot : (p.reply, .done (.ok ())) ∉ sent := fun hmem =>
      hunused (List.mem_map.mpr ⟨_, hmem, rfl⟩)
    rw [or_iff_right hnot, ok_mem_offerWrite, hpump.answered, if_pos rfl, hresumes.taken,
      hpump.sofar.taken]
    constructor
    · intro hall
      exact hall ▸ List.take_length
    · intro hall
      have hlen : (p.data.take (pumpWrite core id p).pending.offset).length = p.data.length :=
        congrArg List.length hall
      have hle := hpump.sofar.within
      rw [List.length_take] at hlen
      omega
  · have hnot : (w.1, .done (.ok ())) ∉ (q.offerWrite core id p).sent := by
      intro hmem
      obtain ⟨answer, -, hx⟩ := Parked.mem_offerWrite_sent hmem
      exact heq (congrArg Prod.fst hx)
    rw [or_iff_left hnot, if_neg (Ne.symm heq), List.append_nil]
    exact hothers w (List.mem_filter.mpr ⟨hw, by simpa using heq⟩)

/-! ## One action -/

/-- **The writes of a stream are in order**, and a parked one is held by the answer `Blocked`. -/
structure Writing (id : StreamId) (log : WriteLog) (s : Sys Q) : Prop where
  sound : s.Sound
  channel : log.asked = log.applied ++ s.commands.filterMap (Cmd.writeOf id)
  known : ∀ w ∈ log.applied, w.1 ∈ s.issued ∧ s.slotOf w.1 = some (.write id) ∧
    w.1 ∉ s.commands.filterMap Cmd.reply
  order : InOrder log.applied log.accepted
  answered : Answered log.applied log.accepted s.sent
  parked : ∀ p, s.parked.blockedWrites.lookup id = some p →
    log.held = true ∧ p.offset < p.data.length ∧ Resumes log.applied log.accepted p

namespace Writing

variable {id : StreamId} {log : WriteLog} {s : Sys Q} {a : Action Q}

theorem start (id : StreamId) (handle : ConnectionHandle) (core : ConnState Q) :
    Writing id .empty (Sys.start handle core) :=
  ⟨.start handle core, rfl, by simp [WriteLog.empty], .nil, by simp [WriteLog.empty, Answered],
    by simp [Sys.start, Parked.new]⟩

/-- The writes applied so far stay known. -/
theorem known_step (h : Writing id log s) {w : Token × List UInt8} (hw : w ∈ log.applied) :
    w.1 ∈ (s.step a).issued ∧ (s.step a).slotOf w.1 = some (.write id) ∧
      w.1 ∉ (s.step a).commands.filterMap Cmd.reply := by
  obtain ⟨hissued, hslot, hqueue⟩ := h.known w hw
  obtain ⟨hissued', hslot'⟩ := (Sys.taken s a).slotOf hissued
  exact ⟨hissued', hslot'.trans hslot, not_queued_step hissued hqueue⟩

/-- A channel of another kind is not a write's. -/
theorem not_applied (h : Writing id log s) {t : Token} (ht : s.slotOf t ≠ some (.write id)) :
    t ∉ log.applied.map Prod.fst := by
  intro hmem
  obtain ⟨w, hw, rfl⟩ := List.mem_map.mp hmem
  exact ht (h.known w hw).2.1

/-- An action under which nothing is offered. -/
theorem step_idle (h : Writing id log s) (hoffered : s.offered id a = none) :
    Writing id (log.enter id s a) (s.step a) := by
  have happlied : s.applied id a = none := by
    unfold Sys.offered at hoffered
    split at hoffered
    · exact absurd hoffered (by simp)
    · assumption
  have hwoken : s.wakes id a = true → s.parked.blockedWrites.lookup id = none := by
    intro hwakes
    simpa [Sys.offered, happlied, hwakes] using hoffered
  -- a write that is parked now was parked before, and was not woken
  have hstep : (∀ p, (s.step a).parked.blockedWrites.lookup id = some p →
        s.parked.blockedWrites.lookup id = some p ∧ s.wakes id a = false) ∧
      ∃ new, (s.step a).sent = s.sent ++ new ∧
        ∀ x ∈ new, x.2 = .done (.ok ()) → s.slotOf x.1 ≠ some (.write id) := by
    cases hwakes : s.wakes id a with
    | false =>
      obtain ⟨hlook, hnew⟩ := step_leavesWrites h.sound happlied hwakes
      refine ⟨fun p hp => ?_, hnew⟩
      rcases hlook with hlook | hlook
      · exact ⟨hlook ▸ hp, rfl⟩
      · exact absurd (hlook.symm.trans hp) (by simp)
    | true =>
      obtain ⟨q, extra, hq, hextra, hparked, hsent, -⟩ := step_wakes hwakes
      have hnone : q.blockedWrites.lookup id = none := hq ▸ hwoken hwakes
      have hidle : q.onWritable s.core id = ⟨s.core, q, [], []⟩ := by
        simp [Parked.onWritable, hnone]
      rw [hidle] at hparked hsent
      refine ⟨fun p hp => ?_, extra, by simpa using hsent, fun x hx _ => ?_⟩
      · exact absurd (hnone.symm.trans (hparked ▸ hp)) (by simp)
      · obtain ⟨t, ht, hxt⟩ := hextra x hx
        rw [hxt, h.sound.typed (.fin id) t ht]
        simp
  obtain ⟨hparked, new, hsent, hnew⟩ := hstep
  have hlog : log.enter id s a =
      ⟨log.asked ++ (s.asked id a).toList, log.applied, log.accepted,
        log.held && !s.wakes id a⟩ := by
    simp [WriteLog.enter, hoffered, happlied]
  have hchannel := asked_step (a := a) h.channel
  rw [happlied] at hchannel
  rw [hlog]
  refine ⟨h.sound.step a, by simpa using hchannel, fun w hw => h.known_step hw, h.order,
    fun w hw => ?_, fun p hp => ?_⟩
  · have hnot : (w.1, .done (.ok ())) ∉ new := fun hmem => hnew _ hmem rfl (h.known w hw).2.1
    rw [hsent, List.mem_append, or_iff_left hnot]
    exact h.answered w hw
  · obtain ⟨hp, hwakes⟩ := hparked p hp
    obtain ⟨hheld, hlt, hresumes⟩ := h.parked p hp
    exact ⟨by simp [hheld, hwakes], hlt, hresumes⟩

/-- A write that is offered and stays blocked is parked as the invariant has it. -/
theorem parked_offered {applied accepted : List (Token × List UInt8)} {p : PendingWrite}
    {core : ConnState Q} (hresumes : Resumes applied accepted p) (horder : InOrder applied accepted)
    (hreply : (pumpWrite core id p).reply = none) :
    (pumpWrite core id p).pending.offset < (pumpWrite core id p).pending.data.length ∧
      Resumes applied (accepted ++ [(p.reply, pumpAccepts core id p)])
        (pumpWrite core id p).pending := by
  have hpump := pumpWrite_accepts core id hresumes.within
  refine ⟨?_, (hresumes.offer horder hpump).2⟩
  rw [hpump.sofar.data]
  exact hpump.parked hreply

/-- **A write is applied.** Where an older one is parked, the core takes nothing of it. -/
theorem step_applies (h : Writing id log s) {w : Token × List UInt8}
    (happlied : s.applied id a = some w)
    (hblocked : log.held = true → w.2 ≠ [] → ∀ n, (Q.sendWrite s.core.conn id w.2).1 ≠ .ok n) :
    Writing id (log.enter id s a) (s.step a) := by
  obtain ⟨rest, hcmds, hstep⟩ := step_applied happlied
  have hcmd : Cmd.write id w.2 w.1 ∈ s.commands := by
    rw [hcmds]
    exact List.mem_cons_self
  have hqueued : w.1 ∈ s.commands.filterMap Cmd.reply := List.mem_filterMap.mpr ⟨_, hcmd, rfl⟩
  have hfresh : w.1 ∉ log.applied.map Prod.fst := by
    intro hmem
    obtain ⟨b, hb, heq⟩ := List.mem_map.mp hmem
    exact (h.known b hb).2.2 (heq ▸ hqueued)
  have hoffered : s.offered id a = some ⟨w.2, 0, w.1⟩ := by simp [Sys.offered, happlied]
  have hwakes : s.wakes id a = false := by
    cases a with
    | dispatch => exact absurd happlied (by simp [Sys.applied])
    | _ => rfl
  have hlog : log.enter id s a =
      ⟨log.asked ++ (s.asked id a).toList, log.applied ++ [w],
        log.accepted ++ [(w.1, pumpAccepts s.core id ⟨w.2, 0, w.1⟩)],
        (pumpWrite s.core id ⟨w.2, 0, w.1⟩).reply.isNone || log.held⟩ := by
    simp [WriteLog.enter, hoffered, happlied, hwakes]
  have horder : InOrder (log.applied ++ [w]) log.accepted := h.order.begin hfresh w.2
  have hresumes := Resumes.begin h.order hfresh
  have hchannel := asked_step (a := a) h.channel
  rw [happlied] at hchannel
  have hunused := (h.sound.queued_only hcmd rfl).2
  rw [hlog]
  refine ⟨h.sound.step a, hchannel, fun b hb => ?_, ?_, ?_, fun p hp => ?_⟩
  · rcases List.mem_append.mp hb with hb | hb
    · exact h.known_step hb
    · rw [List.mem_singleton.mp hb]
      have hissued : w.1 ∈ s.issued := AMap.mem_iff_lookup.mpr ⟨_, h.sound.queued _ hcmd w.1 rfl⟩
      obtain ⟨hissued', hslot'⟩ := (Sys.taken s a).slotOf hissued
      refine ⟨hissued', hslot'.trans (h.sound.slotOf_queued hcmd rfl), ?_⟩
      rw [hstep]
      exact h.sound.head_only hcmds rfl
  · exact (hresumes.offer horder (pumpWrite_accepts s.core id hresumes.within)).1
  · have hothers : Answered ((log.applied ++ [w]).filter fun b => b.1 ≠ w.1) log.accepted s.sent := by
      intro b hb
      obtain ⟨hb, hne⟩ := List.mem_filter.mp hb
      refine h.answered b ((List.mem_append.mp hb).resolve_right fun hb => ?_)
      simp [List.mem_singleton.mp hb] at hne
    have hno : ∀ x ∈ ([] : List (Token × Reply)), x.1 ∉ (log.applied ++ [w]).map Prod.fst := by simp
    rw [hstep]
    exact hothers.offer horder hresumes hunused hno
  · rw [hstep] at hp
    rcases lookup_offerWrite hp with ⟨hreply, rfl⟩ | hp
    · obtain ⟨hlt, hresumes'⟩ := parked_offered hresumes horder hreply
      exact ⟨by simp [hreply], hlt, hresumes'⟩
    · obtain ⟨hheld, hlt, hresumes'⟩ := h.parked p hp
      have hnothing : pumpAccepts s.core id ⟨w.2, 0, w.1⟩ = [] :=
        pumpAccepts_refused (hblocked hheld)
      rw [hnothing]
      exact ⟨by simp [hheld], hlt, hresumes'.pass (h.order.takenOf_new hfresh)⟩

/-- **A parked write is woken.** -/
theorem step_resumes (h : Writing id log s) (happlied : s.applied id a = none)
    (hwakes : s.wakes id a = true) {p : PendingWrite}
    (hp : s.parked.blockedWrites.lookup id = some p) :
    Writing id (log.enter id s a) (s.step a) := by
  obtain ⟨q, extra, hq, hextra, hparked, hsent, -⟩ := step_wakes hwakes
  obtain ⟨-, hlt, hresumes⟩ := h.parked p hp
  have hoffer : q.onWritable s.core id =
      Parked.offerWrite { q with blockedWrites := q.blockedWrites.erase id } s.core id p := by
    simp [Parked.onWritable, hq, hp]
  rw [hoffer] at hparked hsent
  have hlog : log.enter id s a =
      ⟨log.asked ++ (s.asked id a).toList, log.applied,
        log.accepted ++ [(p.reply, pumpAccepts s.core id p)],
        (pumpWrite s.core id p).reply.isNone⟩ := by
    simp [WriteLog.enter, Sys.offered, hp, happlied, hwakes]
  have hchannel := asked_step (a := a) h.channel
  rw [happlied] at hchannel
  rw [hlog]
  refine ⟨h.sound.step a, by simpa using hchannel, fun w hw => h.known_step hw, ?_, ?_,
    fun r hr => ?_⟩
  · exact (hresumes.offer h.order (pumpWrite_accepts s.core id hresumes.within)).1
  · have hunused := (h.sound.parked_only (σ := .write id) (t := p.reply)
      (by simp [Parked.tokens, hp])).2
    rw [hsent]
    refine Answered.offer (fun w hw => h.answered w (List.mem_filter.mp hw).1) h.order hresumes
      hunused fun x hx => ?_
    obtain ⟨t, ht, hxt⟩ := hextra x hx
    refine h.not_applied ?_
    rw [hxt, h.sound.typed (.fin id) t ht]
    simp
  · rw [hparked] at hr
    rcases lookup_offerWrite hr with ⟨hreply, rfl⟩ | hr
    · obtain ⟨hlt, hresumes'⟩ := parked_offered hresumes h.order hreply
      exact ⟨by simp [hreply], hlt, hresumes'⟩
    · exact absurd ((AList.lookup_erase _ _).symm.trans hr) (by simp)

/-- **One action**, under which a blocked stream takes nothing of a write that is applied. -/
theorem step (h : Writing id log s)
    (hblocked : log.held = true → ∀ w, s.applied id a = some w → w.2 ≠ [] →
      ∀ n, (Q.sendWrite s.core.conn id w.2).1 ≠ .ok n) :
    Writing id (log.enter id s a) (s.step a) := by
  cases happlied : s.applied id a with
  | some w => exact h.step_applies happlied fun hheld => hblocked hheld w happlied
  | none =>
    cases hwakes : s.wakes id a with
    | false => exact h.step_idle (by simp [Sys.offered, happlied, hwakes])
    | true =>
      cases hp : s.parked.blockedWrites.lookup id with
      | none => exact h.step_idle (by simp [Sys.offered, happlied, hwakes, hp])
      | some p => exact h.step_resumes happlied hwakes hp

/-- **Every run.** -/
theorem run {actions : List (Action Q)} (h : Writing id log s)
    (hblocked : StaysBlocked id log s actions) :
    Writing id (log.enterAll id s actions) (s.run actions) := by
  induction actions generalizing log s with
  | nil => exact h
  | cons a actions ih => exact ih (h.step hblocked.1) hblocked.2

end Writing

/-- What is entered for a run is what the core takes in it. -/
theorem took_run {id : StreamId} {core : ConnState Q} (actions : List (Action Q)) {log : WriteLog}
    {s : Sys Q} (h : Took id core (log.accepted.flatMap Prod.snd) s.core) :
    Took id core ((log.enterAll id s actions).accepted.flatMap Prod.snd) (s.run actions).core := by
  induction actions generalizing log s with
  | nil => exact h
  | cons a actions ih =>
    refine ih ?_
    rw [WriteLog.enter, List.flatMap_append]
    exact h.trans (took_step id s a)

/-- **Writes never reorder or interleave.** In every run in which a blocked stream takes nothing
until its `Writable` or `Stopped` is dispatched, the core has taken of the stream a front `k i` of
every write that was applied, in the order in which they were issued, a write is answered `Ok`
exactly when all of it was taken, and nothing of a write is taken after something of a later one.
The receivers may be dropped at any time. -/
theorem writes_in_order (handle : ConnectionHandle) (c : Q.Conn) (id : StreamId)
    (actions : List (Action Q))
    (hblocked : StaysBlocked id .empty (Sys.start handle (.new c)) actions) :
    let s := (Sys.start handle (.new c)).run actions
    let log := WriteLog.empty.enterAll id (Sys.start handle (.new c)) actions
    let nth := fun t => (log.applied.map Prod.fst).idxOf t
    Took id (.new c) (log.accepted.flatMap Prod.snd) s.core ∧
    log.asked = log.applied ++ s.commands.filterMap (Cmd.writeOf id) ∧
    (log.applied.map Prod.fst).Nodup ∧
    ∃ k : Token → Nat,
      log.accepted.flatMap Prod.snd = log.applied.flatMap (fun w => w.2.take (k w.1)) ∧
      (∀ w ∈ log.applied, k w.1 ≤ w.2.length ∧ takenOf w.1 log.accepted = w.2.take (k w.1) ∧
        ((w.1, .done (.ok ())) ∈ s.sent ↔ k w.1 = w.2.length)) ∧
      (∀ x ∈ log.accepted, x.1 ∈ log.applied.map Prod.fst) ∧
      (log.accepted.filter fun x => !x.2.isEmpty).Pairwise fun x y => nth x.1 ≤ nth y.1 := by
  intro s log nth
  have h : Writing id log s := (Writing.start id handle (.new c)).run hblocked
  have hfront : ∀ w ∈ log.applied,
      takenOf w.1 log.accepted = w.2.take (takenOf w.1 log.accepted).length := fun w hw =>
    List.prefix_iff_eq_take.mp (h.order.front w hw)
  refine ⟨took_run actions .nothing, h.channel, h.order.nodup,
    fun t => (takenOf t log.accepted).length, ?_, fun w hw => ⟨?_, hfront w hw, ?_⟩,
    h.order.entered, h.order.ordered⟩
  · rw [h.order.whole]
    exact List.flatMap_congr fun w hw => hfront w hw
  · exact (h.order.front w hw).length_le
  · rw [h.answered w hw]
    constructor
    · intro hall
      exact congrArg List.length hall
    · intro hall
      exact (h.order.front w hw).eq_of_length hall

/-- Two bytes of credit; the third byte of a write blocks and its caller gives up; the next write
arrives while it is still parked, and takes its place. -/
def dropThenWrite : List (Action Mini) :=
  [.handleEvent (.maxData 2), .issue (.write 0 [1, 2, 3] 7), .execute 0, .cancel 7,
    .issue (.write 0 [4, 5] 8), .execute 0, .handleEvent (.maxData 4), .service 0, .dispatch]

theorem writes_in_order_dropThenWrite :
    let log := WriteLog.empty.enterAll 0 Sys.miniStart dropThenWrite
    StaysBlocked 0 .empty Sys.miniStart dropThenWrite ∧
      log.asked = [(7, [1, 2, 3]), (8, [4, 5])] ∧
      log.accepted = [(7, [1, 2]), (8, []), (8, [4, 5])] ∧
      Took 0 (.new (MiniConn.new ⟨.v4 0, 0⟩ 0)) [1, 2, 4, 5]
        (Sys.miniStart.run dropThenWrite).core := by
  have hidle : ∀ {log : WriteLog} {s : Sys Mini} {a : Action Mini}, s.applied 0 a = none →
      log.held = true → ∀ w, s.applied 0 a = some w → w.2 ≠ [] →
      ∀ n, (Mini.sendWrite s.core.conn 0 w.2).1 ≠ .ok n :=
    fun hnone _ w hw => absurd (hnone.symm.trans hw) (by simp)
  have hblocked : StaysBlocked 0 .empty Sys.miniStart dropThenWrite := by
    refine ⟨hidle rfl, hidle rfl, fun hheld => ?_, hidle rfl, hidle rfl, fun _ w hw _ n => ?_,
      hidle rfl, hidle rfl, hidle rfl, trivial⟩
    · exact absurd hheld (by decide)
    · obtain rfl : (8, [4, 5]) = w := Option.some.inj hw
      exact fun hok => absurd (show Except.error WriteError.blocked = Except.ok n from hok) (by simp)
  have haccepted : (WriteLog.empty.enterAll 0 Sys.miniStart dropThenWrite).accepted =
      [(7, [1, 2]), (8, []), (8, [4, 5])] := by decide
  obtain ⟨htook, -⟩ := writes_in_order (Q := Mini) ⟨0, 1⟩ (MiniConn.new ⟨.v4 0, 0⟩ 0) 0
    dropThenWrite hblocked
  have hbytes : ([(7, [1, 2]), (8, []), (8, [4, 5])] : List (Token × List UInt8)).flatMap Prod.snd =
      [1, 2, 4, 5] := rfl
  refine ⟨hblocked, by decide, haccepted, ?_⟩
  rw [← hbytes, ← haccepted]
  exact htook

end QuietQuic.Tokio
