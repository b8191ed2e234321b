import QuietQuic.Tokio.ReadToEnd
import QuietQuic.Tokio.Writes

/-!
# From one application to the other

One application writes a stream and the other one reads it. Each end is a connection with its driver,
in any run of its own, and the two need not run the same quinn-proto. What joins them is what QUIC
promises of a stream, and it is a premise about the two runs: what has arrived at one end is a front
of what the connection at the other end took, all of it where FIN has arrived.

* `reads_what_was_written`: reads of any size.
* `read_to_end_returns_what_was_written`: a `read_to_end`.
-/

namespace QuietQuic.Tokio

open QuietQuic.Lib QuietQuic.Proto

variable {Q R : Quinn} {id : StreamId}

/-! ## The writing end -/

section Writer

variable {log : WriteLog} {s : Sys Q}

/-- What the core took is a front of what the application wrote. -/
theorem Writing.accepted_prefix (h : Writing id log s)
    (hthrough : ∀ w ∈ log.applied.dropLast, (w.1, .done (.ok ())) ∈ s.sent) :
    log.accepted.flatMap Prod.snd <+: log.asked.flatMap Prod.snd := by
  rw [h.channel, List.flatMap_append]
  refine (h.order.whole_prefix fun w hw => ?_).trans (List.prefix_append _ _)
  exact (h.answered w (List.mem_of_mem_dropLast hw)).mp (hthrough w hw)

/-- It is all that was applied. -/
theorem Writing.accepted_eq (h : Writing id log s)
    (hthrough : ∀ w ∈ log.applied, (w.1, .done (.ok ())) ∈ s.sent) :
    log.accepted.flatMap Prod.snd = log.applied.flatMap Prod.snd :=
  h.order.whole_eq fun w hw => (h.answered w hw).mp (hthrough w hw)

end Writer

/-! ## The reading end -/

/-- What has arrived of a stream is a front of `bytes`, and all of them where FIN has arrived. -/
def Sys.Brings (S : R.OrderedReads) (id : StreamId) (bytes : List UInt8) (s : Sys R)
    (_ : Action R) : Prop :=
  (S.view s.core.conn id).arrived <+: bytes ∧
    ((S.view s.core.conn id).phase = .finArrived ∨ (S.view s.core.conn id).phase = .finRead →
      (S.view s.core.conn id).arrived = bytes)

/-- The pumps of a read see it. -/
theorem Sys.Brings.sights {S : R.OrderedReads} {bytes : List UInt8} {t : Token} {s : Sys R}
    {actions : List (Action R)} (h : Sys.Meets (Sys.Brings S id bytes) s actions) :
    ∀ x ∈ s.sights S id t actions,
      x.before.arrived <+: bytes ∧ (x.Fin → x.before.arrived = bytes) := by
  induction actions generalizing s with
  | nil => exact fun x hx => absurd hx List.not_mem_nil
  | cons a actions ih =>
    intro x hx
    rcases List.mem_append.mp hx with hx | hx
    · split at hx
      · rw [List.mem_singleton.mp hx]
        exact ⟨h.1.1, fun hfin => h.1.2 (hfin.imp_right And.left)⟩
      · exact absurd hx List.not_mem_nil
    · exact ih h.2 x hx

/-! ## Both ends -/

/-- **What one application reads is what the other one wrote.** Let the writing end run in any way in
which a blocked stream takes nothing until it is woken and every write but the last that was applied
was answered `Ok`, and the reading end in any way in which the bytes of the stream go to awaited
reads. If what has arrived is a front of what the writing end's connection took, what the reading
application received is a front of what the writing one wrote, in the order it was written, unless a
read was answered with an error. -/
theorem reads_what_was_written (B : R.ByteStream) (writerHandle readerHandle : ConnectionHandle)
    (c : Q.Conn) (d : R.Conn) (id : StreamId) (writes : List (Action Q)) (reads : List (Action R))
    (hblocked : StaysBlocked id .empty (Sys.start writerHandle (.new c)) writes)
    (hawaited : Sys.Meets (Sys.ReadsAwaited id) (Sys.start readerHandle (.new d)) reads)
    (hnew : B.consumed d id = []) :
    let writer := (Sys.start writerHandle (.new c)).run writes
    let log := WriteLog.empty.enterAll id (Sys.start writerHandle (.new c)) writes
    let reader := (Sys.start readerHandle (.new d)).run reads
    (∀ w ∈ log.applied.dropLast, (w.1, .done (.ok ())) ∈ writer.sent) →
    B.content reader.core.conn id <+: log.accepted.flatMap Prod.snd →
    reader.ReadErred id ∨ reader.receivedBytes id <+: log.asked.flatMap Prod.snd := by
  intro writer log reader hthrough hwire
  have hwriting : Writing id log writer := (Writing.start id writerHandle (.new c)).run hblocked
  refine (Sys.flow_run B readerHandle (.new d) id hawaited).imp_right fun hflow => ?_
  have hbase : B.consumed (ConnState.new d).conn id = [] := hnew
  calc reader.receivedBytes id
      <+: B.content reader.core.conn id := by simpa [hbase] using hflow.front
    _ <+: log.accepted.flatMap Prod.snd := hwire
    _ <+: log.asked.flatMap Prod.snd := hwriting.accepted_prefix hthrough

/-- Two writes of a stream, with credit for both. -/
def twoWrites (id : StreamId) : List (Action Mini) :=
  [.handleEvent (.maxData 3), .issue (.write id [1, 2] 7), .execute 0, .receive 7,
    .issue (.write id [3] 8), .execute 0]

/-- Nothing blocks. -/
theorem twoWrites_staysBlocked : ∀ id ∈ ([0, 1] : List StreamId),
    StaysBlocked id .empty Sys.miniStart (twoWrites id) := by
  have hfree : ∀ {log : WriteLog} {P : Prop}, log.held = false → log.held = true → P :=
    fun hfree hheld => absurd (hfree.symm.trans hheld) (by simp)
  simp only [List.forall_mem_cons]
  refine ⟨?_, ?_, by simp⟩
  all_goals exact ⟨hfree rfl, hfree rfl, hfree rfl, hfree rfl, hfree rfl, hfree rfl, trivial⟩

/-- Both are taken, and answered. -/
theorem twoWrites_taken : ∀ id ∈ ([0, 1] : List StreamId),
    (WriteLog.empty.enterAll id Sys.miniStart (twoWrites id)).applied = [(7, [1, 2]), (8, [3])] ∧
      (WriteLog.empty.enterAll id Sys.miniStart (twoWrites id)).accepted =
        [(7, [1, 2]), (8, [3])] ∧
      (Sys.miniStart.run (twoWrites id)).sent = [(7, .done (.ok ())), (8, .done (.ok ()))] := by
  simp only [List.forall_mem_cons]
  exact ⟨⟨rfl, rfl, rfl⟩, ⟨rfl, rfl, rfl⟩, by simp⟩

theorem twoWrites_through {id : StreamId} (hid : id ∈ ([0, 1] : List StreamId)) :
    ∀ w ∈ (WriteLog.empty.enterAll id Sys.miniStart (twoWrites id)).applied,
      (w.1, .done (.ok ())) ∈ (Sys.miniStart.run (twoWrites id)).sent := by
  obtain ⟨happlied, -, hsent⟩ := twoWrites_taken id hid
  rw [happlied, hsent]
  simp

theorem reads_what_was_written_two :
    StaysBlocked 1 .empty Sys.miniStart (twoWrites 1) ∧
      Sys.Meets (Sys.ReadsAwaited 1) Sys.miniStart Sys.readThenArrival ∧
      (Sys.miniStart.run Sys.readThenArrival).receivedBytes 1 = [1, 2] ∧
      (Sys.miniStart.run Sys.readThenArrival).receivedBytes 1 <+:
        (WriteLog.empty.enterAll 1 Sys.miniStart (twoWrites 1)).asked.flatMap Prod.snd := by
  have hblocked := twoWrites_staysBlocked 1 (by simp)
  refine ⟨hblocked, Sys.readThenArrival_awaited, by decide, ?_⟩
  have hwire : Mini.byteStream.content (Sys.miniStart.run Sys.readThenArrival).core.conn 1 <+:
      (WriteLog.empty.enterAll 1 Sys.miniStart (twoWrites 1)).accepted.flatMap Prod.snd := by
    decide
  exact (reads_what_was_written (Q := Mini) Mini.byteStream ⟨0, 1⟩ ⟨0, 1⟩
    (MiniConn.new ⟨.v4 0, 0⟩ 0) (MiniConn.new ⟨.v4 0, 0⟩ 0) 1 (twoWrites 1) Sys.readThenArrival
    hblocked Sys.readThenArrival_awaited rfl
    (fun w hw => twoWrites_through (by simp) w (List.mem_of_mem_dropLast hw)) hwire).resolve_left
      Sys.readThenArrival_answered

/-- **What a `read_to_end` returns is what the other application wrote.** Let the writing end run in
any way in which a blocked stream takes nothing until it is woken, with every write that was applied
answered `Ok`, and the reading end in any way in which the read is neither cancelled nor stopped. If
at every point of the read what has arrived is a front of what the writing end's connection took, and
all of it where FIN has arrived, then `Ok` brings all that was written, behind what had been read
before; `ReadLimitExceeded` is the answer only where that exceeds the limit; and where it does not, it
is returned as soon as a pump sees FIN. -/
theorem read_to_end_returns_what_was_written (S : R.OrderedReads)
    (writerHandle readerHandle : ConnectionHandle) (c : Q.Conn) (d : R.Conn) (id : StreamId)
    (writes : List (Action Q)) (before actions : List (Action R)) (limit : UInt64) (t : Token)
    (now : Instant) (rest : List Cmd)
    (hblocked : StaysBlocked id .empty (Sys.start writerHandle (.new c)) writes)
    (hcmds : ((Sys.start readerHandle (.new d)).run before).commands =
      .readToEnd id limit t :: rest)
    (hwait : t ∈ ((Sys.start readerHandle (.new d)).run before).waiting)
    (hleft : Sys.Meets (Sys.LeftAlone id t) ((Sys.start readerHandle (.new d)).run before)
      (.execute now :: actions)) :
    let writer := (Sys.start writerHandle (.new c)).run writes
    let log := WriteLog.empty.enterAll id (Sys.start writerHandle (.new c)) writes
    let start := (Sys.start readerHandle (.new d)).run before
    let reader := start.run (.execute now :: actions)
    let written := (log.applied.flatMap Prod.snd).drop (S.view start.core.conn id).read.length
    (∀ w ∈ log.applied, (w.1, .done (.ok ())) ∈ writer.sent) →
    Sys.Meets (Sys.Brings S id (log.accepted.flatMap Prod.snd)) start (.execute now :: actions) →
    (∀ b, (t, .bytes (.ok b)) ∈ reader.sent → b = written ∧ b.length ≤ limit.toNat) ∧
    ((t, .bytes (.error (.readLimitExceeded limit.toNat))) ∈ reader.sent →
      limit.toNat < written.length) ∧
    ((∃ x ∈ start.sights S id t (.execute now :: actions), x.Fin) →
      written.length ≤ limit.toNat → (t, .bytes (.ok written)) ∈ reader.sent) := by
  intro writer log start reader written hthrough hwire
  have hwriting : Writing id log writer := (Writing.start id writerHandle (.new c)).run hblocked
  have hreading := ReadingToEnd.reached S readerHandle d before hcmds hwait hleft
  rw [hwriting.accepted_eq hthrough] at hwire
  have hsights := Sys.Brings.sights (t := t) hwire
  have hall : ∀ x ∈ start.sights S id t (.execute now :: actions), x.Fin →
      x.content (S.view start.core.conn id) = written := by
    intro x hx hfin
    rw [Sight.content, (hsights x hx).2 hfin]
  refine ⟨fun b hb => ?_, fun hover => ?_, fun hend hfits => ?_⟩
  · obtain ⟨x, hx, hanswer⟩ := hreading.bytes_iff.mp hb
    obtain ⟨hfin, hcontent, hlen⟩ := Sight.answer_ok.mp hanswer
    exact ⟨hcontent.symm.trans (hall x hx hfin), hlen⟩
  · obtain ⟨x, hx, hanswer⟩ := hreading.bytes_iff.mp hover
    refine (Sight.answer_exceeded.mp hanswer).2.trans_le ?_
    exact ((hsights x hx).1.drop _).length_le
  · obtain ⟨x, hx, hfin⟩ := hend
    exact hreading.bytes_iff.mpr ⟨x, hx, Sight.answer_ok.mpr ⟨hfin, hall x hx hfin, hfits⟩⟩

theorem read_to_end_returns_what_was_written_three :
    StaysBlocked 0 .empty Sys.miniStart (twoWrites 0) ∧
      (inboxStart.run twoBytesThenAsk).commands = [.readToEnd 0 3 7] ∧
      7 ∈ (inboxStart.run twoBytesThenAsk).waiting ∧
      Sys.Meets (Sys.LeftAlone 0 7) (inboxStart.run twoBytesThenAsk)
        (.execute 0 :: lastByteWithFin) ∧
      (7, .bytes (.ok [1, 2, 3])) ∈
        ((inboxStart.run twoBytesThenAsk).run (.execute 0 :: lastByteWithFin)).sent := by
  have hblocked := twoWrites_staysBlocked 0 (by simp)
  have hcmds : (inboxStart.run twoBytesThenAsk).commands = [.readToEnd 0 3 7] := rfl
  have hwait : 7 ∈ (inboxStart.run twoBytesThenAsk).waiting := by decide
  obtain ⟨happlied, haccepted, -⟩ := twoWrites_taken 0 (by simp)
  have hwire : Sys.Meets (Sys.Brings Inbox.orderedReads 0
      ((WriteLog.empty.enterAll 0 Sys.miniStart (twoWrites 0)).accepted.flatMap Prod.snd))
      (inboxStart.run twoBytesThenAsk) (.execute 0 :: lastByteWithFin) := by
    rw [haccepted]
    refine ⟨⟨?_, ?_⟩, ⟨?_, ?_⟩, ⟨?_, ?_⟩, ⟨?_, ?_⟩, ⟨?_, ?_⟩, trivial⟩
    all_goals decide
  have hreads := read_to_end_returns_what_was_written (Q := Mini) Inbox.orderedReads
    ⟨0, 1⟩ ⟨0, 1⟩ (MiniConn.new ⟨.v4 0, 0⟩ 0) .new 0 (twoWrites 0) twoBytesThenAsk lastByteWithFin
    3 7 0 [] hblocked hcmds hwait threeBytes_leftAlone (twoWrites_through (by simp)) hwire
  have hwritten : ((WriteLog.empty.enterAll 0 Sys.miniStart (twoWrites 0)).applied.flatMap
      Prod.snd).drop (Inbox.orderedReads.view (inboxStart.run twoBytesThenAsk).core.conn 0).read.length
        = [1, 2, 3] := by
    rw [happlied]
    rfl
  have hreturned := hreads.2.2 ⟨⟨⟨[1, 2], [3], .finArrived⟩, false, ⟨[1, 2, 3], [], .finRead⟩⟩, ?_,
    Or.inl rfl⟩
  · refine ⟨hblocked, hcmds, hwait, threeBytes_leftAlone, ?_⟩
    rw [← hwritten]
    exact hreturned (hwritten ▸ by decide)
  show _ ∈ (inboxStart.run twoBytesThenAsk).sights Inbox.orderedReads 0 7
    (.execute 0 :: lastByteWithFin)
  rw [threeBytes_sights]
  simp

end QuietQuic.Tokio
