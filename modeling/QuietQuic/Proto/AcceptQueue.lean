import QuietQuic.Proto.ConnRuns
import QuietQuic.Proto.Inbox

/-!
# The two doors of `accept_bi`

A peer-opened stream leaves quinn-proto through `service_streams`, which queues it in
`ready_accepts`, or through `accept_bi` itself when that queue is empty. What quinn-proto does on its
side is the law `AcceptOrder`.

* `serviceStreams_moves`: a pass moves streams from the front of quinn-proto's queue to the back of
  `ready_accepts`, and lists them in `opened`.
* `acceptBi_takes`: `accept_bi` takes the oldest of both.
* `accept_conserved`: along every run the streams returned, queued and inside are quinn-proto's order.
-/

namespace QuietQuic.Proto

open QuietQuic.Lib

variable {Q : Quinn}

/-- What a run has shown of the accepted streams: those `accept_bi` returned, those of them it took
from quinn-proto itself, and those the passes listed in `opened`. -/
structure AcceptLog where
  returned : List StreamId := []
  direct : List StreamId := []
  opened : List StreamId := []

namespace ConnState

/-- The stream an `accept_bi` returns. -/
def acceptedId (s : ConnState Q) : List StreamId :=
  match s.acceptBi.1 with
  | .ok (some id) => [id]
  | _ => []

/-- What an operation adds to the log. -/
def enterAccept (log : AcceptLog) (s : ConnState Q) : ConnOp Q → AcceptLog
  | .call .acceptBi =>
    { log with
      returned := log.returned ++ s.acceptedId
      direct := log.direct ++ if s.readyAccepts = [] then s.acceptedId else [] }
  | .call .serviceStreams => { log with opened := log.opened ++ s.serviceStreams.1.opened }
  | _ => log

/-- **Conservation**, from a connection of which `gone` had been accepted: the streams gone, returned,
queued and inside are quinn-proto's order, and those a pass listed or `accept_bi` took directly are
the ones that left quinn-proto. -/
structure Conserved (S : Q.AcceptOrder) (gone : List StreamId) (log : AcceptLog)
    (s : ConnState Q) : Prop where
  order : S.order s.conn = gone ++ log.returned ++ s.readyAccepts ++ S.inside s.conn
  doors : (log.opened ++ log.direct).Perm (log.returned ++ s.readyAccepts)

section Accept

variable {S : Q.AcceptOrder}

/-- Calls that accept nothing only make more streams available. -/
theorem arrives_steps {P : Q.ConnLabel → Prop} (hP : ∀ l, P l → ∀ id, l ≠ .acceptBi id)
    {c c' : Q.Conn} (h : Q.ConnSteps P c c') :
    ∃ more, S.order c' = S.order c ++ more ∧ S.inside c' = S.inside c ++ more := by
  induction h with
  | refl => exact ⟨[], by simp, by simp⟩
  | tail _ hstep ih =>
    obtain ⟨l, hl, hstep⟩ := hstep
    obtain ⟨more, horder, hinside⟩ := ih
    obtain ⟨more', horder', hinside'⟩ := S.arrives hstep (hP l hl)
    exact ⟨more ++ more', by rw [horder', horder, List.append_assoc],
      by rw [hinside', hinside, List.append_assoc]⟩

/-- What a pass has moved so far from a connection to a queue. -/
structure Moving (S : Q.AcceptOrder) (s : ConnState Q) (p : ConnState Q × ConnProgress) : Prop where
  ready : p.1.readyAccepts = s.readyAccepts ++ p.2.opened
  order : ∃ more, S.order p.1.conn = S.order s.conn ++ more ∧
    S.inside s.conn ++ more = p.2.opened ++ S.inside p.1.conn

theorem acceptLoop_moving {s : ConnState Q} {p : ConnState Q × ConnProgress} (h : Moving S s p) :
    Moving S s (acceptLoop p) := by
  refine acceptLoop_inv (I := Moving S s) ?_ ?_ h
  · rintro t pr id c ⟨hready, more, horder, hinside⟩ hacc
    obtain ⟨hfront, hsame⟩ := S.takes hacc
    refine ⟨?_, more, hsame.trans horder, ?_⟩
    · show t.readyAccepts ++ [id] = s.readyAccepts ++ (pr.opened ++ [id])
      rw [show t.readyAccepts = s.readyAccepts ++ pr.opened from hready, List.append_assoc]
    · show _ = pr.opened ++ [id] ++ S.inside c
      rw [hinside, show S.inside t.conn = id :: S.inside c from hfront]
      simp
  · rintro t pr c ⟨hready, more, horder, hinside⟩ hacc
    obtain ⟨hfront, hnone, hsame⟩ := S.empty hacc
    refine ⟨hready, more, hsame.trans horder, ?_⟩
    rw [hinside]
    exact congrArg (pr.opened ++ ·) (hfront.trans hnone.symm)

/-- Of the polled events only `Opened` moves streams. -/
theorem onPolled_moving {s : ConnState Q} (ev : QuinnEvent) {p : ConnState Q × ConnProgress}
    (h : Moving S s p) : Moving S s (onPolled ev p) := by
  have hrecord : ∀ id fact, Moving S s ((p.1.recordSendFin id fact).2, p.2) := by
    intro id fact
    refine ⟨?_, by rw [recordSendFin_conn]; exact h.order⟩
    rw [← h.ready]
    unfold recordSendFin
    split <;> rfl
  unfold onPolled
  split
  case h_3 => exact acceptLoop_moving h
  case h_6 id =>
    refine ⟨?_, ?_⟩
    · dsimp only
      split <;> exact (hrecord id .acked).ready
    · dsimp only
      split <;> exact (hrecord id .acked).order
  case h_7 id code =>
    refine ⟨?_, ?_⟩
    · dsimp only
      split <;> exact (hrecord id (.stopped code)).ready
    · dsimp only
      split <;> exact (hrecord id (.stopped code)).order
  all_goals exact ⟨h.ready, h.order⟩

/-- **A pass** moves the streams it lists from the front of quinn-proto's queue to the back of
`ready_accepts`. -/
theorem serviceStreams_moves (S : Q.AcceptOrder) (s : ConnState Q) :
    Moving S s (s.serviceStreams.2, s.serviceStreams.1) := by
  -- a poll accepts nothing itself, so it only adds to what is inside
  have hpoll : ∀ (t : ConnState Q) pr, Moving S s (t, pr) →
      Moving S s ({ t with conn := (Q.poll t.conn).2 }, pr) := by
    rintro t pr ⟨hready, more, horder, hinside⟩
    obtain ⟨more', horder', hinside'⟩ := S.arrives (.poll t.conn) (fun id => by simp)
    refine ⟨hready, more ++ more', ?_, ?_⟩
    · rw [← List.append_assoc, ← horder]
      exact horder'
    · rw [← List.append_assoc, hinside, List.append_assoc]
      exact congrArg (pr.opened ++ ·) hinside'.symm
  refine serviceStreams_inv (I := Moving S s) ?_ ?_ ⟨(List.append_nil _).symm, [], by simp, by simp⟩
  · intro t pr ev c h hev
    have hnext := hpoll t pr h
    rw [hev] at hnext
    exact onPolled_moving ev hnext
  · intro t pr c h hev
    have hnext := hpoll t pr h
    rw [hev] at hnext
    exact hnext

/-- **`accept_bi` takes the oldest stream**, of the queue or else of quinn-proto, and answers `None`
only when neither has one. -/
theorem acceptBi_takes (S : Q.AcceptOrder) (s : ConnState Q) :
    S.order s.acceptBi.2.conn = S.order s.conn ∧
      ((∃ id, s.acceptBi.1 = .ok (some id) ∧
          s.readyAccepts ++ S.inside s.conn =
            id :: (s.acceptBi.2.readyAccepts ++ S.inside s.acceptBi.2.conn) ∧
          (s.readyAccepts = [] → s.acceptBi.2.readyAccepts = []) ∧
          (s.readyAccepts ≠ [] → s.readyAccepts = id :: s.acceptBi.2.readyAccepts)) ∨
        s.acceptBi.1 = .ok none ∧ s.acceptBi.2.readyAccepts = [] ∧ s.readyAccepts = [] ∧
          S.inside s.conn = [] ∧ S.inside s.acceptBi.2.conn = []) := by
  unfold acceptBi
  split
  · rename_i id rest hready
    refine ⟨rfl, .inl ⟨id, rfl, by simp [hready], fun h => ?_, fun _ => hready⟩⟩
    exact absurd (hready.symm.trans h) (by simp)
  · rename_i hready
    cases hacc : Q.streamsAccept s.conn with
    | mk answer c =>
      cases answer with
      | none =>
        obtain ⟨hbefore, hafter, horder⟩ := S.empty hacc
        exact ⟨horder, .inr ⟨rfl, hready, hready, hbefore, hafter⟩⟩
      | some id =>
        obtain ⟨hfront, horder⟩ := S.takes hacc
        exact ⟨horder, .inl ⟨id, rfl, by simpa [hready] using hfront, fun _ => hready,
          fun h => absurd hready h⟩⟩

/-- The other operations leave the queue alone. -/
theorem op_readyAccepts (s : ConnState Q) {o : ConnOp Q} (hacc : o ≠ .call .acceptBi)
    (hservice : o ≠ .call .serviceStreams) : (s.op o).2.readyAccepts = s.readyAccepts := by
  cases o with
  | drive f => rfl
  | call c =>
    cases c with
    | acceptBi => exact absurd rfl hacc
    | serviceStreams => exact absurd rfl hservice
    | openBi =>
      show s.openBi.2.readyAccepts = _
      unfold openBi
      split <;> rfl
    | streamRead id len => exact (s.streamRead_frame id len).1
    | streamWrite id buf => exact (s.streamWrite_frame id buf).1
    | streamFinish id =>
      show (s.streamFinish id).2.readyAccepts = _
      unfold streamFinish recordSendFin
      split <;> (try rfl)
      dsimp only
      split <;> (try rfl)
      split <;> rfl
    | streamReset id code =>
      show (s.streamReset id code).2.readyAccepts = _
      unfold streamReset
      split <;> rfl
    | streamStop id code =>
      show (s.streamStop id code).2.readyAccepts = _
      unfold streamStop
      split <;> rfl
    | forgetStream | forgetRecv | forgetSend | sendFin | isDrained | isDirty | clearDirty
    | close => rfl

/-- Nor do their calls accept. -/
theorem makes_no_accept {o : ConnOp Q} (hacc : o ≠ .call .acceptBi)
    (hservice : o ≠ .call .serviceStreams) (l : Q.ConnLabel) (hl : o.Makes l) (id : Option StreamId) :
    l ≠ .acceptBi id := by
  rintro rfl
  cases o with
  | drive f => exact hl
  | call c =>
    cases c with
    | acceptBi => exact hacc rfl
    | serviceStreams => exact hservice rfl
    | _ => simp [ConnOp.Makes, ConnCall.Makes] at hl

/-- **One operation conserves the streams.** -/
theorem op_conserved {gone : List StreamId} {log : AcceptLog} {s : ConnState Q} {o : ConnOp Q}
    (ho : o.Lawful) (h : Conserved S gone log s) :
    Conserved S gone (enterAccept log s o) (s.op o).2 := by
  by_cases hacc : o = .call .acceptBi
  · subst hacc
    show Conserved S gone { log with
      returned := log.returned ++ s.acceptedId
      direct := log.direct ++ if s.readyAccepts = [] then s.acceptedId else [] } s.acceptBi.2
    obtain ⟨horder, ⟨id, hid, hfront, hdirect, hqueued⟩ | ⟨hid, hafter, hready, hin, hin'⟩⟩ :=
      s.acceptBi_takes S
    · have hret : s.acceptedId = [id] := by simp [acceptedId, hid]
      rw [hret]
      refine ⟨?_, ?_⟩
      · show S.order s.acceptBi.2.conn = gone ++ (log.returned ++ [id]) ++ s.acceptBi.2.readyAccepts ++
          S.inside s.acceptBi.2.conn
        rw [horder, h.order, List.append_assoc _ s.readyAccepts, hfront]
        simp
      · show (log.opened ++ (log.direct ++ if s.readyAccepts = [] then [id] else [])).Perm
          (log.returned ++ [id] ++ s.acceptBi.2.readyAccepts)
        by_cases hready : s.readyAccepts = []
        · have hdoors := h.doors
          rw [hready, List.append_nil] at hdoors
          rw [if_pos hready, hdirect hready, List.append_nil, ← List.append_assoc]
          exact hdoors.append_right [id]
        · have hdoors := h.doors
          rw [hqueued hready] at hdoors
          rw [if_neg hready, List.append_nil]
          simpa using hdoors
    · have hret : s.acceptedId = [] := by simp [acceptedId, hid]
      rw [hret]
      refine ⟨?_, ?_⟩
      · show S.order s.acceptBi.2.conn = gone ++ (log.returned ++ []) ++ s.acceptBi.2.readyAccepts ++
          S.inside s.acceptBi.2.conn
        rw [horder, h.order, hafter, hready, hin, hin']
        simp
      · show (log.opened ++ (log.direct ++ if s.readyAccepts = [] then [] else [])).Perm
          (log.returned ++ [] ++ s.acceptBi.2.readyAccepts)
        rw [if_pos hready, hafter, List.append_nil, List.append_nil, ← hready]
        exact h.doors
  · by_cases hservice : o = .call .serviceStreams
    · subst hservice
      obtain ⟨hready, more, horder, hinside⟩ := serviceStreams_moves S s
      dsimp only at hready horder hinside
      refine ⟨?_, ?_⟩
      · show S.order s.serviceStreams.2.conn = gone ++ log.returned ++
          s.serviceStreams.2.readyAccepts ++ S.inside s.serviceStreams.2.conn
        rw [horder, h.order, hready, List.append_assoc _ _ more, hinside]
        simp
      · show (log.opened ++ s.serviceStreams.1.opened ++ log.direct).Perm
          (log.returned ++ s.serviceStreams.2.readyAccepts)
        rw [hready, ← List.append_assoc]
        refine List.Perm.trans ?_ (h.doors.append_right _)
        rw [List.append_assoc, List.append_assoc]
        exact List.perm_append_comm.append_left _
    · have hlog : enterAccept log s o = log := by
        cases o with
        | drive f => rfl
        | call c => cases c <;> first | rfl | exact absurd rfl hacc | exact absurd rfl hservice
      obtain ⟨more, horder, hinside⟩ := arrives_steps (S := S) (makes_no_accept hacc hservice)
        (s.op_steps ho)
      refine ⟨?_, ?_⟩
      · rw [hlog, horder, hinside, h.order, s.op_readyAccepts hacc hservice]
        simp
      · rw [hlog, s.op_readyAccepts hacc hservice]
        exact h.doors

end Accept

/-- **Core accept conservation.** In every run of a connection, with quinn-proto making streams
available at any time and reporting them at any later one: at every moment the streams accepted
before the run, those `accept_bi` has returned, those in `ready_accepts` and those inside quinn-proto
are quinn-proto's order, each once; `accept_bi` fails never and answers `None` only when there is
none left; and no stream is listed in `opened` twice, or once if `accept_bi` took it directly. -/
theorem accept_conserved (S : Q.AcceptOrder) (c : Q.Conn) (ops : List (ConnOp Q))
    (hops : ∀ o ∈ ops, o.Lawful) :
    ∃ gone, S.order c = gone ++ S.inside c ∧
      ∀ before after, ops = before ++ after →
        let log := (observe enterAccept {} (new c) before).1
        let s := (new c).runOps before
        S.order s.conn = gone ++ log.returned ++ s.readyAccepts ++ S.inside s.conn ∧
        (gone ++ log.returned ++ s.readyAccepts ++ S.inside s.conn).Nodup ∧
        (∃ answer, s.acceptBi.1 = .ok answer ∧
          (answer = none → s.readyAccepts = [] ∧ S.inside s.conn = [])) ∧
        (log.opened ++ log.direct).Nodup := by
  obtain ⟨gone, hgone⟩ := S.back c
  refine ⟨gone, hgone.symm, fun before after heq => ?_⟩
  have hstart : Conserved S gone {} (new c) :=
    ⟨by simpa [new] using hgone.symm, .refl _⟩
  have hconserved : Conserved S gone (observe enterAccept {} (new c) before).1
      (observe enterAccept {} (new c) before).2 :=
    observe_inv (I := Conserved S gone)
      (fun o ho log s h => op_conserved (hops o (by simp [heq, ho])) h) hstart
  rw [observe_run] at hconserved
  have hnodup := S.distinct ((new c).runOps before).conn
  rw [hconserved.order] at hnodup
  refine ⟨hconserved.order, hnodup, ?_, ?_⟩
  · rcases (acceptBi_takes S ((new c).runOps before)).2 with
      ⟨id, hid, -⟩ | ⟨hid, -, hready, hinside, -⟩
    · exact ⟨some id, hid, fun h => absurd h (by simp)⟩
    · exact ⟨none, hid, fun _ => ⟨hready, hinside⟩⟩
  · refine hconserved.doors.nodup_iff.mpr ?_
    rw [List.append_assoc gone] at hnodup
    exact (List.nodup_append.mp (List.nodup_append.mp hnodup).1).2.1

/-- Two streams that arrive around a pass: the pass lists the first, and `accept_bi` takes the second
directly. -/
def twoDoors : List (ConnOp Inbox) :=
  [.drive fun c => c.handleEvent (.stream 4 [1] false), .call .serviceStreams,
    .drive fun c => c.handleEvent (.stream 0 [2] false), .call .acceptBi, .call .acceptBi,
    .call .serviceStreams]

theorem accept_conserved_twoDoors :
    (∀ o ∈ twoDoors, o.Lawful) ∧
      (observe enterAccept {} (new InboxConn.new : ConnState Inbox) twoDoors).1.returned = [4, 0] ∧
      (observe enterAccept {} (new InboxConn.new : ConnState Inbox) twoDoors).1.direct = [0] ∧
      (observe enterAccept {} (new InboxConn.new : ConnState Inbox) twoDoors).1.opened = [4] ∧
      ((observe enterAccept {} (new InboxConn.new : ConnState Inbox) twoDoors).1.opened ++
        (observe enterAccept {} (new InboxConn.new : ConnState Inbox) twoDoors).1.direct).Nodup := by
  have hops : ∀ o ∈ twoDoors, o.Lawful := by
    simp only [twoDoors, List.forall_mem_cons]
    exact ⟨ConnOp.lawful_handleEvent (Q := Inbox) (.stream 4 [1] false), trivial,
      ConnOp.lawful_handleEvent (Q := Inbox) (.stream 0 [2] false), trivial, trivial, trivial,
      by simp⟩
  obtain ⟨gone, -, hall⟩ := accept_conserved Inbox.acceptOrder InboxConn.new twoDoors hops
  obtain ⟨-, -, -, hnodup⟩ := hall twoDoors [] (List.append_nil _).symm
  exact ⟨hops, by decide, by decide, by decide, hnodup⟩

end ConnState

end QuietQuic.Proto
