import QuietQuic.Proto.SendFins

/-!
# Runs of one connection

What a run of operations on a `ConnState` does to the quinn-proto connection underneath: each
operation makes the calls its own code makes, and between them the endpoint drives the connection
with datagrams, timers and transmits (`ConnOp.Lawful`). A law about quinn-proto's calls then speaks
about whole runs.

* `op_steps`: the calls of one operation, by label.
* `runOps_inv`, `observe_inv`: the invariant rules for a run, and for one with a log kept beside it.
* `Driven`: one state comes from another through lawful operations of a kind.
-/

namespace QuietQuic.Proto

open QuietQuic.Lib

variable {Q : Quinn}

/-! ## The calls of an operation -/

/-- The calls a caller's operation may make on the quinn-proto connection. -/
def ConnCall.Makes : ConnCall → Q.ConnLabel → Prop
  | .openBi, l => l = .openBi
  | .acceptBi, l => ∃ id, l = .acceptBi id
  | .streamRead id _, l => ∃ bytes, l = .read id bytes
  | .streamWrite id _, l => ∃ answer, l = .write id answer
  | .streamFinish id, l => ∃ ok, l = .finish id ok
  | .streamReset id _, l => ∃ ok, l = .reset id ok
  | .streamStop id _, l => l = .stop id
  | .serviceStreams, l => ConnState.IsService l
  | .close .., l => l = .close
  | .forgetStream _, _ | .forgetRecv _, _ | .forgetSend _, _ | .sendFin _, _ | .isDrained, _
  | .isDirty, _ | .clearDirty, _ => False

/-- The calls the endpoint makes past the `ConnState`. -/
def Quinn.IsDrive : Q.ConnLabel → Prop
  | .endpointEvent _ | .handleEvent _ | .handleTimeout _ | .transmit _ | .close => True
  | _ => False

namespace ConnOp

/-- The calls an operation may make. -/
def Makes : ConnOp Q → Q.ConnLabel → Prop
  | .call c, l => c.Makes l
  | .drive _, l => Quinn.IsDrive l

/-- The endpoint drives the connection through quinn-proto's calls, and in no other way. -/
def Lawful : ConnOp Q → Prop
  | .call _ => True
  | .drive f => ∀ c, Q.ConnSteps Quinn.IsDrive c (f c)

/-- A datagram is handed to the connection. -/
theorem lawful_handleEvent (ev : Q.ConnEvent) :
    (ConnOp.drive (Q := Q) fun c => Q.connHandleEvent c ev).Lawful :=
  fun c => .single (l := .handleEvent ev) trivial (.handleEvent c ev)

end ConnOp

namespace ConnState

theorem call_steps (s : ConnState Q) (c : ConnCall) :
    Q.ConnSteps c.Makes s.conn (s.call c).2.conn := by
  cases c with
  | openBi => exact s.openBi_steps
  | acceptBi => exact s.acceptBi_steps
  | streamRead id len => exact s.streamRead_steps id len
  | streamWrite id buf => exact s.streamWrite_steps id buf
  | streamFinish id => exact s.streamFinish_steps id
  | streamReset id code => exact s.streamReset_steps id code
  | streamStop id code => exact s.streamStop_steps id code
  | serviceStreams => exact s.serviceStreams_steps
  | close now code reason => exact .single rfl (.close s.conn now code reason)
  | forgetStream | forgetRecv | forgetSend | sendFin | isDrained | isDirty | clearDirty =>
    exact .refl

/-- **The calls of one operation.** -/
theorem op_steps (s : ConnState Q) {o : ConnOp Q} (h : o.Lawful) :
    Q.ConnSteps o.Makes s.conn (s.op o).2.conn := by
  cases o with
  | call c => exact s.call_steps c
  | drive f => exact h s.conn

/-! ## Runs -/

theorem runOps_append (s : ConnState Q) (before after : List (ConnOp Q)) :
    s.runOps (before ++ after) = (s.runOps before).runOps after :=
  List.foldl_append

/-- **The invariant rule.** -/
theorem runOps_inv {I : ConnState Q → Prop} {ops : List (ConnOp Q)}
    (hstep : ∀ o ∈ ops, ∀ s, I s → I (s.op o).2) {s : ConnState Q} (h : I s) : I (s.runOps ops) := by
  induction ops generalizing s with
  | nil => exact h
  | cons o ops ih =>
    exact ih (fun o' ho' => hstep o' (List.mem_cons_of_mem o ho')) (hstep o (by simp) s h)

/-- `s'` comes from `s` through lawful operations in `P`. -/
def Driven (P : ConnOp Q → Prop) (s s' : ConnState Q) : Prop :=
  ∃ ops, (∀ o ∈ ops, o.Lawful ∧ P o) ∧ s' = s.runOps ops

namespace Driven

variable {P R : ConnOp Q → Prop} {s s' s'' : ConnState Q}

theorem refl : Driven P s s := ⟨[], by simp, rfl⟩

theorem op {o : ConnOp Q} (ho : o.Lawful) (h : P o) : Driven P s (s.op o).2 :=
  ⟨[o], by simpa using ⟨ho, h⟩, rfl⟩

theorem call {c : ConnCall} (h : P (.call c)) : Driven P s (s.call c).2 :=
  op (o := .call c) trivial h

theorem trans (h : Driven P s s') (h' : Driven P s' s'') : Driven P s s'' := by
  obtain ⟨ops, hops, rfl⟩ := h
  obtain ⟨ops', hops', rfl⟩ := h'
  refine ⟨ops ++ ops', fun o ho => ?_, (runOps_append s ops ops').symm⟩
  rcases List.mem_append.mp ho with ho | ho
  · exact hops o ho
  · exact hops' o ho

theorem mono (hPR : ∀ o, P o → R o) (h : Driven P s s') : Driven R s s' := by
  obtain ⟨ops, hops, rfl⟩ := h
  exact ⟨ops, fun o ho => ⟨(hops o ho).1, hPR o (hops o ho).2⟩, rfl⟩

/-- **The invariant rule.** -/
theorem keeps {I : ConnState Q → Prop} (h : Driven P s s')
    (hstep : ∀ o s, o.Lawful → P o → I s → I (s.op o).2) (hs : I s) : I s' := by
  obtain ⟨ops, hops, rfl⟩ := h
  exact runOps_inv (fun o ho s => hstep o s (hops o ho).1 (hops o ho).2) hs

/-- The calls behind them. -/
theorem steps {L : Q.ConnLabel → Prop} (h : Driven P s s')
    (hmakes : ∀ o l, P o → o.Makes l → L l) : Q.ConnSteps L s.conn s'.conn :=
  h.keeps (I := fun t => Q.ConnSteps L s.conn t.conn)
    (fun o t ho hP ht => ht.trans ((t.op_steps ho).mono fun l hl => hmakes o l hP hl)) .refl

end Driven

/-! ## Runs with a log -/

variable {γ : Type}

/-- A run, with a log that each operation is entered into before it is made. -/
def observe (enter : γ → ConnState Q → ConnOp Q → γ) (log : γ) (s : ConnState Q)
    (ops : List (ConnOp Q)) : γ × ConnState Q :=
  ops.foldl (fun p o => (enter p.1 p.2 o, (p.2.op o).2)) (log, s)

theorem observe_run (enter : γ → ConnState Q → ConnOp Q → γ) (log : γ) (s : ConnState Q)
    (ops : List (ConnOp Q)) : (observe enter log s ops).2 = s.runOps ops := by
  induction ops generalizing log s with
  | nil => rfl
  | cons o ops ih => exact ih _ _

/-- **The invariant rule with the log.** -/
theorem observe_inv {enter : γ → ConnState Q → ConnOp Q → γ} {I : γ → ConnState Q → Prop}
    {ops : List (ConnOp Q)}
    (hstep : ∀ o ∈ ops, ∀ log s, I log s → I (enter log s o) (s.op o).2)
    {log : γ} {s : ConnState Q} (h : I log s) :
    I (observe enter log s ops).1 (observe enter log s ops).2 := by
  induction ops generalizing log s with
  | nil => exact h
  | cons o ops ih =>
    exact ih (fun o' ho' => hstep o' (List.mem_cons_of_mem o ho')) (hstep o (by simp) log s h)

end ConnState

end QuietQuic.Proto
