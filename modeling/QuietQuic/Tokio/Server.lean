import QuietQuic.Proto.Step
import QuietQuic.Tokio.Parked

/-!
# The server's driver

Model of `Driver` of `src/server.rs`: which connections it surfaces, keeps parked operations for,
and sends into the accept channel. An `Act` is one thing the driver does between two waits: it
reacts to an event, delivers a queued connection when a permit is there, applies a command, or feeds
the core, which may leave the core in any state.

`accepted` is a history variable, everything sent into the channel. The watch channel that a
`Connection` learns its end from is in `Closed`, and the driver is one whose `Server` is not dropped.

* `Driver.step_cases`: what an act does to the three collections, said once.
* `Driver.accepts_in_order`: the channel gets the surfaced connections, in order, without the ones
  lost before their delivery, and the collections hold what is surfaced and not lost.
-/

namespace QuietQuic.Tokio

open QuietQuic.Lib QuietQuic.Proto

variable {Q : Quinn}

/-! ## The driver -/

/-- `Connection`, with the handle its command sender is tagged with. -/
structure Connection where
  handle : ConnectionHandle
  remote : SocketAddr
  clientId : Option String
  cmds : ConnectionHandle
  deriving DecidableEq

/-- `Driver`. -/
structure Driver (Q : Quinn) where
  core : Endpoint Q
  parked : AMap ConnectionHandle Parked
  surfaced : Finset ConnectionHandle
  pendingAccept : List Connection
  /-- Everything sent into the accept channel, oldest first. -/
  accepted : List Connection
  /-- Every reply sent, oldest first. -/
  replies : List (Token × Reply)

/-- What the driver does. -/
inductive Act (Q : Quinn) where
  /-- `on_event`. -/
  | event (e : Event)
  /-- The reserve arm gets a permit. -/
  | deliver
  /-- `on_command`. -/
  | command (ch : ConnectionHandle) (cmd : Cmd) (now : Instant)
  /-- A datagram, a timeout, or polling moves the core on. -/
  | core (ep : Endpoint Q)

namespace Driver

/-- `Driver::new`. -/
def new (core : Endpoint Q) : Driver Q where
  core := core
  parked := ∅
  surfaced := ∅
  pendingAccept := []
  accepted := []
  replies := []

/-- `surface`. -/
def surface (d : Driver Q) (ch : ConnectionHandle) : Driver Q :=
  if ch ∈ d.surfaced then d
  else
    let d := { d with surfaced := insert ch d.surfaced }
    let clientId := d.core.clientId ch
    match d.core.connections.lookup ch with
    | none => { d with surfaced := d.surfaced.erase ch }
    | some state =>
      let remote := Q.remoteAddress state.conn
      { d with
        parked := d.parked.insert ch .new
        pendingAccept := d.pendingAccept ++ [{ handle := ch, remote, clientId, cmds := ch }] }

/-- `on_lost`. -/
def onLost (d : Driver Q) (ch : ConnectionHandle) : Driver Q :=
  { d with
    replies := d.replies ++
      match d.parked.lookup ch with
      | some p => p.failAll.2
      | none => []
    parked := d.parked.erase ch
    surfaced := d.surfaced.erase ch
    pendingAccept := d.pendingAccept.filter fun conn => conn.handle ≠ ch }

/-- The parked operations and the core's state of a connection, if both are there. -/
def withState (d : Driver Q) (ch : ConnectionHandle) (f : Parked → ConnState Q → Outcome Q) :
    Driver Q :=
  match d.parked.lookup ch, d.core.connections.lookup ch with
  | some p, some state =>
    let o := f p state
    { d with
      core := { d.core with connections := d.core.connections.insert ch o.core }
      parked := d.parked.insert ch o.parked
      replies := d.replies ++ o.sent }
  | _, _ => d

/-- The parked operations of a connection alone: a finish waiter needs nothing of the core. -/
def withParked (d : Driver Q) (ch : ConnectionHandle)
    (f : Parked → Parked × List (Token × Reply)) : Driver Q :=
  match d.parked.lookup ch with
  | some p =>
    { d with parked := d.parked.insert ch (f p).1, replies := d.replies ++ (f p).2 }
  | none => d

/-- `on_event`. -/
def onEvent (d : Driver Q) (e : Event) : Driver Q :=
  match e with
  | .connected ch => d.surface ch
  | .streamFinAcked ch id => d.withParked ch fun p => p.onFinAcked id
  | .connectionLost ch _ => d.onLost ch
  | .streamOpened ch _ _ | .streamReadable ch _ | .streamWritable ch _ | .streamStopped ch _ _ =>
    d.withState ch fun p state => p.onEvent state e

/-- `on_command`. -/
def onCommand (d : Driver Q) (ch : ConnectionHandle) (cmd : Cmd) (now : Instant) : Driver Q :=
  d.withState ch fun p state => p.applyCmd state cmd now

/-- The reserve arm of `run`, with a permit. -/
def deliver (d : Driver Q) : Driver Q :=
  match d.pendingAccept with
  | [] => d
  | conn :: rest => { d with pendingAccept := rest, accepted := d.accepted ++ [conn] }

/-- One act. -/
def step (d : Driver Q) : Act Q → Driver Q
  | .event e => d.onEvent e
  | .deliver => d.deliver
  | .command ch cmd now => d.onCommand ch cmd now
  | .core ep => { d with core := ep }

/-- A run. -/
def run (d : Driver Q) (acts : List (Act Q)) : Driver Q := acts.foldl step d

/-! ## What an act does -/

/-- The act leaves the three collections as they are, up to what is parked. -/
structure Same (d d' : Driver Q) : Prop where
  surfaced : d'.surfaced = d.surfaced
  pending : d'.pendingAccept = d.pendingAccept
  accepted : d'.accepted = d.accepted
  parked : ∀ ch, ch ∈ d'.parked ↔ ch ∈ d.parked

theorem Same.refl (d : Driver Q) : Same d d := ⟨rfl, rfl, rfl, fun _ => Iff.rfl⟩

/-- Replacing the parked operations of a connection that has some adds no key. -/
theorem mem_insert_of_lookup {d : Driver Q} {ch a : ConnectionHandle} {p p' : Parked}
    (h : d.parked.lookup ch = some p) : a ∈ d.parked.insert ch p' ↔ a ∈ d.parked := by
  rw [AList.mem_insert]
  refine ⟨fun hmem => ?_, Or.inr⟩
  rcases hmem with rfl | hmem
  · exact AMap.mem_iff_lookup.mpr ⟨p, h⟩
  · exact hmem

theorem withState_same (d : Driver Q) (ch : ConnectionHandle)
    (f : Parked → ConnState Q → Outcome Q) : Same d (d.withState ch f) := by
  unfold withState
  split
  · rename_i p state hp hstate
    exact ⟨rfl, rfl, rfl, fun _ => mem_insert_of_lookup hp⟩
  · exact .refl d

theorem withParked_same (d : Driver Q) (ch : ConnectionHandle)
    (f : Parked → Parked × List (Token × Reply)) : Same d (d.withParked ch f) := by
  unfold withParked
  split
  · rename_i p hp
    exact ⟨rfl, rfl, rfl, fun _ => mem_insert_of_lookup hp⟩
  · exact .refl d

/-- What `surface` makes of a connection the core has. -/
def surfacing (d : Driver Q) (ch : ConnectionHandle) (state : ConnState Q) : Connection where
  handle := ch
  remote := Q.remoteAddress state.conn
  clientId := d.core.clientId ch
  cmds := ch

/-- The three acts that change the collections. -/
inductive Changes (d : Driver Q) : Act Q → Driver Q → Prop
  | surfaced {ch state d'} (hnew : ch ∉ d.surfaced)
      (hstate : d.core.connections.lookup ch = some state)
      (h : d' = { d with
        surfaced := insert ch d.surfaced
        parked := d.parked.insert ch .new
        pendingAccept := d.pendingAccept ++ [d.surfacing ch state] }) :
      Changes d (.event (.connected ch)) d'
  | lost {ch reason} : Changes d (.event (.connectionLost ch reason)) (d.onLost ch)
  | delivered {conn rest} (hpending : d.pendingAccept = conn :: rest) :
      Changes d .deliver { d with pendingAccept := rest, accepted := d.accepted ++ [conn] }

/-- The act is a `Connected` that surfaces nothing, or has nothing to do with the collections. -/
def Idle (d : Driver Q) : Act Q → Prop
  | .event (.connected ch) => ch ∈ d.surfaced ∨ d.core.connections.lookup ch = none
  | .event (.connectionLost _ _) => False
  | _ => True

/-- **What an act does to the collections.** -/
theorem step_cases (d : Driver Q) (a : Act Q) :
    Changes d a (d.step a) ∨ Idle d a ∧ Same d (d.step a) := by
  cases a with
  | event e =>
    cases e with
    | connected ch =>
      show Changes d _ (d.surface ch) ∨ _ ∧ Same d (d.surface ch)
      unfold surface
      split
      · rename_i hmem
        exact .inr ⟨.inl hmem, .refl d⟩
      · rename_i hnew
        dsimp only
        split
        · rename_i hnone
          refine .inr ⟨.inr hnone, ?_, rfl, rfl, fun _ => Iff.rfl⟩
          exact Finset.erase_insert hnew
        · rename_i state hstate
          exact .inl (.surfaced hnew hstate rfl)
    | connectionLost ch reason => exact .inl .lost
    | streamFinAcked ch id => exact .inr ⟨trivial, d.withParked_same ch _⟩
    | streamOpened ch id dir => exact .inr ⟨trivial, d.withState_same ch _⟩
    | streamReadable ch id => exact .inr ⟨trivial, d.withState_same ch _⟩
    | streamWritable ch id => exact .inr ⟨trivial, d.withState_same ch _⟩
    | streamStopped ch id code => exact .inr ⟨trivial, d.withState_same ch _⟩
  | deliver =>
    show Changes d _ d.deliver ∨ _ ∧ Same d d.deliver
    unfold deliver
    split
    · exact .inr ⟨trivial, .refl d⟩
    · rename_i conn rest hpending
      exact .inl (.delivered hpending)
  | command ch cmd now => exact .inr ⟨trivial, d.withState_same ch _⟩
  | core ep => exact .inr ⟨trivial, rfl, rfl, rfl, fun _ => Iff.rfl⟩

/-! ## Histories -/

/-- The acts of a run, each with the driver it found. -/
def trace (d : Driver Q) : List (Act Q) → List (Driver Q × Act Q)
  | [] => []
  | a :: acts => (d, a) :: trace (d.step a) acts

theorem trace_concat (d : Driver Q) (acts : List (Act Q)) (a : Act Q) :
    d.trace (acts ++ [a]) = d.trace acts ++ [(d.run acts, a)] := by
  induction acts generalizing d with
  | nil => rfl
  | cons b acts ih =>
    show (d, b) :: (d.step b).trace (acts ++ [a]) = _
    rw [ih]
    rfl

theorem run_concat (d : Driver Q) (acts : List (Act Q)) (a : Act Q) :
    d.run (acts ++ [a]) = (d.run acts).step a := by
  rw [run, List.foldl_append]
  rfl

/-- The handle of a `Connected`. -/
def connectedOf : Act Q → Option ConnectionHandle
  | .event (.connected ch) => some ch
  | _ => none

/-- The handle of a `Connected` handled while the core still had the connection. -/
def surfacedOf (x : Driver Q × Act Q) : Option ConnectionHandle :=
  (connectedOf x.2).filter fun ch => (x.1.core.connections.lookup ch).isSome

/-- The handles of the `Connected` events, in order, without those whose connection was already
reaped. -/
def surfacedIn (trace : List (Driver Q × Act Q)) : List ConnectionHandle :=
  trace.filterMap surfacedOf

/-- `ConnectionLost` of `ch` is handled. -/
def losesB (ch : ConnectionHandle) : Act Q → Bool
  | .event (.connectionLost c _) => c = ch
  | _ => false

/-- `ch` was lost. -/
def lostIn (trace : List (Driver Q × Act Q)) (ch : ConnectionHandle) : Bool :=
  trace.any fun x => losesB ch x.2

/-- `ch` was lost before it was sent into the channel. -/
def lostEarly (trace : List (Driver Q × Act Q)) (ch : ConnectionHandle) : Bool :=
  trace.any fun x => losesB ch x.2 && decide (ch ∉ x.1.accepted.map Connection.handle)

/-- Each handle is connected at most once, and not after it is lost. -/
structure Ordered (acts : List (Act Q)) : Prop where
  once : (acts.filterMap connectedOf).Nodup
  first : acts.Pairwise fun a b => ∀ ch, losesB ch a = true → connectedOf b ≠ some ch

theorem surfacedIn_concat (trace : List (Driver Q × Act Q)) (x : Driver Q × Act Q) :
    surfacedIn (trace ++ [x]) = surfacedIn trace ++ (surfacedOf x).toList := by
  rw [surfacedIn, List.filterMap_append]
  cases h : surfacedOf x <;> simp [surfacedIn, h]

theorem lostEarly_concat (trace : List (Driver Q × Act Q)) (d : Driver Q) (a : Act Q)
    (ch : ConnectionHandle) : lostEarly (trace ++ [(d, a)]) ch =
      (lostEarly trace ch || losesB ch a && decide (ch ∉ d.accepted.map Connection.handle)) := by
  simp [lostEarly]

theorem lostIn_concat (trace : List (Driver Q × Act Q)) (d : Driver Q) (a : Act Q)
    (ch : ConnectionHandle) : lostIn (trace ++ [(d, a)]) ch = (lostIn trace ch || losesB ch a) := by
  simp [lostIn]

/-- An act that loses nothing leaves what was lost. -/
theorem lost_quiet {a : Act Q} (h : ∀ c, losesB c a = false) (trace : List (Driver Q × Act Q))
    (d : Driver Q) (c : ConnectionHandle) : lostEarly (trace ++ [(d, a)]) c = lostEarly trace c ∧
      lostIn (trace ++ [(d, a)]) c = lostIn trace c := by
  rw [lostEarly_concat, lostIn_concat, h]
  simp

theorem losesB_iff {ch : ConnectionHandle} {a : Act Q} :
    losesB ch a = true ↔ ∃ reason, a = .event (.connectionLost ch reason) := by
  unfold losesB
  split
  · simp
  · rename_i hno
    exact ⟨fun h => absurd h (by simp), fun ⟨reason, h⟩ => absurd h (hno ch reason)⟩

theorem lostIn_of_lostEarly {trace : List (Driver Q × Act Q)} {ch : ConnectionHandle}
    (h : lostEarly trace ch = true) : lostIn trace ch = true := by
  obtain ⟨x, hx, hloses⟩ := List.any_eq_true.mp h
  exact List.any_eq_true.mpr ⟨x, hx, (Bool.and_eq_true_iff.mp hloses).1⟩

theorem trace_map_snd (d : Driver Q) (acts : List (Act Q)) :
    (d.trace acts).map Prod.snd = acts := by
  induction acts generalizing d with
  | nil => rfl
  | cons a acts ih => exact congrArg (a :: ·) (ih (d.step a))

/-- Only a `Connected` surfaces. -/
theorem surfacedIn_sublist (d : Driver Q) (acts : List (Act Q)) :
    (surfacedIn (d.trace acts)).Sublist (acts.filterMap connectedOf) := by
  induction acts generalizing d with
  | nil => exact .slnil
  | cons a acts ih =>
    have hof : surfacedOf (d, a) = none ∨ surfacedOf (d, a) = connectedOf a := by
      cases hc : connectedOf a with
      | none => exact .inl (by simp [surfacedOf, hc])
      | some ch =>
        by_cases hsome : (d.core.connections.lookup ch).isSome = true
        · exact .inr (by simp [surfacedOf, hc, hsome])
        · exact .inl (by simpa [surfacedOf, hc] using hsome)
    rw [trace, surfacedIn, List.filterMap_cons, List.filterMap_cons]
    cases hc : connectedOf a with
    | none =>
      have hnone : surfacedOf (d, a) = none := hof.elim id fun h => h.trans hc
      rw [hnone]
      exact ih (d.step a)
    | some ch =>
      rcases hof with h | h
      · rw [h]
        exact (ih (d.step a)).cons ch
      · rw [h, hc]
        exact (ih (d.step a)).cons_cons ch

namespace Ordered

variable {acts : List (Act Q)} {a : Act Q}

theorem init (h : Ordered (acts ++ [a])) : Ordered acts := by
  refine ⟨?_, (List.pairwise_append.mp h.first).1⟩
  have := h.once
  rw [List.filterMap_append] at this
  exact (List.nodup_append.mp this).1

/-- The last act's `Connected` is its handle's first, and the handle is not lost. -/
theorem fresh {ch : ConnectionHandle} (h : Ordered (acts ++ [.event (.connected ch)]))
    (d : Driver Q) : ch ∉ surfacedIn (d.trace acts) ∧ lostIn (d.trace acts) ch = false := by
  refine ⟨fun hmem => ?_, ?_⟩
  · have hnodup := h.once
    rw [List.filterMap_append] at hnodup
    exact (List.nodup_append.mp hnodup).2.2 ch ((surfacedIn_sublist d acts).subset hmem) ch
      (by simp [connectedOf]) rfl
  · by_contra hlost
    rw [Bool.not_eq_false, lostIn] at hlost
    obtain ⟨x, hx, hloses⟩ := List.any_eq_true.mp hlost
    have hmem : x.2 ∈ acts := by
      rw [← d.trace_map_snd acts]
      exact List.mem_map_of_mem hx
    exact (List.pairwise_append.mp h.first).2.2 x.2 hmem _ List.mem_cons_self ch hloses rfl

end Ordered

/-! ## Deliveries -/

/-- What a driver has delivered, and what its collections hold, after a history. -/
structure Delivered (d : Driver Q) (trace : List (Driver Q × Act Q)) : Prop where
  /-- What was sent, with what is queued behind it: the surfaced connections in the order of
  `Connected`, without those lost before their delivery. -/
  order : (d.accepted ++ d.pendingAccept).map Connection.handle =
    (surfacedIn trace).filter fun ch => !lostEarly trace ch
  /-- No connection is there twice. -/
  once : ((d.accepted ++ d.pendingAccept).map Connection.handle).Nodup
  /-- Each is as the core reported it at its `Connected`. -/
  reported : ∀ conn ∈ d.accepted ++ d.pendingAccept, ∃ x ∈ trace,
    x.2 = .event (.connected conn.handle) ∧ conn.clientId = x.1.core.clientId conn.handle ∧
      ∃ state, x.1.core.connections.lookup conn.handle = some state ∧
        conn.remote = Q.remoteAddress state.conn
  surfaced : ∀ ch, ch ∈ d.surfaced ↔ ch ∈ surfacedIn trace ∧ lostIn trace ch = false
  parked : ∀ ch, ch ∈ d.parked ↔ ch ∈ surfacedIn trace ∧ lostIn trace ch = false
  pending : ∀ conn ∈ d.pendingAccept,
    conn.handle ∈ surfacedIn trace ∧ lostIn trace conn.handle = false

namespace Delivered

variable {d : Driver Q} {trace : List (Driver Q × Act Q)}

/-- An act that changes nothing. -/
theorem idle (h : Delivered d trace) {d' : Driver Q} {a : Act Q} (hsame : Same d d')
    (hnone : surfacedOf (d, a) = none) (hloses : ∀ ch, losesB ch a = false) :
    Delivered d' (trace ++ [(d, a)]) := by
  have hsurf : surfacedIn (trace ++ [(d, a)]) = surfacedIn trace := by
    rw [surfacedIn_concat, hnone]
    exact List.append_nil _
  have hearly := fun c => (lost_quiet hloses trace d c).1
  have hlost := fun c => (lost_quiet hloses trace d c).2
  refine ⟨?_, ?_, fun conn hconn => ?_, fun ch => ?_, fun ch => ?_, fun conn hconn => ?_⟩
  · rw [hsame.accepted, hsame.pending, hsurf, h.order]
    exact List.filter_congr fun ch _ => by rw [hearly]
  · rw [hsame.accepted, hsame.pending]
    exact h.once
  · rw [hsame.accepted, hsame.pending] at hconn
    obtain ⟨x, hx, hrest⟩ := h.reported conn hconn
    exact ⟨x, List.mem_append_left _ hx, hrest⟩
  · rw [hsame.surfaced, hsurf, hlost]
    exact h.surfaced ch
  · rw [hsame.parked, hsurf, hlost]
    exact h.parked ch
  · rw [hsame.pending] at hconn
    rw [hsurf, hlost]
    exact h.pending conn hconn

/-- A `Connected` of a connection that was not surfaced before. -/
theorem surfacing (h : Delivered d trace) {d' : Driver Q} {ch : ConnectionHandle}
    {state : ConnState Q} (hstate : d.core.connections.lookup ch = some state)
    (hd : d' = { d with
      surfaced := insert ch d.surfaced
      parked := d.parked.insert ch .new
      pendingAccept := d.pendingAccept ++ [d.surfacing ch state] })
    (hnew : ch ∉ surfacedIn trace) (hlive : lostIn trace ch = false) :
    Delivered d' (trace ++ [(d, .event (.connected ch))]) := by
  have hsurf : surfacedIn (trace ++ [(d, .event (.connected ch))]) = surfacedIn trace ++ [ch] := by
    rw [surfacedIn_concat]
    simp [surfacedOf, connectedOf, hstate]
  have hquiet := lost_quiet (a := .event (.connected ch)) (fun _ => rfl) trace d
  have hearly := fun c => (hquiet c).1
  have hlost := fun c => (hquiet c).2
  have hkept : lostEarly trace ch = false := by
    by_contra hno
    rw [lostIn_of_lostEarly (by simpa using hno)] at hlive
    exact absurd hlive (by simp)
  have horder : (d.accepted ++ (d.pendingAccept ++ [d.surfacing ch state])).map Connection.handle =
      (surfacedIn trace ++ [ch]).filter fun c => !lostEarly trace c := by
    rw [← List.append_assoc, List.map_append, h.order, List.filter_append]
    simp [hkept, Driver.surfacing]
  -- the handles surfaced and not lost are the ones before, and this one
  have hmem : ∀ c, (c ∈ surfacedIn trace ++ [ch] ∧ lostIn trace c = false) ↔
      c = ch ∨ c ∈ surfacedIn trace ∧ lostIn trace c = false := by
    intro c
    constructor
    · rintro ⟨hc, hl⟩
      rcases List.mem_append.mp hc with hc | hc
      · exact .inr ⟨hc, hl⟩
      · exact .inl (List.mem_singleton.mp hc)
    · rintro (rfl | ⟨hc, hl⟩)
      · exact ⟨List.mem_append_right _ (List.mem_singleton.mpr rfl), hlive⟩
      · exact ⟨List.mem_append_left _ hc, hl⟩
  subst hd
  refine ⟨?_, ?_, fun conn hconn => ?_, fun c => ?_, fun c => ?_, fun conn hconn => ?_⟩
  · rw [hsurf, horder]
    exact List.filter_congr fun c _ => by rw [hearly]
  · show ((d.accepted ++ (d.pendingAccept ++ [d.surfacing ch state])).map Connection.handle).Nodup
    rw [← List.append_assoc, List.map_append]
    refine List.nodup_append.mpr ⟨h.once, by simp, fun c hc c' hc' => ?_⟩
    obtain rfl : c' = ch := by simpa [Driver.surfacing] using hc'
    rintro rfl
    rw [h.order] at hc
    exact hnew (List.mem_filter.mp hc).1
  · change conn ∈ d.accepted ++ (d.pendingAccept ++ [d.surfacing ch state]) at hconn
    rw [← List.append_assoc] at hconn
    rcases List.mem_append.mp hconn with hconn | hconn
    · obtain ⟨x, hx, hrest⟩ := h.reported conn hconn
      exact ⟨x, List.mem_append_left _ hx, hrest⟩
    · rw [List.mem_singleton.mp hconn]
      exact ⟨_, List.mem_append_right _ (List.mem_singleton.mpr rfl), rfl, rfl, state, hstate, rfl⟩
  · rw [hsurf, hlost, hmem, ← h.surfaced]
    exact Finset.mem_insert
  · rw [hsurf, hlost, hmem, ← h.parked]
    exact AList.mem_insert _
  · rw [hsurf, hlost, hmem]
    rcases List.mem_append.mp hconn with hconn | hconn
    · exact .inr (h.pending conn hconn)
    · rw [List.mem_singleton.mp hconn]
      exact .inl rfl

/-- By `once`, what was sent is not queued: the handles that are left are those that are not `ch` or
were sent. -/
theorem handles_kept (h : Delivered d trace) (ch : ConnectionHandle) :
    ((d.accepted ++ d.pendingAccept.filter fun conn => conn.handle ≠ ch).map Connection.handle) =
      ((d.accepted ++ d.pendingAccept).map Connection.handle).filter fun c =>
        !(decide (ch = c) && decide (c ∉ d.accepted.map Connection.handle)) := by
  have hnodup := h.once
  rw [List.map_append] at hnodup
  have hdisjoint := (List.nodup_append.mp hnodup).2.2
  rw [List.map_append, List.map_append, List.filter_append]
  congr 1
  · refine (List.filter_eq_self.mpr fun c hc => ?_).symm
    simp only [hc, not_true_eq_false, decide_false, Bool.and_false, Bool.not_false]
  · rw [List.filter_map]
    refine congrArg _ (List.filter_congr fun conn hconn => ?_)
    have hnot : conn.handle ∉ d.accepted.map Connection.handle :=
      fun hmem => hdisjoint _ hmem _ (List.mem_map_of_mem hconn) rfl
    by_cases heq : conn.handle = ch
    · subst heq
      simpa using hnot
    · simp [heq, Ne.symm heq]

/-- A `ConnectionLost`: what is queued of it goes, what was sent stays. -/
theorem losing (h : Delivered d trace) (ch : ConnectionHandle) (reason : ConnectionError) :
    Delivered (d.onLost ch) (trace ++ [(d, .event (.connectionLost ch reason))]) := by
  have hsurf : surfacedIn (trace ++ [(d, .event (.connectionLost ch reason))]) =
      surfacedIn trace := by
    rw [surfacedIn_concat]
    simp [surfacedOf, connectedOf]
  have hearly : ∀ c, lostEarly (trace ++ [(d, .event (.connectionLost ch reason))]) c =
      (lostEarly trace c || decide (ch = c) && decide (c ∉ d.accepted.map Connection.handle)) := by
    intro c
    rw [lostEarly_concat]
    rfl
  have hlost : ∀ c, lostIn (trace ++ [(d, .event (.connectionLost ch reason))]) c = false ↔
      c ≠ ch ∧ lostIn trace c = false := by
    intro c
    rw [lostIn_concat, Bool.or_eq_false_iff, losesB, decide_eq_false_iff_not, and_comm]
    exact and_congr_left' ne_comm
  have hgone : ∀ c, (c ∈ surfacedIn trace ∧ c ≠ ch ∧ lostIn trace c = false) ↔
      c ≠ ch ∧ c ∈ surfacedIn trace ∧ lostIn trace c = false := fun c => and_left_comm
  have hkeep := h.handles_kept ch
  refine ⟨?_, ?_, fun conn hconn => ?_, fun c => ?_, fun c => ?_, fun conn hconn => ?_⟩
  · show ((d.accepted ++ d.pendingAccept.filter fun conn => conn.handle ≠ ch).map
      Connection.handle) = _
    rw [hkeep, h.order, hsurf, List.filter_filter]
    refine List.filter_congr fun c _ => ?_
    rw [hearly, Bool.not_or, Bool.and_comm]
  · show ((d.accepted ++ d.pendingAccept.filter fun conn => conn.handle ≠ ch).map
      Connection.handle).Nodup
    rw [hkeep]
    exact h.once.filter _
  · have hmem : conn ∈ d.accepted ++ d.pendingAccept := by
      rcases List.mem_append.mp hconn with hconn | hconn
      · exact List.mem_append_left _ hconn
      · exact List.mem_append_right _ (List.mem_filter.mp hconn).1
    obtain ⟨x, hx, hrest⟩ := h.reported conn hmem
    exact ⟨x, List.mem_append_left _ hx, hrest⟩
  · rw [hsurf, hlost, hgone, ← h.surfaced]
    exact Finset.mem_erase
  · rw [hsurf, hlost, hgone, ← h.parked]
    exact AList.mem_erase
  · obtain ⟨hconn, hne⟩ := List.mem_filter.mp hconn
    rw [hsurf, hlost, hgone]
    exact ⟨by simpa using hne, h.pending conn hconn⟩

/-- A delivery. -/
theorem delivering (h : Delivered d trace) {conn : Connection} {rest : List Connection}
    (hpending : d.pendingAccept = conn :: rest) :
    Delivered { d with pendingAccept := rest, accepted := d.accepted ++ [conn] }
      (trace ++ [(d, .deliver)]) := by
  have hsurf : surfacedIn (trace ++ [(d, .deliver)]) = surfacedIn trace := by
    rw [surfacedIn_concat]
    simp [surfacedOf, connectedOf]
  have hquiet := lost_quiet (a := .deliver) (fun _ => rfl) trace d
  have hearly := fun c => (hquiet c).1
  have hlost := fun c => (hquiet c).2
  have hall : (d.accepted ++ [conn]) ++ rest = d.accepted ++ d.pendingAccept := by
    rw [hpending, List.append_assoc]
    rfl
  refine ⟨?_, ?_, fun conn' hconn => ?_, fun c => ?_, fun c => ?_, fun conn' hconn => ?_⟩
  · show (((d.accepted ++ [conn]) ++ rest).map Connection.handle) = _
    rw [hall, hsurf, h.order]
    exact List.filter_congr fun c _ => by rw [hearly]
  · show (((d.accepted ++ [conn]) ++ rest).map Connection.handle).Nodup
    rw [hall]
    exact h.once
  · change conn' ∈ (d.accepted ++ [conn]) ++ rest at hconn
    rw [hall] at hconn
    obtain ⟨x, hx, hrest⟩ := h.reported conn' hconn
    exact ⟨x, List.mem_append_left _ hx, hrest⟩
  · rw [hsurf, hlost]
    exact h.surfaced c
  · rw [hsurf, hlost]
    exact h.parked c
  · rw [hsurf, hlost]
    refine h.pending conn' ?_
    rw [hpending]
    exact List.mem_cons_of_mem _ hconn

end Delivered

/-- **Accept delivery.** After every run in which each handle is connected at most once, and not
after it was lost: the channel got the surfaced connections in the order of `Connected`, each once
and as the core reported it, without those lost before their delivery, up to the ones still queued.
`parked` and `surfaced` hold the handles surfaced and not lost, and the queue only such. -/
theorem accepts_in_order (core : Endpoint Q) (acts : List (Act Q)) (h : Ordered acts) :
    Delivered ((new core).run acts) ((new core).trace acts) := by
  induction acts using List.reverseRecOn with
  | nil =>
    refine ⟨rfl, List.nodup_nil, by simp [new, run], ?_, ?_, by simp [new, run]⟩
    · simp [new, run, trace, surfacedIn]
    · simp [new, run, trace, surfacedIn]
  | append_singleton acts a ih =>
    have hprev := ih h.init
    rw [run_concat, trace_concat]
    generalize hd : (new core).run acts = d at hprev
    rcases d.step_cases a with hchange | ⟨hidle, hsame⟩
    · generalize d.step a = d' at hchange
      cases hchange with
      | surfaced hnew hstate heq =>
        obtain ⟨hfresh, hlive⟩ := h.fresh (new core)
        exact hprev.surfacing hstate heq hfresh hlive
      | @lost ch reason => exact hprev.losing ch reason
      | delivered hpending => exact hprev.delivering hpending
    · refine hprev.idle hsame ?_ ?_
      · cases hof : connectedOf a with
        | none => simp [surfacedOf, hof]
        | some ch =>
          have ha : a = .event (.connected ch) := by
            unfold connectedOf at hof
            split at hof
            · rw [Option.some.inj hof]
            · exact absurd hof (by simp)
          subst ha
          rcases hidle with hmem | hnone
          · exact absurd ((hprev.surfaced ch).mp hmem).1 (h.fresh (new core)).1
          · simp [surfacedOf, connectedOf, hnone]
      · intro ch
        by_contra hloses
        obtain ⟨reason, rfl⟩ := losesB_iff.mp (by simpa using hloses)
        exact hidle

/-- A server with two connections. -/
def twoConnections : Endpoint Mini :=
  { Endpoint.miniServer with
    connections := (AList.insert ⟨0, 1⟩ (.new (MiniConn.new ⟨.v4 0, 0⟩ 0)) ∅).insert ⟨1, 2⟩
      (.new (MiniConn.new ⟨.v4 1, 0⟩ 0))
    clientIds := (AList.insert ⟨0, 1⟩ "alice" ∅).insert ⟨1, 2⟩ "bob" }

/-- Both connect, and a third whose connection is already gone; the second is lost before there is
a permit for it. -/
def lostInQueue : List (Act Mini) :=
  [.event (.connected ⟨0, 1⟩), .event (.connected ⟨1, 2⟩), .event (.connected ⟨2, 3⟩), .deliver,
    .event (.connectionLost ⟨1, 2⟩ .timedOut), .deliver]

theorem accepts_in_order_lost :
    ((new twoConnections).run lostInQueue).accepted =
        [{ handle := ⟨0, 1⟩, remote := ⟨.v4 0, 0⟩, clientId := some "alice", cmds := ⟨0, 1⟩ }] ∧
      Delivered ((new twoConnections).run lostInQueue)
        ((new twoConnections).trace lostInQueue) := by
  refine ⟨by decide, accepts_in_order twoConnections lostInQueue ⟨by decide, ?_⟩⟩
  simp [lostInQueue, connectedOf, losesB]

end Driver

end QuietQuic.Tokio
