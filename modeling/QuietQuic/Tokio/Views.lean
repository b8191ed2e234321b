import QuietQuic.Tokio.Passes
import QuietQuic.Tokio.Pump
import QuietQuic.Tokio.Replies

/-!
# One connection of a driver in its loop

`Loop.view` is what the loop has of one connection, as a `Sys`: the driver's queue of commands, its
replies and the application's receivers are shared by all connections, and each has its own part.

* `Operates.view`, `Operates.view_of_ne`: an operation of the driver on one connection, in the views.
* `Accounted.run`: every channel is in the queue, parked with its own connection, or answered, in
  the view of its connection and in no other, after any moves.
-/

namespace QuietQuic.Tokio

open QuietQuic.Lib QuietQuic.Proto

variable {Q : Quinn} {D : Type} [Drives Q D] {H : KeyedHash}

/-! ## The view -/

/-- The command, if it is of the connection. -/
def ofConn (ch : ConnectionHandle) (x : ConnectionHandle × Cmd) : Option Cmd :=
  if x.1 = ch then some x.2 else none

@[simp] theorem ofConn_self (ch : ConnectionHandle) (cmd : Cmd) :
    ofConn ch (ch, cmd) = some cmd := if_pos rfl

theorem ofConn_of_ne {ch : ConnectionHandle} {x : ConnectionHandle × Cmd} (h : x.1 ≠ ch) :
    ofConn ch x = none := if_neg h

theorem ofConn_eq_some_iff {ch : ConnectionHandle} {x : ConnectionHandle × Cmd} {cmd : Cmd} :
    ofConn ch x = some cmd ↔ x = (ch, cmd) := by
  unfold ofConn
  split
  · rename_i hch
    rw [Option.some.injEq, Prod.ext_iff]
    exact ⟨fun h => ⟨hch, h⟩, fun h => h.2⟩
  · rename_i hch
    exact ⟨fun h => absurd h (by simp), fun h => absurd (congrArg Prod.fst h) hch⟩

namespace Loop

/-- The connection of a channel. -/
def owner (l : Loop D) (t : Token) : Option ConnectionHandle := (l.issued.lookup t).map Prod.fst

/-- The slot of a channel, where it is of the connection. -/
def slotAt (l : Loop D) (ch : ConnectionHandle) (t : Token) : Option Slot :=
  ((l.issued.lookup t).bind (ofConn ch)).bind Cmd.slot

/-- What the loop has of one connection, with the state of it and the streams it has accepted. -/
def view (l : Loop D) (ch : ConnectionHandle) (core : ConnState Q) (yielded : List StreamId) :
    Sys Q where
  handle := ch
  core := core
  parked := Drives.parked l.driver ch
  commands := l.commands.filterMap (ofConn ch)
  events := naming ch l.core.events
  issued := AMap.filterMap (ofConn ch) l.issued
  waiting := l.waiting.filter fun t => l.owner t = some ch
  sent := l.answers.filter fun x => l.owner x.1 = some ch
  received := l.received.filter fun x => l.owner x.1 = some ch
  yielded := yielded

section View

variable (l : Loop D) (ch : ConnectionHandle) (core : ConnState Q) (yielded : List StreamId)

theorem view_lookup (t : Token) (cmd : Cmd) :
    (l.view ch core yielded).issued.lookup t = some cmd ↔ l.issued.lookup t = some (ch, cmd) := by
  show (AMap.filterMap (ofConn ch) l.issued).lookup t = some cmd ↔ _
  simp only [AMap.lookup_filterMap, Option.bind_eq_some_iff, ofConn_eq_some_iff,
    exists_eq_right]

theorem view_slotOf : (l.view ch core yielded).slotOf = l.slotAt ch := by
  funext t
  show ((AMap.filterMap (ofConn ch) l.issued).lookup t).bind Cmd.slot = _
  rw [AMap.lookup_filterMap]
  rfl

variable {l ch}

theorem owner_eq_some_iff {t : Token} :
    l.owner t = some ch ↔ ∃ cmd, l.issued.lookup t = some (ch, cmd) := by
  simp [owner]

theorem slotAt_eq_some_iff {t : Token} {σ : Slot} :
    l.slotAt ch t = some σ ↔ l.slotOf t = some (ch, σ) := by
  unfold slotAt slotOf
  cases hissued : l.issued.lookup t with
  | none => simp
  | some x =>
    obtain ⟨a, cmd⟩ := x
    by_cases ha : a = ch
    · subst ha
      simp
    · simp [ofConn_of_ne (x := (a, cmd)) ha, ha]

theorem owner_of_slotAt {t : Token} {σ : Slot} (h : l.slotAt ch t = some σ) :
    l.owner t = some ch := by
  obtain ⟨x, hx, hslot⟩ := Option.bind_eq_some_iff.mp (slotAt_eq_some_iff.mp h)
  obtain ⟨σ', -, heq⟩ := Option.map_eq_some_iff.mp hslot
  rw [owner, hx]
  exact congrArg some (congrArg Prod.fst heq)

/-- A stream handle is borrowed in the loop when it is in its connection. -/
theorem view_borrowed (cmd : Cmd) :
    (l.view ch core yielded).borrowed cmd = l.borrowed ch cmd := by
  have hwait : ∀ σ, (∃ t ∈ (l.view ch core yielded).waiting,
      (l.view ch core yielded).slotOf t = some σ) ↔ ∃ t ∈ l.waiting, l.slotOf t = some (ch, σ) := by
    intro σ
    rw [view_slotOf]
    refine exists_congr fun t => ?_
    rw [slotAt_eq_some_iff]
    refine and_congr_left fun hslot => ?_
    show t ∈ l.waiting.filter _ ↔ _
    rw [Finset.mem_filter]
    exact and_iff_left (owner_of_slotAt (slotAt_eq_some_iff.mpr hslot))
  unfold Sys.borrowed borrowed
  cases hslot : cmd.slot with
  | none => rfl
  | some σ =>
    cases σ with
    | read id => exact decide_eq_decide.mpr (hwait (.read id))
    | write id => exact decide_eq_decide.mpr (hwait (.write id))
    | accept => rfl
    | fin id => rfl

/-- The view does not see what else the loop does. -/
theorem view_eq {m : Loop D} (hparked : Drives.parked m.driver ch = Drives.parked l.driver ch)
    (hcommands : m.commands.filterMap (ofConn ch) = l.commands.filterMap (ofConn ch))
    (hissued : m.issued = l.issued) (hwaiting : m.waiting = l.waiting)
    (hanswers : m.answers.filter (fun x => l.owner x.1 = some ch) =
      l.answers.filter fun x => l.owner x.1 = some ch)
    (hreceived : m.received = l.received) (core' : ConnState Q) (yielded' : List StreamId) :
    m.view ch core' yielded' =
      { l.view ch core yielded with
        core := core'
        events := naming ch m.core.events
        yielded := yielded' } := by
  have howner : m.owner = l.owner := by
    funext t
    rw [owner, hissued]
    rfl
  simp only [view, hparked, hcommands, hissued, hwaiting, hreceived, howner, hanswers]

end View

/-- An operation of the driver on one connection leaves the others alone. -/
structure Operates (l : Loop D) (c : ConnectionHandle) (p' : Parked) (new : List (Token × Reply))
    (l' : Loop D) : Prop where
  parked : Drives.parked l'.driver = Function.update (Drives.parked l.driver) c p'
  commands : ∀ ch, ch ≠ c → l'.commands.filterMap (ofConn ch) = l.commands.filterMap (ofConn ch)
  answers : l'.answers = l.answers ++ new
  issued : l'.issued = l.issued
  waiting : l'.waiting = l.waiting
  received : l'.received = l.received
  fits : ∀ x ∈ new, ∃ cmd, l.issued.lookup x.1 = some (c, cmd) ∧ x.2.Fits cmd

namespace Operates

variable {l l' : Loop D} {c : ConnectionHandle} {p' : Parked} {new : List (Token × Reply)}

theorem owner (h : Operates l c p' new l') : l'.owner = l.owner := by
  funext t
  rw [Loop.owner, h.issued]
  rfl

theorem slotAt (h : Operates l c p' new l') : l'.slotAt = l.slotAt := by
  funext ch t
  rw [Loop.slotAt, h.issued]
  rfl

theorem owned (h : Operates l c p' new l') : ∀ x ∈ new, l.owner x.1 = some c := by
  intro x hx
  obtain ⟨cmd, hcmd, -⟩ := h.fits x hx
  exact owner_eq_some_iff.mpr ⟨cmd, hcmd⟩

/-- The connection sees the operation. -/
theorem view (h : Operates l c p' new l') (core core' : ConnState Q)
    (yielded yielded' : List StreamId) :
    l'.view c core' yielded' =
      { l.view c core yielded with
        core := core'
        parked := p'
        commands := l'.commands.filterMap (ofConn c)
        events := naming c l'.core.events
        sent := (l.view c core yielded).sent ++ new
        yielded := yielded' } := by
  have hself : new.filter (fun x => l.owner x.1 = some c) = new :=
    List.filter_eq_self.mpr fun x hx => decide_eq_true (h.owned x hx)
  simp only [Loop.view, h.parked, Function.update_self, h.issued, h.waiting, h.received, h.owner,
    h.answers, List.filter_append, hself]

/-- The others do not. -/
theorem view_of_ne (h : Operates l c p' new l') {ch : ConnectionHandle} (hch : ch ≠ c)
    (core core' : ConnState Q) (yielded yielded' : List StreamId) :
    l'.view ch core' yielded' =
      { l.view ch core yielded with
        core := core'
        events := naming ch l'.core.events
        yielded := yielded' } := by
  have hnone : new.filter (fun x => l.owner x.1 = some ch) = [] :=
    List.filter_eq_nil_iff.mpr fun x hx hown => by
      rw [decide_eq_true_iff, h.owned x hx, Option.some.injEq] at hown
      exact hch hown.symm
  have hparked : Drives.parked l'.driver ch = Drives.parked l.driver ch := by
    rw [h.parked, Function.update_of_ne hch]
  have hanswers : l'.answers.filter (fun x => l.owner x.1 = some ch) =
      l.answers.filter fun x => l.owner x.1 = some ch := by
    rw [h.answers, List.filter_append, hnone, List.append_nil]
  exact view_eq core yielded hparked (h.commands ch hch) h.issued h.waiting hanswers h.received
    core' yielded'

end Operates

/-! ### What the application does -/

section Application

variable {l : Loop D}

/-- The loop after a call that carries a channel. -/
def issuing (l : Loop D) (c : ConnectionHandle) (cmd : Cmd) (t : Token) : Loop D :=
  { l with
    commands := l.commands ++ [(c, cmd)]
    issued := l.issued.insert t (c, cmd)
    waiting := insert t l.waiting }

theorem lookup_issuing (c : ConnectionHandle) (cmd : Cmd) (t a : Token) :
    (l.issuing c cmd t).issued.lookup a =
      if a = t then some (c, cmd) else l.issued.lookup a :=
  AMap.lookup_insert_eq t a (c, cmd) l.issued

theorem lookup_issuing_old {c : ConnectionHandle} {cmd : Cmd} {t a : Token} (hfresh : t ∉ l.issued)
    (ha : a ∈ l.issued) : (l.issuing c cmd t).issued.lookup a = l.issued.lookup a := by
  rw [lookup_issuing, if_neg]
  rintro rfl
  exact hfresh ha

theorem owner_issuing (c : ConnectionHandle) (cmd : Cmd) (t : Token) :
    (l.issuing c cmd t).owner t = some c := by
  rw [owner, lookup_issuing, if_pos rfl]
  rfl

/-- The loop after a channel was awaited. -/
def receiving (l : Loop D) (x : Token × Reply) : Loop D :=
  { l with waiting := l.waiting.erase x.1, received := l.received ++ [x] }

/-- The connection of the channel sees its reply taken. -/
theorem view_receiving {ch : ConnectionHandle} {x : Token × Reply} (howner : l.owner x.1 = some ch)
    (core : ConnState Q) (yielded : List StreamId) :
    (l.receiving x).view ch core yielded =
      { l.view ch core yielded with
        waiting := (l.view ch core yielded).waiting.erase x.1
        received := (l.view ch core yielded).received ++ [x] } := by
  have hwaiting : (l.waiting.erase x.1).filter (fun t => l.owner t = some ch) =
      (l.waiting.filter fun t => l.owner t = some ch).erase x.1 := Finset.filter_erase _ _ _
  have hreceived : (l.received ++ [x]).filter (fun y => l.owner y.1 = some ch) =
      l.received.filter (fun y => l.owner y.1 = some ch) ++ [x] := by
    rw [List.filter_append, List.filter_singleton, howner]
    simp
  show Sys.mk _ _ _ _ _ _ _ _ _ _ = Sys.mk _ _ _ _ _ _ _ _ _ _
  congr 1

/-- The other connections do not. -/
theorem view_receiving_of_ne {ch : ConnectionHandle} {x : Token × Reply}
    (howner : l.owner x.1 ≠ some ch) (core : ConnState Q) (yielded : List StreamId) :
    (l.receiving x).view ch core yielded = l.view ch core yielded := by
  have hwaiting : (l.waiting.erase x.1).filter (fun t => l.owner t = some ch) =
      l.waiting.filter fun t => l.owner t = some ch := by
    rw [Finset.filter_erase]
    exact Finset.erase_eq_of_notMem fun hmem => howner (Finset.mem_filter.mp hmem).2
  have hreceived : (l.received ++ [x]).filter (fun y => l.owner y.1 = some ch) =
      l.received.filter fun y => l.owner y.1 = some ch := by
    rw [List.filter_append, List.filter_singleton]
    simp [howner]
  show Sys.mk _ _ _ _ _ _ _ _ _ _ = Sys.mk _ _ _ _ _ _ _ _ _ _
  congr 1

theorem view_cancelling (l : Loop D) (t : Token) (ch : ConnectionHandle) (core : ConnState Q)
    (yielded : List StreamId) :
    Loop.view { l with waiting := l.waiting.erase t } ch core yielded =
      { l.view ch core yielded with waiting := (l.view ch core yielded).waiting.erase t } := by
  have hwaiting : (l.waiting.erase t).filter (fun a => l.owner a = some ch) =
      (l.waiting.filter fun a => l.owner a = some ch).erase t := Finset.filter_erase _ _ _
  show Sys.mk _ _ _ _ _ _ _ _ _ _ = Sys.mk _ _ _ _ _ _ _ _ _ _
  congr 1

end Application

end Loop

/-! ## Answering what is parked -/

/-- An operation answers parked channels, each with the kind of reply its slot takes, and parks
none. -/
structure Settles (slotOf : Token → Option Slot) (p p' : Parked) (sent : List (Token × Reply)) :
    Prop where
  typed : Typed slotOf p'
  takes : ∀ x ∈ sent, ∃ σ, slotOf x.1 = some σ ∧ σ.Takes x.2
  count : ∀ t, (sent.map Prod.fst).count t + held slotOf p' t = held slotOf p t

theorem Releases.settles {slotOf : Token → Option Slot} {p p' : Parked}
    {sent : List (Token × Reply)} (h : Releases p p' sent) (hp : Typed slotOf p) :
    Settles slotOf p p' sent := by
  refine ⟨h.typed hp, fun x hx => ?_, h.count hp⟩
  obtain ⟨σ, hslot, -, htakes⟩ := h.takes hp hx
  exact ⟨σ, hslot, htakes⟩

theorem Settles.refl {slotOf : Token → Option Slot} {p : Parked} (hp : Typed slotOf p) :
    Settles slotOf p p [] :=
  ⟨hp, fun _ hx => absurd hx List.not_mem_nil, fun _ => Nat.zero_add _⟩

/-- What is still parked was parked. -/
theorem Settles.subset {slotOf : Token → Option Slot} {p p' : Parked} {sent : List (Token × Reply)}
    (h : Settles slotOf p p' sent) {σ : Slot} {t : Token} (ht : t ∈ p'.tokens σ) :
    t ∈ p.tokens σ := by
  have hcount := h.count t
  have hpos := List.count_pos_iff.mpr ht
  unfold held at hcount
  rw [h.typed σ t ht] at hcount
  dsimp only at hcount
  exact List.count_pos_iff.mp (by omega)

/-- Where nothing is parked an event changes nothing. -/
theorem new_onEvent (s : ConnState Q) (e : Event) :
    Parked.new.onEvent s e = { core := s, parked := .new } := by
  cases e <;> rfl

/-- `fail_all` answers everything that is parked. -/
theorem failAll_settles {slotOf : Token → Option Slot} {p : Parked} (hp : Typed slotOf p) :
    Settles slotOf p .new p.failAll.2 := by
  have hnone : ∀ σ, Parked.new.tokens σ = [] := by
    intro σ
    cases σ <;> rfl
  refine ⟨fun σ t ht => ?_, fun x hx => ?_, fun t => ?_⟩
  · rw [hnone] at ht
    exact absurd ht List.not_mem_nil
  · simp only [Parked.failAll, List.mem_append, List.mem_map] at hx
    obtain ((⟨t, ht, rfl⟩ | ⟨w, hw, rfl⟩) | ⟨r, hr, rfl⟩) | ⟨t, ht, rfl⟩ := hx
    · exact ⟨.accept, hp .accept t ht, trivial⟩
    · obtain ⟨id, hid⟩ := AMap.mem_values.mp hw
      exact ⟨.write id, hp (.write id) w.reply (by simp [Parked.tokens, hid]), trivial⟩
    · obtain ⟨id, hid⟩ := AMap.mem_values.mp hr
      exact ⟨.read id, hp (.read id) r.reply (by simp [Parked.tokens, hid]), trivial⟩
    · obtain ⟨waiters, hw, ht⟩ := List.mem_flatten.mp ht
      obtain ⟨id, hid⟩ := AMap.mem_values.mp hw
      exact ⟨.fin id, hp (.fin id) t (by simpa [Parked.tokens, hid] using ht), trivial⟩
  · rw [failAll_senders, senders_count hp]
    unfold held
    cases slotOf t with
    | none => rfl
    | some σ => simp [hnone]

/-- What an event makes of a `Parked` without a `ConnState`. -/
theorem onFinAcked_settles {slotOf : Token → Option Slot} {p : Parked} (hp : Typed slotOf p)
    (id : StreamId) : Settles slotOf p (p.onFinAcked id).1 (p.onFinAcked id).2 :=
  (waiters_releases p id (.done (.ok ())) trivial).releases.settles hp

theorem Sys.Sound.settles {s : Sys Q} (h : s.Sound) {p' : Parked} {sent : List (Token × Reply)}
    (hset : Settles s.slotOf s.parked p' sent) :
    Sys.Sound { s with parked := p', sent := s.sent ++ sent } := by
  let o : Outcome Q := { core := s.core, parked := p', sent }
  have hplaces : ∀ t, (s.after o).places t = s.places t := by
    intro t
    have hcount := hset.count t
    show (s.commands.filterMap Cmd.reply).count t + held s.slotOf p' t +
      ((s.sent ++ sent).map Prod.fst).count t = s.places t
    rw [List.map_append, List.count_append, Sys.places]
    omega
  have hoperated := h.operated (o := o) (List.suffix_refl _) hset.typed (fun x hx => ?_)
    (fun t => (hplaces t).le) fun t _ => hplaces t
  · exact hoperated.frame s.core s.events s.yielded
  · obtain ⟨σ, hslot, htakes⟩ := hset.takes x hx
    obtain ⟨cmd, hcmd, hσ⟩ := Option.bind_eq_some_iff.mp hslot
    refine ⟨cmd, hcmd, ?_⟩
    unfold Reply.Fits
    rw [hσ]
    exact htakes

/-- A dropped command's channel comes to `Closed`. -/
theorem closedReply_spec (cmd : Cmd) :
    (cmd.closedReply.toList).map Prod.fst = cmd.reply.toList ∧
      ∀ x ∈ cmd.closedReply.toList, x.2.Fits cmd := by
  cases cmd <;> simp [Cmd.closedReply, Cmd.reply, Reply.Fits, Cmd.slot, Slot.Takes]

/-- The channel of a command that is dropped is closed. -/
theorem Sys.Sound.dropped {s : Sys Q} (h : s.Sound) {cmd : Cmd} {rest : List Cmd}
    (hcmds : s.commands = cmd :: rest) :
    Sys.Sound { s with commands := rest, sent := s.sent ++ cmd.closedReply.toList } := by
  let o : Outcome Q := { core := s.core, parked := s.parked, sent := cmd.closedReply.toList }
  obtain ⟨hfst, hfits⟩ := closedReply_spec cmd
  have hrel : Releases s.parked o.parked [] := .none fun _ => rfl
  have hsent : o.sent = [] ++ cmd.closedReply.toList := rfl
  have hanswered := h.answered hcmds hsent hrel hfst hfits
  exact hanswered.frame s.core s.events s.yielded

/-! ## Every channel is in one place -/

namespace Loop

/-- The reply is of the kind its command is answered with. -/
def Fitting (l : Loop D) (x : Token × Reply) : Prop :=
  ∃ ch cmd, l.issued.lookup x.1 = some (ch, cmd) ∧ x.2.Fits cmd

/-- Every channel is in one place, in the view of its connection, and used once. -/
structure Accounted (l : Loop D) : Prop where
  sound : l.phase ≠ .returned → ∀ ch core yielded, Sys.Sound (l.view ch core yielded)
  typed : ∀ ch, Typed (l.slotAt ch) (Drives.parked l.driver ch)
  queued : ∀ x ∈ l.commands, ∀ t, x.2.reply = some t → l.issued.lookup t = some x
  answered : ∀ x ∈ l.answers, l.Fitting x
  carried : ∀ t x, l.issued.lookup t = some x → x.2.reply = some t
  awaited : ∀ t ∈ l.waiting, t ∈ l.issued
  received : ∀ x ∈ l.received, l.Fitting x ∧ x.1 ∉ l.waiting
  once : (l.received.map Prod.fst).Nodup

theorem Fitting.mem_issued {l : Loop D} {x : Token × Reply} (h : l.Fitting x) : x.1 ∈ l.issued := by
  obtain ⟨ch, cmd, hcmd, -⟩ := h
  exact AMap.mem_iff_lookup.mpr ⟨_, hcmd⟩

theorem mem_issued_of_owner {l : Loop D} {t : Token} {ch : ConnectionHandle}
    (h : l.owner t = some ch) : t ∈ l.issued := by
  obtain ⟨cmd, hcmd⟩ := owner_eq_some_iff.mp h
  exact AMap.mem_iff_lookup.mpr ⟨_, hcmd⟩

namespace Accounted

variable {l l' : Loop D}

/-- Nothing moves but the core. -/
theorem frame (h : Accounted l) (hphase : l'.phase ≠ .returned → l.phase ≠ .returned)
    (hparked : Drives.parked l'.driver = Drives.parked l.driver)
    (hcommands : l'.commands = l.commands) (hissued : l'.issued = l.issued)
    (hwaiting : l'.waiting = l.waiting) (hanswers : l'.answers = l.answers)
    (hreceived : l'.received = l.received) : Accounted l' := by
  have hfitting : l'.Fitting = l.Fitting := by
    funext x
    rw [Fitting, hissued]
    rfl
  refine ⟨fun hopen ch core yielded => ?_, fun ch => ?_, ?_, ?_, ?_, ?_, ?_, ?_⟩
  · rw [view_eq core yielded (congrFun hparked ch) (by rw [hcommands]) hissued hwaiting
      (by rw [hanswers]) hreceived]
    exact (h.sound (hphase hopen) ch core yielded).frame core _ _
  · have hslotAt : l'.slotAt = l.slotAt := by
      funext ch t
      rw [slotAt, hissued]
      rfl
    rw [hslotAt, hparked]
    exact h.typed ch
  · rw [hcommands, hissued]
    exact h.queued
  · rw [hanswers, hfitting]
    exact h.answered
  · rw [hissued]
    exact h.carried
  · rw [hwaiting, hissued]
    exact h.awaited
  · rw [hreceived, hfitting, hwaiting]
    exact h.received
  · rw [hreceived]
    exact h.once

/-- **An operation on one connection**: it is enough to look at that one. -/
theorem operated (h : Accounted l) (hopen : l.phase ≠ .returned) {c : ConnectionHandle}
    {p' : Parked} {new : List (Token × Reply)} (hop : Operates l c p' new l')
    (hqueued : ∀ x ∈ l'.commands, x ∈ l.commands ∨ x.2.reply = none)
    (htyped : Typed (l.slotAt c) p')
    (hc : ∀ core yielded, Sys.Sound
      { l.view c core yielded with
        commands := l'.commands.filterMap (ofConn c)
        parked := p'
        sent := (l.view c core yielded).sent ++ new }) : Accounted l' := by
  have hfitting : l'.Fitting = l.Fitting := by
    funext x
    rw [Fitting, hop.issued]
    rfl
  refine ⟨fun _ ch core yielded => ?_, fun ch => ?_, fun x hx t ht => ?_, fun x hx => ?_, ?_, ?_,
    ?_, ?_⟩
  · by_cases hch : ch = c
    · subst hch
      rw [hop.view core core yielded yielded]
      exact (hc core yielded).frame core _ _
    · rw [hop.view_of_ne hch core core yielded yielded]
      exact (h.sound hopen ch core yielded).frame core _ _
  · rw [hop.slotAt, hop.parked]
    by_cases hch : ch = c
    · subst hch
      rw [Function.update_self]
      exact htyped
    · rw [Function.update_of_ne hch]
      exact h.typed ch
  · rw [hop.issued]
    rcases hqueued x hx with hx | hnone
    · exact h.queued x hx t ht
    · exact absurd (hnone.symm.trans ht) (by simp)
  · rw [hfitting]
    rw [hop.answers] at hx
    rcases List.mem_append.mp hx with hx | hx
    · exact h.answered x hx
    · obtain ⟨cmd, hcmd, hfits⟩ := hop.fits x hx
      exact ⟨c, cmd, hcmd, hfits⟩
  · rw [hop.issued]
    exact h.carried
  · rw [hop.waiting, hop.issued]
    exact h.awaited
  · rw [hop.received, hfitting, hop.waiting]
    exact h.received
  · rw [hop.received]
    exact h.once

/-- Parked channels of one connection are answered. -/
theorem settled (h : Accounted l) (hopen : l.phase ≠ .returned) {c : ConnectionHandle}
    {p' : Parked} {new : List (Token × Reply)} (hop : Operates l c p' new l')
    (hset : Settles (l.slotAt c) (Drives.parked l.driver c) p' new)
    (hcommands : l'.commands = l.commands) : Accounted l' := by
  refine h.operated hopen hop (fun x hx => .inl (hcommands ▸ hx)) hset.typed fun core yielded => ?_
  have hset' : Settles (l.view c core yielded).slotOf (l.view c core yielded).parked p' new := by
    rw [view_slotOf]
    exact hset
  rw [hcommands]
  exact (h.sound hopen c core yielded).settles hset'

/-- The histories do not see the new channel. -/
theorem filter_issuing (h : Accounted l) (c : ConnectionHandle) (cmd : Cmd) {t : Token}
    (hfresh : t ∉ l.issued) (ch : ConnectionHandle) :
    l.answers.filter (fun x => (l.issuing c cmd t).owner x.1 = some ch) =
        l.answers.filter (fun x => l.owner x.1 = some ch) ∧
      l.received.filter (fun x => (l.issuing c cmd t).owner x.1 = some ch) =
        l.received.filter (fun x => l.owner x.1 = some ch) ∧
      l.waiting.filter (fun a => (l.issuing c cmd t).owner a = some ch) =
        l.waiting.filter fun a => l.owner a = some ch := by
  have howner : ∀ {a}, a ∈ l.issued → (l.issuing c cmd t).owner a = l.owner a := by
    intro a ha
    rw [owner, lookup_issuing_old hfresh ha]
    rfl
  refine ⟨List.filter_congr fun x hx => ?_, List.filter_congr fun x hx => ?_,
    Finset.filter_congr fun a ha => ?_⟩
  · rw [howner (h.answered x hx).mem_issued]
  · rw [howner (h.received x hx).1.mem_issued]
  · rw [howner (h.awaited a ha)]

/-- The connection of the command sees the call. -/
theorem view_issuing (h : Accounted l) (c : ConnectionHandle) (cmd : Cmd) {t : Token}
    (hfresh : t ∉ l.issued) (core : ConnState Q) (yielded : List StreamId) :
    (l.issuing c cmd t).view c core yielded = (l.view c core yielded).issuing cmd t := by
  obtain ⟨hanswers, hreceived, hwaiting⟩ := h.filter_issuing c cmd hfresh c
  have hcommands : (l.commands ++ [(c, cmd)]).filterMap (ofConn c) =
      l.commands.filterMap (ofConn c) ++ [cmd] := by
    rw [List.filterMap_append, List.filterMap_cons, ofConn_self]
    rfl
  have hissued : AMap.filterMap (ofConn c) (l.issued.insert t (c, cmd)) =
      (AMap.filterMap (ofConn c) l.issued).insert t cmd := by
    rw [AMap.filterMap_insert _ hfresh, ofConn_self]
  have hinsert : (insert t l.waiting).filter (fun a => (l.issuing c cmd t).owner a = some c) =
      insert t (l.waiting.filter fun a => l.owner a = some c) := by
    rw [Finset.filter_insert, if_pos (owner_issuing c cmd t), hwaiting]
  show Sys.mk _ _ _ _ _ _ _ _ _ _ = Sys.mk _ _ _ _ _ _ _ _ _ _
  congr 1

/-- The other connections do not. -/
theorem view_issuing_of_ne (h : Accounted l) {c ch : ConnectionHandle} (hch : ch ≠ c) (cmd : Cmd)
    {t : Token} (hfresh : t ∉ l.issued) (core : ConnState Q) (yielded : List StreamId) :
    (l.issuing c cmd t).view ch core yielded = l.view ch core yielded := by
  obtain ⟨hanswers, hreceived, hwaiting⟩ := h.filter_issuing c cmd hfresh ch
  have hof : ofConn ch (c, cmd) = none := ofConn_of_ne (Ne.symm hch)
  have hcommands : (l.commands ++ [(c, cmd)]).filterMap (ofConn ch) =
      l.commands.filterMap (ofConn ch) := by
    rw [List.filterMap_append, List.filterMap_cons, hof]
    exact List.append_nil _
  have hissued : AMap.filterMap (ofConn ch) (l.issued.insert t (c, cmd)) =
      AMap.filterMap (ofConn ch) l.issued := by
    rw [AMap.filterMap_insert _ hfresh, hof]
  have hinsert : (insert t l.waiting).filter (fun a => (l.issuing c cmd t).owner a = some ch) =
      l.waiting.filter fun a => l.owner a = some ch := by
    have hne : ¬ (l.issuing c cmd t).owner t = some ch := by
      rw [owner_issuing, Option.some.injEq]
      exact Ne.symm hch
    rw [Finset.filter_insert, if_neg hne, hwaiting]
  show Sys.mk _ _ _ _ _ _ _ _ _ _ = Sys.mk _ _ _ _ _ _ _ _ _ _
  congr 1

/-- A new channel, of a command at the end of the queue. -/
theorem issues (h : Accounted l) (hopen : l.phase ≠ .returned) {c : ConnectionHandle} {cmd : Cmd}
    {t : Token} (hreply : cmd.reply = some t) (hfresh : t ∉ l.issued)
    (hfree : ¬ l.borrowed c cmd = true) : Accounted (l.issuing c cmd t) := by
  have hfitting : ∀ {x}, l.Fitting x → (l.issuing c cmd t).Fitting x := by
    intro x hx
    obtain ⟨ch, cmd', hcmd', hfits⟩ := hx
    refine ⟨ch, cmd', ?_, hfits⟩
    rw [lookup_issuing_old hfresh (AMap.mem_iff_lookup.mpr ⟨_, hcmd'⟩), hcmd']
  refine ⟨fun _ ch core yielded => ?_, fun ch => ?_, fun x hx a ha => ?_,
    fun x hx => hfitting (h.answered x hx), fun a x ha => ?_, fun a ha => ?_, fun x hx => ?_,
    h.once⟩
  · have hsound := h.sound hopen ch core yielded
    by_cases hch : ch = c
    · subst hch
      rw [h.view_issuing ch cmd hfresh]
      refine hsound.issued hreply (fun hmem => hfresh ?_) ?_
      · obtain ⟨cmd', hcmd'⟩ := AMap.mem_iff_lookup.mp hmem
        exact AMap.mem_iff_lookup.mpr ⟨_, (view_lookup l ch core yielded t cmd').mp hcmd'⟩
      · rwa [view_borrowed]
    · rw [h.view_issuing_of_ne hch cmd hfresh]
      exact hsound
  · intro σ a ha
    have hslot := h.typed ch σ a ha
    have hmem := mem_issued_of_owner (owner_of_slotAt hslot)
    rw [slotAt, lookup_issuing_old hfresh hmem]
    exact hslot
  · rcases List.mem_append.mp hx with hx | hx
    · have hold := h.queued x hx a ha
      rw [lookup_issuing_old hfresh (AMap.mem_iff_lookup.mpr ⟨x, hold⟩), hold]
    · obtain rfl := List.mem_singleton.mp hx
      obtain rfl := Option.some.inj (hreply.symm.trans ha)
      rw [lookup_issuing, if_pos rfl]
  · rw [lookup_issuing] at ha
    split at ha
    · rename_i heq
      rw [← Option.some.inj ha, heq]
      exact hreply
    · exact h.carried a x ha
  · rcases Finset.mem_insert.mp ha with rfl | ha
    · exact (AList.mem_insert _).mpr (.inl rfl)
    · exact (AList.mem_insert _).mpr (.inr (h.awaited a ha))
  · obtain ⟨hold, hnot⟩ := h.received x hx
    refine ⟨hfitting hold, fun hmem => ?_⟩
    rcases Finset.mem_insert.mp hmem with heq | hmem
    · exact hfresh (heq ▸ hold.mem_issued)
    · exact hnot hmem

/-- What an operation adds to the replies goes into the channels. -/
theorem answers_after {d : D} {new : List (Token × Reply)}
    (h : Drives.replies d = Drives.replies l.driver ++ new) :
    (l.after d).answers = l.answers ++ new := by
  show l.answers ++ (Drives.replies d).drop (Drives.replies l.driver).length = _
  rw [h, List.drop_left]

theorem cancels (h : Accounted l) (t : Token) :
    Accounted { l with waiting := l.waiting.erase t } := by
  refine ⟨fun hopen ch core yielded => ?_, h.typed, h.queued, h.answered, h.carried,
    fun a ha => h.awaited a (Finset.mem_of_mem_erase ha), fun x hx => ?_, h.once⟩
  · rw [view_cancelling]
    exact (h.sound hopen ch core yielded).cancelled t
  · obtain ⟨hfitting, hnot⟩ := h.received x hx
    exact ⟨hfitting, fun hmem => hnot (Finset.mem_of_mem_erase hmem)⟩

/-- What a channel comes to is of the kind its command is answered with. -/
theorem fitting_of_outcome (h : Accounted l) {t : Token} {r : Reply}
    (houtcome : l.outcome t = some r) : l.Fitting (t, r) := by
  unfold outcome at houtcome
  split at houtcome
  · rename_i x hfind
    obtain rfl : x.1 = t := by simpa using List.find?_some hfind
    obtain rfl := Option.some.inj houtcome
    exact h.answered x (List.mem_of_find?_eq_some hfind)
  · split at houtcome
    · obtain ⟨y, hy, hclosed⟩ := Option.bind_eq_some_iff.mp houtcome
      obtain ⟨ch, cmd⟩ := y
      obtain ⟨x, hx, rfl⟩ := Option.map_eq_some_iff.mp hclosed
      exact ⟨ch, cmd, hy, (closedReply_spec cmd).2 x (by simp [hx])⟩
    · exact absurd houtcome (by simp)

/-- What is taken out of a channel was put into it, before the driver is gone. -/
theorem receives (h : Accounted l) {t : Token} {r : Reply} (houtcome : l.outcome t = some r)
    (hwait : t ∈ l.waiting) : Accounted (l.receiving (t, r)) := by
  refine ⟨fun hopen ch core yielded => ?_, h.typed, h.queued, h.answered, h.carried,
    fun a ha => h.awaited a (Finset.mem_of_mem_erase ha), fun x hx => ?_, ?_⟩
  · have hsound := h.sound hopen ch core yielded
    by_cases howner : l.owner t = some ch
    · rw [view_receiving howner]
      refine hsound.received ?_
      show (t, r) ∈ l.answers.filter fun x => l.owner x.1 = some ch
      unfold outcome at houtcome
      split at houtcome
      · rename_i x hfind
        obtain rfl : x.1 = t := by simpa using List.find?_some hfind
        obtain rfl := Option.some.inj houtcome
        exact List.mem_filter.mpr ⟨List.mem_of_find?_eq_some hfind, decide_eq_true howner⟩
      · have hopen : l.phase ≠ .returned := hopen
        rw [if_neg hopen] at houtcome
        exact absurd houtcome (by simp)
    · rw [view_receiving_of_ne howner]
      exact hsound
  · rcases List.mem_append.mp hx with hx | hx
    · obtain ⟨hfitting, hnot⟩ := h.received x hx
      exact ⟨hfitting, fun hmem => hnot (Finset.mem_of_mem_erase hmem)⟩
    · rw [List.mem_singleton.mp hx]
      exact ⟨h.fitting_of_outcome houtcome, Finset.notMem_erase t _⟩
  · show ((l.received ++ [(t, r)]).map Prod.fst).Nodup
    rw [List.map_append]
    refine List.nodup_append.mpr ⟨h.once, List.nodup_singleton t, fun a ha b hb heq => ?_⟩
    obtain ⟨x, hx, rfl⟩ := List.mem_map.mp ha
    obtain rfl : b = t := List.mem_singleton.mp hb
    exact (h.received x hx).2 (heq ▸ hwait)

/-- `on_command`, where the command finds its connection. -/
theorem applying (h : Accounted l) (hopen : l.phase ≠ .returned) {c : ConnectionHandle} {cmd : Cmd}
    {rest : List (ConnectionHandle × Cmd)} (hcmds : l.commands = (c, cmd) :: rest) {now : Instant}
    {s : ConnState Q} {d : D} (happlies : Applies l.driver c cmd now s d) (phase : Phase) :
    Operates l c ((Drives.parked l.driver c).applyCmd s cmd now).parked
      ((Drives.parked l.driver c).applyCmd s cmd now).sent
      { Loop.after { l with commands := rest } d with phase := phase } := by
  refine ⟨happlies.parked, fun ch hch => ?_,
    answers_after (l := { l with commands := rest }) happlies.replies, rfl, rfl, rfl, fun x hx => ?_⟩
  · show rest.filterMap (ofConn ch) = _
    rw [hcmds, List.filterMap_cons, ofConn_of_ne (x := (c, cmd)) (Ne.symm hch)]
  · have hself : l.commands.filterMap (ofConn c) = cmd :: rest.filterMap (ofConn c) := by
      rw [hcmds, List.filterMap_cons, ofConn_self]
    have hsound := (h.sound hopen c s []).executed hself now
    obtain ⟨cmd', hcmd', hfits⟩ := hsound.fits x (List.mem_append_right _ hx)
    exact ⟨cmd', (view_lookup l c s [] x.1 cmd').mp hcmd', hfits⟩

theorem applied (h : Accounted l) (hopen : l.phase ≠ .returned) {c : ConnectionHandle} {cmd : Cmd}
    {rest : List (ConnectionHandle × Cmd)} (hcmds : l.commands = (c, cmd) :: rest) {now : Instant}
    {s : ConnState Q} {d : D} (happlies : Applies l.driver c cmd now s d) (phase : Phase) :
    Accounted { Loop.after { l with commands := rest } d with phase := phase } := by
  have hself : l.commands.filterMap (ofConn c) = cmd :: rest.filterMap (ofConn c) := by
    rw [hcmds, List.filterMap_cons, ofConn_self]
  refine h.operated hopen (h.applying hopen hcmds happlies phase) (fun x hx => ?_) ?_
    fun core yielded => ?_
  · rw [hcmds]
    exact .inl (List.mem_cons_of_mem _ hx)
  · rw [← view_slotOf l c s []]
    exact ((h.sound hopen c s []).executed hself now).typed
  · exact ((h.sound hopen c s yielded).executed hself now).frame core _ yielded

/-- A command that finds no connection is dropped. -/
theorem dropping (h : Accounted l) {c : ConnectionHandle} {cmd : Cmd}
    {rest : List (ConnectionHandle × Cmd)} (hcmds : l.commands = (c, cmd) :: rest) {d : D}
    (hsame : d = l.driver) (phase : Phase) :
    Operates l c (Drives.parked l.driver c) cmd.closedReply.toList
      { Loop.after { l with commands := rest } d with
        answers := (Loop.after { l with commands := rest } d).answers ++ cmd.closedReply.toList
        phase := phase } := by
  subst hsame
  have hnone := answers_after (l := { l with commands := rest }) (d := l.driver)
    (List.append_nil _).symm
  refine ⟨(Function.update_eq_self _ _).symm, fun ch hch => ?_, ?_, rfl, rfl, rfl, fun x hx => ?_⟩
  · show rest.filterMap (ofConn ch) = _
    rw [hcmds, List.filterMap_cons, ofConn_of_ne (x := (c, cmd)) (Ne.symm hch)]
  · show (Loop.after _ _).answers ++ _ = _
    rw [hnone, List.append_nil]
  · have hreply : x.1 ∈ cmd.reply.toList := by
      rw [← (closedReply_spec cmd).1]
      exact List.mem_map_of_mem hx
    have hhead : (c, cmd) ∈ l.commands := by
      rw [hcmds]
      exact List.mem_cons_self
    exact ⟨cmd, h.queued _ hhead x.1 (by simpa using hreply), (closedReply_spec cmd).2 x hx⟩

theorem dropped (h : Accounted l) (hopen : l.phase ≠ .returned) {c : ConnectionHandle} {cmd : Cmd}
    {rest : List (ConnectionHandle × Cmd)} (hcmds : l.commands = (c, cmd) :: rest) {d : D}
    (hsame : d = l.driver) (phase : Phase) :
    Accounted
      { Loop.after { l with commands := rest } d with
        answers := (Loop.after { l with commands := rest } d).answers ++ cmd.closedReply.toList
        phase := phase } := by
  have hself : l.commands.filterMap (ofConn c) = cmd :: rest.filterMap (ofConn c) := by
    rw [hcmds, List.filterMap_cons, ofConn_self]
  refine h.operated hopen (h.dropping hcmds hsame phase) (fun x hx => ?_) (h.typed c)
    fun core yielded => ?_
  · rw [hcmds]
    exact .inl (List.mem_cons_of_mem _ hx)
  · exact (h.sound hopen c core yielded).dropped hself

/-- A call without a channel. -/
theorem telling (l : Loop D) (c : ConnectionHandle) (cmd : Cmd) :
    Operates l c (Drives.parked l.driver c) [] { l with commands := l.commands ++ [(c, cmd)] } := by
  refine ⟨(Function.update_eq_self _ _).symm, fun ch hch => ?_, (List.append_nil _).symm, rfl, rfl,
    rfl, fun x hx => absurd hx List.not_mem_nil⟩
  show (l.commands ++ [(c, cmd)]).filterMap (ofConn ch) = _
  rw [List.filterMap_append, List.filterMap_cons, ofConn_of_ne (x := (c, cmd)) (Ne.symm hch)]
  exact List.append_nil _

theorem told (h : Accounted l) (hopen : l.phase ≠ .returned) {c : ConnectionHandle} {cmd : Cmd}
    (hreply : cmd.reply = none) : Accounted { l with commands := l.commands ++ [(c, cmd)] } := by
  have hself : (l.commands ++ [(c, cmd)]).filterMap (ofConn c) =
      l.commands.filterMap (ofConn c) ++ [cmd] := by
    rw [List.filterMap_append, List.filterMap_cons, ofConn_self]
    rfl
  refine h.operated hopen (telling l c cmd) (fun x hx => ?_) (h.typed c) fun core yielded => ?_
  · exact (List.mem_append.mp hx).imp_right fun hx => by rw [List.mem_singleton.mp hx, hreply]
  · have htold := (h.sound hopen c core yielded).told hreply
    rw [hself, List.append_nil]
    exact htold

theorem spawn {d : D} (hparked : ∀ ch, Drives.parked d ch = .new) (now : Instant) :
    Accounted (Loop.spawn d now) := by
  refine ⟨fun _ ch core yielded => ?_, fun ch => ?_, by simp [Loop.spawn], by simp [Loop.spawn],
    by simp [Loop.spawn], by simp [Loop.spawn], by simp [Loop.spawn], List.nodup_nil⟩
  · have hview : (Loop.spawn d now).view ch core yielded =
        { Sys.start ch core with
          events := naming ch (Loop.spawn d now).core.events
          yielded := yielded } := by
      rw [Loop.view, show (Loop.spawn d now).driver = d from rfl, hparked]
      rfl
    rw [hview]
    exact (Sys.Sound.start ch core).frame core _ yielded
  · rw [show (Loop.spawn d now).driver = d from rfl, hparked]
    intro σ t ht
    cases σ <;> simp [Parked.new, Parked.tokens] at ht

/-- The event of a connection, as an operation on it: it answers parked channels, and where the
connection is live it is the connection's own `onEvent`. -/
structure Reacted (l : Loop D) (e : Event) (l' : Loop D) (p' : Parked)
    (new : List (Token × Reply)) : Prop where
  operates : Operates l e.conn p' new l'
  settles : Settles (l.slotAt e.conn) (Drives.parked l.driver e.conn) p' new
  commands : l'.commands = l.commands
  events : l'.core.events = l.core.events
  live : ∀ ch, ch ∈ l'.core.connections ↔ ch ∈ l.core.connections
  others : ∀ ch, ch ≠ e.conn →
    l'.core.connections.lookup ch = l.core.connections.lookup ch
  lost : e.isLost = true → p' = .new
  own : ∀ s', e.isLost = false → l'.core.connections.lookup e.conn = some s' →
    ∃ s, l.core.connections.lookup e.conn = some s ∧
      s' = ((Drives.parked l.driver e.conn).onEvent s e).core ∧
      p' = ((Drives.parked l.driver e.conn).onEvent s e).parked ∧
      new = ((Drives.parked l.driver e.conn).onEvent s e).sent

/-- Where an operation is on the connection of the event, `Settles` says who owns the replies. -/
theorem operates_after {c : ConnectionHandle} {d : D} {p' : Parked} {new : List (Token × Reply)}
    (hparked : Drives.parked d = Function.update (Drives.parked l.driver) c p')
    (hreplies : Drives.replies d = Drives.replies l.driver ++ new)
    (hset : Settles (l.slotAt c) (Drives.parked l.driver c) p' new) :
    Operates l c p' new (l.after d) := by
  refine ⟨hparked, fun _ _ => rfl, answers_after hreplies, rfl, rfl, rfl, fun x hx => ?_⟩
  obtain ⟨σ, hslot, htakes⟩ := hset.takes x hx
  obtain ⟨cmd, hcmd, hσ⟩ := Option.bind_eq_some_iff.mp hslot
  obtain ⟨y, hy, hof⟩ := Option.bind_eq_some_iff.mp hcmd
  rw [ofConn_eq_some_iff.mp hof] at hy
  refine ⟨cmd, hy, ?_⟩
  unfold Reply.Fits
  rw [hσ]
  exact htakes

/-- **`on_event` is an operation on the connection the event names.** -/
theorem reacted (h : Accounted l) {e : Event} {d : D} (hreacts : Reacts l.driver e d) :
    ∃ p' new, Reacted l e (l.after d) p' new := by
  have hsame : ∀ {c : ConnectionHandle} {p' : Parked} {new : List (Token × Reply)}, c = e.conn →
      Drives.core d = l.core → Operates l c p' new (l.after d) →
      Settles (l.slotAt c) (Drives.parked l.driver c) p' new →
      (e.isLost = true → p' = .new) →
      (∀ s', e.isLost = false → l.core.connections.lookup c = some s' →
        (Drives.parked l.driver c).onEvent s' e = { core := s', parked := p', sent := new }) →
      ∃ p' new, Reacted l e (l.after d) p' new := by
    rintro c p' new rfl hcore hop hset hlost hown
    have hafter : (l.after d).core = l.core := hcore
    refine ⟨p', new, hop, hset, rfl, congrArg (fun ep => ep.events) hafter, fun ch => ?_,
      fun ch _ => ?_, hlost, fun s' hnot hs' => ?_⟩
    · rw [hafter]
    · rw [hafter]
    · rw [hafter] at hs'
      refine ⟨s', hs', ?_⟩
      rw [hown s' hnot hs']
      exact ⟨rfl, rfl, rfl⟩
  cases hreacts with
  | @stream s hlost hs hcore hparked hreplies =>
    have hset := (onEvent_releases (Drives.parked l.driver e.conn) s e).settles (h.typed e.conn)
    have hafter : (l.after d).core =
      { l.core with
        connections := l.core.connections.insert e.conn
          ((Drives.parked l.driver e.conn).onEvent s e).core } := hcore
    refine ⟨_, _, operates_after hparked hreplies hset, hset, rfl, ?_, fun ch => ?_,
      fun ch hch => ?_, fun hyes => absurd (hlost.symm.trans hyes) (by simp),
      fun s' _ hs' => ⟨s, hs, ?_, rfl, rfl⟩⟩
    · rw [hafter]
    · rw [hafter]
      exact AMap.mem_insert_of_lookup hs
    · rw [hafter]
      exact AList.lookup_insert_ne hch
    · rw [hafter] at hs'
      exact (Option.some.inj ((AList.lookup_insert _).symm.trans hs')).symm
  | @finAcked ch id he hcore hparked hreplies =>
    subst he
    have hset := onFinAcked_settles (h.typed ch) id
    exact hsame rfl hcore (operates_after hparked hreplies hset) hset
      (fun hyes => absurd hyes (by simp [Event.isLost])) fun _ _ _ => rfl
  | lost hlost hcore hparked hreplies =>
    have hset := failAll_settles (h.typed e.conn)
    refine hsame rfl hcore (operates_after hparked hreplies hset) hset (fun _ => rfl)
      fun s' hnot _ => absurd (hlost.symm.trans hnot) (by simp)
  | quiet hlost hcore hparked hreplies hidle =>
    have hset : Settles (l.slotAt e.conn) (Drives.parked l.driver e.conn)
        (Drives.parked l.driver e.conn) [] := .refl (h.typed e.conn)
    have hupdate : Drives.parked d = Function.update (Drives.parked l.driver) e.conn
        (Drives.parked l.driver e.conn) := by
      rw [hparked, Function.update_eq_self]
    refine hsame rfl hcore (operates_after hupdate (hreplies.trans (List.append_nil _).symm) hset)
      hset (fun hyes => absurd (hlost.symm.trans hyes) (by simp)) fun s' _ hs' => ?_
    rcases hidle with he | hnew | hnone
    · rw [he]
      rfl
    · rw [hnew, new_onEvent]
    · exact absurd (hs'.symm.trans hnone) (by simp)

section Step

variable [LawfulDrives Q D]

/-- `on_event`. -/
theorem polled (h : Accounted l) (hopen : l.phase ≠ .returned) {e : Event} {rest : List Event}
    (hreacts : Reacts (Drives.setCore l.driver { l.core with events := rest }) e
      (l.reacting e rest).1) (handled : List Event) (phase : Phase) :
    Accounted
      { (l.withCore { l.core with events := rest }).after (l.reacting e rest).1 with
        handled := handled
        phase := phase } := by
  have hone : Accounted (l.withCore { l.core with events := rest }) :=
    h.frame id (LawfulDrives.parked_setCore _ _) rfl rfl rfl rfl rfl
  obtain ⟨p', new, hreacted⟩ := hone.reacted hreacts
  have hafter := hone.settled hopen hreacted.operates hreacted.settles rfl
  exact hafter.frame (fun _ => hopen) rfl rfl rfl rfl rfl rfl

/-- **Every move keeps the channels in order**, of every connection. -/
theorem step (h : Accounted l) (hfit : Fit l) (m : Move Q D) : Accounted (l.step H m) := by
  have hcalled : ∀ {ep : Endpoint Q} {l' : Loop D}, l.phase ≠ .returned →
      l'.driver = Drives.setCore l.driver ep → l'.commands = l.commands →
      l'.issued = l.issued → l'.waiting = l.waiting → l'.answers = l.answers →
      l'.received = l.received → Accounted l' := by
    intro ep l' hopen hdriver hcommands hissued hwaiting hanswers hreceived
    refine h.frame (fun _ => hopen) ?_ hcommands hissued hwaiting hanswers hreceived
    rw [hdriver]
    exact LawfulDrives.parked_setCore _ _
  have hpumping : ∀ {phase : Phase}, l.phase = phase → phase ≠ .returned → l.phase ≠ .returned :=
    fun hphase hne => hphase ▸ hne
  have htaken := Loop.taken H l m
  generalize l.step H m = l' at htaken ⊢
  cases htaken with
  | idle => exact h
  | polled hphase hq =>
    exact h.polled (hpumping hphase (by simp)) (hfit.reacts H hq) _ _
  | drained hphase => exact h.frame (fun _ => hpumping hphase (by simp)) rfl rfl rfl rfl rfl rfl
  | sent hphase => exact hcalled (hpumping hphase (by simp)) rfl rfl rfl rfl rfl rfl
  | flushed hphase => exact hcalled (hpumping hphase (by simp)) rfl rfl rfl rfl rfl rfl
  | arrived _ _ _ _ _ _ hphase =>
    exact hcalled (hpumping hphase (by simp)) rfl rfl rfl rfl rfl rfl
  | failed _ hphase => exact h.frame (fun _ => hpumping hphase (by simp)) rfl rfl rfl rfl rfl rfl
  | @applied now _ ch cmd _ hphase hcmds htakes =>
    obtain ⟨s, happlies⟩ := LawfulDrives.applies cmd now hfit.books htakes
    exact h.applied (hpumping hphase (by simp)) hcmds happlies _
  | @dropped now _ ch cmd _ hphase hcmds htakes =>
    exact h.dropped (hpumping hphase (by simp)) hcmds (LawfulDrives.drops cmd now htakes) _
  | fired _ _ _ hphase => exact hcalled (hpumping hphase (by simp)) rfl rfl rfl rfl rfl rfl
  | armed _ hphase harm =>
    obtain ⟨-, hparked, hreplies⟩ := LawfulDrives.arm_same harm
    have hnone := answers_after (l := l) (hreplies.trans (List.append_nil _).symm)
    exact h.frame (fun _ => hpumping hphase (by simp)) hparked rfl rfl rfl
      (hnone.trans (List.append_nil _)) rfl
  | told hphase _ hreply => exact h.told hphase hreply
  | issued hphase _ hreply hfresh hfree => exact h.issues hphase hreply hfresh hfree
  | cancelled t => exact h.cancels t
  | received houtcome hwait => exact h.receives houtcome hwait

theorem run (h : Accounted l) (hfit : Fit l) (moves : List (Move Q D)) :
    Accounted (l.run H moves) := by
  induction moves generalizing l with
  | nil => exact h
  | cons m moves ih => exact ih (h.step hfit m) (hfit.step m)

end Step

end Accounted

end Loop

end QuietQuic.Tokio
