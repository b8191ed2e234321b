import QuietQuic.Tokio.System

/-!
# Peer-opened streams and parked accepts

A stream id is taken out of the core where an accept is answered: at once, in `apply_cmd`, or from
`on_stream_opened` for parked accepts, first in, first out. Nobody looks whether the answered call
is still awaited, and a failed send is ignored, so an id that goes to a dropped receiver is gone:
the core will not hand it out again.

`accepts_delivered` is the exact extent of that. As long as no id goes to a dropped receiver, and
none is dropped with an id in its channel, the ids handed out are the ids answered, in order, each
to one call, which has it or still awaits it.
-/

namespace QuietQuic.Tokio

open QuietQuic.Lib QuietQuic.Proto

variable {Q : Quinn}

/-! ## What the core can hand out -/

/-- How many streams quinn-proto can hand out now. -/
def acceptable : Nat → Q.Conn → Nat
  | 0, _ => 0
  | n + 1, c =>
    match Q.streamsAccept c with
    | (some _, c) => acceptable n c + 1
    | (none, _) => 0

/-- How many streams `accept_bi` can hand out now. -/
def available (core : ConnState Q) : Nat :=
  core.readyAccepts.length + acceptable (Q.acceptRank core.conn + 1) core.conn

/-- More fuel than the rank changes nothing. -/
theorem acceptable_eq : ∀ {n m : Nat} {c : Q.Conn}, Q.acceptRank c < n → Q.acceptRank c < m →
    acceptable n c = acceptable m c
  | 0, _, _, hn, _ => absurd hn (Nat.not_lt_zero _)
  | _, 0, _, _, hm => absurd hm (Nat.not_lt_zero _)
  | n + 1, m + 1, c, hn, hm => by
    unfold acceptable
    split
    · rename_i id c' h
      have hlt := Q.accept_lt c id c' h
      rw [acceptable_eq (n := n) (m := m) (by omega) (by omega)]
    · rfl

/-- **`accept_bi` hands out one of the available streams**, and none exactly when there is none. -/
theorem acceptBi_available (core : ConnState Q) :
    (∃ id, core.acceptBi.1 = .ok (some id) ∧ available core = available core.acceptBi.2 + 1) ∨
      core.acceptBi.1 = .ok none ∧ available core = 0 := by
  cases hready : core.readyAccepts with
  | cons id rest =>
    refine Or.inl ⟨id, by simp [ConnState.acceptBi, hready], ?_⟩
    simp only [ConnState.acceptBi, available, hready, List.length_cons]
    omega
  | nil =>
    cases h : Q.streamsAccept core.conn with
    | mk out c =>
      cases out with
      | none =>
        exact Or.inr ⟨by simp [ConnState.acceptBi, hready, h],
          by simp [available, hready, acceptable, h]⟩
      | some id =>
        have hlt := Q.accept_lt _ _ _ h
        have heq : acceptable (Q.acceptRank core.conn) c = acceptable (Q.acceptRank c + 1) c :=
          acceptable_eq hlt (Nat.lt_succ_self _)
        exact Or.inl ⟨id, by simp [ConnState.acceptBi, hready, h],
          by simp [ConnState.acceptBi, available, hready, acceptable, h, heq]⟩

/-- **Which parked accepts one `StreamOpened` answers**: as many from the front as there are
streams, one id each. -/
theorem acceptParked_spec : ∀ (l : List Token) (core : ConnState Q),
    (Parked.acceptParked core l).2.2.1.map Prod.fst = l.take (available core) ∧
      (Parked.acceptParked core l).2.2.1.map Prod.snd =
        (Parked.acceptParked core l).2.2.2.map fun id => .stream (.ok id)
  | [], _ => by simp [Parked.acceptParked]
  | t :: rest, core => by
    obtain ⟨htokens, hids⟩ := acceptParked_spec rest core.acceptBi.2
    rcases acceptBi_available core with ⟨id, hid, havail⟩ | ⟨hnone, havail⟩
    · simp only [Parked.acceptParked, hid, havail, List.map_cons, List.take_succ_cons, htokens, hids,
        and_self]
    · simp [Parked.acceptParked, hnone, havail]

/-! ## Answers to accepts -/

/-- The id a reply hands to an accept. -/
def answerOf (slotOf : Token → Option Slot) (x : Token × Reply) : Option (Token × StreamId) :=
  match x.2 with
  | .stream (.ok id) => if slotOf x.1 = some .accept then some (x.1, id) else none
  | _ => none

theorem answerOf_eq_some {slotOf : Token → Option Slot} {x : Token × Reply}
    {y : Token × StreamId} (h : answerOf slotOf x = some y) :
    x = (y.1, .stream (.ok y.2)) ∧ slotOf y.1 = some .accept := by
  obtain ⟨t, r⟩ := x
  unfold answerOf at h
  split at h
  · rename_i id hr
    split at h
    · rename_i hslot
      obtain rfl := Option.some.inj h
      exact ⟨Prod.ext rfl hr, hslot⟩
    · exact absurd h (by simp)
  · exact absurd h (by simp)

/-- What is not answered with a stream hands no id out. -/
theorem answers_eq_nil {slotOf : Token → Option Slot} {sent : List (Token × Reply)}
    (h : ∀ x ∈ sent, ∀ a, x.2 = .stream a → slotOf x.1 ≠ some .accept) :
    sent.filterMap (answerOf slotOf) = [] := by
  refine List.filterMap_eq_nil_iff.mpr fun x hx => ?_
  cases hans : answerOf slotOf x with
  | none => rfl
  | some y =>
    obtain ⟨rfl, hslot⟩ := answerOf_eq_some hans
    exact absurd hslot (h _ hx _ rfl)

/-- When accepts are answered with ids and nothing else, every reply is an answer. -/
theorem answers_of_streams {slotOf : Token → Option Slot} : ∀ {sent : List (Token × Reply)}
    {ids : List StreamId}, sent.map Prod.snd = ids.map (fun id => .stream (.ok id)) →
    (∀ x ∈ sent, slotOf x.1 = some .accept) →
    (sent.filterMap (answerOf slotOf)).map Prod.snd = ids ∧
      (sent.filterMap (answerOf slotOf)).map Prod.fst = sent.map Prod.fst
  | [], ids, h, _ => ⟨by simpa using h.symm, rfl⟩
  | _ :: _, [], h, _ => absurd h (by simp)
  | x :: sent, id :: ids, h, hslot => by
    obtain ⟨hx, h⟩ := List.cons.inj h
    obtain ⟨hsnd, hfst⟩ := answers_of_streams h fun y hy => hslot y (List.mem_cons_of_mem _ hy)
    have hans : answerOf slotOf x = some (x.1, id) := by
      simp [answerOf, hx, hslot x List.mem_cons_self]
    simp [hans, hsnd, hfst]

theorem answers_sublist {slotOf : Token → Option Slot} : ∀ sent : List (Token × Reply),
    ((sent.filterMap (answerOf slotOf)).map Prod.fst).Sublist (sent.map Prod.fst)
  | [] => .slnil
  | x :: sent => by
    cases hans : answerOf slotOf x with
    | none =>
      rw [List.filterMap_cons_none hans]
      exact (answers_sublist sent).cons _
    | some y =>
      obtain ⟨rfl, -⟩ := answerOf_eq_some hans
      rw [List.filterMap_cons_some hans]
      exact (answers_sublist sent).cons_cons _

/-- An operation that hands no stream out. -/
def NoStream (o : Outcome Q) : Prop := o.yielded = [] ∧ ∀ x ∈ o.sent, ∀ a, x.2 ≠ .stream a

theorem noStream_of_done {core : ConnState Q} {p : Parked} (t : Token) (a : Except ConnError Unit) :
    NoStream { core, parked := p, sent := [(t, .done a)] } :=
  ⟨rfl, fun x hx b => by rw [List.mem_singleton.mp hx]; simp⟩

theorem offerRead_noStream (p : Parked) (core : ConnState Q) (id : StreamId)
    (pending : PendingRead) : NoStream (p.offerRead core id pending) := by
  refine ⟨p.offerRead_yielded core id pending, fun x hx b => ?_⟩
  obtain ⟨answer, -, rfl⟩ := Parked.mem_offerRead_sent hx
  simp

theorem offerWrite_noStream (p : Parked) (core : ConnState Q) (id : StreamId)
    (pending : PendingWrite) : NoStream (p.offerWrite core id pending) := by
  refine ⟨p.offerWrite_yielded core id pending, fun x hx b => ?_⟩
  obtain ⟨answer, -, rfl⟩ := Parked.mem_offerWrite_sent hx
  simp

theorem onWritable_noStream (p : Parked) (core : ConnState Q) (id : StreamId) :
    NoStream (p.onWritable core id) := by
  unfold Parked.onWritable
  split
  · exact ⟨rfl, by simp⟩
  · exact offerWrite_noStream _ core id _

/-- Of the events, only `StreamOpened` hands a stream out. -/
theorem onEvent_noStream (p : Parked) (core : ConnState Q) (e : Event)
    (h : ∀ ch id dir, e ≠ .streamOpened ch id dir) : NoStream (p.onEvent core e) := by
  cases e with
  | streamOpened ch id dir => exact absurd rfl (h ch id dir)
  | connected ch => exact ⟨rfl, by simp [Parked.onEvent]⟩
  | connectionLost ch reason => exact ⟨rfl, by simp [Parked.onEvent]⟩
  | streamReadable ch id =>
    show NoStream (p.onReadable core id)
    unfold Parked.onReadable
    split
    · exact ⟨rfl, by simp⟩
    · exact offerRead_noStream _ core id _
  | streamWritable ch id => exact onWritable_noStream p core id
  | streamFinAcked ch id => exact ⟨rfl, fun x hx => by rw [reply_of_waiters hx]; simp⟩
  | streamStopped ch id code =>
    obtain ⟨hy, hs⟩ := onWritable_noStream (p.failFinWaiters id (.stopped code)).1 core id
    refine ⟨hy, fun x hx => ?_⟩
    rcases List.mem_append.mp hx with hx | hx
    · rw [reply_of_waiters hx]
      simp
    · exact hs x hx

/-- Of the commands, only `OpenBi` and `AcceptBi` hand a stream out. -/
theorem applyCmd_noStream (p : Parked) (core : ConnState Q) (cmd : Cmd) (now : Instant)
    (hopen : ∀ t, cmd ≠ .openBi t) (haccept : ∀ t, cmd ≠ .acceptBi t) :
    NoStream (p.applyCmd core cmd now) := by
  cases cmd with
  | openBi t => exact absurd rfl (hopen t)
  | acceptBi t => exact absurd rfl (haccept t)
  | write id data t => exact offerWrite_noStream p core id _
  | finish id t => exact noStream_of_done _ _
  | waitFinished id t =>
    simp only [Parked.applyCmd]
    split
    case h_3 => exact ⟨rfl, by simp⟩
    all_goals exact noStream_of_done _ _
  | reset id code t =>
    simp only [Parked.applyCmd]
    split
    · refine ⟨rfl, fun x hx a ha => ?_⟩
      simp only [Parked.failFinWaiters, Parked.failBlockedWrite, List.mem_append, List.mem_map,
        List.mem_singleton] at hx
      rcases hx with (⟨_, -, rfl⟩ | ⟨_, -, rfl⟩) | rfl <;> exact absurd ha (by simp)
    · exact noStream_of_done _ _
  | stop id code t =>
    simp only [Parked.applyCmd]
    split
    · refine ⟨rfl, fun x hx a ha => ?_⟩
      simp only [Parked.failPendingRead, List.mem_append, List.mem_map, List.mem_singleton] at hx
      rcases hx with ⟨_, -, rfl⟩ | rfl <;> exact absurd ha (by simp)
    · exact noStream_of_done _ _
  | releaseSend id => exact ⟨rfl, by simp [Parked.applyCmd]⟩
  | readToEnd id limit t => exact offerRead_noStream p core id _
  | read id len t => exact offerRead_noStream p core id _
  | close code reason => exact ⟨rfl, by simp [Parked.applyCmd]⟩

/-- **What a command hands out**: an `AcceptBi` the next id, if there is one. -/
theorem applyCmd_answers (slotOf : Token → Option Slot) (p : Parked) (core : ConnState Q)
    (cmd : Cmd) (now : Instant) (hcmd : ∀ t, cmd.reply = some t → slotOf t = cmd.slot) :
    (p.applyCmd core cmd now).yielded =
        ((p.applyCmd core cmd now).sent.filterMap (answerOf slotOf)).map Prod.snd ∧
      ∀ y ∈ (p.applyCmd core cmd now).sent.filterMap (answerOf slotOf),
        cmd = .acceptBi y.1 ∧ available core ≠ 0 := by
  by_cases haccept : ∃ t, cmd = .acceptBi t
  · obtain ⟨t, rfl⟩ := haccept
    have hslot := hcmd t rfl
    rcases acceptBi_available core with ⟨id, hid, havail⟩ | ⟨hid, -⟩
    · have hans : answerOf slotOf (t, .stream (.ok id)) = some (t, id) := by
        simp [answerOf, hslot, Cmd.slot]
      simp only [Parked.applyCmd, hid, List.filterMap_cons, hans, List.filterMap_nil]
      refine ⟨rfl, fun y hy => ?_⟩
      rw [List.mem_singleton.mp hy]
      exact ⟨rfl, by omega⟩
    · simp [Parked.applyCmd, hid]
  · have hnil : (p.applyCmd core cmd now).yielded = [] ∧
        (p.applyCmd core cmd now).sent.filterMap (answerOf slotOf) = [] := by
      by_cases hopen : ∃ t, cmd = .openBi t
      · obtain ⟨t, rfl⟩ := hopen
        refine ⟨rfl, answers_eq_nil fun x hx _ _ => ?_⟩
        rw [List.mem_singleton.mp hx, hcmd t rfl]
        simp [Cmd.slot]
      · obtain ⟨hy, hs⟩ := applyCmd_noStream p core cmd now (fun t ht => hopen ⟨t, ht⟩)
          fun t ht => haccept ⟨t, ht⟩
        exact ⟨hy, answers_eq_nil fun x hx a ha => absurd ha (hs x hx a)⟩
    rw [hnil.1, hnil.2]
    exact ⟨rfl, by simp⟩

/-- **What an event hands out**: one id to each parked accept that a `StreamOpened` reaches. -/
theorem onEvent_answers {slotOf : Token → Option Slot} {p : Parked} (hp : Typed slotOf p)
    (core : ConnState Q) (e : Event) :
    (p.onEvent core e).yielded =
        ((p.onEvent core e).sent.filterMap (answerOf slotOf)).map Prod.snd ∧
      ∀ y ∈ (p.onEvent core e).sent.filterMap (answerOf slotOf),
        (∃ ch id dir, e = .streamOpened ch id dir) ∧
          y.1 ∈ p.pendingAccepts.take (available core) := by
  by_cases hopened : ∃ ch id dir, e = .streamOpened ch id dir
  · obtain ⟨ch, id, dir, rfl⟩ := hopened
    obtain ⟨htokens, hids⟩ := acceptParked_spec p.pendingAccepts core
    obtain ⟨hsnd, hfst⟩ := answers_of_streams hids fun x hx => by
      refine hp .accept x.1 (List.mem_of_mem_take (i := available core) ?_)
      show x.1 ∈ p.pendingAccepts.take (available core)
      rw [← htokens]
      exact List.mem_map_of_mem hx
    refine ⟨hsnd.symm, fun y hy => ⟨⟨ch, id, dir, rfl⟩, ?_⟩⟩
    rw [← htokens, ← hfst]
    exact List.mem_map_of_mem hy
  · obtain ⟨hy, hs⟩ := onEvent_noStream p core e fun ch id dir he => hopened ⟨ch, id, dir, he⟩
    rw [hy, answers_eq_nil fun x hx a ha => absurd ha (hs x hx a)]
    exact ⟨rfl, by simp⟩

/-! ## Whole runs -/

namespace Sys

/-- The accepts that were answered with a stream, oldest answer first. -/
def answered (s : Sys Q) : List (Token × StreamId) := s.sent.filterMap (answerOf s.slotOf)

/-- **The condition.** A stream is handed out only to a call that is still awaited, and no receiver
is dropped with a stream in its channel. -/
def AcceptsAwaited (s : Sys Q) : Action Q → Prop
  | .execute _ => ∀ t rest, s.commands = .acceptBi t :: rest → available s.core ≠ 0 → t ∈ s.waiting
  | .dispatch => ∀ ch id dir rest, s.events = .streamOpened ch id dir :: rest →
      ∀ t ∈ s.parked.pendingAccepts.take (available s.core), t ∈ s.waiting
  | .cancel t => t ∈ s.waiting → ∀ id, (t, id) ∉ s.answered
  | _ => True

/-- Every accept that was answered has its stream, or still awaits it. -/
structure Delivered (s : Sys Q) : Prop where
  sound : s.Sound
  order : s.answered.map Prod.snd = s.yielded
  kept : ∀ y ∈ s.answered, y.1 ∈ s.waiting ∨ (y.1, .stream (.ok y.2)) ∈ s.received

variable {s : Sys Q}

theorem mem_answered {y : Token × StreamId} :
    y ∈ s.answered ↔ (y.1, .stream (.ok y.2)) ∈ s.sent ∧ s.slotOf y.1 = some .accept := by
  constructor
  · intro h
    obtain ⟨x, hx, hans⟩ := List.mem_filterMap.mp h
    obtain ⟨rfl, hslot⟩ := answerOf_eq_some hans
    exact ⟨hx, hslot⟩
  · rintro ⟨hx, hslot⟩
    exact List.mem_filterMap.mpr ⟨_, hx, by simp [answerOf, hslot]⟩

theorem answered_after (s : Sys Q) (o : Outcome Q) :
    (s.after o).answered = s.answered ++ o.sent.filterMap (answerOf s.slotOf) :=
  List.filterMap_append ..

/-- A new call changes no answer: what was answered had been issued. -/
theorem answered_issuing (h : s.Sound) (cmd : Cmd) {t : Token} (hfresh : t ∉ s.issued) :
    (s.issuing cmd t).answered = s.answered := by
  refine List.filterMap_congr fun x hx => ?_
  have hne : x.1 ≠ t := fun heq => hfresh (heq ▸ h.issued_of_sent hx)
  unfold answerOf
  rw [slotOf_issuing, if_neg hne]

/-- **One action hands streams out in order, to calls that are awaited.** -/
theorem Taken.answered {s' : Sys Q} {a : Action Q} (htaken : Taken s a s') (h : s.Sound)
    (hcond : s.AcceptsAwaited a) :
    ∃ new, s'.answered = s.answered ++ new ∧ s'.yielded = s.yielded ++ new.map Prod.snd ∧
      (∀ y ∈ new, y.1 ∈ s.waiting) ∧ (new ≠ [] → s'.waiting = s.waiting) := by
  have hnil : ∀ s' : Sys Q, s'.answered = s.answered → s'.yielded = s.yielded →
      ∃ new, s'.answered = s.answered ++ new ∧ s'.yielded = s.yielded ++ new.map Prod.snd ∧
        (∀ y ∈ new, y.1 ∈ s.waiting) ∧ (new ≠ [] → s'.waiting = s.waiting) :=
    fun s' ha hy => ⟨[], by simp [ha], by simp [hy], by simp, fun h => absurd rfl h⟩
  cases htaken with
  | @issued cmd t hreply hfresh hfree => exact hnil _ (answered_issuing h cmd hfresh) rfl
  | @executed cmd rest now hcmds =>
    have hcmd : cmd ∈ s.commands := by
      rw [hcmds]
      exact List.mem_cons_self
    obtain ⟨hy, hawaited⟩ := applyCmd_answers s.slotOf s.parked s.core cmd now
      fun t ht => h.slotOf_queued hcmd ht
    refine ⟨_, answered_after _ _, congrArg (s.yielded ++ ·) hy, fun y hmem => ?_, fun _ => rfl⟩
    obtain ⟨rfl, havail⟩ := hawaited y hmem
    exact hcond y.1 rest hcmds havail
  | @dispatched e rest hevents =>
    obtain ⟨hy, hawaited⟩ := onEvent_answers h.typed s.core e
    refine ⟨_, answered_after _ _, congrArg (s.yielded ++ ·) hy, fun y hmem => ?_, fun _ => rfl⟩
    obtain ⟨⟨ch, id, dir, rfl⟩, hfront⟩ := hawaited y hmem
    exact hcond ch id dir rest hevents y.1 hfront
  | _ => exact hnil _ rfl rfl

theorem Delivered.step (h : s.Delivered) (a : Action Q) (hcond : s.AcceptsAwaited a) :
    (s.step a).Delivered := by
  obtain ⟨new, hans, hy, hawaited, hsame⟩ := (taken s a).answered h.sound hcond
  refine ⟨h.sound.step a, by rw [hans, hy, List.map_append, h.order], fun y hmem => ?_⟩
  rw [hans] at hmem
  rcases List.mem_append.mp hmem with hmem | hmem
  · rcases h.kept y hmem with hwait | hrec
    · by_cases hcancel : a = .cancel y.1
      · subst hcancel
        exact absurd hmem (hcond hwait y.2)
      · by_cases hreceive : a = .receive y.1
        · subst hreceive
          -- The reply that is taken is the one that was sent.
          refine Or.inr ?_
          obtain ⟨hsent, -⟩ := mem_answered.mp hmem
          simp only [Sys.step, h.sound.find_sent hsent, hwait, if_true]
          exact List.mem_append_right _ (List.mem_singleton_self _)
        · exact Or.inl ((taken s a).mem_waiting hwait hcancel hreceive)
    · exact Or.inr ((taken s a).mem_received hrec)
  · refine Or.inl ?_
    rw [hsame (List.ne_nil_of_mem hmem)]
    exact hawaited y hmem

/-- **No peer-opened stream is lost, as far as streams go to awaited calls.** In every run whose
actions all meet the condition: the ids the core handed out are the ids accepts were answered with,
in order; each went to a call of its own, which has received it or still awaits it; and every
further action that meets the condition takes ids out of the core only for calls that are awaited
at that moment. -/
theorem accepts_delivered (handle : ConnectionHandle) (core : ConnState Q)
    (actions : List (Action Q)) (hcond : Meets AcceptsAwaited (start handle core) actions) :
    let s := (start handle core).run actions
    s.answered.map Prod.snd = s.yielded ∧ (s.answered.map Prod.fst).Nodup ∧
    (∀ y ∈ s.answered, y.1 ∈ s.waiting ∨ (y.1, .stream (.ok y.2)) ∈ s.received) ∧
    ∀ a, s.AcceptsAwaited a → ∃ new, (s.step a).answered = s.answered ++ new ∧
      (s.step a).yielded = s.yielded ++ new.map Prod.snd ∧ ∀ y ∈ new, y.1 ∈ s.waiting := by
  intro s
  have h : s.Delivered := run_inv (P := AcceptsAwaited) (I := Delivered)
    (fun s a hP h => h.step a hP) hcond ⟨.start handle core, rfl, by simp [answered, start]⟩
  refine ⟨h.order, h.sound.nodup_sent.sublist (answers_sublist _), h.kept, fun a ha => ?_⟩
  obtain ⟨new, hans, hy, hawaited, -⟩ := (taken s a).answered h.sound ha
  exact ⟨new, hans, hy, hawaited⟩

/-- An accept is parked, answered when the peer's stream 1 arrives, and received. -/
def acceptThenArrival : List (Action Mini) :=
  [.issue (.acceptBi 0), .execute 0, .handleEvent (.stream 1 []), .service 0, .dispatch, .receive 0]

theorem accepts_delivered_once :
    Meets AcceptsAwaited miniStart acceptThenArrival ∧
      (miniStart.run acceptThenArrival).yielded = [1] ∧
      (0, .stream (.ok 1)) ∈ (miniStart.run acceptThenArrival).received := by
  have hcond : Meets AcceptsAwaited miniStart acceptThenArrival := by
    refine ⟨trivial, fun t rest hcmds _ => ?_, trivial, trivial, fun _ _ _ _ _ => ?_, trivial,
      trivial⟩
    · obtain rfl : 0 = t := Cmd.acceptBi.inj (List.cons.inj hcmds).1
      decide
    · decide
  have hanswered : (0, 1) ∈ (miniStart.run acceptThenArrival).answered := by decide
  obtain ⟨-, -, hkept, -⟩ := accepts_delivered ⟨0, 1⟩ _ acceptThenArrival hcond
  exact ⟨hcond, by decide, (hkept (0, 1) hanswered).resolve_left (by decide)⟩

/-- An accept is parked and dropped, and then the peer's stream 1 arrives. -/
def dropThenArrival : List (Action Mini) :=
  [.issue (.acceptBi 0), .execute 0, .cancel 0, .handleEvent (.stream 1 []), .service 0]

/-- **A stream goes to a receiver that was dropped.** Nothing is awaited when stream 1 is taken out
of the core; the call it was handed to never receives it, whatever follows. -/
theorem stream_to_dropped_accept :
    (miniStart.run dropThenArrival).waiting = ∅ ∧ (miniStart.run dropThenArrival).yielded = [] ∧
    ((miniStart.run dropThenArrival).step .dispatch).yielded = [1] ∧
    ((miniStart.run dropThenArrival).step .dispatch).answered = [(0, 1)] ∧
    ∀ later r, (0, r) ∉ (((miniStart.run dropThenArrival).step .dispatch).run later).received := by
  refine ⟨by decide, by decide, by decide, by decide, fun later r => ?_⟩
  have hnone : ((miniStart.run dropThenArrival).step .dispatch).received = [] := by decide
  exact dropped_run (by decide) (by decide) (fun r => by rw [hnone]; exact List.not_mem_nil) later r

end Sys

end QuietQuic.Tokio
