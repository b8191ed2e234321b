import QuietQuic.Tokio.Views

/-!
# Every connection of a driver runs on its own

The loop of a driver has many connections under one queue of events, one channel of commands and
one core. In the view of one of them the others, and the loop, do nothing: a move is a run of the
connection's own actions.

* `Followed.run`: after any moves, the view of a live connection is what a run of `Sys` makes of a
  new one. What is proved of every run of `Sys` so holds of every connection of a driver.
-/

namespace QuietQuic.Tokio

open QuietQuic.Lib QuietQuic.Proto

variable {Q : Quinn} {D : Type} [Drives Q D] {H : KeyedHash}

/-- A run of actions of a new connection ends in the system. -/
def Reached (ch : ConnectionHandle) (sys : Sys Q) : Prop :=
  ∃ (conn : Q.Conn) (actions : List (Action Q)), (Sys.start ch (.new conn)).run actions = sys

namespace Reached

variable {ch : ConnectionHandle} {sys sys' : Sys Q}

theorem run (h : Reached ch sys) (actions : List (Action Q)) : Reached ch (sys.run actions) := by
  obtain ⟨conn, before, rfl⟩ := h
  refine ⟨conn, before ++ actions, ?_⟩
  rw [Sys.run, List.foldl_append]
  rfl

/-- One action more. -/
theorem step (h : Reached ch sys) (a : Action Q) (hstep : sys.step a = sys') : Reached ch sys' :=
  hstep ▸ h.run [a]

/-- What the endpoint does with the connection. -/
theorem drove (h : Reached ch sys) (hhandle : sys.handle = ch) {s s' : ConnState Q}
    {events : List Event} (hcore : sys.core = s) (hdrove : Drove ch s s' events) :
    Reached ch { sys with core := s', events := sys.events ++ events } := by
  obtain ⟨actions, hrun⟩ := hdrove
  exact hrun sys hhandle hcore ▸ h.run actions

end Reached

namespace Loop

/-- The view of every live connection is a run of its own. -/
def Followed (l : Loop D) : Prop :=
  l.phase ≠ .returned → ∀ ch core, l.core.connections.lookup ch = some core →
    ∃ yielded, Reached ch (l.view ch core yielded)

namespace Followed

variable {l l' : Loop D}

/-- The view stays as it is. -/
theorem same {m : Loop D} (h : Followed l) (hopen : l.phase ≠ .returned)
    (hconns : m.core.connections = l.core.connections)
    (hview : ∀ ch core yielded, m.view ch core yielded = l.view ch core yielded) :
    Followed m := by
  intro _ ch core hcore
  obtain ⟨yielded, hreached⟩ := h hopen ch core (hconns ▸ hcore)
  exact ⟨yielded, hview ch core yielded ▸ hreached⟩

/-- An operation on one connection: it is enough to look at that one. -/
theorem operated (h : Followed l) (hopen : l.phase ≠ .returned) {c : ConnectionHandle}
    {p' : Parked} {new : List (Token × Reply)} (hop : Operates l c p' new l')
    (hothers : ∀ ch, ch ≠ c → l'.core.connections.lookup ch = l.core.connections.lookup ch)
    (hevents : ∀ ch, ch ≠ c → naming ch l'.core.events = naming ch l.core.events)
    (hown : ∀ s', l'.core.connections.lookup c = some s' →
      ∃ yielded, Reached c (l'.view c s' yielded)) : Followed l' := by
  intro _ ch s' hs'
  by_cases hch : ch = c
  · subst hch
    exact hown s' hs'
  · rw [hothers ch hch] at hs'
    obtain ⟨yielded, hreached⟩ := h hopen ch s' hs'
    refine ⟨yielded, ?_⟩
    rw [hop.view_of_ne hch s' s' yielded yielded, hevents ch hch]
    exact hreached

end Followed

/-! ## What a move is in the view -/

/-- Nothing is known of a handle that was not given out: a new connection is a new system. -/
theorem view_unknown [LawfulDrives Q D] {l : Loop D} (h : Fit l) {ch : ConnectionHandle}
    (hgen : l.core.nextGeneration ≤ ch.generation) (core : ConnState Q) :
    l.view ch core [] = Sys.start ch core := by
  obtain ⟨hholds, hparked⟩ := LawfulDrives.unknown h.books hgen
  have hfalse : ¬ Drives.holds l.driver ch = true := by simp [hholds]
  have howner : ∀ t, l.owner t ≠ some ch := by
    intro t hown
    obtain ⟨cmd, hcmd⟩ := owner_eq_some_iff.mp hown
    exact hfalse (h.issued t _ hcmd)
  have hcommands : l.commands.filterMap (ofConn ch) = [] := by
    refine List.filterMap_eq_nil_iff.mpr fun x hx => ?_
    have hne : x.1 ≠ ch := fun heq => hfalse (heq ▸ h.commands x hx)
    exact ofConn_of_ne hne
  have hevents : naming ch l.core.events = [] := naming_eq_nil fun e he heq => by
    have hnamed := h.queued.named e he
    rw [heq] at hnamed
    exact absurd hnamed (by omega)
  have hissued : AMap.filterMap (ofConn ch) l.issued = ∅ := by
    refine AList.ext (List.filterMap_eq_nil_iff.mpr fun x hx => ?_)
    have hlook : l.issued.lookup x.1 = some x.2 := AList.mem_lookup_iff.mpr hx
    have hne : x.2.1 ≠ ch := fun heq => hfalse (heq ▸ h.issued x.1 x.2 hlook)
    rw [ofConn_of_ne hne]
    rfl
  have hwaiting : l.waiting.filter (fun t => l.owner t = some ch) = ∅ :=
    Finset.filter_eq_empty_iff.mpr fun t _ => howner t
  have hnone : ∀ answers : List (Token × Reply),
      answers.filter (fun x => l.owner x.1 = some ch) = [] :=
    fun answers => List.filter_eq_nil_iff.mpr fun x _ => by simpa using howner x.1
  simp only [view, hparked, hcommands, hevents, hissued, hwaiting, hnone]
  rfl

namespace Followed

variable {l l' : Loop D}

/-- A call of the endpoint. -/
theorem called [LawfulDrives Q D] (h : Followed l) (hfit : Fit l) (hopen : l.phase ≠ .returned)
    {call : Call}
    (hcall : (∃ ord now src minute data, call = .handleDatagram ord now src minute data) ∨
      (∃ ord now, call = .handleTimeout ord now) ∨ ∃ ord now, call = .pollTransmit ord now)
    (hdriver : l'.driver = Drives.setCore l.driver (l.core.step H call).2)
    (hcommands : l'.commands = l.commands) (hissued : l'.issued = l.issued)
    (hwaiting : l'.waiting = l.waiting) (hanswers : l'.answers = l.answers)
    (hreceived : l'.received = l.received) : Followed l' := by
  intro _ ch s' hs'
  have hcore : l'.core = (l.core.step H call).2 := by
    rw [core, hdriver]
    exact LawfulDrives.core_setCore _ _
  have hparked : Drives.parked l'.driver ch = Drives.parked l.driver ch := by
    rw [hdriver, LawfulDrives.parked_setCore]
  have hview : ∀ s yielded, l'.view ch s' yielded =
      { l.view ch s yielded with core := s', events := naming ch l'.core.events } :=
    fun s yielded => view_eq s yielded hparked (by rw [hcommands]) hissued hwaiting
      (by rw [hanswers]) hreceived s' yielded
  rw [hcore] at hs'
  obtain ⟨events, hnaming, ⟨s, hs, hdrove⟩ | ⟨hgen, conn, hdrove⟩⟩ := call_drives hcall hs'
  · obtain ⟨yielded, hreached⟩ := h hopen ch s hs
    refine ⟨yielded, ?_⟩
    rw [hview s yielded, hcore, hnaming]
    exact hreached.drove rfl rfl hdrove
  · refine ⟨[], ?_⟩
    have hstart := view_unknown hfit hgen.ge (.new conn)
    have hreached : Reached ch (l.view ch (.new conn) []) := ⟨conn, [], hstart.symm⟩
    rw [hview (.new conn) [], hcore, hnaming]
    exact hreached.drove rfl rfl hdrove

/-- An event, once it is off the queue. -/
theorem reacted (h : Followed l) (hqueued : Queued l.core.toCore) (hopen : l.phase ≠ .returned)
    {e : Event} {rest : List Event} (hq : l.core.events = e :: rest) {l₁ : Loop D}
    (hcore : l₁.core = { l.core with events := rest })
    (hparked : Drives.parked l₁.driver = Drives.parked l.driver)
    (hview : ∀ ch s yielded, l₁.view ch s yielded =
      { l.view ch s yielded with events := naming ch rest })
    {p' : Parked} {new : List (Token × Reply)} (hreacted : Accounted.Reacted l₁ e l' p' new) :
    Followed l' := by
  have hconns : l₁.core.connections = l.core.connections := congrArg (fun ep => ep.connections) hcore
  have hevents : l'.core.events = rest :=
    hreacted.events.trans (congrArg (fun ep => ep.events) hcore)
  have hnaming : ∀ ch, naming ch l.core.events =
      (if e.conn = ch then [e] else []) ++ naming ch rest := by
    intro ch
    rw [hq, naming, List.filter_cons]
    by_cases hch : e.conn = ch <;> simp [hch, naming]
  intro _ ch s' hs'
  by_cases hch : ch = e.conn
  · subst hch
    have hnot : e.isLost = false := by
      by_contra hlost
      have hlive := (hreacted.live e.conn).mp (AMap.mem_iff_lookup.mpr ⟨s', hs'⟩)
      rw [hconns] at hlive
      exact gone_of_head hqueued hq (by simpa using hlost) hlive
    obtain ⟨s, hs, rfl, rfl, rfl⟩ := hreacted.own s' hnot hs'
    rw [hconns] at hs
    obtain ⟨yielded, hreached⟩ := h hopen e.conn s hs
    let o := (Drives.parked l₁.driver e.conn).onEvent s e
    refine ⟨yielded ++ o.yielded, hreached.step .dispatch ?_⟩
    have hhead : (l.view e.conn s yielded).events = e :: naming e.conn rest := by
      show naming e.conn l.core.events = _
      rw [hnaming, if_pos rfl]
      rfl
    have hp : (l.view e.conn s yielded).parked = Drives.parked l₁.driver e.conn :=
      (congrFun hparked e.conn).symm
    have hcommands : l'.commands.filterMap (ofConn e.conn) = (l.view e.conn s yielded).commands := by
      rw [hreacted.commands]
      exact congrArg Sys.commands (hview e.conn s yielded)
    rw [hreacted.operates.view s o.core yielded (yielded ++ o.yielded), hview, hevents, hcommands]
    simp only [Sys.step, hhead, hp]
    rfl
  · have hs : l.core.connections.lookup ch = some s' := by
      rwa [hreacted.others ch hch, hconns] at hs'
    obtain ⟨yielded, hreached⟩ := h hopen ch s' hs
    refine ⟨yielded, ?_⟩
    rw [hreacted.operates.view_of_ne hch s' s' yielded yielded, hview, hevents]
    have htail : naming ch rest = naming ch l.core.events := by
      rw [hnaming, if_neg (Ne.symm hch)]
      rfl
    rw [htail]
    exact hreached

/-- An event off the queue. -/
theorem polled [LawfulDrives Q D] (h : Followed l) (hacc : Accounted l) (hfit : Fit l)
    (hopen : l.phase ≠ .returned) {e : Event} {rest : List Event} (hq : l.core.events = e :: rest)
    (hreacts : Reacts (Drives.setCore l.driver { l.core with events := rest }) e
      (l.reacting e rest).1) (handled : List Event) (phase : Phase) :
    Followed
      { (l.withCore { l.core with events := rest }).after (l.reacting e rest).1 with
        handled := handled
        phase := phase } := by
  have hparked := LawfulDrives.parked_setCore l.driver { l.core with events := rest }
  have hcore := core_withCore l { l.core with events := rest }
  have hone : Accounted (l.withCore { l.core with events := rest }) :=
    hacc.frame id hparked rfl rfl rfl rfl rfl
  obtain ⟨p', new, hreacted⟩ := hone.reacted hreacts
  have hafter := h.reacted hfit.queued hopen hq hcore hparked (fun ch s yielded => ?_) hreacted
  · exact fun _ => hafter hopen
  · have hview := view_eq (l := l) (m := l.withCore { l.core with events := rest }) s yielded
      (congrFun hparked ch) rfl rfl rfl rfl rfl s yielded
    rw [hview, hcore]
    rfl

/-- `on_command`, where the command finds its connection. -/
theorem applied (h : Followed l) (hacc : Accounted l) (hopen : l.phase ≠ .returned)
    {c : ConnectionHandle} {cmd : Cmd} {rest : List (ConnectionHandle × Cmd)}
    (hcmds : l.commands = (c, cmd) :: rest) {now : Instant} {s : ConnState Q} {d : D}
    (happlies : Applies l.driver c cmd now s d) (phase : Phase) :
    Followed { Loop.after { l with commands := rest } d with phase := phase } := by
  have hop := hacc.applying hopen hcmds happlies phase
  have hcore : (Loop.core { Loop.after { l with commands := rest } d with phase := phase }) =
      { l.core with
        connections := l.core.connections.insert c
          ((Drives.parked l.driver c).applyCmd s cmd now).core } := happlies.core
  refine h.operated hopen hop (fun ch hch => ?_) (fun ch _ => ?_) fun s' hs' => ?_
  · rw [hcore]
    exact AList.lookup_insert_ne hch
  · rw [hcore]
  · rw [hcore] at hs'
    obtain rfl := Option.some.inj ((AList.lookup_insert _).symm.trans hs')
    obtain ⟨yielded, hreached⟩ := h hopen c s happlies.live
    let o := (Drives.parked l.driver c).applyCmd s cmd now
    refine ⟨yielded ++ o.yielded, hreached.step (.execute now) ?_⟩
    have hhead : (l.view c s yielded).commands = cmd :: rest.filterMap (ofConn c) := by
      show l.commands.filterMap (ofConn c) = _
      rw [hcmds, List.filterMap_cons, ofConn_self]
    rw [hop.view s o.core yielded (yielded ++ o.yielded), hcore]
    simp only [Sys.step, hhead]
    rfl

/-- A command that finds no connection was not of a live one. -/
theorem dropped (h : Followed l) (hacc : Accounted l) (hopen : l.phase ≠ .returned)
    {c : ConnectionHandle} {cmd : Cmd} {rest : List (ConnectionHandle × Cmd)}
    (hcmds : l.commands = (c, cmd) :: rest) {d : D} (hsame : d = l.driver)
    (hdead : c ∉ l.core.connections) (phase : Phase) :
    Followed
      { Loop.after { l with commands := rest } d with
        answers := (Loop.after { l with commands := rest } d).answers ++ cmd.closedReply.toList
        phase := phase } := by
  subst hsame
  refine h.operated hopen (hacc.dropping hcmds rfl phase) (fun ch _ => rfl) (fun ch _ => rfl)
    fun s' hs' => ?_
  exact absurd (AMap.mem_iff_lookup.mpr ⟨s', hs'⟩) hdead

/-- A call without a channel. -/
theorem told (h : Followed l) (hopen : l.phase ≠ .returned) {c : ConnectionHandle} {cmd : Cmd}
    (hreply : cmd.reply = none) : Followed { l with commands := l.commands ++ [(c, cmd)] } := by
  have hop := Accounted.telling l c cmd
  refine h.operated hopen hop (fun _ _ => rfl) (fun _ _ => rfl) fun s' hs' => ?_
  obtain ⟨yielded, hreached⟩ := h hopen c s' hs'
  refine ⟨yielded, hreached.step (.issue cmd) ?_⟩
  have hcommands : (l.commands ++ [(c, cmd)]).filterMap (ofConn c) =
      l.commands.filterMap (ofConn c) ++ [cmd] := by
    rw [List.filterMap_append, List.filterMap_cons, ofConn_self]
    rfl
  rw [hop.view s' s' yielded yielded, hcommands, List.append_nil]
  simp only [Sys.step, hreply]
  rfl

/-- A call on a channel. -/
theorem issued (h : Followed l) (hacc : Accounted l) (hopen : l.phase ≠ .returned)
    {c : ConnectionHandle} {cmd : Cmd} {t : Token} (hreply : cmd.reply = some t)
    (hfresh : t ∉ l.issued) (hfree : ¬ l.borrowed c cmd = true) :
    Followed (l.issuing c cmd t) := by
  intro _ ch s' hs'
  obtain ⟨yielded, hreached⟩ := h hopen ch s' hs'
  refine ⟨yielded, ?_⟩
  by_cases hch : ch = c
  · subst hch
    refine hreached.step (.issue cmd) ?_
    have hnew : t ∉ (l.view ch s' yielded).issued := by
      intro hmem
      obtain ⟨cmd', hcmd'⟩ := AMap.mem_iff_lookup.mp hmem
      exact hfresh (AMap.mem_iff_lookup.mpr ⟨_, (view_lookup l ch s' yielded t cmd').mp hcmd'⟩)
    have hidle : ¬ (t ∈ (l.view ch s' yielded).issued ∨
        (l.view ch s' yielded).borrowed cmd = true) := by
      rw [view_borrowed]
      exact not_or.mpr ⟨hnew, hfree⟩
    rw [hacc.view_issuing ch cmd hfresh]
    simp only [Sys.step, hreply, if_neg hidle]
    rfl
  · rw [hacc.view_issuing_of_ne hch cmd hfresh]
    exact hreached

/-- An awaited channel resolves. -/
theorem received (h : Followed l) (hopen : l.phase ≠ .returned) {t : Token} {r : Reply}
    (houtcome : l.outcome t = some r) (hwait : t ∈ l.waiting) :
    Followed (l.receiving (t, r)) := by
  intro _ ch s' hs'
  obtain ⟨yielded, hreached⟩ := h hopen ch s' hs'
  refine ⟨yielded, ?_⟩
  by_cases howner : l.owner t = some ch
  · refine hreached.step (.receive t) ?_
    have hfind : (l.view ch s' yielded).sent.find? (fun x => x.1 = t) = some (t, r) := by
      show (l.answers.filter fun x => l.owner x.1 = some ch).find? (fun x => x.1 = t) = some (t, r)
      have hfirst : l.answers.find? (fun x => x.1 = t) = some (t, r) := by
        unfold outcome at houtcome
        split at houtcome
        · rename_i x hfind
          obtain rfl : x.1 = t := by simpa using List.find?_some hfind
          obtain rfl := Option.some.inj houtcome
          exact hfind
        · rw [if_neg hopen] at houtcome
          exact absurd houtcome (by simp)
      rw [List.find?_filter, ← hfirst]
      congr 1
      funext x
      by_cases hx : x.1 = t <;> simp [hx, howner]
    have hmem : t ∈ (l.view ch s' yielded).waiting :=
      Finset.mem_filter.mpr ⟨hwait, howner⟩
    rw [view_receiving howner]
    simp only [Sys.step, hfind, if_pos hmem]
  · rw [view_receiving_of_ne howner]
    exact hreached

/-- **Every move is a run of actions**, in the view of every connection that is live after it. -/
theorem step [LawfulDrives Q D] (h : Followed l) (hacc : Accounted l) (hfit : Fit l)
    (m : Move Q D) : Followed (l.step H m) := by
  have hpumping : ∀ {phase : Phase}, l.phase = phase → phase ≠ .returned → l.phase ≠ .returned :=
    fun hphase hne => hphase ▸ hne
  have htaken := Loop.taken H l m
  generalize l.step H m = l' at htaken ⊢
  cases htaken with
  | idle => exact h
  | polled hphase hq =>
    exact h.polled hacc hfit (hpumping hphase (by simp)) hq (hfit.reacts H hq) _ _
  | drained hphase => exact fun _ => h (hpumping hphase (by simp))
  | sent hphase =>
    exact h.called hfit (hpumping hphase (by simp)) (.inr (.inr ⟨_, _, rfl⟩)) rfl rfl rfl rfl rfl rfl
  | flushed hphase =>
    exact h.called hfit (hpumping hphase (by simp)) (.inr (.inr ⟨_, _, rfl⟩)) rfl rfl rfl rfl rfl rfl
  | arrived _ _ _ _ _ _ hphase =>
    exact h.called hfit (hpumping hphase (by simp)) (.inl ⟨_, _, _, _, _, rfl⟩) rfl rfl rfl rfl rfl
      rfl
  | failed _ hphase => exact fun _ => h (hpumping hphase (by simp))
  | @applied now _ ch cmd _ hphase hcmds htakes =>
    obtain ⟨s, happlies⟩ := LawfulDrives.applies cmd now hfit.books htakes
    exact h.applied hacc (hpumping hphase (by simp)) hcmds happlies _
  | @dropped now _ ch cmd _ hphase hcmds htakes =>
    refine h.dropped hacc (hpumping hphase (by simp)) hcmds (LawfulDrives.drops cmd now htakes)
      (fun hlive => ?_) _
    have hholds : Drives.holds l.driver ch = true := by
      refine hfit.commands (ch, cmd) ?_
      rw [hcmds]
      exact List.mem_cons_self
    have := LawfulDrives.takes_of_holds hfit.books hholds hlive
    exact absurd (htakes.symm.trans this) (by simp)
  | fired _ _ _ hphase =>
    exact h.called hfit (hpumping hphase (by simp)) (.inr (.inl ⟨_, _, rfl⟩)) rfl rfl rfl rfl rfl rfl
  | @armed _ d _ _ hphase harm =>
    obtain ⟨hcore, hparked, hreplies⟩ := LawfulDrives.arm_same harm
    have hanswers := Accounted.answers_after (l := l) (hreplies.trans (List.append_nil _).symm)
    rw [List.append_nil] at hanswers
    have hafter : (l.after d).core = l.core := hcore
    have hsame := h.same (m := l.after d) (hpumping hphase (by simp))
      (congrArg (fun ep => ep.connections) hafter) fun ch core yielded => ?_
    · exact fun _ => hsame (hpumping hphase (by simp))
    · have hview := view_eq (l := l) (m := l.after d) core yielded (congrFun hparked ch) rfl rfl
        rfl (by rw [hanswers]) rfl core yielded
      rw [hview, hafter]
      rfl
  | told hphase _ hreply => exact h.told hphase hreply
  | issued hphase _ hreply hfresh hfree => exact h.issued hacc hphase hreply hfresh hfree
  | cancelled t =>
    intro hopen ch s' hs'
    obtain ⟨yielded, hreached⟩ := h hopen ch s' hs'
    exact ⟨yielded, hreached.step (.cancel t) (view_cancelling l t ch s' yielded).symm⟩
  | received houtcome hwait =>
    exact fun hopen => h.received hopen houtcome hwait hopen

theorem run [LawfulDrives Q D] (h : Followed l) (hacc : Accounted l) (hfit : Fit l)
    (moves : List (Move Q D)) : Followed (l.run H moves) := by
  induction moves generalizing l with
  | nil => exact h
  | cons m moves ih => exact ih (h.step hacc hfit m) (hacc.step hfit m) (hfit.step m)

/-- A driver that was just spawned, with connections nothing was done with. -/
theorem spawn {d : D} (hparked : ∀ ch, Drives.parked d ch = .new)
    (hevents : (Drives.core d).events = [])
    (hconns : ∀ ch s, (Drives.core d).connections.lookup ch = some s → ∃ conn, s = .new conn)
    (now : Instant) : Followed (Loop.spawn d now) := by
  intro _ ch s hs
  obtain ⟨conn, rfl⟩ := hconns ch s hs
  refine ⟨[], conn, [], ?_⟩
  rw [Loop.view, show (Loop.spawn d now).driver = d from rfl, hparked,
    show (Loop.spawn d now).core.events = [] from hevents]
  rfl

end Followed

end Loop

end QuietQuic.Tokio
