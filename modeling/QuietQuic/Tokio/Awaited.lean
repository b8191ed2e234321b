import QuietQuic.Tokio.Views

/-!
# Nobody hangs

A call on a handle waits for a channel that the driver holds the other end of. `Placed` says where
that end is, for a driver that is still there: behind a command that is still queued, parked under a
connection that is live or whose `ConnectionLost` is on its way, or used. When the driver is gone
every channel resolves.

* `Watched.run`: whatever is parked is parked under a connection that will be heard of.
* `Accounted.placed`: the place of every channel that is awaited.
-/

namespace QuietQuic.Tokio

open QuietQuic.Lib QuietQuic.Proto

variable {Q : Quinn} {D : Type} [Drives Q D] {H : KeyedHash}

/-! ## Live, or lost in the queue -/

/-- The connection is live, or its loss is queued. -/
def Heard (core : Core Q) (ch : ConnectionHandle) : Prop :=
  ch ∈ core.connections ∨ ∃ reason, .connectionLost ch reason ∈ core.events

/-- A call that hands out no event leaves nobody unheard. -/
theorem Heard.step {ep : Endpoint Q} (hqueued : Queued ep.toCore) {call : Call}
    (htaken : Proto.taken (ep.step H call).1 = []) {ch : ConnectionHandle}
    (h : Heard ep.toCore ch) : Heard (ep.step H call).2.toCore ch := by
  cases hpass : Endpoint.passStart H ep call with
  | some start =>
    obtain ⟨core, ord, now⟩ := start
    obtain ⟨outbound, heq⟩ := Endpoint.step_of_pass hpass
    obtain ⟨-, hevents, hmem⟩ := hqueued.start hpass
    have hafter : Heard (core.serviceConnections ord now) ch := by
      rcases h with hlive | ⟨reason, hlost⟩
      · obtain ⟨s, hs⟩ := AMap.mem_iff_lookup.mp (Core.mem_routed.mpr (hmem ch hlive))
        rcases mem_pass_or_lost ord now hs with hstays | ⟨reason, hlost⟩
        · exact .inl hstays
        · refine .inr ⟨reason, ?_⟩
          rw [events_pass]
          exact List.mem_append_right _ (List.mem_append_right _ hlost)
      · refine .inr ⟨reason, ?_⟩
        rw [events_pass, hevents]
        exact List.mem_append_left _ hlost
    rw [heq]
    exact hafter
  | none =>
    have hqueue := taken_of_no_pass hpass
    rw [htaken, List.nil_append] at hqueue
    rcases h with hlive | ⟨reason, hlost⟩
    · exact .inl ((mem_of_no_pass hpass ch).mpr hlive)
    · exact .inr ⟨reason, hqueue ▸ hlost⟩

namespace Loop

section Step

variable [LawfulDrives Q D]

/-- **A connection is heard of until its loss is handled.** -/
theorem heard_step {l : Loop D} (hfit : Fit l) (m : Move Q D) {ch : ConnectionHandle}
    (h : Heard l.core.toCore ch) : Heard (l.step H m).core.toCore ch ∨
      ∃ reason, (l.step H m).handled = l.handled ++ [.connectionLost ch reason] := by
  have hsame : ∀ {ep : Endpoint Q}, ep = l.core → Heard ep.toCore ch := by
    rintro _ rfl
    exact h
  have hcalled : ∀ {call : Call}, Proto.taken (l.core.step H call).1 = [] →
      Heard (l.withCore (l.core.step H call).2).core.toCore ch := by
    intro call htaken
    rw [core_withCore]
    exact h.step hfit.queued htaken
  have htaken := Loop.taken H l m
  generalize l.step H m = l' at htaken ⊢
  cases htaken with
  | idle | drained | failed | told | issued | cancelled | received => exact .inl h
  | @polled _ _ _ _ _ e rest hphase hq =>
    obtain ⟨hevents, hlive⟩ := (hfit.reacts H hq).stays
    rw [LawfulDrives.core_setCore] at hevents hlive
    rcases h with hlive' | ⟨reason, hlost⟩
    · exact .inl (.inl ((hlive ch).mpr hlive'))
    · rw [hq] at hlost
      rcases List.mem_cons.mp hlost with rfl | hlost
      · exact .inr ⟨reason, rfl⟩
      · refine .inl (.inr ⟨reason, ?_⟩)
        show _ ∈ (Drives.core (l.reacting e rest).1).events
        rw [show (Drives.core (l.reacting e rest).1).events = rest from hevents]
        exact hlost
  | sent _ ht =>
    refine .inl (hcalled ?_)
    rw [ht]
    rfl
  | flushed _ ht =>
    refine .inl (hcalled ?_)
    rw [ht]
    rfl
  | arrived | fired => exact .inl (hcalled rfl)
  | @applied now _ c cmd _ hphase hcmds htakes =>
    obtain ⟨s, happlies⟩ := LawfulDrives.applies cmd now hfit.books htakes
    refine .inl ?_
    show Heard (Drives.core (Drives.onCommand l.driver c cmd now)).toCore ch
    rw [happlies.core]
    exact h.imp_left fun hlive => (AMap.mem_insert_of_lookup happlies.live).mpr hlive
  | dropped now _ _ _ htakes =>
    exact .inl (hsame (congrArg Drives.core (LawfulDrives.drops _ now htakes)))
  | armed _ _ harm => exact .inl (hsame (LawfulDrives.arm_same harm).1)

/-- Whatever is parked is parked under a connection that will be heard of. -/
def Watched (l : Loop D) : Prop :=
  ∀ ch σ, ∀ t ∈ (Drives.parked l.driver ch).tokens σ, Heard l.core.toCore ch

namespace Watched

variable {l : Loop D}

omit [LawfulDrives Q D] in
theorem spawn {d : D} (hparked : ∀ ch, Drives.parked d ch = .new) (now : Instant) :
    Watched (Loop.spawn d now) := by
  intro ch σ t ht
  rw [show (Loop.spawn d now).driver = d from rfl, hparked] at ht
  cases σ <;> exact absurd ht (by simp [Parked.new, Parked.tokens])

/-- **Every move keeps the watch.** -/
theorem step (h : Watched l) (hacc : Accounted l) (hfit : Fit l) (m : Move Q D) :
    Watched (l.step H m) := by
  intro ch σ t ht
  -- what was parked before is heard of, unless this is its loss
  have hkept : t ∈ (Drives.parked l.driver ch).tokens σ →
      (∀ reason, (l.step H m).handled ≠ l.handled ++ [.connectionLost ch reason]) →
      Heard (l.step H m).core.toCore ch := fun hold hnot =>
    (heard_step hfit m (h ch σ t hold)).resolve_right fun hlost => hlost.elim hnot
  have hquiet : (l.step H m).handled = l.handled →
      ∀ reason, (l.step H m).handled ≠ l.handled ++ [.connectionLost ch reason] := by
    intro hsame reason hmore
    have hlength := congrArg List.length (hsame.symm.trans hmore)
    simp at hlength
  have htaken := Loop.taken H l m
  generalize l.step H m = l' at htaken ht hkept hquiet ⊢
  cases htaken with
  | idle | drained | failed | told | issued | cancelled | received => exact hkept ht (hquiet rfl)
  | @polled _ _ _ _ _ e rest hphase hq =>
    have hparked := LawfulDrives.parked_setCore l.driver { l.core with events := rest }
    have hone : Accounted (l.withCore { l.core with events := rest }) :=
      hacc.frame id hparked rfl rfl rfl rfl rfl
    obtain ⟨p', new, hreacted⟩ := hone.reacted (hfit.reacts H hq)
    have hupdate : Drives.parked (l.reacting e rest).1 =
        Function.update (Drives.parked l.driver) e.conn p' := hparked ▸ hreacted.operates.parked
    change t ∈ (Drives.parked (l.reacting e rest).1 ch).tokens σ at ht
    rw [hupdate] at ht
    by_cases hch : ch = e.conn
    · subst hch
      rw [Function.update_self] at ht
      have hnot : e.isLost ≠ true := by
        intro hlost
        rw [hreacted.lost hlost] at ht
        cases σ <;> exact absurd ht (by simp [Parked.new, Parked.tokens])
      refine hkept (congrFun hparked e.conn ▸ hreacted.settles.subset ht) fun reason hmore => ?_
      have he : e = .connectionLost e.conn reason := by simpa using hmore
      exact hnot (congrArg Event.isLost he)
    · rw [Function.update_of_ne hch] at ht
      refine hkept ht fun reason hmore => hch ?_
      have he : e = .connectionLost ch reason := by simpa using hmore
      exact (congrArg Event.conn he).symm
  | sent | flushed | arrived | fired =>
    exact hkept (LawfulDrives.parked_setCore l.driver _ ▸ ht) (hquiet rfl)
  | @applied now _ c cmd _ hphase hcmds htakes =>
    obtain ⟨s, happlies⟩ := LawfulDrives.applies cmd now hfit.books htakes
    change t ∈ (Drives.parked (Drives.onCommand l.driver c cmd now) ch).tokens σ at ht
    rw [happlies.parked] at ht
    by_cases hch : ch = c
    · subst hch
      refine .inl ?_
      show ch ∈ (Drives.core (Drives.onCommand l.driver ch cmd now)).connections
      rw [happlies.core]
      exact (AList.mem_insert _).mpr (.inl rfl)
    · rw [Function.update_of_ne hch] at ht
      exact hkept ht (hquiet rfl)
  | dropped now _ _ _ htakes =>
    exact hkept (congrArg Drives.parked (LawfulDrives.drops _ now htakes) ▸ ht) (hquiet rfl)
  | armed _ _ harm => exact hkept ((LawfulDrives.arm_same harm).2.1 ▸ ht) (hquiet rfl)

theorem run (h : Watched l) (hacc : Accounted l) (hfit : Fit l) (moves : List (Move Q D)) :
    Watched (l.run H moves) := by
  induction moves generalizing l with
  | nil => exact h
  | cons m moves ih => exact ih (h.step hacc hfit m) (hacc.step hfit m) (hfit.step m)

end Watched

end Step

/-! ## The place of a channel -/

/-- Where the other end of a channel is, when the driver is still there. -/
inductive Placed (l : Loop D) (t : Token) (ch : ConnectionHandle) (cmd : Cmd) : Prop
  /-- Behind its command, in the queue. -/
  | queued (hcmd : (ch, cmd) ∈ l.commands) (hparked : ∀ σ, t ∉ (Drives.parked l.driver ch).tokens σ)
      (hanswer : l.outcome t = none)
  /-- Parked at the slot of its command. -/
  | parked {σ} (hslot : cmd.slot = some σ) (hparked : t ∈ (Drives.parked l.driver ch).tokens σ)
      (hqueue : ∀ x ∈ l.commands, x.2.reply ≠ some t) (hheard : Heard l.core.toCore ch)
      (hanswer : l.outcome t = none)
  /-- Used, once, for a reply of the right kind. -/
  | answered {r} (hanswer : l.answers.filter (fun x => x.1 = t) = [(t, r)])
      (houtcome : l.outcome t = some r) (hfits : r.Fits cmd)

/-- A channel nothing was put into resolves only when the driver is gone. -/
theorem outcome_eq_none {l : Loop D} (hopen : l.phase ≠ .returned) {t : Token}
    (h : t ∉ l.answers.map Prod.fst) : l.outcome t = none := by
  unfold outcome
  split
  · rename_i x hfind
    obtain rfl : x.1 = t := by simpa using List.find?_some hfind
    exact absurd (List.mem_map_of_mem (List.mem_of_find?_eq_some hfind)) h
  · exact if_neg hopen

/-- The one answer of a channel is what it comes to. -/
theorem outcome_of_filter {l : Loop D} {t : Token} {x : Token × Reply}
    (h : l.answers.filter (fun x => x.1 = t) = [x]) : l.outcome t = some x.2 := by
  have hfind : l.answers.find? (fun x => x.1 = t) = some x := by
    rw [← List.head?_filter, h]
    rfl
  rw [outcome, hfind]

/-- **The place of an awaited channel.** -/
theorem Accounted.placed [LawfulDrives Q D] {l : Loop D} (h : Accounted l) (hfit : Fit l)
    (hwatched : Watched l) (hopen : l.phase ≠ .returned) {t : Token} (ht : t ∈ l.waiting)
    {ch : ConnectionHandle} {cmd : Cmd} (hcmd : l.issued.lookup t = some (ch, cmd)) :
    Placed l t ch cmd := by
  obtain ⟨core⟩ := LawfulDrives.inhabited hfit.books (hfit.issued t _ hcmd)
  have hsound := h.sound hopen ch core []
  have howner : l.owner t = some ch := owner_eq_some_iff.mpr ⟨cmd, hcmd⟩
  obtain ⟨-, hplaces⟩ := hsound.covered t (Finset.mem_filter.mpr ⟨ht, howner⟩)
  have hown : ∀ {cmd'}, (l.view ch core []).issued.lookup t = some cmd' → cmd' = cmd := by
    intro cmd' hcmd'
    have := (view_lookup l ch core [] t cmd').mp hcmd'
    exact (Prod.mk.inj (Option.some.inj (this.symm.trans hcmd))).2
  -- what was answered on the channel is all in the view of its connection
  have hsent : (l.view ch core []).sent.filter (fun x => x.1 = t) =
      l.answers.filter fun x => x.1 = t := by
    show (l.answers.filter fun x => l.owner x.1 = some ch).filter (fun x => x.1 = t) = _
    rw [List.filter_filter]
    refine List.filter_congr fun x _ => ?_
    by_cases hx : x.1 = t <;> simp [hx, howner]
  have hnone : t ∉ (l.view ch core []).sent.map Prod.fst → l.outcome t = none := by
    intro hnot
    refine outcome_eq_none hopen fun hmem => hnot ?_
    obtain ⟨x, hx, rfl⟩ := List.mem_map.mp hmem
    exact List.mem_map_of_mem (List.mem_filter.mpr ⟨hx, decide_eq_true howner⟩)
  by_cases hqueue : t ∈ (l.view ch core []).commands.filterMap Cmd.reply
  · obtain ⟨cmd', hmem, hreply⟩ := List.mem_filterMap.mp hqueue
    obtain ⟨hparked, hnot⟩ := hsound.queued_only hmem hreply
    obtain rfl := hown (hsound.queued cmd' hmem t hreply)
    obtain ⟨x, hx, hof⟩ := List.mem_filterMap.mp hmem
    exact .queued (ofConn_eq_some_iff.mp hof ▸ hx) hparked (hnone hnot)
  · by_cases hused : t ∈ (l.view ch core []).sent.map Prod.fst
    · have hone : ((l.view ch core []).sent.filter fun x => x.1 = t).length = 1 := by
        have hcount := List.nodup_iff_count_eq_one.mp hsound.nodup_sent t hused
        rw [List.count, List.countP_map, List.countP_eq_length_filter] at hcount
        rw [← hcount]
        refine congrArg List.length (List.filter_congr fun x _ => ?_)
        by_cases hx : x.1 = t <;> simp [hx]
      obtain ⟨x, hx⟩ := List.length_eq_one_iff.mp hone
      have hself : x ∈ (l.view ch core []).sent.filter fun x => x.1 = t :=
        hx ▸ List.mem_singleton_self x
      obtain ⟨hmem, hfst⟩ := List.mem_filter.mp hself
      obtain rfl : x.1 = t := by simpa using hfst
      obtain ⟨cmd', hcmd', hfits⟩ := hsound.fits x hmem
      obtain rfl := hown hcmd'
      rw [hsent] at hx
      exact .answered hx (outcome_of_filter hx) hfits
    · have hheld : held (l.view ch core []).slotOf (l.view ch core []).parked t = 1 := by
        rw [Sys.places, List.count_eq_zero.mpr hqueue, List.count_eq_zero.mpr hused] at hplaces
        omega
      unfold held at hheld
      split at hheld
      · rename_i σ hslot
        have hparked := List.count_pos_iff.mp (hheld ▸ Nat.one_pos)
        obtain ⟨cmd', hcmd', hσ⟩ := Option.bind_eq_some_iff.mp hslot
        obtain rfl := hown hcmd'
        refine .parked hσ hparked (fun x hx hreply => hqueue ?_) (hwatched ch σ t hparked)
          (hnone hused)
        have hx' := h.queued x hx t hreply
        obtain rfl := Option.some.inj (hx'.symm.trans hcmd)
        exact List.mem_filterMap.mpr ⟨_, List.mem_filterMap.mpr ⟨_, hx, ofConn_self ch _⟩, hreply⟩
      · exact absurd hheld (by simp)

/-- When the driver is gone every awaited channel resolves. -/
theorem Accounted.resolved {l : Loop D} (h : Accounted l) (hgone : l.phase = .returned)
    {t : Token} (ht : t ∈ l.waiting) : ∃ r, l.outcome t = some r ∧ l.Fitting (t, r) := by
  have hsome : ∃ r, l.outcome t = some r := by
    unfold outcome
    split
    · exact ⟨_, rfl⟩
    · obtain ⟨x, hx⟩ := AMap.mem_iff_lookup.mp (h.awaited t ht)
      have hclosed : ∃ y, x.2.closedReply = some y := by
        have hreply := h.carried t x hx
        cases hcmd : x.2 <;> rw [hcmd] at hreply <;> simp [Cmd.reply, Cmd.closedReply] at hreply ⊢
      obtain ⟨y, hy⟩ := hclosed
      refine ⟨y.2, ?_⟩
      rw [if_pos hgone, hx, Option.bind_some, hy]
      rfl
  obtain ⟨r, hr⟩ := hsome
  exact ⟨r, hr, h.fitting_of_outcome hr⟩

end Loop

end QuietQuic.Tokio
