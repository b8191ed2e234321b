import QuietQuic.Tokio.Serving

/-!
# Who is accepted

What `Server::accept` hands to the application, over whole runs of the loop: an invariant carries
the origin of every connection that is queued for it or was sent (`Credited`), from the datagram that
opened the connection in the core.

* `stocked`: what a move adds to the driver's collections.
* `accepts_genuine`: everybody that is accepted was admitted, and nobody twice.

The driver keeps copies of handles, in `surfaced`, `parked` and `pending_accept`. `Tracked` says of
which connections.

* `nothing_stale`: no copy outlives the `ConnectionLost` of its connection.
-/

namespace QuietQuic.Tokio

open QuietQuic.Lib QuietQuic.Proto

variable {Q : Quinn} {H : KeyedHash}

/-! ## What a run opened, and more of it -/

theorem opened_append (ep : Endpoint Q) (before after : List Call) :
    ep.opened H (before ++ after) =
      ep.opened H before ++ (ep.run H before).opened H after := by
  induction before generalizing ep with
  | nil => rfl
  | cons call before ih =>
    show ep.opens H call ++ (ep.step H call).2.opened H (before ++ after) = _
    rw [ih, ← List.append_assoc]
    rfl

theorem sourced_append {secrets : ServerSecrets} {calls : List Call} {t : Ticket}
    {entry : ClientEntry} (h : Endpoint.Sourced H secrets calls t entry) (more : List Call) :
    Endpoint.Sourced H secrets (calls ++ more) t entry := by
  obtain ⟨pre, ord, now, src, minute, data, post, rfl, hrest⟩ := h.datagram
  refine ⟨h.listed, pre, ord, now, src, minute, data, post ++ more, ?_, hrest⟩
  rw [List.append_assoc]
  rfl

/-! ## The driver's collections -/

/-- **A move adds to the stock** nothing, or a live connection, as the core reports it. -/
theorem stocked {l : Loop (Driver Q)} (m : Move Q (Driver Q)) :
    ∀ conn ∈ (l.step H m).driver.stock, conn ∈ l.driver.stock ∨
      conn.handle ∈ l.core.connections ∧ conn.clientId = l.core.clientId conn.handle := by
  have htaken := Loop.taken H l m
  generalize l.step H m = l' at htaken ⊢
  cases htaken with
  | @polled _ _ _ _ _ e rest hphase hq =>
    let d : Driver Q := { l.driver with core := { l.core with events := rest } }
    intro conn hconn
    change conn ∈ (d.onEvent e).stock at hconn
    rcases d.step_cases (.event e) with hchange | ⟨-, hsame⟩
    · change Driver.Changes d (.event e) (d.onEvent e) at hchange
      generalize d.onEvent e = d' at hchange hconn
      cases hchange with
      | @surfaced ch state _ hnew hstate heq =>
        rw [heq, Driver.stock, ← List.append_assoc] at hconn
        rcases List.mem_append.mp hconn with hold | hconn
        · exact .inl hold
        · rw [List.mem_singleton.mp hconn]
          exact .inr ⟨AMap.mem_iff_lookup.mpr ⟨state, hstate⟩, rfl⟩
      | lost =>
        refine .inl ?_
        rcases List.mem_append.mp hconn with hconn | hconn
        · exact List.mem_append_left _ hconn
        · exact List.mem_append_right _ (List.mem_filter.mp hconn).1
    · change Driver.Same d (d.onEvent e) at hsame
      rw [Driver.stock, hsame.accepted, hsame.pending] at hconn
      exact .inl hconn
  | @applied now _ ch cmd | @dropped now _ ch cmd =>
    intro conn hconn
    have hsame := l.driver.withState_same ch fun p state => p.applyCmd state cmd now
    change conn ∈ (l.driver.onCommand ch cmd now).stock at hconn
    rw [Driver.stock, Driver.onCommand, hsame.accepted, hsame.pending] at hconn
    exact .inl hconn
  | armed _ _ harm =>
    intro conn hconn
    rcases Driver.onArm_cases harm with ⟨rfl, -⟩ | ⟨rfl, -⟩
    · exact .inl (l.driver.stock_deliver ▸ hconn)
    · exact .inl hconn
  | _ => exact fun _ hconn => .inl hconn

/-! ## Origins -/

/-- The connection was opened by the calls, and bears the name of the client it was opened for. -/
def Credited (H : KeyedHash) (secrets : ServerSecrets) (ep₀ : Endpoint Q) (calls : List Call)
    (conn : Connection) : Prop :=
  ∃ t entry, (conn.handle, t) ∈ ep₀.opened H calls ∧
    Endpoint.Sourced H secrets calls t entry ∧ conn.clientId = some entry.clientId

theorem Credited.append {secrets : ServerSecrets} {ep₀ : Endpoint Q} {calls : List Call}
    {conn : Connection} (h : Credited H secrets ep₀ calls conn) (more : List Call) :
    Credited H secrets ep₀ (calls ++ more) conn := by
  obtain ⟨t, entry, hopened, hsourced, hid⟩ := h
  refine ⟨t, entry, ?_, sourced_append hsourced more, hid⟩
  rw [opened_append]
  exact List.mem_append_left _ hopened

/-- The calls read the clock where a datagram arrived. -/
theorem readings_sublist {calls arrivals : List Call}
    (h : (calls.filter Loop.arrives).Sublist arrivals) :
    (calls.filterMap Endpoint.reading).Sublist (arrivals.filterMap Endpoint.reading) := by
  have hsame : (calls.filter Loop.arrives).filterMap Endpoint.reading =
      calls.filterMap Endpoint.reading := by
    rw [List.filterMap_filter]
    refine List.filterMap_congr fun call _ => ?_
    cases call <;> rfl
  rw [← hsame]
  exact h.filterMap _

section Runs

variable {tls : Tls Q} {secrets : ServerSecrets} {ep₀ : Endpoint Q}

/-- A live connection that the core reports is credited. -/
theorem credited_of_live (hnew : Endpoint.newServer tls secrets = .ok ep₀) (calls : List Call)
    (hmono : (calls.filterMap Endpoint.reading).Pairwise (· ≤ ·)) {conn : Connection}
    (hlive : conn.handle ∈ (ep₀.run H calls).connections)
    (hid : conn.clientId = (ep₀.run H calls).clientId conn.handle) :
    Credited H secrets ep₀ calls conn := by
  obtain ⟨clients, hbuild, hcore⟩ := Endpoint.newServer_core hnew
  have hreach := Endpoint.refines_desk (H := H) hnew calls hmono
  obtain ⟨x, hx, hhandle⟩ := List.mem_map.mp (hreach.sound.live conn.handle hlive)
  obtain ⟨entry, hsourced, hnamed⟩ :=
    Endpoint.opened_spec (H := H) hbuild calls (by rw [hcore]; rfl) x hx
  refine ⟨x.2, entry, hhandle ▸ hx, hsourced, ?_⟩
  rw [hid, ← hhandle]
  exact hnamed.live (hhandle ▸ hlive)

/-- **Every run of the loop** credits its whole stock to the calls it made. -/
theorem stock_credited (hnew : Endpoint.newServer tls secrets = .ok ep₀) (now : Instant)
    (moves : List (Move Q (Driver Q))) :
    ((moves.filterMap Loop.arrival).filterMap Endpoint.reading).Pairwise (· ≤ ·) →
    ∃ calls, Loop.Worked H (serve ep₀ now) calls ((serve ep₀ now).run H moves) ∧
      (calls.filter Loop.arrives).Sublist (moves.filterMap Loop.arrival) ∧
      ∀ conn ∈ ((serve ep₀ now).run H moves).driver.stock, Credited H secrets ep₀ calls conn := by
  induction moves using List.reverseRecOn with
  | nil => exact fun _ => ⟨[], .refl rfl rfl rfl, .slnil, by simp [serve, Loop.run, Loop.spawn,
      Driver.new, Driver.stock]⟩
  | append_singleton moves m ih =>
    intro hmono
    have hall : (moves ++ [m]).filterMap Loop.arrival =
        moves.filterMap Loop.arrival ++ (Loop.arrival m).toList := by
      rw [List.filterMap_append]
      cases harr : Loop.arrival m <;> simp [harr]
    have hsub : (moves.filterMap Loop.arrival).Sublist ((moves ++ [m]).filterMap Loop.arrival) := by
      rw [hall]
      exact List.sublist_append_left _ _
    obtain ⟨calls, hworked, harrives, hcredited⟩ := ih (hmono.sublist (hsub.filterMap _))
    have hfit := (serve_fit hnew now).run (H := H) moves
    have hrun : (serve ep₀ now).run H (moves ++ [m]) =
        ((serve ep₀ now).run H moves).step H m := by
      rw [Loop.run, List.foldl_append]
      rfl
    rw [hrun, hall]
    generalize (serve ep₀ now).run H moves = l at hworked hcredited hfit
    have hcore : l.core = ep₀.run H calls := hworked.core
    obtain ⟨more, hworked', hmore⟩ := Loop.step_calls (H := H) hfit m
    refine ⟨calls ++ more, hworked.trans hworked', ?_, fun conn hconn => ?_⟩
    · rw [List.filter_append]
      exact harrives.append hmore
    · refine Credited.append ?_ more
      rcases stocked m conn hconn with hold | ⟨hlive, hid⟩
      · exact hcredited conn hold
      · rw [hcore] at hlive hid
        exact credited_of_live hnew calls
          ((hmono.sublist (hsub.filterMap _)).sublist (readings_sublist harrives)) hlive hid

end Runs

/-- **Who a server accepts.** In every run of the server's loop, with non-decreasing minute readings,
the connections the application is handed have different handles. Of the calls that the loop made of
the core, each of these connections was opened by an admission of its own: a client of the secrets
and a (nonce, freshness) that no other connection of the run was opened with. The connection bears
that client's id and sends its commands under its own handle, and a datagram arrived, within the
window, that carries the DCID of the client's PSK for them. -/
theorem accepts_genuine (H : KeyedHash) (tls : Tls Q) (secrets : ServerSecrets)
    (ep₀ : Endpoint Q) (hnew : Endpoint.newServer tls secrets = .ok ep₀) (now : Instant)
    (moves : List (Move Q (Driver Q)))
    (hmono : ((moves.filterMap Loop.arrival).filterMap Endpoint.reading).Pairwise (· ≤ ·)) :
    (((serve ep₀ now).run H moves).driver.accepted.map Connection.handle).Nodup ∧
    ∃ calls, ((serve ep₀ now).run H moves).core = ep₀.run H calls ∧
      ((serve ep₀ now).run H moves).wire = Endpoint.handedOut H ep₀ calls ∧
      ((serve ep₀ now).run H moves).handled =
        (Endpoint.answers H ep₀ calls).flatMap Proto.taken ∧
      (calls.filter Loop.arrives).Sublist (moves.filterMap Loop.arrival) ∧
      ((ep₀.opened H calls).map Prod.fst).Nodup ∧ ((ep₀.opened H calls).map Prod.snd).Nodup ∧
      ∀ conn ∈ ((serve ep₀ now).run H moves).driver.accepted,
        conn.cmds = conn.handle ∧
        ∃ t entry, (conn.handle, t) ∈ ep₀.opened H calls ∧ secrets.clients[t.1]? = some entry ∧
          conn.clientId = some entry.clientId ∧
          ∃ ord at₁ src minute data next,
            Move.datagram ord at₁ src minute data next ∈ moves ∧
            Carries data (buildDcid H entry.psk t.2.1 t.2.2).toList ∧
            t.2.2.toNat ≤ minute.toNat + WINDOW_MINUTES.toNat ∧
            minute.toNat ≤ t.2.2.toNat + WINDOW_MINUTES.toNat := by
  obtain ⟨calls, hworked, harrives, hcredited⟩ := stock_credited (H := H) hnew now moves hmono
  have hreach := Endpoint.refines_desk (H := H) hnew calls
    (hmono.sublist (readings_sublist harrives))
  have hbooked := ((serve_fit hnew now).run (H := H) moves).books
  have honce : (((serve ep₀ now).run H moves).driver.accepted.map Connection.handle).Nodup :=
    (((List.sublist_append_left _ _).map _).nodup (Driver.Booked.once hbooked))
  refine ⟨honce, calls, hworked.core, hworked.wire, hworked.handled, harrives,
    hreach.sound.sessions, hreach.sound.tickets, fun conn hconn => ?_⟩
  have hstock : conn ∈ ((serve ep₀ now).run H moves).driver.stock := List.mem_append_left _ hconn
  obtain ⟨t, entry, hopened, hsourced, hid⟩ := hcredited conn hstock
  refine ⟨Driver.Booked.tagged hbooked conn hstock, t, entry, hopened, hsourced.listed, hid, ?_⟩
  obtain ⟨pre, ord, at₁, src, minute, data, post, hcalls, hcarries, hfresh⟩ := hsourced.datagram
  have hmem : Call.handleDatagram ord at₁ src minute data ∈ calls.filter Loop.arrives := by
    refine List.mem_filter.mpr ⟨?_, rfl⟩
    rw [hcalls]
    exact List.mem_append_right _ List.mem_cons_self
  obtain ⟨m, hm, harr⟩ := List.mem_filterMap.mp (harrives.subset hmem)
  cases m with
  | datagram ord' at' src' minute' data' next =>
    obtain ⟨rfl, rfl, rfl, rfl, rfl⟩ := Call.handleDatagram.inj (Option.some.inj harr)
    exact ⟨_, _, _, _, _, next, hm, hcarries, hfresh⟩
  | _ => exact absurd harr (by simp [Loop.arrival])

theorem accepts_genuine_visit :
    Endpoint.newServer Endpoint.miniTls Endpoint.miniSecrets = .ok Endpoint.miniServer ∧
      ((serve Endpoint.miniServer 0).run zeroHash visit).driver.accepted.map Connection.handle =
        [⟨0, 1⟩] ∧
      ∃ calls, ((serve Endpoint.miniServer 0).run zeroHash visit).core =
          Endpoint.miniServer.run zeroHash calls ∧
        ∀ conn ∈ ((serve Endpoint.miniServer 0).run zeroHash visit).driver.accepted,
          ∃ t, (conn.handle, t) ∈ Endpoint.miniServer.opened zeroHash calls ∧
            ∃ entry ∈ Endpoint.miniSecrets.clients, conn.clientId = some entry.clientId := by
  refine ⟨Endpoint.miniServer_new, by decide +kernel, ?_⟩
  obtain ⟨-, calls, hcore, -, -, -, -, -, hgenuine⟩ := accepts_genuine zeroHash Endpoint.miniTls
    Endpoint.miniSecrets Endpoint.miniServer Endpoint.miniServer_new 0 visit (by decide)
  refine ⟨calls, hcore, fun conn hconn => ?_⟩
  obtain ⟨-, t, entry, hopened, hlisted, hid, -⟩ := hgenuine conn hconn
  exact ⟨t, hopened, entry, List.mem_of_getElem? hlisted, hid⟩

/-! ## What is kept of a connection -/

/-- What is surfaced was announced, and will be heard of; what was announced and is live is
surfaced; and what waits for delivery is. -/
structure Tracked (l : Loop (Driver Q)) : Prop where
  announced : ∀ ch ∈ l.driver.surfaced, .connected ch ∈ l.handled ∧ Heard l.core.toCore ch
  known : ∀ ch, .connected ch ∈ l.handled → ch.generation < l.core.nextGeneration
  surfaced : ∀ ch, .connected ch ∈ l.handled → ch ∈ l.core.connections → ch ∈ l.driver.surfaced
  pending : ∀ conn ∈ l.driver.pendingAccept, conn.handle ∈ l.driver.surfaced

namespace Tracked

variable {l l' : Loop (Driver Q)}

/-- Nothing is added to the collections, and no handle was given out twice. -/
theorem same (h : Tracked l) (hsurfaced : l'.driver.surfaced = l.driver.surfaced)
    (hpending : ∀ conn ∈ l'.driver.pendingAccept, conn ∈ l.driver.pendingAccept)
    (hhandled : l'.handled = l.handled)
    (hgen : l.core.nextGeneration ≤ l'.core.nextGeneration)
    (hlive : ∀ ch ∈ l'.core.connections,
      ch ∈ l.core.connections ∨ l.core.nextGeneration ≤ ch.generation)
    (hheard : ∀ ch, Heard l.core.toCore ch → Heard l'.core.toCore ch) : Tracked l' := by
  refine ⟨fun ch hch => ?_, fun ch hch => ?_, fun ch hann hch => ?_, fun conn hconn => ?_⟩
  · rw [hsurfaced] at hch
    rw [hhandled]
    exact ⟨(h.announced ch hch).1, hheard ch (h.announced ch hch).2⟩
  · rw [hhandled] at hch
    exact Nat.lt_of_lt_of_le (h.known ch hch) hgen
  · rw [hhandled] at hann
    rw [hsurfaced]
    rcases hlive ch hch with hold | hnewer
    · exact h.surfaced ch hann hold
    · exact absurd (h.known ch hann) (Nat.not_lt.mpr hnewer)
  · rw [hsurfaced]
    exact h.pending conn (hpending conn hconn)

/-- The driver handles an event. -/
theorem polled (h : Tracked l) {e : Event} {rest : List Event}
    (hheard : ∀ ch, Heard l.core.toCore ch → Heard l'.core.toCore ch ∨
      ∃ reason, l'.handled = l.handled ++ [.connectionLost ch reason])
    (hdriver : l'.driver =
      Driver.onEvent { l.driver with core := { l.core with events := rest } } e)
    (hhandled : l'.handled = l.handled ++ [e])
    (hlive : ∀ ch, ch ∈ l'.core.connections ↔ ch ∈ l.core.connections)
    (hgen : l'.core.nextGeneration = l.core.nextGeneration)
    (hnamed : e.conn.generation < l.core.nextGeneration)
    (hgone : ∀ ch reason, e = .connectionLost ch reason → ch ∉ l.core.connections) :
    Tracked l' := by
  have hcases : ∀ {a : Event}, a ∈ l'.handled → a ∈ l.handled ∨ a = e := by
    intro a ha
    rw [hhandled] at ha
    exact (List.mem_append.mp ha).imp_right List.mem_singleton.mp
  have hstays : ∀ ch, (∀ reason, e ≠ .connectionLost ch reason) → ch ∈ l.driver.surfaced →
      .connected ch ∈ l'.handled ∧ Heard l'.core.toCore ch := by
    intro ch hno hch
    refine ⟨hhandled ▸ List.mem_append_left _ (h.announced ch hch).1, ?_⟩
    refine (hheard ch (h.announced ch hch).2).resolve_right ?_
    rintro ⟨reason, hlost⟩
    rw [hhandled] at hlost
    exact hno reason (List.singleton_inj.mp (List.append_cancel_left hlost))
  have hknown : ∀ ch, .connected ch ∈ l'.handled → ch.generation < l'.core.nextGeneration := by
    intro ch hch
    rw [hgen]
    rcases hcases hch with hold | rfl
    · exact h.known ch hold
    · exact hnamed
  let d : Driver Q := { l.driver with core := { l.core with events := rest } }
  change l'.driver = d.onEvent e at hdriver
  rcases d.step_cases (.event e) with hchange | ⟨hidle, hsame⟩
  · change Driver.Changes d (.event e) (d.onEvent e) at hchange
    rw [← hdriver] at hchange
    generalize hd : l'.driver = d' at hchange
    cases hchange with
    | @surfaced ch state _ hnew hstate heq =>
      have hchlive : ch ∈ l.core.connections := AMap.mem_iff_lookup.mpr ⟨state, hstate⟩
      rw [heq] at hd
      refine ⟨fun c hc => ?_, hknown, fun c hann hc => ?_, fun conn hconn => ?_⟩
      · rw [hd] at hc
        rcases Finset.mem_insert.mp hc with rfl | hc
        · exact ⟨hhandled ▸ List.mem_append_right _ (List.mem_singleton_self _),
            .inl ((hlive c).mpr hchlive)⟩
        · exact hstays c (by simp) hc
      · rw [hd]
        rcases hcases hann with hold | heq'
        · exact Finset.mem_insert_of_mem (h.surfaced c hold ((hlive c).mp hc))
        · rw [Event.connected.inj heq']
          exact Finset.mem_insert_self ch _
      · rw [hd] at hconn ⊢
        rcases List.mem_append.mp hconn with hold | hconn
        · exact Finset.mem_insert_of_mem (h.pending conn hold)
        · rw [List.mem_singleton.mp hconn]
          exact Finset.mem_insert_self ch _
    | @lost ch reason =>
      refine ⟨fun c hc => ?_, hknown, fun c hann hc => ?_, fun conn hconn => ?_⟩
      · rw [hd] at hc
        obtain ⟨hne, hc⟩ := Finset.mem_erase.mp hc
        exact hstays c (fun reason' heq => hne (Event.connectionLost.inj heq).1.symm) hc
      · rw [hd]
        have hold : .connected c ∈ l.handled := (hcases hann).resolve_right (by simp)
        have hclive : c ∈ l.core.connections := (hlive c).mp hc
        refine Finset.mem_erase.mpr ⟨?_, h.surfaced c hold hclive⟩
        rintro rfl
        exact hgone c reason rfl hclive
      · rw [hd] at hconn ⊢
        obtain ⟨hold, hne⟩ := List.mem_filter.mp hconn
        exact Finset.mem_erase.mpr ⟨of_decide_eq_true hne, h.pending conn hold⟩
  · change Driver.Same d (d.onEvent e) at hsame
    rw [← hdriver] at hsame
    refine ⟨fun c hc => ?_, hknown, fun c hann hc => ?_, fun conn hconn => ?_⟩
    · rw [hsame.surfaced] at hc
      refine hstays c (fun reason he => ?_) hc
      subst he
      exact hidle
    · rw [hsame.surfaced]
      have hclive : c ∈ l.core.connections := (hlive c).mp hc
      rcases hcases hann with hold | rfl
      · exact h.surfaced c hold hclive
      · rcases hidle with hmem | hnone
        · exact hmem
        · exact absurd hclive (AList.lookup_eq_none.mp hnone)
    · rw [hsame.pending] at hconn
      rw [hsame.surfaced]
      exact h.pending conn hconn

/-- **Every move keeps track.** -/
theorem step (h : Tracked l) (hfit : Loop.Fit l) (m : Move Q (Driver Q)) :
    Tracked (l.step H m) := by
  have hheard := fun ch (hbefore : Heard l.core.toCore ch) =>
    Loop.heard_step (H := H) hfit m hbefore
  have htaken := Loop.taken H l m
  generalize l.step H m = l' at htaken hheard ⊢
  have hstays : l'.handled = l.handled → ∀ ch, Heard l.core.toCore ch →
      Heard l'.core.toCore ch := by
    intro hhandled ch hbefore
    refine (hheard ch hbefore).resolve_right ?_
    rintro ⟨reason, hlost⟩
    exact absurd (congrArg List.length (hlost.symm.trans hhandled)) (by simp)
  have hcalled : ∀ {call : Call}, l'.driver = { l.driver with core := (l.core.step H call).2 } →
      l'.handled = l.handled → Tracked l' := by
    intro call hdriver hhandled
    have hcore : l'.core = (l.core.step H call).2 := congrArg Driver.core hdriver
    refine h.same (by rw [hdriver]) (fun conn hconn => by rwa [hdriver] at hconn) hhandled ?_
      (fun ch hch => ?_) (hstays hhandled)
    · rw [hcore]
      exact Endpoint.le_nextGeneration_step l.core call
    · rw [hcore] at hch
      exact Endpoint.mem_or_newer hch
  cases htaken with
  | idle | drained | failed | told | issued | cancelled | received =>
    exact ⟨h.announced, h.known, h.surfaced, h.pending⟩
  | @polled _ _ _ _ _ e rest hphase hq =>
    obtain ⟨-, hlive⟩ := (hfit.reacts H hq).stays
    have hgen := (hfit.reacts H hq).generation
    rw [LawfulDrives.core_setCore] at hlive hgen
    have hhead : e ∈ l.core.events := by
      rw [hq]
      exact List.mem_cons_self
    exact h.polled hheard rfl rfl hlive hgen (hfit.queued.named e hhead) fun ch reason he =>
      hfit.queued.gone ch reason (he ▸ hhead)
  | sent | flushed | arrived | fired => exact hcalled rfl rfl
  | @applied now _ ch cmd | @dropped now _ ch cmd =>
    obtain ⟨hgen, hlive⟩ := l.driver.withState_core ch fun p state => p.applyCmd state cmd now
    have hsame := l.driver.withState_same ch fun p state => p.applyCmd state cmd now
    exact h.same hsame.surfaced (fun conn hconn => hsame.pending ▸ hconn) rfl hgen.ge
      (fun a ha => .inl ((hlive a).mp ha)) (hstays rfl)
  | armed _ _ harm =>
    rcases Driver.onArm_cases harm with ⟨rfl, -⟩ | ⟨rfl, -⟩
    · obtain ⟨hcore, -, hsurfaced, -, -⟩ := l.driver.deliver_spec
      have hrest : ∀ conn ∈ l.driver.deliver.pendingAccept, conn ∈ l.driver.pendingAccept := by
        unfold Driver.deliver
        split
        · exact fun _ hconn => hconn
        · rename_i hpending
          rw [hpending]
          exact fun _ hconn => List.mem_cons_of_mem _ hconn
      refine h.same hsurfaced hrest rfl (congrArg (fun ep => ep.nextGeneration) hcore).ge
        (fun ch hch => .inl ?_) (hstays rfl)
      change ch ∈ l.driver.deliver.core.connections at hch
      rw [hcore] at hch
      exact hch
    · exact ⟨h.announced, h.known, h.surfaced, h.pending⟩

theorem run (h : Tracked l) (hfit : Loop.Fit l) (moves : List (Move Q (Driver Q))) :
    Tracked (l.run H moves) := by
  induction moves generalizing l with
  | nil => exact h
  | cons m moves ih => exact ih (h.step hfit m) (hfit.step m)

end Tracked

/-- **No copy of a handle outlives its connection.** In every run of the server's loop: operations
are parked for exactly the surfaced connections; a surfaced one was announced, and is live or its
`ConnectionLost` is queued; one that was announced is surfaced as long as it is live; what waits for
delivery is surfaced; and the core names the client of live connections alone. -/
theorem nothing_stale (H : KeyedHash) (tls : Tls Q) (secrets : ServerSecrets)
    (ep₀ : Endpoint Q) (hnew : Endpoint.newServer tls secrets = .ok ep₀) (now : Instant)
    (moves : List (Move Q (Driver Q))) :
    (∀ ch, ch ∈ ((serve ep₀ now).run H moves).driver.parked ↔
      ch ∈ ((serve ep₀ now).run H moves).driver.surfaced) ∧
    (∀ ch ∈ ((serve ep₀ now).run H moves).driver.surfaced,
      .connected ch ∈ ((serve ep₀ now).run H moves).handled ∧
        Heard ((serve ep₀ now).run H moves).core.toCore ch) ∧
    (∀ ch ∈ ((serve ep₀ now).run H moves).core.connections,
      .connected ch ∈ ((serve ep₀ now).run H moves).handled →
        ch ∈ ((serve ep₀ now).run H moves).driver.surfaced) ∧
    (∀ conn ∈ ((serve ep₀ now).run H moves).driver.pendingAccept,
      conn.handle ∈ ((serve ep₀ now).run H moves).driver.surfaced) ∧
    ∀ ch, ((serve ep₀ now).run H moves).core.clientId ch ≠ none →
      ch ∈ ((serve ep₀ now).run H moves).core.connections := by
  have hfit := (serve_fit hnew now).run (H := H) moves
  have htracked : Tracked ((serve ep₀ now).run H moves) :=
    Tracked.run ⟨by simp [serve, Loop.spawn, Driver.new], by simp [serve, Loop.spawn],
      by simp [serve, Loop.spawn], by simp [serve, Loop.spawn, Driver.new]⟩
      (serve_fit hnew now) moves
  refine ⟨hfit.books.parked, htracked.announced, fun ch hch hann => htracked.surfaced ch hann hch,
    htracked.pending, fun ch hid => ?_⟩
  obtain ⟨calls, hworked, -⟩ := Loop.run_calls (H := H) (serve_fit hnew now) moves
  have hcore : ((serve ep₀ now).run H moves).core = ep₀.run H calls := hworked.core
  obtain ⟨clients, -, hstart⟩ := Endpoint.newServer_core hnew
  have hids : IdsLive (ep₀.run H calls).toCore := by
    refine Endpoint.run_inv (I := fun ep => IdsLive ep.toCore) (fun _ call h => h.step call) calls ?_
    rw [hstart]
    exact fun ch hch => absurd hch (AList.notMem_empty ch)
  rw [hcore] at hid ⊢
  exact hids ch (AList.lookup_isSome.mp (Option.isSome_iff_ne_none.mpr hid))

/-- The client that visits closes its connection. -/
def leave : List (Move Mini (Driver Mini)) :=
  visit ++ .datagram Endpoint.keyOrder 0 Endpoint.miniAddr 100 (Endpoint.toFirst [0x1c]) 0 ::
    pumps 4

theorem nothing_stale_leave :
    Endpoint.newServer Endpoint.miniTls Endpoint.miniSecrets = .ok Endpoint.miniServer ∧
      ((serve Endpoint.miniServer 0).run zeroHash visit).driver.parked.keys = [⟨0, 1⟩] ∧
      ∀ ch, ch ∉ ((serve Endpoint.miniServer 0).run zeroHash leave).driver.parked := by
  have hsurfaced : ((serve Endpoint.miniServer 0).run zeroHash leave).driver.surfaced = ∅ := by
    decide +kernel
  obtain ⟨hparked, -⟩ := nothing_stale zeroHash Endpoint.miniTls Endpoint.miniSecrets
    Endpoint.miniServer Endpoint.miniServer_new 0 leave
  refine ⟨Endpoint.miniServer_new, by decide +kernel, fun ch hch => ?_⟩
  rw [hparked, hsurfaced] at hch
  exact Finset.notMem_empty ch hch

end QuietQuic.Tokio
