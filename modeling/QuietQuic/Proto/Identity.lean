import QuietQuic.Proto.Step

/-!
# Identity, keys and admission agree

A connection enters a server only through the `handle_datagram` call that admitted it, under the
config built from the admitting client's PSK, and `client_id` names that client for as long as
the handle is live and nobody afterwards (`identity`). quinn-proto may answer anything: the
handle, the identity and the config are tracked by the endpoint itself.

`Named` and `Gone` are the two phases of one handle's life, each kept by every public call; the
generation in a handle is what keeps a later connection in the same slot apart.
-/

namespace QuietQuic.Proto

open QuietQuic.Lib

namespace Endpoint

variable {Q : Quinn} {H : KeyedHash}

/-- The handles a call adds to the endpoint, whether or not they survive its servicing pass. -/
def created (H : KeyedHash) (ep : Endpoint Q) : Call → List ConnectionHandle
  | .handleDatagram _ now src minute data =>
    (fed ep.toCore (ep.gate H now src minute data).1 now src data).2.connections.keys.filter
      fun ch => ch ∉ ep.connections
  | _ => []

/-- The handle was issued; while it is live its id is `id`, and when it is not it has none. -/
structure Named (ch : ConnectionHandle) (id : String) (core : Core Q) : Prop where
  issued : ch.generation < core.nextGeneration
  live : ch ∈ core.connections → core.clientId ch = some id
  reaped : ch ∉ core.connections → core.clientId ch = none

/-- The handle was issued and is not live any more. -/
structure Gone (ch : ConnectionHandle) (core : Core Q) : Prop where
  issued : ch.generation < core.nextGeneration
  notLive : ch ∉ core.connections
  noId : core.clientId ch = none

theorem ne_of_generation {core core' : Core Q} {ch a : ConnectionHandle} {conn : Q.Conn}
    {id : String} (h : Registered core core' ch conn id)
    (ha : a.generation < core.nextGeneration) : a ≠ ch := by
  rintro rfl
  have := h.generation
  omega

theorem Registered.mem {core core' : Core Q} {ch : ConnectionHandle} {conn : Q.Conn} {id : String}
    (h : Registered core core' ch conn id) : ch ∈ core'.connections := by
  rw [h.connections]
  exact (AList.mem_insert _).mpr (Or.inl rfl)

/-- The new handle has its id. -/
theorem Registered.named {core core' : Core Q} {ch : ConnectionHandle} {conn : Q.Conn} {id : String}
    (h : Registered core core' ch conn id) : Named ch id core' := by
  refine ⟨?_, fun _ => ?_, fun hnot => absurd h.mem hnot⟩
  · rw [h.nextGeneration, h.generation]
    exact Nat.lt_succ_self _
  · rw [Core.clientId, h.clientIds, AList.lookup_insert]

theorem Named.registered {a : ConnectionHandle} {name : String} {core core' : Core Q}
    {ch : ConnectionHandle} {conn : Q.Conn} {id : String} (hnamed : Named a name core)
    (h : Registered core core' ch conn id) : Named a name core' := by
  have hne := ne_of_generation h hnamed.issued
  have hmem : a ∈ core'.connections ↔ a ∈ core.connections := by
    rw [h.connections, AList.mem_insert]
    exact ⟨fun ha => ha.resolve_left hne, Or.inr⟩
  have hid : core'.clientId a = core.clientId a := by
    rw [Core.clientId, h.clientIds, AMap.lookup_insert_eq, if_neg hne]
    rfl
  refine ⟨?_, fun ha => ?_, fun ha => ?_⟩
  · rw [h.nextGeneration]
    exact Nat.lt_succ_of_lt hnamed.issued
  · rw [hid]
    exact hnamed.live (hmem.mp ha)
  · rw [hid]
    exact hnamed.reaped fun ha' => ha (hmem.mpr ha')

theorem Named.reap {a : ConnectionHandle} {name : String} {core : Core Q}
    {l : ConnectionHandle × ConnectionError} (hnamed : Named a name core)
    (hl : l.1 ∈ core.connections) : Named a name (core.reap l) := by
  have hid : (core.reap l).clientId a = if a = l.1 then none else core.clientId a := by
    rw [Core.reap_eq hl]
    exact AMap.lookup_erase_eq ..
  have hmem : a ∈ (core.reap l).connections ↔ a ≠ l.1 ∧ a ∈ core.connections := by
    rw [Core.reap_eq hl]
    exact AList.mem_erase
  refine ⟨?_, fun ha => ?_, fun ha => ?_⟩
  · rw [Core.reap_eq hl]
    exact hnamed.issued
  · obtain ⟨hne, ha⟩ := hmem.mp ha
    rw [hid, if_neg hne]
    exact hnamed.live ha
  · rw [hid]
    split
    · rfl
    · rename_i hne
      exact hnamed.reaped fun ha' => ha (hmem.mpr ⟨hne, ha'⟩)

theorem Named.gone {a : ConnectionHandle} {name : String} {core : Core Q}
    (h : Named a name core) (ha : a ∉ core.connections) : Gone a core :=
  ⟨h.issued, ha, h.reaped ha⟩

theorem Gone.registered {a : ConnectionHandle} {core core' : Core Q} {ch : ConnectionHandle}
    {conn : Q.Conn} {id : String} (hgone : Gone a core) (h : Registered core core' ch conn id) :
    Gone a core' := by
  have hne := ne_of_generation h hgone.issued
  refine ⟨?_, ?_, ?_⟩
  · rw [h.nextGeneration]
    exact Nat.lt_succ_of_lt hgone.issued
  · rw [h.connections, AList.mem_insert]
    exact fun ha => ha.elim hne hgone.notLive
  · rw [Core.clientId, h.clientIds, AMap.lookup_insert_eq, if_neg hne]
    exact hgone.noId

theorem Gone.reap {a : ConnectionHandle} {core : Core Q} {l : ConnectionHandle × ConnectionError}
    (hgone : Gone a core) (hl : l.1 ∈ core.connections) : Gone a (core.reap l) := by
  rw [Core.reap_eq hl]
  refine ⟨hgone.issued, fun ha => hgone.notLive (AList.mem_erase.mp ha).2, ?_⟩
  have hid : (core.clientIds.erase l.1).lookup a = if a = l.1 then none else core.clientId a :=
    AMap.lookup_erase_eq ..
  refine hid.trans ?_
  split
  · rfl
  · exact hgone.noId

/-! ## Every public call keeps them -/

theorem Named.frame {a : ConnectionHandle} {name : String} {x y : Core Q} (hframe : Core.Frame x y)
    (hmem : ∀ ch, ch ∈ x.connections ↔ ch ∈ y.connections) (hy : Named a name y) :
    Named a name x := by
  have hid : x.clientId a = y.clientId a := by
    rw [Core.clientId, hframe.clientIds]
    rfl
  refine ⟨?_, fun ha => ?_, fun ha => ?_⟩
  · rw [hframe.nextGeneration]
    exact hy.issued
  · rw [hid]
    exact hy.live ((hmem a).mp ha)
  · rw [hid]
    exact hy.reaped fun ha' => ha ((hmem a).mpr ha')

theorem Named.pass {a : ConnectionHandle} {name : String} {core : Core Q} (h : Named a name core)
    (ord : IterOrder) (now : Instant) : Named a name (core.serviceConnections ord now) :=
  Core.serviceConnections_inv (fun _ _ hframe hmem h => h.frame hframe hmem)
    (fun _ _ _ h => ⟨h.issued, h.live, h.reaped⟩) (fun _ _ h hl => h.reap hl) ord now h

theorem Named.step {a : ConnectionHandle} {name : String} {ep : Endpoint Q} (call : Call)
    (h : Named a name ep.toCore) : Named a name (ep.step H call).2.toCore :=
  step_book_inv (fun _ _ hframe hmem h => h.frame hframe hmem)
    (fun _ _ _ h => ⟨h.issued, h.live, h.reaped⟩) (fun _ _ h hl => h.reap hl)
    (fun _ _ _ _ _ h hreg => h.registered hreg) call h

theorem Gone.step {a : ConnectionHandle} {ep : Endpoint Q} (call : Call)
    (h : Gone a ep.toCore) : Gone a (ep.step H call).2.toCore := by
  refine step_book_inv ?_ ?_ (fun _ _ h hl => h.reap hl) (fun _ _ _ _ _ h hreg => h.registered hreg)
    call h
  · intro x y hframe hmem hy
    refine ⟨?_, fun ha => hy.notLive ((hmem a).mp ha), ?_⟩
    · rw [hframe.nextGeneration]
      exact hy.issued
    · rw [Core.clientId, hframe.clientIds]
      exact hy.noId
  · exact fun core _ _ h => ⟨h.issued, h.notLive, h.noId⟩

/-- The client list never changes. -/
theorem clients_step {ep : Endpoint Q} {clients : List (ClientCrypto Q)} (call : Call)
    (h : ep.clients = clients) : (ep.step H call).2.clients = clients := by
  refine step_book_inv (I := fun core => core.clients = clients) ?_ ?_ ?_ ?_ call h
  · intro a b hframe _ hb
    rw [hframe.clients]
    exact hb
  · exact fun core _ _ h => h
  · intro core l h hl
    rw [Core.reap_eq hl]
    exact h
  · intro core core' ch conn id h hreg
    rw [hreg.clients]
    exact h

theorem mem_serviceConnections {core : Core Q} {ord : IterOrder} {now : Instant}
    {ch : ConnectionHandle} (h : ch ∈ (core.serviceConnections ord now).connections) :
    ch ∈ core.connections := by
  obtain ⟨s', hs'⟩ := AMap.mem_iff_lookup.mp h
  obtain ⟨s, hs, -⟩ := (Core.lookup_serviceConnections core ord now ch s').mp hs'
  exact Core.mem_routed.mp (AMap.mem_iff_lookup.mpr ⟨s, hs⟩)

/-- **Only `handle_datagram` adds connections**, and only the ones `feed` registers. -/
theorem mem_step {ep : Endpoint Q} {call : Call} {ch : ConnectionHandle}
    (h : ch ∈ (ep.step H call).2.connections) : ch ∈ ep.connections ∨ ch ∈ created H ep call := by
  by_cases hold : ch ∈ ep.connections
  · exact Or.inl hold
  refine Or.inr ?_
  cases call with
  | handleDatagram ord now src minute data =>
    refine List.mem_filter.mpr ⟨?_, by simpa using hold⟩
    by_cases hg : (ep.gate H now src minute data).1 = .rejected
    · rw [step_of_rejected hg] at h
      exact absurd h hold
    · rw [step_of_gate hg] at h
      exact mem_serviceConnections h
  | handleTimeout ord now =>
    have h' : ch ∈ (ep.toCore.fireTimers now).connections := mem_serviceConnections h
    exact absurd (AMap.mem_mapValues.mp h') hold
  | pollTransmit ord now =>
    refine absurd ?_ hold
    have hpop : ∀ core : Core Q, core.popTransmit.2.connections = core.connections := by
      intro core
      unfold Core.popTransmit
      split <;> rfl
    change ch ∈ (ep.toCore.pollTransmit ord now).2.connections at h
    unfold Core.pollTransmit at h
    have hfirst := hpop ep.toCore
    split at h
    · rename_i t core heq
      rw [heq] at hfirst
      rwa [← hfirst]
    · rename_i core heq
      rw [heq] at hfirst
      rw [hpop] at h
      rw [← hfirst]
      exact mem_serviceConnections h
  | pollEvent =>
    refine absurd ?_ hold
    change ch ∈ ep.toCore.pollEvent.2.connections at h
    unfold Core.pollEvent at h
    split at h <;> exact h
  | conn a call =>
    exact absurd (Core.mem_onConn.mp h) hold
  | nextTimeout => exact absurd h hold
  | clientId a => exact absurd h hold
  | issuedCidCount => exact absurd h hold

/-- **How a handle comes to be**: the datagram was admitted in that call, quinn-proto accepted it
under the admitted client's config, and the handle is new and registered for that client. -/
theorem created_spec {ep : Endpoint Q} {call : Call} {ch : ConnectionHandle}
    (h : ch ∈ created H ep call) :
    ∃ ord now src minute data clientIdx client incoming conn buf,
      call = .handleDatagram ord now src minute data ∧
      (ep.gate H now src minute data).1 = .admitted clientIdx ∧
      ep.clients[clientIdx]? = some client ∧
      (Q.accept (Q.handle ep.inner (some client.serverConfig) now src data).ep
        (some client.serverConfig) incoming now).out = (some (ch.quinn, conn), buf) ∧
      Registered ep.toCore
        (fed ep.toCore (ep.gate H now src minute data).1 now src data).2 ch conn
          client.clientId := by
  cases call with
  | handleDatagram ord now src minute data =>
    obtain ⟨hmem, hnot⟩ := List.mem_filter.mp h
    have hnot' : ch ∉ ep.connections := by simpa using hnot
    have hfits := gate_fits (H := H) ep now src minute data
    by_cases hg : (ep.gate H now src minute data).1 = .rejected
    · rw [hg] at hmem
      exact absurd hmem hnot'
    · rcases fed_spec now src data hfits hg with ⟨-, hsame, -⟩ |
        ⟨clientIdx, client, incoming, ch', conn, buf, hadm, hclient, hacc, -, hreg⟩
      · exact absurd ((hsame ch).mp hmem) hnot'
      · obtain rfl : ch = ch' := by
          have hmem' : ch ∈ ep.toCore.connections.insert ch' (ConnState.new conn) := by
            rw [← hreg.connections]
            exact hmem
          exact ((AList.mem_insert _).mp hmem').resolve_right hnot'
        exact ⟨ord, now, src, minute, data, clientIdx, client, incoming, conn, buf, rfl, hadm,
          hclient, hacc, hreg⟩
  | _ => exact absurd h List.not_mem_nil

/-! ## Whole runs -/

/-- The client at an index is the entry at that index, with a config made from its PSK. -/
theorem client_of_entry {tls : Tls Q} {secrets : ServerSecrets} {clients : List (ClientCrypto Q)}
    (h : buildClients tls secrets = .ok clients) {idx : Nat} {client : ClientCrypto Q}
    (hclient : clients[idx]? = some client) :
    ∃ entry, secrets.clients[idx]? = some entry ∧ client.clientId = entry.clientId ∧
      client.psk = entry.psk ∧ client.serverConfig.crypto.psk = entry.psk := by
  obtain ⟨-, quicServer, rfl⟩ := buildClients_ok h
  rw [List.getElem?_map, Option.map_eq_some_iff] at hclient
  obtain ⟨entry, hentry, rfl⟩ := hclient
  exact ⟨entry, hentry, rfl, rfl, rfl⟩

/-- **Identity, keys and admission agree.** In every run of a server, a connection is added only
by a `handle_datagram` call whose datagram had no active CID and was admitted in that call for
some entry of the secrets; it was accepted under the config built from that entry's PSK, and the
new handle's `client_id` is that entry's. From then on `client_id` keeps that value as long as the
handle is live, and is `None` in every state after. The entries have non-blank, pairwise distinct
ids and pairwise distinct PSKs, so an id determines the entry. -/
theorem identity (H : KeyedHash) (tls : Tls Q) (secrets : ServerSecrets) (ep₀ : Endpoint Q)
    (hnew : newServer tls secrets = .ok ep₀) (calls : List Call) (call : Call) :
    (∀ ch ∈ ((ep₀.run H calls).step H call).2.connections,
      ch ∈ (ep₀.run H calls).connections ∨ ch ∈ created H (ep₀.run H calls) call) ∧
    (∀ ch ∈ created H (ep₀.run H calls) call,
      ∃ ord now src minute data clientIdx entry config incoming conn buf,
        call = .handleDatagram ord now src minute data ∧
        (ep₀.run H calls).isActiveDcid data = false ∧
        (prefilter H (ep₀.run H calls).psks (ep₀.run H calls).replay minute data).1 =
          some clientIdx ∧
        secrets.clients[clientIdx]? = some entry ∧
        config.crypto.psk = entry.psk ∧
        (Q.accept (Q.handle (ep₀.run H calls).inner (some config) now src data).ep
          (some config) incoming now).out = (some (ch.quinn, conn), buf) ∧
        (fed (ep₀.run H calls).toCore ((ep₀.run H calls).gate H now src minute data).1 now src
          data).2.clientId ch = some entry.clientId ∧
        ∀ later, let ep := (((ep₀.run H calls).step H call).2).run H later
          (ch ∈ ep.connections → ep.clientId ch = some entry.clientId) ∧
          (ch ∉ ep.connections → ∀ later', (ep.run H later').clientId ch = none)) ∧
    (∀ entry ∈ secrets.clients, trim entry.clientId ≠ []) ∧
    (secrets.clients.map ClientEntry.psk).Nodup ∧
    ∀ (i j : Nat) (entry entry' : ClientEntry), secrets.clients[i]? = some entry →
      secrets.clients[j]? = some entry' → entry.clientId = entry'.clientId → i = j := by
  obtain ⟨clients, hbuild, hcore⟩ := newServer_core hnew
  obtain ⟨hblank, hids, hpsks⟩ := validateClients_ok_iff.mp (buildClients_ok hbuild).1
  have hclients : (ep₀.run H calls).clients = clients :=
    run_inv (I := fun ep => ep.clients = clients) (fun ep call h => clients_step call h) calls
      (by rw [hcore]; rfl)
  refine ⟨fun ch hch => mem_step hch, fun ch hch => ?_, hblank, hpsks, ?_⟩
  · obtain ⟨ord, now, src, minute, data, clientIdx, client, incoming, conn, buf, rfl, hgate,
      hclient, hacc, hreg⟩ := created_spec hch
    obtain ⟨-, hactive, hpre⟩ := gate_admitted hgate
    rw [hclients] at hclient
    obtain ⟨entry, hentry, hid, hpsk, hcfg⟩ := client_of_entry hbuild hclient
    have hnamed : Named ch entry.clientId (fed (ep₀.run H calls).toCore
        ((ep₀.run H calls).gate H now src minute data).1 now src data).2 := by
      rw [← hid]
      exact hreg.named
    refine ⟨ord, now, src, minute, data, clientIdx, entry, client.serverConfig, incoming, conn, buf,
      rfl, hactive, hpre, hentry, hcfg, hacc, hnamed.live hreg.mem, fun later => ?_⟩
    have hafter : Named ch entry.clientId ((ep₀.run H calls).step H
        (.handleDatagram ord now src minute data)).2.toCore := by
      rw [step_of_gate (by rw [hgate]; simp)]
      exact hnamed.pass ord now
    have hlater := run_inv (H := H) (I := fun ep => Named ch entry.clientId ep.toCore)
      (fun ep call h => h.step call) later hafter
    exact ⟨hlater.live, fun hnot later' =>
      (run_inv (I := fun ep => Gone ch ep.toCore) (fun ep call h => h.step call) later'
        (hlater.gone hnot)).noId⟩
  · intro i j entry entry' hi hj heq
    have hlt : i < (secrets.clients.map ClientEntry.clientId).length := by
      rw [List.length_map]
      exact (List.getElem?_eq_some_iff.mp hi).1
    refine (List.getElem?_inj hlt hids).mp ?_
    rw [List.getElem?_map, List.getElem?_map, hi, hj, Option.map_some, Option.map_some, heq]

theorem identity_alice :
    newServer miniTls miniSecrets = .ok miniServer ∧
      created zeroHash miniServer (arrival firstFlight) = [⟨0, 1⟩] ∧
      ∃ entry, entry ∈ miniSecrets.clients ∧
        (fed miniServer.toCore (miniServer.gate zeroHash 0 miniAddr 100 firstFlight).1 0 miniAddr
          firstFlight).2.clientId ⟨0, 1⟩ = some entry.clientId := by
  have hcreated : created zeroHash miniServer (arrival firstFlight) = [⟨0, 1⟩] := by decide
  obtain ⟨-, hnew, -⟩ := identity zeroHash miniTls miniSecrets miniServer miniServer_new []
    (arrival firstFlight)
  obtain ⟨ord, now, src, minute, data, idx, entry, config, incoming, conn, buf, hcall, -, -, hentry,
    -, -, hid, -⟩ := hnew ⟨0, 1⟩ (by decide)
  obtain ⟨-, rfl, rfl, rfl, rfl⟩ := Call.handleDatagram.inj hcall
  exact ⟨miniServer_new, hcreated, entry, List.mem_of_getElem? hentry, hid⟩

end Endpoint

end QuietQuic.Proto
