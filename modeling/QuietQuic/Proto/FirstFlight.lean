import QuietQuic.Proto.Admissions
import QuietQuic.Proto.InitialKeys
import QuietQuic.Proto.Routing

/-!
# A dialer's first flight gets in

The other direction of `Admissions`: what a client that holds a configured PSK sends is let through.
A first flight carries the DCID its dial was configured with. As long as the limiter has room, the
flight is in the window and the same DCID has not arrived before, the gates admit it for that PSK's
entry, whatever has happened to the server.

The key schedules then meet: the config installed for the flight and the session that sent it derive
each other's Initial keys from the DCID on the wire.

* `held_of_run`: the guards of a running server hold only what its datagrams carried.
* `first_flight_admitted`: admission, and the keys of both sides.
-/

namespace QuietQuic.Proto

open QuietQuic.Lib

/-! ## Sessions -/

/-- `PskClientConfig::start_session`, over the wrapped config's own. -/
def TransportClientConfig.startSession {QuicClient Session : Type}
    (start : QuicClient → Except String Session) (cfg : TransportClientConfig QuicClient) :
    Except String (PskSession Session) :=
  (start cfg.inner).map fun inner => ⟨inner, cfg.psk⟩

/-- Two sides write with what the other reads with. -/
structure Keys.Meet (own peer : Keys) : Prop where
  header : own.header.localKey = peer.header.remoteKey
  packet : own.packet.localKey = peer.packet.remoteKey
  headerBack : own.header.remoteKey = peer.header.localKey
  packetBack : own.packet.remoteKey = peer.packet.localKey

/-- **Key agreement**: the session of a dial and a server config with the dial's PSK, on one DCID. -/
theorem startSession_meets (C : Crypto) {QuicClient QuicServer Session : Type}
    {start : QuicClient → Except String Session} {dial : TransportClientConfig QuicClient}
    {session : PskSession Session} (hstart : dial.startSession start = .ok session)
    {cfg : PskServerConfig QuicServer} (hpsk : cfg.psk = dial.psk) (dcid : List UInt8) :
    ∃ keys, cfg.initialKeys C QUIC_V1 dcid = .ok keys ∧
      Keys.Meet (session.initialKeys C dcid .client) keys := by
  have hsession : session.psk = dial.psk := by
    unfold TransportClientConfig.startSession at hstart
    cases hinner : start dial.inner with
    | error e =>
      rw [hinner] at hstart
      exact absurd hstart (by simp [Except.map])
    | ok inner =>
      rw [hinner] at hstart
      rw [← Except.ok.inj hstart]
  refine ⟨C.initialKeysFromPsk cfg.psk dcid .server QUIC_V1, rfl, ?_⟩
  obtain ⟨hheader, hpacket⟩ := initialKeys_peer C dial.psk dcid .client QUIC_V1
  obtain ⟨hheader', hpacket'⟩ := initialKeys_peer C dial.psk dcid .server QUIC_V1
  rw [PskSession.initialKeys, hsession, hpsk]
  exact ⟨hheader.symm, hpacket.symm, hheader', hpacket'⟩

namespace Endpoint

variable {Q : Quinn} {H : KeyedHash}

/-! ## What the guards hold -/

/-- The PSKs never change. -/
theorem psks_run {ep : Endpoint Q} (calls : List Call) : (ep.run H calls).psks = ep.psks := by
  have hclients : (ep.run H calls).clients = ep.clients :=
    run_inv (I := fun ep' => ep'.clients = ep.clients) (fun _ call h => clients_step call h) calls
      rfl
  rw [psks, psks, hclients]

/-- **The guards hold only what arrived**: what they hold after a run they held before it, or a
datagram of the run reached them with it. -/
theorem held_of_run : ∀ (calls : List Call) {ep : Endpoint Q} {t : Ticket},
    HeldBy (ep.run H calls).replay t → HeldBy ep.replay t ∨
      ∃ ord now src minute data, .handleDatagram ord now src minute data ∈ calls ∧
        reaches H ep.psks minute data = some t
  | [], _, _, h => .inl h
  | call :: calls, ep, t, h => by
    have hpsks : (ep.step H call).2.psks = ep.psks := psks_run [call]
    rcases held_of_run calls h with h | ⟨ord, now, src, minute, data, hmem, hreach⟩
    · rcases replay_step (H := H) ep call with heq | ⟨ord, now, src, minute, data, rfl, heq⟩
      · rw [heq] at h
        exact .inl h
      · rw [heq] at h
        rcases heldBy_prefilter h with h | hreach
        · exact .inl h
        · exact .inr ⟨ord, now, src, minute, data, List.mem_cons_self, hreach⟩
    · rw [hpsks] at hreach
      exact .inr ⟨ord, now, src, minute, data, List.mem_cons_of_mem _ hmem, hreach⟩

theorem not_held_new {tls : Tls Q} {secrets : ServerSecrets} {ep : Endpoint Q}
    (h : newServer tls secrets = .ok ep) (t : Ticket) : ¬ HeldBy ep.replay t := by
  unfold newServer at h
  split at h
  · exact absurd h (by simp)
  · obtain rfl := Except.ok.inj h
    rintro ⟨guard, hguard, hmem⟩
    obtain ⟨client, -, rfl⟩ := List.mem_map.mp (List.mem_of_getElem? hguard)
    exact absurd hmem (Finset.notMem_empty _)

/-- There is a guard for every client. -/
theorem guards_aligned {tls : Tls Q} {secrets : ServerSecrets} {ep : Endpoint Q}
    (h : newServer tls secrets = .ok ep) (calls : List Call) :
    (ep.run H calls).replay.length = (ep.run H calls).psks.length := by
  rw [psks_run]
  refine run_inv (I := fun ep' => ep'.replay.length = ep.psks.length) (fun ep' call h => ?_) calls ?_
  · rcases replay_step (H := H) ep' call with heq | ⟨_, _, _, _, _, -, heq⟩
    · rw [heq]
      exact h
    · rw [heq, length_prefilter]
      exact h
  · unfold newServer at h
    split at h
    · exact absurd h (by simp)
    · rw [← Except.ok.inj h]
      simp [psks, Core.fresh]

/-- The server config in place for a client's datagram is that of its entry. -/
theorem install_config {tls : Tls Q} {secrets : ServerSecrets} {clients : List (ClientCrypto Q)}
    (hbuild : buildClients tls secrets = .ok clients) {core : Core Q} (hclients : core.clients = clients)
    {idx : Nat} {entry : ClientEntry} (hentry : secrets.clients[idx]? = some entry) :
    ∃ config, (install core idx).serverConfig = some config ∧ config.crypto.psk = entry.psk := by
  obtain ⟨-, quicServer, rfl⟩ := buildClients_ok hbuild
  refine ⟨(clientCrypto quicServer tls.tokenKey entry).serverConfig, ?_, rfl⟩
  simp [install, hclients, List.getElem?_map, hentry]

/-- A DCID as long as a selector's is never an active one: those are all issued. -/
theorem not_active (L : Q.FreshCids) {ep : Endpoint Q} (h : Tidy L ep.toCore) {data dcid : List UInt8}
    (hpeek : peekDcid data = some dcid) (hlen : dcid.length = DCID_LEN) :
    ep.isActiveDcid data = false := by
  simp only [Core.isActiveDcid, Core.readDcidAny_of_peek hpeek, decide_eq_false_iff_not]
  intro hmem
  have hissued := (h.1.minted dcid hmem).2
  rw [hlen] at hissued
  exact absurd hissued (by decide)

/-! ## The first flight -/

/-- **A first flight is admitted, and the keys meet.** Whatever a server has been called with: a
datagram that carries the DCID of a dial with an entry's PSK, within the window of the reading, when
no datagram carried that DCID before, no earlier entry's PSK writes it, and the limiter has room,
passes the gates for that entry. The config quinn-proto then holds is made from that PSK, and it and
the dial's session derive each other's Initial keys from the DCID. -/
theorem first_flight_admitted (H : KeyedHash) (L : Q.FreshCids) (C : Crypto) (tls : Tls Q)
    (secrets : ServerSecrets) (ep₀ : Endpoint Q) (hnew : newServer tls secrets = .ok ep₀)
    (calls : List Call) (idx : Nat) (entry : ClientEntry)
    (hentry : secrets.clients[idx]? = some entry)
    -- the client's side: its config has the entry's PSK
    (tlsC : Tls Q) (freshnessMinute : UInt32) (cfg : ClientConfigFile) (quicClient : Q.QuicClient)
    (hpsk : cfg.psk = entry.psk) {Session : Type} (start : Q.QuicClient → Except String Session)
    (session : PskSession Session)
    (hstart : (dialConfig H tlsC freshnessMinute cfg quicClient).startSession start = .ok session)
    -- its first flight arrives
    (now : Instant) (src : SocketAddr) (minute : UInt32) (data : List UInt8)
    (hcarries : Carries data (dialConfig H tlsC freshnessMinute cfg quicClient).initialDstCid)
    (hwindow : freshnessMinute.toNat ≤ minute.toNat + WINDOW_MINUTES.toNat ∧
      minute.toNat ≤ freshnessMinute.toNat + WINDOW_MINUTES.toNat)
    (hfirst : ∀ (j : Nat) (entry' : ClientEntry), j < idx → secrets.clients[j]? = some entry' →
      buildDcid H entry'.psk tlsC.nonce freshnessMinute ≠
        buildDcid H entry.psk tlsC.nonce freshnessMinute)
    (honce : ∀ ord now src minute data', .handleDatagram ord now src minute data' ∈ calls →
      peekDcid data' ≠ peekDcid data)
    (hroom : (ep₀.run H calls).limiterSays now src = true) :
    ((ep₀.run H calls).gate H now src minute data).1 = .admitted idx ∧
    ∃ config, (install (ep₀.run H calls).toCore idx).serverConfig = some config ∧
      config.crypto.psk = cfg.psk ∧
      ∃ dcid keys, peekDcid data = some dcid ∧
        config.crypto.initialKeys C QUIC_V1 dcid = .ok keys ∧
        Keys.Meet (session.initialKeys C dcid .client) keys := by
  obtain ⟨clients, hbuild, hcore⟩ := newServer_core hnew
  have hclients : (ep₀.run H calls).clients = clients :=
    run_inv (I := fun ep => ep.clients = clients) (fun _ call h => clients_step call h) calls
      (by rw [hcore]; rfl)
  have hdcid : (dialConfig H tlsC freshnessMinute cfg quicClient).initialDstCid =
      (buildDcid H entry.psk tlsC.nonce freshnessMinute).toList := by
    rw [← hpsk]
    rfl
  rw [hdcid] at hcarries
  have hpeek := peekDcid_of_carries hcarries (by simp) (by simp)
  have hat : ∀ (j : Nat) (psk : Psk), (ep₀.run H calls).psks[j]? = some psk ↔
      ∃ e, secrets.clients[j]? = some e ∧ e.psk = psk := by
    intro j psk
    obtain ⟨-, quicServer, rfl⟩ := buildClients_ok hbuild
    rw [psks, hclients, List.getElem?_map, List.getElem?_map, Option.map_map,
      Option.map_eq_some_iff]
    rfl
  have hreach : reaches H (ep₀.run H calls).psks minute data =
      some (idx, (tlsC.nonce, freshnessMinute)) := by
    refine reaches_eq_some_iff.mpr ⟨entry.psk, (hat _ _).mpr ⟨entry, hentry, rfl⟩, hcarries, hwindow,
      fun j psk' hj hpsk' heq => ?_⟩
    obtain ⟨e, he, rfl⟩ := (hat _ _).mp hpsk'
    exact hfirst j e hj he (List.Vector.eq _ _ heq.symm)
  have hunused : ¬ HeldBy (ep₀.run H calls).replay (idx, (tlsC.nonce, freshnessMinute)) := by
    intro hheld
    rcases held_of_run calls hheld with hheld | ⟨ord, now', src', minute', data', hmem, hreach'⟩
    · exact not_held_new hnew _ hheld
    · rw [← psks_run (H := H) calls] at hreach'
      obtain ⟨psk, hpsk', hcar', -⟩ := reaches_eq_some_iff.mp hreach'
      obtain ⟨e, he, rfl⟩ := (hat _ _).mp hpsk'
      obtain rfl := Option.some.inj (he.symm.trans hentry)
      refine honce ord now' src' minute' data' hmem ?_
      rw [hpeek]
      exact peekDcid_of_carries hcar' (by simp) (by simp)
  have hrole : (ep₀.run H calls).role = .server :=
    run_inv (H := H) (I := fun ep => ep.role = .server)
      (fun ep call h => step_book_inv (I := fun core => core.role = .server)
        (fun a b hframe _ hb => by rw [hframe.role]; exact hb) (fun _ _ _ h => h)
        (fun core l h hl => by rw [Core.reap_eq hl]; exact h)
        (fun core core' ch conn id h hreg => by rw [hreg.role]; exact h) call h) calls
      (by rw [hcore]; rfl)
  have hactive : (ep₀.run H calls).isActiveDcid data = false :=
    not_active L (run_inv (H := H) (I := fun ep => Tidy L ep.toCore) (fun _ call h => h.step call)
      calls (tidy_new (H := H) L (.inl ⟨tls, secrets, hnew⟩))) hpeek (by simp [DCID_LEN])
  refine ⟨?_, ?_⟩
  · have hadmitted := prefilter_unused hreach ?_ hunused
    · rw [gate, if_pos ⟨hrole, hactive⟩, screen_fst, if_pos hroom, hadmitted]
    · rw [guards_aligned hnew calls]
      exact reaches_lt hreach
  · obtain ⟨config, hconfig, hcfg⟩ := install_config hbuild hclients hentry
    have hsame : config.crypto.psk =
        (dialConfig H tlsC freshnessMinute cfg quicClient).psk := by
      rw [hcfg, ← hpsk]
      rfl
    obtain ⟨keys, hkeys, hmeet⟩ := startSession_meets C hstart hsame
      (buildDcid H entry.psk tlsC.nonce freshnessMinute).toList
    exact ⟨config, hconfig, hcfg.trans hpsk.symm, _, keys, hpeek, hkeys, hmeet⟩

/-- Alice's first flight, behind some noise from her address. -/
theorem first_flight_admitted_alice :
    ((miniServer.run zeroHash [arrival [1, 2, 3]]).gate zeroHash 0 miniAddr 100 firstFlight).1 =
        .admitted 0 ∧
      ∃ config, (install (miniServer.run zeroHash [arrival [1, 2, 3]]).toCore 0).serverConfig =
        some config ∧ config.crypto.psk = miniPsk := by
  have hroom : (miniServer.run zeroHash [arrival [1, 2, 3]]).limiterSays 0 miniAddr = true := by
    decide +kernel
  have honce : ∀ ord now src minute data',
      .handleDatagram ord now src minute data' ∈ [arrival [1, 2, 3]] →
        peekDcid data' ≠ peekDcid firstFlight := by
    intro ord now src minute data' hmem
    obtain rfl : data' = [1, 2, 3] :=
      (Call.handleDatagram.inj (List.mem_singleton.mp hmem)).2.2.2.2
    decide
  obtain ⟨hgate, config, hconfig, hpsk, -⟩ := first_flight_admitted zeroHash Mini.freshCids katCrypto
    miniTls miniSecrets miniServer miniServer_new [arrival [1, 2, 3]] 0 ⟨"alice", miniPsk⟩ rfl miniTls
    100 ⟨miniPsk, miniAddr⟩ () rfl (fun _ => .ok ()) ⟨(), miniPsk⟩ rfl 0 miniAddr 100
    firstFlight (peekDcid_eq_some_iff.mp (by decide)).1 (by decide) (fun j _ hj => absurd hj (by simp))
    honce hroom
  exact ⟨hgate, config, hconfig, hpsk⟩

end Endpoint

end QuietQuic.Proto
