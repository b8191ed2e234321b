import Mathlib.Data.Finset.Basic
import Mathlib.Data.Finset.Lattice.Lemmas
import QuietQuic.Proto.Quinn

/-!
# Secrets and the clients built from them

Model of `ClientEntry`, `ServerSecrets` and `ClientConfigFile` (`proto/src/config.rs`) and of
`build_clients` (`proto/src/endpoint.rs`). The TLS identity and its configs come from rustls and
rcgen, so they are inputs (`Tls`), and so is `format!("{:?}")` of a string, which only error
texts use.

* `validateClients_ok_iff`: the validation accepts exactly the lists of non-blank, pairwise
  distinct ids with pairwise distinct PSKs.
* `validateClients_error_iff`: it reports the first entry that fails, and its first failing check.
* `buildClients_ok`: what is built has the entry's id and PSK, and a server config made from
  that same PSK.
-/

namespace QuietQuic.Proto

open QuietQuic.Lib

/-- `ClientEntry`. -/
structure ClientEntry where
  clientId : String
  psk : Psk
  deriving DecidableEq

/-- `ServerSecrets`, less the address the socket is bound to. -/
structure ServerSecrets where
  clients : List ClientEntry

/-- `ClientConfigFile`, of which a dial reads the PSK and the server. -/
structure ClientConfigFile where
  psk : Psk
  server : SocketAddr

/-- `ConfigError`, less the parser's variant, by its message. -/
inductive ConfigError where
  | io (message : String)
  | invalid (message : String)
  deriving DecidableEq

/-- `ClientCrypto`. -/
structure ClientCrypto (Q : Quinn) where
  clientId : String
  psk : Psk
  serverConfig : Q.ServerConfig

/-- What `build_clients` and `new_client` take from rustls, rcgen and the random generator. -/
structure Tls (Q : Quinn) where
  Identity : Type
  /-- `SelfSigned::generate`. -/
  generate : Except String Identity
  /-- `SelfSigned::quic_server_config`. -/
  quicServerConfig : Identity → Except String Q.QuicServer
  /-- `quic_client_config`. -/
  quicClientConfig : Except String Q.QuicClient
  /-- `token_key`. -/
  tokenKey : Q.TokenKey
  /-- `random_bytes::<8>`. -/
  nonce : Bytes 8
  /-- `format!("{:?}")` of a string. -/
  debugStr : String → String

/-- `char::is_whitespace`: the Unicode `White_Space` property. -/
def isWhitespace (c : Char) : Bool :=
  let n := c.toNat
  (9 ≤ n && n ≤ 13) || n == 0x20 || n == 0x85 || n == 0xA0 || n == 0x1680 ||
    (0x2000 ≤ n && n ≤ 0x200A) || n == 0x2028 || n == 0x2029 || n == 0x202F || n == 0x205F ||
    n == 0x3000

/-- `str::trim`, as the characters left. -/
def trim (s : String) : List Char :=
  (((s.toList.dropWhile isWhitespace).reverse).dropWhile isWhitespace).reverse

/-- The validation loop of `build_clients`, over the ids and PSKs seen so far. -/
def validateClients (debugStr : String → String) :
    List ClientEntry → Finset String → Finset Psk → Except ConfigError Unit
  | [], _, _ => .ok ()
  | entry :: rest, clientIds, psks =>
    if trim entry.clientId = [] then .error (.invalid "client_id must not be empty")
    else if entry.clientId ∈ clientIds then
      .error (.invalid ("duplicate client_id " ++ debugStr entry.clientId))
    else if entry.psk ∈ psks then
      .error (.invalid ("duplicate PSK makes client identity ambiguous (client_id " ++
        debugStr entry.clientId ++ ")"))
    else validateClients debugStr rest (insert entry.clientId clientIds) (insert entry.psk psks)

/-- `quietquic_transport_config`. -/
def quietquicTransportConfig : TransportConfig := ⟨0⟩

variable {Q : Quinn}

/-- One entry's `ClientCrypto`. -/
def clientCrypto (quicServer : Q.QuicServer) (tokenKey : Q.TokenKey) (entry : ClientEntry) :
    ClientCrypto Q where
  clientId := entry.clientId
  psk := entry.psk
  serverConfig := ⟨⟨quicServer, entry.psk⟩, tokenKey, quietquicTransportConfig⟩

/-- `build_clients`. -/
def buildClients (tls : Tls Q) (secrets : ServerSecrets) :
    Except ConfigError (List (ClientCrypto Q)) := do
  validateClients tls.debugStr secrets.clients ∅ ∅
  match tls.generate with
  | .error e => .error (.io ("tls identity: " ++ e))
  | .ok identity =>
    match tls.quicServerConfig identity with
    | .error e => .error (.io ("quic server config: " ++ e))
    | .ok quicServer => .ok (secrets.clients.map (clientCrypto quicServer tls.tokenKey))

/-- What the validation has against an entry, after the ids and PSKs already seen: the first check
that fails, by the text that names it. -/
def entryError (debugStr : String → String) (clientIds : Finset String) (psks : Finset Psk)
    (entry : ClientEntry) : Option ConfigError :=
  if trim entry.clientId = [] then some (.invalid "client_id must not be empty")
  else if entry.clientId ∈ clientIds then
    some (.invalid ("duplicate client_id " ++ debugStr entry.clientId))
  else if entry.psk ∈ psks then
    some (.invalid ("duplicate PSK makes client identity ambiguous (client_id " ++
      debugStr entry.clientId ++ ")"))
  else none

theorem validateClients_cons {debugStr : String → String} {clientIds : Finset String}
    {psks : Finset Psk} (entry : ClientEntry) (rest : List ClientEntry) :
    validateClients debugStr (entry :: rest) clientIds psks =
      match entryError debugStr clientIds psks entry with
      | some e => .error e
      | none => validateClients debugStr rest (insert entry.clientId clientIds)
          (insert entry.psk psks) := by
  rw [validateClients, entryError]
  split
  · rfl
  · split
    · rfl
    · split <;> rfl

theorem entryError_eq_none_iff {debugStr : String → String} {clientIds : Finset String}
    {psks : Finset Psk} {entry : ClientEntry} :
    entryError debugStr clientIds psks entry = none ↔
      trim entry.clientId ≠ [] ∧ entry.clientId ∉ clientIds ∧ entry.psk ∉ psks := by
  unfold entryError
  by_cases hblank : trim entry.clientId = []
  · simp [hblank]
  · by_cases hid : entry.clientId ∈ clientIds
    · simp [hblank, hid]
    · by_cases hpsk : entry.psk ∈ psks <;> simp [hblank, hid, hpsk]

/-- What the validation accepts, past the ids and PSKs already seen. -/
theorem validateClients_ok_iff' {debugStr : String → String} :
    ∀ {l : List ClientEntry} {clientIds : Finset String} {psks : Finset Psk},
      validateClients debugStr l clientIds psks = .ok () ↔
        (∀ e ∈ l, trim e.clientId ≠ [] ∧ e.clientId ∉ clientIds ∧ e.psk ∉ psks) ∧
          (l.map ClientEntry.clientId).Nodup ∧ (l.map ClientEntry.psk).Nodup
  | [], _, _ => by simp [validateClients]
  | entry :: rest, clientIds, psks => by
    rw [validateClients_cons]
    cases herror : entryError debugStr clientIds psks entry with
    | some e =>
      refine iff_of_false (by simp) fun h => ?_
      have hnone : entryError debugStr clientIds psks entry = none :=
        entryError_eq_none_iff.mpr (h.1 entry List.mem_cons_self)
      exact absurd (herror.symm.trans hnone) (by simp)
    | none =>
      obtain ⟨hblank, hid, hpsk⟩ := entryError_eq_none_iff.mp herror
      dsimp only
      rw [validateClients_ok_iff']
      simp only [List.mem_cons, List.map_cons, List.nodup_cons, forall_eq_or_imp,
        Finset.mem_insert, not_or, List.mem_map, not_exists, not_and]
      constructor
      · rintro ⟨hall, hids, hpsks⟩
        exact ⟨⟨⟨hblank, hid, hpsk⟩, fun e he => ⟨(hall e he).1, (hall e he).2.1.2,
          (hall e he).2.2.2⟩⟩, ⟨fun e he => (hall e he).2.1.1, hids⟩,
          fun e he => (hall e he).2.2.1, hpsks⟩
      · rintro ⟨⟨-, hall⟩, ⟨hid', hids⟩, hpsk', hpsks⟩
        exact ⟨fun e he => ⟨(hall e he).1, ⟨hid' e he, (hall e he).2.1⟩, hpsk' e he,
          (hall e he).2.2⟩, hids, hpsks⟩

/-- **What the validation accepts**: non-blank, pairwise distinct ids and pairwise distinct
PSKs. -/
theorem validateClients_ok_iff {debugStr : String → String} {l : List ClientEntry} :
    validateClients debugStr l ∅ ∅ = .ok () ↔
      (∀ e ∈ l, trim e.clientId ≠ []) ∧ (l.map ClientEntry.clientId).Nodup ∧
        (l.map ClientEntry.psk).Nodup := by
  rw [validateClients_ok_iff']
  simp

/-- **What the validation reports**: the first entry, in the order of the file, that fails a check
against the entries before it. -/
theorem validateClients_error_iff {debugStr : String → String} {e : ConfigError} :
    ∀ {l : List ClientEntry} {clientIds : Finset String} {psks : Finset Psk},
      validateClients debugStr l clientIds psks = .error e ↔
        ∃ before entry after, l = before ++ entry :: after ∧
          validateClients debugStr before clientIds psks = .ok () ∧
          entryError debugStr (clientIds ∪ (before.map ClientEntry.clientId).toFinset)
            (psks ∪ (before.map ClientEntry.psk).toFinset) entry = some e
  | [], _, _ => by simp [validateClients]
  | entry :: rest, clientIds, psks => by
    rw [validateClients_cons]
    cases herror : entryError debugStr clientIds psks entry with
    | some e' =>
      constructor
      · intro h
        obtain rfl := Except.error.inj h
        exact ⟨[], entry, rest, rfl, rfl, by simpa using herror⟩
      · rintro ⟨before, entry', after, hl, hok, hfails⟩
        cases before with
        | nil =>
          obtain ⟨rfl, -⟩ := List.cons.inj hl
          simp only [List.map_nil, List.toFinset_nil, Finset.union_empty] at hfails
          exact congrArg _ (Option.some.inj (herror.symm.trans hfails))
        | cons first before =>
          obtain ⟨rfl, -⟩ := List.cons.inj hl
          rw [validateClients_cons, herror] at hok
          exact absurd hok (by simp)
    | none =>
      dsimp only
      rw [validateClients_error_iff]
      have hunion : ∀ before : List ClientEntry,
          insert entry.clientId clientIds ∪ (before.map ClientEntry.clientId).toFinset =
            clientIds ∪ ((entry :: before).map ClientEntry.clientId).toFinset ∧
          insert entry.psk psks ∪ (before.map ClientEntry.psk).toFinset =
            psks ∪ ((entry :: before).map ClientEntry.psk).toFinset := by
        intro before
        simp [Finset.insert_union, Finset.union_insert]
      constructor
      · rintro ⟨before, entry', after, rfl, hok, hfails⟩
        refine ⟨entry :: before, entry', after, rfl, ?_, ?_⟩
        · rw [validateClients_cons, herror]
          exact hok
        · rw [← (hunion before).1, ← (hunion before).2]
          exact hfails
      · rintro ⟨before, entry', after, hl, hok, hfails⟩
        cases before with
        | nil =>
          obtain ⟨rfl, -⟩ := List.cons.inj hl
          simp only [List.map_nil, List.toFinset_nil, Finset.union_empty] at hfails
          exact absurd (herror.symm.trans hfails) (by simp)
        | cons first before =>
          obtain ⟨rfl, hrest⟩ := List.cons.inj hl
          rw [validateClients_cons, herror] at hok
          refine ⟨before, entry', after, hrest, hok, ?_⟩
          rw [(hunion before).1, (hunion before).2]
          exact hfails

/-- **What `build_clients` returns**: the secrets passed the validation, and every entry became a
client with its own id, its own PSK, and a server config built from that PSK. -/
theorem buildClients_ok {tls : Tls Q} {secrets : ServerSecrets} {clients : List (ClientCrypto Q)}
    (h : buildClients tls secrets = .ok clients) :
    validateClients tls.debugStr secrets.clients ∅ ∅ = .ok () ∧
      ∃ quicServer, clients = secrets.clients.map (clientCrypto quicServer tls.tokenKey) := by
  unfold buildClients at h
  cases hv : validateClients tls.debugStr secrets.clients ∅ ∅ with
  | error e => simp [hv, bind, Except.bind] at h
  | ok u =>
    simp only [hv, bind, Except.bind] at h
    split at h
    · exact absurd h (by simp)
    · split at h
      · exact absurd h (by simp)
      · rename_i quicServer _
        exact ⟨rfl, quicServer, (Except.ok.inj h).symm⟩

end QuietQuic.Proto
