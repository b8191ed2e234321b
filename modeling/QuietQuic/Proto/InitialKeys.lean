import Mathlib.Logic.Equiv.Basic
import QuietQuic.Proto.Quinn

/-!
# Initial packet protection

Model of `proto/src/initial_keys.rs`: the Initial keys of both sides from a PSK and the client's
DCID, packet and header protection, and the two seams quinn-proto takes a server's keys from. The
aws-lc-rs primitives are the parameter `Crypto`; a slice that is out of range panics in the source
and is `none` here.

* `apply_apply`: header protection comes off again, although the packet-number length that decides
  how much comes off is under it.
* `decrypt_encrypt`: packet protection comes off again, where the AEAD's own does.
* `nonces_never_repeat`: the AEAD nonce of a packet number, and that it is of no other.
* `initial_round_trip`: what one side seals the other opens, from any seam.
-/

namespace QuietQuic.Proto

open QuietQuic.Lib

def AEAD_KEY_LEN : Nat := 16
def IV_LEN : Nat := 12
def TAG_LEN : Nat := 16
def HP_SAMPLE_LEN : Nat := 16
def SECRET_LEN : Nat := 32

/-- `QUIC_V1`. -/
def QUIC_V1 : UInt32 := 0x00000001

/-- `quinn_proto::Side`. -/
inductive Side where
  | client
  | server
  deriving DecidableEq

/-- `aws_lc_rs`: HKDF-SHA256, AES-128-GCM and the AES-128 header-protection mask. -/
structure Crypto where
  Prk : Type
  /-- `Salt::new(HKDF_SHA256, salt).extract(ikm)`. -/
  extract : (salt ikm : List UInt8) → Prk
  /-- `Prk::new_less_safe(HKDF_SHA256, secret)`. -/
  newLessSafe : (secret : List UInt8) → Prk
  /-- `prk.expand(info, len)`, filled into a buffer of that length. -/
  expand : Prk → (info : List UInt8) → (len : Nat) → Bytes len
  /-- `seal_in_place_separate_tag`: what the payload becomes, and the tag. -/
  sealInPlaceSeparateTag : Bytes AEAD_KEY_LEN → Bytes IV_LEN → (aad payload : List UInt8) →
    Bytes payload.length × Bytes TAG_LEN
  /-- `open_in_place`: the plaintext, if the tag is right. -/
  openInPlace : Bytes AEAD_KEY_LEN → Bytes IV_LEN → (aad sealed : List UInt8) →
    Option (List UInt8)
  /-- `HeaderProtectionKey::new_mask`. -/
  newMask : Bytes AEAD_KEY_LEN → (sample : Bytes HP_SAMPLE_LEN) → Bytes 5

/-- Opening undoes sealing under the same key, nonce and associated data. -/
def Crypto.Undoes (C : Crypto) : Prop :=
  ∀ key nonce aad payload,
    C.openInPlace key nonce aad ((C.sealInPlaceSeparateTag key nonce aad payload).1.toList ++
      (C.sealInPlaceSeparateTag key nonce aad payload).2.toList) = some payload

/-! ## The key schedule -/

/-- A byte string literal. -/
def ascii (s : String) : List UInt8 := s.toUTF8.data.toList

/-- `hkdf_label_info`. -/
def hkdfLabelInfo (outLen : Nat) (label : List UInt8) : List UInt8 :=
  beBytes 2 outLen ++ [UInt8.ofNat ((ascii "tls13 ").length + label.length)] ++ ascii "tls13 " ++
    label ++ [0]

/-- `InitialPacketKey`. -/
structure InitialPacketKey where
  key : Bytes AEAD_KEY_LEN
  iv : Bytes IV_LEN

/-- `InitialHeaderKey`. -/
structure InitialHeaderKey where
  key : Bytes AEAD_KEY_LEN

/-- `DirectionalKeys`. -/
structure DirectionalKeys where
  packet : InitialPacketKey
  header : InitialHeaderKey

/-- `quinn_proto::crypto::KeyPair`. -/
structure KeyPair (α : Type) where
  localKey : α
  remoteKey : α

/-- `quinn_proto::crypto::Keys`. -/
structure Keys where
  header : KeyPair InitialHeaderKey
  packet : KeyPair InitialPacketKey

/-- `UnsupportedVersion`. -/
inductive UnsupportedVersion where
  | unsupportedVersion

/-- `CryptoError`. -/
inductive CryptoError where
  | cryptoError

namespace Crypto

variable (C : Crypto)

/-- `expand_label`, into a buffer of `len` bytes. -/
def expandLabel (prk : C.Prk) (label : List UInt8) (len : Nat) : Bytes len :=
  C.expand prk (hkdfLabelInfo len label) len

/-- `directional_keys`. -/
def directionalKeys (secret : Bytes SECRET_LEN) : DirectionalKeys :=
  let prk := C.newLessSafe secret.toList
  let key := C.expandLabel prk (ascii "quic key") AEAD_KEY_LEN
  let iv := C.expandLabel prk (ascii "quic iv") IV_LEN
  let hp := C.expandLabel prk (ascii "quic hp") AEAD_KEY_LEN
  { packet := { key, iv }, header := { key := hp } }

/-- `initial_keys_from_psk`. The version is only asserted in debug builds. -/
def initialKeysFromPsk (psk : Psk) (dcid : List UInt8) (side : Side) (_version : UInt32) : Keys :=
  let initialPrk := C.extract psk.toList dcid
  let client := C.directionalKeys (C.expandLabel initialPrk (ascii "client in") SECRET_LEN)
  let server := C.directionalKeys (C.expandLabel initialPrk (ascii "server in") SECRET_LEN)
  let (own, remote) :=
    match side with
    | .client => (client, server)
    | .server => (server, client)
  { header := { localKey := own.header, remoteKey := remote.header }
    packet := { localKey := own.packet, remoteKey := remote.packet } }

end Crypto

/-! ## Packet protection -/

namespace InitialPacketKey

/-- `InitialPacketKey::nonce`: the packet number is xored into the end of the IV. -/
def nonce (k : InitialPacketKey) (packet : UInt64) : Bytes IV_LEN :=
  ⟨xorAt (IV_LEN - 8) (beBytes 8 packet.toNat) k.iv.toList, by simp⟩

/-- What `encrypt` leaves behind the header: the sealed payload and its tag. -/
def sealed (C : Crypto) (k : InitialPacketKey) (packet : UInt64) (header payload : List UInt8) :
    List UInt8 :=
  let (ciphertext, tag) := C.sealInPlaceSeparateTag k.key (k.nonce packet) header payload
  ciphertext.toList ++ tag.toList

/-- `PacketKey::encrypt`. -/
def encrypt (C : Crypto) (k : InitialPacketKey) (packet : UInt64) (buf : List UInt8)
    (headerLen : Nat) : Option (List UInt8) :=
  if headerLen ≤ buf.length ∧ TAG_LEN ≤ (buf.drop headerLen).length then
    let header := buf.take headerLen
    let payloadTag := buf.drop headerLen
    let payloadLen := payloadTag.length - TAG_LEN
    let payload := payloadTag.take payloadLen
    some (header ++ k.sealed C packet header payload)
  else none

/-- `PacketKey::decrypt`: the payload once its tag is off. -/
def decrypt (C : Crypto) (k : InitialPacketKey) (packet : UInt64) (header payload : List UInt8) :
    Except CryptoError (List UInt8) :=
  match C.openInPlace k.key (k.nonce packet) header payload with
  | some plain => .ok plain
  | none => .error .cryptoError

end InitialPacketKey

/-! ## Header protection -/

/-- The packet-number length a plain first byte carries. -/
def pnLen (first : UInt8) : Nat := (first &&& 0x03).toNat + 1

/-- The bits of the first byte that are masked: four of a long header, five of a short one. -/
def maskedBits (first : UInt8) : UInt8 := if first &&& 0x80 = 0x80 then 0x0f else 0x1f

namespace InitialHeaderKey

/-- `InitialHeaderKey::apply`. -/
def apply (C : Crypto) (k : InitialHeaderKey) (pnOffset : Nat) (packet : List UInt8)
    (masked : Bool) : Option (List UInt8) :=
  if h : pnOffset + 4 + HP_SAMPLE_LEN ≤ packet.length then
    let mask := (C.newMask k.key (slice HP_SAMPLE_LEN (pnOffset + 4) packet h)).toList
    let first := packet.getD 0 0
    let firstMask := mask.getD 0 0 &&& maskedBits first
    let firstPlain := if masked then first ^^^ firstMask else first
    let packet := packet.modify 0 (· ^^^ firstMask)
    some (xorAt pnOffset ((mask.drop 1).take (pnLen firstPlain)) packet)
  else none

/-- `HeaderKey::encrypt`. -/
def encrypt (C : Crypto) (k : InitialHeaderKey) (pnOffset : Nat) (packet : List UInt8) :
    Option (List UInt8) :=
  k.apply C pnOffset packet false

/-- `HeaderKey::decrypt`. -/
def decrypt (C : Crypto) (k : InitialHeaderKey) (pnOffset : Nat) (packet : List UInt8) :
    Option (List UInt8) :=
  k.apply C pnOffset packet true

end InitialHeaderKey

/-! ## The seams -/

/-- `PskSession`: a TLS session whose Initial keys come from a PSK. -/
structure PskSession (Session : Type) where
  inner : Session
  psk : Psk

variable {QuicServer Session : Type}

/-- `PskServerConfig::initial_keys`. -/
def PskServerConfig.initialKeys (C : Crypto) (cfg : PskServerConfig QuicServer) (version : UInt32)
    (dstCid : List UInt8) : Except UnsupportedVersion Keys :=
  if version ≠ QUIC_V1 then .error .unsupportedVersion
  else .ok (C.initialKeysFromPsk cfg.psk dstCid .server version)

/-- `PskSession::initial_keys`. -/
def PskSession.initialKeys (C : Crypto) (session : PskSession Session) (dstCid : List UInt8)
    (side : Side) : Keys :=
  C.initialKeysFromPsk session.psk dstCid side QUIC_V1

/-- Where quinn-proto gets the Initial keys of a side: from the session of either, or from the
server's config. -/
inductive Seam (C : Crypto) (psk : Psk) (dcid : List UInt8) : Side → Keys → Prop
  | session {Session : Type} (session : PskSession Session) (hpsk : session.psk = psk)
      (side : Side) : Seam C psk dcid side (session.initialKeys C dcid side)
  | config {QuicServer : Type} (cfg : PskServerConfig QuicServer) (hpsk : cfg.psk = psk)
      {keys : Keys} (h : cfg.initialKeys C QUIC_V1 dcid = .ok keys) : Seam C psk dcid .server keys

/-- Sealing, as quinn-proto's sender does it: the header and the payload with room for a tag,
packet protection, then header protection. -/
def protect (C : Crypto) (keys : Keys) (packet : UInt64) (pnOffset : Nat)
    (header payload : List UInt8) (room : Bytes TAG_LEN) : Option (List UInt8) :=
  (keys.packet.localKey.encrypt C packet (header ++ payload ++ room.toList) header.length).bind
    fun buf => keys.header.localKey.encrypt C pnOffset buf

/-- Opening, as its receiver does it: header protection comes off, the recovered first byte says
where the header ends, and the header is the associated data of what follows. -/
def unprotect (C : Crypto) (keys : Keys) (packet : UInt64) (pnOffset : Nat)
    (datagram : List UInt8) : Option (Except CryptoError (List UInt8 × List UInt8)) :=
  (keys.header.remoteKey.decrypt C pnOffset datagram).map fun buf =>
    let headerLen := pnOffset + pnLen (buf.getD 0 0)
    (keys.packet.remoteKey.decrypt C packet (buf.take headerLen) (buf.drop headerLen)).map fun
      plain => (buf.take headerLen, plain)

/-! ## Nonces -/

namespace InitialPacketKey

/-- The packet number comes out of the nonce again, behind four zeros. -/
theorem nonce_xor_iv (k : InitialPacketKey) (packet : UInt64) :
    List.zipWith (· ^^^ ·) (k.nonce packet).toList k.iv.toList =
      (beBytes 8 packet.toNat).leftpad IV_LEN 0 := by
  have hlen : IV_LEN - 8 + (beBytes 8 packet.toNat).length = k.iv.toList.length := by
    rw [length_beBytes, k.iv.toList_length]
    rfl
  rw [List.leftpad, length_beBytes]
  exact zipWith_xor_xorAt hlen

/-- Eight bytes hold any packet number. -/
theorem ofBeBytes_packet (packet : UInt64) : ofBeBytes (beBytes 8 packet.toNat) = packet.toNat := by
  rw [ofBeBytes_beBytes]
  exact Nat.mod_eq_of_lt packet.toNat_lt

/-- **Nonces never repeat under one key.** For every key and IV: no two packet numbers have one
nonce, every nonce begins with the first four bytes of the IV, and xored with the IV it is the
packet number, big-endian and padded to 12 bytes on the left. -/
theorem nonces_never_repeat (k : InitialPacketKey) :
    (∀ p q, k.nonce p = k.nonce q → p = q) ∧
    (∀ p, (k.nonce p).toList.take 4 = k.iv.toList.take 4) ∧
    ∀ p, List.zipWith (· ^^^ ·) (k.nonce p).toList k.iv.toList =
      (beBytes 8 p.toNat).leftpad IV_LEN 0 := by
  refine ⟨fun p q h => ?_, fun p => take_xorAt (IV_LEN - 8) _ _, k.nonce_xor_iv⟩
  have hpadded := k.nonce_xor_iv p
  rw [h, k.nonce_xor_iv q, List.leftpad, List.leftpad, length_beBytes, length_beBytes,
    List.append_cancel_left_eq] at hpadded
  apply UInt64.toNat_inj.mp
  rw [← ofBeBytes_packet p, ← ofBeBytes_packet q, hpadded]

/-- Of the vector's IV, packets 0 and 2^32 differ in the eighth byte. -/
theorem nonces_never_repeat_vector :
    let k : InitialPacketKey :=
      ⟨List.Vector.replicate 16 0, ⟨[95, 219, 244, 35, 70, 222, 229, 159, 235, 204, 129, 62], rfl⟩⟩
    (k.nonce 4294967296).toList = [95, 219, 244, 35, 70, 222, 229, 158, 235, 204, 129, 62] ∧
      k.nonce 0 ≠ k.nonce 4294967296 := by
  intro k
  refine ⟨by decide, fun h => ?_⟩
  exact absurd (k.nonces_never_repeat.1 _ _ h) (by decide)

end InitialPacketKey

/-! ## Header protection comes off again -/

/-- The form bit is not masked. -/
theorem maskedBits_xor (first m : UInt8) :
    maskedBits (first ^^^ (m &&& maskedBits first)) = maskedBits first := by
  have hform : ∀ bits : UInt8, bits &&& 0x80 = 0 →
      (first ^^^ (m &&& bits)) &&& 0x80 = first &&& 0x80 := by
    intro bits hbits
    have hzero : (m &&& bits) &&& 0x80 = 0 := by
      rw [UInt8.and_assoc, hbits, UInt8.and_zero]
    have hxor : (first ^^^ (m &&& bits)) &&& 0x80 = (first &&& 0x80) ^^^ ((m &&& bits) &&& 0x80) :=
      UInt8.toBitVec_inj.1 (by ext i hi; simp [Bool.and_xor_distrib_right])
    rw [hxor, hzero, UInt8.xor_zero]
  have hbits : maskedBits first &&& 0x80 = 0 := by
    unfold maskedBits
    split <;> decide
  have := hform _ hbits
  unfold maskedBits at this ⊢
  rw [this]

theorem pnLen_le (first : UInt8) : pnLen first ≤ 4 := by
  have : (first &&& 0x03).toNat ≤ 3 := by
    rw [UInt8.toNat_and]
    exact Nat.and_le_right
  unfold pnLen
  omega

namespace InitialHeaderKey

/-- The two masks of `apply`: of the first byte, and of the packet number. -/
def masking (first : UInt8) (pnOffset : Nat) (number packet : List UInt8) : List UInt8 :=
  xorAt pnOffset number (xorAt 0 [first] packet)

theorem getElem?_masking (first : UInt8) (pnOffset : Nat) (number packet : List UInt8) (j : Nat) :
    (masking first pnOffset number packet)[j]? =
      packet[j]?.map fun x => x ^^^ maskAt 0 [first] j ^^^ maskAt pnOffset number j := by
  rw [masking, getElem?_xorAt, getElem?_xorAt, Option.map_map]
  rfl

/-- Masking twice. -/
theorem masking_masking (first : UInt8) (pnOffset : Nat) (number packet : List UInt8) :
    masking first pnOffset number (masking first pnOffset number packet) = packet := by
  refine List.ext_getElem? fun j => ?_
  rw [getElem?_masking, getElem?_masking, Option.map_map]
  have hid : ∀ x a b : UInt8, x ^^^ a ^^^ b ^^^ a ^^^ b = x := by
    intro x a b
    rw [UInt8.xor_assoc (x ^^^ a ^^^ b), UInt8.xor_assoc x, UInt8.xor_assoc x, UInt8.xor_self,
      UInt8.xor_zero]
  simp [Function.comp_def, hid]

section Masking

variable {first : UInt8} {pnOffset : Nat} {number packet : List UInt8}

/-- The sample lies behind both masks. -/
theorem drop_masking (hnumber : number.length ≤ 4) :
    (masking first pnOffset number packet).drop (pnOffset + 4) = packet.drop (pnOffset + 4) := by
  refine List.ext_getElem? fun j => ?_
  rw [List.getElem?_drop, List.getElem?_drop, getElem?_masking, maskAt_eq_zero (i := 0)
    (.inr (by simp only [List.length_singleton]; omega)), maskAt_eq_zero (.inr (by omega))]
  simp

/-- The first byte lies before the packet number. -/
theorem first_masking (hoffset : 1 ≤ pnOffset) (hpacket : packet ≠ []) :
    (masking first pnOffset number packet).getD 0 0 = packet.getD 0 0 ^^^ first := by
  obtain ⟨x, rest, rfl⟩ := List.exists_cons_of_ne_nil hpacket
  rw [List.getD_eq_getElem?_getD, getElem?_masking, maskAt_eq_zero (i := pnOffset) (.inl hoffset)]
  simp [maskAt]

end Masking

theorem length_encrypt {C : Crypto} (k : InitialHeaderKey) {pnOffset : Nat}
    {packet wire : List UInt8} (h : k.encrypt C pnOffset packet = some wire) :
    wire.length = packet.length := by
  unfold encrypt apply at h
  split at h
  · rw [← Option.some.inj h]
    simp
  · exact absurd h (by simp)

/-- The masks `apply` draws from the sample of a packet that is long enough for one. -/
def hpMask (C : Crypto) (k : InitialHeaderKey) (pnOffset : Nat) (packet : List UInt8)
    (h : pnOffset + 4 + HP_SAMPLE_LEN ≤ packet.length) : List UInt8 :=
  (C.newMask k.key (slice HP_SAMPLE_LEN (pnOffset + 4) packet h)).toList

/-- The first byte without its mask, as `apply` takes it from either side. -/
def firstPlain (masked : Bool) (first firstMask : UInt8) : UInt8 :=
  if masked then first ^^^ firstMask else first

/-- Both sides read the packet-number length off the same byte. -/
theorem firstPlain_not (masked : Bool) (first firstMask : UInt8) :
    firstPlain (!masked) (first ^^^ firstMask) firstMask = firstPlain masked first firstMask := by
  cases masked with
  | false =>
    show first ^^^ firstMask ^^^ firstMask = first
    rw [UInt8.xor_assoc, UInt8.xor_self, UInt8.xor_zero]
  | true => rfl

section Apply

variable (C : Crypto) (k : InitialHeaderKey) {pnOffset : Nat} {packet : List UInt8}

/-- `apply` is a masking by what the sample says. -/
theorem apply_eq_masking (masked : Bool) (h : pnOffset + 4 + HP_SAMPLE_LEN ≤ packet.length) :
    k.apply C pnOffset packet masked =
      some (masking ((k.hpMask C pnOffset packet h).getD 0 0 &&& maskedBits (packet.getD 0 0))
        pnOffset (((k.hpMask C pnOffset packet h).drop 1).take (pnLen (firstPlain masked
          (packet.getD 0 0) ((k.hpMask C pnOffset packet h).getD 0 0 &&&
            maskedBits (packet.getD 0 0))))) packet) := by
  unfold apply
  rw [dif_pos h]
  rfl

/-- **Either direction undoes the other**, with the packet-number length read from under the mask
or off the plain byte. -/
theorem apply_not (masked : Bool) (hoffset : 1 ≤ pnOffset) (hlen : pnOffset + 20 ≤ packet.length) :
    (k.apply C pnOffset packet masked).bind (k.apply C pnOffset · (!masked)) = some packet := by
  have hsample : pnOffset + 4 + HP_SAMPLE_LEN ≤ packet.length := by
    unfold HP_SAMPLE_LEN
    omega
  have hne : packet ≠ [] := List.ne_nil_of_length_pos (by omega)
  rw [apply_eq_masking C k masked hsample, Option.bind_some]
  -- what is xored, by the mask of the sample and the plain first byte
  generalize hmask : k.hpMask C pnOffset packet hsample = mask
  generalize hfirstMask : mask.getD 0 0 &&& maskedBits (packet.getD 0 0) = firstMask
  generalize hnumber : (mask.drop 1).take (pnLen (firstPlain masked (packet.getD 0 0) firstMask)) =
    number
  have hshort : number.length ≤ 4 := by
    rw [← hnumber]
    exact (List.length_take_le _ _).trans (pnLen_le _)
  have hwire : pnOffset + 4 + HP_SAMPLE_LEN ≤ (masking firstMask pnOffset number packet).length := by
    simpa [masking] using hsample
  have hsame : k.hpMask C pnOffset (masking firstMask pnOffset number packet) hwire = mask := by
    rw [← hmask]
    refine congrArg (fun sample => (C.newMask k.key sample).toList) (Subtype.ext ?_)
    show ((masking firstMask pnOffset number packet).drop (pnOffset + 4)).take HP_SAMPLE_LEN = _
    rw [drop_masking hshort]
    rfl
  have hfirst : (masking firstMask pnOffset number packet).getD 0 0 =
      packet.getD 0 0 ^^^ firstMask := first_masking hoffset hne
  have hbits : mask.getD 0 0 &&& maskedBits (packet.getD 0 0 ^^^ firstMask) = firstMask := by
    rw [← hfirstMask, maskedBits_xor]
  rw [apply_eq_masking C k (!masked) hwire, hsame, hfirst, hbits, firstPlain_not, hnumber]
  exact congrArg some (masking_masking firstMask pnOffset number packet)

end Apply

/-- **Header protection comes off again**, with the packet-number length read from under it. -/
theorem apply_apply (C : Crypto) (k : InitialHeaderKey) {pnOffset : Nat} {packet : List UInt8}
    (hoffset : 1 ≤ pnOffset) (hlen : pnOffset + 20 ≤ packet.length) :
    (k.encrypt C pnOffset packet).bind (k.decrypt C pnOffset) = some packet :=
  k.apply_not C false hoffset hlen

end InitialHeaderKey

/-! ## Both protections, from one side to the other -/

/-- **Packet protection comes off again**: what `encrypt` makes of a buffer is the header with as
many bytes behind it, and they open to the payload. -/
theorem InitialPacketKey.decrypt_encrypt {C : Crypto} (h : C.Undoes) (k : InitialPacketKey)
    (packet : UInt64) (header payload : List UInt8) (room : Bytes TAG_LEN) :
    ∃ rest, k.encrypt C packet (header ++ payload ++ room.toList) header.length =
        some (header ++ rest) ∧ rest.length = payload.length + TAG_LEN ∧
      k.decrypt C packet header rest = .ok payload := by
  have hdrop : (header ++ payload ++ room.toList).drop header.length = payload ++ room.toList := by
    rw [List.append_assoc, List.drop_left]
  have htake : (header ++ payload ++ room.toList).take header.length = header := by
    rw [List.append_assoc, List.take_left]
  have hpayload : (payload ++ room.toList).take ((payload ++ room.toList).length - TAG_LEN) =
      payload := by
    rw [List.length_append, room.toList_length, Nat.add_sub_cancel, List.take_left]
  refine ⟨k.sealed C packet header payload, ?_, ?_, ?_⟩
  · unfold encrypt
    rw [if_pos]
    · rw [hdrop, htake]
      dsimp only
      rw [hpayload]
    · rw [hdrop]
      simp only [List.length_append, List.Vector.toList_length]
      omega
  · simp only [sealed, List.length_append, List.Vector.toList_length]
  · unfold decrypt sealed
    rw [h]

/-- The side at the other end. -/
def Side.peer : Side → Side
  | .client => .server
  | .server => .client

/-- Every seam hands out the keys of the schedule. -/
theorem Seam.keys {C : Crypto} {psk : Psk} {dcid : List UInt8} {side : Side} {keys : Keys}
    (h : Seam C psk dcid side keys) : keys = C.initialKeysFromPsk psk dcid side QUIC_V1 := by
  cases h with
  | session session hpsk side =>
    rw [← hpsk]
    rfl
  | config cfg hpsk h =>
    rw [← hpsk]
    exact (Except.ok.inj h).symm

/-- What one side writes with, the other reads with. -/
theorem initialKeys_peer (C : Crypto) (psk : Psk) (dcid : List UInt8) (side : Side)
    (version : UInt32) :
    (C.initialKeysFromPsk psk dcid side.peer version).header.remoteKey =
        (C.initialKeysFromPsk psk dcid side version).header.localKey ∧
      (C.initialKeysFromPsk psk dcid side.peer version).packet.remoteKey =
        (C.initialKeysFromPsk psk dcid side version).packet.localKey := by
  cases side <;> exact ⟨rfl, rfl⟩

/-- **What one side seals, the other opens.** For every PSK, DCID, sealing side and packet number,
the keys of both sides from any of their seams, every header that ends with the packet-number field
its first byte announces, and every payload, where the sealed packet is long enough to be sampled:
sealing succeeds, and opening gives back the header and the payload. -/
theorem initial_round_trip (C : Crypto) (h : C.Undoes) (psk : Psk) (dcid : List UInt8) (side : Side)
    (sender receiver : Keys) (hsender : Seam C psk dcid side sender)
    (hreceiver : Seam C psk dcid side.peer receiver) (packet : UInt64) (pnOffset : Nat)
    (header payload : List UInt8) (room : Bytes TAG_LEN) (hoffset : 1 ≤ pnOffset)
    (hheader : header.length = pnOffset + pnLen (header.getD 0 0))
    (hlen : pnOffset + 20 ≤ (header ++ payload ++ room.toList).length) :
    ∃ wire, protect C sender packet pnOffset header payload room = some wire ∧
      wire.length = (header ++ payload ++ room.toList).length ∧
      unprotect C receiver packet pnOffset wire = some (.ok (header, payload)) := by
  obtain ⟨hheaderKey, hpacketKey⟩ := initialKeys_peer C psk dcid side QUIC_V1
  rw [← hsender.keys, ← hreceiver.keys] at hheaderKey hpacketKey
  obtain ⟨rest, hseal, hrest, hopen⟩ :=
    sender.packet.localKey.decrypt_encrypt h packet header payload room
  have hsealed : (header ++ rest).length = (header ++ payload ++ room.toList).length := by
    simp only [List.length_append, List.Vector.toList_length, hrest]
    omega
  rw [← hsealed] at hlen
  obtain ⟨wire, hwire, hplain⟩ := Option.bind_eq_some_iff.mp
    (sender.header.localKey.apply_apply C hoffset hlen)
  refine ⟨wire, ?_, ?_, ?_⟩
  · rw [protect, hseal, Option.bind_some, hwire]
  · rw [← hsealed]
    exact sender.header.localKey.length_encrypt hwire
  · -- the recovered buffer starts with the header, whose first byte says where it ends
    have hne : header ≠ [] := List.ne_nil_of_length_pos (by omega)
    have hfirst : (header ++ rest).getD 0 0 = header.getD 0 0 := by
      obtain ⟨x, tail, rfl⟩ := List.exists_cons_of_ne_nil hne
      rfl
    rw [unprotect, hheaderKey, hplain, Option.map_some, hpacketKey]
    dsimp only
    rw [hfirst, ← hheader, List.take_left, List.drop_left, hopen]
    rfl

/-! ## The known-answer vector -/

/-- A list cut or filled to a length. -/
def fit (n : Nat) (l : List UInt8) : Bytes n :=
  ⟨(l ++ List.replicate n 0).take n, by simp⟩

/-- The plaintext of `initial_keys_known_answer_vector`, what it is sealed to, and the tag. -/
def katPlain : List UInt8 := ascii "quietquic-kat"

def katSealed : List UInt8 := [196, 33, 188, 123, 140, 235, 162, 64, 196, 135, 152, 188, 255]

def katTag : Bytes TAG_LEN :=
  ⟨[109, 135, 174, 169, 222, 23, 234, 81, 239, 171, 175, 154, 127, 178, 17, 180], rfl⟩

/-- The secrets and keys that HKDF-SHA256 derives from the vector's PSK and DCID. -/
def katExpand (prk info : List UInt8) : List UInt8 :=
  if info = hkdfLabelInfo 32 (ascii "client in") then
    [69, 46, 86, 170, 22, 41, 165, 193, 72, 248, 143, 137, 178, 101, 150, 159, 88, 73, 134, 242,
      178, 243, 81, 143, 154, 13, 175, 106, 119, 158, 85, 130]
  else if info = hkdfLabelInfo 32 (ascii "server in") then
    [172, 0, 67, 41, 140, 86, 220, 222, 43, 91, 201, 212, 237, 103, 231, 47, 24, 234, 206, 222,
      60, 250, 5, 233, 101, 87, 234, 97, 80, 247, 203, 96]
  else if info = hkdfLabelInfo 16 (ascii "quic key") then
    if prk.headD 0 = 69 then
      [250, 198, 154, 207, 234, 67, 85, 58, 51, 244, 17, 126, 243, 78, 232, 122]
    else [165, 165, 65, 108, 83, 185, 46, 56, 18, 2, 15, 233, 55, 112, 16, 248]
  else if info = hkdfLabelInfo 12 (ascii "quic iv") then
    if prk.headD 0 = 69 then [95, 219, 244, 35, 70, 222, 229, 159, 235, 204, 129, 62]
    else [235, 169, 164, 106, 70, 252, 29, 15, 126, 83, 72, 197]
  else if prk.headD 0 = 69 then
    [59, 216, 130, 177, 73, 63, 114, 193, 50, 221, 202, 208, 61, 97, 231, 220]
  else [74, 2, 24, 57, 207, 132, 42, 36, 53, 199, 93, 178, 122, 112, 57, 202]

/-- The vector's plaintext and ciphertext trade places. -/
def katSwap (l : List UInt8) : List UInt8 := Equiv.swap katPlain katSealed l

theorem length_katSwap (l : List UInt8) : (katSwap l).length = l.length := by
  unfold katSwap
  by_cases h : l = katPlain
  · rw [h, Equiv.swap_apply_left]
    rfl
  · by_cases h' : l = katSealed
    · rw [h', Equiv.swap_apply_right]
      rfl
    · rw [Equiv.swap_apply_of_ne_of_ne h h']

/-- Primitives that give the vector's values on its inputs: HKDF's, AES-128-GCM's and, of the one
sample, the AES-128 mask's. -/
def katCrypto : Crypto where
  Prk := List UInt8
  extract := fun _ _ => [196, 148, 14, 220, 66, 31, 96, 134, 10, 72, 8, 70, 62, 233, 184, 143, 10,
    176, 197, 90, 166, 127, 168, 132, 217, 59, 93, 245, 97, 251, 164, 159]
  newLessSafe := id
  expand := fun prk info len => fit len (katExpand prk info)
  sealInPlaceSeparateTag := fun _ _ _ payload =>
    (⟨katSwap payload, length_katSwap payload⟩, katTag)
  openInPlace := fun _ _ _ sealed => some (katSwap (sealed.take (sealed.length - TAG_LEN)))
  newMask := fun _ _ => ⟨[120, 21, 250, 114, 241], rfl⟩

theorem katCrypto_undoes : katCrypto.Undoes := by
  intro key nonce aad payload
  show some (katSwap ((katSwap payload ++ katTag.toList).take
    ((katSwap payload ++ katTag.toList).length - TAG_LEN))) = some payload
  rw [List.length_append, katTag.toList_length, Nat.add_sub_cancel, List.take_left]
  unfold katSwap
  rw [Equiv.swap_apply_self]

/-- The vector's PSK, DCID and header: one byte and a packet number of four. -/
def katPsk : Psk := List.Vector.replicate 32 7

/-- The client's session and the server's config, around no TLS. -/
def katSession : PskSession Unit := ⟨(), katPsk⟩

def katConfig : PskServerConfig Unit := ⟨(), katPsk⟩

def katDcid : List UInt8 := List.replicate 20 1

def katHeader : List UInt8 := [0xc3, 0x00, 0x00, 0x00, 0x01]

/-- The whole packet of the vector, with header protection. -/
def katWire : List UInt8 := [203, 21, 250, 114, 240] ++ katSealed ++ katTag.toList

theorem protect_kat :
    protect katCrypto (katSession.initialKeys katCrypto katDcid .client) 0 1 katHeader katPlain
      (List.Vector.replicate 16 0) = some katWire := by
  decide

/-- The client seals the vector, and the server opens it with its config's keys. -/
theorem initial_round_trip_vector :
    protect katCrypto (katSession.initialKeys katCrypto katDcid .client) 0 1 katHeader katPlain
        (List.Vector.replicate 16 0) = some katWire ∧
      ∃ keys, katConfig.initialKeys katCrypto QUIC_V1 katDcid = .ok keys ∧
        unprotect katCrypto keys 0 1 katWire = some (.ok (katHeader, katPlain)) := by
  obtain ⟨wire, hwire, -, hopen⟩ := initial_round_trip katCrypto katCrypto_undoes katPsk katDcid
    .client _ _ (.session katSession rfl .client) (.config katConfig rfl rfl) 0 1 katHeader katPlain
    (List.Vector.replicate 16 0) (by decide) (by decide) (by decide)
  obtain rfl : katWire = wire := Option.some.inj (protect_kat.symm.trans hwire)
  exact ⟨protect_kat, _, rfl, hopen⟩

end QuietQuic.Proto
