import QuietQuic.Lib.Bytes

/-!
# The blinded selector DCID

Model of `proto/src/transport.rs` (`peek_dcid`), `proto/src/selector.rs` (`compute_selector`,
`build_dcid`, `parse_dcid`, `selector_matches`) and `proto/src/freshness.rs` (`now_minutes`,
`is_fresh`). Keyed BLAKE3 is a parameter `H`, any function from a key and an input to a digest.

* `peekDcid_eq_some_iff`: the long headers the parser accepts, byte by byte.
* `parseDcid_buildDcid` and `buildDcid_of_selectorMatches`: on 20-byte strings, a selector that
  matches under a PSK is exactly one that `buildDcid` writes under it.
* `accepts_exactly_built`: so the 20-byte strings that match are the image of `buildDcid`, each of
  one nonce and freshness.
* `isFresh_iff`: the saturating bounds are the plain distance over the naturals, at both ends of
  the 32-bit range.
-/

namespace QuietQuic.Proto

open QuietQuic.Lib

/-- A 32-byte pre-shared key. -/
abbrev Psk := Bytes 32

/-- Keyed BLAKE3 over a whole input: key, input, digest. -/
abbrev KeyedHash := Psk → List UInt8 → Bytes 32

/-! ## The long-header parser -/

/-- `peek_dcid`: the destination connection ID of a long-header datagram. -/
def peekDcid (datagram : List UInt8) : Option (List UInt8) :=
  match datagram[0]? with
  | none => none
  | some first =>
    if first &&& 0x80 = 0 then none -- short header: no DCID length field on the wire
    else
      match datagram[5]? with
      | none => none
      | some len =>
        let dcidLen := len.toNat
        if dcidLen = 0 ∨ 20 < dcidLen then none
        else if datagram.length < 6 + dcidLen then none
        else some ((datagram.drop 6).take dcidLen)

/-- A long header that carries the DCID `c`: flags, four version bytes, the length, `c`. -/
def Carries (datagram c : List UInt8) : Prop :=
  ∃ first version rest,
    datagram = first :: (version ++ UInt8.ofNat c.length :: (c ++ rest)) ∧
      first &&& 0x80 ≠ 0 ∧ version.length = 4

theorem peekDcid_of_carries {d c : List UInt8} (h : Carries d c) (hpos : 0 < c.length)
    (hle : c.length ≤ 20) : peekDcid d = some c := by
  obtain ⟨first, version, rest, rfl, hlong, hver⟩ := h
  match version, hver with
  | [v0, v1, v2, v3], _ =>
    have hlen : (UInt8.ofNat c.length).toNat = c.length := by
      rw [UInt8.toNat_ofNat']
      omega
    have hne : c ≠ [] := List.ne_nil_of_length_pos hpos
    simp [peekDcid, hlong, hlen, hle, hne]
    omega

theorem carries_of_peekDcid {d c : List UInt8} (h : peekDcid d = some c) :
    Carries d c ∧ 0 < c.length ∧ c.length ≤ 20 := by
  unfold peekDcid at h
  match d with
  | [] => simp at h
  | [_] => simp at h
  | [_, _] => simp at h
  | [_, _, _] => simp at h
  | [_, _, _, _] => simp at h
  | [_, _, _, _, _] => simp at h
  | first :: v0 :: v1 :: v2 :: v3 :: len :: body =>
    simp only [List.getElem?_cons_zero, List.getElem?_cons_succ, List.drop_succ_cons,
      List.drop_zero, List.length_cons] at h
    split at h
    · exact absurd h (by simp)
    · rename_i hlong
      split at h
      · exact absurd h (by simp)
      · rename_i hrange
        split at h
        · exact absurd h (by simp)
        · rename_i hfit
          obtain rfl := Option.some.inj h
          have hc : (body.take len.toNat).length = len.toNat := by
            rw [List.length_take]
            omega
          refine ⟨⟨first, [v0, v1, v2, v3], body.drop len.toNat, ?_, hlong, rfl⟩, ?_, ?_⟩
          · simp [hc]
          · omega
          · omega

/-- **What the parser accepts**: long headers, with a DCID of 1 to 20 bytes that is there. -/
theorem peekDcid_eq_some_iff {d c : List UInt8} :
    peekDcid d = some c ↔ Carries d c ∧ 0 < c.length ∧ c.length ≤ 20 :=
  ⟨carries_of_peekDcid, fun ⟨h, hpos, hle⟩ => peekDcid_of_carries h hpos hle⟩

/-! ## The selector -/

/-- `CONTEXT`, the domain-separation input. -/
def CONTEXT : List UInt8 := "quietquic/v1/selector".toUTF8.data.toList

/-- `DCID_LEN`. -/
def DCID_LEN : Nat := 20

/-- `DcidParts`. -/
structure DcidParts where
  nonce : Bytes 8
  freshness : UInt32
  selector : Bytes 8
  deriving DecidableEq

/-- `compute_selector`: the first eight digest bytes over context, nonce and freshness. -/
def computeSelector (H : KeyedHash) (psk : Psk) (nonce : Bytes 8) (freshness : UInt32) : Bytes 8 :=
  let hash := H psk (CONTEXT ++ nonce.toList ++ (toLeBytes freshness).toList)
  slice 8 0 hash.toList (by simp)

/-- `build_dcid`: nonce, little-endian freshness, selector. -/
def buildDcid (H : KeyedHash) (psk : Psk) (nonce : Bytes 8) (freshness : UInt32) : Bytes 20 :=
  ⟨nonce.toList ++ (toLeBytes freshness).toList ++ (computeSelector H psk nonce freshness).toList,
    by simp⟩

/-- `parse_dcid`. -/
def parseDcid (dcid : List UInt8) : Option DcidParts :=
  if h : dcid.length = DCID_LEN then
    some
      { nonce := slice 8 0 dcid (by simp [h, DCID_LEN])
        freshness := ofLeBytes (slice 4 8 dcid (by simp [h, DCID_LEN]))
        selector := slice 8 12 dcid (by simp [h, DCID_LEN]) }
  else none

/-- `selector_matches`: recompute the selector and compare without branching on the bytes. -/
def selectorMatches (H : KeyedHash) (psk : Psk) (parts : DcidParts) : Bool :=
  let expected := computeSelector H psk parts.nonce parts.freshness
  orXor expected.toList parts.selector.toList == 0

theorem selectorMatches_iff {H : KeyedHash} {psk : Psk} {parts : DcidParts} :
    selectorMatches H psk parts = true ↔
      computeSelector H psk parts.nonce parts.freshness = parts.selector := by
  unfold selectorMatches
  rw [beq_iff_eq, orXor_eq_zero_iff (by simp)]
  exact ⟨fun h => List.Vector.eq _ _ h, fun h => by rw [h]⟩

/-- The parts written into a DCID, in order. -/
def DcidParts.toBytes (parts : DcidParts) : List UInt8 :=
  parts.nonce.toList ++ (toLeBytes parts.freshness).toList ++ parts.selector.toList

theorem slice_append {n : Nat} (pre post : List UInt8) (b : Bytes n)
    (h : pre.length + n ≤ (pre ++ b.toList ++ post).length) :
    slice n pre.length (pre ++ b.toList ++ post) h = b := by
  apply List.Vector.eq
  show ((pre ++ b.toList ++ post).drop pre.length).take n = b.toList
  rw [List.append_assoc, List.drop_left, List.take_append_of_le_length (by simp),
    List.take_of_length_le (by simp)]

/-- Splitting a string at three consecutive slices. -/
theorem slices_toList {d : List UInt8} (h : d.length = 20) :
    (slice 8 0 d (by omega)).toList ++ (slice 4 8 d (by omega)).toList ++
      (slice 8 12 d (by omega)).toList = d := by
  show (d.drop 0).take 8 ++ (d.drop 8).take 4 ++ (d.drop 12).take 8 = d
  have h12 : (d.drop 12).take 8 = d.drop 12 := List.take_of_length_le (by simp [h])
  rw [h12, List.drop_zero, List.append_assoc]
  have h8 : (d.drop 8).take 4 ++ d.drop 12 = d.drop 8 := by
    have := List.take_append_drop 4 (d.drop 8)
    rwa [List.drop_drop] at this
  rw [h8, List.take_append_drop]

/-- `parse_dcid` reads back exactly what stands in a 20-byte string. -/
theorem parseDcid_eq_some_iff {d : List UInt8} {parts : DcidParts} :
    parseDcid d = some parts ↔ d = parts.toBytes := by
  constructor
  · intro h
    unfold parseDcid at h
    split at h
    · rename_i hlen
      obtain rfl := Option.some.inj h
      rw [DcidParts.toBytes, toLeBytes_ofLeBytes]
      exact (slices_toList hlen).symm
    · exact absurd h (by simp)
  · rintro rfl
    obtain ⟨nonce, freshness, selector⟩ := parts
    have hlen : (DcidParts.toBytes ⟨nonce, freshness, selector⟩).length = DCID_LEN := by
      simp [DcidParts.toBytes, DCID_LEN]
    unfold parseDcid
    rw [dif_pos hlen]
    congr 1
    have hn := slice_append [] ((toLeBytes freshness).toList ++ selector.toList) nonce (by simp)
    have hf := slice_append nonce.toList selector.toList (toLeBytes freshness) (by simp)
    have hs := slice_append (nonce.toList ++ (toLeBytes freshness).toList) [] selector (by simp)
    simp only [List.nil_append, List.length_nil, List.Vector.toList_length, List.append_nil,
      List.length_append, Nat.reduceAdd, ← List.append_assoc] at hn hf hs
    simp only [DcidParts.toBytes, hn, hf, hs, ofLeBytes_toLeBytes]

/-- The parts `build_dcid` writes. -/
def builtParts (H : KeyedHash) (psk : Psk) (nonce : Bytes 8) (freshness : UInt32) : DcidParts :=
  ⟨nonce, freshness, computeSelector H psk nonce freshness⟩

/-- **Parsing undoes building.** -/
theorem parseDcid_buildDcid (H : KeyedHash) (psk : Psk) (nonce : Bytes 8) (freshness : UInt32) :
    parseDcid (buildDcid H psk nonce freshness).toList =
      some (builtParts H psk nonce freshness) :=
  parseDcid_eq_some_iff.mpr rfl

/-- **A matching selector was built**: the parsed string is what `build_dcid` writes under that
PSK for the parsed nonce and freshness. -/
theorem buildDcid_of_selectorMatches {H : KeyedHash} {psk : Psk} {d : List UInt8}
    {parts : DcidParts} (hparse : parseDcid d = some parts) :
    selectorMatches H psk parts = true ↔
      d = (buildDcid H psk parts.nonce parts.freshness).toList := by
  rw [selectorMatches_iff, parseDcid_eq_some_iff.mp hparse]
  show _ ↔ parts.nonce.toList ++ (toLeBytes parts.freshness).toList ++ parts.selector.toList =
    parts.nonce.toList ++ (toLeBytes parts.freshness).toList ++
      (computeSelector H psk parts.nonce parts.freshness).toList
  rw [List.append_cancel_left_eq]
  exact ⟨fun h => by rw [h], fun h => (List.Vector.eq _ _ h).symm⟩

theorem parseDcid_isSome_iff {d : List UInt8} : (parseDcid d).isSome = true ↔ d.length = 20 := by
  unfold parseDcid DCID_LEN
  split <;> simp_all

/-- **What was built says from what.** -/
theorem eq_of_parseDcid_buildDcid {H : KeyedHash} {psk : Psk} {d : List UInt8} {parts : DcidParts}
    (hparse : parseDcid d = some parts) {nonce : Bytes 8} {freshness : UInt32}
    (hd : d = (buildDcid H psk nonce freshness).toList) :
    nonce = parts.nonce ∧ freshness = parts.freshness := by
  rw [hd, parseDcid_buildDcid] at hparse
  rw [← Option.some.inj hparse]
  exact ⟨rfl, rfl⟩

/-- **The server accepts exactly what the client's encoder writes.** Whatever keyed BLAKE3 computes,
under every PSK: the parser takes the strings of 20 bytes, gives back the nonce and the freshness of
a DCID that was built, and finds a selector that matches exactly in the strings that were built, each
from the one nonce and freshness it reads. The fold that compares is zero only on equal selectors. -/
theorem accepts_exactly_built (H : KeyedHash) (psk : Psk) :
    (∀ s, (parseDcid s).isSome = true ↔ s.length = 20) ∧
    (∀ nonce freshness, ∃ parts, parseDcid (buildDcid H psk nonce freshness).toList = some parts ∧
      parts.nonce = nonce ∧ parts.freshness = freshness) ∧
    ∀ s : List UInt8, s.length = 20 → ∃ parts, parseDcid s = some parts ∧
      (selectorMatches H psk parts = true ↔
        ∃ nonce freshness, s = (buildDcid H psk nonce freshness).toList) ∧
      (∀ nonce freshness, s = (buildDcid H psk nonce freshness).toList →
        nonce = parts.nonce ∧ freshness = parts.freshness) ∧
      (orXor (computeSelector H psk parts.nonce parts.freshness).toList parts.selector.toList = 0 ↔
        computeSelector H psk parts.nonce parts.freshness = parts.selector) := by
  refine ⟨fun s => parseDcid_isSome_iff, fun nonce freshness => ?_, fun s hs => ?_⟩
  · exact ⟨_, parseDcid_buildDcid H psk nonce freshness, rfl, rfl⟩
  · obtain ⟨parts, hparse⟩ := Option.isSome_iff_exists.mp (parseDcid_isSome_iff.mpr hs)
    refine ⟨parts, hparse, ?_, fun nonce freshness => eq_of_parseDcid_buildDcid hparse, ?_⟩
    · rw [buildDcid_of_selectorMatches hparse]
      constructor
      · exact fun hbuilt => ⟨parts.nonce, parts.freshness, hbuilt⟩
      · rintro ⟨nonce, freshness, hbuilt⟩
        obtain ⟨rfl, rfl⟩ := eq_of_parseDcid_buildDcid hparse hbuilt
        exact hbuilt
    · rw [← selectorMatches_iff, selectorMatches, beq_iff_eq]

/-- Keyed BLAKE3 on the input of `selector_known_answer_vector`. -/
def vectorHash : KeyedHash := fun _ _ =>
  ⟨[163, 4, 131, 100, 27, 153, 231, 52, 213, 143, 222, 166, 0, 208, 152, 106, 8, 76, 112, 215, 150,
    124, 112, 0, 6, 134, 29, 182, 124, 125, 210, 151], rfl⟩

/-- The DCID of the vector: eight ones, minute 100 and the selector. -/
def vectorDcid : List UInt8 :=
  [1, 1, 1, 1, 1, 1, 1, 1, 100, 0, 0, 0, 163, 4, 131, 100, 27, 153, 231, 52]

/-- It matches under the vector's PSK, and reads as the nonce and the minute it was built from. -/
theorem accepts_exactly_built_vector :
    vectorDcid.length = 20 ∧ ∃ parts, parseDcid vectorDcid = some parts ∧
      parts.nonce = List.Vector.replicate 8 1 ∧ parts.freshness = 100 ∧
      selectorMatches vectorHash (List.Vector.replicate 32 7) parts = true := by
  have hbuilt : vectorDcid = (buildDcid vectorHash (List.Vector.replicate 32 7)
      (List.Vector.replicate 8 1) 100).toList := by decide
  obtain ⟨parts, hparse, hmatch, honly, -⟩ :=
    (accepts_exactly_built vectorHash (List.Vector.replicate 32 7)).2.2 vectorDcid rfl
  obtain ⟨hnonce, hfreshness⟩ := honly _ _ hbuilt
  exact ⟨rfl, parts, hparse, hnonce.symm, hfreshness.symm, hmatch.mpr ⟨_, _, hbuilt⟩⟩

/-! ## Freshness -/

/-- `WINDOW_MINUTES`. -/
def WINDOW_MINUTES : UInt32 := 2

/-- `now_minutes`, from the wall clock's seconds since the Unix epoch; `none` is a clock set
before the epoch. -/
def nowMinutes (sinceEpoch : Option Nat) : UInt32 := UInt32.ofNat (sinceEpoch.getD 0 / 60)

/-- `is_fresh`. -/
def isFresh (freshness now window : UInt32) : Bool :=
  let lo := saturatingSub now window
  let hi := saturatingAdd now window
  decide (lo ≤ freshness) && decide (freshness ≤ hi)

/-- **The window is the distance over the naturals**, at both ends of the range. -/
theorem isFresh_iff {freshness now window : UInt32} :
    isFresh freshness now window = true ↔
      freshness.toNat ≤ now.toNat + window.toNat ∧ now.toNat ≤ freshness.toNat + window.toNat := by
  have hf := freshness.toNat_lt
  simp only [isFresh, Bool.and_eq_true, decide_eq_true_eq, UInt32.le_iff_toNat_le,
    toNat_saturatingSub, toNat_saturatingAdd]
  omega

/-- Every minute is the reading of some clock, so a reading may be below an earlier one. -/
theorem nowMinutes_surjective : Function.Surjective nowMinutes := fun m =>
  ⟨some (60 * m.toNat), by simp [nowMinutes]⟩

end QuietQuic.Proto
