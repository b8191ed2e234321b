import QuietQuic.Proto.InitialKeys

/-!
# What header protection touches

`InitialHeaderKey::apply` reads the packet-number length off a byte that it masks, takes its sample
from behind bytes that it rewrites, and indexes by both. This module follows its indexing byte by
byte, and bounds what either direction can change.

* `applyIndexed_eq_apply`: with every index checked on its own, the sample is the only one that can
  be out of range.
* `apply_frame`: byte 0 in the masked bits, the packet number, and nothing else.
* `header_protection_inverse`: each direction undoes the other within that frame.
-/

namespace QuietQuic.Proto

open QuietQuic.Lib

/-- `for (i, m) in mask.iter().enumerate() { buf[at + i] ^= *m }`, `none` where an index is out of
range. -/
def xorAtIndexed : Nat → List UInt8 → List UInt8 → Option (List UInt8)
  | _, [], buf => some buf
  | i, m :: mask, buf =>
    if i < buf.length then xorAtIndexed (i + 1) mask (buf.modify i (· ^^^ m)) else none

theorem xorAtIndexed_eq_xorAt {i : Nat} {mask buf : List UInt8} (h : i + mask.length ≤ buf.length) :
    xorAtIndexed i mask buf = some (xorAt i mask buf) := by
  induction mask generalizing i buf with
  | nil => rfl
  | cons m mask ih =>
    rw [List.length_cons] at h
    rw [xorAtIndexed, if_pos (by omega), xorAt, ih (by rw [List.length_modify]; omega)]

/-- What `apply` leaves of a packet whose plain first byte is `plain`: as many bytes, the first the
same outside its masked bits, and the others the same outside the packet number. -/
structure HeaderFrame (plain : UInt8) (pnOffset : Nat) (packet out : List UInt8) : Prop where
  length_eq : out.length = packet.length
  first : out.getD 0 0 &&& ~~~ maskedBits (packet.getD 0 0) =
    packet.getD 0 0 &&& ~~~ maskedBits (packet.getD 0 0)
  rest : ∀ j, j ≠ 0 → (j < pnOffset ∨ pnOffset + pnLen plain ≤ j) → out[j]? = packet[j]?

namespace InitialHeaderKey

/-- `InitialHeaderKey::apply` with each of its indexes checked: the sample's slice, byte 0, the
slice of the mask, and the bytes of the packet number. -/
def applyIndexed (C : Crypto) (k : InitialHeaderKey) (pnOffset : Nat) (packet : List UInt8)
    (masked : Bool) : Option (List UInt8) :=
  if h : pnOffset + 4 + HP_SAMPLE_LEN ≤ packet.length then
    let mask := (C.newMask k.key (slice HP_SAMPLE_LEN (pnOffset + 4) packet h)).toList
    match packet[0]?, mask[0]? with
    | some first, some m =>
      let firstPlain := if masked then first ^^^ (m &&& maskedBits first) else first
      if 1 + pnLen firstPlain ≤ mask.length then
        xorAtIndexed pnOffset ((mask.drop 1).take (pnLen firstPlain))
          (packet.modify 0 (· ^^^ (m &&& maskedBits first)))
      else none
    | _, _ => none
  else none

section Apply

variable (C : Crypto) (k : InitialHeaderKey) (pnOffset : Nat) (packet : List UInt8) (masked : Bool)

/-- **No index of `apply` but the sample's can be out of range.** -/
theorem applyIndexed_eq_apply :
    k.applyIndexed C pnOffset packet masked = k.apply C pnOffset packet masked := by
  unfold applyIndexed apply
  split
  case isFalse => rfl
  case isTrue h =>
    generalize hmask : C.newMask k.key (slice HP_SAMPLE_LEN (pnOffset + 4) packet h) = mask
    have hlen : mask.toList.length = 5 := mask.toList_length
    generalize mask.toList = mask at hlen
    obtain ⟨m, number, rfl⟩ := List.exists_cons_of_length_eq_add_one hlen
    obtain ⟨first, rest, rfl⟩ := List.exists_cons_of_ne_nil
      (List.ne_nil_of_length_pos (Nat.lt_of_lt_of_le (by omega) h))
    rw [List.length_cons] at hlen
    have hpn := pnLen_le (if masked then first ^^^ (m &&& maskedBits first) else first)
    simp only [List.getElem?_cons_zero, List.getD_cons_zero, List.drop_one, List.tail_cons,
      List.length_cons]
    rw [if_pos (by omega)]
    refine xorAtIndexed_eq_xorAt ?_
    rw [List.length_take, List.length_modify]
    omega

end Apply

section Frame

variable (C : Crypto) (k : InitialHeaderKey) {pnOffset : Nat} {packet : List UInt8}

/-- A mask that stays inside some bits leaves the others. -/
theorem xor_and_not (first m bits : UInt8) :
    (first ^^^ (m &&& bits)) &&& ~~~ bits = first &&& ~~~ bits := by
  refine UInt8.toBitVec_inj.1 ?_
  ext i hi
  simp only [UInt8.toBitVec_and, UInt8.toBitVec_xor, UInt8.toBitVec_not, BitVec.getElem_and,
    BitVec.getElem_xor, BitVec.getElem_not]
  cases bits.toBitVec[i] <;> simp

/-- **What `apply` touches**, by the first byte without its mask. -/
theorem apply_frame (masked : Bool) (hoffset : 1 ≤ pnOffset)
    (hlen : pnOffset + 20 ≤ packet.length) :
    ∃ out, k.apply C pnOffset packet masked = some out ∧
      HeaderFrame (if masked then out.getD 0 0 else packet.getD 0 0) pnOffset packet out := by
  have hsample : pnOffset + 4 + HP_SAMPLE_LEN ≤ packet.length := by
    unfold HP_SAMPLE_LEN
    omega
  have hne : packet ≠ [] := List.ne_nil_of_length_pos (by omega)
  refine ⟨_, apply_eq_masking C k masked hsample, ?_⟩
  generalize hmask : k.hpMask C pnOffset packet hsample = mask
  generalize hnumber : (mask.drop 1).take (pnLen (firstPlain masked (packet.getD 0 0)
    (mask.getD 0 0 &&& maskedBits (packet.getD 0 0)))) = number
  have hfirst : (masking (mask.getD 0 0 &&& maskedBits (packet.getD 0 0)) pnOffset number
      packet).getD 0 0 = packet.getD 0 0 ^^^ (mask.getD 0 0 &&& maskedBits (packet.getD 0 0)) :=
    first_masking hoffset hne
  refine ⟨by simp [masking], ?_, ?_⟩
  · rw [hfirst, xor_and_not]
  · intro j hj hout
    have hplain : (if masked then (masking (mask.getD 0 0 &&& maskedBits (packet.getD 0 0)) pnOffset
        number packet).getD 0 0 else packet.getD 0 0) =
        firstPlain masked (packet.getD 0 0) (mask.getD 0 0 &&& maskedBits (packet.getD 0 0)) := by
      rw [hfirst]
      rfl
    rw [hplain] at hout
    have hcovered : number.length ≤ pnLen (firstPlain masked (packet.getD 0 0)
        (mask.getD 0 0 &&& maskedBits (packet.getD 0 0))) := by
      rw [← hnumber]
      exact List.length_take_le _ _
    rw [getElem?_masking, maskAt_eq_zero (i := 0)
      (.inr (by simp only [List.length_singleton]; omega)), maskAt_eq_zero (i := pnOffset)
      (by omega)]
    simp

end Frame

end InitialHeaderKey

/-- **Header protection is a two-sided inverse with a tight frame.** For every mask function, every
offset past byte 0 and every packet with room for a sample behind it: sealing and opening index
within the packet, each undoes the other, and each keeps what `HeaderFrame` says by the packet's
unprotected first byte, which is the sealed packet's before and the opened packet's after. -/
theorem header_protection_inverse (C : Crypto) (k : InitialHeaderKey) (pnOffset : Nat)
    (packet : List UInt8) (hoffset : 1 ≤ pnOffset) (hlen : pnOffset + 20 ≤ packet.length) :
    (∃ wire, k.encrypt C pnOffset packet = some wire ∧
      k.applyIndexed C pnOffset packet false = some wire ∧
      k.decrypt C pnOffset wire = some packet ∧
      HeaderFrame (packet.getD 0 0) pnOffset packet wire) ∧
    ∃ plain, k.decrypt C pnOffset packet = some plain ∧
      k.applyIndexed C pnOffset packet true = some plain ∧
      k.encrypt C pnOffset plain = some packet ∧
      HeaderFrame (plain.getD 0 0) pnOffset packet plain := by
  constructor
  · obtain ⟨wire, hwire, hframe⟩ := k.apply_frame C false hoffset hlen
    have hback := k.apply_not C false hoffset hlen
    rw [hwire, Option.bind_some] at hback
    exact ⟨wire, hwire, (k.applyIndexed_eq_apply C pnOffset packet false).trans hwire, hback, hframe⟩
  · obtain ⟨plain, hplain, hframe⟩ := k.apply_frame C true hoffset hlen
    have hback := k.apply_not C true hoffset hlen
    rw [hplain, Option.bind_some] at hback
    exact ⟨plain, hplain, (k.applyIndexed_eq_apply C pnOffset packet true).trans hplain, hback,
      hframe⟩

/-- The vector's packet, sealed by its key and opened again. -/
theorem header_protection_inverse_vector :
    1 ≤ 1 ∧ 1 + 20 ≤ katWire.length ∧
      ∃ plain, (InitialHeaderKey.mk (List.Vector.replicate 16 0)).decrypt katCrypto 1 katWire =
          some plain ∧
        (InitialHeaderKey.mk (List.Vector.replicate 16 0)).encrypt katCrypto 1 plain =
          some katWire := by
  obtain ⟨-, plain, hplain, -, hback, -⟩ := header_protection_inverse katCrypto
    (InitialHeaderKey.mk (List.Vector.replicate 16 0)) 1 katWire (by decide) (by decide)
  exact ⟨by decide, by decide, plain, hplain, hback⟩

end QuietQuic.Proto
