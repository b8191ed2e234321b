import Mathlib.Data.Vector.Basic
import Mathlib.Tactic.Tauto

/-!
# Byte strings: fixed lengths, little-endian words, a fold that compares

* `Bytes n`: a byte string of length `n`, the model of a `[u8; n]` array.
* `toLeBytes` / `ofLeBytes`: a 32-bit word as four bytes, least significant first, and back;
  each undoes the other (`ofLeBytes_toLeBytes`, `toLeBytes_ofLeBytes`).
* `beBytes`: a number as so many bytes, most significant first, which spell it (`ofBeBytes_beBytes`).
* `orXor`: the or of the byte-wise xors of two strings; on strings of one length it is zero only
  on equal strings (`orXor_eq_zero_iff`).
* `xorAt`: a mask xored into a buffer in place, from an index on; what it does to one byte
  (`getElem?_xorAt`), and how the mask comes out again (`zipWith_xor_xorAt`).
* `saturatingSub` / `saturatingAdd`: 32-bit arithmetic that stops at the ends of the range.
-/

namespace QuietQuic.Lib

/-- A byte string of a fixed length. -/
abbrev Bytes (n : Nat) := List.Vector UInt8 n

/-- The first `n` bytes from `i` on, when they are there. -/
def slice (n i : Nat) (l : List UInt8) (h : i + n ≤ l.length) : Bytes n :=
  ⟨(l.drop i).take n, by simp only [List.length_take, List.length_drop]; omega⟩

/-- `u32::to_le_bytes`. -/
def toLeBytes (x : UInt32) : Bytes 4 :=
  ⟨[UInt8.ofNat x.toNat, UInt8.ofNat (x.toNat / 256), UInt8.ofNat (x.toNat / 65536),
    UInt8.ofNat (x.toNat / 16777216)], rfl⟩

/-- `u32::from_le_bytes`. -/
def ofLeBytes (b : Bytes 4) : UInt32 :=
  UInt32.ofNat (b.get 0).toNat + UInt32.ofNat ((b.get 1).toNat * 256) +
    UInt32.ofNat ((b.get 2).toNat * 65536) + UInt32.ofNat ((b.get 3).toNat * 16777216)

theorem ofLeBytes_toLeBytes (x : UInt32) : ofLeBytes (toLeBytes x) = x := by
  apply UInt32.toNat_inj.mp
  have h := x.toNat_lt
  simp only [ofLeBytes, toLeBytes, List.Vector.get, UInt32.toNat_add, UInt32.toNat_ofNat']
  simp
  omega

theorem toLeBytes_ofLeBytes (b : Bytes 4) : toLeBytes (ofLeBytes b) = b := by
  obtain ⟨l, hl⟩ := b
  match l, hl with
  | [b0, b1, b2, b3], _ =>
    have h0 := b0.toNat_lt
    have h1 := b1.toNat_lt
    have h2 := b2.toNat_lt
    have h3 := b3.toNat_lt
    apply Subtype.ext
    simp only [ofLeBytes, toLeBytes, List.Vector.get, UInt32.toNat_add, UInt32.toNat_ofNat']
    simp [← UInt8.toNat_inj]
    refine ⟨?_, ?_, ?_, ?_⟩ <;> omega

/-- The bytes of `x`, most significant first, as many as are asked for. -/
def beBytes : Nat → Nat → List UInt8
  | 0, _ => []
  | n + 1, x => UInt8.ofNat (x / 256 ^ n) :: beBytes n x

@[simp] theorem length_beBytes (n x : Nat) : (beBytes n x).length = n := by
  induction n with
  | zero => rfl
  | succ n ih => rw [beBytes, List.length_cons, ih]

/-- The number that bytes spell, most significant first. -/
def ofBeBytes : List UInt8 → Nat
  | [] => 0
  | b :: bytes => 256 ^ bytes.length * b.toNat + ofBeBytes bytes

/-- **The bytes spell the number**, as far as they reach. -/
theorem ofBeBytes_beBytes (n x : Nat) : ofBeBytes (beBytes n x) = x % 256 ^ n := by
  induction n with
  | zero => exact (Nat.mod_one x).symm
  | succ n ih =>
    have hdigits : x % 256 ^ (n + 1) = x % 256 ^ n + 256 ^ n * (x / 256 ^ n % 256) :=
      Nat.mod_pow_succ
    rw [beBytes, ofBeBytes, ih, length_beBytes, UInt8.toNat_ofNat', hdigits]
    exact Nat.add_comm _ _

/-! ## Masking in place -/

/-- `for (i, m) in mask.iter().enumerate() { buf[at + i] ^= m }`. -/
def xorAt : Nat → List UInt8 → List UInt8 → List UInt8
  | _, [], buf => buf
  | i, m :: mask, buf => xorAt (i + 1) mask (buf.modify i (· ^^^ m))

@[simp] theorem length_xorAt (i : Nat) (mask buf : List UInt8) :
    (xorAt i mask buf).length = buf.length := by
  induction mask generalizing i buf with
  | nil => rfl
  | cons m mask ih => rw [xorAt, ih, List.length_modify]

/-- The byte of a mask from `i` on that is xored into byte `j`. -/
def maskAt (i : Nat) (mask : List UInt8) (j : Nat) : UInt8 :=
  if i ≤ j then mask.getD (j - i) 0 else 0

theorem maskAt_eq_zero {i j : Nat} {mask : List UInt8} (h : j < i ∨ i + mask.length ≤ j) :
    maskAt i mask j = 0 := by
  unfold maskAt
  split
  · rw [List.getD_eq_getElem?_getD, List.getElem?_eq_none (by omega)]
    rfl
  · rfl

/-- **What masking does to one byte.** -/
theorem getElem?_xorAt (i : Nat) (mask buf : List UInt8) (j : Nat) :
    (xorAt i mask buf)[j]? = buf[j]?.map (· ^^^ maskAt i mask j) := by
  induction mask generalizing i buf with
  | nil =>
    rw [maskAt_eq_zero (by simp only [List.length_nil]; omega)]
    simp [xorAt]
  | cons m mask ih =>
    rw [xorAt, ih, List.getElem?_modify, Option.map_eq_map, Option.map_map]
    congr 1
    funext x
    rw [Function.comp_apply]
    rcases Nat.lt_trichotomy j i with hlt | rfl | hgt
    · rw [maskAt_eq_zero (.inl hlt), maskAt_eq_zero (.inl (by omega)), if_neg (by omega)]
    · rw [maskAt_eq_zero (.inl (by omega)), if_pos rfl, UInt8.xor_zero]
      simp [maskAt]
    · rw [if_neg (by omega), maskAt, maskAt, if_pos (by omega), if_pos (by omega),
        show j - i = j - (i + 1) + 1 by omega, List.getD_cons_succ]

/-- What stands before the mask stays. -/
theorem take_xorAt (i : Nat) (mask buf : List UInt8) :
    (xorAt i mask buf).take i = buf.take i := by
  refine List.ext_getElem? fun j => ?_
  rw [List.getElem?_take, List.getElem?_take]
  split
  · rename_i hj
    rw [getElem?_xorAt, maskAt_eq_zero (.inl hj)]
    simp
  · rfl

/-- **A mask that reaches the end comes out of the buffer again**, behind zeros. -/
theorem zipWith_xor_xorAt {i : Nat} {mask buf : List UInt8} (h : i + mask.length = buf.length) :
    List.zipWith (· ^^^ ·) (xorAt i mask buf) buf = List.replicate i 0 ++ mask := by
  refine List.ext_getElem? fun j => ?_
  rw [List.getElem?_zipWith, getElem?_xorAt]
  cases hbyte : buf[j]? with
  | none =>
    have hlen : buf.length ≤ j := List.getElem?_eq_none_iff.mp hbyte
    exact (List.getElem?_eq_none (by simp; omega)).symm
  | some b =>
    obtain ⟨hlen, -⟩ := List.getElem?_eq_some_iff.mp hbyte
    have hself : b ^^^ maskAt i mask j ^^^ b = maskAt i mask j := by
      rw [UInt8.xor_comm, ← UInt8.xor_assoc, UInt8.xor_self, UInt8.zero_xor]
    simp only [Option.map_some, hself]
    by_cases hj : j < i
    · rw [maskAt_eq_zero (.inl hj), List.getElem?_append_left (by simpa using hj),
        List.getElem?_replicate, if_pos hj]
    · have hmask : j - i < mask.length := by omega
      rw [List.getElem?_append_right (by simp; omega), List.length_replicate, maskAt,
        if_pos (by omega), List.getD_eq_getElem?_getD, List.getElem?_eq_getElem hmask]
      rfl

/-! ## Saturating arithmetic -/

/-- `u32::saturating_sub`. -/
def saturatingSub (a b : UInt32) : UInt32 := UInt32.ofNat (a.toNat - b.toNat)

/-- `u32::saturating_add`. -/
def saturatingAdd (a b : UInt32) : UInt32 := UInt32.ofNat (min (a.toNat + b.toNat) (2 ^ 32 - 1))

theorem toNat_saturatingSub (a b : UInt32) : (saturatingSub a b).toNat = a.toNat - b.toNat := by
  have h := a.toNat_lt
  simp only [saturatingSub, UInt32.toNat_ofNat']
  omega

theorem toNat_saturatingAdd (a b : UInt32) :
    (saturatingAdd a b).toNat = min (a.toNat + b.toNat) (2 ^ 32 - 1) := by
  simp only [saturatingAdd, UInt32.toNat_ofNat']
  omega

/-! ## The comparing fold -/

/-- The or of the byte-wise xors. -/
def orXor (xs ys : List UInt8) : UInt8 :=
  (xs.zip ys).foldl (fun acc p => acc ||| (p.1 ^^^ p.2)) 0

theorem or_eq_zero_iff {a b : UInt8} : a ||| b = 0 ↔ a = 0 ∧ b = 0 := by
  simp only [← UInt8.toNat_inj, UInt8.toNat_or, UInt8.toNat_zero, Nat.or_eq_zero_iff]

theorem foldl_orXor_eq_zero_iff : ∀ (xs ys : List UInt8) (acc : UInt8), xs.length = ys.length →
    ((xs.zip ys).foldl (fun acc p => acc ||| (p.1 ^^^ p.2)) acc = 0 ↔ acc = 0 ∧ xs = ys)
  | [], [], acc, _ => by simp
  | [], _ :: _, _, h => by simp at h
  | _ :: _, [], _, h => by simp at h
  | x :: xs, y :: ys, acc, h => by
    rw [List.zip_cons_cons, List.foldl_cons,
      foldl_orXor_eq_zero_iff xs ys _ (by simpa using h), or_eq_zero_iff, UInt8.xor_eq_zero_iff]
    simp only [List.cons.injEq]
    tauto

/-- **The fold is zero only on equal strings.** -/
theorem orXor_eq_zero_iff {xs ys : List UInt8} (h : xs.length = ys.length) :
    orXor xs ys = 0 ↔ xs = ys := by
  unfold orXor
  rw [foldl_orXor_eq_zero_iff xs ys 0 h]
  simp

end QuietQuic.Lib
