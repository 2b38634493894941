import Mathlib.Data.Nat.Bitwise

/-!
# Words and their bytes

A 32-bit word as the four bytes a little-endian machine stores, the
byte swap that turns host order into network order, and the packing of
fields into a word by shift and or.

`toNat_or_shiftLeft` reads one packing step as an addition, so a chain
of them becomes a sum; `bytes_bswap` says that storing a swapped word
writes its bytes most significant first.
-/

namespace Yapas

namespace Word

/-- The bytes of a word in memory. -/
def bytes (w : UInt32) : List UInt8 :=
  [UInt8.ofNat w.toNat, UInt8.ofNat (w.toNat / 2 ^ 8), UInt8.ofNat (w.toNat / 2 ^ 16),
    UInt8.ofNat (w.toNat / 2 ^ 24)]

@[simp] theorem length_bytes (w : UInt32) : (bytes w).length = 4 := rfl

/-- `rte_bswap32`. -/
def bswap (w : UInt32) : UInt32 :=
  UInt32.ofNat (w.toNat / 2 ^ 24 + 2 ^ 8 * (w.toNat / 2 ^ 16 % 2 ^ 8)
    + 2 ^ 16 * (w.toNat / 2 ^ 8 % 2 ^ 8) + 2 ^ 24 * (w.toNat % 2 ^ 8))

theorem toNat_bswap (w : UInt32) :
    (bswap w).toNat = w.toNat / 2 ^ 24 + 2 ^ 8 * (w.toNat / 2 ^ 16 % 2 ^ 8)
      + 2 ^ 16 * (w.toNat / 2 ^ 8 % 2 ^ 8) + 2 ^ 24 * (w.toNat % 2 ^ 8) := by
  have hw : w.toNat < 2 ^ 32 := w.toNat_lt
  rw [bswap, UInt32.toNat_ofNat', Nat.mod_eq_of_lt (by omega)]

theorem uint8_ofNat_congr {a b : Nat} (h : a % 2 ^ 8 = b % 2 ^ 8) :
    UInt8.ofNat a = UInt8.ofNat b := by
  rw [← UInt8.toNat_inj, UInt8.toNat_ofNat', UInt8.toNat_ofNat']
  exact h

/-- The bytes of a number are the digits it is written with in base 256. -/
theorem digits_of_eq {n b0 b1 b2 b3 : Nat} (h0 : b0 < 2 ^ 8) (h1 : b1 < 2 ^ 8)
    (h2 : b2 < 2 ^ 8) (h3 : b3 < 2 ^ 8)
    (hn : n = b0 + 2 ^ 8 * b1 + 2 ^ 16 * b2 + 2 ^ 24 * b3) :
    n % 2 ^ 8 = b0 ∧ n / 2 ^ 8 % 2 ^ 8 = b1 ∧ n / 2 ^ 16 % 2 ^ 8 = b2
      ∧ n / 2 ^ 24 % 2 ^ 8 = b3 := by
  refine ⟨?_, ?_, ?_, ?_⟩ <;> omega

/-- A swapped word lies in memory most significant byte first. -/
theorem bytes_bswap (w : UInt32) : bytes (bswap w) = (bytes w).reverse := by
  have hw : w.toNat < 2 ^ 32 := w.toNat_lt
  obtain ⟨h0, h1, h2, h3⟩ := digits_of_eq (by omega) (by omega) (by omega) (by omega)
    (toNat_bswap w)
  simp only [bytes, List.reverse_cons, List.reverse_nil, List.nil_append,
    List.cons_append, List.cons.injEq, and_true]
  refine ⟨?_, ?_, ?_, ?_⟩ <;> apply uint8_ofNat_congr
  · rw [h0]
    omega
  · exact h1
  · exact h2
  · exact h3

/-- A byte under a mask of its `k` lowest bits. -/
theorem toNat_and_mask {b mask : UInt8} {k : Nat} (h : mask.toNat = 2 ^ k - 1) :
    (b &&& mask).toNat = b.toNat % 2 ^ k := by
  rw [UInt8.toNat_and, h, Nat.and_two_pow_sub_one_eq_mod]

/-- A single bit of a byte, tested. -/
theorem and_bit_ne_zero {b mask : UInt8} {k : Nat} (h : mask.toNat = 2 ^ k) :
    b &&& mask ≠ 0 ↔ b.toNat / 2 ^ k % 2 = 1 := by
  rw [Ne, ← UInt8.toNat_inj, UInt8.toNat_and, h, Nat.and_two_pow, UInt8.toNat_zero,
    Nat.testBit_eq_decide_div_mod_eq]
  have hpos := Nat.two_pow_pos k
  by_cases hbit : b.toNat / 2 ^ k % 2 = 1
  · simp [hbit]
  · simp [hbit]

/-- A field shifted over the bits in use adds to them. -/
theorem toNat_or_shiftLeft {a b k : UInt32} (hk : k.toNat < 32)
    (ha : a.toNat < 2 ^ k.toNat) (hb : b.toNat * 2 ^ k.toNat < 2 ^ 32) :
    (a ||| b <<< k).toNat = a.toNat + b.toNat * 2 ^ k.toNat := by
  rw [UInt32.toNat_or, UInt32.toNat_shiftLeft, Nat.mod_eq_of_lt hk, Nat.shiftLeft_eq,
    Nat.mod_eq_of_lt hb, Nat.or_comm, ← Nat.shiftLeft_eq,
    ← Nat.shiftLeft_add_eq_or_of_lt ha, Nat.shiftLeft_eq, Nat.add_comm]

/-- The same for 16-bit words. -/
theorem toNat_or_shiftLeft16 {a b k : UInt16} (hk : k.toNat < 16)
    (ha : a.toNat < 2 ^ k.toNat) (hb : b.toNat * 2 ^ k.toNat < 2 ^ 16) :
    (a ||| b <<< k).toNat = a.toNat + b.toNat * 2 ^ k.toNat := by
  rw [UInt16.toNat_or, UInt16.toNat_shiftLeft, Nat.mod_eq_of_lt hk, Nat.shiftLeft_eq,
    Nat.mod_eq_of_lt hb, Nat.or_comm, ← Nat.shiftLeft_eq,
    ← Nat.shiftLeft_add_eq_or_of_lt ha, Nat.shiftLeft_eq, Nat.add_comm]

end Word

end Yapas
