import Mathlib.Algebra.Group.Nat.Defs
import Yapas.Reader

/-!
# Packet buffers

The part of `rte_mbuf` the packet path uses: one segment, seen from its
data pointer. `headroom` is what lies in front of the data pointer,
`room` what lies between it and the end of the buffer; the frame is the
first `pktLen` bytes of the room, and whatever the sender or an earlier
owner left behind follows it. Both bounds of the layout are fields, so
a frame longer than its buffer cannot be built.

`prepend`, `append` and `overwrite` are `rte_pktmbuf_prepend`,
`rte_pktmbuf_append` and a `memcpy` or `memmove` to an offset from the
data pointer. The three header lengths are bit-fields of 7, 9 and 8
bits, hence bit vectors of these widths.
-/

namespace Yapas

/-- Replace the bytes at `off` by `bs`, keeping the length. -/
def overwriteAt (l : List UInt8) (off : Nat) (bs : List UInt8) : List UInt8 :=
  (l.take off ++ bs ++ l.drop (off + bs.length)).take l.length

@[simp] theorem length_overwriteAt (l : List UInt8) (off : Nat) (bs : List UInt8) :
    (overwriteAt l off bs).length = l.length := by
  simp only [overwriteAt, List.length_take, List.length_append, List.length_drop]
  omega

/-- A write that fits replaces the bytes it covers. -/
theorem overwriteAt_eq {l : List UInt8} {off : Nat} {bs : List UInt8}
    (h : off + bs.length ≤ l.length) :
    overwriteAt l off bs = l.take off ++ bs ++ l.drop (off + bs.length) := by
  refine List.take_of_length_le ?_
  simp only [List.length_append, List.length_take, List.length_drop]
  omega

theorem overwriteAt_append {a b c bs : List UInt8} (h : bs.length = b.length) :
    overwriteAt (a ++ b ++ c) a.length bs = a ++ bs ++ c := by
  rw [overwriteAt_eq (by simp only [List.length_append]; omega), List.append_assoc a b c,
    List.take_left, ← List.drop_drop, List.drop_left, List.drop_left' h.symm]

structure Mbuf where
  headroom : List UInt8
  room : List UInt8
  pktLen : Nat
  l2Len : BitVec 7
  l3Len : BitVec 9
  l4Len : BitVec 8
  pktLen_le : pktLen ≤ room.length
  size_lt : headroom.length + room.length < 2 ^ 16
  deriving DecidableEq

namespace Mbuf

/-- The frame. -/
def data (m : Mbuf) : List UInt8 := m.room.take m.pktLen

/-- The part of the buffer behind the frame. -/
def tailroom (m : Mbuf) : List UInt8 := m.room.drop m.pktLen

theorem room_eq (m : Mbuf) : m.room = m.data ++ m.tailroom :=
  (List.take_append_drop _ _).symm

@[simp] theorem length_data (m : Mbuf) : m.data.length = m.pktLen := by
  simp [data, m.pktLen_le]

theorem pktLen_lt (m : Mbuf) : m.pktLen < 2 ^ 16 := by
  have := m.pktLen_le
  have := m.size_lt
  omega

/-- `rte_pktmbuf_prepend`: `none` when the headroom is too short. -/
def prepend (m : Mbuf) (n : Nat) : Option Mbuf :=
  if h : n ≤ m.headroom.length then
    some { m with
      headroom := m.headroom.take (m.headroom.length - n)
      room := m.headroom.drop (m.headroom.length - n) ++ m.room
      pktLen := n + m.pktLen
      pktLen_le := by
        have := m.pktLen_le
        simp only [List.length_append, List.length_drop]
        omega
      size_lt := by
        have := m.size_lt
        simp only [List.length_append, List.length_drop, List.length_take]
        omega }
  else none

/-- `rte_pktmbuf_append`: `none` when the tailroom is too short. -/
def append (m : Mbuf) (n : Nat) : Option Mbuf :=
  if h : m.pktLen + n ≤ m.room.length then
    some { m with pktLen := m.pktLen + n, pktLen_le := h }
  else none

/-- A copy of `bs` to offset `off` from the data pointer. -/
def overwrite (m : Mbuf) (off : Nat) (bs : List UInt8) : Mbuf :=
  { m with
    room := overwriteAt m.room off bs
    pktLen_le := by rw [length_overwriteAt]; exact m.pktLen_le
    size_lt := by rw [length_overwriteAt]; exact m.size_lt }

@[simp] theorem overwrite_headroom (m : Mbuf) (off : Nat) (bs : List UInt8) :
    (m.overwrite off bs).headroom = m.headroom := rfl

@[simp] theorem overwrite_room (m : Mbuf) (off : Nat) (bs : List UInt8) :
    (m.overwrite off bs).room = overwriteAt m.room off bs := rfl

@[simp] theorem overwrite_pktLen (m : Mbuf) (off : Nat) (bs : List UInt8) :
    (m.overwrite off bs).pktLen = m.pktLen := rfl

@[simp] theorem overwrite_l2Len (m : Mbuf) (off : Nat) (bs : List UInt8) :
    (m.overwrite off bs).l2Len = m.l2Len := rfl

/-- What a successful `prepend` leaves behind. -/
theorem prepend_spec {m m' : Mbuf} {n : Nat} (h : m.prepend n = some m') :
    n ≤ m.headroom.length
      ∧ m'.headroom = m.headroom.take (m.headroom.length - n)
      ∧ m'.room = m.headroom.drop (m.headroom.length - n) ++ m.room
      ∧ m'.pktLen = n + m.pktLen ∧ m'.l2Len = m.l2Len := by
  unfold prepend at h
  split at h
  · rename_i hn
    obtain rfl := Option.some.inj h
    exact ⟨hn, rfl, rfl, rfl, rfl⟩
  · cases h

theorem prepend_isSome {m : Mbuf} {n : Nat} (h : n ≤ m.headroom.length) :
    ∃ m', m.prepend n = some m' := by
  unfold prepend
  rw [dif_pos h]
  exact ⟨_, rfl⟩

theorem append_spec {m m' : Mbuf} {n : Nat} (h : m.append n = some m') :
    m.pktLen + n ≤ m.room.length ∧ m'.room = m.room ∧ m'.pktLen = m.pktLen + n := by
  unfold append at h
  split at h
  · rename_i hn
    obtain rfl := Option.some.inj h
    exact ⟨hn, rfl, rfl⟩
  · cases h

theorem append_eq_none {m : Mbuf} {n : Nat} (h : m.append n = none) :
    m.room.length < m.pktLen + n := by
  unfold append at h
  split at h
  · cases h
  · omega

/-- The three header lengths added up, as the `uint16_t` the detectors
keep it in. -/
def headersLen (m : Mbuf) : Nat :=
  (m.l2Len.toNat + m.l3Len.toNat + m.l4Len.toNat) % 2 ^ 16

/-- `pkt_len - headers_len`, truncated to `uint16_t`. -/
def payloadLen (m : Mbuf) : Nat :=
  (m.pktLen + 2 ^ 16 - m.headersLen) % 2 ^ 16

theorem headersLen_eq (m : Mbuf) :
    m.headersLen = m.l2Len.toNat + m.l3Len.toNat + m.l4Len.toNat := by
  have := m.l2Len.isLt
  have := m.l3Len.isLt
  have := m.l4Len.isLt
  exact Nat.mod_eq_of_lt (by omega)

/-- The subtraction is exact when the headers fit the frame. -/
theorem payloadLen_eq {m : Mbuf} (h : m.headersLen ≤ m.pktLen) :
    m.payloadLen = m.pktLen - m.headersLen := by
  have := m.pktLen_lt
  unfold payloadLen
  omega

end Mbuf

end Yapas
