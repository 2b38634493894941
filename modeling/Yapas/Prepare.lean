import Yapas.Mbuf
import Yapas.Word

/-!
# The header walk

`preparePacket` is `packet_modifier::PreparePacket`: it skips the VLAN
tags, reads the ethertype and the fixed part of the IP header, and
records the lengths of the three headers in the mbuf. It never looks at
the frame's length.

`layout` says where the headers of a frame are without the walk's
bit-fields and without leaving the frame: the number of tags, the IP
header length and the transport header length, in unbounded
arithmetic. The walk is compared with it: as long as the frame holds
the fields the walk needs, both read the same IP header
(`preparePacket_result`), and the recorded lengths are the true ones up
to 28 tags, after which the seven bits of `l2_len` wrap.
-/

namespace Yapas

def etherAddrLen : Nat := 6

def etherTypeVlan : Nat := 0x8100

def etherTypeVlan8021ad : Nat := 0x88a8

def etherTypeIPv4 : Nat := 0x0800

def etherTypeIPv6 : Nat := 0x86dd

def ipprotoTcp : UInt8 := 6

def ipprotoUdp : UInt8 := 17

def isVlanType (t : Nat) : Bool :=
  t == etherTypeVlan || t == etherTypeVlan8021ad

/-- The VLAN loop. `fuel` bounds the iterations; each of them moves on
by four bytes, so a fuel above the buffer's length is never used up. -/
def skipVlan : Nat → Nat → BitVec 7 → Reader (Nat × BitVec 7)
  | 0, _, _ => Reader.fail
  | fuel + 1, ethType, l2Len => do
      let t ← Reader.be16 ethType
      if isVlanType t then skipVlan fuel (ethType + 4) (l2Len + 4)
      else pure (ethType, l2Len)

/-- The second `switch`: the transport header. -/
def prepareL4 (m : Mbuf) (ipProto : UInt8) : Reader (Bool × Mbuf) :=
  if ipProto = ipprotoTcp then do
    let dataOff ← Reader.byte (m.l2Len.toNat + m.l3Len.toNat + 12)
    pure (true, { m with l4Len := BitVec.ofNat 8 (4 * ((dataOff &&& 0xF0) >>> 4).toNat) })
  else if ipProto = ipprotoUdp then
    pure (true, { m with l4Len := 8 })
  else
    pure (false, m)

/-- `PreparePacket`, reading from the data pointer on. -/
def preparePacket (m : Mbuf) : Reader (Bool × Mbuf) := do
  let (ethType, l2Len) ← skipVlan (m.room.length + 1) (2 * etherAddrLen) 12
  let m := { m with l2Len := l2Len + 2 }
  let t ← Reader.be16 ethType
  if t = etherTypeIPv4 then
    let versionIhl ← Reader.byte (ethType + 2)
    let ipProto ← Reader.byte (ethType + 2 + 9)
    prepareL4 { m with l3Len := BitVec.ofNat 9 (4 * (versionIhl &&& 0x0F).toNat) } ipProto
  else if t = etherTypeIPv6 then
    let ipProto ← Reader.byte (ethType + 2 + 6)
    prepareL4 { m with l3Len := 40 } ipProto
  else
    pure (false, m)

/-- The walk over the mbuf's own buffer; `none` when it leaves it. -/
def Mbuf.prepare (m : Mbuf) : Option (Bool × Mbuf) :=
  (preparePacket m).result m.room

/-! ## The layout of a frame -/

structure Headers where
  tags : Nat
  l3 : Nat
  l4 : Nat
  deriving DecidableEq

def Headers.l2 (h : Headers) : Nat := 14 + 4 * h.tags

def Headers.total (h : Headers) : Nat := h.l2 + h.l3 + h.l4

/-- The number of complete VLAN tags at the front. -/
def vlanTags : List UInt8 → Nat
  | a :: b :: _ :: _ :: rest =>
      if isVlanType (256 * a.toNat + b.toNat) then vlanTags rest + 1 else 0
  | _ => 0

/-- Tags, IP header length and IP protocol; the outer `none` is a frame
too short to hold these fields, the inner one another ethertype. -/
def ipHeader (f : List UInt8) : Option (Option (Nat × Nat × UInt8)) :=
  let tags := vlanTags (f.drop 12)
  (Reader.be16At f (12 + 4 * tags)).bind fun t =>
    if isVlanType t then none
    else if t = etherTypeIPv4 then
      f[14 + 4 * tags]?.bind fun versionIhl =>
        f[23 + 4 * tags]?.map fun proto => some (tags, 4 * (versionIhl.toNat % 16), proto)
    else if t = etherTypeIPv6 then
      f[20 + 4 * tags]?.map fun proto => some (tags, 40, proto)
    else some none

/-- The headers of a frame; the inner `none` is a frame that is not TCP
or UDP over IP. -/
def layout (f : List UInt8) : Option (Option Headers) :=
  (ipHeader f).bind fun
    | none => some none
    | some (tags, l3, proto) =>
        if proto = ipprotoTcp then
          f[14 + 4 * tags + l3 + 12]?.map fun d => some ⟨tags, l3, 4 * (d.toNat / 16)⟩
        else if proto = ipprotoUdp then some (some ⟨tags, l3, 8⟩)
        else some none

/-- The frame holds every header it announces, and its tags are few
enough for `l2_len`. -/
def headersFit (f : List UInt8) : Bool :=
  match layout f with
  | none => false
  | some none => true
  | some (some h) => h.tags ≤ 28 && h.total ≤ f.length

/-! ## The walk reads what the layout reads -/

theorem ihl_toNat (b : UInt8) : (b &&& 0x0F).toNat = b.toNat % 16 := by
  exact Word.toNat_and_mask (k := 4) rfl

theorem dataOff_toNat (b : UInt8) : ((b &&& 0xF0) >>> 4).toNat = b.toNat / 16 := by
  have hlt : b.toNat < 256 := b.toNat_lt
  have hmod : b.toNat / 16 % 16 = b.toNat / 16 := Nat.mod_eq_of_lt (by omega)
  rw [UInt8.toNat_shiftRight, UInt8.toNat_and]
  show (b.toNat &&& 240) >>> 4 = _
  rw [Nat.shiftRight_and_distrib, Nat.shiftRight_eq_div_pow]
  show b.toNat / 16 &&& (2 ^ 4 - 1) = _
  rw [Nat.and_two_pow_sub_one_eq_mod]
  exact hmod

theorem skipVlan_result (f : List UInt8) :
    ∀ (fuel off : Nat) (l2Len : BitVec 7), f.length < off + 4 * fuel →
      (skipVlan fuel off l2Len).result f =
        (Reader.be16At f (off + 4 * vlanTags (f.drop off))).bind fun t =>
          if isVlanType t then none
          else some (off + 4 * vlanTags (f.drop off),
            l2Len + BitVec.ofNat 7 (4 * vlanTags (f.drop off)))
  | 0, off, _, h => by
      rw [List.drop_eq_nil_of_le (by omega), Reader.be16At_eq_none (by omega)]
      rfl
  | fuel + 1, off, l2Len, h => by
      rw [skipVlan, Reader.result_bind, Reader.result_be16]
      match hd : f.drop off with
      | a :: b :: c :: d :: rest =>
          have hlen := congrArg List.length hd
          simp only [List.length_drop, List.length_cons] at hlen
          have ha : f[off]? = some a := by
            have := congrArg (·[0]?) hd
            simpa using this
          have hb : f[off + 1]? = some b := by
            have := congrArg (·[1]?) hd
            simpa using this
          have hbe : Reader.be16At f off = some (256 * a.toNat + b.toNat) := by
            rw [Reader.be16At, ha, hb]
            rfl
          have hrest : f.drop (off + 4) = rest := by
            have := congrArg (·.drop 4) hd
            simpa using this
          by_cases hv : isVlanType (256 * a.toNat + b.toNat)
          · have ih := skipVlan_result f fuel (off + 4) (l2Len + 4) (by omega)
            rw [hrest] at ih
            have hoff : off + 4 * (vlanTags rest + 1) = off + 4 + 4 * vlanTags rest := by omega
            have hl2 : l2Len + BitVec.ofNat 7 (4 * (vlanTags rest + 1))
                = l2Len + 4 + BitVec.ofNat 7 (4 * vlanTags rest) := by
              rw [Nat.mul_add, Nat.mul_one, BitVec.ofNat_add, BitVec.add_assoc,
                BitVec.add_comm (BitVec.ofNat 7 _)]
              rfl
            simp only [hbe, Option.bind_some, vlanTags, hv, if_true, ih, hoff, hl2]
          · simp [hbe, vlanTags, hv]
      | [] | [_] | [_, _] | [_, _, _] =>
          have hlen := congrArg List.length hd
          simp only [List.length_drop, List.length_cons, List.length_nil] at hlen
          cases hbe : Reader.be16At f off with
          | none => simp [vlanTags, hbe]
          | some t =>
              by_cases hv : isVlanType t
              · have ih := skipVlan_result f fuel (off + 4) (l2Len + 4) (by omega)
                rw [List.drop_eq_nil_of_le (by omega),
                  Reader.be16At_eq_none (by omega)] at ih
                simpa [vlanTags, hbe, hv] using ih
              · simp [vlanTags, hbe, hv]

/-- With fuel to spare the loop ends by leaving the buffer or by finding
the ethertype, never by running out of fuel. -/
theorem skipVlan_strict (f : List UInt8) :
    ∀ (fuel off : Nat) (l2Len : BitVec 7), f.length < off + 4 * fuel →
      (skipVlan (fuel + 1) off l2Len).Strict f
  | fuel, off, l2Len, h => by
      rw [skipVlan]
      refine (Reader.strict_be16 off f).bind fun t ht => ?_
      have hoff : off + 1 < f.length := by
        by_contra hge
        rw [Reader.result_be16, Reader.be16At_eq_none (by omega)] at ht
        cases ht
      split
      · cases fuel with
        | zero => omega
        | succ fuel => exact skipVlan_strict f fuel (off + 4) (l2Len + 4) (by omega)
      · exact Reader.strict_pure _ f

theorem prepareL4_strict (m : Mbuf) (ipProto : UInt8) (f : List UInt8) :
    (prepareL4 m ipProto).Strict f := by
  unfold prepareL4
  split
  · exact (Reader.strict_byte _ f).bind fun _ _ => Reader.strict_pure _ f
  · split <;> exact Reader.strict_pure _ f

theorem preparePacket_strict (m : Mbuf) {f : List UInt8}
    (hf : f.length ≤ m.room.length) : (preparePacket m).Strict f := by
  unfold preparePacket
  refine (skipVlan_strict f _ _ _ (by simp only [etherAddrLen]; omega)).bind fun _ _ => ?_
  refine (Reader.strict_be16 _ f).bind fun _ _ => ?_
  split
  · refine (Reader.strict_byte _ f).bind fun _ _ => ?_
    exact (Reader.strict_byte _ f).bind fun _ _ => prepareL4_strict _ _ f
  · split
    · exact (Reader.strict_byte _ f).bind fun _ _ => prepareL4_strict _ _ f
    · exact Reader.strict_pure _ f

/-- The mbuf as the walk has filled it in when it reaches the transport
header. -/
def Mbuf.withL3 (m : Mbuf) (tags l3 : Nat) : Mbuf :=
  { m with l2Len := BitVec.ofNat 7 (14 + 4 * tags), l3Len := BitVec.ofNat 9 l3 }

/-- The walk over a frame: it finds the IP header `ipHeader` finds, and
goes on to the transport header from there. -/
theorem preparePacket_result (m : Mbuf) {f : List UInt8}
    (hf : f.length ≤ m.room.length) :
    (preparePacket m).result f =
      (ipHeader f).bind fun
        | none => some (false,
            { m with l2Len := BitVec.ofNat 7 (14 + 4 * vlanTags (f.drop 12)) })
        | some (tags, l3, proto) => (prepareL4 (m.withL3 tags l3) proto).result f := by
  have hl2 : (12 : BitVec 7) + BitVec.ofNat 7 (4 * vlanTags (f.drop 12)) + 2
      = BitVec.ofNat 7 (14 + 4 * vlanTags (f.drop 12)) := by
    rw [BitVec.add_comm 12, BitVec.add_assoc, BitVec.add_comm, BitVec.ofNat_add]
    rfl
  rw [preparePacket, Reader.result_bind, skipVlan_result f _ _ _ (by omega), ipHeader]
  simp only [etherAddrLen, Nat.reduceMul]
  cases hbe : Reader.be16At f (12 + 4 * vlanTags (f.drop 12)) with
  | none => rfl
  | some t =>
      simp only [Option.bind_some]
      cases hv : isVlanType t with
      | true => rfl
      | false =>
          simp only [Bool.false_eq_true, if_false, Option.bind_some, Reader.result_bind,
            Reader.result_be16, hbe, hl2]
          generalize vlanTags (f.drop 12) = k
          have h14 : 12 + 4 * k + 2 = 14 + 4 * k := by omega
          have h23 : 14 + 4 * k + 9 = 23 + 4 * k := by omega
          have h20 : 14 + 4 * k + 6 = 20 + 4 * k := by omega
          simp only [h14, h23, h20]
          by_cases h4 : t = etherTypeIPv4
          · simp only [h4, if_true, Reader.result_bind, Reader.result_byte, ihl_toNat]
            cases f[14 + 4 * k]? with
            | none => rfl
            | some versionIhl =>
                cases f[23 + 4 * k]? with
                | none => rfl
                | some proto => rfl
          · simp only [h4, if_false]
            by_cases h6 : t = etherTypeIPv6
            · simp only [h6, if_true, Reader.result_bind, Reader.result_byte]
              cases f[20 + 4 * k]? with
              | none => rfl
              | some proto => rfl
            · simp only [h6, if_false]
              rfl

/-! ## Recorded lengths and true lengths -/

theorem ipHeader_l3_le {f : List UInt8} {tags l3 : Nat} {proto : UInt8}
    (h : ipHeader f = some (some (tags, l3, proto))) : l3 ≤ 60 := by
  simp only [ipHeader, Option.bind_eq_some_iff] at h
  obtain ⟨t, -, h⟩ := h
  split at h
  · cases h
  · split at h
    · simp only [Option.bind_eq_some_iff, Option.map_eq_some_iff, Option.some.injEq,
        Prod.mk.injEq] at h
      obtain ⟨v, -, p, -, -, rfl, -⟩ := h
      omega
    · split at h
      · simp only [Option.map_eq_some_iff, Option.some.injEq, Prod.mk.injEq] at h
        obtain ⟨p, -, -, rfl, -⟩ := h
        omega
      · cases h

theorem withL3_l2Len (m : Mbuf) {tags : Nat} (l3 : Nat) (h : tags ≤ 28) :
    (m.withL3 tags l3).l2Len.toNat = 14 + 4 * tags := by
  simp only [Mbuf.withL3, BitVec.toNat_ofNat]
  omega

theorem withL3_l3Len (m : Mbuf) (tags : Nat) {l3 : Nat} (h : l3 ≤ 60) :
    (m.withL3 tags l3).l3Len.toNat = l3 := by
  simp only [Mbuf.withL3, BitVec.toNat_ofNat]
  omega

/-- From the 29th tag on `l2_len` is short by a multiple of 128. -/
theorem withL3_l2Len_of_lt (m : Mbuf) {tags : Nat} (l3 : Nat) (h : 28 < tags) :
    (m.withL3 tags l3).l2Len.toNat + 128 ≤ 14 + 4 * tags := by
  simp only [Mbuf.withL3, BitVec.toNat_ofNat]
  omega

/-- The mbuf as the walk leaves it on a frame with headers `h`. -/
def Mbuf.withHeaders (m : Mbuf) (h : Headers) : Mbuf :=
  { m.withL3 h.tags h.l3 with l4Len := BitVec.ofNat 8 h.l4 }

/-- A frame's headers are its IP header and a transport header, read at
the true offset. -/
theorem layout_eq_some {f : List UInt8} {h : Headers} :
    layout f = some (some h) ↔ ∃ proto, ipHeader f = some (some (h.tags, h.l3, proto))
      ∧ ((proto = ipprotoTcp ∧ ∃ d, f[h.l2 + h.l3 + 12]? = some d ∧ h.l4 = 4 * (d.toNat / 16))
        ∨ (proto = ipprotoUdp ∧ h.l4 = 8)) := by
  obtain ⟨tags, l3, l4⟩ := h
  simp only [layout, Option.bind_eq_some_iff, Headers.l2]
  constructor
  · rintro ⟨_ | ⟨k, l, proto⟩, hip, h⟩
    · cases h
    · refine ⟨proto, ?_⟩
      simp only at h
      by_cases ht : proto = ipprotoTcp
      · rw [if_pos ht] at h
        simp only [Option.map_eq_some_iff, Option.some.injEq, Headers.mk.injEq] at h
        obtain ⟨d, hd, rfl, rfl, rfl⟩ := h
        exact ⟨hip, Or.inl ⟨ht, d, hd, rfl⟩⟩
      · rw [if_neg ht] at h
        by_cases hu : proto = ipprotoUdp
        · rw [if_pos hu] at h
          simp only [Option.some.injEq, Headers.mk.injEq] at h
          obtain ⟨rfl, rfl, rfl⟩ := h
          exact ⟨hip, Or.inr ⟨hu, rfl⟩⟩
        · rw [if_neg hu] at h
          cases h
  · rintro ⟨proto, hip, ⟨rfl, d, hd, hl4⟩ | ⟨rfl, hl4⟩⟩
    · refine ⟨_, hip, ?_⟩
      subst hl4
      simp only [if_true, hd]
      rfl
    · refine ⟨_, hip, ?_⟩
      subst hl4
      rfl

theorem dataOff_lt (d : UInt8) : 4 * (d.toNat / 16) ≤ 60 := by
  have := d.toNat_lt
  omega

theorem layout_l4_le {f : List UInt8} {h : Headers} (hl : layout f = some (some h)) :
    h.l4 ≤ 60 := by
  obtain ⟨proto, -, ⟨-, d, -, hd⟩ | ⟨-, hu⟩⟩ := layout_eq_some.mp hl
  · exact hd ▸ dataOff_lt d
  · omega

/-- Up to 28 tags the walk over a frame with headers `h` records exactly
these. -/
theorem preparePacket_of_layout (m : Mbuf) {f : List UInt8} {h : Headers}
    (hf : f.length ≤ m.room.length) (hl : layout f = some (some h))
    (htags : h.tags ≤ 28) :
    (preparePacket m).result f = some (true, m.withHeaders h) := by
  obtain ⟨proto, hip, hproto⟩ := layout_eq_some.mp hl
  rw [preparePacket_result m hf, hip]
  simp only [Option.bind_some, prepareL4, withL3_l2Len m h.l3 htags,
    withL3_l3Len m h.tags (ipHeader_l3_le hip)]
  rcases hproto with ⟨rfl, d, hd, hl4⟩ | ⟨rfl, hl4⟩
  · rw [if_pos rfl, Reader.result_bind, Reader.result_byte,
      show 14 + 4 * h.tags + h.l3 + 12 = h.l2 + h.l3 + 12 from rfl, hd,
      Option.bind_some, Reader.result_pure, dataOff_toNat, ← hl4]
    rfl
  · rw [if_neg (by decide), if_pos rfl, Reader.result_pure]
    simp only [Mbuf.withHeaders, hl4]
    rfl

theorem headersLen_withHeaders (m : Mbuf) {f : List UInt8} {h : Headers}
    (hl : layout f = some (some h)) (htags : h.tags ≤ 28) :
    (m.withHeaders h).headersLen = h.total := by
  obtain ⟨proto, hip, -⟩ := layout_eq_some.mp hl
  have hl4 : (BitVec.ofNat 8 h.l4).toNat = h.l4 := by
    have := layout_l4_le hl
    simp only [BitVec.toNat_ofNat]
    omega
  rw [Mbuf.headersLen_eq]
  show (m.withL3 h.tags h.l3).l2Len.toNat + (m.withL3 h.tags h.l3).l3Len.toNat
    + (BitVec.ofNat 8 h.l4).toNat = h.total
  rw [withL3_l2Len m h.l3 htags, withL3_l3Len m h.tags (ipHeader_l3_le hip), hl4]
  rfl

/-! ## The walk stays inside the frame -/

/-- The header walk is safe on `m`: it ends, it inspects no byte behind
the frame, and where it accepts the frame the recorded lengths fit it
and leave exactly the bytes behind the true headers. -/
def HeaderWalkSafe (m : Mbuf) : Prop :=
  m.prepare.isSome
    ∧ (preparePacket m).Within m.pktLen m.room
    ∧ ∀ m', m.prepare = some (true, m') →
        m'.l2Len.toNat + m'.l3Len.toNat + m'.l4Len.toNat ≤ m.pktLen
          ∧ ∃ h, layout m.data = some (some h) ∧ m'.payloadLen + h.total = m.pktLen

theorem data_take (m : Mbuf) : m.data.take m.pktLen = m.room.take m.pktLen := by
  rw [Mbuf.data, List.take_take, Nat.min_self]

theorem data_length_le (m : Mbuf) : m.data.length ≤ m.room.length := by
  rw [m.length_data]
  exact m.pktLen_le

/-- The walk stays inside the frame exactly when it succeeds on the
frame alone, with nothing behind it. -/
theorem prepare_within_iff (m : Mbuf) :
    (preparePacket m).Within m.pktLen m.room
      ↔ ((preparePacket m).result m.data).isSome := by
  have hstrict := preparePacket_strict m (data_length_le m)
  rw [Reader.Strict, m.length_data] at hstrict
  rw [hstrict]
  exact ⟨fun hw => Reader.within_of_take_eq hw (data_take m).symm,
    fun hw => Reader.within_of_take_eq hw (data_take m)⟩

theorem prepare_eq_of_within {m : Mbuf}
    (hw : (preparePacket m).Within m.pktLen m.room) :
    m.prepare = (preparePacket m).result m.data :=
  (Reader.result_of_take_eq hw (data_take m).symm).symm

/-- The walk writes the three lengths and nothing else. -/
theorem prepareL4_keeps {m m' : Mbuf} {ipProto : UInt8} {f : List UInt8} {b : Bool}
    (h : (prepareL4 m ipProto).result f = some (b, m')) :
    m'.headroom = m.headroom ∧ m'.room = m.room ∧ m'.pktLen = m.pktLen := by
  unfold prepareL4 at h
  split at h
  · simp only [Reader.result_bind, Option.bind_eq_some_iff, Reader.result_pure,
      Option.some.injEq, Prod.mk.injEq] at h
    obtain ⟨d, -, -, rfl⟩ := h
    exact ⟨rfl, rfl, rfl⟩
  · split at h
    all_goals
      simp only [Reader.result_pure, Option.some.injEq, Prod.mk.injEq] at h
      obtain ⟨-, rfl⟩ := h
      exact ⟨rfl, rfl, rfl⟩

theorem preparePacket_keeps {m m' : Mbuf} {f : List UInt8} {b : Bool}
    (h : (preparePacket m).result f = some (b, m')) :
    m'.headroom = m.headroom ∧ m'.room = m.room ∧ m'.pktLen = m.pktLen := by
  simp only [preparePacket, Reader.result_bind, Option.bind_eq_some_iff] at h
  obtain ⟨⟨ethType, l2Len⟩, -, t, -, h⟩ := h
  simp only at h
  split at h
  · simp only [Reader.result_bind, Option.bind_eq_some_iff] at h
    obtain ⟨_, -, _, -, h⟩ := h
    have hkeeps := prepareL4_keeps h
    exact hkeeps
  · split at h
    · simp only [Reader.result_bind, Option.bind_eq_some_iff] at h
      obtain ⟨_, -, h⟩ := h
      have hkeeps := prepareL4_keeps h
      exact hkeeps
    · simp only [Reader.result_pure, Option.some.injEq, Prod.mk.injEq] at h
      obtain ⟨-, rfl⟩ := h
      exact ⟨rfl, rfl, rfl⟩

theorem prepareL4_true {m m' : Mbuf} {ipProto : UInt8} {f : List UInt8}
    (h : (prepareL4 m ipProto).result f = some (true, m')) :
    m'.l2Len = m.l2Len ∧ m'.l3Len = m.l3Len ∧ m'.l4Len.toNat ≤ 60 := by
  unfold prepareL4 at h
  split at h
  · simp only [Reader.result_bind, Reader.result_byte, Option.bind_eq_some_iff,
      Reader.result_pure, Option.some.injEq, Prod.mk.injEq, true_and] at h
    obtain ⟨d, -, rfl⟩ := h
    refine ⟨rfl, rfl, ?_⟩
    have := dataOff_lt d
    simp only [dataOff_toNat, BitVec.toNat_ofNat]
    omega
  · split at h
    · simp only [Reader.result_pure, Option.some.injEq, Prod.mk.injEq, true_and] at h
      subst h
      exact ⟨rfl, rfl, Nat.le_of_ble_eq_true rfl⟩
    · simp at h

/-- With more than 28 tags an accepted frame's recorded lengths never
add up to the true ones: `l2_len` lost at least 128. -/
theorem tags_le_of_headersLen {m m' : Mbuf} {f : List UInt8} {h : Headers}
    (hf : f.length ≤ m.room.length) (hl : layout f = some (some h))
    (hr : (preparePacket m).result f = some (true, m'))
    (hlen : m'.headersLen = h.total) : h.tags ≤ 28 := by
  obtain ⟨proto, hip, -⟩ := layout_eq_some.mp hl
  rw [preparePacket_result m hf, hip, Option.bind_some] at hr
  obtain ⟨hl2, hl3, hl4⟩ := prepareL4_true hr
  by_contra htags
  have hwrap := withL3_l2Len_of_lt m h.l3 (Nat.lt_of_not_le htags)
  rw [Mbuf.headersLen_eq, hl2, hl3, withL3_l3Len m h.tags (ipHeader_l3_le hip)] at hlen
  simp only [Headers.total, Headers.l2] at hlen
  omega

/-- The walk rejects a frame exactly when its IP header, read in full,
announces neither TCP nor UDP. -/
theorem preparePacket_rejects_iff (m : Mbuf) {f : List UInt8}
    (hf : f.length ≤ m.room.length) :
    (∃ m', (preparePacket m).result f = some (false, m')) ↔ layout f = some none := by
  rw [preparePacket_result m hf, layout]
  match ipHeader f with
  | none => simp
  | some none => simp
  | some (some (tags, l3, proto)) =>
      simp only [Option.bind_some, prepareL4]
      by_cases ht : proto = ipprotoTcp
      · simp only [ht, if_true, Reader.result_bind, Reader.result_byte, Reader.result_pure]
        cases f[(m.withL3 tags l3).l2Len.toNat + (m.withL3 tags l3).l3Len.toNat + 12]? <;>
          cases f[14 + 4 * tags + l3 + 12]? <;> simp
      · by_cases hu : proto = ipprotoUdp
        · simp [hu, show ipprotoUdp ≠ ipprotoTcp by decide]
        · simp [ht, hu]

/-- A frame the walk rejects, or whose headers all fit, is walked
safely. -/
theorem headerWalkSafe_of_headersFit {m : Mbuf} (h : headersFit m.data = true) :
    HeaderWalkSafe m := by
  have hlen := data_length_le m
  have key : ∀ r, (preparePacket m).result m.data = some r →
      (preparePacket m).Within m.pktLen m.room ∧ m.prepare = some r := by
    intro r hr
    have hw := (prepare_within_iff m).mpr (by rw [hr]; rfl)
    exact ⟨hw, (prepare_eq_of_within hw).trans hr⟩
  unfold headersFit at h
  split at h
  · cases h
  · rename_i hl
    obtain ⟨m0, hr⟩ := (preparePacket_rejects_iff m hlen).mpr hl
    obtain ⟨hw, hp⟩ := key _ hr
    refine ⟨by rw [hp]; rfl, hw, fun m' hm' => ?_⟩
    rw [hp] at hm'
    cases hm'
  · rename_i hd hl
    simp only [Bool.and_eq_true, decide_eq_true_eq] at h
    obtain ⟨htags, htotal⟩ := h
    rw [m.length_data] at htotal
    obtain ⟨hw, hp⟩ := key _ (preparePacket_of_layout m hlen hl htags)
    refine ⟨by rw [hp]; rfl, hw, fun m' hm' => ?_⟩
    rw [hp] at hm'
    obtain rfl := (Prod.mk.inj (Option.some.inj hm')).2
    have hh := headersLen_withHeaders m hl htags
    refine ⟨?_, hd, hl, ?_⟩
    · rw [← Mbuf.headersLen_eq, hh]
      exact htotal
    · rw [Mbuf.payloadLen_eq (by rw [hh]; exact htotal), hh]
      exact Nat.sub_add_cancel htotal

/-- The header walk is safe on exactly the frames that hold all their
headers, behind at most 28 tags. -/
theorem headerWalkSafe_iff (m : Mbuf) :
    HeaderWalkSafe m ↔ headersFit m.data = true := by
  refine ⟨fun ⟨hsome, hw, hacc⟩ => ?_, headerWalkSafe_of_headersFit⟩
  have hlen := data_length_le m
  have hp := prepare_eq_of_within hw
  obtain ⟨⟨accepted, m'⟩, hr⟩ := Option.isSome_iff_exists.mp hsome
  cases accepted with
  | false =>
      have hl := (preparePacket_rejects_iff m hlen).mp ⟨m', hp.symm.trans hr⟩
      rw [headersFit, hl]
  | true =>
      obtain ⟨hsum, h, hl, hpay⟩ := hacc m' hr
      rw [← Mbuf.headersLen_eq] at hsum
      have hpkt : m'.pktLen = m.pktLen := (preparePacket_keeps hr).2.2
      rw [Mbuf.payloadLen_eq (hpkt ▸ hsum), hpkt] at hpay
      have htags := tags_le_of_headersLen hlen hl (hp.symm.trans hr) (by omega)
      rw [headersFit, hl]
      simp only [Bool.and_eq_true, decide_eq_true_eq, m.length_data]
      exact ⟨htags, by omega⟩

/-- A minimum-size Ethernet frame, UDP over IPv4, whose IP header claims
the largest length. -/
def longIhlFrame : Mbuf where
  headroom := []
  room := List.replicate 12 0 ++ [0x08, 0x00, 0x4f] ++ List.replicate 8 0 ++ [0x11]
    ++ List.replicate 36 0
  pktLen := 60
  l2Len := 0
  l3Len := 0
  l4Len := 0
  pktLen_le := by decide
  size_lt := by decide

/-- On it the walk returns true with 82 bytes of headers recorded for a
frame of 60, and the payload length wraps to 65514. -/
theorem not_headerWalkSafe_longIhlFrame :
    (∃ m', longIhlFrame.prepare = some (true, m') ∧ m'.headersLen = 82
      ∧ m'.payloadLen = 65514) ∧ ¬ HeaderWalkSafe longIhlFrame := by
  refine ⟨⟨_, rfl, by decide, by decide⟩, fun h => ?_⟩
  obtain ⟨hsum, -⟩ := h.2.2 _ rfl
  exact absurd hsum (by decide)

end Yapas
