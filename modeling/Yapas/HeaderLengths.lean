import Yapas.Analyze
import Yapas.Push

/-!
# Header lengths

What the header walk records for a frame that holds its headers, and
what is then found behind them: the payload starts where it really
does, and a label is pushed in front of the IP header.

The frame is set out in parts here (`Carries`), so that the true lengths
are lengths of lists. `layout_bytes` reads them back with `layout`; the
walk records the same numbers up to 28 tags. A frame with one more
needs 130 bytes in front of its IP header, which `l2_len` cannot hold.
-/

namespace Yapas

/-- `ip` is an IP header of the ethertype, with a protocol. -/
def IpHeader (type : Nat) (ip : List UInt8) (proto : UInt8) : Prop :=
  (type = etherTypeIPv4 ∧ ip[9]? = some proto
      ∧ ∃ versionIhl, ip[0]? = some versionIhl ∧ ip.length = 4 * (versionIhl.toNat % 16))
    ∨ (type = etherTypeIPv6 ∧ ip[6]? = some proto ∧ ip.length = 40)

/-- `l4` is a TCP or UDP header. -/
def TransportHeader (proto : UInt8) (l4 : List UInt8) : Prop :=
  (proto = ipprotoTcp
      ∧ ∃ dataOff, l4[12]? = some dataOff ∧ l4.length = 4 * (dataOff.toNat / 16))
    ∨ (proto = ipprotoUdp ∧ l4.length = 8)

namespace TaggedFrame

variable {f : TaggedFrame} {ip l4 payload : List UInt8}

def type (f : TaggedFrame) : Nat := 256 * f.typeHi.toNat + f.typeLo.toNat

/-- Behind the ethertype come an IP header, a transport header and the
payload. -/
def Carries (f : TaggedFrame) (ip l4 payload : List UInt8) : Prop :=
  f.rest = ip ++ (l4 ++ payload)
    ∧ ∃ proto, IpHeader f.type ip proto ∧ TransportHeader proto l4

/-- The IP protocol of the frame. It stands at the same place whatever the
length in an IPv4 header is. -/
def Speaks (f : TaggedFrame) (proto : UInt8) : Prop :=
  (f.type = etherTypeIPv4 ∧ f.rest[9]? = some proto)
    ∨ (f.type = etherTypeIPv6 ∧ f.rest[6]? = some proto)

/-- The ethertype is not IP, or the IP protocol neither TCP nor UDP. -/
def Foreign (f : TaggedFrame) : Prop :=
  (f.type ≠ etherTypeIPv4 ∧ f.type ≠ etherTypeIPv6)
    ∨ ∃ proto, f.Speaks proto ∧ proto ≠ ipprotoTcp ∧ proto ≠ ipprotoUdp

/-! ## The layout of the frame -/

/-- The bytes in front of the ethertype. -/
def front (f : TaggedFrame) : List UInt8 := f.macs ++ f.tags.flatMap Word.bytes

theorem length_front (f : TaggedFrame) : f.front.length = 12 + 4 * f.tags.length := by
  rw [front, List.length_append, f.length_macs, length_flatMap_bytes]

theorem bytes_eq (f : TaggedFrame) : f.bytes = f.front ++ [f.typeHi, f.typeLo] ++ f.rest := by
  simp only [bytes, front, List.append_assoc]

theorem drop_bytes (f : TaggedFrame) : f.bytes.drop (14 + 4 * f.tags.length) = f.rest := by
  rw [bytes_eq]
  refine List.drop_left' ?_
  rw [List.length_append, length_front]
  exact Nat.add_right_comm 12 (4 * f.tags.length) 2

theorem getElem?_bytes (f : TaggedFrame) (i : Nat) :
    f.bytes[14 + 4 * f.tags.length + i]? = f.rest[i]? := by
  rw [← List.getElem?_drop, drop_bytes]

theorem vlanTags_bytes (f : TaggedFrame) : vlanTags (f.bytes.drop 12) = f.tags.length := by
  rw [bytes, List.drop_left' f.length_macs]
  exact vlanTags_flatMap _ _ _ f.startsWithTag f.not_vlanType

theorem be16At_bytes (f : TaggedFrame) :
    Reader.be16At f.bytes (12 + 4 * f.tags.length) = some f.type := by
  have hdrop : f.bytes.drop (12 + 4 * f.tags.length) = f.typeHi :: f.typeLo :: f.rest := by
    rw [bytes_eq, List.append_assoc, List.drop_left' f.length_front]
    rfl
  rw [← Nat.add_zero (12 + 4 * f.tags.length), Reader.be16At_drop, hdrop]
  rfl

/-- The length that an IPv4 header announces, or that of IPv6. -/
def ipLength (f : TaggedFrame) : Nat :=
  if f.type = etherTypeIPv4 then 4 * ((f.rest.headD 0).toNat % 16) else 40

theorem ipHeader_speaks {proto : UInt8} (h : f.Speaks proto) :
    ipHeader f.bytes = some (some (f.tags.length, f.ipLength, proto)) := by
  have hvlan : ¬ isVlanType f.type = true := by rw [type, f.not_vlanType]; exact Bool.false_ne_true
  rw [ipHeader, vlanTags_bytes, be16At_bytes, Option.bind_some, if_neg hvlan, ipLength]
  rcases h with ⟨htype, hproto⟩ | ⟨htype, hproto⟩
  · have hfirst := f.getElem?_bytes 0
    have hproto' := f.getElem?_bytes 9
    rw [Nat.add_zero] at hfirst
    rw [show 14 + 4 * f.tags.length + 9 = 23 + 4 * f.tags.length by omega] at hproto'
    rw [if_pos htype, if_pos htype, hfirst, hproto', hproto]
    cases hrest : f.rest with
    | nil =>
        rw [hrest] at hproto
        cases hproto
    | cons versionIhl rest => rfl
  · have hproto' := f.getElem?_bytes 6
    rw [show 14 + 4 * f.tags.length + 6 = 20 + 4 * f.tags.length by omega] at hproto'
    have hne : ¬ f.type = etherTypeIPv4 := by rw [htype]; decide
    rw [if_neg hne, if_pos htype, if_neg hne, hproto', hproto]
    rfl

theorem speaks_of_ipHeader {behind : List UInt8} {proto : UInt8} (hrest : f.rest = ip ++ behind)
    (hip : IpHeader f.type ip proto) :
    f.Speaks proto ∧ f.ipLength = ip.length := by
  have hbyte : ∀ {i : Nat} {b : UInt8}, ip[i]? = some b → f.rest[i]? = some b := by
    intro i b hb
    rw [hrest, List.getElem?_append_left (List.getElem?_eq_some_iff.mp hb).1, hb]
  rw [ipLength]
  rcases hip with ⟨htype, hproto, versionIhl, hihl, hlen⟩ | ⟨htype, hproto, hlen⟩
  · refine ⟨Or.inl ⟨htype, hbyte hproto⟩, ?_⟩
    have hfirst := hbyte hihl
    rw [← List.head?_eq_getElem?] at hfirst
    rw [if_pos htype, List.headD_eq_head?_getD, hfirst, hlen, Option.getD_some]
  · exact ⟨Or.inr ⟨htype, hbyte hproto⟩, (if_neg (by rw [htype]; decide)).trans hlen.symm⟩

/-- The layout of a frame is the lengths of its parts. -/
theorem layout_bytes (h : f.Carries ip l4 payload) :
    layout f.bytes = some (some ⟨f.tags.length, ip.length, l4.length⟩) := by
  obtain ⟨hrest, proto, hip, hl4⟩ := h
  obtain ⟨hspeaks, hlen⟩ := speaks_of_ipHeader hrest hip
  refine layout_eq_some.mpr ⟨proto, hlen ▸ ipHeader_speaks hspeaks, ?_⟩
  refine hl4.imp (fun ⟨htcp, d, hd, hlen⟩ => ⟨htcp, d, ?_, hlen⟩) id
  have hlt := (List.getElem?_eq_some_iff.mp hd).1
  show f.bytes[14 + 4 * f.tags.length + ip.length + 12]? = some d
  rw [Nat.add_assoc, getElem?_bytes, hrest, List.getElem?_append_right (Nat.le_add_right _ _),
    Nat.add_sub_cancel_left, List.getElem?_append_left hlt, hd]

theorem layout_foreign (h : f.Foreign) : layout f.bytes = some none := by
  rcases h with ⟨h4, h6⟩ | ⟨proto, hspeaks, htcp, hudp⟩
  · have hvlan : ¬ isVlanType f.type = true := by
      rw [type, f.not_vlanType]
      exact Bool.false_ne_true
    rw [layout, ipHeader, vlanTags_bytes, be16At_bytes, Option.bind_some, if_neg hvlan,
      if_neg h4, if_neg h6]
    rfl
  · rw [layout, ipHeader_speaks hspeaks, Option.bind_some]
    simp only [if_neg htcp, if_neg hudp]

theorem pushed_mpls (f : TaggedFrame) (label : UInt32) : f.pushed [.pushMpls label]
    = f.front ++ [0x88, 0x47] ++ (Word.bytes label ++ f.rest) := by
  simp [pushed, pushedBehind, front, vlanWords, mplsWords, Action.vlanWord?, Action.mplsWord?]

end TaggedFrame

/-! ## What the walk records -/

/-- The walk over `m` accepts the frame and records the lengths of its
headers; the payload and the place for a label are then the true ones. -/
def Records (m : Mbuf) (f : TaggedFrame) (ip l4 payload : List UInt8) : Prop :=
  ∃ m', m.prepare = some (true, m')
    ∧ m'.l2Len.toNat = 14 + 4 * f.tags.length ∧ m'.l3Len.toNat = ip.length
    ∧ m'.l4Len.toNat = l4.length ∧ m'.payload = payload
    ∧ ∀ label, 4 ≤ m.headroom.length →
      (executePushMpls m' label).data = f.pushed [.pushMpls label]

/-- The walk records the true lengths where the frame holds its headers,
and rejects it where they are not those of TCP or UDP over IP. -/
structure LengthsRecorded (m : Mbuf) (f : TaggedFrame) : Prop where
  recorded : ∀ ip l4 payload, f.Carries ip l4 payload → Records m f ip l4 payload
  rejected : f.Foreign → ∃ m', m.prepare = some (false, m')

section Walk

variable {m : Mbuf} {f : TaggedFrame} {ip l4 payload : List UInt8}

/-- A label goes in front of the IP header when `l2_len` is right. -/
theorem executePushMpls_data {m' : Mbuf} (hdata : m'.data = f.bytes)
    (hl2 : m'.l2Len.toNat = 14 + 4 * f.tags.length) (hhead : 4 ≤ m'.headroom.length)
    (label : UInt32) : (executePushMpls m' label).data = f.pushed [.pushMpls label] := by
  have hroom : m'.room = f.front ++ [f.typeHi, f.typeLo] ++ (f.rest ++ m'.tailroom) := by
    rw [m'.room_eq, hdata, f.bytes_eq, List.append_assoc _ f.rest]
  obtain ⟨hroom', -, hpkt, -⟩ := executePushMpls_spec label hhead rfl
    (by rw [f.length_front, hl2]; omega) hroom
  have hlen : m'.pktLen = f.bytes.length := by rw [← m'.length_data, hdata]
  rw [Mbuf.data, hroom', hpkt, hlen, f.pushed_mpls, ← List.append_assoc (Word.bytes label),
    ← List.append_assoc]
  refine List.take_left' ?_
  simp only [f.bytes_eq, List.length_append, Word.length_bytes, List.length_cons]
  omega

theorem prepare_of_carries (hdata : m.data = f.bytes) (h : f.Carries ip l4 payload)
    (htags : f.tags.length ≤ 28) : Records m f ip l4 payload := by
  have hlayout := f.layout_bytes h
  rw [← hdata] at hlayout
  have hrun := preparePacket_of_layout m (data_length_le m) hlayout htags
  have hwithin := (prepare_within_iff m).mpr (by rw [hrun]; rfl)
  have htotal := headersLen_withHeaders m hlayout htags
  obtain ⟨proto, hip, -⟩ := layout_eq_some.mp hlayout
  have hl2 := withL3_l2Len m ip.length htags
  have hl4 : (BitVec.ofNat 8 l4.length).toNat = l4.length := by
    have hle := layout_l4_le hlayout
    rw [BitVec.toNat_ofNat, Nat.mod_eq_of_lt (Nat.lt_of_le_of_lt hle (by decide))]
  refine ⟨_, (prepare_eq_of_within hwithin).trans hrun, hl2,
    withL3_l3Len m f.tags.length (ipHeader_l3_le hip), hl4, ?_, fun label hhead => ?_⟩
  · rw [Mbuf.payload, htotal]
    show m.data.drop _ = _
    rw [hdata, Headers.total, Headers.l2, Nat.add_assoc, ← List.drop_drop, f.drop_bytes, h.1,
      ← List.drop_drop, List.drop_left, List.drop_left]
  · have hdata' : (m.withHeaders ⟨f.tags.length, ip.length, l4.length⟩).data = f.bytes := hdata
    exact executePushMpls_data hdata' hl2 hhead label

theorem prepare_of_foreign (hdata : m.data = f.bytes) (h : f.Foreign) :
    ∃ m', m.prepare = some (false, m') := by
  have hlayout := TaggedFrame.layout_foreign h
  rw [← hdata] at hlayout
  obtain ⟨m', hrun⟩ := (preparePacket_rejects_iff m (data_length_le m)).mpr hlayout
  have hwithin := (prepare_within_iff m).mpr (by rw [hrun]; rfl)
  exact ⟨m', (prepare_eq_of_within hwithin).trans hrun⟩

/-- The lengths are recorded exactly when a frame that holds its headers
has at most 28 tags. -/
theorem lengthsRecorded_iff (hdata : m.data = f.bytes) : LengthsRecorded m f
    ↔ ∀ ip l4 payload, f.Carries ip l4 payload → f.tags.length ≤ 28 := by
  constructor
  · intro h ip l4 payload hcarries
    obtain ⟨m', -, hl2, -⟩ := h.recorded ip l4 payload hcarries
    have hlt := m'.l2Len.isLt
    omega
  · intro htags
    refine ⟨fun ip l4 payload h => ?_, prepare_of_foreign hdata⟩
    exact prepare_of_carries hdata h (htags ip l4 payload h)

end Walk

theorem lengthsRecorded_udpMbuf : LengthsRecorded udpMbuf udpFrame :=
  (lengthsRecorded_iff rfl).mpr fun _ _ _ _ => Nat.zero_le 28

/-- The same packet behind 29 tags. -/
def manyTagsFrame : TaggedFrame :=
  { udpFrame with
    tags := List.replicate 29 0x64700081
    startsWithTag := by
      intro w hw
      obtain rfl := List.eq_of_mem_replicate hw
      exact ⟨_, _, _, _, rfl, by decide⟩ }

def manyTagsMbuf : Mbuf where
  headroom := List.replicate 8 0
  room := manyTagsFrame.bytes
  pktLen := 158
  l2Len := 0
  l3Len := 0
  l4Len := 0
  pktLen_le := by decide +kernel
  size_lt := by decide +kernel

/-- The walk accepts it, with two bytes in front of the IP header. -/
theorem not_lengthsRecorded_manyTags :
    manyTagsMbuf.data = manyTagsFrame.bytes
      ∧ manyTagsFrame.tags.length = 29
      ∧ manyTagsMbuf.prepare
        = some (true, { manyTagsMbuf with l2Len := 2, l3Len := 20, l4Len := 8 })
      ∧ ¬ LengthsRecorded manyTagsMbuf manyTagsFrame := by
  refine ⟨by decide +kernel, rfl, by decide +kernel, fun h => ?_⟩
  have hcarries : manyTagsFrame.Carries (0x45 :: List.replicate 8 0 ++ 0x11 :: List.replicate 10 0)
      (List.replicate 8 0) [] :=
    ⟨rfl, 0x11, Or.inl ⟨by decide, by decide, _, rfl, by decide⟩, Or.inr ⟨rfl, rfl⟩⟩
  obtain ⟨m', -, hl2, -⟩ := h.recorded _ _ _ hcarries
  have hlt := m'.l2Len.isLt
  rw [hl2] at hlt
  exact absurd hlt (by decide)

end Yapas
