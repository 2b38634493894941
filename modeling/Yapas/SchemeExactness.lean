import Yapas.Exactness

/-!
# Exactness of the SIP and RTSP detectors

Both look behind the method for the scheme of the address, each letter
in either case. On what is left of the frame this is `matchPrefix` of
the scheme and the bytes in lower case (`startsWithEither_result`), so
the comparison leaves the packet exactly where the payload ends within
a scheme it has agreed with so far (`CutShort`).

The minimum length of a SIP payload is the length of its longest
request prefix, so a SIP payload is never cut short. The one of an RTSP
payload is not: two of its methods alone leave two bytes of the fifteen.
-/

namespace Yapas

/-! ## The scheme in either case -/

theorem lower_lower (b : UInt8) : lower (lower b) = lower b := by
  unfold lower
  by_cases hb : 65 ≤ b ∧ b ≤ 90
  · have hnot : ¬ (65 ≤ b + 32 ∧ b + 32 ≤ 90) := by
      simp only [UInt8.le_iff_toNat_le, UInt8.toNat_add, UInt8.reduceToNat] at hb ⊢
      omega
    rw [if_pos hb, if_neg hnot]
  · rw [if_neg hb, if_neg hb]

/-- The byte is one of the two spellings. -/
theorem eitherSpelling_iff {b u : UInt8} (hu : isLower u = false) :
    (b = u ∨ b = lower u) ↔ lower b = lower u := by
  constructor
  · rintro (rfl | rfl)
    · rfl
    · exact lower_lower u
  · exact lower_eq hu

theorem startsWithEither_result {f : List UInt8} : ∀ {up xs : List UInt8} {off : Nat},
    up.any isLower = false → f.drop off = xs →
    (startsWithEither up (up.map lower) off).result f
      = matchPrefix (up.map lower) (xs.map lower)
  | [], _, _, _, _ => rfl
  | u :: up, [], off, _, h => by
      rw [List.map_cons, startsWithEither, Reader.result_bind, Reader.result_byte,
        getElem?_of_drop h]
      rfl
  | u :: up, b :: xs, off, hup, h => by
      rw [List.any_cons, Bool.or_eq_false_iff] at hup
      have ih := startsWithEither_result hup.2 (drop_succ_of_drop h)
      have heither := eitherSpelling_iff (b := b) hup.1
      rw [List.map_cons, startsWithEither, Reader.result_bind, Reader.result_byte,
        getElem?_of_drop h, List.head?_cons, Option.bind_some, List.map_cons, matchPrefix]
      by_cases hb : b ≠ u ∧ b ≠ lower u
      · rw [if_pos hb, if_pos fun hlow => not_or.mpr hb (heither.mpr hlow)]
        rfl
      · have hlow : lower b = lower u := by
          rw [← heither]
          by_contra hne
          exact hb (not_or.mp hne)
        rw [if_neg hb, if_neg (not_not_intro hlow)]
        exact ih

theorem startsWithEither_strictFrom (f : List UInt8) : ∀ (up lo : List UInt8) (off : Nat),
    (startsWithEither up lo off).StrictFrom off f
  | [], _, off => Reader.strictFrom_pure _ off f
  | _ :: _, [], off => Reader.strictFrom_pure _ off f
  | u :: up, l :: lo, off => by
      rw [startsWithEither]
      refine (Reader.strictFrom_byte (Nat.le_refl off) f).bind fun b _ => ?_
      split
      · exact Reader.strictFrom_pure _ off f
      · exact (startsWithEither_strictFrom f up lo (off + 1)).mono (Nat.le_succ off)

/-! ## The payloads -/

/-- The payload starts with the version, or with a method, a space and
the scheme, each of its letters in either case. -/
def SchemePayload (minLen : Nat) (version : List UInt8) (methods : List (List UInt8))
    (scheme p : List UInt8) : Prop :=
  minLen ≤ p.length ∧ (version <+: p ∨ ∃ method ∈ methods, ∃ spelled,
    spelled.map lower = scheme ∧ method ++ space :: spelled <+: p)

/-- The payload is long enough for the detector and ends within the
scheme. -/
def CutShort (minLen : Nat) (methods : List (List UInt8)) (scheme p : List UInt8) : Prop :=
  minLen ≤ p.length ∧ ∃ method ∈ methods, ∃ spelled, p = method ++ space :: spelled
    ∧ spelled.map lower <+: scheme ∧ spelled.map lower ≠ scheme

theorem prefix_map_lower {scheme xs : List UInt8} :
    scheme <+: xs.map lower ↔ ∃ spelled, spelled.map lower = scheme ∧ spelled <+: xs := by
  constructor
  · intro h
    obtain ⟨spelled, hpre, hmap⟩ := List.prefix_map_iff.mp h
    exact ⟨spelled, hmap.symm, hpre⟩
  · rintro ⟨spelled, rfl, hpre⟩
    exact hpre.map lower

section Request

variable {minLen : Nat} {version method xs : List UInt8} {methods : List (List UInt8)}

/-- A request is no response. -/
theorem not_version_of_request
    (hapart : ∀ w ∈ methods, matchPrefix version (w ++ [space]) = some false)
    (hmethod : method ∈ methods) : ¬ version <+: method ++ space :: xs := by
  have hmatch := matchPrefix_append xs (hapart method hmethod)
  rw [List.append_assoc, List.singleton_append, matchPrefix_eq] at hmatch
  split at hmatch
  · cases hmatch
  · exact of_decide_eq_false (Option.some.inj hmatch)

theorem schemePayload_request (scheme : List UInt8) (hspace : ∀ w ∈ methods, space ∉ w)
    (hapart : ∀ w ∈ methods, matchPrefix version (w ++ [space]) = some false)
    (hmethod : method ∈ methods) (hlong : minLen ≤ (method ++ space :: xs).length) :
    SchemePayload minLen version methods scheme (method ++ space :: xs)
      ↔ scheme <+: xs.map lower := by
  rw [prefix_map_lower]
  constructor
  · rintro ⟨-, hversion | ⟨method', hmethod', spelled, hspelled, ys, heq⟩⟩
    · exact absurd hversion (not_version_of_request hapart hmethod)
    · rw [List.append_assoc, List.cons_append] at heq
      obtain ⟨-, rfl⟩ := append_space_inj (hspace _ hmethod') (hspace _ hmethod) heq
      exact ⟨spelled, hspelled, List.prefix_append _ _⟩
  · rintro ⟨spelled, hspelled, ys, rfl⟩
    exact ⟨hlong, Or.inr ⟨method, hmethod, spelled, hspelled, ys, by simp⟩⟩

theorem cutShort_request (scheme : List UInt8) (hspace : ∀ w ∈ methods, space ∉ w)
    (hmethod : method ∈ methods) (hlong : minLen ≤ (method ++ space :: xs).length) :
    CutShort minLen methods scheme (method ++ space :: xs)
      ↔ xs.map lower <+: scheme ∧ xs.map lower ≠ scheme := by
  constructor
  · rintro ⟨-, method', hmethod', spelled, heq, hcut⟩
    obtain ⟨-, rfl⟩ := append_space_inj (hspace _ hmethod) (hspace _ hmethod') heq
    exact hcut
  · exact fun hcut => ⟨hlong, method, hmethod, xs, rfl, hcut⟩

/-- On a request the detector answers as it should unless the scheme is
cut short. -/
theorem searchScheme_request {up : List UInt8} {m : Mbuf} {q : Protocol}
    (hup : up.any isLower = false) (hspace : ∀ w ∈ methods, space ∉ w)
    (hapart : ∀ w ∈ methods, matchPrefix version (w ++ [space]) = some false)
    (hversion : version.length ≤ minLen) (hmin : ∀ w ∈ methods, w.length < minLen)
    (h : m.headersLen ≤ m.pktLen) (hlong : minLen ≤ m.payload.length)
    (hmethod : method ∈ methods) (hp : m.payload = method ++ space :: xs) :
    Answers q (SchemePayload minLen version methods (up.map lower)) m.payload
        ((searchText minLen version methods
          (searchMethod (startsWithEither up (up.map lower))) q m).result m.data)
      ↔ ¬ CutShort minLen methods (up.map lower) m.payload := by
  have hmethods : ∀ w ∈ methods, w.length < m.payload.length :=
    fun w hw => Nat.lt_of_lt_of_le (hmin w hw) hlong
  have hxs : m.data.drop (m.headersLen + method.length + 1) = xs := by
    rw [Nat.add_assoc, ← List.drop_drop, ← Mbuf.payload, hp, ← List.drop_drop, List.drop_left]
    rfl
  have hspec := schemePayload_request (up.map lower) hspace hapart hmethod (hp ▸ hlong)
  have hcut := cutShort_request (up.map lower) hspace hmethod (hp ▸ hlong)
  rw [searchText_data _ h hversion, if_neg (Nat.not_lt_of_le hlong),
    searchMethods_request _ hspace hmethods hmethod hp rfl, startsWithEither_result hup hxs,
    matchPrefix_eq, hp, if_neg (not_version_of_request hapart hmethod), hcut, Answers, hspec]
  by_cases hends : xs.map lower <+: up.map lower ∧ xs.map lower ≠ up.map lower
  · rw [if_pos hends]
    refine iff_of_false ?_ (not_not_intro hends)
    rintro (⟨-, hr⟩ | ⟨-, hr⟩) <;> cases hr
  · rw [if_neg hends]
    refine iff_of_true ?_ hends
    by_cases hpre : up.map lower <+: xs.map lower
    · exact Or.inl ⟨hpre, by rw [decide_eq_true hpre]; rfl⟩
    · exact Or.inr ⟨hpre, by rw [decide_eq_false hpre]; rfl⟩

/-- On anything else it always does. -/
theorem searchScheme_noRequest {up : List UInt8} {m : Mbuf} {q : Protocol}
    (hversion : version.length ≤ minLen) (hmin : ∀ w ∈ methods, w.length < minLen)
    (h : m.headersLen ≤ m.pktLen) (hlong : minLen ≤ m.payload.length)
    (hno : ∀ method ∈ methods, ∀ xs, m.payload ≠ method ++ space :: xs) :
    Answers q (SchemePayload minLen version methods (up.map lower)) m.payload
      ((searchText minLen version methods
        (searchMethod (startsWithEither up (up.map lower))) q m).result m.data) := by
  have hmethods : ∀ w ∈ methods, w.length < m.payload.length :=
    fun w hw => Nat.lt_of_lt_of_le (hmin w hw) hlong
  rw [searchText_data _ h hversion, if_neg (Nat.not_lt_of_le hlong),
    searchMethods_noRequest _ hmethods hno rfl]
  by_cases hpre : version <+: m.payload
  · exact Or.inl ⟨⟨hlong, Or.inl hpre⟩, if_pos hpre⟩
  · refine Or.inr ⟨?_, if_neg hpre⟩
    rintro ⟨-, hversion | ⟨method, hmethod, spelled, -, ys, heq⟩⟩
    · exact hpre hversion
    · rw [List.append_assoc, List.cons_append] at heq
      exact hno method hmethod _ heq.symm

/-- On the frame alone a detector of this kind answers as it should
unless the payload is cut short. -/
theorem searchScheme_data {up : List UInt8} {m : Mbuf} {q : Protocol}
    (hup : up.any isLower = false) (hspace : ∀ w ∈ methods, space ∉ w)
    (hapart : ∀ w ∈ methods, matchPrefix version (w ++ [space]) = some false)
    (hversion : version.length ≤ minLen) (hmin : ∀ w ∈ methods, w.length < minLen)
    (h : m.headersLen ≤ m.pktLen) :
    Answers q (SchemePayload minLen version methods (up.map lower)) m.payload
        ((searchText minLen version methods
          (searchMethod (startsWithEither up (up.map lower))) q m).result m.data)
      ↔ ¬ CutShort minLen methods (up.map lower) m.payload := by
  by_cases hshort : m.payload.length < minLen
  · rw [searchText_data _ h hversion, if_pos hshort]
    exact iff_of_true (Or.inr ⟨fun hp => Nat.not_le_of_lt hshort hp.1, rfl⟩)
      fun hcut => Nat.not_le_of_lt hshort hcut.1
  have hlong : minLen ≤ m.payload.length := Nat.le_of_not_lt hshort
  by_cases hrequest : ∃ method ∈ methods, ∃ xs, m.payload = method ++ space :: xs
  · obtain ⟨method, hmethod, xs, hp⟩ := hrequest
    exact searchScheme_request hup hspace hapart hversion hmin h hlong hmethod hp
  · have hno : ∀ method ∈ methods, ∀ xs, m.payload ≠ method ++ space :: xs :=
      fun method hmethod xs hp => hrequest ⟨method, hmethod, xs, hp⟩
    refine iff_of_true (searchScheme_noRequest hversion hmin h hlong hno) ?_
    rintro ⟨-, method, hmethod, xs, hp, -⟩
    exact hno method hmethod xs hp

/-- A detector of this kind is exact on a packet exactly when the
payload is not cut short. -/
theorem schemeExact_iff (up : List UInt8) {m : Mbuf} {q : Protocol}
    (hup : up.any isLower = false)
    (hspace : ∀ w ∈ methods, space ∉ w)
    (hapart : ∀ w ∈ methods, matchPrefix version (w ++ [space]) = some false)
    (hversion : version.length ≤ minLen) (hmin : ∀ w ∈ methods, w.length < minLen)
    (h : m.headersLen ≤ m.pktLen) :
    Exact (searchText minLen version methods
        (searchMethod (startsWithEither up (up.map lower))) q) q
        (SchemePayload minLen version methods (up.map lower)) m
      ↔ ¬ CutShort minLen methods (up.map lower) m.payload :=
  exact_iff (fun p => ¬ CutShort minLen methods (up.map lower) p)
    (fun m => searchText_strictFrom fun off hoff =>
      (startsWithEither_strictFrom m.data up (up.map lower) off).mono hoff)
    (fun _ => searchScheme_data hup hspace hapart hversion hmin) h

end Request

/-! ## SIP -/

def SipPayload : List UInt8 → Prop := SchemePayload 14 sipVersion sipMethods sipPrefixLo

theorem length_sipMethods : ∀ w ∈ sipMethods, w.length ≤ 9 := by decide

/-- No SIP payload is long enough for the detector and too short for a
request prefix. -/
theorem not_cutShort_sip (p : List UInt8) : ¬ CutShort 14 sipMethods sipPrefixLo p := by
  rintro ⟨hlong, method, hmethod, spelled, rfl, hpre, hne⟩
  have hlen := length_sipMethods method hmethod
  have hspelled : spelled.length < 4 := by
    have hlt : (spelled.map lower).length < sipPrefixLo.length := by
      refine Nat.lt_of_le_of_ne hpre.length_le fun heq => hne (hpre.eq_of_length heq)
    rwa [List.length_map] at hlt
  rw [List.length_append, List.length_cons] at hlong
  omega

theorem sipMethods_apart :
    ∀ w ∈ sipMethods, matchPrefix sipVersion (w ++ [space]) = some false := by decide

/-- The SIP detector is exact on every packet. -/
theorem sipExact {m : Mbuf} (h : m.headersLen ≤ m.pktLen) :
    Exact searchSip .sip SipPayload m := by
  have hspace : ∀ w ∈ sipMethods, space ∉ w :=
    fun w hw => space_not_mem_words w (List.mem_append_right _ (sipMethods_subset hw))
  have hmin : ∀ w ∈ sipMethods, w.length < 14 :=
    fun w hw => Nat.lt_of_le_of_lt (length_sipMethods w hw) (by decide)
  exact (schemeExact_iff sipPrefixUp (by decide) hspace sipMethods_apart (by decide) hmin
    h).mpr (not_cutShort_sip m.payload)

/-- The request prefix with the longest method, and nothing behind it. -/
theorem sipExact_subscribe :
    Exact searchSip .sip SipPayload (packetMbuf (ascii "SUBSCRIBE SiP:") [] (by decide)) :=
  sipExact packetMbuf_headersLen_le

/-! ## RTSP -/

def RtspPayload : List UInt8 → Prop := SchemePayload 15 rtspVersion rtspMethods rtspPrefixLo

theorem length_rtspMethods : ∀ w ∈ rtspMethods, w.length < 15 := by decide

theorem rtspMethods_apart :
    ∀ w ∈ rtspMethods, matchPrefix rtspVersion (w ++ [space]) = some false := by decide

/-- The RTSP detector is exact on a packet exactly when the payload does
not end within the scheme of a request. -/
theorem rtspExact_iff {m : Mbuf} (h : m.headersLen ≤ m.pktLen) :
    Exact searchRtsp .rtsp RtspPayload m
      ↔ ¬ CutShort 15 rtspMethods rtspPrefixLo m.payload := by
  have hspace : ∀ w ∈ rtspMethods, space ∉ w :=
    fun w hw => space_not_mem_words w (List.mem_append_right _ (rtspMethods_subset hw))
  exact schemeExact_iff rtspPrefixUp (by decide) hspace rtspMethods_apart (by decide)
    length_rtspMethods h

theorem rtspExact_getParameter :
    Exact searchRtsp .rtsp RtspPayload
      (packetMbuf (ascii "GET_PARAMETER RtSp://") [] (by decide)) := by
  refine (rtspExact_iff packetMbuf_headersLen_le).mpr ?_
  have hmethod : ascii "GET_PARAMETER" ∈ rtspMethods := by decide
  have hcut : CutShort 15 rtspMethods rtspPrefixLo
      (ascii "GET_PARAMETER" ++ space :: ascii "RtSp://") ↔ _ :=
    cutShort_request rtspPrefixLo (by decide) hmethod (by decide)
  rw [packetMbuf_payload]
  exact fun h => (hcut.mp h).2 rfl

/-- The last byte of the scheme is missing, and the one behind the
packet is taken for it. -/
theorem not_rtspExact_cutShort :
    (searchRtsp (packetMbuf (ascii "DESCRIBE rtsp:/") (ascii "/") (by decide))).result
        (packetMbuf (ascii "DESCRIBE rtsp:/") (ascii "/") (by decide)).room = some .rtsp
      ∧ (searchRtsp (packetMbuf (ascii "DESCRIBE rtsp:/") [] (by decide))).result
        (packetMbuf (ascii "DESCRIBE rtsp:/") [] (by decide)).room = none
      ∧ ¬ Exact searchRtsp .rtsp RtspPayload
        (packetMbuf (ascii "DESCRIBE rtsp:/") (ascii "/") (by decide)) := by
  refine ⟨by decide +kernel, by decide +kernel, fun h => ?_⟩
  have hread := h.inside 57 (by decide +kernel)
  exact Nat.lt_irrefl _ hread.2

end Yapas
