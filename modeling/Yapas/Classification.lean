import Yapas.SchemeExactness

/-!
# What a payload is classified as

`Analyze` as a function of the payload. On a frame that holds its
headers it returns the first protocol, in the order of its detectors,
that recognises the payload (`Classified`): HTTP, SIP and RTSP by their
first line, RTP by its header.

It comes to an answer within the packet unless the payload ends too
early, behind an HTTP method or within an RTSP scheme (`EndsEarly`); then
what it reads next is behind the packet. `analyze_iff` says both, for
every payload. The detectors are strict readers that go forward from the
headers' end, so a run on the frame alone says how the run on the whole
buffer goes.
-/

namespace Yapas

/-! ## The answer -/

/-- What the RTP detector takes for RTP: any version with the higher bit
set, the length of an extension reduced to sixteen bits. -/
def RtpLike : List UInt8 → Prop := RtpHeader (2 ≤ ·) fun words => 4 * words % 2 ^ 16

/-- The detector of the protocol answers with it. -/
def Protocol.Recognises : Protocol → List UInt8 → Prop
  | .http => HttpPayload
  | .sip => SipPayload
  | .rtp => RtpLike
  | .rtsp => RtspPayload
  | .unknown => fun _ => False

/-- `q` is the first of the protocols that recognises the payload, or
none of them does. -/
def FirstOf (p : List UInt8) : List Protocol → Protocol → Prop
  | [], q => q = .unknown
  | own :: others, q => (own.Recognises p ∧ q = own) ∨ (¬ own.Recognises p ∧ FirstOf p others q)

theorem FirstOf.unique {p : List UInt8} : ∀ {qs : List Protocol} {q q' : Protocol},
    FirstOf p qs q → FirstOf p qs q' → q = q'
  | [], _, _, h, h' => Eq.trans h (Eq.symm h')
  | own :: others, q, q', h, h' => by
      rcases h with ⟨hown, rfl⟩ | ⟨hown, h⟩
      · exact h'.elim (fun h' => h'.2.symm) fun h' => absurd hown h'.1
      · rcases h' with ⟨hown', rfl⟩ | ⟨-, h'⟩
        · exact absurd hown' hown
        · exact h.unique h'

/-- In the order of `methods_`. -/
def Classified (p : List UInt8) (q : Protocol) : Prop := FirstOf p [.http, .sip, .rtp, .rtsp] q

/-- The payload ends where a detector has still to read. -/
def EndsEarly (p : List UInt8) : Prop := ¬ StaysInside p ∨ CutShort 15 rtspMethods rtspPrefixLo p

/-! ## The loop over the detectors -/

/-- A detector that answers for its protocol. -/
def AnswersOn (m : Mbuf) (d : Protocol × (Mbuf → Reader Protocol)) : Prop :=
  d.1 ≠ .unknown ∧ Answers d.1 d.1.Recognises m.payload ((d.2 m).result m.data)

theorem analyzeLoop_of_known {m : Mbuf} {q : Protocol} (hq : q ≠ .unknown) :
    ∀ methods, analyzeLoop m methods q = pure q
  | [] => rfl
  | search :: methods => by rw [analyzeLoop, if_neg hq]

/-- The loop goes on behind the detectors that answer with unknown. -/
theorem analyzeLoop_append {m : Mbuf} {methods : List (Mbuf → Reader Protocol)} :
    ∀ {ds : List (Protocol × (Mbuf → Reader Protocol))},
      (∀ d ∈ ds, AnswersOn m d ∧ ¬ d.1.Recognises m.payload) →
      (analyzeLoop m (ds.map Prod.snd ++ methods) .unknown).result m.data
        = (analyzeLoop m methods .unknown).result m.data
  | [], _ => rfl
  | d :: ds, h => by
      obtain ⟨⟨-, hans⟩, hnot⟩ := h d List.mem_cons_self
      have hunknown := (hans.resolve_left fun h => hnot h.1).2
      rw [List.map_cons, List.cons_append, analyzeLoop, if_pos rfl, Reader.result_bind, hunknown,
        Option.bind_some]
      exact analyzeLoop_append fun d' hd' => h d' (List.mem_cons_of_mem d hd')

theorem analyzeLoop_answers {m : Mbuf} : ∀ {ds : List (Protocol × (Mbuf → Reader Protocol))},
    (∀ d ∈ ds, AnswersOn m d) →
    ∃ q, (analyzeLoop m (ds.map Prod.snd) .unknown).result m.data = some q
      ∧ FirstOf m.payload (ds.map Prod.fst) q
  | [], _ => ⟨.unknown, rfl, rfl⟩
  | d :: ds, h => by
      obtain ⟨hq, hans⟩ := h d List.mem_cons_self
      obtain ⟨q, hloop, hfirst⟩ :=
        analyzeLoop_answers fun d' hd' => h d' (List.mem_cons_of_mem d hd')
      rw [List.map_cons, List.map_cons, analyzeLoop, if_pos rfl, Reader.result_bind]
      rcases hans with ⟨hown, hr⟩ | ⟨hown, hr⟩
      · refine ⟨d.1, ?_, Or.inl ⟨hown, rfl⟩⟩
        rw [hr, Option.bind_some, analyzeLoop_of_known hq]
        rfl
      · exact ⟨q, by rw [hr, Option.bind_some, hloop], Or.inr ⟨hown, hfirst⟩⟩

/-! ## The frame alone and the buffer -/

section Strict

variable {search : Mbuf → Reader Protocol} {m : Mbuf}

/-- An answer on the frame alone is that on the buffer. -/
theorem result_of_data {q : Protocol} (hstrict : (search m).StrictFrom m.headersLen m.data)
    (h : (search m).result m.data = some q) : (search m).result m.room = some q := by
  obtain ⟨hrun, -⟩ := run_of_data hstrict (by rw [h]; rfl)
  rw [← h, Reader.result, hrun]
  rfl

theorem inside_iff (hstrict : (search m).StrictFrom m.headersLen m.data) :
    (∀ i ∈ (search m).reads m.room, m.headersLen ≤ i ∧ i < m.pktLen)
      ↔ ((search m).result m.data).isSome := by
  constructor
  · intro hinside
    have hrun : (search m).run m.data = (search m).run m.room :=
      Reader.run_of_take_eq (fun i hi => (hinside i hi).2) (take_data m)
    refine hstrict.1.mpr fun i hi => ?_
    rw [m.length_data]
    rw [Reader.reads, hrun] at hi
    exact (hinside i hi).2
  · intro hsome
    obtain ⟨hrun, hinside⟩ := run_of_data hstrict hsome
    rwa [Reader.reads, hrun]

end Strict

/-! ## The detectors on the frame alone -/

section Frame

variable {m : Mbuf}

theorem searchHttp_answers (h : m.headersLen ≤ m.pktLen) (hstays : StaysInside m.payload) :
    AnswersOn m (.http, searchHttp) :=
  ⟨by decide, (searchHttp_data h).mpr hstays⟩

theorem searchRtp_answers (h : m.headersLen ≤ m.pktLen) : AnswersOn m (.rtp, searchRtp) :=
  ⟨by decide, searchRtp_data h⟩

theorem searchSip_answers (h : m.headersLen ≤ m.pktLen) : AnswersOn m (.sip, searchSip) := by
  have hspace : ∀ w ∈ sipMethods, space ∉ w :=
    fun w hw => space_not_mem_words w (List.mem_append_right _ (sipMethods_subset hw))
  have hmin : ∀ w ∈ sipMethods, w.length < 14 :=
    fun w hw => Nat.lt_of_le_of_lt (length_sipMethods w hw) (by decide)
  have hup : sipPrefixUp.any isLower = false := by decide
  exact ⟨by decide, (searchScheme_data hup hspace sipMethods_apart (by decide) hmin h).mpr
    (not_cutShort_sip m.payload)⟩

theorem space_not_mem_rtspMethods : ∀ w ∈ rtspMethods, space ∉ w :=
  fun w hw => space_not_mem_words w (List.mem_append_right _ (rtspMethods_subset hw))

theorem searchRtsp_answers (h : m.headersLen ≤ m.pktLen)
    (hcut : ¬ CutShort 15 rtspMethods rtspPrefixLo m.payload) :
    AnswersOn m (.rtsp, searchRtsp) := by
  have hup : rtspPrefixUp.any isLower = false := by decide
  exact ⟨by decide, (searchScheme_data hup space_not_mem_rtspMethods rtspMethods_apart (by decide)
    length_rtspMethods h).mpr hcut⟩

/-- A payload that ends within the scheme leaves the RTSP detector
without an answer. -/
theorem searchRtsp_none (h : m.headersLen ≤ m.pktLen)
    (hcut : CutShort 15 rtspMethods rtspPrefixLo m.payload) :
    (searchRtsp m).result m.data = none := by
  obtain ⟨hlong, method, hmethod, xs, hp, hpre, hne⟩ := hcut
  have hxs : m.data.drop (m.headersLen + method.length + 1) = xs := by
    rw [Nat.add_assoc, ← List.drop_drop, ← Mbuf.payload, hp, ← List.drop_drop, List.drop_left]
    rfl
  have hversion : ¬ rtspVersion <+: method ++ space :: xs :=
    not_version_of_request rtspMethods_apart hmethod
  have hshort : ∀ w ∈ rtspMethods, w.length < m.payload.length :=
    fun w hw => Nat.lt_of_lt_of_le (length_rtspMethods w hw) hlong
  rw [searchRtsp, searchText_data _ h (by decide), if_neg (Nat.not_lt_of_le hlong), hp,
    if_neg hversion, searchRtspMethod,
    searchMethods_request _ space_not_mem_rtspMethods hshort hmethod hp rfl]
  show ((startsWithEither rtspPrefixUp (rtspPrefixUp.map lower) _).result m.data).map _ = none
  rw [startsWithEither_result (by decide) hxs, matchPrefix_eq, if_pos ⟨hpre, hne⟩]
  rfl

/-- A payload that ends too early behind a method leaves the HTTP
detector without an answer. -/
theorem searchHttp_none (h : m.headersLen ≤ m.pktLen) (hstays : ¬ StaysInside m.payload) :
    (searchHttp m).result m.data = none := by
  unfold StaysInside at hstays
  push Not at hstays
  obtain ⟨hlong, method, hmethod, xs, hp, hruns⟩ := hstays
  have hxs : m.data.drop (m.headersLen + method.length + 1) = xs := by
    rw [Nat.add_assoc, ← List.drop_drop, ← Mbuf.payload, hp, ← List.drop_drop, List.drop_left]
    rfl
  have hshort : ∀ w ∈ httpMethods, w.length < m.payload.length := fun w hw =>
    Nat.lt_of_lt_of_le (Nat.lt_of_le_of_lt (length_httpMethods w hw) (by decide)) hlong
  have hfuel : m.data.length < m.room.length + 1 := by
    rw [m.length_data]
    exact Nat.lt_succ_of_le m.pktLen_le
  have hversion : ¬ httpVersion <+: m.payload := fun hpre =>
    not_request_of_version hpre hmethod hp
  rw [searchHttp, searchText_data _ h (by decide), if_neg (Nat.not_lt_of_le hlong),
    if_neg hversion, searchHttpMethod,
    searchMethods_request _ space_not_mem_httpMethods hshort hmethod hp rfl]
  rcases httpRest_payload hfuel hxs with ⟨-, hnone⟩ | ⟨-, -, hnot, -⟩
  · rw [hnone]
    rfl
  · exact absurd hruns hnot

end Frame

/-! ## Payloads that end within a scheme -/

/-- The method in front of a scheme that is cut short is none that the
other text protocols have. -/
theorem longMethods_apart : ∀ w ∈ rtspMethods, 8 ≤ w.length → w ∉ httpMethods ∧ w ∉ sipMethods := by
  decide

section CutShort

variable {p : List UInt8}

theorem cutShort_method (h : CutShort 15 rtspMethods rtspPrefixLo p) :
    ∃ method ∈ rtspMethods, method ∉ httpMethods ∧ method ∉ sipMethods
      ∧ ∃ xs, p = method ++ space :: xs := by
  obtain ⟨hlong, method, hmethod, spelled, rfl, hpre, hne⟩ := h
  have hlt : spelled.length < 7 := by
    have hlt : (spelled.map lower).length < rtspPrefixLo.length :=
      Nat.lt_of_le_of_ne hpre.length_le fun heq => hne (hpre.eq_of_length heq)
    rwa [List.length_map] at hlt
  rw [List.length_append, List.length_cons] at hlong
  obtain ⟨hhttp, hsip⟩ := longMethods_apart method hmethod (by omega)
  exact ⟨method, hmethod, hhttp, hsip, spelled, rfl⟩

/-- A payload that starts with a method and a space starts with no
version. -/
theorem not_version_of_rtspMethod {version method xs : List UInt8} (hversion : version ∈ versions)
    (hmethod : method ∈ rtspMethods) : ¬ version <+: method ++ space :: xs := by
  have hapart : ∀ w ∈ rtspMethods, matchPrefix version (w ++ [space]) = some false := by
    intro w hw
    have hwords := List.mem_append_right versions (rtspMethods_subset hw)
    rw [versions_apart version hversion w hwords, decide_eq_false]
    rintro rfl
    exact versions_not_methods _ hversion (rtspMethods_subset hw)
  exact not_version_of_request hapart hmethod

/-- None of the other three protocols recognises it. -/
theorem CutShort.unrecognised (h : CutShort 15 rtspMethods rtspPrefixLo p) :
    ¬ HttpPayload p ∧ ¬ SipPayload p ∧ ¬ RtpLike p := by
  obtain ⟨method, hmethod, hhttp, hsip, xs, rfl⟩ := cutShort_method h
  have hspace := space_not_mem_rtspMethods method hmethod
  refine ⟨?_, ?_, ?_⟩
  · rintro ⟨-, hversion | ⟨method', hmethod', uri, -, ys, heq⟩⟩
    · exact not_version_of_rtspMethod (by decide) hmethod hversion
    · rw [List.append_assoc, List.cons_append] at heq
      obtain ⟨rfl, -⟩ := append_space_inj (space_not_mem_httpMethods _ hmethod') hspace heq
      exact hhttp hmethod'
  · rintro ⟨-, hversion | ⟨method', hmethod', spelled, -, ys, heq⟩⟩
    · exact not_version_of_rtspMethod (by decide) hmethod hversion
    · rw [List.append_assoc, List.cons_append] at heq
      have hspace' := space_not_mem_words method'
        (List.mem_append_right _ (sipMethods_subset hmethod'))
      obtain ⟨rfl, -⟩ := append_space_inj hspace' hspace heq
      exact hsip hmethod'
  · rintro ⟨first, _, _, _, _, _, h0, -, -, -, -, -, hversion, -⟩
    have hhead := words_head method (List.mem_append_right _ (rtspMethods_subset hmethod))
    cases method with
    | nil => cases hhead
    | cons b method =>
        obtain rfl := Option.some.inj h0
        exact (rtpVersion_iff b).mpr hversion (Option.some.inj hhead)

end CutShort

/-! ## The whole analysis -/

def detectors : List (Protocol × (Mbuf → Reader Protocol)) :=
  [(.http, searchHttp), (.sip, searchSip), (.rtp, searchRtp), (.rtsp, searchRtsp)]

theorem searchSip_strictFrom (m : Mbuf) : (searchSip m).StrictFrom m.headersLen m.data :=
  searchText_strictFrom fun off hoff => (startsWithEither_strictFrom m.data _ _ off).mono hoff

theorem searchRtsp_strictFrom (m : Mbuf) : (searchRtsp m).StrictFrom m.headersLen m.data :=
  searchText_strictFrom fun off hoff => (startsWithEither_strictFrom m.data _ _ off).mono hoff

theorem analyzeLoop_strictFrom {m : Mbuf} : ∀ {methods : List (Mbuf → Reader Protocol)},
    (∀ search ∈ methods, (search m).StrictFrom m.headersLen m.data) →
    ∀ q, (analyzeLoop m methods q).StrictFrom m.headersLen m.data
  | [], _, _ => Reader.strictFrom_pure _ _ _
  | search :: methods, h, q => by
      rw [analyzeLoop]
      split
      · refine (h search List.mem_cons_self).bind fun q' _ => ?_
        exact analyzeLoop_strictFrom (fun s hs => h s (List.mem_cons_of_mem search hs)) q'
      · exact Reader.strictFrom_pure _ _ _

theorem analyze_strictFrom (m : Mbuf) : (analyze m).StrictFrom m.headersLen m.data := by
  refine analyzeLoop_strictFrom ?_ .unknown
  simp only [List.forall_mem_cons, List.not_mem_nil, false_imp_iff, implies_true, and_true]
  exact ⟨searchHttp_strictFrom m, searchSip_strictFrom m, searchRtp_strictFrom m,
    searchRtsp_strictFrom m⟩

section Analyze

variable {m : Mbuf}

/-- On the frame alone there is an answer unless the payload ends
early. -/
theorem analyze_data (h : m.headersLen ≤ m.pktLen) (hends : ¬ EndsEarly m.payload) :
    ∃ q, (analyze m).result m.data = some q ∧ Classified m.payload q := by
  obtain ⟨hstays, hcut⟩ := not_or.mp hends
  have hall : ∀ d ∈ detectors, AnswersOn m d := by
    simp only [detectors, List.forall_mem_cons, List.not_mem_nil, false_imp_iff, implies_true,
      and_true]
    exact ⟨searchHttp_answers h (not_not.mp hstays), searchSip_answers h, searchRtp_answers h,
      searchRtsp_answers h hcut⟩
  exact analyzeLoop_answers hall

theorem analyze_none (h : m.headersLen ≤ m.pktLen) (hends : EndsEarly m.payload) :
    (analyze m).result m.data = none := by
  by_cases hstays : StaysInside m.payload
  · have hcut := hends.resolve_left (not_not_intro hstays)
    obtain ⟨hhttp, hsip, hrtp⟩ := hcut.unrecognised
    have hall : ∀ d ∈ detectors.take 3, AnswersOn m d ∧ ¬ d.1.Recognises m.payload := by
      simp only [detectors, List.take_succ_cons, List.take_zero, List.forall_mem_cons,
        List.not_mem_nil, false_imp_iff, implies_true, and_true]
      exact ⟨⟨searchHttp_answers h hstays, hhttp⟩, ⟨searchSip_answers h, hsip⟩,
        searchRtp_answers h, hrtp⟩
    have hfront : (analyze m).result m.data
        = (analyzeLoop m [searchRtsp] .unknown).result m.data := analyzeLoop_append hall
    rw [hfront, analyzeLoop, if_pos rfl, Reader.result_bind, searchRtsp_none h hcut]
    rfl
  · rw [analyze, analyzeLoop, if_pos rfl, Reader.result_bind, searchHttp_none h hstays]
    rfl

theorem analyze_of_classified {q : Protocol} (h : m.headersLen ≤ m.pktLen)
    (hends : ¬ EndsEarly m.payload) (hq : Classified m.payload q) : m.analyze = some q := by
  obtain ⟨q', hresult, hq'⟩ := analyze_data h hends
  obtain rfl := hq'.unique hq
  exact result_of_data (analyze_strictFrom m) hresult

/-- The analysis inspects the payload only, exactly when this does not
end early; it then returns the first protocol that recognises it,
whatever follows the packet in its buffer. -/
theorem analyze_iff (h : m.headersLen ≤ m.pktLen) :
    ((∀ i ∈ (analyze m).reads m.room, m.headersLen ≤ i ∧ i < m.pktLen) ↔ ¬ EndsEarly m.payload)
      ∧ (¬ EndsEarly m.payload → ∀ q, m.analyze = some q ↔ Classified m.payload q) := by
  constructor
  · rw [inside_iff (analyze_strictFrom m)]
    constructor
    · intro hsome hends
      rw [analyze_none h hends] at hsome
      cases hsome
    · intro hends
      obtain ⟨q, hresult, -⟩ := analyze_data h hends
      rw [hresult]
      rfl
  · intro hends q
    constructor
    · intro hq
      obtain ⟨q', -, hq'⟩ := analyze_data h hends
      rw [analyze_of_classified h hends hq'] at hq
      exact Option.some.inj hq ▸ hq'
    · exact analyze_of_classified h hends

end Analyze

theorem HttpPayload.not_endsEarly {p : List UInt8} (h : HttpPayload p) : ¬ EndsEarly p := by
  rintro (hstays | hcut)
  · exact hstays h.staysInside
  · exact hcut.unrecognised.1 h

/-- The address is a SIP one, and the version decides. -/
theorem analyze_iff_getRequest :
    (packetMbuf (ascii "GET sip: HTTP/1.1") (ascii " SIP/2.0") (by decide)).analyze = some .http
      ∧ ∀ i ∈ (analyze (packetMbuf (ascii "GET sip: HTTP/1.1") (ascii " SIP/2.0")
        (by decide))).reads (packetMbuf (ascii "GET sip: HTTP/1.1") (ascii " SIP/2.0")
        (by decide)).room, 42 ≤ i ∧ i < 59 := by
  have hhttp : HttpPayload (ascii "GET sip: HTTP/1.1") :=
    ⟨by decide, Or.inr ⟨ascii "GET", by decide, ascii "sip:", by decide, by decide⟩⟩
  have hiff := analyze_iff (m := packetMbuf (ascii "GET sip: HTTP/1.1") (ascii " SIP/2.0")
    (by decide)) packetMbuf_headersLen_le
  rw [packetMbuf_payload] at hiff
  exact ⟨(hiff.2 hhttp.not_endsEarly .http).mpr (Or.inl ⟨hhttp, rfl⟩),
    hiff.1.mpr hhttp.not_endsEarly⟩

end Yapas
