import Yapas.Detectors

/-!
# Classification

Which payloads belong to which protocol (`Speaks`), and that `analyze`
finds it.

A text message starts with a line whose first word is a version or a
method. `searchText_own` and `searchText_other` say what a text
detector does with such a line, its own or another protocol's; that no
detector takes a line that is not its own is then a fact about the
tables of words (`versions_apart`) and about what stands behind the
only method they share.
-/

namespace Yapas

/-! ## Messages -/

def crlf : List UInt8 := [13, 10]

def isDigitByte (b : UInt8) : Bool := 48 ≤ b && b ≤ 57

/-- `VERSION SP code SP reason CRLF`, a code of three digits. -/
def StatusLine (version line : List UInt8) : Prop :=
  ∃ d1 d2 d3 reason, isDigitByte d1 = true ∧ isDigitByte d2 = true ∧ isDigitByte d3 = true
    ∧ line = version ++ space :: (d1 :: d2 :: d3 :: space :: (reason ++ crlf))

/-- `METHOD SP URI SP VERSION CRLF`, a URI that is not empty and has no
space in it. -/
def RequestLine (version : List UInt8) (methods : List (List UInt8)) (goodUri : List UInt8 → Prop)
    (line : List UInt8) : Prop :=
  ∃ method ∈ methods, ∃ uri, uri ≠ [] ∧ space ∉ uri ∧ goodUri uri
    ∧ line = method ++ space :: (uri ++ space :: (version ++ crlf))

def lower (b : UInt8) : UInt8 := if 65 ≤ b ∧ b ≤ 90 then b + 32 else b

/-- The URI begins with the scheme, in any letter case. -/
def HasScheme (scheme uri : List UInt8) : Prop :=
  (uri.take scheme.length).map lower = scheme

/-- An RTP packet of version 2 with an assigned payload type, a source
and all of its header. -/
def RtpPacket (p : List UInt8) : Prop :=
  ∃ first second s0 s1 s2 s3, p[0]? = some first ∧ p[1]? = some second
    ∧ p[8]? = some s0 ∧ p[9]? = some s1 ∧ p[10]? = some s2 ∧ p[11]? = some s3
    ∧ first.toNat / 64 = 2
    ∧ (second.toNat % 128 ≤ 34 ∨ 96 ≤ second.toNat % 128)
    ∧ ¬(s0 = 0 ∧ s1 = 0 ∧ s2 = 0 ∧ s3 = 0)
    ∧ 12 + 4 * (first.toNat % 16) ≤ p.length
    ∧ (first.toNat / 16 % 2 = 1 →
        ∃ words, Reader.be16At p (12 + 4 * (first.toNat % 16) + 2) = some words
          ∧ 12 + 4 * (first.toNat % 16) + 4 + 4 * words ≤ p.length)

/-- The payload is a message of the protocol, or begins with one's start
line. -/
def Speaks (p : List UInt8) : Protocol → Prop
  | .http => ∃ line, line <+: p
      ∧ (StatusLine httpVersion line ∨ RequestLine httpVersion httpMethods (fun _ => True) line)
  | .sip => ∃ line, line <+: p
      ∧ (StatusLine sipVersion line
        ∨ RequestLine sipVersion sipMethods (HasScheme sipPrefixLo) line)
  | .rtp => RtpPacket p
  | .rtsp => ∃ line, line <+: p
      ∧ (StatusLine rtspVersion line
        ∨ RequestLine rtspVersion rtspMethods (HasScheme rtspPrefixLo) line)
  | .unknown => False

/-- The bytes behind the headers. -/
def Mbuf.payload (m : Mbuf) : List UInt8 := m.data.drop m.headersLen

/-! ## Comparing, on what is left of the buffer -/

/-- What `startsWith` makes of the bytes it stands in front of. -/
def matchPrefix : List UInt8 → List UInt8 → Option Bool
  | [], _ => some true
  | _ :: _, [] => none
  | c :: cs, x :: xs => if x ≠ c then some false else matchPrefix cs xs

theorem getElem?_of_drop {f xs : List UInt8} {off : Nat} (h : f.drop off = xs) :
    f[off]? = xs.head? := by
  rw [← h, List.head?_drop]

theorem drop_succ_of_drop {f xs : List UInt8} {x : UInt8} {off : Nat}
    (h : f.drop off = x :: xs) : f.drop (off + 1) = xs := by
  rw [← List.drop_drop, h]
  rfl

theorem startsWith_result {f : List UInt8} : ∀ (text : List UInt8) {off : Nat} {xs : List UInt8},
    f.drop off = xs → (startsWith text off).result f = matchPrefix text xs
  | [], _, _, _ => rfl
  | c :: cs, off, xs, h => by
      rw [startsWith, Reader.result_bind, Reader.result_byte, getElem?_of_drop h]
      match xs, h with
      | [], _ => rfl
      | x :: xs, h =>
          rw [List.head?_cons, Option.bind_some, matchPrefix]
          by_cases hx : x ≠ c
          · rw [if_pos hx, if_pos hx]
            rfl
          · rw [if_neg hx, if_neg hx]
            exact startsWith_result cs (drop_succ_of_drop h)

/-- A difference, or the end of the constant, is found where it is
whatever follows. -/
theorem matchPrefix_append {text xs : List UInt8} {b : Bool} (ys : List UInt8)
    (h : matchPrefix text xs = some b) : matchPrefix text (xs ++ ys) = some b := by
  induction text generalizing xs with
  | nil => exact h
  | cons c cs ih =>
      cases xs with
      | nil => cases h
      | cons x xs =>
          rw [matchPrefix] at h
          rw [List.cons_append, matchPrefix]
          by_cases hx : x ≠ c
          · rwa [if_pos hx] at h ⊢
          · rw [if_neg hx] at h ⊢
            exact ih h

theorem matchPrefix_word {xs : List UInt8} : ∀ {method word : List UInt8}, space ∉ method →
    matchPrefix method (word ++ space :: xs) = some (decide (method <+: word))
  | [], _, _ => by simp [matchPrefix]
  | c :: method, [], h => by
      rw [List.mem_cons, not_or] at h
      simp [matchPrefix, h.1]
  | c :: method, d :: word, h => by
      rw [List.mem_cons, not_or] at h
      rw [List.cons_append, matchPrefix]
      by_cases hd : d = c
      · rw [if_neg (not_not_intro hd), matchPrefix_word h.2]
        simp [List.cons_prefix_cons, hd]
      · rw [if_pos hd]
        simp [List.cons_prefix_cons, Ne.symm hd]

/-- A method test goes on behind the first word of the line if that is
the method, and fails otherwise, without leaving the word. -/
theorem searchMethod_result {f : List UInt8} (rest : Nat → Reader Bool)
    {method word xs : List UInt8} {off : Nat} (hmethod : space ∉ method) (hword : space ∉ word)
    (h : f.drop off = word ++ space :: xs) :
    (searchMethod rest off method).result f =
      if method = word then (rest (off + word.length + 1)).result f else some false := by
  rw [searchMethod, Reader.result_bind, startsWith_result method h, matchPrefix_word hmethod,
    Option.bind_some]
  by_cases hpre : method <+: word
  · obtain ⟨t, rfl⟩ := hpre
    have hnext : f.drop (off + method.length) = t ++ space :: xs := by
      rw [← List.drop_drop, h, List.append_assoc, List.drop_left]
    simp only [List.prefix_append, decide_true, if_true, Reader.result_bind, Reader.result_byte,
      getElem?_of_drop hnext]
    cases t with
    | nil => simp
    | cons b t =>
        have hb : b ≠ space := fun hb => hword (by simp [hb])
        simp [hb]
  · have hne : method ≠ word := fun heq => hpre (heq ▸ List.prefix_rfl)
    simp [hpre, hne]

/-- The chain of tests finds the first word among its methods. -/
theorem searchMethods_result {f word : List UInt8} {search : List UInt8 → Reader Bool}
    {r : Option Bool} : ∀ {methods : List (List UInt8)},
      (∀ m ∈ methods, (search m).result f = if m = word then r else some false) →
      (searchMethods search methods).result f = if word ∈ methods then r else some false
  | [], _ => rfl
  | m :: methods, h => by
      have ih : (searchMethods search methods).result f
          = if word ∈ methods then r else some false :=
        searchMethods_result fun m' hm' => h m' (by simp [hm'])
      rw [searchMethods, Reader.result_bind, h m (by simp)]
      by_cases hm : m = word
      · subst hm
        rw [if_pos rfl, if_pos List.mem_cons_self]
        match r with
        | none => rfl
        | some true => rfl
        | some false => simpa using ih
      · rw [if_neg hm]
        simpa [Ne.symm hm] using ih

theorem skipToSpace_result {f : List UInt8} : ∀ {fuel off : Nat} {uri xs : List UInt8},
    space ∉ uri → uri.length < fuel → f.drop off = uri ++ space :: xs →
    (skipToSpace fuel off).result f = some (off + uri.length + 1)
  | 0, _, _, _, _, hfuel, _ => by omega
  | fuel + 1, off, [], xs, _, _, h => by
      rw [skipToSpace, Reader.result_bind, Reader.result_byte, getElem?_of_drop h]
      rfl
  | fuel + 1, off, b :: uri, xs, huri, hfuel, h => by
      rw [List.mem_cons, not_or] at huri
      rw [skipToSpace, Reader.result_bind, Reader.result_byte, getElem?_of_drop h]
      simp only [List.cons_append, List.head?_cons, Option.bind_some, if_pos (Ne.symm huri.1)]
      rw [skipToSpace_result huri.2 (Nat.lt_of_succ_lt_succ hfuel) (drop_succ_of_drop h),
        List.length_cons]
      congr 1
      omega

/-! ## The schemes -/

def isLower (b : UInt8) : Bool := 97 ≤ b && b ≤ 122

/-- A byte that is a letter of the scheme in either case is one of the
two the comparison allows. -/
theorem lower_eq {b u : UInt8} (hu : isLower u = false) (h : lower b = lower u) :
    b = u ∨ b = lower u := by
  unfold lower at h ⊢
  simp only [isLower, Bool.and_eq_false_iff, decide_eq_false_iff_not, UInt8.le_iff_toNat_le,
    UInt8.reduceToNat] at hu h ⊢
  split at h
  · rename_i hb
    refine Or.inl (UInt8.toNat_inj.mp ?_)
    split at h
    all_goals
      have hnat := congrArg UInt8.toNat h
      simp only [UInt8.toNat_add, UInt8.reduceToNat] at hnat
      omega
  · exact Or.inr h

theorem startsWithEither_true {f : List UInt8} : ∀ {up s xs : List UInt8} {off : Nat},
    up.any isLower = false → s.map lower = up.map lower → f.drop off = s ++ xs →
    (startsWithEither up (up.map lower) off).result f = some true
  | [], _, _, _, _, _, _ => rfl
  | u :: up, [], _, _, _, hs, _ => by cases hs
  | u :: up, b :: s, xs, off, hup, hs, h => by
      rw [List.map_cons, List.map_cons, List.cons.injEq] at hs
      rw [List.any_cons, Bool.or_eq_false_iff] at hup
      have hb := lower_eq hup.1 hs.1
      have hnext : f.drop (off + 1) = s ++ xs := drop_succ_of_drop h
      have ih := startsWithEither_true hup.2 hs.2 hnext
      rw [List.map_cons, startsWithEither, Reader.result_bind, Reader.result_byte,
        getElem?_of_drop h]
      have hok : ¬(b ≠ u ∧ b ≠ lower u) := fun hne => hb.elim hne.1 hne.2
      simpa only [List.cons_append, List.head?_cons, Option.bind_some, if_neg hok] using ih

theorem startsWithEither_false {f up lo xs : List UInt8} {u l b : UInt8} {off : Nat}
    (hu : b ≠ u) (hl : b ≠ l) (h : f.drop off = b :: xs) :
    (startsWithEither (u :: up) (l :: lo) off).result f = some false := by
  rw [startsWithEither, Reader.result_bind, Reader.result_byte, getElem?_of_drop h,
    List.head?_cons, Option.bind_some, if_pos ⟨hu, hl⟩]
  rfl

/-! ## A text detector on a line -/

/-- What a text detector returns on a line is decided by its first word,
and where this is one of the methods by what stands behind it. -/
theorem searchText_result {m : Mbuf} {minLen : Nat} {version word xs : List UInt8}
    {methods : List (List UInt8)} {rest : Nat → Reader Bool} {protocol : Protocol} {v b : Bool}
    (hspace : ∀ w ∈ methods, space ∉ w) (hword : space ∉ word)
    (h : m.room.drop m.headersLen = word ++ space :: xs)
    (hversion : matchPrefix version (word ++ [space]) = some v)
    (hrest : word ∈ methods → (rest (m.headersLen + word.length + 1)).result m.room = some b) :
    (searchText minLen version methods (searchMethod rest) protocol m).result m.room =
      some (if minLen ≤ m.payloadLen ∧ (v || decide (word ∈ methods) && b) then protocol
        else .unknown) := by
  have hstart : (startsWith version m.headersLen).result m.room = some v := by
    rw [startsWith_result version h]
    simpa using matchPrefix_append xs hversion
  have hmethods : (searchMethods (searchMethod rest m.headersLen) methods).result m.room
      = some (decide (word ∈ methods) && b) := by
    have hfound : ∀ w ∈ methods, (searchMethod rest m.headersLen w).result m.room
        = if w = word then some b else some false := by
      intro w hw
      rw [searchMethod_result rest (hspace w hw) hword h]
      by_cases heq : w = word
      · rw [if_pos heq, if_pos heq, hrest (heq ▸ hw)]
      · rw [if_neg heq, if_neg heq]
    rw [searchMethods_result hfound]
    by_cases hmem : word ∈ methods <;> simp [hmem]
  unfold searchText
  by_cases hlen : m.payloadLen < minLen
  · rw [if_pos hlen, if_neg fun hand => Nat.not_le_of_lt hlen hand.1]
    rfl
  · rw [if_neg hlen, Reader.result_bind, hstart, Option.bind_some]
    cases v with
    | true => simp [Nat.le_of_not_lt hlen]
    | false =>
        simp only [Bool.false_eq_true, if_false, Reader.result_bind, hmethods, Option.bind_some,
          Nat.le_of_not_lt hlen, true_and, Bool.false_or]
        cases decide (word ∈ methods) && b <;> rfl

/-! ## The tables -/

def versions : List (List UInt8) := [httpVersion, sipVersion, rtspVersion]

def methodWords : List (List UInt8) := httpMethods ++ sipMethods ++ rtspMethods

/-- Every first word of a line. -/
def words : List (List UInt8) := versions ++ methodWords

theorem space_not_mem_words : ∀ w ∈ words, space ∉ w := by decide

/-- No word begins with a version but the version itself. -/
theorem versions_apart : ∀ v ∈ versions, ∀ w ∈ words,
    matchPrefix v (w ++ [space]) = some (decide (v = w)) := by decide

theorem versions_crlf : ∀ v ∈ versions,
    matchPrefix httpVersion (v ++ crlf) = some (decide (httpVersion = v)) := by decide

/-- A version is no method. -/
theorem versions_not_methods : ∀ v ∈ versions, v ∉ methodWords := by decide

/-- A word is never the beginning of an RTP packet. -/
theorem words_head : ∀ w ∈ words, w.head?.map (· &&& 0x80) = some 0 := by decide

theorem httpRest_result {f uri more version : List UInt8} {fuel off : Nat}
    (hversion : version ∈ versions) (huri : space ∉ uri) (hfuel : f.length < fuel)
    (h : f.drop off = uri ++ space :: (version ++ (crlf ++ more))) :
    (httpRest fuel off).result f = some (decide (httpVersion = version)) := by
  have hlen := congrArg List.length h
  rw [List.length_drop, List.length_append, List.length_cons] at hlen
  have hskip : (skipToSpace fuel off).result f = some (off + uri.length + 1) :=
    skipToSpace_result huri (by omega) h
  have hnext : f.drop (off + uri.length + 1) = version ++ (crlf ++ more) := by
    rw [← List.drop_drop, ← List.drop_drop, h, List.drop_left]
    rfl
  rw [httpRest, Reader.result_bind, hskip, Option.bind_some, startsWith_result httpVersion hnext,
    ← List.append_assoc]
  exact matchPrefix_append more (versions_crlf version hversion)

/-! ## Payloads in their buffer -/

theorem payload_spec {m : Mbuf} (h : m.payload ≠ []) :
    m.room.drop m.headersLen = m.payload ++ m.tailroom ∧ m.payloadLen = m.payload.length := by
  have hlt : m.headersLen < m.pktLen := by
    by_contra hge
    exact h (List.drop_eq_nil_of_le (by rw [m.length_data]; omega))
  constructor
  · rw [m.room_eq, List.drop_append_of_le_length (by rw [m.length_data]; omega)]
    rfl
  · rw [Mbuf.payloadLen_eq (Nat.le_of_lt hlt), Mbuf.payload, List.length_drop, m.length_data]

theorem room_of_payload {m : Mbuf} {i : Nat} {b : UInt8} (h : m.payload[i]? = some b) :
    m.room[m.headersLen + i]? = some b := by
  have hne : m.payload ≠ [] := by
    intro hnil
    rw [hnil] at h
    cases h
  have hlt : i < m.payload.length := (List.getElem?_eq_some_iff.mp h).1
  rw [← List.getElem?_drop, (payload_spec hne).1, List.getElem?_append_left hlt, h]

theorem be16_of_payload {m : Mbuf} {i w : Nat} (h : Reader.be16At m.payload i = some w) :
    Reader.be16At m.room (m.headersLen + i) = some w := by
  simp only [Reader.be16At, Option.bind_eq_some_iff, Option.map_eq_some_iff] at h ⊢
  obtain ⟨hi, hhi, lo, hlo, rfl⟩ := h
  exact ⟨hi, room_of_payload hhi, lo, room_of_payload hlo, rfl⟩

/-- `p` begins with a line whose first word is `word`: the version of a
response, or the method of a request with its URI and version behind. -/
def LineAt (version : List UInt8) (methods : List (List UInt8)) (goodUri : List UInt8 → Prop)
    (word p : List UInt8) : Prop :=
  ∃ xs, p = word ++ space :: xs ∧ version.length + 7 ≤ p.length
    ∧ (word = version ∨ word ∈ methods ∧ ∃ uri more, space ∉ uri ∧ goodUri uri
      ∧ xs = uri ++ space :: (version ++ (crlf ++ more)))

theorem two_le_length_words : ∀ w ∈ words, 2 ≤ w.length := by decide

theorem lineAt_of_line {version line p : List UInt8} {methods : List (List UInt8)}
    {goodUri : List UInt8 → Prop} (hmethods : methods ⊆ methodWords) (hline : line <+: p)
    (h : StatusLine version line ∨ RequestLine version methods goodUri line) :
    ∃ word, LineAt version methods goodUri word p := by
  obtain ⟨more, rfl⟩ := hline
  rcases h with ⟨d1, d2, d3, reason, -, -, -, rfl⟩ | ⟨method, hm, uri, hne, huri, hgood, rfl⟩
  · refine ⟨version, _, by rw [List.append_assoc]; rfl, ?_, Or.inl rfl⟩
    simp [crlf]
    omega
  · have hlen := two_le_length_words method (List.mem_append_right _ (hmethods hm))
    have hpos := List.length_pos_iff.mpr hne
    refine ⟨method, uri ++ space :: (version ++ (crlf ++ more)), by simp, ?_,
      Or.inr ⟨hm, uri, more, huri, hgood, rfl⟩⟩
    simp [crlf]
    omega

section Line

variable {m : Mbuf} {version word : List UInt8} {methods : List (List UInt8)}
  {goodUri : List UInt8 → Prop} {minLen : Nat} {rest : Nat → Reader Bool} {protocol : Protocol}

/-- The word is one of the tables', and what follows it in the buffer
follows it in the line. -/
theorem LineAt.spec (hversion : version ∈ versions) (hmethods : methods ⊆ methodWords)
    (hline : LineAt version methods goodUri word m.payload) :
    word ∈ words ∧ version.length + 7 ≤ m.payloadLen
      ∧ (∃ xs, m.room.drop m.headersLen = word ++ space :: xs)
      ∧ (word = version ∨ word ∈ methods ∧ ∃ uri more, space ∉ uri ∧ goodUri uri
        ∧ m.room.drop (m.headersLen + word.length + 1)
          = uri ++ space :: (version ++ (crlf ++ more))) := by
  obtain ⟨xs, hp, hmin, hword⟩ := hline
  obtain ⟨hroom, hpay⟩ := payload_spec (m := m) (by rw [hp]; simp)
  rw [hp, List.append_assoc, List.cons_append] at hroom
  refine ⟨?_, by omega, ⟨_, hroom⟩, ?_⟩
  · rcases hword with rfl | ⟨hm, -⟩
    · exact List.mem_append_left _ hversion
    · exact List.mem_append_right _ (hmethods hm)
  · refine hword.imp_right fun ⟨hm, uri, more, huri, hgood, hxs⟩ => ⟨hm, uri,
      more ++ m.tailroom, huri, hgood, ?_⟩
    rw [Nat.add_assoc, ← List.drop_drop, hroom, ← List.drop_drop, List.drop_left, hxs]
    simp

/-- A detector finds its own protocol. -/
theorem searchText_own (hversion : version ∈ versions) (hmethods : methods ⊆ methodWords)
    (hline : LineAt version methods goodUri word m.payload) (hlen : minLen ≤ version.length + 7)
    (hrest : ∀ off uri more, space ∉ uri → goodUri uri →
      m.room.drop off = uri ++ space :: (version ++ (crlf ++ more)) →
      (rest off).result m.room = some true) :
    (searchText minLen version methods (searchMethod rest) protocol m).result m.room
      = some protocol := by
  obtain ⟨hmem, hmin, ⟨xs, hroom⟩, hword⟩ := hline.spec hversion hmethods
  have hbehind : word ∈ methods →
      (rest (m.headersLen + word.length + 1)).result m.room = some true := by
    intro hm
    rcases hword with rfl | ⟨-, uri, more, huri, hgood, hdrop⟩
    · exact absurd (hmethods hm) (versions_not_methods _ hversion)
    · exact hrest _ uri more huri hgood hdrop
  rw [searchText_result (fun w hw => space_not_mem_words w (List.mem_append_right _ (hmethods hw)))
    (space_not_mem_words word hmem) hroom (versions_apart version hversion word hmem) hbehind,
    if_pos]
  refine ⟨by omega, ?_⟩
  rcases hword with rfl | ⟨hm, -⟩ <;> simp [*]

/-- A detector leaves another protocol's line alone. -/
theorem searchText_other {version' : List UInt8} {methods' : List (List UInt8)}
    (hversion : version ∈ versions) (hversion' : version' ∈ versions)
    (hmethods : methods ⊆ methodWords) (hmethods' : methods' ⊆ methodWords)
    (hne : version' ≠ version) (hline : LineAt version methods goodUri word m.payload)
    (hrest : ∀ off uri more, space ∉ uri → goodUri uri →
      m.room.drop off = uri ++ space :: (version ++ (crlf ++ more)) →
      (rest off).result m.room = some false) :
    (searchText minLen version' methods' (searchMethod rest) protocol m).result m.room
      = some .unknown := by
  obtain ⟨hmem, -, ⟨xs, hroom⟩, hword⟩ := hline.spec hversion hmethods
  have hbehind : word ∈ methods' →
      (rest (m.headersLen + word.length + 1)).result m.room = some false := by
    intro hm
    rcases hword with rfl | ⟨-, uri, more, huri, hgood, hdrop⟩
    · exact absurd (hmethods' hm) (versions_not_methods _ hversion)
    · exact hrest _ uri more huri hgood hdrop
  have hword' : version' ≠ word := by
    rcases hword with rfl | ⟨hm, -⟩
    · exact hne
    · rintro rfl
      exact versions_not_methods _ hversion' (hmethods hm)
  rw [searchText_result (fun w hw => space_not_mem_words w (List.mem_append_right _ (hmethods' hw)))
    (space_not_mem_words word hmem) hroom (versions_apart version' hversion' word hmem) hbehind,
    if_neg]
  simp [hword']

end Line

/-! ## RTP -/

/-- A payload whose first byte has its top bit set is no text. -/
theorem searchText_binary {m : Mbuf} {minLen : Nat} {version xs : List UInt8} {first : UInt8}
    {methods : List (List UInt8)} {rest : Nat → Reader Bool} {protocol : Protocol}
    (hversion : version ∈ versions) (hmethods : methods ⊆ methodWords)
    (hroom : m.room.drop m.headersLen = first :: xs) (hfirst : first &&& 0x80 ≠ 0) :
    (searchText minLen version methods (searchMethod rest) protocol m).result m.room
      = some .unknown := by
  have hmatch : ∀ w ∈ words, matchPrefix w (first :: xs) = some false := by
    intro w hw
    have hhead := words_head w hw
    match w, hhead with
    | c :: cs, hhead =>
        rw [matchPrefix, if_pos]
        rintro rfl
        exact hfirst (Option.some.inj hhead)
  have hmethod : ∀ w ∈ methods, (searchMethod rest m.headersLen w).result m.room = some false := by
    intro w hw
    rw [searchMethod, Reader.result_bind, startsWith_result w hroom,
      hmatch w (List.mem_append_right _ (hmethods hw))]
    rfl
  have hmethods : (searchMethods (searchMethod rest m.headersLen) methods).result m.room
      = some false := by
    have hfound : ∀ w ∈ methods, (searchMethod rest m.headersLen w).result m.room
        = if w = version then some false else some false := by
      intro w hw
      rw [hmethod w hw, ite_self]
    rw [searchMethods_result hfound, ite_self]
  unfold searchText
  split
  · rfl
  · rw [Reader.result_bind, startsWith_result version hroom,
      hmatch version (List.mem_append_left _ hversion)]
    simp only [Option.bind_some, Bool.false_eq_true, if_false, Reader.result_bind, hmethods,
      Reader.result_pure]

/-- The RTP detector leaves every line alone. -/
theorem searchRtp_text {m : Mbuf} {word xs : List UInt8} (hword : word ∈ words)
    (hroom : m.room.drop m.headersLen = word ++ space :: xs) :
    (searchRtp m).result m.room = some .unknown := by
  have hhead := words_head word hword
  match word, hhead with
  | c :: cs, hhead =>
      have hc : c &&& 0x80 = 0 := Option.some.inj hhead
      unfold searchRtp
      simp only []
      split
      · rfl
      · rw [Reader.result_bind, Reader.result_byte, getElem?_of_drop hroom]
        simp [hc]

/-- The top bit stands for the versions 2 and 3. -/
theorem rtpVersion_iff (first : UInt8) : ¬(first &&& 0x80 = 0) ↔ 2 ≤ first.toNat / 64 := by
  have := first.toNat_lt
  exact (Word.and_bit_ne_zero (k := 7) rfl).trans (by omega)

theorem rtpType_iff (second : UInt8) :
    ¬((34 < second &&& 0x7f ∧ second &&& 0x7f < 96) ∨ 127 < second &&& 0x7f)
      ↔ second.toNat % 128 ≤ 34 ∨ 96 ≤ second.toNat % 128 := by
  have hmask : (second &&& 0x7f).toNat = second.toNat % 128 := Word.toNat_and_mask (k := 7) rfl
  simp only [UInt8.lt_iff_toNat_lt, hmask, UInt8.reduceToNat]
  omega

theorem rtpHeaderLen_eq (first : UInt8) : rtpHeaderLen first = 12 + 4 * (first.toNat % 16) := by
  rw [rtpHeaderLen, Word.toNat_and_mask (k := 4) rfl]
  rfl

theorem searchRtp_packet {m : Mbuf} (h : RtpPacket m.payload) :
    (searchRtp m).result m.room = some .rtp := by
  obtain ⟨first, second, s0, s1, s2, s3, h0, h1, h8, h9, h10, h11, hver, htype, hssrc, hcsrc,
    hext⟩ := h
  have hne : m.payload ≠ [] := by
    intro hnil
    rw [hnil] at h0
    cases h0
  obtain ⟨-, hpay⟩ := payload_spec hne
  have hversion := (rtpVersion_iff first).mpr (Nat.le_of_eq hver.symm)
  have htype' := (rtpType_iff second).mpr htype
  have hheader := rtpHeaderLen_eq first
  have hextension : first &&& 0x10 ≠ 0 →
      (rtpExtension m.headersLen m.payloadLen (rtpHeaderLen first)).result m.room
        = some .rtp := by
    intro hx
    obtain ⟨words, hwords, hlen⟩ := hext ((Word.and_bit_ne_zero (k := 4) rfl).mp hx)
    have hbe : Reader.be16At m.room (m.headersLen + rtpHeaderLen first + 2) = some words := by
      rw [hheader, Nat.add_assoc]
      exact be16_of_payload hwords
    rw [rtpExtension, if_neg (by rw [hpay, hheader]; omega), Reader.result_bind,
      Reader.result_be16, hbe, Option.bind_some, if_neg]
    · rfl
    · have := Nat.mod_le (4 * words) (2 ^ 16)
      rw [hpay, hheader]
      omega
  have hroom : m.room[m.headersLen]? = some first := room_of_payload h0
  unfold searchRtp
  rw [if_neg (by rw [hpay]; omega)]
  simp only [Reader.result_bind, Reader.result_byte, hroom,
    room_of_payload h1, room_of_payload h8, room_of_payload h9, room_of_payload h10,
    room_of_payload h11, Option.bind_some, if_neg hversion, if_neg hssrc, if_neg htype']
  rw [if_neg (by rw [hpay, hheader]; omega)]
  by_cases hx : first &&& 0x10 ≠ 0
  · rw [if_pos hx, hextension hx]
  · rw [if_neg hx]
    rfl

/-! ## Analyze -/

theorem analyzeLoop_unknown {m : Mbuf} {search : Mbuf → Reader Protocol}
    {methods : List (Mbuf → Reader Protocol)}
    (h : (search m).result m.room = some .unknown) :
    (analyzeLoop m (search :: methods) .unknown).result m.room
      = (analyzeLoop m methods .unknown).result m.room := by
  rw [analyzeLoop, if_pos rfl, Reader.result_bind, h, Option.bind_some]

theorem analyzeLoop_claimed {m : Mbuf} {search : Mbuf → Reader Protocol}
    {methods : List (Mbuf → Reader Protocol)} {q : Protocol} (hq : q ≠ .unknown)
    (h : (search m).result m.room = some q) :
    (analyzeLoop m (search :: methods) .unknown).result m.room = some q := by
  rw [analyzeLoop, if_pos rfl, Reader.result_bind, h, Option.bind_some]
  cases methods with
  | nil => rfl
  | cons search' methods =>
      rw [analyzeLoop, if_neg hq]
      rfl

theorem httpMethods_subset : httpMethods ⊆ methodWords :=
  List.subset_append_of_subset_left _ (List.subset_append_left _ _)

theorem sipMethods_subset : sipMethods ⊆ methodWords :=
  List.subset_append_of_subset_left _ (List.subset_append_right _ _)

theorem rtspMethods_subset : rtspMethods ⊆ methodWords := List.subset_append_right _ _

/-- An RTSP URI fails the comparison with the SIP scheme at its first
byte. -/
theorem sipScheme_rtspUri {f uri xs : List UInt8} {off : Nat} (huri : HasScheme rtspPrefixLo uri)
    (h : f.drop off = uri ++ xs) :
    (startsWithEither sipPrefixUp sipPrefixLo off).result f = some false := by
  match uri, huri with
  | b :: uri, huri =>
      have hb : lower b = 114 := (List.cons.inj huri).1
      rw [List.cons_append] at h
      refine startsWithEither_false ?_ ?_ h
      · rintro rfl
        exact absurd hb (by decide)
      · rintro rfl
        exact absurd hb (by decide)

theorem ownScheme {f uri xs : List UInt8} {off : Nat} (up : List UInt8)
    (hup : up.any isLower = false) (huri : HasScheme (up.map lower) uri)
    (h : f.drop off = uri ++ xs) :
    (startsWithEither up (up.map lower) off).result f = some true := by
  have hsplit : f.drop off
      = uri.take (up.map lower).length ++ (uri.drop (up.map lower).length ++ xs) := by
    rw [h, ← List.append_assoc, List.take_append_drop]
  exact startsWithEither_true hup huri hsplit

/-- A payload that is a message of one protocol is classified as this
one: no detector in front of its own takes it, and its own does. -/
theorem analyze_speaks {m : Mbuf} {q : Protocol} (h : Speaks m.payload q) :
    m.analyze = some q := by
  have hhttp : httpVersion ∈ versions := by decide
  have hsip : sipVersion ∈ versions := by decide
  have hrtsp : rtspVersion ∈ versions := by decide
  have hfuel : m.room.length < m.room.length + 1 := Nat.lt_succ_self _
  unfold Mbuf.analyze analyze
  cases q with
  | http =>
      obtain ⟨line, hpre, hline⟩ := h
      obtain ⟨word, hword⟩ := lineAt_of_line httpMethods_subset hpre hline
      refine analyzeLoop_claimed (by decide) ?_
      refine searchText_own hhttp httpMethods_subset hword (by decide) ?_
      exact fun off uri more huri _ hdrop => httpRest_result hhttp huri hfuel hdrop
  | sip =>
      obtain ⟨line, hpre, hline⟩ := h
      obtain ⟨word, hword⟩ := lineAt_of_line sipMethods_subset hpre hline
      rw [analyzeLoop_unknown]
      · refine analyzeLoop_claimed (by decide) ?_
        refine searchText_own hsip sipMethods_subset hword (by decide) ?_
        exact fun off uri more _ hscheme hdrop => ownScheme sipPrefixUp (by decide) hscheme hdrop
      · refine searchText_other hsip hhttp sipMethods_subset httpMethods_subset (by decide) hword ?_
        exact fun off uri more huri _ hdrop => httpRest_result hsip huri hfuel hdrop
  | rtp =>
      obtain ⟨first, second, _, _, _, _, h0, _, _, _, _, _, hver, _⟩ := id h
      have hne : m.payload ≠ [] := by
        intro hnil
        rw [hnil] at h0
        cases h0
      have hbit : first &&& 0x80 ≠ 0 := (rtpVersion_iff first).mpr (Nat.le_of_eq hver.symm)
      obtain ⟨xs, hxs⟩ : ∃ xs, m.payload = first :: xs :=
        ⟨_, List.eq_cons_of_mem_head? (by rwa [← List.head?_eq_getElem?] at h0)⟩
      have hroom := (payload_spec hne).1
      rw [hxs] at hroom
      rw [analyzeLoop_unknown, analyzeLoop_unknown]
      · exact analyzeLoop_claimed (by decide) (searchRtp_packet h)
      · exact searchText_binary hsip sipMethods_subset hroom hbit
      · exact searchText_binary hhttp httpMethods_subset hroom hbit
  | rtsp =>
      obtain ⟨line, hpre, hline⟩ := h
      obtain ⟨word, hword⟩ := lineAt_of_line rtspMethods_subset hpre hline
      obtain ⟨hmem, -, ⟨xs, hroom⟩, -⟩ := hword.spec hrtsp rtspMethods_subset
      rw [analyzeLoop_unknown, analyzeLoop_unknown, analyzeLoop_unknown (searchRtp_text hmem hroom)]
      · refine analyzeLoop_claimed (by decide) ?_
        refine searchText_own hrtsp rtspMethods_subset hword (by decide) ?_
        exact fun off uri more _ hscheme hdrop => ownScheme rtspPrefixUp (by decide) hscheme hdrop
      · refine searchText_other hrtsp hsip rtspMethods_subset sipMethods_subset (by decide) hword ?_
        exact fun off uri more _ hscheme hdrop => sipScheme_rtspUri hscheme hdrop
      · refine searchText_other hrtsp hhttp rtspMethods_subset httpMethods_subset (by decide)
          hword ?_
        exact fun off uri more huri _ hdrop => httpRest_result hrtsp huri hfuel hdrop
  | unknown => exact h.elim

/-- The one method all three text protocols share. -/
def optionsMbuf : Mbuf where
  headroom := []
  room := List.replicate 42 0 ++ ascii "OPTIONS RtSp://h RTSP/1.0\x0d\x0a"
  pktLen := 69
  l2Len := 14
  l3Len := 20
  l4Len := 8
  pktLen_le := by decide
  size_lt := by decide

theorem analyze_optionsMbuf : optionsMbuf.analyze = some .rtsp := by
  refine analyze_speaks ⟨ascii "OPTIONS RtSp://h RTSP/1.0\x0d\x0a", by decide +kernel, Or.inr ?_⟩
  exact ⟨ascii "OPTIONS", by decide, ascii "RtSp://h", by decide, by decide, rfl, by decide⟩

end Yapas
