import Yapas.Analyze

/-!
# Exactness of the HTTP and RTP detectors

A detector is exact on a packet when it inspects the bytes of its
payload only, recognises just the payloads it is for, and does not
depend on what follows the packet in its buffer (`Exact`).

`exact_iff` reduces this to one run on the frame alone. Every detector
only goes forward from the headers' end (`StrictFrom`), so it stays
inside the packet where a run on the frame has a result, and then runs
alike on the whole buffer.
-/

namespace Yapas

/-! ## A detector on the frame alone -/

/-- The same frame and header lengths, in another buffer. -/
def Mbuf.SamePacket (m m' : Mbuf) : Prop :=
  m'.data = m.data ∧ m'.l2Len = m.l2Len ∧ m'.l3Len = m.l3Len ∧ m'.l4Len = m.l4Len

theorem Mbuf.SamePacket.headersLen_eq {m m' : Mbuf} (h : m.SamePacket m') :
    m'.headersLen = m.headersLen := by
  obtain ⟨-, h2, h3, h4⟩ := h
  rw [Mbuf.headersLen, Mbuf.headersLen, h2, h3, h4]

theorem Mbuf.SamePacket.pktLen_eq {m m' : Mbuf} (h : m.SamePacket m') : m'.pktLen = m.pktLen := by
  rw [← m'.length_data, h.1, m.length_data]

theorem Mbuf.SamePacket.payload_eq {m m' : Mbuf} (h : m.SamePacket m') :
    m'.payload = m.payload := by
  rw [Mbuf.payload, Mbuf.payload, h.1, h.headersLen_eq]

/-- `q` for the payloads it is for, and unknown for the others. -/
def Answers (q : Protocol) (spec : List UInt8 → Prop) (p : List UInt8) (r : Option Protocol) :
    Prop :=
  (spec p ∧ r = some q) ∨ (¬ spec p ∧ r = some .unknown)

/-- A check that ends with unknown, which no payload that is meant
fails. -/
theorem Answers.guard {q : Protocol} {spec : List UInt8 → Prop} {p f : List UInt8} {c : Prop}
    [Decidable c] {rest : Reader Protocol} (hpass : spec p → ¬ c)
    (hrest : ¬ c → Answers q spec p (rest.result f)) :
    Answers q spec p ((if c then pure .unknown else rest).result f) := by
  by_cases hc : c
  · rw [if_pos hc]
    exact Or.inr ⟨fun hp => hpass hp hc, rfl⟩
  · rw [if_neg hc]
    exact hrest hc

theorem Answers.unique {q : Protocol} {spec : List UInt8 → Prop} {p : List UInt8}
    {r r' : Option Protocol} (h : Answers q spec p r) (h' : Answers q spec p r') : r' = r := by
  rcases h with ⟨hp, rfl⟩ | ⟨hp, rfl⟩
  · exact h'.elim And.right fun h' => absurd hp h'.1
  · exact h'.elim (fun h' => absurd h'.1 hp) And.right

structure Exact (search : Mbuf → Reader Protocol) (q : Protocol) (spec : List UInt8 → Prop)
    (m : Mbuf) : Prop where
  inside : ∀ i ∈ (search m).reads m.room, m.headersLen ≤ i ∧ i < m.pktLen
  answer : Answers q spec m.payload ((search m).result m.room)
  alone : ∀ m', m.SamePacket m' → (search m').result m'.room = (search m).result m.room

theorem take_data (m : Mbuf) : m.room.take m.pktLen = m.data.take m.pktLen := by
  rw [Mbuf.data, List.take_take, Nat.min_self]

section Exact

variable {search : Mbuf → Reader Protocol} {q : Protocol} {spec : List UInt8 → Prop} {m : Mbuf}

/-- A run on the frame that has a result is a run on the buffer. -/
theorem run_of_data (hstrict : (search m).StrictFrom m.headersLen m.data)
    (h : ((search m).result m.data).isSome) :
    (search m).run m.room = (search m).run m.data
      ∧ ∀ i ∈ (search m).reads m.data, m.headersLen ≤ i ∧ i < m.pktLen := by
  have hwithin : (search m).Within m.pktLen m.data := by
    rw [← m.length_data]
    exact hstrict.1.mp h
  exact ⟨Reader.run_of_take_eq hwithin (take_data m).symm,
    fun i hi => ⟨hstrict.2 i hi, hwithin i hi⟩⟩

/-- What decides the answer on the frame alone decides whether the
detector is exact. -/
theorem exact_iff (cond : List UInt8 → Prop)
    (hstrict : ∀ m, (search m).StrictFrom m.headersLen m.data)
    (hcond : ∀ m, m.headersLen ≤ m.pktLen →
      (Answers q spec m.payload ((search m).result m.data) ↔ cond m.payload))
    (h : m.headersLen ≤ m.pktLen) : Exact search q spec m ↔ cond m.payload := by
  have hroom : ∀ m', Answers q spec m'.payload ((search m').result m'.data) →
      (search m').run m'.room = (search m').run m'.data
        ∧ ∀ i ∈ (search m').reads m'.data, m'.headersLen ≤ i ∧ i < m'.pktLen := by
    intro m' h
    refine run_of_data (hstrict m') ?_
    rcases h with ⟨-, h⟩ | ⟨-, h⟩ <;> rw [h] <;> rfl
  rw [← hcond m h]
  constructor
  · intro hexact
    have hrun : (search m).run m.data = (search m).run m.room :=
      Reader.run_of_take_eq (fun i hi => (hexact.inside i hi).2) (take_data m)
    have hresult : (search m).result m.data = (search m).result m.room := congrArg Prod.snd hrun
    rw [hresult]
    exact hexact.answer
  · intro hans
    obtain ⟨hrun, hinside⟩ := hroom m hans
    have hresult : (search m).result m.room = (search m).result m.data := congrArg Prod.snd hrun
    have hreads : (search m).reads m.room = (search m).reads m.data := congrArg Prod.fst hrun
    refine ⟨hreads ▸ hinside, hresult ▸ hans, fun m' hm' => ?_⟩
    -- the condition is on the payload, which the other buffer has too
    have h' : m'.headersLen ≤ m'.pktLen := by rwa [hm'.headersLen_eq, hm'.pktLen_eq]
    have hans' : Answers q spec m'.payload ((search m').result m'.data) := by
      rw [hcond m' h', hm'.payload_eq]
      exact (hcond m h).mp hans
    have hresult' : (search m').result m'.room = (search m').result m'.data :=
      congrArg Prod.snd (hroom m' hans').1
    rw [hresult', hresult]
    exact hans.unique (hm'.payload_eq ▸ hans')

end Exact

/-! ## Going forward -/

theorem startsWith_strictFrom (f : List UInt8) : ∀ (text : List UInt8) (off : Nat),
    (startsWith text off).StrictFrom off f
  | [], off => Reader.strictFrom_pure _ off f
  | c :: cs, off => by
      rw [startsWith]
      refine (Reader.strictFrom_byte (Nat.le_refl off) f).bind fun b _ => ?_
      split
      · exact Reader.strictFrom_pure _ off f
      · exact (startsWith_strictFrom f cs (off + 1)).mono (Nat.le_succ off)

theorem le_of_skipToSpace {f : List UInt8} : ∀ {fuel off off' : Nat},
    (skipToSpace fuel off).result f = some off' → off ≤ off'
  | 0, _, _, h => by cases h
  | fuel + 1, off, off', h => by
      rw [skipToSpace, Reader.result_bind, Option.bind_eq_some_iff] at h
      obtain ⟨b, -, h⟩ := h
      split at h
      · exact Nat.le_of_succ_le (le_of_skipToSpace h)
      · obtain rfl := Option.some.inj h
        exact Nat.le_succ off

/-- The loop ends inside the frame, or the fuel lasts to the frame's end. -/
theorem skipToSpace_strictFrom {f : List UInt8} : ∀ {fuel off : Nat}, f.length ≤ off + fuel →
    (skipToSpace (fuel + 1) off).StrictFrom off f := by
  intro fuel off hfuel
  rw [skipToSpace]
  refine (Reader.strictFrom_byte (Nat.le_refl off) f).bind fun b hb => ?_
  split
  · have hoff : off < f.length := (List.getElem?_eq_some_iff.mp hb).1
    cases fuel with
    | zero => omega
    | succ fuel => exact (skipToSpace_strictFrom (by omega)).mono (Nat.le_succ off)
  · exact Reader.strictFrom_pure _ off f

theorem httpRest_strictFrom {f : List UInt8} {fuel off : Nat} (hfuel : f.length ≤ off + fuel) :
    (httpRest (fuel + 1) off).StrictFrom off f :=
  (skipToSpace_strictFrom hfuel).bind fun off' h =>
    (startsWith_strictFrom f httpVersion off').mono (le_of_skipToSpace h)

theorem searchMethods_strictFrom {f : List UInt8} {search : List UInt8 → Reader Bool} {off : Nat} :
    ∀ {methods : List (List UInt8)}, (∀ method, (search method).StrictFrom off f) →
    (searchMethods search methods).StrictFrom off f
  | [], _ => Reader.strictFrom_pure _ off f
  | method :: methods, h => by
      rw [searchMethods]
      refine (h method).bind fun b _ => ?_
      split
      · exact Reader.strictFrom_pure _ off f
      · exact searchMethods_strictFrom h

/-- A text detector goes forward from the headers' end if what it looks
at behind a method does. -/
theorem searchText_strictFrom {m : Mbuf} {minLen : Nat} {version : List UInt8}
    {methods : List (List UInt8)} {rest : Nat → Reader Bool} {q : Protocol}
    (hrest : ∀ off, m.headersLen ≤ off → (rest off).StrictFrom m.headersLen m.data) :
    (searchText minLen version methods (searchMethod rest) q m).StrictFrom
      m.headersLen m.data := by
  have hmethod : ∀ method,
      (searchMethod rest m.headersLen method).StrictFrom m.headersLen m.data := by
    intro method
    rw [searchMethod]
    refine (startsWith_strictFrom _ method _).bind fun b _ => ?_
    split
    · refine (Reader.strictFrom_byte (Nat.le_add_right _ _) _).bind fun b _ => ?_
      split
      · exact Reader.strictFrom_pure _ _ _
      · exact hrest _ (by omega)
    · exact Reader.strictFrom_pure _ _ _
  unfold searchText
  split
  · exact Reader.strictFrom_pure _ _ _
  · refine (startsWith_strictFrom _ version _).bind fun b _ => ?_
    split
    · exact Reader.strictFrom_pure _ _ _
    · refine (searchMethods_strictFrom hmethod).bind fun b _ => ?_
      split <;> exact Reader.strictFrom_pure _ _ _

theorem searchHttp_strictFrom (m : Mbuf) : (searchHttp m).StrictFrom m.headersLen m.data := by
  have hlen : m.data.length ≤ m.room.length := by
    rw [m.length_data]
    exact m.pktLen_le
  exact searchText_strictFrom fun off hoff => (httpRest_strictFrom (by omega)).mono hoff

/-! ## HTTP -/

/-- The payload starts with the version, or with a method, a space, an
address, a space and the version. -/
def HttpPayload (p : List UInt8) : Prop :=
  15 ≤ p.length ∧ (httpVersion <+: p ∨ ∃ method ∈ httpMethods, ∃ uri, space ∉ uri
    ∧ method ++ space :: (uri ++ space :: httpVersion) <+: p)

/-- Behind the method no space comes, or the payload ends within the
version. -/
def RunsOver (xs : List UInt8) : Prop :=
  space ∉ xs ∨ ∃ uri ys, space ∉ uri ∧ xs = uri ++ space :: ys
    ∧ ys <+: httpVersion ∧ ys ≠ httpVersion

theorem matchPrefix_eq : ∀ text xs : List UInt8, matchPrefix text xs
    = if xs <+: text ∧ xs ≠ text then none else some (decide (text <+: xs))
  | [], xs => by simp [matchPrefix]
  | c :: cs, [] => by simp [matchPrefix]
  | c :: cs, x :: xs => by
      rw [matchPrefix]
      by_cases hx : x = c
      · rw [if_neg (not_not_intro hx), matchPrefix_eq cs xs]
        simp [List.cons_prefix_cons, hx]
      · rw [if_pos hx]
        simp [List.cons_prefix_cons, hx, Ne.symm hx]

/-- On a payload longer than a method, the method test does not leave
it before the rest of the check. -/
theorem searchMethod_payload {f p method : List UInt8} {off : Nat} (rest : Nat → Reader Bool)
    (h : f.drop off = p) (hlen : method.length < p.length) :
    (searchMethod rest off method).result f = if method ++ [space] <+: p then
      (rest (off + method.length + 1)).result f else some false := by
  have hnone : ¬ (p <+: method ∧ p ≠ method) :=
    fun hpre => Nat.not_lt_of_le hpre.1.length_le hlen
  rw [searchMethod, Reader.result_bind, startsWith_result method h, matchPrefix_eq, if_neg hnone,
    Option.bind_some]
  by_cases hpre : method <+: p
  · obtain ⟨t, rfl⟩ := hpre
    cases t with
    | nil => simp at hlen
    | cons b t =>
        have hnext : f.drop (off + method.length) = b :: t := by
          rw [← List.drop_drop, h, List.drop_left]
        simp only [List.prefix_append, decide_true, if_true, Reader.result_bind,
          Reader.result_byte, getElem?_of_drop hnext, List.head?_cons, Option.bind_some,
          List.prefix_append_right_inj, List.cons_prefix_cons, List.nil_prefix, and_true]
        by_cases hb : b = space
        · rw [if_neg (not_not_intro hb), if_pos hb.symm]
        · rw [if_pos hb, if_neg (Ne.symm hb)]
          rfl
  · have hnot : ¬ method ++ [space] <+: p := fun h => hpre ((List.prefix_append _ _).trans h)
    simp [hpre, hnot]

theorem skipToSpace_none {f : List UInt8} : ∀ {fuel off : Nat} {xs : List UInt8},
    space ∉ xs → f.drop off = xs → (skipToSpace fuel off).result f = none
  | 0, _, _, _, _ => rfl
  | fuel + 1, off, [], _, h => by
      rw [skipToSpace, Reader.result_bind, Reader.result_byte, getElem?_of_drop h]
      rfl
  | fuel + 1, off, b :: xs, hmem, h => by
      rw [List.mem_cons, not_or] at hmem
      rw [skipToSpace, Reader.result_bind, Reader.result_byte, getElem?_of_drop h,
        List.head?_cons, Option.bind_some, if_pos (Ne.symm hmem.1)]
      exact skipToSpace_none hmem.2 (drop_succ_of_drop h)

/-- A list is cut at the first space in one way only. -/
theorem append_space_inj : ∀ {xs ys zs ws : List UInt8}, space ∉ xs → space ∉ ys →
    xs ++ space :: zs = ys ++ space :: ws → xs = ys ∧ zs = ws
  | [], [], _, _, _, _, h => ⟨rfl, (List.cons.inj h).2⟩
  | [], y :: ys, _, _, _, hy, h => absurd (List.cons.inj h).1 fun h => hy (by simp [h])
  | x :: xs, [], _, _, hx, _, h => absurd (List.cons.inj h).1.symm fun h => hx (by simp [h])
  | x :: xs, y :: ys, zs, ws, hx, hy, h => by
      rw [List.mem_cons, not_or] at hx hy
      obtain ⟨rfl, htail⟩ := List.cons.inj h
      obtain ⟨rfl, rfl⟩ := append_space_inj hx.2 hy.2 htail
      exact ⟨rfl, rfl⟩

/-- The rest of the check recognises the version behind the address. -/
theorem httpRest_payload {f xs : List UInt8} {fuel off : Nat} (hfuel : f.length < fuel)
    (h : f.drop off = xs) :
    (RunsOver xs ∧ (httpRest fuel off).result f = none)
      ∨ ∃ b, (httpRest fuel off).result f = some b ∧ ¬ RunsOver xs
        ∧ (b = true ↔ ∃ uri, space ∉ uri ∧ uri ++ space :: httpVersion <+: xs) := by
  by_cases hmem : space ∈ xs
  · obtain ⟨uri, ys, rfl, huri⟩ := List.eq_append_cons_of_mem hmem
    have hlen := congrArg List.length h
    rw [List.length_drop, List.length_append] at hlen
    have hskip : (skipToSpace fuel off).result f = some (off + uri.length + 1) :=
      skipToSpace_result huri (by omega) h
    have hnext : f.drop (off + uri.length + 1) = ys := by
      rw [← List.drop_drop, ← List.drop_drop, h, List.drop_left]
      rfl
    have hruns : RunsOver (uri ++ space :: ys) ↔ ys <+: httpVersion ∧ ys ≠ httpVersion := by
      constructor
      · rintro (hnot | ⟨uri', ys', huri', heq, hpre⟩)
        · exact absurd hmem hnot
        · obtain ⟨rfl, rfl⟩ := append_space_inj huri huri' heq
          exact hpre
      · intro hpre
        exact Or.inr ⟨uri, ys, huri, rfl, hpre⟩
    rw [httpRest, Reader.result_bind, hskip, Option.bind_some, startsWith_result _ hnext,
      matchPrefix_eq, hruns]
    by_cases hpre : ys <+: httpVersion ∧ ys ≠ httpVersion
    · exact Or.inl ⟨hpre, if_pos hpre⟩
    · refine Or.inr ⟨_, if_neg hpre, hpre, ?_⟩
      rw [decide_eq_true_eq]
      constructor
      · rintro ⟨zs, rfl⟩
        exact ⟨uri, huri, zs, by simp⟩
      · rintro ⟨uri', huri', zs, heq⟩
        rw [List.append_assoc, List.cons_append] at heq
        obtain ⟨-, rfl⟩ := append_space_inj huri huri' heq.symm
        exact List.prefix_append _ _
  · refine Or.inl ⟨Or.inl hmem, ?_⟩
    rw [httpRest, Reader.result_bind, skipToSpace_none hmem h]
    rfl

/-- At most one method stands in front of the payload's first space. -/
theorem append_space_prefix_iff {method word xs : List UInt8} (hmethod : space ∉ method)
    (hword : space ∉ word) : method ++ [space] <+: word ++ space :: xs ↔ method = word := by
  constructor
  · rintro ⟨ys, heq⟩
    rw [List.append_assoc, List.singleton_append] at heq
    exact (append_space_inj hmethod hword heq).1
  · rintro rfl
    exact ⟨xs, by simp⟩

theorem payloadLen_eq_length {m : Mbuf} (h : m.headersLen ≤ m.pktLen) :
    m.payloadLen = m.payload.length := by
  rw [Mbuf.payloadLen_eq h, Mbuf.payload, List.length_drop, m.length_data]

/-! ## A text detector on the frame alone -/

section Text

variable {f p method xs : List UInt8} {off : Nat} {methods : List (List UInt8)}

/-- Behind a method, what the chain of tests says is what the rest of
the check says. -/
theorem searchMethods_request (rest : Nat → Reader Bool) (hspace : ∀ w ∈ methods, space ∉ w)
    (hlong : ∀ w ∈ methods, w.length < p.length) (hmethod : method ∈ methods)
    (hp : p = method ++ space :: xs) (hf : f.drop off = p) :
    (searchMethods (searchMethod rest off) methods).result f
      = (rest (off + method.length + 1)).result f := by
  have hword : ∀ w ∈ methods, (searchMethod rest off w).result f = if w = method then
      (rest (off + method.length + 1)).result f else some false := by
    intro w hw
    have hiff : w ++ [space] <+: p ↔ w = method := by
      rw [hp]
      exact append_space_prefix_iff (hspace w hw) (hspace method hmethod)
    rw [searchMethod_payload rest hf (hlong w hw)]
    by_cases heq : w = method
    · rw [if_pos (hiff.mpr heq), if_pos heq, heq]
    · rw [if_neg fun hpre => heq (hiff.mp hpre), if_neg heq]
  rw [searchMethods_result hword, if_pos hmethod]

theorem searchMethods_noRequest (rest : Nat → Reader Bool)
    (hlong : ∀ w ∈ methods, w.length < p.length)
    (hp : ∀ method ∈ methods, ∀ xs, p ≠ method ++ space :: xs) (hf : f.drop off = p) :
    (searchMethods (searchMethod rest off) methods).result f = some false := by
  have hword : ∀ w ∈ methods, (searchMethod rest off w).result f
      = if w = [] then some false else some false := by
    intro w hw
    rw [searchMethod_payload rest hf (hlong w hw), ite_self, if_neg]
    rintro ⟨xs, heq⟩
    exact hp w hw xs (by rw [← heq, List.append_assoc, List.singleton_append])
  rw [searchMethods_result hword, ite_self]

/-- A payload that is long enough is searched for the version, and
without it for a method. -/
theorem searchText_data {m : Mbuf} {minLen : Nat} {version : List UInt8} {q : Protocol}
    (search : Nat → List UInt8 → Reader Bool) (h : m.headersLen ≤ m.pktLen)
    (hversion : version.length ≤ minLen) :
    (searchText minLen version methods search q m).result m.data =
      if m.payload.length < minLen then some .unknown
      else if version <+: m.payload then some q
      else ((searchMethods (search m.headersLen) methods).result m.data).map
        fun b => if b then q else .unknown := by
  have hlen := payloadLen_eq_length h
  rw [searchText, hlen]
  by_cases hshort : m.payload.length < minLen
  · rw [if_pos hshort, if_pos hshort]
    rfl
  have hnone : ¬ (m.payload <+: version ∧ m.payload ≠ version) := by
    rintro ⟨hpre, hne⟩
    exact hne (hpre.eq_of_length_le (by omega))
  rw [if_neg hshort, if_neg hshort, Reader.result_bind, startsWith_result _ rfl, matchPrefix_eq,
    ← Mbuf.payload, if_neg hnone, Option.bind_some]
  by_cases hpre : version <+: m.payload
  · rw [decide_eq_true hpre, if_pos rfl, if_pos hpre]
    rfl
  rw [decide_eq_false hpre, if_neg Bool.false_ne_true, if_neg hpre, Reader.result_bind]
  cases (searchMethods (search m.headersLen) methods).result m.data with
  | none => rfl
  | some b =>
      cases b with
      | true => rfl
      | false => rfl

end Text

/-! ## HTTP payloads -/

theorem space_not_mem_httpMethods : ∀ method ∈ httpMethods, space ∉ method :=
  fun method h => space_not_mem_words method (List.mem_append_right _ (httpMethods_subset h))

theorem length_httpMethods : ∀ method ∈ httpMethods, method.length ≤ 7 := by decide

/-- The payload is too short, or there is an end to what is read behind
its method. -/
def StaysInside (p : List UInt8) : Prop :=
  p.length < 15 ∨ ∀ method ∈ httpMethods, ∀ xs, p = method ++ space :: xs → ¬ RunsOver xs

section Http

variable {m : Mbuf}

theorem space_not_mem_httpVersion : space ∉ httpVersion := by decide

/-- A response is no request. -/
theorem not_request_of_version {p method xs : List UInt8} (hversion : httpVersion <+: p)
    (hmethod : method ∈ httpMethods) : p ≠ method ++ space :: xs := by
  rintro rfl
  have hlen := length_httpMethods method hmethod
  have hpre : method ++ [space] <+: httpVersion := by
    refine List.prefix_of_prefix_length_le ⟨xs, by simp⟩ hversion ?_
    rw [List.length_append, List.length_singleton]
    exact Nat.succ_le_succ hlen
  exact space_not_mem_httpVersion (hpre.subset (by simp))

theorem httpPayload_request {method xs : List UInt8} (hmethod : method ∈ httpMethods)
    (hlong : 15 ≤ (method ++ space :: xs).length) : HttpPayload (method ++ space :: xs)
      ↔ ∃ uri, space ∉ uri ∧ uri ++ space :: httpVersion <+: xs := by
  have hspace := space_not_mem_httpMethods
  constructor
  · rintro ⟨-, hversion | ⟨method', hmethod', uri, huri, zs, heq⟩⟩
    · exact absurd rfl (not_request_of_version hversion hmethod)
    · rw [List.append_assoc, List.cons_append] at heq
      obtain ⟨-, rfl⟩ := append_space_inj (hspace _ hmethod') (hspace _ hmethod) heq
      exact ⟨uri, huri, List.prefix_append _ _⟩
  · rintro ⟨uri, huri, zs, rfl⟩
    exact ⟨hlong, Or.inr ⟨method, hmethod, uri, huri, zs, by simp⟩⟩

/-- What is HTTP is read to its version and no further. -/
theorem HttpPayload.staysInside {p : List UInt8} (h : HttpPayload p) : StaysInside p := by
  refine Or.inr fun method hmethod xs hp => ?_
  subst hp
  obtain ⟨uri, huri, zs, rfl⟩ := (httpPayload_request hmethod h.1).mp h
  rintro (hmem | ⟨uri', ys, huri', heq, hpre, hne⟩)
  · exact hmem (by simp)
  · rw [List.append_assoc, List.cons_append] at heq
    obtain ⟨-, rfl⟩ := append_space_inj huri huri' heq
    exact hne (hpre.eq_of_length_le (by simp))

theorem staysInside_request {method xs : List UInt8} (hmethod : method ∈ httpMethods)
    (hlong : 15 ≤ (method ++ space :: xs).length) :
    StaysInside (method ++ space :: xs) ↔ ¬ RunsOver xs := by
  constructor
  · rintro (hshort | hall)
    · exact absurd hshort (Nat.not_lt.mpr hlong)
    · exact hall method hmethod xs rfl
  · intro hxs
    refine Or.inr fun method' hmethod' xs' hp => ?_
    obtain ⟨-, rfl⟩ := append_space_inj (space_not_mem_httpMethods _ hmethod)
      (space_not_mem_httpMethods _ hmethod') hp
    exact hxs

theorem not_httpPayload {p : List UInt8} (hversion : ¬ httpVersion <+: p)
    (hno : ∀ method ∈ httpMethods, ∀ xs, p ≠ method ++ space :: xs) : ¬ HttpPayload p := by
  rintro ⟨-, hpre | ⟨method, hmethod, uri, -, zs, heq⟩⟩
  · exact hversion hpre
  · rw [List.append_assoc, List.cons_append] at heq
    exact hno method hmethod _ heq.symm

theorem searchHttp_data (h : m.headersLen ≤ m.pktLen) :
    Answers .http HttpPayload m.payload ((searchHttp m).result m.data)
      ↔ StaysInside m.payload := by
  have hfuel : m.data.length < m.room.length + 1 := by
    rw [m.length_data]
    exact Nat.lt_succ_of_le m.pktLen_le
  rw [searchHttp, searchText_data _ h (by decide)]
  by_cases hshort : m.payload.length < 15
  · rw [if_pos hshort]
    exact iff_of_true (Or.inr ⟨fun hp => Nat.not_le_of_lt hshort hp.1, rfl⟩) (Or.inl hshort)
  have hlong : 15 ≤ m.payload.length := Nat.le_of_not_lt hshort
  have hmethods : ∀ w ∈ httpMethods, w.length < m.payload.length := fun w hw =>
    Nat.lt_of_lt_of_le (Nat.lt_of_le_of_lt (length_httpMethods w hw) (by decide)) hlong
  rw [if_neg hshort]
  by_cases hversion : httpVersion <+: m.payload
  · rw [if_pos hversion]
    refine iff_of_true (Or.inl ⟨⟨hlong, Or.inl hversion⟩, rfl⟩) (Or.inr ?_)
    exact fun method hmethod xs hp => absurd hp (not_request_of_version hversion hmethod)
  rw [if_neg hversion, searchHttpMethod]
  by_cases hrequest : ∃ method ∈ httpMethods, ∃ xs, m.payload = method ++ space :: xs
  · obtain ⟨method, hmethod, xs, hp⟩ := hrequest
    have hxs : m.data.drop (m.headersLen + method.length + 1) = xs := by
      rw [Nat.add_assoc, ← List.drop_drop, ← Mbuf.payload, hp, ← List.drop_drop, List.drop_left]
      rfl
    have hstays := staysInside_request hmethod (hp ▸ hlong)
    have hspec := httpPayload_request hmethod (hp ▸ hlong)
    rw [searchMethods_request _ space_not_mem_httpMethods hmethods hmethod hp rfl, hp, hstays,
      Answers, hspec]
    rcases httpRest_payload hfuel hxs with ⟨hruns, hnone⟩ | ⟨b, hsome, hruns, hb⟩
    · rw [hnone]
      refine iff_of_false ?_ (not_not_intro hruns)
      rintro (⟨-, hr⟩ | ⟨-, hr⟩) <;> cases hr
    · rw [hsome, ← hb]
      refine iff_of_true ?_ hruns
      cases b with
      | true => exact Or.inl ⟨rfl, rfl⟩
      | false => exact Or.inr ⟨Bool.false_ne_true, rfl⟩
  · have hno : ∀ method ∈ httpMethods, ∀ xs, m.payload ≠ method ++ space :: xs :=
      fun method hmethod xs hp => hrequest ⟨method, hmethod, xs, hp⟩
    rw [searchMethods_noRequest _ hmethods hno rfl]
    exact iff_of_true (Or.inr ⟨not_httpPayload hversion hno, rfl⟩)
      (Or.inr fun method hmethod xs hp => absurd hp (hno method hmethod xs))

end Http

/-- The HTTP detector is exact on a packet exactly when the payload does
not let it run over. -/
theorem httpExact_iff {m : Mbuf} (h : m.headersLen ≤ m.pktLen) :
    Exact searchHttp .http HttpPayload m ↔ StaysInside m.payload :=
  exact_iff StaysInside searchHttp_strictFrom (fun _ => searchHttp_data) h

/-- A packet with 42 bytes of headers, and what lies behind it in its
buffer. -/
def packetMbuf (payload behind : List UInt8) (h : 42 + payload.length + behind.length < 2 ^ 16) :
    Mbuf where
  headroom := []
  room := List.replicate 42 0 ++ payload ++ behind
  pktLen := 42 + payload.length
  l2Len := 14
  l3Len := 20
  l4Len := 8
  pktLen_le := by
    simp only [List.length_append, List.length_replicate]
    omega
  size_lt := by
    simp only [List.length_append, List.length_replicate, List.length_nil, Nat.zero_add]
    exact h

section Packet

variable {payload behind : List UInt8} {h : 42 + payload.length + behind.length < 2 ^ 16}

theorem packetMbuf_headersLen : (packetMbuf payload behind h).headersLen = 42 := rfl

theorem packetMbuf_headersLen_le :
    (packetMbuf payload behind h).headersLen ≤ (packetMbuf payload behind h).pktLen :=
  Nat.le_add_right 42 payload.length

theorem packetMbuf_payload : (packetMbuf payload behind h).payload = payload := by
  have hdata : (packetMbuf payload behind h).data = List.replicate 42 0 ++ payload := by
    show (List.replicate 42 0 ++ payload ++ behind).take (42 + payload.length) = _
    exact List.take_left' (by rw [List.length_append, List.length_replicate])
  rw [Mbuf.payload, hdata, packetMbuf_headersLen]
  exact List.drop_left' List.length_replicate

end Packet

theorem httpExact_getRequest :
    Exact searchHttp .http HttpPayload (packetMbuf (ascii "GET /a HTTP/1.1") [] (by decide)) := by
  refine (httpExact_iff packetMbuf_headersLen_le).mpr ?_
  rw [packetMbuf_payload]
  refine HttpPayload.staysInside ⟨by decide, Or.inr ⟨ascii "GET", by decide, ascii "/a", ?_⟩⟩
  decide

/-- The address has no end, and what lies behind the packet decides. -/
theorem not_httpExact_openAddress :
    (searchHttp (packetMbuf (ascii "GET /index.html") (ascii " HTTP/1.1") (by decide))).result
        (packetMbuf (ascii "GET /index.html") (ascii " HTTP/1.1") (by decide)).room = some .http
      ∧ (searchHttp (packetMbuf (ascii "GET /index.html") [] (by decide))).result
        (packetMbuf (ascii "GET /index.html") [] (by decide)).room = none
      ∧ ¬ Exact searchHttp .http HttpPayload
        (packetMbuf (ascii "GET /index.html") (ascii " HTTP/1.1") (by decide)) := by
  refine ⟨by decide +kernel, by decide +kernel, fun h => ?_⟩
  have hread := h.inside 57 (by decide +kernel)
  exact Nat.lt_irrefl _ hread.2

/-! ## RTP -/

theorem searchRtp_strictFrom (m : Mbuf) : (searchRtp m).StrictFrom m.headersLen m.data := by
  have hbyte : ∀ i, (Reader.byte (m.headersLen + i)).StrictFrom m.headersLen m.data :=
    fun i => Reader.strictFrom_byte (Nat.le_add_right _ i) _
  have hpure : ∀ q : Protocol, (pure q : Reader Protocol).StrictFrom m.headersLen m.data :=
    fun q => Reader.strictFrom_pure q _ _
  unfold searchRtp
  simp only []
  split
  · exact hpure _
  refine (hbyte 0).bind fun first _ => ?_
  split
  · exact hpure _
  refine (hbyte 8).bind fun s0 _ => (hbyte 9).bind fun s1 _ => ?_
  refine (hbyte 10).bind fun s2 _ => (hbyte 11).bind fun s3 _ => ?_
  split
  · exact hpure _
  refine (hbyte 1).bind fun second _ => ?_
  split
  · exact hpure _
  split
  · exact hpure _
  split
  · rw [rtpExtension]
    split
    · exact hpure _
    refine (Reader.strictFrom_be16 (by omega) _).bind fun words _ => ?_
    simp only []
    split <;> exact hpure _
  · exact hpure _

/-- The checks on the fields of a header, once they have been read. -/
def RtpFields (version : Nat → Prop) (extBytes : Nat → Nat) (p : List UInt8)
    (first second s0 s1 s2 s3 : UInt8) : Prop :=
  version (first.toNat / 64)
    ∧ (second.toNat % 128 ≤ 34 ∨ 96 ≤ second.toNat % 128)
    ∧ ¬(s0 = 0 ∧ s1 = 0 ∧ s2 = 0 ∧ s3 = 0)
    ∧ 12 + 4 * (first.toNat % 16) ≤ p.length
    ∧ (first.toNat / 16 % 2 = 1 →
        ∃ words, Reader.be16At p (12 + 4 * (first.toNat % 16) + 2) = some words
          ∧ 12 + 4 * (first.toNat % 16) + 4 + extBytes words ≤ p.length)

/-- An RTP header with a version and an extension length, in bytes, as
`version` and `extBytes` take them. -/
def RtpHeader (version : Nat → Prop) (extBytes : Nat → Nat) (p : List UInt8) : Prop :=
  ∃ first second s0 s1 s2 s3, p[0]? = some first ∧ p[1]? = some second
    ∧ p[8]? = some s0 ∧ p[9]? = some s1 ∧ p[10]? = some s2 ∧ p[11]? = some s3
    ∧ RtpFields version extBytes p first second s0 s1 s2 s3

theorem rtpPacket_iff {p : List UInt8} : RtpPacket p ↔ RtpHeader (· = 2) (4 * ·) p := Iff.rfl

section Rtp

variable {version : Nat → Prop} {extBytes : Nat → Nat} {p : List UInt8} {m : Mbuf}
  {first second s0 s1 s2 s3 : UInt8}

theorem rtpHeader_iff (h0 : p[0]? = some first) (h1 : p[1]? = some second) (h8 : p[8]? = some s0)
    (h9 : p[9]? = some s1) (h10 : p[10]? = some s2) (h11 : p[11]? = some s3) :
    RtpHeader version extBytes p ↔ RtpFields version extBytes p first second s0 s1 s2 s3 := by
  constructor
  · rintro ⟨_, _, _, _, _, _, h0', h1', h8', h9', h10', h11', h⟩
    obtain rfl := Option.some.inj (h0.symm.trans h0')
    obtain rfl := Option.some.inj (h1.symm.trans h1')
    obtain rfl := Option.some.inj (h8.symm.trans h8')
    obtain rfl := Option.some.inj (h9.symm.trans h9')
    obtain rfl := Option.some.inj (h10.symm.trans h10')
    obtain rfl := Option.some.inj (h11.symm.trans h11')
    exact h
  · exact fun h => ⟨first, second, s0, s1, s2, s3, h0, h1, h8, h9, h10, h11, h⟩

theorem RtpHeader.length_ge (h : RtpHeader version extBytes p) : 12 ≤ p.length := by
  obtain ⟨_, _, _, _, _, _, -, -, -, -, -, h11, -⟩ := h
  exact (List.getElem?_eq_some_iff.mp h11).1

theorem be16At_isSome {b : List UInt8} {i : Nat} (h : i + 1 < b.length) :
    ∃ w, Reader.be16At b i = some w := by
  rw [Reader.be16At, List.getElem?_eq_getElem (Nat.lt_of_succ_lt h), List.getElem?_eq_getElem h]
  exact ⟨_, rfl⟩

/-- The part of the detector for an extension, on a payload that holds
the header in front of it. -/
theorem rtpExtension_data (h : m.headersLen ≤ m.pktLen) (minLen : Nat) :
    Answers .rtp (fun p => ∃ words, Reader.be16At p (minLen + 2) = some words
        ∧ minLen + 4 + 4 * words % 2 ^ 16 ≤ p.length) m.payload
      ((rtpExtension m.headersLen m.payloadLen minLen).result m.data) := by
  have hlen := payloadLen_eq_length h
  rw [rtpExtension]
  refine Answers.guard ?_ fun hshort => ?_
  · rintro ⟨words, -, hwords⟩
    omega
  obtain ⟨words, hwords⟩ := be16At_isSome (b := m.payload) (i := minLen + 2) (by omega)
  rw [Reader.result_bind, Reader.result_be16, Nat.add_assoc, Reader.be16At_drop, ← Mbuf.payload,
    hwords, Option.bind_some]
  refine Answers.guard ?_ fun hext => ?_
  · rintro ⟨words', hwords', hle⟩
    obtain rfl := Option.some.inj (hwords.symm.trans hwords')
    omega
  · exact Or.inl ⟨⟨words, hwords, by omega⟩, rfl⟩

/-- What the detector takes for RTP: any version with the higher bit
set, and the length of an extension reduced to sixteen bits. -/
theorem searchRtp_data (h : m.headersLen ≤ m.pktLen) :
    Answers .rtp (RtpHeader (2 ≤ ·) fun words => 4 * words % 2 ^ 16) m.payload
      ((searchRtp m).result m.data) := by
  have hlen := payloadLen_eq_length h
  unfold searchRtp
  refine Answers.guard (fun hp => ?_) fun hshort => ?_
  · have := hp.length_ge
    omega
  have hbyte : ∀ i, i < 12 → ∃ b, m.payload[i]? = some b ∧ m.data[m.headersLen + i]? = some b := by
    intro i hi
    have hlt : i < m.payload.length := by omega
    exact ⟨m.payload[i], List.getElem?_eq_getElem hlt,
      List.getElem?_drop.symm.trans (List.getElem?_eq_getElem hlt)⟩
  obtain ⟨first, h0, hd0⟩ := hbyte 0 (by omega)
  obtain ⟨second, h1, hd1⟩ := hbyte 1 (by omega)
  obtain ⟨s0, h8, hd8⟩ := hbyte 8 (by omega)
  obtain ⟨s1, h9, hd9⟩ := hbyte 9 (by omega)
  obtain ⟨s2, h10, hd10⟩ := hbyte 10 (by omega)
  obtain ⟨s3, h11, hd11⟩ := hbyte 11 (by omega)
  have hversion := rtpVersion_iff first
  have htype := rtpType_iff second
  rw [Nat.add_zero] at hd0
  have hheader : RtpHeader (2 ≤ ·) (fun words => 4 * words % 2 ^ 16) m.payload
      ↔ RtpFields (2 ≤ ·) (fun words => 4 * words % 2 ^ 16) m.payload first second s0 s1 s2 s3 :=
    rtpHeader_iff h0 h1 h8 h9 h10 h11
  simp only [Reader.result_bind, Reader.result_byte, hd0, Option.bind_some]
  refine Answers.guard (fun hp => hversion.mpr (hheader.mp hp).1) fun hv => ?_
  simp only [Reader.result_bind, Reader.result_byte, hd8, hd9, hd10, hd11, Option.bind_some]
  refine Answers.guard (fun hp => (hheader.mp hp).2.2.1) fun hs => ?_
  simp only [Reader.result_bind, Reader.result_byte, hd1, Option.bind_some]
  refine Answers.guard (fun hp => htype.mpr (hheader.mp hp).2.1) fun ht => ?_
  refine Answers.guard (fun hp hc => ?_) fun hc => ?_
  · have hcsrc := (hheader.mp hp).2.2.2.1
    rw [rtpHeaderLen_eq] at hc
    omega
  rw [rtpHeaderLen_eq] at hc
  by_cases hx : first &&& 0x10 ≠ 0
  · rw [if_pos hx]
    have hbit := (Word.and_bit_ne_zero (k := 4) rfl).mp hx
    have hextension := rtpExtension_data h (rtpHeaderLen first)
    rw [rtpHeaderLen_eq] at hextension ⊢
    rcases hextension with ⟨hext, hr⟩ | ⟨hext, hr⟩
    · exact Or.inl ⟨hheader.mpr ⟨hversion.mp hv, htype.mp ht, hs, by omega, fun _ => hext⟩, hr⟩
    · exact Or.inr ⟨fun hp => hext ((hheader.mp hp).2.2.2.2 hbit), hr⟩
  · rw [if_neg hx]
    have hbit : ¬ first.toNat / 16 % 2 = 1 :=
      fun h => hx ((Word.and_bit_ne_zero (k := 4) rfl).mpr h)
    refine Or.inl ⟨hheader.mpr ⟨hversion.mp hv, htype.mp ht, hs, by omega, fun h => ?_⟩, rfl⟩
    exact absurd h hbit

/-- The header passes with version 3, or with an extension too long for
sixteen bits. -/
def Misread (p : List UInt8) : Prop :=
  ∃ first second s0 s1 s2 s3, p[0]? = some first ∧ p[1]? = some second
    ∧ p[8]? = some s0 ∧ p[9]? = some s1 ∧ p[10]? = some s2 ∧ p[11]? = some s3
    ∧ RtpFields (2 ≤ ·) (fun words => 4 * words % 2 ^ 16) p first second s0 s1 s2 s3
    ∧ (first.toNat / 64 = 3 ∨ first.toNat / 16 % 2 = 1
      ∧ ∃ words, Reader.be16At p (12 + 4 * (first.toNat % 16) + 2) = some words
        ∧ 2 ^ 14 ≤ words)

theorem rtpHeader_of_packet (h : RtpPacket p) :
    RtpHeader (2 ≤ ·) (fun words => 4 * words % 2 ^ 16) p := by
  obtain ⟨_, _, _, _, _, _, h0, h1, h8, h9, h10, h11, hver, htype, hssrc, hcsrc, hext⟩ := h
  refine ⟨_, _, _, _, _, _, h0, h1, h8, h9, h10, h11, Nat.le_of_eq hver.symm, htype, hssrc, hcsrc,
    fun hx => ?_⟩
  obtain ⟨words, hwords, hlen⟩ := hext hx
  exact ⟨words, hwords, Nat.le_trans (Nat.add_le_add_left (Nat.mod_le _ _) _) hlen⟩

/-- What passes and is no RTP packet has been misread. -/
theorem misread_iff (hlen : p.length < 2 ^ 16) : Misread p
    ↔ RtpHeader (2 ≤ ·) (fun words => 4 * words % 2 ^ 16) p ∧ ¬ RtpPacket p := by
  constructor
  · rintro ⟨first, second, s0, s1, s2, s3, h0, h1, h8, h9, h10, h11, hfields, hbad⟩
    refine ⟨(rtpHeader_iff h0 h1 h8 h9 h10 h11).mpr hfields, fun hpacket => ?_⟩
    obtain ⟨hver, -, -, -, hext⟩ :=
      (rtpHeader_iff h0 h1 h8 h9 h10 h11).mp (rtpPacket_iff.mp hpacket)
    rcases hbad with hthree | ⟨hx, words, hwords, hlong⟩
    · rw [hver] at hthree
      cases hthree
    · obtain ⟨words', hwords', hle⟩ := hext hx
      obtain rfl := Option.some.inj (hwords.symm.trans hwords')
      have hle : 4 * words ≤ p.length := Nat.le_of_add_left_le hle
      omega
  · rintro ⟨hheader, hnot⟩
    obtain ⟨first, second, s0, s1, s2, s3, h0, h1, h8, h9, h10, h11, hfields⟩ := hheader
    refine ⟨first, second, s0, s1, s2, s3, h0, h1, h8, h9, h10, h11, hfields, ?_⟩
    obtain ⟨hver, htype, hssrc, hcsrc, hext⟩ := hfields
    have hbyte := first.toNat_lt
    by_contra hgood
    rw [not_or] at hgood
    refine hnot ⟨first, second, s0, s1, s2, s3, h0, h1, h8, h9, h10, h11, by omega, htype, hssrc,
      hcsrc, fun hx => ?_⟩
    obtain ⟨words, hwords, hle⟩ := hext hx
    have hshort : ¬ 2 ^ 14 ≤ words := fun hlong => hgood.2 ⟨hx, words, hwords, hlong⟩
    have hmod : 4 * words % 2 ^ 16 = 4 * words := Nat.mod_eq_of_lt (by omega)
    exact ⟨words, hwords, hmod ▸ hle⟩

end Rtp

/-- The RTP detector is exact on a packet exactly when it does not
misread its payload. -/
theorem rtpExact_iff {m : Mbuf} (h : m.headersLen ≤ m.pktLen) :
    Exact searchRtp .rtp RtpPacket m ↔ ¬ Misread m.payload := by
  refine exact_iff (fun p => ¬ Misread p) searchRtp_strictFrom (fun m h => ?_) h
  have hlen : m.payload.length < 2 ^ 16 := by
    have := m.pktLen_lt
    rw [Mbuf.payload, List.length_drop, m.length_data]
    omega
  rw [misread_iff hlen]
  rcases searchRtp_data h with ⟨hheader, hr⟩ | ⟨hheader, hr⟩
  · rw [hr]
    constructor
    · rintro (⟨hpacket, -⟩ | ⟨-, hr⟩)
      · exact fun hmis => hmis.2 hpacket
      · cases hr
    · exact fun hmis => Or.inl ⟨by_contra fun hnot => hmis ⟨hheader, hnot⟩, rfl⟩
  · rw [hr]
    refine iff_of_true (Or.inr ⟨fun hpacket => ?_, rfl⟩) fun hmis => hheader hmis.1
    exact hheader (rtpHeader_of_packet hpacket)

/-- A header with a source, a payload type and nothing else. -/
def rtpBytes (first : UInt8) (extension : List UInt8) : List UInt8 :=
  [first, 8, 0, 1, 0, 0, 0, 160, 0, 0, 0, 1] ++ extension

theorem rtpExact_extension :
    Exact searchRtp .rtp RtpPacket
      (packetMbuf (rtpBytes 0x90 [0, 0, 0, 1, 1, 2, 3, 4]) [] (by decide)) := by
  refine (rtpExact_iff packetMbuf_headersLen_le).mpr ?_
  rw [packetMbuf_payload, misread_iff (by decide)]
  refine fun hmis => hmis.2 ⟨_, _, _, _, _, _, rfl, rfl, rfl, rfl, rfl, rfl, ?_⟩
  exact ⟨rfl, by decide, by decide, by decide, fun _ => ⟨1, rfl, by decide⟩⟩

/-- Version 3 passes, and so does an extension of 64 KiB that is not
there. -/
theorem not_rtpExact_versionThree :
    (searchRtp (packetMbuf (rtpBytes 0xc0 []) [] (by decide))).result
        (packetMbuf (rtpBytes 0xc0 []) [] (by decide)).room = some .rtp
      ∧ (searchRtp (packetMbuf (rtpBytes 0x90 [0, 0, 64, 0]) [] (by decide))).result
        (packetMbuf (rtpBytes 0x90 [0, 0, 64, 0]) [] (by decide)).room = some .rtp
      ∧ ¬ Exact searchRtp .rtp RtpPacket (packetMbuf (rtpBytes 0xc0 []) [] (by decide)) := by
  have hrun : (searchRtp (packetMbuf (rtpBytes 0xc0 []) [] (by decide))).result
      (packetMbuf (rtpBytes 0xc0 []) [] (by decide)).room = some .rtp := by decide +kernel
  refine ⟨hrun, by decide +kernel, fun h => ?_⟩
  rcases h.answer with ⟨hpacket, -⟩ | ⟨-, hr⟩
  · rw [packetMbuf_payload] at hpacket
    obtain ⟨first, _, _, _, _, _, h0, -, -, -, -, -, hver, -⟩ := hpacket
    obtain rfl := Option.some.inj h0
    exact absurd hver (by decide)
  · rw [hrun] at hr
    cases hr

end Yapas
