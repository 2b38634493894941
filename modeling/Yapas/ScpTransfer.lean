import Mathlib.Data.List.Nodup
import Yapas.ShortWrites

/-!
# Copying over a channel

`SshChannelScp::transfer` in both directions, and `SshChannel::write`.
The results of the library's calls are given.

Receiving adds to `got` whatever `read` returns, so an end of the stream
keeps the loop going for ever, an error takes `got` back, and a file of
2^31 bytes or more does not fit into it (`receives_iff`). Sending gives
up a chunk on an error and goes on with the next one, and what is
returned is the last result: what the other side gets has a gap
(`sends_iff`).
-/

namespace Yapas

/-! ## Receiving -/

/-- The result of a read: as many of the bytes as are requested, none at
the end of the stream, or the error `-(code + 1)`. -/
inductive Reading where
  | data (bytes : List UInt8)
  | error (code : Nat)

/-- `LIBSSH2_ERROR_EAGAIN` is -37. -/
def eagain : Nat := 36

/-- `got`, what is in the local file, and of the channel what it has
delivered and whether it is at its end or has failed for good. -/
structure Receiving where
  got : Int
  out : List UInt8
  received : List UInt8
  ended : Bool

/-- The sum of two `int`s, which must not overflow. -/
def addInt (a b : Int) : Option Int :=
  if -2147483648 ≤ a + b ∧ a + b < 2147483648 then some (a + b) else none

def bufferLen (size : Nat) : Nat := if 6400 * 1000 < size then 6400 * 1000 else size

/-- What is requested. -/
def amount (size : Nat) (got : Int) : Int :=
  if size - got < bufferLen size then size - got else bufferLen size

/-- One iteration of the loop. -/
def receiveStep (size : Nat) (s : Receiving) : Reading → Option Receiving
  | .data bytes => do
      let bytes := bytes.take (amount size s.got).toNat
      let buffer := bytes ++ List.replicate (bufferLen size - bytes.length) 0
      let got ← addInt s.got bytes.length
      return {
        got := got
        out := s.out ++ buffer.take bytes.length
        received := s.received ++ bytes
        ended := s.ended || bytes.isEmpty }
  | .error code => do
      let got ← addInt s.got (-(code + 1))
      return { s with got := got, ended := s.ended || code != eagain }

/-- The state after so many iterations, or at the end of the loop. -/
def receive (size : Nat) (results : Nat → Reading) : Nat → Option Receiving
  | 0 => some ⟨0, [], [], false⟩
  | n + 1 => do
      let s ← receive size results n
      if s.got < size then receiveStep size s (results n) else some s

/-- The loop goes on as long as bytes are missing and can still come, it
requests no more than are missing, what it has written is what came, and
`got` says how much. -/
structure Receives (size : Nat) (s : Receiving) : Prop where
  goes_on : s.got < size ↔ s.received.length < size ∧ s.ended = false
  requested : s.got < size → s.received.length + amount size s.got ≤ size
  out_eq : s.out = s.received
  length_le : s.out.length ≤ size
  got_eq : s.got = s.out.length

/-- How many bytes the first results amount to. -/
def delivered (size : Nat) (results : Nat → Reading) : Nat → Nat
  | 0 => 0
  | n + 1 => delivered size results n
      + match results n with
        | .data bytes => min bytes.length (bufferLen size)
        | .error _ => 0

section Receive

variable {size : Nat} {results : Nat → Reading} {s s' : Receiving}

theorem bufferLen_pos (h : 0 < size) : 0 < bufferLen size := by
  rw [bufferLen]
  split <;> omega

theorem amount_eq {n : Nat} (h : n < size) :
    amount size n = (min (size - n) (bufferLen size) : Nat) := by
  rw [amount]
  split <;> omega

theorem addInt_eq {a b c : Int} : addInt a b = some c
    ↔ a + b = c ∧ -2147483648 ≤ c ∧ c < 2147483648 := by
  rw [addInt]
  split
  · rename_i h
    rw [Option.some_inj]
    exact ⟨fun hc => ⟨hc, hc ▸ h⟩, And.left⟩
  · rename_i h
    refine iff_of_false (fun hc => by cases hc) ?_
    rintro ⟨rfl, hc⟩
    exact h hc

/-- What a read with data does, where `n` bytes have been received. -/
theorem receiveStep_data {n : Nat} (hgot : s.got = n) (hlt : n < size) (bytes : List UInt8) :
    receiveStep size s (.data bytes)
      = (addInt n (min bytes.length (min (size - n) (bufferLen size)) : Nat)).map fun got =>
        { got := got
          out := s.out ++ bytes.take (min (size - n) (bufferLen size))
          received := s.received ++ bytes.take (min (size - n) (bufferLen size))
          ended := s.ended || (bytes.take (min (size - n) (bufferLen size))).isEmpty } := by
  rw [receiveStep, hgot, amount_eq hlt, Int.toNat_natCast]
  simp only [List.take_left]
  simp only [List.length_take, Nat.min_comm bytes.length]
  cases addInt n (min (min (size - n) (bufferLen size)) bytes.length : Nat) <;> rfl

theorem receiveStep_error (code : Nat) : receiveStep size s (.error code)
    = (addInt s.got (-(code + 1))).map fun got =>
      { s with got := got, ended := s.ended || code != eagain } := by
  rw [receiveStep]
  cases addInt s.got (-(code + 1)) <;> rfl

theorem receiveStep_got (h : ∃ r, receiveStep size s r = some s') : s'.got < 2147483648 := by
  obtain ⟨r, h⟩ := h
  cases r with
  | data bytes =>
      obtain ⟨got, hgot, h⟩ := Option.bind_eq_some_iff.mp h
      rw [← Option.some.inj h]
      exact (addInt_eq.mp hgot).2.2
  | error code =>
      obtain ⟨got, hgot, h⟩ := Option.bind_eq_some_iff.mp h
      rw [← Option.some.inj h]
      exact (addInt_eq.mp hgot).2.2

/-- Bytes come until all are there. -/
def Fills (size : Nat) (results : Nat → Reading) : Prop :=
  ∀ i, delivered size results i < size → ∃ bytes, results i = .data bytes ∧ bytes ≠ []

theorem delivered_data {n : Nat} {bytes : List UInt8} (h : results n = .data bytes) :
    delivered size results (n + 1)
      = delivered size results n + min bytes.length (bufferLen size) := by
  rw [delivered, h]

theorem le_delivered (size : Nat) (results : Nat → Reading) (n : Nat) :
    delivered size results n ≤ delivered size results (n + 1) := Nat.le_add_right _ _

/-- As many bytes are there as the results so far amount to, up to the
size. -/
structure Filling (size : Nat) (results : Nat → Reading) (n : Nat) (s : Receiving) : Prop where
  got_eq : s.got = s.out.length
  out_eq : s.out = s.received
  length_eq : s.out.length = min (delivered size results n) size
  ended : s.ended = false

theorem Filling.receives {n : Nat} (h : Filling size results n s) : Receives size s := by
  obtain ⟨hgot, hout, hlen, hended⟩ := h
  have hle : s.out.length ≤ size := hlen ▸ Nat.min_le_right _ _
  refine ⟨?_, fun hlt => ?_, hout, hle, hgot⟩
  · rw [← hout, and_iff_left hended, hgot]
    omega
  · rw [hgot] at hlt ⊢
    rw [← hout, amount_eq (by omega)]
    omega

theorem filling_zero : Filling size results 0 ⟨0, [], [], false⟩ :=
  ⟨rfl, rfl, (Nat.zero_min size).symm, rfl⟩

/-- The read brings bytes that can be added to `got`. -/
def Brings (size : Nat) (s : Receiving) (r : Reading) : Prop :=
  ∃ bytes got, r = .data bytes ∧ bytes ≠ []
    ∧ addInt s.got (bytes.take (amount size s.got).toNat).length = some got

/-- The step: a read that brings bytes, if some are missing. -/
theorem Filling.step {n : Nat} (h : Filling size results n s)
    (hrun : receive size results n = some s)
    (hnext : delivered size results n < size → Brings size s (results n)) :
    ∃ s', receive size results (n + 1) = some s' ∧ Filling size results (n + 1) s' := by
  obtain ⟨hgot, hout, hlen, hended⟩ := h
  rw [receive, hrun, Option.bind_eq_bind, Option.bind_some]
  by_cases hmissing : delivered size results n < size
  · obtain ⟨bytes, got, hdata, hbytes, hadd⟩ := hnext hmissing
    rw [Nat.min_eq_left (Nat.le_of_lt hmissing)] at hlen
    have hlt : s.out.length < size := by omega
    rw [hgot, amount_eq hlt, Int.toNat_natCast, List.length_take, Nat.min_comm] at hadd
    have hpos := bufferLen_pos (Nat.zero_lt_of_lt hmissing)
    have hlength := List.length_pos_iff.mpr hbytes
    rw [if_pos (by omega), hdata, receiveStep_data hgot hlt, hadd, Option.map_some]
    refine ⟨_, rfl, ?_, by rw [hout], ?_, ?_⟩
    · rw [← (addInt_eq.mp hadd).1, List.length_append, List.length_take, Nat.min_comm]
      exact (Int.natCast_add _ _).symm
    · rw [delivered_data hdata, List.length_append, List.length_take]
      omega
    · rw [hended, Bool.false_or, List.isEmpty_eq_false_iff, Ne, List.take_eq_nil_iff]
      rintro (hzero | hnil)
      · omega
      · exact hbytes hnil
  · have hle := le_delivered size results n
    rw [if_neg (by omega)]
    exact ⟨s, rfl, hgot, hout, by omega, hended⟩

/-- After any other read the loop is not where it should be. -/
theorem Filling.brings {n : Nat} (h : Filling size results n s)
    (hrun : receive size results n = some s) (hmissing : delivered size results n < size)
    (hrun' : receive size results (n + 1) = some s') (h' : Receives size s') :
    Brings size s (results n) := by
  obtain ⟨hgot, hout, hlen, hended⟩ := h
  rw [receive, hrun, Option.bind_eq_bind, Option.bind_some, if_pos (by omega)] at hrun'
  cases hresult : results n with
  | data bytes =>
      rw [hresult] at hrun'
      obtain ⟨got, hadd, hs'⟩ := Option.bind_eq_some_iff.mp hrun'
      refine ⟨bytes, got, rfl, ?_, hadd⟩
      rintro rfl
      obtain rfl := Option.some.inj hs'
      -- nothing has come, and the loop goes on
      have hsame := (addInt_eq.mp hadd).1
      rw [List.take_nil, List.length_nil] at hsame
      have hover := (h'.goes_on.mp (by show got < size; omega)).2
      simp at hover
  | error code =>
      rw [hresult, receiveStep_error] at hrun'
      obtain ⟨got, hadd, rfl⟩ := Option.map_eq_some_iff.mp hrun'
      have hback := (addInt_eq.mp hadd).1
      have hcount : got = s.out.length := h'.got_eq
      omega

theorem receive_got : ∀ {n : Nat} {s : Receiving}, receive size results n = some s →
    s.got < 2147483648
  | 0, s, h => by
      rw [← Option.some.inj h]
      decide
  | n + 1, s, h => by
      obtain ⟨s₁, hrun, h⟩ := Option.bind_eq_some_iff.mp h
      split at h
      · exact receiveStep_got ⟨_, h⟩
      · rw [← Option.some.inj h]
        exact receive_got hrun

theorem Fills.le_delivered (h : Fills size results) : ∀ n,
    n ≤ delivered size results n ∨ size ≤ delivered size results n
  | 0 => Or.inl (Nat.zero_le _)
  | n + 1 => by
      have hle := Yapas.le_delivered size results n
      by_cases hmissing : delivered size results n < size
      · obtain ⟨bytes, hdata, hbytes⟩ := h n hmissing
        have hpos := bufferLen_pos (Nat.zero_lt_of_lt hmissing)
        have hlength := List.length_pos_iff.mpr hbytes
        rw [delivered_data hdata]
        have := (h.le_delivered n).resolve_right (Nat.not_le_of_lt hmissing)
        omega
      · omega

/-- The loop does what it should as long as bytes come and their number is
an `int`, and only then. -/
theorem receives_iff (size : Nat) (results : Nat → Reading) :
    (∀ n, ∃ s, receive size results n = some s ∧ Receives size s)
      ↔ size < 2147483648 ∧ Fills size results := by
  constructor
  · intro h
    have hfilling : ∀ n, ∃ s, receive size results n = some s ∧ Filling size results n s := by
      intro n
      induction n with
      | zero => exact ⟨_, rfl, filling_zero⟩
      | succ n ih =>
          obtain ⟨s, hrun, hs⟩ := ih
          obtain ⟨s', hrun', h'⟩ := h (n + 1)
          exact hs.step hrun fun hmissing => hs.brings hrun hmissing hrun' h'
    have hfills : Fills size results := fun n hmissing => by
      obtain ⟨s, hrun, hs⟩ := hfilling n
      obtain ⟨s', hrun', h'⟩ := h (n + 1)
      obtain ⟨bytes, -, hdata, hbytes, -⟩ := hs.brings hrun hmissing hrun' h'
      exact ⟨bytes, hdata, hbytes⟩
    refine ⟨?_, hfills⟩
    -- after so many reads all bytes are there, and counted
    obtain ⟨s, hrun, hs⟩ := hfilling size
    have hgot := receive_got hrun
    have hall := hfills.le_delivered size
    have hlen := hs.length_eq
    have hcount := hs.got_eq
    omega
  · rintro ⟨hint, hfills⟩ n
    obtain ⟨s, hrun, hs⟩ : ∃ s, receive size results n = some s ∧ Filling size results n s := by
      induction n with
      | zero => exact ⟨_, rfl, filling_zero⟩
      | succ n ih =>
          obtain ⟨s, hrun, hs⟩ := ih
          refine hs.step hrun fun hmissing => ?_
          obtain ⟨bytes, hdata, hbytes⟩ := hfills n hmissing
          have hlen := hs.length_eq
          have hgot := hs.got_eq
          refine ⟨bytes, _, hdata, hbytes, addInt_eq.mpr ⟨rfl, ?_⟩⟩
          rw [hgot, amount_eq (by omega), Int.toNat_natCast, List.length_take]
          omega
    exact ⟨s, hrun, hs.receives⟩

/-- The connection is closed before anything has come. -/
theorem not_receives_closed :
    ¬∀ n, ∃ s, receive 10 (fun _ => .data []) n = some s ∧ Receives 10 s := by
  intro h
  obtain ⟨s, hrun, hs⟩ := h 1
  obtain rfl : (⟨0, [], [], true⟩ : Receiving) = s := Option.some.inj hrun
  exact absurd (hs.goes_on.mp (by decide)).2 (by decide)

end Receive

/-! ## Sending -/

/-- The result of `libssh2_channel_write`: `count + 1` bytes or as many as
are offered, or the error `-(code + 1)`. -/
inductive Writing where
  | accepted (count : Nat)
  | error (code : Nat)

def Writing.isError : Writing → Bool
  | .accepted _ => false
  | .error _ => true

section Send

variable {α : Type}

/-- `SshChannel::write`: the return value, what the channel has accepted,
and the results that are left. It is `none` where there are too few of
them. -/
def write : List Writing → List α → Option (Int × List α × List Writing)
  | [], _ => none
  | .error code :: results, _ => some (-(code + 1), [], results)
  | .accepted count :: results, buffer =>
      let rc := min (count + 1) buffer.length
      let rest := buffer.drop rc
      if rest.length = 0 then some (rc, buffer.take rc, results)
      else (write results rest).map fun w => (w.1, buffer.take rc ++ w.2.1, w.2.2)

/-- The loop of `transfer`, where `readsome` delivers the chunks: the
return value, what has been accepted, and the results that are left.
`ret` is left as it is found. -/
def send (ret : Int) (results : List Writing) : List (List α) →
    Option (Int × List α × List Writing)
  | [] => some (ret, [], results)
  | chunk :: chunks =>
      if chunk.length = 0 then some (ret, [], results)
      else do
        let w ← write results chunk
        let r ← send w.1 w.2.2 chunks
        return (r.1, w.2.1 ++ r.2.1, r.2.2)

/-- The results used for a chunk, of which the first `n` bytes got
through: it is given up at an error, and only there. -/
inductive Wrote (chunk : List α) : Nat → List Writing → Prop where
  | whole {used : List Writing} (h : ∀ r ∈ used, r.isError = false) :
      Wrote chunk chunk.length used
  | short {n : Nat} {used : List Writing} {code : Nat} (h : ∀ r ∈ used, r.isError = false)
      (hlt : n < chunk.length) (hnone : n = 0 ↔ used = []) :
      Wrote chunk n (used ++ [.error code])

theorem Wrote.accepted {chunk : List α} {n k count : Nat} {used : List Writing}
    (h : Wrote (chunk.drop k) n used) (hk : 0 < k) (hlt : k < chunk.length) :
    Wrote chunk (k + n) (.accepted count :: used) := by
  have hall : ∀ {used : List Writing}, (∀ r ∈ used, r.isError = false) →
      ∀ r ∈ Writing.accepted count :: used, r.isError = false :=
    fun h => List.forall_mem_cons.mpr ⟨rfl, h⟩
  cases h with
  | whole h =>
      have hlen : k + (chunk.drop k).length = chunk.length := by
        rw [List.length_drop]
        omega
      rw [hlen]
      exact Wrote.whole (hall h)
  | short h hn hnone =>
      rw [List.length_drop] at hn
      rw [← List.cons_append]
      exact Wrote.short (hall h) (by omega)
        (iff_of_false (by omega) (List.cons_ne_nil _ _))

/-- The call ended with this result. -/
def Failed (used : List Writing) : Prop := ∃ r, used.getLast? = some r ∧ r.isError = true

theorem failed_cons (r : Writing) {used : List Writing} (h : used ≠ []) :
    Failed (r :: used) ↔ Failed used := by
  rw [Failed, Failed, List.getLast?_cons_of_ne_nil h]

theorem write_spec : ∀ {results left : List Writing} {buffer sent : List α} {ret : Int},
    buffer ≠ [] → write results buffer = some (ret, sent, left) →
    ∃ n used, results = used ++ left ∧ used ≠ [] ∧ sent = buffer.take n ∧ Wrote buffer n used
      ∧ (ret < 0 ↔ Failed used)
  | .error code :: results, left, buffer, sent, ret, hne, h => by
      simp only [write, Option.some.injEq, Prod.mk.injEq] at h
      obtain ⟨hret, rfl, rfl⟩ := h
      have hpos := List.length_pos_iff.mpr hne
      refine ⟨0, [] ++ [.error code], rfl, List.cons_ne_nil _ _, rfl, ?_, ?_⟩
      · exact Wrote.short (fun _ hr => absurd hr List.not_mem_nil) hpos (iff_of_true rfl rfl)
      · exact iff_of_true (by omega) ⟨_, rfl, rfl⟩
  | .accepted count :: results, left, buffer, sent, ret, hne, h => by
      have hpos := List.length_pos_iff.mpr hne
      simp only [write, List.length_drop] at h
      split at h
      · rename_i hrest
        simp only [Option.some.injEq, Prod.mk.injEq] at h
        obtain ⟨hret, rfl, rfl⟩ := h
        have hall : min (count + 1) buffer.length = buffer.length := by omega
        rw [hall] at hret ⊢
        refine ⟨_, [.accepted count], rfl, List.cons_ne_nil _ _, rfl, ?_, ?_⟩
        · exact Wrote.whole fun r hr => by rw [List.mem_singleton.mp hr]; rfl
        · refine iff_of_false (by omega) ?_
          rintro ⟨r, hr, herror⟩
          rw [← Option.some.inj hr] at herror
          cases herror
      · rename_i hrest
        obtain ⟨⟨ret', sent', left'⟩, hwrite, hw⟩ := Option.map_eq_some_iff.mp h
        simp only [Prod.mk.injEq] at hw
        obtain ⟨rfl, rfl, rfl⟩ := hw
        have hlt : min (count + 1) buffer.length < buffer.length := by omega
        have hdrop : buffer.drop (min (count + 1) buffer.length) ≠ [] := by
          rw [← List.length_pos_iff, List.length_drop]
          omega
        obtain ⟨n, used, rfl, hused, rfl, hwrote, hret⟩ := write_spec hdrop hwrite
        refine ⟨_, .accepted count :: used, rfl, List.cons_ne_nil _ _, ?_,
          hwrote.accepted (by omega) hlt, ?_⟩
        · rw [List.take_add]
        · rw [failed_cons _ hused]
          exact hret

/-- Every byte takes one result at most. -/
theorem write_returns : ∀ {results : List Writing} {buffer : List α}, buffer ≠ [] →
    buffer.length ≤ results.length →
    ∃ ret sent left, write results buffer = some (ret, sent, left)
      ∧ results.length ≤ left.length + buffer.length
  | [], buffer, hne, hle => absurd (List.length_eq_zero_iff.mp (Nat.le_zero.mp hle)) hne
  | .error code :: results, buffer, hne, _ => by
      have hpos := List.length_pos_iff.mpr hne
      refine ⟨_, _, results, rfl, ?_⟩
      rw [List.length_cons]
      omega
  | .accepted count :: results, buffer, hne, hle => by
      have hpos := List.length_pos_iff.mpr hne
      rw [List.length_cons] at hle ⊢
      rw [write]
      by_cases hrest : (buffer.drop (min (count + 1) buffer.length)).length = 0
      · refine ⟨_, _, results, if_pos hrest, ?_⟩
        omega
      · have hlen := List.length_drop (i := min (count + 1) buffer.length) (l := buffer)
        have hroom : (buffer.drop (min (count + 1) buffer.length)).length ≤ results.length := by
          omega
        obtain ⟨ret, sent, left, hwrite, hleft⟩ :=
          write_returns (mt List.length_eq_zero_iff.mpr hrest) hroom
        refine ⟨ret, _, left, (if_neg hrest).trans (by rw [hwrite]; rfl), ?_⟩
        omega

/-- With as many results as there are bytes `transfer` comes to its end. -/
theorem send_returns (ret : Int) : ∀ {chunks : List (List α)} {results : List Writing},
    chunks.flatten.length ≤ results.length → ∃ r, send ret results chunks = some r
  | [], _, _ => ⟨_, rfl⟩
  | chunk :: chunks, results, h => by
      rw [List.flatten_cons, List.length_append] at h
      rw [send]
      split
      · exact ⟨_, rfl⟩
      · rename_i hne
        obtain ⟨rc, sent, left, hwrite, hleft⟩ := write_returns
          (mt List.length_eq_zero_iff.mpr hne) (show chunk.length ≤ results.length by omega)
        have hroom : chunks.flatten.length ≤ left.length := by omega
        obtain ⟨r, hr⟩ := send_returns rc hroom
        rw [hwrite, Option.bind_eq_bind, Option.bind_some, hr]
        exact ⟨_, rfl⟩

/-- A chunk, how much of it got through, and the results used for it. -/
structure Handed (α : Type) where
  chunk : List α
  count : Nat
  used : List Writing

/-- What `send` is made of. -/
theorem send_spec : ∀ {chunks : List (List α)} {results left : List Writing} {sent : List α}
    {ret ret' : Int}, (∀ c ∈ chunks, c ≠ []) → send ret results chunks = some (ret', sent, left) →
    ∃ ws : List (Handed α), chunks = ws.map Handed.chunk ∧ results = ws.flatMap Handed.used ++ left
      ∧ sent = through (ws.map fun w => (w.chunk, w.count))
      ∧ (∀ w ∈ ws, Wrote w.chunk w.count w.used ∧ w.used ≠ [] ∧ w.chunk ≠ [])
      ∧ (ret' < 0 ↔ if chunks = [] then ret < 0 else Failed (ws.flatMap Handed.used))
  | [], results, left, sent, ret, ret', _, h => by
      simp only [send, Option.some.injEq, Prod.mk.injEq] at h
      obtain ⟨rfl, rfl, rfl⟩ := h
      exact ⟨[], rfl, rfl, rfl, fun _ hw => absurd hw List.not_mem_nil, by rw [if_pos rfl]⟩
  | chunk :: chunks, results, left, sent, ret, ret', hne, h => by
      rw [List.forall_mem_cons] at hne
      rw [send, if_neg (mt List.length_eq_zero_iff.mp hne.1)] at h
      obtain ⟨⟨rc, sent₁, results₁⟩, hwrite, h⟩ := Option.bind_eq_some_iff.mp h
      obtain ⟨⟨ret₂, sent₂, left₂⟩, hsend, h⟩ := Option.bind_eq_some_iff.mp h
      simp only [Option.pure_def, Option.some.injEq, Prod.mk.injEq] at h
      obtain ⟨rfl, rfl, rfl⟩ := h
      obtain ⟨n, used, rfl, hused, rfl, hwrote, hrc⟩ := write_spec hne.1 hwrite
      obtain ⟨ws, rfl, rfl, rfl, hws, hret⟩ := send_spec hne.2 hsend
      refine ⟨⟨chunk, n, used⟩ :: ws, rfl, ?_, rfl, ?_, ?_⟩
      · rw [List.flatMap_cons, List.append_assoc]
      · exact List.forall_mem_cons.mpr ⟨⟨hwrote, hused, hne.1⟩, hws⟩
      · rw [if_neg (List.cons_ne_nil _ _), hret, List.flatMap_cons]
        cases ws with
        | nil => rw [List.map_nil, if_pos rfl, List.flatMap_nil, List.append_nil, hrc]
        | cons w ws =>
            have hne' : (w :: ws).flatMap Handed.used ≠ [] := by
              rw [List.flatMap_cons]
              exact List.append_ne_nil_of_left_ne_nil (hws w List.mem_cons_self).2.1 _
            rw [List.map_cons, if_neg (List.cons_ne_nil _ _), Failed, Failed,
              List.getLast?_append_of_ne_nil _ hne']

section Wrote

variable {chunk : List α} {n : Nat} {used : List Writing}

theorem Wrote.whole_iff (h : Wrote chunk n used) :
    chunk.length ≤ n ↔ ∀ r ∈ used, r.isError = false := by
  cases h with
  | whole h => exact iff_of_true (Nat.le_refl _) h
  | short h hlt _ =>
      refine iff_of_false (Nat.not_le_of_lt hlt) fun hall => ?_
      exact absurd (hall _ (List.mem_append_right _ List.mem_cons_self)).symm Bool.false_ne_true

theorem Wrote.nothing_iff (h : Wrote chunk n used) (hused : used ≠ []) (hne : chunk ≠ []) :
    chunk.take n = [] ↔ ∀ r ∈ used, r.isError = true := by
  rw [List.take_eq_nil_iff, or_iff_left hne]
  cases h with
  | whole h =>
      refine iff_of_false (mt List.length_eq_zero_iff.mp hne) fun hall => ?_
      obtain ⟨r, hr⟩ := List.exists_mem_of_ne_nil _ hused
      exact absurd ((h r hr).symm.trans (hall r hr)) Bool.false_ne_true
  | @short _ used code h _ hnone =>
      rw [hnone]
      constructor
      · rintro rfl
        exact List.forall_mem_singleton.mpr rfl
      · intro hall
        refine List.eq_nil_iff_forall_not_mem.mpr fun r hr => ?_
        exact absurd ((h r hr).symm.trans (hall r (List.mem_append_left _ hr))) Bool.false_ne_true

theorem Wrote.pairwise (h : Wrote chunk n used) :
    used.Pairwise fun r r' => r.isError = true → r'.isError = true := by
  have hnone : ∀ {used : List Writing}, (∀ r ∈ used, r.isError = false) →
      used.Pairwise fun r r' => r.isError = true → r'.isError = true := fun h =>
    List.pairwise_of_forall_mem_list fun r hr _ _ herror => absurd (h r hr) (by simp [herror])
  cases h with
  | whole h => exact hnone h
  | short h _ _ =>
      refine List.pairwise_append.mpr ⟨hnone h, List.pairwise_singleton _ _, fun r hr r' hr' => ?_⟩
      rw [List.mem_singleton.mp hr']
      exact fun _ => rfl

end Wrote

/-- A gap is where a byte is accepted behind an error. -/
theorem pairwise_iff : ∀ {ws : List (Handed α)},
    (∀ w ∈ ws, Wrote w.chunk w.count w.used ∧ w.used ≠ [] ∧ w.chunk ≠ []) →
    ((ws.map fun w => (w.chunk, w.count)).Pairwise
        (fun w w' => w.1.length ≤ w.2 ∨ w'.1.take w'.2 = [])
      ↔ (ws.flatMap Handed.used).Pairwise fun r r' => r.isError = true → r'.isError = true)
  | [], _ => iff_of_true List.Pairwise.nil List.Pairwise.nil
  | w :: ws, h => by
      rw [List.forall_mem_cons] at h
      obtain ⟨⟨hwrote, hused, hne⟩, hws⟩ := h
      have hcross : (∀ w' ∈ ws, w.chunk.length ≤ w.count ∨ w'.chunk.take w'.count = [])
          ↔ ∀ r ∈ w.used, ∀ r' ∈ ws.flatMap Handed.used,
            r.isError = true → r'.isError = true := by
        by_cases hwhole : w.chunk.length ≤ w.count
        · refine iff_of_true (fun _ _ => Or.inl hwhole) fun r hr _ _ herror => ?_
          exact absurd (hwrote.whole_iff.mp hwhole r hr) (by simp [herror])
        · obtain ⟨r, hr, herror⟩ : ∃ r ∈ w.used, r.isError = true := by
            by_contra hnone
            refine hwhole (hwrote.whole_iff.mpr fun r hr => ?_)
            exact Bool.eq_false_iff.mpr fun herror => hnone ⟨r, hr, herror⟩
          have hnothing : ∀ w' ∈ ws, w'.chunk.take w'.count = []
              ↔ ∀ r' ∈ w'.used, r'.isError = true := fun w' hw' =>
            (hws w' hw').1.nothing_iff (hws w' hw').2.1 (hws w' hw').2.2
          constructor
          · intro hlater _ _ r' hr' _
            obtain ⟨w', hw', hr'⟩ := List.mem_flatMap.mp hr'
            exact (hnothing w' hw').mp ((hlater w' hw').resolve_left hwhole) r' hr'
          · intro hlater w' hw'
            refine Or.inr ((hnothing w' hw').mpr fun r' hr' => ?_)
            exact hlater r hr r' (List.mem_flatMap.mpr ⟨w', hw', hr'⟩) herror
      rw [List.map_cons, List.pairwise_cons, pairwise_iff hws, List.flatMap_cons,
        List.pairwise_append, List.forall_mem_map, hcross]
      constructor
      · exact fun ⟨hcross, hrest⟩ => ⟨hwrote.pairwise, hrest, hcross⟩
      · exact fun ⟨_, hrest, hcross⟩ => ⟨hcross, hrest⟩

/-- With only errors behind an error, and none at the end, there is
none. -/
theorem no_error_of_last {results : List Writing}
    (h : results.Pairwise fun r r' => r.isError = true → r'.isError = true)
    (hlast : ¬Failed results) : ∀ r ∈ results, r.isError = false := by
  intro r hr
  refine Bool.eq_false_iff.mpr fun herror => hlast ?_
  obtain rfl | ⟨before, last, rfl⟩ := List.eq_nil_or_concat results
  · cases hr
  · rw [List.concat_eq_append] at *
    refine ⟨last, List.getLast?_concat, ?_⟩
    rcases List.mem_append.mp hr with hr | hr
    · exact (List.pairwise_append.mp h).2.2 r hr last List.mem_cons_self herror
    · rwa [← List.mem_singleton.mp hr]

/-- What is sent has no gap, and it is the whole file if no negative value
is returned. The bytes carry their place in the file. -/
def Sends (file : List UInt8) (ret : Int) (sent : List (UInt8 × Nat)) : Prop :=
  sent <+: file.zipIdx ∧ (0 ≤ ret → sent = file.zipIdx)

/-- A file is sent as it should be exactly when no write succeeds behind
one that failed, and the chunks are the whole file or the last write
failed. -/
theorem sends_iff {file : List UInt8} {chunks : List (List (UInt8 × Nat))}
    {calls left : List Writing} {ret ret' : Int} {sent : List (UInt8 × Nat)}
    (hne : ∀ c ∈ chunks, c ≠ []) (hfile : chunks.flatten <+: file.zipIdx)
    (hrun : send ret (calls ++ left) chunks = some (ret', sent, left)) :
    Sends file ret' sent
      ↔ calls.Pairwise (fun r r' => r.isError = true → r'.isError = true)
        ∧ (chunks.flatten = file.zipIdx ∨ if chunks = [] then ret < 0 else Failed calls) := by
  obtain ⟨ws, hchunks, hcalls, rfl, hws, hret⟩ := send_spec hne hrun
  obtain rfl := List.append_cancel_right hcalls
  have hgiven : given (ws.map fun w => (w.chunk, w.count)) = chunks.flatten := by
    rw [given, List.flatMap_map, hchunks, List.flatMap_def]
  have hnodup : (given (ws.map fun w => (w.chunk, w.count))).Nodup := by
    rw [hgiven]
    refine hfile.sublist.nodup (List.Nodup.of_map Prod.snd ?_)
    rw [List.zipIdx_map_snd]
    exact List.nodup_range'
  have hle := length_through_le (ws.map fun w => (w.chunk, w.count))
  have hbegin : through (ws.map fun w => (w.chunk, w.count)) <+: file.zipIdx
      ↔ (ws.flatMap Handed.used).Pairwise fun r r' => r.isError = true → r'.isError = true := by
    rw [← pairwise_iff hws, ← through_prefix_iff hnodup, hgiven]
    rw [hgiven] at hle
    exact ⟨fun h => List.prefix_of_prefix_length_le h hfile hle, fun h => h.trans hfile⟩
  rw [Sends, hbegin]
  refine and_congr_right fun hpairwise => ?_
  rw [← hret]
  by_cases hnegative : ret' < 0
  · exact iff_of_true (fun h => absurd h (by omega)) (Or.inr hnegative)
  · have hall : through (ws.map fun w => (w.chunk, w.count)) = chunks.flatten := by
      rw [← hgiven, through_eq_iff, List.forall_mem_map]
      intro w hw
      have hfree : ∀ r ∈ ws.flatMap Handed.used, r.isError = false := by
        refine no_error_of_last hpairwise fun hfailed => hnegative (hret.mpr ?_)
        rw [if_neg]
        · exact hfailed
        · rw [hchunks]
          exact mt List.map_eq_nil_iff.mp (List.ne_nil_of_mem hw)
      exact (hws w hw).1.whole_iff.mpr fun r hr => hfree r (List.mem_flatMap.mpr ⟨w, hw, hr⟩)
    rw [hall, or_iff_left hnegative]
    exact imp_iff_right (by omega)

/-- One byte of the first chunk gets through, then the two that are
left. -/
theorem sends_resumed : ∃ ret sent,
    send 0 [.accepted 0, .accepted 5] [([7, 8, 9] : List UInt8).zipIdx] = some (ret, sent, [])
      ∧ Sends [7, 8, 9] ret sent := by
  obtain ⟨ret, sent, hrun⟩ : ∃ ret sent, send 0 ([.accepted 0, .accepted 5] ++ [])
      [([7, 8, 9] : List UInt8).zipIdx] = some (ret, sent, []) := ⟨_, _, rfl⟩
  refine ⟨ret, sent, hrun, (sends_iff ?_ (List.prefix_refl _) hrun).mpr ⟨?_, Or.inl rfl⟩⟩
  · exact List.forall_mem_singleton.mpr (List.cons_ne_nil _ _)
  · exact List.pairwise_of_forall_mem_list fun r hr _ _ herror => by
      have hfree : ∀ r ∈ [Writing.accepted 0, .accepted 5], r.isError = false := by decide
      rw [hfree r hr] at herror
      cases herror

/-- `EAGAIN` in the middle of the first of two chunks: its second byte is
never sent, and the return value is that of the second chunk. -/
theorem not_sends_eagain : ∃ ret sent,
    send 0 [.accepted 0, .error eagain, .accepted 1] [[(7, 0), (8, 1)], [(9, 2), (10, 3)]]
        = some (ret, sent, [])
      ∧ [[((7 : UInt8), 0), (8, 1)], [(9, 2), (10, 3)]].flatten = [7, 8, 9, 10].zipIdx
      ∧ 0 ≤ ret ∧ ¬sent <+: [7, 8, 9, 10].zipIdx ∧ sent ≠ [7, 8, 9, 10].zipIdx :=
  ⟨2, [(7, 0), (9, 2), (10, 3)], rfl, rfl, by decide, by decide, by decide⟩

end Send

end Yapas
