import Yapas.ScpTransfer

/-!
# There and back

A file that is sent to another machine, and received from there again:
`SshChannelScp::transfer` in one direction and then in the other. The
other machine has stored what the channel accepted, and the channel
delivers what is stored, piece by piece (`Delivers`).

Where no write fails and no read does, the file that arrives is the file
that was sent, however it has been cut into pieces on the way
(`received_sent`), as long as its length fits into the `int` that counts
what has come.
-/

namespace Yapas

section Copy

variable {file stored : List UInt8} {chunks : List (List UInt8)} {calls left : List Writing}
  {ret ret' : Int} {results : Nat → Reading} {s : Receiving}

/-- Without an error nothing is left out. -/
theorem send_whole (hne : ∀ c ∈ chunks, c ≠ []) (haccepted : ∀ r ∈ calls, r.isError = false)
    (hrun : send ret calls chunks = some (ret', stored, left)) : stored = chunks.flatten := by
  obtain ⟨ws, hchunks, hcalls, rfl, hws, -⟩ := send_spec hne hrun
  have hgiven : given (ws.map fun w => (w.chunk, w.count)) = chunks.flatten := by
    rw [given, List.flatMap_map, hchunks, List.flatMap_def]
  rw [← hgiven, through_eq_iff, List.forall_mem_map]
  refine fun w hw => (hws w hw).1.whole_iff.mpr fun r hr => haccepted r ?_
  rw [hcalls]
  exact List.mem_append_left left (List.mem_flatMap.mpr ⟨w, hw, hr⟩)

/-- Every read of the loop brings the next bytes of what is stored, one
at least. -/
def Delivers (stored : List UInt8) (results : Nat → Reading) : Prop :=
  ∀ n s, receive stored.length results n = some s → s.got < stored.length →
    ∃ bytes, results n = .data bytes ∧ bytes ≠ []
      ∧ bytes.take (amount stored.length s.got).toNat <+: stored.drop s.received.length

/-- The beginning of what is stored has arrived, one byte for each read
at least. -/
structure Arrived (stored : List UInt8) (n : Nat) (s : Receiving) : Prop where
  got_eq : s.got = s.out.length
  out_eq : s.out = s.received
  out_prefix : s.out <+: stored
  reads_le : min n stored.length ≤ s.out.length

theorem isPrefix_append {a b c : List UInt8} (ha : a <+: c) (hb : b <+: c.drop a.length) :
    a ++ b <+: c := by
  obtain ⟨rest, rfl⟩ := ha
  rw [List.drop_left] at hb
  exact (List.prefix_append_right_inj a).mpr hb

theorem Arrived.step {n : Nat} (h : Arrived stored n s) (hsize : stored.length < 2147483648)
    (hdelivers : Delivers stored results) (hrun : receive stored.length results n = some s) :
    ∃ s', receive stored.length results (n + 1) = some s' ∧ Arrived stored (n + 1) s' := by
  obtain ⟨hgot, hout, hprefix, hreads⟩ := h
  have hle := hprefix.length_le
  rw [receive, hrun, Option.bind_eq_bind, Option.bind_some]
  by_cases hmissing : s.got < stored.length
  · obtain ⟨bytes, hdata, hbytes, hnext⟩ := hdelivers n s hrun hmissing
    have hlt : s.out.length < stored.length := by omega
    rw [hgot, amount_eq hlt, Int.toNat_natCast, ← hout] at hnext
    have hpos := bufferLen_pos (Nat.zero_lt_of_lt hlt)
    have hlength := List.length_pos_iff.mpr hbytes
    generalize hm : min (stored.length - s.out.length) (bufferLen stored.length) = m at hnext
    have hadd : addInt s.out.length (min bytes.length m : Nat)
        = some ((s.out.length + min bytes.length m : Nat) : Int) :=
      addInt_eq.mpr ⟨(Int.natCast_add _ _).symm, by omega, by omega⟩
    rw [if_pos hmissing, hdata, receiveStep_data hgot hlt, hm, hadd, Option.map_some]
    refine ⟨_, rfl, ?_, by rw [hout], isPrefix_append hprefix hnext, ?_⟩
    · rw [List.length_append, List.length_take, Nat.min_comm]
    · rw [List.length_append, List.length_take]
      omega
  · rw [if_neg hmissing]
    exact ⟨s, rfl, hgot, hout, hprefix, by omega⟩

theorem receive_arrived (hsize : stored.length < 2147483648) (hdelivers : Delivers stored results) :
    ∀ n, ∃ s, receive stored.length results n = some s ∧ Arrived stored n s
  | 0 => ⟨_, rfl, rfl, rfl, List.nil_prefix, Nat.le_of_eq (Nat.zero_min _)⟩
  | n + 1 => by
      obtain ⟨s, hrun, h⟩ := receive_arrived hsize hdelivers n
      exact h.step hsize hdelivers hrun

/-- The file is the one that was sent, the loop is through, and it took
no more reads than there are bytes. -/
theorem received_sent (hne : ∀ c ∈ chunks, c ≠ []) (hfile : chunks.flatten = file)
    (haccepted : ∀ r ∈ calls, r.isError = false)
    (hrun : send ret calls chunks = some (ret', stored, left))
    (hsize : file.length < 2147483648) (hdelivers : Delivers stored results) {n : Nat}
    (hn : file.length ≤ n) :
    ∃ s, receive stored.length results n = some s ∧ s.out = file ∧ s.got = file.length := by
  obtain rfl : stored = file := (send_whole hne haccepted hrun).trans hfile
  obtain ⟨s, hreceive, hgot, -, hprefix, hreads⟩ := receive_arrived hsize hdelivers n
  have hwhole : s.out = stored := hprefix.eq_of_length_le (by omega)
  exact ⟨s, hreceive, hwhole, hwhole ▸ hgot⟩

/-- Three bytes are sent in two writes, and come back in two reads. -/
theorem received_sent_small : ∃ s,
    send 0 [.accepted 0, .accepted 5] [[7, 8, 9]] = some (2, [(7 : UInt8), 8, 9], [])
      ∧ receive 3 (fun n => if n = 0 then .data [7, 8] else .data [9]) 3 = some s
      ∧ s.out = [7, 8, 9] := by
  have hrun : send 0 [.accepted 0, .accepted 5] [[7, 8, 9]]
      = some (2, [(7 : UInt8), 8, 9], []) := rfl
  have hdelivers : Delivers [7, 8, 9] fun n => if n = 0 then .data [7, 8] else .data [9] := by
    intro n s hreceive hmissing
    match n with
    | 0 =>
        obtain rfl := Option.some.inj hreceive
        exact ⟨[7, 8], rfl, List.cons_ne_nil _ _, by decide⟩
    | 1 =>
        obtain rfl := Option.some.inj hreceive
        exact ⟨[9], rfl, List.cons_ne_nil _ _, by decide⟩
    | n + 2 =>
        have hdone : ∀ n, receive 3 (fun n => if n = 0 then .data [7, 8] else .data [9]) (n + 2)
            = some ⟨3, [7, 8, 9], [7, 8, 9], false⟩ := by
          intro n
          induction n with
          | zero => rfl
          | succ n ih =>
              rw [receive, ih]
              rfl
        obtain rfl := Option.some.inj ((hdone n).symm.trans hreceive)
        exact absurd hmissing (by decide)
  have hfile : [[(7 : UInt8), 8, 9]].flatten = [7, 8, 9] := rfl
  obtain ⟨s, hreceive, hout, -⟩ := received_sent
    (List.forall_mem_singleton.mpr (List.cons_ne_nil _ _)) hfile (by decide) hrun (by decide)
    hdelivers (Nat.le_refl 3)
  exact ⟨s, hrun, hreceive, hout⟩

end Copy

end Yapas
