import Mathlib.Data.List.Basic

/-!
# Transmit queues

`PortQueue` and the two functions that fill and empty it,
`PortEthernet::SendOnePacket` and `SendAllPackets`, over packets of any
type. The driver is a stream of answers: the `k`-th burst of a run
accepts the first `tx k` of the packets offered, or all of them when
there are fewer.

Seen from outside a queue is the list `queued` of the packets in its
occupied slots. A call turns the packets that were queued and the one
it adds into packets accepted, freed and queued, in this order and with
none missing (`Sent.accounts`); what a run does to its packets follows
from this equation by induction over the calls.

`none` stands for a write behind the last slot, or for a flush that
does not end; `sendOnePacket_spec` and `sendAllPackets_spec` say that
neither happens.
-/

namespace Yapas

def maxPktsInQueue : Nat := 32

/-- The slots from `count` on hold whatever was left in them. -/
structure PortQueue (α : Type) where
  count : Nat
  slots : Vector α maxPktsInQueue
  count_le : count ≤ maxPktsInQueue

/-- What a call does to the world: a slot is written, packets are
offered to the driver, which accepts the first `ret`, or a packet is
freed. -/
inductive TxEvent (α : Type)
  | write (slot : Nat) (m : α)
  | burst (offered : List α) (ret : Nat)
  | free (m : α)

/-- A queue after a call, the number of bursts so far and the events of
the call. -/
structure Sent (α : Type) where
  queue : PortQueue α
  bursts : Nat
  events : List (TxEvent α)

namespace PortQueue

variable {α : Type}

/-- A constructed queue; its slots are not initialised. -/
def empty (slots : Vector α maxPktsInQueue) : PortQueue α := ⟨0, slots, Nat.zero_le _⟩

/-- The packets in the occupied slots. -/
def queued (q : PortQueue α) : List α := q.slots.toList.take q.count

/-- Those from slot `sended` on. -/
def pending (q : PortQueue α) (sended : Nat) : List α := q.queued.drop sended

def clear (q : PortQueue α) : PortQueue α := ⟨0, q.slots, Nat.zero_le _⟩

def push (q : PortQueue α) (m : α) (h : q.count < maxPktsInQueue) : PortQueue α :=
  ⟨q.count + 1, q.slots.set q.count m h, h⟩

/-- The packets `ms` written to the first slots. -/
def fill (q : PortQueue α) (ms : List α) (h : ms.length ≤ maxPktsInQueue) : PortQueue α where
  count := ms.length
  slots := ⟨(ms ++ q.slots.toList.drop ms.length).toArray, by simp; omega⟩
  count_le := h

@[simp] theorem length_queued (q : PortQueue α) : q.queued.length = q.count := by
  have := q.count_le
  simp [queued, this]

@[simp] theorem queued_empty (slots : Vector α maxPktsInQueue) : (empty slots).queued = [] :=
  rfl

@[simp] theorem queued_clear (q : PortQueue α) : q.clear.queued = [] := rfl

theorem queued_push (q : PortQueue α) (m : α) (h : q.count < maxPktsInQueue) :
    (q.push m h).queued = q.queued ++ [m] := by
  have hlen : q.count < q.slots.toList.length := by simpa using h
  simp only [queued, push, Vector.toList_set]
  rw [List.take_succ_eq_append_getElem (by simpa using h), List.getElem_set_self,
    List.take_set_of_le (Nat.le_refl _)]

@[simp] theorem queued_fill (q : PortQueue α) {ms : List α} (h : ms.length ≤ maxPktsInQueue) :
    (q.fill ms h).queued = ms := List.take_left

theorem pending_zero (q : PortQueue α) : q.pending 0 = q.queued := List.drop_zero

theorem pending_count (q : PortQueue α) : q.pending q.count = [] :=
  List.drop_eq_nil_of_le (by simp)

@[simp] theorem length_pending (q : PortQueue α) (sended : Nat) :
    (q.pending sended).length = q.count - sended := by
  simp [pending]

theorem take_append_pending (q : PortQueue α) (sended n : Nat) :
    (q.pending sended).take n ++ q.pending (sended + n) = q.pending sended := by
  rw [pending, pending, ← List.drop_drop, List.take_append_drop]

end PortQueue

variable {α : Type}

/-! ## The calls -/

/-- The loop of `SendAllPackets`. Every iteration but the last sends a
packet, so a fuel above the count is never used up. -/
def sendLoop (tx : Nat → Nat) (q : PortQueue α) :
    Nat → Nat → Nat → Option (Nat × Nat × List (TxEvent α))
  | 0, _, _ => none
  | fuel + 1, bursts, sended =>
      if sended = q.count then some (sended, bursts, [])
      else
        let offered := q.pending sended
        let ret := min (tx bursts) offered.length
        if ret = 0 then some (sended, bursts + 1, [.burst offered 0])
        else
          (sendLoop tx q fuel (bursts + 1) (sended + ret)).map fun (sended, bursts, events) =>
            (sended, bursts, .burst offered ret :: events)

/-- `SendAllPackets`: what the driver does not accept is freed. -/
def sendAllPackets (tx : Nat → Nat) (bursts : Nat) (q : PortQueue α) : Option (Sent α) :=
  if q.count = 0 then some ⟨q, bursts, []⟩
  else
    (sendLoop tx q (q.count + 1) bursts 0).map fun (sended, bursts, events) =>
      ⟨q.clear, bursts, events ++ (q.pending sended).map .free⟩

/-- `SendOnePacket`. -/
def sendOnePacket (tx : Nat → Nat) (bursts : Nat) (q : PortQueue α) (m : α) :
    Option (Sent α) :=
  if h : q.count < maxPktsInQueue then
    if (q.push m h).count = maxPktsInQueue then
      (sendAllPackets tx bursts (q.push m h)).map fun r =>
        { r with events := .write q.count m :: r.events }
    else some ⟨q.push m h, bursts, [.write q.count m]⟩
  else none

/-! ## What became of the packets -/

def TxEvent.accepted : TxEvent α → List α
  | .burst offered ret => offered.take ret
  | _ => []

def TxEvent.freed : TxEvent α → List α
  | .free m => [m]
  | _ => []

def TxEvent.written : TxEvent α → List α
  | .write _ m => [m]
  | _ => []

/-- The packets the driver accepted, in order. -/
def accepted (events : List (TxEvent α)) : List α := events.flatMap TxEvent.accepted

def freed (events : List (TxEvent α)) : List α := events.flatMap TxEvent.freed

/-- The packets written to a slot, in order. -/
def written (events : List (TxEvent α)) : List α := events.flatMap TxEvent.written

@[simp] theorem accepted_append (es fs : List (TxEvent α)) :
    accepted (es ++ fs) = accepted es ++ accepted fs := List.flatMap_append

@[simp] theorem freed_append (es fs : List (TxEvent α)) :
    freed (es ++ fs) = freed es ++ freed fs := List.flatMap_append

@[simp] theorem written_append (es fs : List (TxEvent α)) :
    written (es ++ fs) = written es ++ written fs := List.flatMap_append

@[simp] theorem accepted_map_free (ms : List α) : accepted (ms.map .free) = [] := by
  induction ms with
  | nil => rfl
  | cons m ms ih => exact ih

@[simp] theorem freed_map_free (ms : List α) : freed (ms.map .free) = ms := by
  induction ms with
  | nil => rfl
  | cons m ms ih => exact congrArg (m :: ·) ih

@[simp] theorem written_map_free (ms : List α) : written (ms.map .free) = [] := by
  induction ms with
  | nil => rfl
  | cons m ms ih => exact ih

/-- A packet is freed only in a flush in which the driver returned zero
while the packet was among those offered: between that burst and its
release only the packets in front of it are freed. -/
def FreedWhenRefused (events : List (TxEvent α)) : Prop :=
  ∀ before m after, events = before ++ .free m :: after →
    ∃ earlier front back,
      before = earlier ++ .burst (front ++ m :: back) 0 :: front.map .free

theorem FreedWhenRefused.append {es fs : List (TxEvent α)} (hes : FreedWhenRefused es)
    (hfs : FreedWhenRefused fs) : FreedWhenRefused (es ++ fs) := by
  intro before m after h
  rcases List.append_eq_append_iff.mp h with ⟨mid, rfl, hmid⟩ | ⟨mid, rfl, hmid⟩
  · obtain ⟨earlier, front, back, rfl⟩ := hfs mid m after hmid
    exact ⟨es ++ earlier, front, back, by simp⟩
  · cases mid with
    | nil =>
        obtain ⟨earlier, front, back, hnil⟩ := hfs [] m after (by simpa using hmid.symm)
        simp at hnil
    | cons e mid =>
        obtain ⟨rfl, -⟩ := List.cons.inj hmid
        exact hes before m mid rfl

theorem freedWhenRefused_of_freed {events : List (TxEvent α)} (h : freed events = []) :
    FreedWhenRefused events := by
  rintro before m after rfl
  simp [freed, TxEvent.freed] at h

/-- A refusal followed by the release of everything refused. -/
theorem freedWhenRefused_refusal (ms : List α) :
    FreedWhenRefused (.burst ms 0 :: ms.map .free) := by
  intro before m after h
  cases before with
  | nil => simp at h
  | cons e before =>
      obtain ⟨rfl, htail⟩ := List.cons.inj h
      obtain ⟨front, rest, rfl, hfront, hrest⟩ := List.map_eq_append_iff.mp htail
      obtain ⟨m', back, rfl, hm, -⟩ := List.map_eq_cons_iff.mp hrest
      obtain rfl := TxEvent.free.inj hm
      exact ⟨[], front, back, by rw [← hfront]; rfl⟩

/-! ## The loop -/

/-- The loop ends; what it sent, in order, is what was pending up to
where it stopped, and it stopped early only at a refusal. -/
theorem sendLoop_spec (tx : Nat → Nat) (q : PortQueue α) :
    ∀ (fuel bursts sended : Nat), q.count < fuel + sended → sended ≤ q.count →
      ∃ s b events, sendLoop tx q fuel bursts sended = some (s, b, events)
        ∧ accepted events ++ q.pending s = q.pending sended
        ∧ (∀ e ∈ events, ∃ offered ret, e = .burst offered ret ∧ offered ≠ []
          ∧ offered <:+ q.queued)
        ∧ (s = q.count ∨ ∃ events', events = events' ++ [.burst (q.pending s) 0])
  | 0, bursts, sended, hfuel, hle => by omega
  | fuel + 1, bursts, sended, hfuel, hle => by
      rw [sendLoop]
      by_cases hdone : sended = q.count
      · exact ⟨sended, bursts, [], if_pos hdone, rfl, by simp, Or.inl hdone⟩
      · rw [if_neg hdone]
        have hlen := q.length_pending sended
        have hne : q.pending sended ≠ [] := by
          intro h
          rw [h, List.length_nil] at hlen
          omega
        obtain ⟨n, hn⟩ : ∃ n, min (tx bursts) (q.pending sended).length = n := ⟨_, rfl⟩
        simp only [hn]
        by_cases hret : n = 0
        · refine ⟨sended, bursts + 1, _, if_pos hret, rfl, ?_, Or.inr ⟨[], rfl⟩⟩
          intro e he
          exact ⟨_, _, List.mem_singleton.mp he, hne, List.drop_suffix _ _⟩
        · obtain ⟨s, b, events, hloop, hsent, hburst, hstop⟩ :=
            sendLoop_spec tx q fuel (bursts + 1) (sended + n) (by omega) (by omega)
          refine ⟨s, b, .burst (q.pending sended) n :: events, ?_, ?_, ?_, ?_⟩
          · rw [if_neg hret, hloop]
            rfl
          · calc accepted (.burst (q.pending sended) n :: events) ++ q.pending s
                = (q.pending sended).take n ++ (accepted events ++ q.pending s) :=
                  List.append_assoc _ _ _
              _ = (q.pending sended).take n ++ q.pending (sended + n) := by rw [hsent]
              _ = q.pending sended := q.take_append_pending sended n
          · intro e he
            rcases List.mem_cons.mp he with rfl | he
            · exact ⟨_, _, rfl, hne, List.drop_suffix _ _⟩
            · exact hburst e he
          · rcases hstop with hstop | ⟨events', rfl⟩
            · exact Or.inl hstop
            · exact Or.inr ⟨_ :: events', rfl⟩

/-- Bursts free nothing and write nothing. -/
theorem freed_bursts {events : List (TxEvent α)}
    (h : ∀ e ∈ events, ∃ offered ret, e = .burst offered ret) :
    freed events = [] ∧ written events = [] := by
  constructor
  · refine List.flatMap_eq_nil_iff.mpr fun e he => ?_
    obtain ⟨offered, ret, rfl⟩ := h e he
    rfl
  · refine List.flatMap_eq_nil_iff.mpr fun e he => ?_
    obtain ⟨offered, ret, rfl⟩ := h e he
    rfl

/-! ## One call -/

/-- What a call that adds the packets `new` to `q` leaves behind. -/
structure Sent.Accounts (q : PortQueue α) (new : List α) (r : Sent α) : Prop where
  count_lt : r.queue.count < maxPktsInQueue
  accounts : accepted r.events ++ (freed r.events ++ r.queue.queued) = q.queued ++ new
  written_eq : written r.events = new
  writes : ∀ slot m, .write slot m ∈ r.events → slot < maxPktsInQueue
  refused : FreedWhenRefused r.events
  offered : ∀ offered ret, .burst offered ret ∈ r.events →
    offered ≠ [] ∧ ∀ m ∈ offered, m ∈ q.queued ++ new

theorem sendAllPackets_spec (tx : Nat → Nat) (bursts : Nat) (q : PortQueue α) :
    ∃ r, sendAllPackets tx bursts q = some r ∧ r.queue.count = 0 ∧ r.Accounts q [] := by
  by_cases hzero : q.count = 0
  · have hqueued : q.queued = [] := List.length_eq_zero_iff.mp (by rw [q.length_queued, hzero])
    refine ⟨⟨q, bursts, []⟩, if_pos hzero, hzero, ⟨?_, ?_, rfl, by simp, ?_, by simp⟩⟩
    · rw [hzero]
      decide
    · simp [hqueued, accepted, freed]
    · exact freedWhenRefused_of_freed rfl
  · obtain ⟨s, b, events, hloop, hsent, hburst, hstop⟩ :=
      sendLoop_spec tx q (q.count + 1) bursts 0 (by omega) (Nat.zero_le _)
    obtain ⟨hfree, hwrite⟩ := freed_bursts fun e he => by
      obtain ⟨offered, ret, heq, -⟩ := hburst e he
      exact ⟨offered, ret, heq⟩
    refine ⟨⟨q.clear, b, events ++ (q.pending s).map .free⟩, ?_, rfl, ?_⟩
    · rw [sendAllPackets, if_neg hzero, hloop]
      rfl
    · constructor
      · exact Nat.zero_lt_succ _
      · simp [hfree, hsent, q.pending_zero]
      · rw [written_append, hwrite, written_map_free, List.append_nil]
      · intro slot m hmem
        rcases List.mem_append.mp hmem with hmem | hmem
        · obtain ⟨_, _, heq, -⟩ := hburst _ hmem
          cases heq
        · obtain ⟨_, -, heq⟩ := List.mem_map.mp hmem
          cases heq
      · rcases hstop with rfl | ⟨events', rfl⟩
        · rw [q.pending_count]
          exact (freedWhenRefused_of_freed hfree).append (freedWhenRefused_of_freed rfl)
        · rw [freed_append, List.append_eq_nil_iff] at hfree
          rw [List.append_assoc]
          exact (freedWhenRefused_of_freed hfree.1).append (freedWhenRefused_refusal _)
      · intro offered ret hmem
        rcases List.mem_append.mp hmem with hmem | hmem
        · obtain ⟨_, _, heq, hne, hsuffix⟩ := hburst _ hmem
          obtain ⟨rfl, -⟩ := TxEvent.burst.inj heq
          exact ⟨hne, fun m hm => by simpa using hsuffix.subset hm⟩
        · obtain ⟨_, -, heq⟩ := List.mem_map.mp hmem
          cases heq

/-- A write in front of a call's events frees and sends nothing. -/
theorem Sent.Accounts.write {q q' : PortQueue α} {r : Sent α} {slot : Nat} {m : α}
    (h : r.Accounts q' []) (hslot : slot < maxPktsInQueue) (hq : q'.queued = q.queued ++ [m]) :
    Sent.Accounts q [m] { r with events := .write slot m :: r.events } := by
  obtain ⟨hcount, hacc, hwritten, hwrites, hrefused, hoffered⟩ := h
  rw [List.append_nil, hq] at hacc
  constructor
  · exact hcount
  · exact hacc
  · exact congrArg (m :: ·) hwritten
  · intro slot' m' hmem
    rcases List.mem_cons.mp hmem with heq | hmem
    · obtain ⟨rfl, -⟩ := TxEvent.write.inj heq
      exact hslot
    · exact hwrites slot' m' hmem
  · have hwrite : FreedWhenRefused [TxEvent.write slot m] := freedWhenRefused_of_freed rfl
    exact hwrite.append hrefused
  · intro offered ret hmem
    rcases List.mem_cons.mp hmem with heq | hmem
    · cases heq
    · obtain ⟨hne, hsub⟩ := hoffered offered ret hmem
      exact ⟨hne, fun m' hm' => by simpa [hq] using hsub m' hm'⟩

theorem sendOnePacket_spec (tx : Nat → Nat) (bursts : Nat) {q : PortQueue α} (m : α)
    (h : q.count < maxPktsInQueue) :
    ∃ r, sendOnePacket tx bursts q m = some r ∧ r.Accounts q [m] := by
  rw [sendOnePacket, dif_pos h]
  by_cases hfull : (q.push m h).count = maxPktsInQueue
  · obtain ⟨r, hr, -, hacc⟩ := sendAllPackets_spec tx bursts (q.push m h)
    refine ⟨_, by rw [if_pos hfull, hr]; rfl, hacc.write h (q.queued_push m h)⟩
  · have hstay : Sent.Accounts (q.push m h) [] ⟨q.push m h, bursts, []⟩ := by
      refine ⟨Nat.lt_of_le_of_ne (q.push m h).count_le hfull, ?_, rfl, by simp, ?_, by simp⟩
      · simp [accepted, freed]
      · exact freedWhenRefused_of_freed rfl
    exact ⟨_, if_neg hfull, hstay.write h (q.queued_push m h)⟩

/-! ## Runs -/

inductive Call (α : Type)
  | one (m : α)
  | all

def Call.new : Call α → List α
  | .one m => [m]
  | .all => []

/-- The packets a sequence of calls enqueues. -/
def enqueued (calls : List (Call α)) : List α := calls.flatMap Call.new

def Call.run (tx : Nat → Nat) (bursts : Nat) (q : PortQueue α) : Call α → Option (Sent α)
  | .one m => sendOnePacket tx bursts q m
  | .all => sendAllPackets tx bursts q

def runCalls (tx : Nat → Nat) : List (Call α) → Nat → PortQueue α → Option (Sent α)
  | [], bursts, q => some ⟨q, bursts, []⟩
  | c :: calls, bursts, q =>
      (c.run tx bursts q).bind fun r =>
        (runCalls tx calls r.bursts r.queue).map fun r' =>
          { r' with events := r.events ++ r'.events }

theorem Call.run_spec (tx : Nat → Nat) (bursts : Nat) {q : PortQueue α} (c : Call α)
    (h : q.count < maxPktsInQueue) :
    ∃ r, c.run tx bursts q = some r ∧ r.Accounts q c.new := by
  cases c with
  | one m => exact sendOnePacket_spec tx bursts m h
  | all =>
      obtain ⟨r, hr, -, hacc⟩ := sendAllPackets_spec tx bursts q
      exact ⟨r, hr, hacc⟩

/-- The invariant of a run, from any queue with a free slot. -/
theorem runCalls_spec (tx : Nat → Nat) : ∀ (calls : List (Call α)) (bursts : Nat)
    {q : PortQueue α}, q.count < maxPktsInQueue →
    ∃ r, runCalls tx calls bursts q = some r ∧ r.queue.count < maxPktsInQueue
      ∧ (∀ slot m, .write slot m ∈ r.events → slot < maxPktsInQueue)
      ∧ (accepted r.events ++ freed r.events ++ r.queue.queued).Perm (q.queued ++ enqueued calls)
      ∧ (accepted r.events ++ r.queue.queued).Sublist (q.queued ++ enqueued calls)
      ∧ FreedWhenRefused r.events
  | [], bursts, q, h => by
      refine ⟨⟨q, bursts, []⟩, rfl, h, by simp, ?_, ?_, freedWhenRefused_of_freed rfl⟩
      · simp [accepted, freed, enqueued]
      · simp [accepted, enqueued]
  | c :: calls, bursts, q, h => by
      obtain ⟨r, hr, hcount, hacc, -, hwrites, hrefused, -⟩ := c.run_spec tx bursts h
      obtain ⟨r', hr', hcount', hwrites', hperm, hsub, hrefused'⟩ :=
        runCalls_spec tx calls r.bursts hcount
      have hnew : enqueued (c :: calls) = c.new ++ enqueued calls := List.flatMap_cons
      refine ⟨{ r' with events := r.events ++ r'.events }, ?_, hcount', ?_, ?_, ?_,
        hrefused.append hrefused'⟩
      · rw [runCalls, hr, Option.bind_some, hr']
        rfl
      · intro slot m hmem
        rcases List.mem_append.mp hmem with hmem | hmem
        · exact hwrites slot m hmem
        · exact hwrites' slot m hmem
      · have hswap : (accepted (r.events ++ r'.events) ++ freed (r.events ++ r'.events)
            ++ r'.queue.queued).Perm
            (accepted r.events ++ (freed r.events
              ++ (accepted r'.events ++ freed r'.events ++ r'.queue.queued))) := by
          simp only [accepted_append, freed_append, List.append_assoc]
          exact (List.perm_append_comm_assoc _ _ _).append_left _
        refine hswap.trans ?_
        rw [hnew, ← List.append_assoc q.queued, ← hacc]
        simpa only [List.append_assoc] using
          (hperm.append_left (freed r.events)).append_left (accepted r.events)
      · have hstep : (accepted r.events ++ (r.queue.queued ++ enqueued calls)).Sublist
            (q.queued ++ (c.new ++ enqueued calls)) := by
          rw [← List.append_assoc q.queued, ← hacc, List.append_assoc, List.append_assoc]
          exact (List.sublist_append_right _ _).append_left _
        rw [hnew]
        refine List.Sublist.trans ?_ hstep
        simp only [accepted_append, List.append_assoc]
        exact hsub.append_left _

/-- Whatever the driver accepts and whatever calls are made on a
constructed queue, the calls return, write in range and leave a free
slot; each packet enqueued is accepted, freed or still queued, those
accepted and then those queued in the order they were enqueued; and
nothing is freed that the driver did not just refuse. -/
theorem runCalls_empty (tx : Nat → Nat) (calls : List (Call α)) (slots : Vector α maxPktsInQueue) :
    ∃ r, runCalls tx calls 0 (PortQueue.empty slots) = some r
      ∧ r.queue.count < maxPktsInQueue
      ∧ (∀ slot m, .write slot m ∈ r.events → slot < maxPktsInQueue)
      ∧ (accepted r.events ++ freed r.events ++ r.queue.queued).Perm (enqueued calls)
      ∧ (accepted r.events ++ r.queue.queued).Sublist (enqueued calls)
      ∧ FreedWhenRefused r.events := by
  have hrun := runCalls_spec tx calls 0 (q := PortQueue.empty slots) (Nat.zero_lt_succ _)
  simpa using hrun

end Yapas
