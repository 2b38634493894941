import Yapas.Execution

/-!
# What becomes of the buffers

Two properties of a run and the exact conditions for them.

`Conserved` is about every buffer the core has acquired, from the driver
or from the pool: it has been given back once or handed to one slot, and
what was handed over was sent, freed or is still queued. A packet
without a rule is the one that is lost, because the loop goes on to the
next before it comes to the release (`conserved_iff`).

`OnlyPackets` is about null pointers in the queues. A copy that fails is
handed over like any other (`onlyPackets_iff`).
-/

namespace Yapas

/-! ## No buffer is lost or given back twice -/

/-- The names of the buffers a core has acquired. -/
def Lcore.acquired (s : Lcore) : List BufId :=
  s.rxPackets.map Packet.id ++ s.trace.flatMap Event.allocated

def Lcore.released (s : Lcore) : List BufId := s.trace.flatMap Event.released

/-- Every received packet has been given back once and every copy made
handed to one slot; altogether each buffer acquired was given back or
handed over, none of them twice; and on each queue the packets written
are those accepted by the driver, freed and still queued. -/
structure Conserved (s : Lcore) : Prop where
  received : ∀ m ∈ s.rxPackets, s.released.count m.id = 1
  made : ∀ id ∈ s.trace.flatMap Event.made, (handedIds s.trace).count id = 1
  every : (s.released ++ handedIds s.trace).Perm s.acquired
  once : s.acquired.Nodup
  settled : ∀ p, (accepted (onPort p s.trace) ++ (freed (onPort p s.trace)
    ++ (s.queues p).queued)).Perm (written (onPort p s.trace))

theorem copyOf_id {t : Thread} {n : Nat} {src : Mbuf} {c : Packet} (h : t.copyOf n src = some c) :
    c.id = .copy n := by
  unfold Thread.copyOf at h
  split at h
  · cases h
  · obtain ⟨buf, -, rfl⟩ := Option.map_eq_some_iff.mp h
    rfl

section Books

variable {t : Thread} {rx : List Packet} {out : List (UInt8 × Mbuf)} {gone : List BufId}
  {s : Lcore}

/-- No received packet is handed to a queue. -/
theorem Books.handedIds_copy (h : Books t rx out gone s) :
    ∀ id ∈ handedIds s.trace, ∃ n, id = .copy n := by
  intro id hid
  rw [handedIds, h.handed_eq, List.mem_filterMap] at hid
  obtain ⟨o, ho, hid⟩ := hid
  obtain ⟨e, -, rfl⟩ := List.mem_map.mp ho
  obtain ⟨c, hc, rfl⟩ := Option.map_eq_some_iff.mp hid
  exact ⟨e.2, copyOf_id hc⟩

theorem Books.allocated_copy (h : Books t rx out gone s) :
    ∀ id ∈ s.trace.flatMap Event.allocated, ∃ n, id = .copy n := by
  intro id hid
  obtain ⟨n, -, rfl⟩ := List.mem_map.mp (h.allocated_sub.subset hid)
  exact ⟨n, rfl⟩

theorem Books.names_rx (h : Books t rx out gone s) : ∀ m ∈ rx, ∃ n, m.id = .rx n := by
  intro m hm
  have hid : m.id ∈ rx.map Packet.id := List.mem_map_of_mem hm
  rw [h.names_eq] at hid
  obtain ⟨n, -, heq⟩ := List.mem_map.mp hid
  exact ⟨n, heq.symm⟩

theorem Books.names_nodup (h : Books t rx out gone s) : (rx.map Packet.id).Nodup := by
  rw [h.names_eq]
  exact List.Nodup.map (fun _ _ => BufId.rx.inj) List.nodup_range

theorem Books.acquired_nodup (h : Books t rx out gone s) : s.acquired.Nodup := by
  have hrx : s.rxPackets = rx := h.received_eq
  have halloc : (s.trace.flatMap Event.allocated).Nodup :=
    h.allocated_sub.nodup (List.Nodup.map (fun _ _ => BufId.copy.inj) List.nodup_range)
  rw [Lcore.acquired, hrx, List.nodup_append]
  refine ⟨h.names_nodup, halloc, ?_⟩
  rintro id hid id' hid' rfl
  obtain ⟨n, hn⟩ := h.allocated_copy id hid'
  obtain ⟨m, hm, rfl⟩ := List.mem_map.mp hid
  obtain ⟨k, hk⟩ := h.names_rx m hm
  rw [hn] at hk
  cases hk

/-- A received packet is given back as often as it is due to be. -/
theorem Books.count_released (h : Books t rx out gone s) {m : Packet} (hm : m ∈ rx) :
    s.released.count m.id = gone.count m.id := by
  obtain ⟨n, hn⟩ := h.names_rx m hm
  have hhanded : (handedIds s.trace).count m.id = 0 := by
    refine List.count_eq_zero.mpr fun hid => ?_
    obtain ⟨k, hk⟩ := h.handedIds_copy _ hid
    rw [hn] at hk
    cases hk
  have halloc : (s.trace.flatMap Event.allocated).count m.id = 0 := by
    refine List.count_eq_zero.mpr fun hid => ?_
    obtain ⟨k, hk⟩ := h.allocated_copy _ hid
    rw [hn] at hk
    cases hk
  have hbal := h.balanced m.id
  rw [hhanded, halloc] at hbal
  rw [Lcore.released]
  omega

end Books

/-- What is due to be given back, packet by packet. -/
theorem due_eq_map {t : Thread} {p : UInt8} : ∀ {ms : List Packet},
    (∀ m ∈ ms, t.Readable p m) → (∀ m ∈ ms, ¬ t.Uncovered p m) →
    t.due p ms = ms.map Packet.id
  | [], _, _ => rfl
  | m :: ms, hread, hcover => by
      obtain ⟨v, hv⟩ := Option.isSome_iff_exists.mp (hread m (by simp))
      have hgone : v.gone m.id = [m.id] := by
        cases v with
        | noRule => exact absurd hv (hcover m (by simp))
        | rejected | rule _ _ => rfl
      have htail : t.due p ms = ms.map Packet.id :=
        due_eq_map (fun m' hm' => hread m' (by simp [hm'])) fun m' hm' => hcover m' (by simp [hm'])
      have hcons := t.due_append p [m] ms
      rw [List.singleton_append, Thread.due_singleton hv, hgone, htail] at hcons
      exact hcons

theorem not_mem_due {t : Thread} {p : UInt8} {ms : List Packet} {m : Packet}
    (hnames : (ms.map Packet.id).Nodup) (hm : m ∈ ms) (h : t.Uncovered p m) :
    m.id ∉ t.due p ms := by
  intro hid
  obtain ⟨m', hm', hid'⟩ := List.mem_flatMap.mp hid
  have hsame : m.id = m'.id := by
    cases hv : t.verdict p m'.buf with
    | none =>
        rw [hv] at hid'
        cases hid'
    | some v =>
        rw [hv] at hid'
        cases v with
        | noRule => cases hid'
        | rejected | rule _ _ => exact List.mem_singleton.mp hid'
  obtain rfl := List.inj_on_of_nodup_map hnames hm hm' hsame
  rw [h] at hid'
  cases hid'

/-- A run that ends has lost no buffer and given back none twice if and
only if every packet it received and PreparePacket accepted has a
rule. -/
theorem conserved_iff {t : Thread} {file : Option Text} {port : Port} (h : t.Serves file port)
    (tscHz : UInt64) (entry : Thread.Entry) (ticks : List Thread.Tick)
    (slots : UInt8 → Vector Ptr maxPktsInQueue) {s : Lcore}
    (hrun : t.runProcessing tscHz entry ticks (Lcore.start slots) = (some (), s)) :
    Conserved s ↔ ∀ m ∈ s.rxPackets, ¬ t.Uncovered port.portId m := by
  obtain ⟨hworked, hends⟩ := Thread.run_spec h tscHz entry ticks slots hrun
  have hread := hends.mp rfl
  rw [Thread.worked_eq hread] at hworked
  have hbooks := hworked.ledger.books
  have hnodup := hbooks.acquired_nodup
  constructor
  · intro hconserved m hm huncovered
    have hcount := hconserved.received m hm
    rw [hbooks.count_released hm] at hcount
    have hmem : m.id ∈ t.due port.portId s.rxPackets := List.count_pos_iff.mp (by omega)
    exact not_mem_due hbooks.names_nodup hm huncovered hmem
  · intro hcover
    have hdue := due_eq_map hread hcover
    have hevery : (s.released ++ handedIds s.trace).Perm s.acquired := by
      rw [List.perm_iff_count]
      intro id
      have hbal := hbooks.balanced id
      rw [hdue] at hbal
      rw [Lcore.acquired, List.count_append, List.count_append]
      simp only [Lcore.released]
      omega
    refine ⟨fun m hm => ?_, fun id hid => ?_, hevery, hnodup, hworked.ledger.row.settled⟩
    · rw [hbooks.count_released hm, hdue]
      exact List.count_eq_one_of_mem hbooks.names_nodup (List.mem_map_of_mem hm)
    · rw [hbooks.made_eq] at hid
      have hhanded : (handedIds s.trace).Nodup :=
        (List.nodup_append.mp (hevery.nodup_iff.mpr hnodup)).2.1
      exact List.count_eq_one_of_mem hhanded hid

theorem run_ends {r : Option Unit × Lcore} (h : r.1.isSome) : r = (some (), r.2) :=
  Prod.ext (Option.some_get h).symm rfl

theorem conserved_tagRun : Conserved tagRun.2 := by
  have hrun : tagRun = (some (), tagRun.2) := run_ends (by decide +kernel)
  have hcover : ∀ m ∈ tagRun.2.rxPackets, ¬ tagThread.Uncovered 0 m := by decide +kernel
  exact (conserved_iff tagThread_serves 2000000000 coldStart [udpTick] (fun _ => noSlots)
    hrun).mpr hcover

/-- The same packet at the second port, for which there is no rule. -/
def blockedRun : Option Unit × Lcore :=
  (Thread.started twoPorts (some tagRule) 0 tagRule_initialized 2 readyDriver).runProcessing
    2000000000 coldStart [udpTick] (Lcore.start fun _ => noSlots)

theorem not_conserved_blockedRun : blockedRun.1 = some () ∧ ¬ Conserved blockedRun.2 := by
  refine ⟨by decide +kernel, fun h => ?_⟩
  have hmem : (⟨.rx 0, udpMbuf⟩ : Packet) ∈ blockedRun.2.rxPackets := by decide +kernel
  have hcount : blockedRun.2.released.count (.rx 0) = 0 := by decide +kernel
  have hone := h.received _ hmem
  rw [hcount] at hone
  cases hone

/-! ## No null pointer is queued -/

/-- No slot of a queue holds the null pointer, none was ever offered to
the driver, and a failed copy was not written to a slot. -/
structure OnlyPackets (s : Lcore) : Prop where
  queued : ∀ p, none ∉ (s.queues p).queued
  offered : ∀ p ms ret, .tx p (.burst ms ret) ∈ s.trace → none ∉ ms
  written : ∀ p slot, .tx p (.write slot none) ∉ s.trace

/-- The lengths of the copies a packet's rule asks for: four bytes more
for each push the headroom has room for. -/
def Thread.copySizes (t : Thread) (portId : UInt8) (m : Packet) : List Nat :=
  match t.verdict portId m.buf with
  | some (.rule _ actions) =>
      (actions.filterMap Action.outputPort?).map fun _ =>
        m.buf.pktLen + 4 * min (actions.filter Action.isPush).length (m.buf.headroom.length / 4)
  | _ => []

/-- The `n`-th copy the rules ask for finds a buffer in the pool and
fits its data room. -/
def Thread.CopiesSucceed (t : Thread) (port : Port) (s : Lcore) : Prop :=
  ∀ n size, ((t.worked port s).flatMap (t.copySizes port.portId))[n]? = some size →
    (t.driver.alloc n).isSome ∧ size ≤ mbufDefaultDataroom

theorem executePush_size (m : Mbuf) {a : Action} (ha : a.isPush = true) :
    (4 ≤ m.headroom.length → (executePush m a).pktLen = m.pktLen + 4
        ∧ (executePush m a).headroom.length + 4 = m.headroom.length)
      ∧ (m.headroom.length < 4 → executePush m a = m) := by
  cases hpre : m.prepend 4 with
  | none =>
      have hshort : m.headroom.length < 4 := by
        by_contra hlong
        obtain ⟨m', hm'⟩ := Mbuf.prepend_isSome (Nat.le_of_not_lt hlong)
        rw [hpre] at hm'
        cases hm'
      refine ⟨fun hlong => absurd hshort (Nat.not_lt.mpr hlong), fun _ => ?_⟩
      cases a with
      | drop | output _ => cases ha
      | pushVlan w => simp only [executePush, executePushVlan, rteVlanInsert, hpre, Option.map_none]
      | pushMpls w => simp only [executePush, executePushMpls, hpre]
  | some m' =>
      obtain ⟨hlong, hh, -, hp, -⟩ := Mbuf.prepend_spec hpre
      refine ⟨fun _ => ?_, fun hshort => absurd hlong (Nat.not_le.mpr hshort)⟩
      have hsize : m'.pktLen = m.pktLen + 4 ∧ m'.headroom.length + 4 = m.headroom.length := by
        rw [hp, hh, List.length_take]
        omega
      cases a with
      | drop | output _ => cases ha
      | pushVlan w =>
          simpa only [executePush, executePushVlan, rteVlanInsert, hpre, Option.map_some,
            Mbuf.overwrite_pktLen, Mbuf.overwrite_headroom] using hsize
      | pushMpls w =>
          simpa only [executePush, executePushMpls, hpre, Mbuf.overwrite_pktLen,
            Mbuf.overwrite_headroom] using hsize

/-- Pushes beyond the headroom are left out. -/
theorem pushAll_pktLen : ∀ {pushes : List Action} (m : Mbuf), (∀ a ∈ pushes, a.isPush = true) →
    (pushAll m pushes).pktLen = m.pktLen + 4 * min pushes.length (m.headroom.length / 4)
  | [], m, _ => by
      rw [List.length_nil, Nat.zero_min, Nat.mul_zero, Nat.add_zero]
      rfl
  | a :: pushes, m, h => by
      obtain ⟨hlong, hshort⟩ := executePush_size m (h a (by simp))
      have htail : ∀ b ∈ pushes, b.isPush = true := fun b hb => h b (by simp [hb])
      have ih := pushAll_pktLen (executePush m a) htail
      have hcons : pushAll m (a :: pushes) = pushAll (executePush m a) pushes := rfl
      rw [hcons, ih, List.length_cons]
      by_cases hroom : 4 ≤ m.headroom.length
      · obtain ⟨hp, hh⟩ := hlong hroom
        rw [hp]
        omega
      · rw [hshort (Nat.lt_of_not_le hroom)]
        omega

theorem length_dueCopies (t : Thread) (port : Port) (s : Lcore) :
    (t.dueCopies port s).map (fun e => e.2.length)
      = (t.worked port s).flatMap (t.copySizes port.portId) := by
  rw [Thread.dueCopies, List.map_flatMap]
  congr 1
  funext m
  unfold Thread.ruleCopies Thread.copySizes
  cases hv : t.verdict port.portId m.buf with
  | none => rfl
  | some v =>
      cases v with
      | rejected | noRule => rfl
      | rule buf actions =>
          obtain ⟨protocol, hprep, -, -⟩ := Thread.verdict_rule hv
          obtain ⟨hh, -, hp⟩ := preparePacket_keeps hprep
          have hpush : ∀ a ∈ actions.filter Action.isPush, a.isPush = true := by simp
          have hlen := pushAll_pktLen buf hpush
          simp only [List.map_map, Function.comp_def, Mbuf.length_data, hlen, hh, hp]

/-- A null pointer is handed over exactly for a copy that fails. -/
theorem copiesSucceed_iff {t : Thread} {file : Option Text} {port : Port} (h : t.Serves file port)
    {s : Lcore} (hs : t.Worked port.portId s.rxPackets (t.worked port s) s) :
    t.CopiesSucceed port s ↔ ∀ p, (p, none) ∉ s.trace.flatMap Event.handed := by
  have hnull : (∃ p, (p, none) ∈ s.trace.flatMap Event.handed)
      ↔ ∃ e ∈ (t.dueCopies port s).zipIdx, t.delivered e.2 e.1.2 = none := by
    have hdata := Thread.handedData_eq h hs
    constructor
    · rintro ⟨p, hp⟩
      have hmem : (p, none) ∈ s.handedData := List.mem_map.mpr ⟨_, hp, rfl⟩
      rw [hdata] at hmem
      obtain ⟨e, he, heq⟩ := List.mem_map.mp hmem
      exact ⟨e, he, (Prod.mk.inj heq).2⟩
    · rintro ⟨e, he, hfail⟩
      have hmem : (e.1.1, none) ∈ s.handedData := by
        rw [hdata, ← hfail]
        exact List.mem_map_of_mem he
      obtain ⟨o, ho, heq⟩ := List.mem_map.mp hmem
      have hptr : o.2 = none := Option.map_eq_none_iff.mp (Prod.mk.inj heq).2
      refine ⟨o.1, ?_⟩
      rw [← hptr]
      exact ho
  have hsizes : t.CopiesSucceed port s
      ↔ ∀ e ∈ (t.dueCopies port s).zipIdx, t.delivered e.2 e.1.2 ≠ none := by
    unfold Thread.CopiesSucceed Thread.delivered
    rw [← length_dueCopies]
    constructor
    · intro hall e he
      have hget := List.mem_zipIdx_iff_getElem?.mp he
      rw [if_pos (hall e.2 e.1.2.length (by rw [List.getElem?_map, hget]; rfl))]
      exact Option.some_ne_none _
    · intro hall n size hget
      rw [List.getElem?_map, Option.map_eq_some_iff] at hget
      obtain ⟨c, hc, rfl⟩ := hget
      by_contra hfail
      exact hall (c, n) (List.mem_zipIdx_iff_getElem?.mpr hc) (if_neg hfail)
  rw [hsizes]
  constructor
  · intro hall p hp
    obtain ⟨e, he, hfail⟩ := hnull.mp ⟨p, hp⟩
    exact hall e he hfail
  · intro hno e he hfail
    obtain ⟨p, hp⟩ := hnull.mpr ⟨e, he, hfail⟩
    exact hno p hp

/-- In every run of a core, ended or not, the queues have held nothing
but packets if and only if every copy asked for found a buffer and fit
it. -/
theorem onlyPackets_iff {t : Thread} {file : Option Text} {port : Port} (h : t.Serves file port)
    (tscHz : UInt64) (entry : Thread.Entry) (ticks : List Thread.Tick)
    (slots : UInt8 → Vector Ptr maxPktsInQueue) {o : Option Unit} {s : Lcore}
    (hrun : t.runProcessing tscHz entry ticks (Lcore.start slots) = (o, s)) :
    OnlyPackets s ↔ t.CopiesSucceed port s := by
  obtain ⟨hworked, -⟩ := Thread.run_spec h tscHz entry ticks slots hrun
  have hrow := hworked.ledger.row
  rw [copiesSucceed_iff h hworked]
  constructor
  · intro honly p hmem
    obtain ⟨e, he, hp⟩ := List.mem_flatMap.mp hmem
    cases e with
    | tx q e' =>
        cases e' with
        | write slot m =>
            obtain ⟨rfl, rfl⟩ := Prod.mk.inj (List.mem_singleton.mp hp)
            exact honly.written p slot he
        | burst _ _ | free _ => cases hp
    | _ => cases hp
  · intro hnull
    have hwritten : ∀ p, none ∉ written (onPort p s.trace) := by
      intro p hmem
      exact hnull p (mem_written_onPort.mp hmem)
    refine ⟨fun p hmem => hwritten p ?_, fun p ms ret hburst hmem => hwritten p ?_,
      fun p slot hmem => hnull p ?_⟩
    · exact (hrow.settled p).subset (List.mem_append_right _ (List.mem_append_right _ hmem))
    · exact (hrow.offered p ms ret hburst).2 none hmem
    · exact List.mem_flatMap.mpr ⟨_, hmem, List.mem_singleton.mpr rfl⟩

theorem onlyPackets_tagRun : OnlyPackets tagRun.2 := by
  refine (onlyPackets_iff tagThread_serves 2000000000 coldStart [udpTick] (fun _ => noSlots)
    (Prod.mk.eta (p := tagRun)).symm).mpr fun n size hget => ?_
  have hsizes : (tagThread.worked ⟨0⟩ tagRun.2).flatMap (tagThread.copySizes 0) = [46] := by
    decide +kernel
  rw [hsizes, List.getElem?_singleton] at hget
  split at hget
  · obtain rfl := Option.some.inj hget
    exact ⟨rfl, by decide⟩
  · cases hget

/-- The same run with an empty pool. -/
def exhaustedRun : Option Unit × Lcore :=
  (Thread.started twoPorts (some tagRule) 0 tagRule_initialized 1
    { readyDriver with alloc := fun _ => none }).runProcessing
    2000000000 coldStart [udpTick] (Lcore.start fun _ => noSlots)

theorem not_onlyPackets_exhaustedRun : exhaustedRun.1 = some () ∧ ¬ OnlyPackets exhaustedRun.2 := by
  refine ⟨by decide +kernel, fun h => h.queued 1 ?_⟩
  decide +kernel

end Yapas
