import Yapas.Assignment
import Yapas.Ownership

/-!
# The protocol statistics

Every port has a table of counters with a row for each core, so that the
cores need no lock; a reading sums up the rows. The tables are left out
of the packet loop's state: a log holds the calls of
`UpdateProtocolStats`, and the tables are what these calls, in the order
of an interleaving, make of tables full of zeros (`tablesAfter`).

What the loop classifies is said by `Recorded`, which follows the log
event by event and knows the packets received and those of them dealt
with. The totals agree with it as long as the row of every core in use
exists: the tables have 16 rows, and the numbers of cores go up to 127.
-/

namespace Yapas

/-- `kMAX_LCORES`. -/
def maxLcores : Nat := 16

structure ProtocolStats where
  http : UInt64
  sip : UInt64
  rtp : UInt64
  rtsp : UInt64

namespace ProtocolStats

def counter (row : ProtocolStats) : Protocol → UInt64
  | .http => row.http
  | .sip => row.sip
  | .rtp => row.rtp
  | .rtsp => row.rtsp
  | .unknown => 0

def fetchAdd (row : ProtocolStats) : Protocol → ProtocolStats
  | .http => { row with http := row.http + 1 }
  | .sip => { row with sip := row.sip + 1 }
  | .rtp => { row with rtp := row.rtp + 1 }
  | .rtsp => { row with rtsp := row.rtsp + 1 }
  | .unknown => row

theorem counter_fetchAdd_self (row : ProtocolStats) {q : Protocol} (hq : q ≠ .unknown) :
    (row.fetchAdd q).counter q = row.counter q + 1 := by
  cases q with
  | unknown => exact absurd rfl hq
  | _ => rfl

theorem counter_fetchAdd_other (row : ProtocolStats) {q q' : Protocol} (hq : q' ≠ q) :
    (row.fetchAdd q).counter q' = row.counter q' := by
  cases q <;> cases q' <;> first | rfl | exact absurd rfl hq

end ProtocolStats

/-- `protocol_stats_` of a port. -/
abbrev StatsTable := Vector ProtocolStats maxLcores

namespace StatsTable

/-- A constructed port's table. -/
def zero : StatsTable := Vector.replicate maxLcores ⟨0, 0, 0, 0⟩

/-- `UpdateProtocolStats`; `none` is a row outside the table. -/
def updateProtocolStats (stats : StatsTable) (protocol : Protocol) (lcoreId : Nat) :
    Option StatsTable :=
  match protocol with
  | .unknown => some stats
  | protocol =>
      if h : lcoreId < maxLcores then
        some (stats.set lcoreId (stats[lcoreId].fetchAdd protocol))
      else none

/-- `GetProtocolStats`, of the rows as they were loaded. -/
def getProtocolStats (stats : StatsTable) (protocol : Protocol) : UInt64 :=
  stats.toList.foldl (fun ret row => ret + row.counter protocol) 0

theorem updateProtocolStats_eq_some {stats stats' : StatsTable} {q : Protocol} {l : Nat}
    (hq : q ≠ .unknown) :
    stats.updateProtocolStats q l = some stats'
      ↔ ∃ h : l < maxLcores, stats' = stats.set l (stats[l].fetchAdd q) := by
  have hmatch : stats.updateProtocolStats q l
      = if h : l < maxLcores then some (stats.set l (stats[l].fetchAdd q)) else none := by
    cases q with
    | unknown => exact absurd rfl hq
    | _ => rfl
  rw [hmatch]
  constructor
  · intro h
    split at h
    · rename_i hl
      exact ⟨hl, (Option.some.inj h).symm⟩
    · cases h
  · rintro ⟨hl, rfl⟩
    rw [dif_pos hl]

theorem counter_update {stats stats' : StatsTable} {q q' : Protocol} {l l' : Nat}
    (h : stats.updateProtocolStats q' l' = some stats') (hq : q ≠ .unknown) (hl : l < maxLcores) :
    stats'[l].counter q = stats[l].counter q + if q' = q ∧ l' = l then 1 else 0 := by
  by_cases hunknown : q' = .unknown
  · subst hunknown
    obtain rfl := Option.some.inj h
    rw [if_neg (fun hsame => hq hsame.1.symm), UInt64.add_zero]
  · obtain ⟨hl', rfl⟩ := (updateProtocolStats_eq_some hunknown).mp h
    by_cases hrow : l' = l
    · subst hrow
      rw [Vector.getElem_set_self]
      by_cases hqq : q' = q
      · subst hqq
        rw [if_pos ⟨rfl, rfl⟩, ProtocolStats.counter_fetchAdd_self _ hq]
      · rw [if_neg (fun hsame => hqq hsame.1), UInt64.add_zero,
          ProtocolStats.counter_fetchAdd_other _ (Ne.symm hqq)]
    · rw [Vector.getElem_set_ne _ _ hrow, if_neg (fun hsame => hrow hsame.2), UInt64.add_zero]

/-- The counters of one protocol, row by row. -/
def counters (stats : StatsTable) (q : Protocol) : List UInt64 := stats.toList.map (·.counter q)

theorem getProtocolStats_eq (stats : StatsTable) (q : Protocol) :
    stats.getProtocolStats q = (stats.counters q).foldl (· + ·) 0 := by
  rw [counters, List.foldl_map]
  rfl

theorem length_counters (stats : StatsTable) (q : Protocol) :
    (stats.counters q).length = maxLcores := by
  rw [counters, List.length_map, Vector.length_toList]

theorem counters_getElem (stats : StatsTable) (q : Protocol) {i : Nat}
    (hi : i < (stats.counters q).length) (h : i < maxLcores) :
    (stats.counters q)[i] = stats[i].counter q := by
  simp [counters]

/-- An update leaves the totals of the other protocols alone. -/
theorem getProtocolStats_update {stats stats' : StatsTable} {q q' : Protocol} {l : Nat}
    (h : stats.updateProtocolStats q l = some stats') (hq : q' ≠ q) :
    stats'.getProtocolStats q' = stats.getProtocolStats q' := by
  by_cases hunknown : q = .unknown
  · subst hunknown
    obtain rfl := Option.some.inj h
    rfl
  · obtain ⟨hl, rfl⟩ := (updateProtocolStats_eq_some hunknown).mp h
    have hsame : counters (stats.set l (stats[l].fetchAdd q)) q' = stats.counters q' := by
      rw [counters, Vector.toList_set, List.map_set, ProtocolStats.counter_fetchAdd_other _ hq,
        ← counters_getElem stats q' (by rwa [length_counters]) hl]
      exact List.set_getElem_self _
    rw [getProtocolStats_eq, getProtocolStats_eq, hsame]

theorem foldl_add_zeros : ∀ {cs : List UInt64} (a : UInt64), (∀ c ∈ cs, c = 0) →
    cs.foldl (· + ·) a = a
  | [], _, _ => rfl
  | c :: cs, a, h => by
      rw [List.foldl_cons, h c List.mem_cons_self, UInt64.add_zero]
      exact foldl_add_zeros a fun c' hc' => h c' (List.mem_cons_of_mem c hc')

/-- Where only one core has counted, its row is the total. -/
theorem getProtocolStats_single {stats : StatsTable} {q : Protocol} {l : Nat}
    (hl : l < maxLcores)
    (hother : ∀ i (h : i < maxLcores), i ≠ l → stats[i].counter q = 0) :
    stats.getProtocolStats q = stats[l].counter q := by
  have hlen := length_counters stats q
  have hl' : l < (stats.counters q).length := by omega
  have hfront : ∀ c ∈ (stats.counters q).take l, c = 0 := by
    intro c hc
    obtain ⟨i, hi, rfl⟩ := List.mem_take_iff_getElem.mp hc
    rw [counters_getElem stats q _ (by omega)]
    exact hother i (by omega) (by omega)
  have hback : ∀ c ∈ (stats.counters q).drop (l + 1), c = 0 := by
    intro c hc
    obtain ⟨i, hi, rfl⟩ := List.mem_drop_iff_getElem.mp hc
    rw [counters_getElem stats q _ (by omega)]
    exact hother _ (by omega) (by omega)
  rw [getProtocolStats_eq, ← List.take_append_drop l (stats.counters q),
    List.drop_eq_getElem_cons hl', List.foldl_append, foldl_add_zeros 0 hfront, List.foldl_cons,
    foldl_add_zeros _ hback, UInt64.zero_add, counters_getElem stats q hl' hl]

end StatsTable

/-! ## The tables and the log -/

/-- What a call of `UpdateProtocolStats` is made with. -/
def Event.record? : Event → Option (UInt8 × Protocol × Nat)
  | .stats p q l => some (p, q, l)
  | _ => none

def records (es : List Event) : List (UInt8 × Protocol × Nat) := es.filterMap Event.record?

def updateTables (tables : UInt8 → StatsTable) (e : Event) : Option (UInt8 → StatsTable) :=
  match e.record? with
  | none => some tables
  | some (p, q, l) =>
      ((tables p).updateProtocolStats q l).map fun stats => Function.update tables p stats

/-- The tables of the ports after the calls in a log; `none` after a
call that missed the table. -/
def tablesAfter (es : List Event) : Option (UInt8 → StatsTable) :=
  es.foldlM updateTables fun _ => StatsTable.zero

theorem tablesAfter_concat (es : List Event) (e : Event) :
    tablesAfter (es ++ [e]) = (tablesAfter es).bind fun tables => updateTables tables e := by
  rw [tablesAfter, List.foldlM_append]
  show (tablesAfter es).bind _ = _
  congr 1
  funext tables
  rw [List.foldlM_cons]
  cases updateTables tables e <;> rfl

theorem records_concat (es : List Event) (e : Event) :
    records (es ++ [e]) = records es ++ e.record?.toList := by
  rw [records, List.filterMap_append]
  cases h : e.record? <;> simp [h, records]

/-- Each counter counts the calls for it. -/
theorem counter_tablesAfter {es : List Event} {tables : UInt8 → StatsTable}
    (h : tablesAfter es = some tables) (p : UInt8) {q : Protocol} (hq : q ≠ .unknown) {l : Nat}
    (hl : l < maxLcores) :
    (tables p)[l].counter q = UInt64.ofNat ((records es).count (p, q, l)) := by
  induction es using List.reverseRecOn generalizing tables with
  | nil =>
      obtain rfl := Option.some.inj h
      cases q <;> simp [StatsTable.zero, ProtocolStats.counter, records]
  | append_singleton es e ih =>
      rw [tablesAfter_concat] at h
      obtain ⟨before, hbefore, h⟩ := Option.bind_eq_some_iff.mp h
      have ih := ih hbefore
      rw [records_concat, List.count_append]
      unfold updateTables at h
      cases hrec : e.record? with
      | none =>
          rw [hrec] at h
          obtain rfl := Option.some.inj h
          simpa using ih
      | some r =>
          obtain ⟨p', q', l'⟩ := r
          rw [hrec] at h
          obtain ⟨stats, hstats, rfl⟩ := Option.map_eq_some_iff.mp h
          by_cases hp : p = p'
          · subst hp
            have hstep := StatsTable.counter_update hstats hq hl
            rw [Function.update_self, hstep, ih]
            by_cases hsame : q' = q ∧ l' = l
            · obtain ⟨rfl, rfl⟩ := hsame
              simp [UInt64.ofNat_add]
            · rw [if_neg hsame]
              have hne : (p, q', l') ≠ (p, q, l) := fun heq => by
                obtain ⟨-, heq⟩ := Prod.mk.inj heq
                exact hsame (Prod.mk.inj heq)
              simp [hne]
          · have hne : (p', q', l') ≠ (p, q, l) := fun heq => hp (Prod.mk.inj heq).1.symm
            rw [Function.update_of_ne hp, ih]
            simp [hne]

/-- No call misses exactly when all are for rows of the table. -/
theorem tablesAfter_isSome {es : List Event} (hknown : ∀ r ∈ records es, r.2.1 ≠ .unknown) :
    (tablesAfter es).isSome ↔ ∀ r ∈ records es, r.2.2 < maxLcores := by
  induction es using List.reverseRecOn with
  | nil => simp [tablesAfter, records]
  | append_singleton es e ih =>
      rw [records_concat] at hknown ⊢
      have ih := ih fun r hr => hknown r (List.mem_append_left _ hr)
      rw [tablesAfter_concat]
      cases hrec : e.record? with
      | none =>
          have hstep : (fun tables => updateTables tables e) = some := by
            funext tables
            rw [updateTables, hrec]
          rw [hstep, Option.bind_fun_some, ih]
          simp
      | some r =>
          obtain ⟨p, q, l⟩ := r
          have hq : q ≠ .unknown := hknown (p, q, l) (by simp [hrec])
          constructor
          · intro h r hr
            obtain ⟨tables, htables, hupd⟩ := Option.bind_eq_some_iff.mp
              (Option.some_get h).symm
            rcases List.mem_append.mp hr with hr | hr
            · exact ih.mp (by rw [htables]; rfl) r hr
            · obtain rfl : r = (p, q, l) := by simpa using hr
              rw [updateTables, hrec] at hupd
              obtain ⟨stats, hstats, -⟩ := Option.map_eq_some_iff.mp hupd
              obtain ⟨hl, -⟩ := (StatsTable.updateProtocolStats_eq_some hq).mp hstats
              exact hl
          · intro h
            obtain ⟨tables, htables⟩ := Option.isSome_iff_exists.mp
              (ih.mpr fun r hr => h r (List.mem_append_left _ hr))
            have hl : l < maxLcores := h (p, q, l) (by simp)
            have hupd : (tables p).updateProtocolStats q l
                = some ((tables p).set l ((tables p)[l].fetchAdd q)) :=
              (StatsTable.updateProtocolStats_eq_some hq).mpr ⟨hl, rfl⟩
            rw [htables, Option.bind_some, updateTables, hrec]
            simp only [hupd]
            rfl

/-! ## What a core records -/

/-- What a packet is classified as; one that `PreparePacket` rejects is
of no protocol, one that cannot be read has no class. -/
def Mbuf.classify (m : Mbuf) : Option Protocol :=
  m.prepare.bind fun (prepared, buf) => if prepared then buf.analyze else some .unknown

theorem classify_of_analyze {m buf : Mbuf} {q : Protocol} (hprep : m.prepare = some (true, buf))
    (hanalyze : buf.analyze = some q) : m.classify = some q := by
  rw [Mbuf.classify, hprep, Option.bind_some]
  exact (if_pos rfl).trans hanalyze

/-- The event is neither a reception nor a record. -/
def Event.isSilent : Event → Bool
  | .rxBurst _ _ => false
  | .stats _ _ _ => false
  | _ => true

/-- The log of the core `lcoreId`, that serves port `portId`, when it has
received `rx` and dealt with the packets `done` of them: a record for
each packet of a known protocol, in order. -/
inductive Recorded (portId : UInt8) (lcoreId : Nat) :
    List Packet → List Packet → List Event → Prop
  | start : Recorded portId lcoreId [] [] []
  | receive {rx ms : List Packet} {es : List Event} (before : Recorded portId lcoreId rx rx es) :
      Recorded portId lcoreId (rx ++ ms) rx (es ++ [.rxBurst portId ms])
  | count {done todo : List Packet} {m : Packet} {q : Protocol} {es : List Event}
      (before : Recorded portId lcoreId (done ++ m :: todo) done es)
      (class_eq : m.buf.classify = some q) (known : q ≠ .unknown) :
      Recorded portId lcoreId (done ++ m :: todo) (done ++ [m]) (es ++ [.stats portId q lcoreId])
  | pass {done todo : List Packet} {m : Packet} {es : List Event}
      (before : Recorded portId lcoreId (done ++ m :: todo) done es)
      (class_eq : m.buf.classify = some .unknown) :
      Recorded portId lcoreId (done ++ m :: todo) (done ++ [m]) es
  | other {rx done : List Packet} {e : Event} {es : List Event}
      (before : Recorded portId lcoreId rx done es) (silent : e.isSilent = true) :
      Recorded portId lcoreId rx done (es ++ [e])

namespace Recorded

variable {portId : UInt8} {lcoreId : Nat} {rx done : List Packet} {es pre : List Event}

/-- Every moment of the log is of the same kind. -/
theorem of_prefix (h : Recorded portId lcoreId rx done es) (hpre : pre <+: es) :
    ∃ rx' done', Recorded portId lcoreId rx' done' pre := by
  induction h with
  | start =>
      rw [List.prefix_nil.mp hpre]
      exact ⟨[], [], .start⟩
  | receive before ih =>
      rcases List.prefix_concat_iff.mp hpre with rfl | hpre
      · exact ⟨_, _, before.receive⟩
      · exact ih hpre
  | count before hclass hknown ih =>
      rcases List.prefix_concat_iff.mp hpre with rfl | hpre
      · exact ⟨_, _, before.count hclass hknown⟩
      · exact ih hpre
  | pass before hclass ih => exact ih hpre
  | other before hsilent ih =>
      rcases List.prefix_concat_iff.mp hpre with rfl | hpre
      · exact ⟨_, _, before.other hsilent⟩
      · exact ih hpre

theorem record?_of_silent {e : Event} (h : e.isSilent = true) : e.record? = none := by
  cases e with
  | rxBurst p ms => rfl
  | stats p q l => cases h
  | _ => rfl

/-- All records are the core's own, for its port. -/
theorem own (h : Recorded portId lcoreId rx done es) :
    ∀ r ∈ records es, r.1 = portId ∧ r.2.1 ≠ .unknown ∧ r.2.2 = lcoreId := by
  induction h with
  | start =>
      intro r hr
      cases hr
  | receive before ih => simpa [records_concat, Event.record?] using ih
  | count before hclass hknown ih =>
      intro r hr
      rw [records_concat] at hr
      rcases List.mem_append.mp hr with hr | hr
      · exact ih r hr
      · rw [List.mem_singleton.mp hr]
        exact ⟨rfl, hknown, rfl⟩
  | pass before hclass ih => exact ih
  | other before hsilent ih => simpa [records_concat, record?_of_silent hsilent] using ih

/-- There are as many records of a protocol as packets of it. -/
theorem count_eq (h : Recorded portId lcoreId rx done es) {q : Protocol} (hq : q ≠ .unknown) :
    (records es).count (portId, q, lcoreId) = done.countP fun m => m.buf.classify = some q := by
  induction h with
  | start => rfl
  | receive before ih => simpa [records_concat, Event.record?] using ih
  | count before hclass hknown ih =>
      rw [records_concat, List.count_append, List.countP_append, ih]
      congr 1
      simp [Event.record?, hclass, List.count_singleton]
  | pass before hclass ih =>
      rw [List.countP_append, ih]
      simp [hclass, Ne.symm hq]
  | other before hsilent ih => simpa [records_concat, record?_of_silent hsilent] using ih

theorem received_eq (h : Recorded portId lcoreId rx done es) : es.flatMap Event.received = rx := by
  induction h with
  | start => rfl
  | receive before ih => rw [List.flatMap_append, ih, List.flatMap_singleton]; rfl
  | count before hclass hknown ih => rw [List.flatMap_append, ih]; simp [Event.received]
  | pass before hclass ih => exact ih
  | @other rx done e es before hsilent ih =>
      have hnone : e.received = [] := by
        cases e with
        | rxBurst p ms => cases hsilent
        | _ => rfl
      rw [List.flatMap_append, ih, List.flatMap_singleton, hnone, List.append_nil]

end Recorded

/-! ## The loop keeps the record -/

namespace Thread

variable {t : Thread} {port : Port} {rx : List Packet}

/-- The procedure logs no reception and no record. -/
def Silent {α : Type} (p : Proc Lcore α) : Prop :=
  Proc.Adds Lcore.trace (fun e => e.isSilent = true) p

theorem Works.silent {α : Type} {p : Proc Lcore α} (h : Works p) : Silent p :=
  h.mono fun e he => by
    cases e with
    | alloc _ | copied _ | free _ | tx _ _ => rfl
    | rxBurst _ _ | stats _ _ _ | link _ _ | printStats _ => cases he

theorem silent_drain (tscHz : UInt64) (port : Port) (l : Locals) (tick : Tick) :
    Silent (t.drain tscHz port l tick) := by
  have hlink : ∀ l' diffTsc, Silent (linkTimer port l' tick diffTsc) :=
    fun l' diffTsc => adds_linkTimer port l' tick diffTsc rfl
  have hstats : ∀ l' diffTsc, Silent (t.statsTimer l' diffTsc) :=
    fun l' diffTsc => adds_statsTimer l' diffTsc rfl
  simp only [drain]
  split
  · exact works_flush.silent.bind fun _ => (hlink _ _).bind fun l' => hstats l' _
  · exact .pure

/-- The state of a core that has received `rx` and dealt with `done`. -/
def RecordedAt (t : Thread) (portId : UInt8) (rx done : List Packet) (s : Lcore) : Prop :=
  Recorded portId t.lcoreId rx done s.trace

theorem Silent.recorded {α : Type} {p : Proc Lcore α} (h : Silent p) (portId : UInt8)
    (rx done : List Packet) :
    Proc.Meets (t.RecordedAt portId rx done) p (fun _ => t.RecordedAt portId rx done)
      (t.RecordedAt portId rx done) :=
  h.meets fun _ _ hes he => hes.other he

/-- Stopped or not, the core has a record of what it dealt with. -/
def SomeRecorded (t : Thread) (portId : UInt8) (s : Lcore) : Prop :=
  ∃ rx done, t.RecordedAt portId rx done s

theorem updateProtocolStats_recorded {done todo : List Packet} {m : Packet} {q : Protocol}
    (hclass : m.buf.classify = some q) {E : Lcore → Prop} :
    Proc.Meets (t.RecordedAt port.portId (done ++ m :: todo) done) (t.updateProtocolStats port q)
      (fun _ => t.RecordedAt port.portId (done ++ m :: todo) (done ++ [m])) E := by
  cases q with
  | unknown => exact .pure fun s hs => hs.pass hclass
  | http | sip | rtp | rtsp =>
      exact .of_run fun s hs => ⟨(), _, emit_run _ s, hs.count hclass (by simp)⟩

theorem processPacket_recorded (hpm : portManagerInitialize t.hw = .ok t.manager.portManager)
    (hport : port.portId.toNat < t.hw.nbPorts.toNat) {done todo : List Packet} {m : Packet} :
    Proc.Meets (t.RecordedAt port.portId (done ++ m :: todo) done)
      (t.processPacket port.portId (some m))
      (fun _ => t.RecordedAt port.portId (done ++ m :: todo) (done ++ [m]))
      (t.SomeRecorded port.portId) := by
  rw [processPacket, Proc.ofOption_some_bind]
  cases hprep : m.buf.prepare with
  | none => exact .of_stop fun s hs => ⟨s, rfl, _, _, hs⟩
  | some r =>
      obtain ⟨prepared, buf⟩ := r
      rw [Proc.ofOption_some_bind]
      cases prepared with
      | false =>
          have hclass : m.buf.classify = some .unknown := by simp [Mbuf.classify, hprep]
          exact .of_run fun s hs => ⟨(), _, emit_run _ s, (hs.pass hclass).other rfl⟩
      | true =>
          cases hanalyze : buf.analyze with
          | none =>
              simp only [hanalyze, if_true]
              exact .of_stop fun s hs => ⟨s, rfl, _, _, hs⟩
          | some q =>
              have hclass : m.buf.classify = some q := classify_of_analyze hprep hanalyze
              simp only [hanalyze, getPortByIndex_eq hpm hport, Proc.ofOption_some_bind, if_true]
              refine (updateProtocolStats_recorded hclass).bind fun _ => ?_
              cases getActions t.manager.rules (ruleKey port.portId q) with
              | none => exact .pure fun s hs => hs
              | some actions =>
                  have hrest : Silent (do
                      let _ ← actions.foldlM t.executeAction buf
                      pktmbufFree m) :=
                    (works_executeActions actions buf).silent.bind fun _ => adds_emit rfl
                  exact (hrest.recorded _ _ _).weaken (fun _ hs => hs) (fun _ _ hs => hs)
                    fun _ hs => ⟨_, _, hs⟩

theorem processPackets_recorded (hpm : portManagerInitialize t.hw = .ok t.manager.portManager)
    (hport : port.portId.toNat < t.hw.nbPorts.toNat) {q : PortQueue Ptr} {ms : List Packet}
    (hq : q.queued = ms.map some) :
    Proc.Meets (t.RecordedAt port.portId (rx ++ ms) rx) (t.processPackets q port.portId)
      (fun _ => t.RecordedAt port.portId (rx ++ ms) (rx ++ ms)) (t.SomeRecorded port.portId) := by
  rw [processPackets, hq, List.foldlM_map]
  have hloop : Proc.Meets (t.RecordedAt port.portId (rx ++ ms) (rx ++ []))
      (ms.foldlM (fun _ m => t.processPacket port.portId (some m)) ())
      (fun _ => t.RecordedAt port.portId (rx ++ ms) (rx ++ ms)) (t.SomeRecorded port.portId) := by
    refine Proc.Meets.foldlM (I := fun pre _ => t.RecordedAt port.portId (rx ++ ms) (rx ++ pre)) ?_
    intro pre m post _ hsplit
    have hrx : rx ++ ms = rx ++ pre ++ m :: post := by rw [hsplit, List.append_assoc]
    rw [hrx, ← List.append_assoc]
    exact processPacket_recorded hpm hport
  rw [List.append_nil] at hloop
  exact hloop.bind fun _ => .pure fun _ hs => hs

/-- Between the iterations the core has dealt with all it received. -/
def AllRecorded (t : Thread) (portId : UInt8) (s : Lcore) : Prop :=
  ∃ rx, t.RecordedAt portId rx rx s

theorem iteration_recorded (hpm : portManagerInitialize t.hw = .ok t.manager.portManager)
    (hport : port.portId.toNat < t.hw.nbPorts.toNat) (tscHz : UInt64) (l : Locals) (tick : Tick) :
    Proc.Meets (t.AllRecorded port.portId) (t.iteration tscHz port l tick)
      (fun _ => t.AllRecorded port.portId) (t.SomeRecorded port.portId) := by
  refine Proc.Meets.bind (Q := fun _ => t.AllRecorded port.portId) ?_ fun l' => ?_
  · rintro s ⟨rx, hs⟩
    exact ((silent_drain tscHz port l tick).recorded _ rx rx).weaken (fun _ hs => hs)
      (fun _ _ hs => ⟨rx, hs⟩) (fun _ hs => ⟨rx, rx, hs⟩) s hs
  · rw [poll]
    split
    · refine Proc.Meets.bind (Q := fun q s => ∃ rx ms, q.queued = ms.map some
        ∧ t.RecordedAt port.portId (rx ++ ms) rx s) ?_ fun q => ?_
      · refine .of_run ?_
        rintro s ⟨rx, hs⟩
        exact ⟨_, _, rfl, rx, _, PortQueue.queued_fill _ _, hs.receive⟩
      · rintro s ⟨rx, ms, hq, hs⟩
        refine Proc.Meets.bind (processPackets_recorded hpm hport hq) (fun q' => ?_) s hs
        exact .pure fun _ hs => ⟨_, hs⟩
    · exact .pure fun _ hs => hs

/-- A run that ends has dealt with every packet, and one that stops has
a record of those it came to. -/
theorem runProcessing_recorded (hpm : portManagerInitialize t.hw = .ok t.manager.portManager)
    (hport : t.manager.portManager.getPortByCore t.lcoreId = some port) (tscHz : UInt64)
    (entry : Entry) (ticks : List Tick) :
    Proc.Meets (t.AllRecorded port.portId) (t.runProcessing tscHz entry ticks)
      (fun _ => t.AllRecorded port.portId) (t.SomeRecorded port.portId) := by
  rw [runProcessing, hport]
  refine Proc.Meets.bind (Q := fun _ => t.AllRecorded port.portId) ?_ fun _ => .pure fun _ hs => hs
  refine Proc.Meets.foldlM (I := fun _ _ => t.AllRecorded port.portId) fun _ tick _ l _ => ?_
  exact iteration_recorded hpm (getPortByCore_lt hpm hport) tscHz l tick

theorem log_recorded (hpm : portManagerInitialize t.hw = .ok t.manager.portManager)
    (hport : t.manager.portManager.getPortByCore t.lcoreId = some port) (tscHz : UInt64)
    (run : CoreRun) : ∃ rx done, Recorded port.portId t.lcoreId rx done (t.log tscHz run) := by
  obtain ⟨hreturn, hstop⟩ := runProcessing_recorded hpm hport tscHz run.entry run.ticks
    (Lcore.start run.slots) ⟨[], .start⟩
  cases hrun : t.runProcessing tscHz run.entry run.ticks (Lcore.start run.slots) with
  | mk o s =>
  have hlog : t.log tscHz run = s.trace := congrArg (fun r => r.2.trace) hrun
  rw [hlog]
  cases o with
  | none => exact hstop s hrun
  | some u =>
      obtain ⟨rx, hs⟩ := hreturn u s hrun
      exact ⟨rx, rx, hs⟩

end Thread

/-! ## All cores -/

/-- At this moment the tables exist, and the totals of a port are the
numbers of packets its core has classified so far. Read row by row while
the cores go on, a total is right for one of the moments it was read
at. -/
structure StatsExact (pm : PortManager) (trace : List (Nat × Event)) : Prop where
  totals : ∃ tables, tablesAfter (trace.map Prod.snd) = some tables
    ∧ ∀ l port, pm.getPortByCore l = some port →
      ∃ rx done, Recorded port.portId l rx done (eventsOf l trace)
        ∧ ∀ q, q ≠ .unknown → (tables port.portId).getProtocolStats q
          = UInt64.ofNat (done.countP fun m => m.buf.classify = some q)
  loads : ∀ (moments : Fin maxLcores → List (Nat × Event))
      (tables : Fin maxLcores → UInt8 → StatsTable),
    (∀ i, moments i <+: trace ∧ tablesAfter ((moments i).map Prod.snd) = some (tables i)) →
    ∀ p q, q ≠ .unknown →
      ∃ i, StatsTable.getProtocolStats (Vector.ofFn fun j => (tables j p)[j]) q
        = (tables i p).getProtocolStats q

/-- Every record was made by the core that serves its port, in that
core's row. -/
def OwnRecords (pm : PortManager) (trace : List (Nat × Event)) : Prop :=
  ∀ l e r, (l, e) ∈ trace → e.record? = some r →
    pm.getPortByCore l = some ⟨r.1⟩ ∧ r.2.1 ≠ .unknown ∧ r.2.2 = l

namespace OwnRecords

variable {pm : PortManager} {trace : List (Nat × Event)} {tables : UInt8 → StatsTable}

theorem of_record (h : OwnRecords pm trace) {r : UInt8 × Protocol × Nat}
    (hr : r ∈ records (trace.map Prod.snd)) :
    pm.getPortByCore r.2.2 = some ⟨r.1⟩ ∧ r.2.1 ≠ .unknown := by
  obtain ⟨e, he, hrec⟩ := List.mem_filterMap.mp hr
  obtain ⟨⟨l, e'⟩, hmem, rfl⟩ := List.mem_map.mp he
  obtain ⟨hport, hknown, hl⟩ := h l e' r hmem hrec
  rw [hl]
  exact ⟨hport, hknown⟩

/-- The records in a core's row are in its part of the trace. -/
theorem count_eventsOf (h : OwnRecords pm trace) (p : UInt8) (q : Protocol) (l : Nat) :
    (records (trace.map Prod.snd)).count (p, q, l)
      = (records (eventsOf l trace)).count (p, q, l) := by
  induction trace with
  | nil => rfl
  | cons x trace ih =>
      obtain ⟨j, e⟩ := x
      have ih := ih fun l' e' r hmem => h l' e' r (List.mem_cons_of_mem _ hmem)
      have hsplit : eventsOf l ((j, e) :: trace) = eventsOf l [(j, e)] ++ eventsOf l trace :=
        eventsOf_append l [(j, e)] trace
      rw [hsplit, List.map_cons, ← List.singleton_append, records, records,
        List.filterMap_append, List.filterMap_append, List.count_append, List.count_append]
      congr 1
      by_cases hjl : j = l
      · simp [eventsOf, hjl]
      · have hempty : eventsOf l [(j, e)] = [] := by simp [eventsOf, hjl]
        rw [hempty]
        refine List.count_eq_zero.mpr fun hmem => ?_
        obtain ⟨e', he', hrec⟩ := List.mem_filterMap.mp hmem
        rw [List.mem_singleton.mp he'] at hrec
        exact hjl (h j e _ List.mem_cons_self hrec).2.2.symm

/-- A row that is not the serving core's stays zero. -/
theorem counter_eq_zero (h : OwnRecords pm trace)
    (htables : tablesAfter (trace.map Prod.snd) = some tables) {p : UInt8} {q : Protocol}
    (hq : q ≠ .unknown) {i : Nat} (hi : i < maxLcores) (hne : pm.getPortByCore i ≠ some ⟨p⟩) :
    (tables p)[i].counter q = 0 := by
  rw [counter_tablesAfter htables p hq hi, List.count_eq_zero.mpr fun hmem => hne ?_]
  · rfl
  · exact (h.of_record hmem).1

end OwnRecords

section System

variable {hw : Hardware} {file : Option Text} {statsInterval : UInt16} {manager : PacketManager}
  {tscHz : UInt64} {runs : Nat → CoreRun} {trace : List (Nat × Event)}

theorem coreLog_recorded (h : packetManagerInitialize hw file statsInterval = some manager)
    (tscHz : UInt64) (runs : Nat → CoreRun) {l : Nat} {port : Port}
    (hport : manager.portManager.getPortByCore l = some port) :
    ∃ rx done, Recorded port.portId l rx done (coreLog hw manager tscHz runs l) := by
  obtain ⟨-, -, hports⟩ := packetManagerInitialize_spec h
  rw [coreLog, if_pos (getPortByCore_isSlave hports hport)]
  exact Thread.log_recorded (t := ⟨hw, manager, l, (runs l).driver⟩) hports hport tscHz (runs l)

theorem ownRecords (h : packetManagerInitialize hw file statsInterval = some manager)
    (htrace : Interleaving (coreLog hw manager tscHz runs) trace) :
    OwnRecords manager.portManager trace := by
  intro l e r hmem hrec
  have he := htrace.mem hmem
  obtain ⟨port, hserves, -⟩ := serves_of_coreLog h he
  obtain ⟨rx, done, hlog⟩ := coreLog_recorded h tscHz runs hserves.port_eq
  obtain ⟨hp, hknown, hl⟩ := hlog.own r (List.mem_filterMap.mpr ⟨e, he, hrec⟩)
  exact ⟨by rw [hserves.port_eq, hp], hknown, hl⟩

/-- A port has at most one core, and its row is in the table. -/
theorem exists_row (h : packetManagerInitialize hw file statsInterval = some manager)
    (hrows : ∀ l ∈ hw.portCores, l < maxLcores) (p : UInt8) :
    ∃ l, l < maxLcores ∧ ∀ i, i ≠ l → manager.portManager.getPortByCore i ≠ some ⟨p⟩ := by
  obtain ⟨-, -, hports⟩ := packetManagerInitialize_spec h
  by_cases hserved : ∃ l, manager.portManager.getPortByCore l = some ⟨p⟩
  · obtain ⟨l, hl⟩ := hserved
    refine ⟨l, hrows l ((mem_portCores_iff hports).mpr ⟨_, hl⟩), fun i hne hi => ?_⟩
    exact hne (getPortByCore_injective hports hi hl)
  · exact ⟨0, by decide, fun i _ hi => hserved ⟨i, hi⟩⟩

theorem statsExact_of_rows (h : packetManagerInitialize hw file statsInterval = some manager)
    (hrows : ∀ l ∈ hw.portCores, l < maxLcores)
    (htrace : Interleaving (coreLog hw manager tscHz runs) trace) :
    StatsExact manager.portManager trace := by
  obtain ⟨-, -, hports⟩ := packetManagerInitialize_spec h
  have hown := ownRecords h htrace
  constructor
  · have hsome : (tablesAfter (trace.map Prod.snd)).isSome := by
      refine (tablesAfter_isSome fun r hr => (hown.of_record hr).2).mpr fun r hr => ?_
      exact hrows _ ((mem_portCores_iff hports).mpr ⟨_, (hown.of_record hr).1⟩)
    obtain ⟨tables, htables⟩ := Option.isSome_iff_exists.mp hsome
    refine ⟨tables, htables, fun l port hport => ?_⟩
    have hl := hrows l ((mem_portCores_iff hports).mpr ⟨_, hport⟩)
    obtain ⟨_, _, hlog⟩ := coreLog_recorded h tscHz runs hport
    obtain ⟨rx, done, hrecorded⟩ := hlog.of_prefix (htrace.eventsOf_prefix l)
    refine ⟨rx, done, hrecorded, fun q hq => ?_⟩
    have hother : ∀ i (hi : i < maxLcores), i ≠ l → (tables port.portId)[i].counter q = 0 := by
      intro i hi hne
      refine hown.counter_eq_zero htables hq hi fun hi => hne ?_
      exact getPortByCore_injective hports hi hport
    rw [StatsTable.getProtocolStats_single hl hother, counter_tablesAfter htables _ hq hl,
      hown.count_eventsOf, hrecorded.count_eq hq]
  · intro moments tables hmoments p q hq
    obtain ⟨l, hl, hother⟩ := exists_row h hrows p
    have hzero : ∀ (i : Fin maxLcores) (j : Nat) (hj : j < maxLcores), j ≠ l →
        (tables i p)[j].counter q = 0 := by
      intro i j hj hne
      obtain ⟨hpre, htables⟩ := hmoments i
      have hown' : OwnRecords manager.portManager (moments i) :=
        fun l' e r hmem => hown l' e r (hpre.subset hmem)
      exact hown'.counter_eq_zero htables hq hj (hother j hne)
    refine ⟨⟨l, hl⟩, ?_⟩
    rw [StatsTable.getProtocolStats_single hl fun j hj hne => ?_,
      StatsTable.getProtocolStats_single hl fun j hj hne => hzero _ j hj hne]
    · rw [Vector.getElem_ofFn]
      rfl
    · rw [Vector.getElem_ofFn]
      exact hzero _ j hj hne

/-- A core that gets a full burst of HTTP packets records them. -/
theorem fullLoad_records {t : Thread} {port : Port} (h : t.Serves file port) (tscHz : UInt64) :
    (port.portId, .http, t.lcoreId) ∈ records (t.log tscHz (fullLoad .http)) := by
  obtain ⟨s, ms, hrun, hlog, hworked, hsample, hlen⟩ := fullLoad_worked h tscHz .http
  obtain ⟨hrecord, -⟩ := Thread.runProcessing_recorded h.tables.2 h.port_eq tscHz coldStart
    [fullTick .http] (Lcore.start fun _ => noSlots) ⟨[], .start⟩
  obtain ⟨rx, hrx⟩ := hrecord () s hrun
  have hall : rx = ms := hrx.received_eq.symm.trans hworked.ledger.books.received_eq
  have hclass : ∀ m ∈ ms, m.buf.classify = some .http := by
    obtain ⟨buf, hprep, hanalyze⟩ := sampleMbuf_classified .http
    intro m hm
    rw [hsample m hm]
    exact classify_of_analyze hprep hanalyze
  rw [hlog, ← List.count_pos_iff, hrx.count_eq (by simp), hall,
    List.countP_eq_length.mpr fun m hm => decide_eq_true (hclass m hm), hlen]
  decide

/-- A core without a row spoils the tables. -/
theorem not_statsExact_of_row (h : packetManagerInitialize hw file statsInterval = some manager)
    {l : Nat} (hl : l ∈ hw.portCores) (hrow : maxLcores ≤ l) (tscHz : UInt64)
    {runs : Nat → CoreRun} (hruns : runs l = fullLoad .http) :
    Interleaving (coreLog hw manager tscHz runs)
        ((coreLog hw manager tscHz runs l).map (Prod.mk l))
      ∧ ¬ StatsExact manager.portManager ((coreLog hw manager tscHz runs l).map (Prod.mk l)) := by
  obtain ⟨-, -, hports⟩ := packetManagerInitialize_spec h
  obtain ⟨port, hport⟩ := (mem_portCores_iff hports).mp hl
  have htrace : Interleaving (coreLog hw manager tscHz runs)
      ((coreLog hw manager tscHz runs l).map (Prod.mk l)) :=
    Interleaving.run .nil rfl (List.prefix_refl _)
  refine ⟨htrace, fun hexact => ?_⟩
  obtain ⟨tables, htables, -⟩ := hexact.totals
  have hown := ownRecords h htrace
  have hall := (tablesAfter_isSome fun r hr => (hown.of_record hr).2).mp
    (Option.isSome_iff_exists.mpr ⟨tables, htables⟩)
  have hrec := fullLoad_records (serves_of_port h hport (fullLoad .http).driver) tscHz
  have hsnd : ((coreLog hw manager tscHz runs l).map (Prod.mk l)).map Prod.snd
      = Thread.log ⟨hw, manager, l, (fullLoad .http).driver⟩ tscHz (fullLoad .http) := by
    rw [coreLog, if_pos (getPortByCore_isSlave hports hport), hruns, List.map_map]
    exact List.map_id _
  rw [hsnd] at hall
  exact absurd (hall _ hrec) (Nat.not_lt.mpr hrow)

/-- The statistics are exact at every moment of every run exactly when
the number of every core in use is below 16. No update changes the total
of another protocol. -/
theorem statsExact_iff (h : packetManagerInitialize hw file statsInterval = some manager)
    (tscHz : UInt64) :
    ((∀ runs trace, Interleaving (coreLog hw manager tscHz runs) trace →
        StatsExact manager.portManager trace) ↔ ∀ l ∈ hw.portCores, l < maxLcores)
      ∧ ∀ (stats stats' : StatsTable) (q q' : Protocol) (l : Nat),
        stats.updateProtocolStats q l = some stats' → q' ≠ q →
        stats'.getProtocolStats q' = stats.getProtocolStats q' := by
  refine ⟨?_, fun _ _ _ _ _ hupd hq => StatsTable.getProtocolStats_update hupd hq⟩
  constructor
  · intro hexact l hl
    by_contra hrow
    let runs : Nat → CoreRun := fun _ => fullLoad .http
    have hruns : runs l = fullLoad .http := rfl
    obtain ⟨htrace, hnot⟩ := not_statsExact_of_row h hl (Nat.le_of_not_lt hrow) tscHz hruns
    exact hnot (hexact _ _ htrace)
  · intro hrows runs trace htrace
    exact statsExact_of_rows h hrows htrace

end System

theorem statsExact_crossRules :
    (∀ l ∈ twoPorts.portCores, l < maxLcores)
      ∧ ∀ runs trace, Interleaving (coreLog twoPorts crossManager 2000000000 runs) trace →
        StatsExact crossManager.portManager trace := by
  have hinit : packetManagerInitialize twoPorts (some crossRules) 0 = some crossManager :=
    (Option.some_get crossRules_initialized).symm
  have hrows : ∀ l ∈ twoPorts.portCores, l < maxLcores := by decide
  exact ⟨hrows, (statsExact_iff hinit 2000000000).1.mpr hrows⟩

theorem highCore_lt {l : Nat} (h : decide (l = 0 ∨ l = 16) = true) : l < rteMaxLcore := by
  rw [rteMaxLcore]
  rcases of_decide_eq_true h with rfl | rfl <;> omega

/-- One port, served by core 16. -/
def highCore : Hardware where
  nbPorts := 1
  masterLcore := 0
  lcoreIsEnabled l := l = 0 ∨ l = 16
  lcoreToSocketId _ := 0
  poolCreate _ _ := true
  devConfigure _ := 0
  rxQueueSetup _ _ := 0
  txQueueSetup _ _ := 0
  devStart _ := 0
  lcoreIsEnabled_lt h := highCore_lt h

def oneRule : Text := "1,HTTP:OUTPUT(1);".toList

theorem oneRule_initialized : (packetManagerInitialize highCore (some oneRule) 0).isSome := by
  decide +kernel

def highCoreManager : PacketManager :=
  (packetManagerInitialize highCore (some oneRule) 0).get oneRule_initialized

def highCoreLog : Nat → List Event :=
  coreLog highCore highCoreManager 2000000000 fun _ => fullLoad .http

theorem not_statsExact_highCore :
    Interleaving highCoreLog ((highCoreLog 16).map (Prod.mk 16))
      ∧ ¬ StatsExact highCoreManager.portManager ((highCoreLog 16).map (Prod.mk 16)) := by
  have hinit : packetManagerInitialize highCore (some oneRule) 0 = some highCoreManager :=
    (Option.some_get oneRule_initialized).symm
  exact not_statsExact_of_row hinit (by decide) (Nat.le_refl 16) 2000000000 rfl

end Yapas
