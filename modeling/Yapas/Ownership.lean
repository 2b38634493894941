import Yapas.Execution
import Yapas.Interleaving

/-!
# Who drives the hardware queues

All cores together: every slave core runs `RunProcessing` on the tables
of one manager, in any interleaving. Each core writes only its own row
of software queues, but the bursts of all rows go to hardware queue 0 of
the port.

A core bursts on a port only what a rule for its own port put out there
(`drives_tx`), and a core that gets packets enough for such a rule does
burst (`fullLoad_drives`). So no hardware queue has two owners exactly
when no port is an output of rules for two different ports.
-/

namespace Yapas

/-! ## Runs of all cores -/

/-- A queue of a port, as the driver numbers them. -/
inductive HwQueue
  | rx (portId : UInt8) (queueId : Nat)
  | tx (portId : UInt8) (queueId : Nat)
  deriving DecidableEq

/-- The queue a burst is called on. -/
def Event.drives : Event → Option HwQueue
  | .rxBurst p _ => some (.rx p 0)
  | .tx p (.burst _ _) => some (.tx p 0)
  | _ => none

/-- What a core meets in a run, up to when `terminated` is set. -/
structure CoreRun where
  driver : Driver
  entry : Thread.Entry
  slots : UInt8 → Vector Ptr maxPktsInQueue
  ticks : List Thread.Tick

/-- The log of a core that runs `RunProcessing`. -/
def Thread.log (t : Thread) (tscHz : UInt64) (run : CoreRun) : List Event :=
  (t.runProcessing tscHz run.entry run.ticks (Lcore.start run.slots)).2.trace

/-- The logs of the cores `main` launches the loop on. -/
def coreLog (hw : Hardware) (manager : PacketManager) (tscHz : UInt64) (runs : Nat → CoreRun)
    (lcoreId : Nat) : List Event :=
  if hw.IsSlave lcoreId then
    Thread.log ⟨hw, manager, lcoreId, (runs lcoreId).driver⟩ tscHz (runs lcoreId)
  else []

/-- No hardware queue is driven by two cores. -/
def SingleOwner (trace : List (Nat × Event)) : Prop := Exclusive Event.drives trace

/-- No port is an output of rules for two different ports. -/
def OutputsApart (rules : Rules) : Prop :=
  ∀ p p' q q' actions actions' out,
    getActions rules (ruleKey p q) = some actions →
    getActions rules (ruleKey p' q') = some actions' →
    .output out ∈ actions → .output out ∈ actions' → p = p'

/-! ## What a core drives -/

theorem mem_onPort {p : UInt8} {e : TxEvent Ptr} {trace : List Event} :
    e ∈ onPort p trace ↔ .tx p e ∈ trace := by
  rw [onPort, List.mem_flatMap]
  constructor
  · rintro ⟨ev, hev, he⟩
    cases ev with
    | tx q e' =>
        rw [Event.onPort] at he
        split at he
        · rename_i hq
          rw [List.mem_singleton.mp he, ← hq]
          exact hev
        · cases he
    | _ => cases he
  · intro he
    exact ⟨_, he, by simp [Event.onPort]⟩

/-- The ports the copies go to. -/
theorem ports_copiesOf : ∀ (m : Mbuf) (actions : List Action),
    (copiesOf m actions).map Prod.fst = actions.filterMap Action.outputPort?
  | m, [] => rfl
  | m, a :: actions => by
      rw [copiesOf, List.map_append, ports_copiesOf]
      cases a <;> rfl

theorem mem_outputs {out : UInt8} {actions : List Action} :
    out ∈ actions.filterMap Action.outputPort? ↔ .output out ∈ actions := by
  rw [List.mem_filterMap]
  constructor
  · rintro ⟨a, ha, hout⟩
    cases a with
    | output p =>
        obtain rfl := Option.some.inj hout
        exact ha
    | _ => cases hout
  · intro h
    exact ⟨_, h, rfl⟩

/-- A copy is wanted on a port because of a rule that names it. -/
theorem rule_of_wanted {t : Thread} {p out : UInt8} {ms : List Packet} {m : Mbuf}
    (h : (out, m) ∈ t.wanted p ms) :
    ∃ q actions, getActions t.manager.rules (ruleKey p q) = some actions
      ∧ .output out ∈ actions := by
  obtain ⟨packet, -, hm⟩ := List.mem_flatMap.mp h
  cases hv : t.verdict p packet.buf with
  | none =>
      rw [hv] at hm
      cases hm
  | some v =>
      rw [hv] at hm
      cases v with
      | rejected | noRule => cases hm
      | rule buf actions =>
          obtain ⟨q, -, -, hget⟩ := Thread.verdict_rule hv
          refine ⟨q, actions, hget, mem_outputs.mp ?_⟩
          rw [← ports_copiesOf buf]
          exact List.mem_map_of_mem hm

section Serves

variable {t : Thread} {file : Option Text} {port : Port}

theorem Thread.log_worked (h : t.Serves file port) (tscHz : UInt64) (run : CoreRun) :
    ∃ rx done s, s.trace = t.log tscHz run ∧ Worked t port.portId rx done s :=
  ⟨_, _, _, rfl, (run_spec h tscHz run.entry run.ticks run.slots (Prod.mk.eta).symm).1⟩

theorem Thread.drives_rx (h : t.Serves file port) {tscHz : UInt64} {run : CoreRun} {e : Event}
    (he : e ∈ t.log tscHz run) {p : UInt8} {k : Nat} (hdrives : e.drives = some (.rx p k)) :
    port = ⟨p⟩ := by
  obtain ⟨rx, done, s, hs, hworked⟩ := log_worked h tscHz run
  rw [← hs] at he
  cases e with
  | rxBurst p' ms =>
      obtain ⟨rfl, -⟩ := HwQueue.rx.inj (Option.some.inj hdrives)
      exact Option.some.inj (h.port_eq.symm.trans (hworked.ledger.row.polled _ _ he))
  | tx p' e' => cases e' <;> cases hdrives
  | _ => cases hdrives

/-- A burst goes to an output of a rule for the core's own port. -/
theorem Thread.drives_tx (h : t.Serves file port) {tscHz : UInt64} {run : CoreRun} {e : Event}
    (he : e ∈ t.log tscHz run) {out : UInt8} {k : Nat}
    (hdrives : e.drives = some (.tx out k)) :
    ∃ q actions, getActions t.manager.rules (ruleKey port.portId q) = some actions
      ∧ .output out ∈ actions := by
  obtain ⟨rx, done, s, hs, hworked⟩ := log_worked h tscHz run
  rw [← hs] at he
  cases e with
  | tx p e' =>
      cases e' with
      | burst ms ret =>
          obtain ⟨rfl, -⟩ := HwQueue.tx.inj (Option.some.inj hdrives)
          obtain ⟨hne, hwritten⟩ := hworked.ledger.row.offered _ _ _ he
          obtain ⟨m, hm⟩ := List.exists_mem_of_ne_nil _ hne
          have hhanded := mem_written_onPort.mp (hwritten m hm)
          rw [hworked.ledger.books.handed_eq] at hhanded
          obtain ⟨⟨o, n⟩, ho, heq⟩ := List.mem_map.mp hhanded
          obtain ⟨rfl, -⟩ := Prod.mk.inj heq
          exact rule_of_wanted (List.fst_mem_of_mem_zipIdx ho)
      | _ => cases hdrives
  | _ => cases hdrives

/-! ## A queue that is filled -/

/-- What is handed to a queue beyond its capacity has been offered. -/
theorem Row.bursts {s : Lcore} (h : Row t s) {p : UInt8}
    (hload : maxPktsInQueue ≤ (written (onPort p s.trace)).length) :
    ∃ e ∈ s.trace, e.drives = some (.tx p 0) := by
  have hlen := (h.settled p).length_eq
  have hcount := h.count_lt p
  rw [List.length_append, List.length_append, PortQueue.length_queued] at hlen
  by_cases hacc : accepted (onPort p s.trace) = []
  · have hne : freed (onPort p s.trace) ≠ [] := by
      intro hfreed
      rw [hacc, hfreed, List.length_nil] at hlen
      omega
    -- a packet is freed only behind a burst
    obtain ⟨m, hm⟩ := List.exists_mem_of_ne_nil _ hne
    obtain ⟨e, he, hm⟩ := List.mem_flatMap.mp hm
    cases e with
    | free m' =>
        obtain ⟨before, after, hsplit⟩ := List.append_of_mem he
        obtain ⟨earlier, front, back, rfl⟩ := h.refused p before m' after hsplit
        refine ⟨.tx p (.burst (front ++ m' :: back) 0), mem_onPort.mp ?_, rfl⟩
        rw [hsplit]
        exact List.mem_append_left _ (List.mem_append_right _ List.mem_cons_self)
    | _ => cases hm
  · obtain ⟨m, hm⟩ := List.exists_mem_of_ne_nil _ hacc
    obtain ⟨e, he, hm⟩ := List.mem_flatMap.mp hm
    cases e with
    | burst ms ret => exact ⟨_, mem_onPort.mp he, rfl⟩
    | _ => cases hm

/-- Every copy wanted on a port is written to its queue. -/
theorem Books.length_written {rx : List Packet} {out : List (UInt8 × Mbuf)} {gone : List BufId}
    {s : Lcore} (h : Books t rx out gone s) (p : UInt8) :
    (written (onPort p s.trace)).length = (out.map Prod.fst).count p := by
  have hports : (t.copies out).map Prod.fst = out.map Prod.fst := by
    rw [Thread.copies, List.map_map, ← List.zipIdx_map_fst 0 out, List.map_map,
      List.zipIdx_map_fst]
    rfl
  rw [written_onPort, h.handed_eq, List.length_map, ← hports, List.count, List.countP_map,
    List.countP_eq_length_filter]
  rfl

/-- Packets under a rule with the output `out` want a copy each. -/
theorem length_le_wanted {p out : UInt8} : ∀ {ms : List Packet},
    (∀ m ∈ ms, ∃ buf actions, t.verdict p m.buf = some (.rule buf actions)
      ∧ .output out ∈ actions) →
    ms.length ≤ ((t.wanted p ms).map Prod.fst).count out
  | [], _ => Nat.zero_le _
  | m :: ms, h => by
      obtain ⟨buf, actions, hv, hout⟩ := h m List.mem_cons_self
      have htail := length_le_wanted fun m' hm' => h m' (List.mem_cons_of_mem m hm')
      have hone : 0 < ((t.wanted p [m]).map Prod.fst).count out := by
        rw [Thread.wanted_singleton hv, Verdict.copies, ports_copiesOf, List.count_pos_iff]
        exact mem_outputs.mpr hout
      rw [← List.singleton_append, Thread.wanted_append, List.map_append, List.count_append,
        List.length_append, List.length_singleton]
      omega

/-- One iteration that finds the link up. -/
theorem Thread.once_meets (h : t.Serves file port) {tscHz : UInt64} {entry : Entry} {tick : Tick}
    (hdue : LinkDue tscHz entry.locals tick) (hup : tick.linkStatus = true) :
    Proc.Meets (Worked t port.portId [] []) (t.runProcessing tscHz entry [tick])
      (fun _ s => ∃ ms, ms.map Packet.buf = tick.frames ∧ Worked t port.portId ms ms s)
      fun s => ∃ ms, ms.map Packet.buf = tick.frames ∧ Stuck t port.portId ms s := by
  rw [runProcessing, h.port_eq]
  refine Proc.Meets.bind (Q := fun _ s => ∃ ms, ms.map Packet.buf = tick.frames
    ∧ Worked t port.portId ms ms s) ?_ fun _ => .pure fun _ hs => hs
  rw [List.foldlM_cons]
  refine Proc.Meets.bind ?_ fun _ => .pure fun _ hs => hs
  refine Proc.Meets.bind (Q := fun l s => l.linkStatus = true
    ∧ Worked t port.portId [] [] s) ?_ fun l => ?_
  · intro s hs
    refine (drain_meets h tscHz entry.locals tick).weaken (fun s hs => hs) (fun l s' hs' => ?_)
      (fun _ => id) s hs.ledger
    obtain ⟨hlink, hledger⟩ := hs'
    rw [if_pos hdue] at hlink
    exact ⟨hlink.trans hup, hledger, hs.readable⟩
  · rintro s ⟨hlink, hs⟩
    exact poll_meets h tick hlink s hs

end Serves

/-! ## A load for every protocol -/

/-- A payload of each protocol. -/
def samplePayload : Protocol → List UInt8
  | .http => ascii "HTTP/1.1 200 OK\x0d\x0a"
  | .sip => ascii "SIP/2.0 200 OK\x0d\x0a"
  | .rtp => 0x80 :: List.replicate 11 0x01
  | .rtsp => ascii "RTSP/1.0 200 OK\x0d\x0a"
  | .unknown => []

def sampleMbuf (q : Protocol) : Mbuf where
  headroom := []
  room := udpFrame.bytes ++ samplePayload q
  pktLen := 42 + (samplePayload q).length
  l2Len := 0
  l3Len := 0
  l4Len := 0
  pktLen_le := by
    rw [List.length_append]
    exact Nat.le_refl _
  size_lt := by cases q <;> decide

theorem sampleMbuf_classified (q : Protocol) :
    ∃ buf, (sampleMbuf q).prepare = some (true, buf) ∧ buf.analyze = some q := by
  refine ⟨{ sampleMbuf q with l2Len := 14, l3Len := 20, l4Len := 8 }, ?_, ?_⟩
  · cases q <;> decide +kernel
  · cases q <;> decide +kernel

/-- A full burst of them, so late that all timers are due. -/
def fullTick (q : Protocol) : Thread.Tick where
  curTsc := 2000000000000000
  linkStatus := true
  frames := List.replicate maxPktsInQueue (sampleMbuf q)
  frames_le := Nat.le_of_eq List.length_replicate

def fullLoad (q : Protocol) : CoreRun := ⟨readyDriver, coldStart, fun _ => noSlots, [fullTick q]⟩

/-- All of the counter's range, counted as one second, gives no longer an
interval. -/
theorem drainTsc_le (tscHz : UInt64) : Thread.drainTsc tscHz ≤ 2000000000000000 := by
  have hlt := (tscHz + 1000000 - 1).toNat_lt
  have hmicros : (tscHz + 1000000 - 1).toNat / 1000000 ≤ 18446744073709 := by omega
  rw [Thread.drainTsc, UInt64.le_iff_toNat_le, UInt64.toNat_mul, UInt64.toNat_div]
  simp only [UInt64.reduceToNat]
  exact (Nat.mod_le _ _).trans (by omega)

theorem linkDue_fullTick (tscHz : UInt64) (q : Protocol) :
    Thread.LinkDue tscHz coldStart.locals (fullTick q) := by
  have hdiff : (fullTick q).curTsc - coldStart.locals.prevTsc = 2000000000000000 := by
    show (2000000000000000 : UInt64) - 0 = _
    decide
  rw [Thread.LinkDue, hdiff]
  exact ⟨drainTsc_le tscHz, by decide⟩

section Load

variable {t : Thread} {file : Option Text} {port : Port} {q : Protocol} {actions : List Action}

/-- A core that gets a full burst works it off: every packet of it can
be read. -/
theorem fullLoad_worked (h : t.Serves file port) (tscHz : UInt64) (q : Protocol) :
    ∃ s ms, t.runProcessing tscHz coldStart [fullTick q] (Lcore.start fun _ => noSlots)
        = (some (), s)
      ∧ t.log tscHz (fullLoad q) = s.trace ∧ Thread.Worked t port.portId ms ms s
      ∧ (∀ m ∈ ms, m.buf = sampleMbuf q) ∧ ms.length = maxPktsInQueue := by
  have hsample : ∀ {ms : List Packet}, ms.map Packet.buf = (fullTick q).frames →
      ∀ m ∈ ms, m.buf = sampleMbuf q := by
    intro ms hms m hm
    have hmem := List.mem_map_of_mem (f := Packet.buf) hm
    rw [hms] at hmem
    exact List.eq_of_mem_replicate hmem
  obtain ⟨hreturn, hstop⟩ := Thread.once_meets h (linkDue_fullTick tscHz q) rfl _
    (Thread.worked_start t _ fun _ => noSlots)
  cases hrun : t.runProcessing tscHz coldStart [fullTick q] (Lcore.start fun _ => noSlots) with
  | mk o s =>
  have hlog : t.log tscHz (fullLoad q) = s.trace := congrArg (fun r => r.2.trace) hrun
  cases o with
  | none =>
      obtain ⟨buf, hprep, hanalyze⟩ := sampleMbuf_classified q
      obtain ⟨ms, hms, done, m, todo, hsplit, -, hm⟩ := hstop s hrun
      refine absurd ?_ hm
      rw [Thread.Readable, hsample hms m (by rw [hsplit]; simp),
        t.verdict_of_analyze port.portId hprep hanalyze]
      exact Option.isSome_some
  | some u =>
      obtain ⟨ms, hms, hworked⟩ := hreturn u s hrun
      have hlen : ms.length = maxPktsInQueue := by
        rw [← List.length_map (f := Packet.buf), hms]
        exact List.length_replicate
      exact ⟨s, ms, rfl, hlog, hworked, hsample hms, hlen⟩

/-- A core that has a rule with the output `out` can be made to drive
its queue. -/
theorem fullLoad_drives (h : t.Serves file port) (tscHz : UInt64)
    (hget : getActions t.manager.rules (ruleKey port.portId q) = some actions) {out : UInt8}
    (hout : .output out ∈ actions) :
    ∃ e ∈ t.log tscHz (fullLoad q), e.drives = some (.tx out 0) := by
  obtain ⟨s, ms, -, hlog, hworked, hsample, hlen⟩ := fullLoad_worked h tscHz q
  obtain ⟨buf, hprep, hanalyze⟩ := sampleMbuf_classified q
  have hv : ∀ m ∈ ms, t.verdict port.portId m.buf = some (.rule buf actions) := by
    intro m hm
    rw [hsample m hm, t.verdict_of_analyze port.portId hprep hanalyze, hget, Option.elim_some]
  rw [hlog]
  refine hworked.ledger.row.bursts ?_
  rw [hworked.ledger.books.length_written, ← hlen]
  exact length_le_wanted fun m hm => ⟨buf, actions, hv m hm, hout⟩

end Load

/-! ## All cores -/

section System

variable {hw : Hardware} {file : Option Text} {statsInterval : UInt16} {manager : PacketManager}

theorem serves_of_port (h : packetManagerInitialize hw file statsInterval = some manager)
    {lcoreId : Nat} {port : Port} (hport : manager.portManager.getPortByCore lcoreId = some port)
    (driver : Driver) : Thread.Serves ⟨hw, manager, lcoreId, driver⟩ file port := by
  refine ⟨?_, hport⟩
  rw [(packetManagerInitialize_spec h).2.1]
  exact h

/-- A core without a port does nothing. -/
theorem serves_of_coreLog (h : packetManagerInitialize hw file statsInterval = some manager)
    {tscHz : UInt64} {runs : Nat → CoreRun} {l : Nat} {e : Event}
    (he : e ∈ coreLog hw manager tscHz runs l) :
    ∃ port, Thread.Serves ⟨hw, manager, l, (runs l).driver⟩ file port
      ∧ e ∈ Thread.log ⟨hw, manager, l, (runs l).driver⟩ tscHz (runs l) := by
  rw [coreLog] at he
  split at he
  · cases hport : manager.portManager.getPortByCore l with
    | none =>
        rw [Thread.log, Thread.runProcessing, hport] at he
        cases he
    | some port => exact ⟨port, serves_of_port h hport _, he⟩
  · cases he

/-- The core that serves port `p`, under a full load for a rule of that
port. -/
theorem exists_core_drives (h : packetManagerInitialize hw file statsInterval = some manager)
    (tscHz : UInt64) {p out : UInt8} {q : Protocol} {actions : List Action}
    (hget : getActions manager.rules (ruleKey p q) = some actions)
    (hout : .output out ∈ actions) :
    ∃ l, manager.portManager.getPortByCore l = some ⟨p⟩ ∧ ∀ runs, runs l = fullLoad q →
      ∃ e ∈ coreLog hw manager tscHz runs l, e.drives = some (.tx out 0) := by
  obtain ⟨hrules, -, hports⟩ := packetManagerInitialize_spec h
  obtain ⟨l, hl⟩ := exists_getPortByCore hports (port_lt_of_getActions hrules hget)
  refine ⟨l, hl, fun runs hruns => ?_⟩
  rw [coreLog, if_pos (getPortByCore_isSlave hports hl), hruns]
  exact fullLoad_drives (serves_of_port h hl _) tscHz hget hout

/-- Each hardware queue has a single owner in every interleaving of
every run of all cores exactly when no port is an output of rules for
two different ports. -/
theorem singleOwner_iff (h : packetManagerInitialize hw file statsInterval = some manager)
    (tscHz : UInt64) :
    (∀ runs trace, Interleaving (coreLog hw manager tscHz runs) trace → SingleOwner trace) ↔
      OutputsApart manager.rules := by
  obtain ⟨-, -, hports⟩ := packetManagerInitialize_spec h
  constructor
  · intro howner p p' q q' actions actions' out hget hget' hout hout'
    obtain ⟨l, hl, hdrives⟩ := exists_core_drives h tscHz hget hout
    obtain ⟨l', hl', hdrives'⟩ := exists_core_drives h tscHz hget' hout'
    by_contra hp
    have hll : l ≠ l' := by
      rintro rfl
      exact hp (Port.mk.inj (Option.some.inj (hl.symm.trans hl')))
    have hruns := howner fun i => if i = l then fullLoad q else fullLoad q'
    refine hll (exclusive_iff.mp hruns l l' (.tx out 0) ?_ ?_)
    · exact hdrives _ (if_pos rfl)
    · exact hdrives' _ (if_neg hll.symm)
  · intro hapart runs
    refine exclusive_iff.mpr ?_
    rintro l l' r ⟨e, he, hr⟩ ⟨e', he', hr'⟩
    obtain ⟨port, hserves, he⟩ := serves_of_coreLog h he
    obtain ⟨port', hserves', he'⟩ := serves_of_coreLog h he'
    have hport : port = port' := by
      cases r with
      | rx p k =>
          rw [Thread.drives_rx hserves he hr, Thread.drives_rx hserves' he' hr']
      | tx out k =>
          obtain ⟨q, actions, hget, hout⟩ := Thread.drives_tx hserves he hr
          obtain ⟨q', actions', hget', hout'⟩ := Thread.drives_tx hserves' he' hr'
          exact congrArg Port.mk (hapart _ _ _ _ _ _ out hget hget' hout hout')
    subst hport
    exact getPortByCore_injective hports hserves.port_eq hserves'.port_eq

end System

/-! ## Two ports that forward -/

/-- Each port forwards to the other. -/
def crossRules : Text := "1,UNKNOWN:OUTPUT(2);\n2,UNKNOWN:OUTPUT(1);".toList

theorem crossRules_initialized : (packetManagerInitialize twoPorts (some crossRules) 0).isSome := by
  decide +kernel

def crossManager : PacketManager :=
  (packetManagerInitialize twoPorts (some crossRules) 0).get crossRules_initialized

theorem singleOwner_crossRules : OutputsApart crossManager.rules
    ∧ ∀ runs trace, Interleaving (coreLog twoPorts crossManager 2000000000 runs) trace →
      SingleOwner trace := by
  have hentries : crossManager.rules.entries
      = [(ruleKey 1 .unknown, [.output 0]), (ruleKey 0 .unknown, [.output 1])] := by
    decide +kernel
  have hrule : ∀ {p q actions out}, getActions crossManager.rules (ruleKey p q) = some actions →
      .output out ∈ actions → p = 1 ∧ out = 0 ∨ p = 0 ∧ out = 1 := by
    intro p q actions out hget hout
    have hmem := Rules.find_eq_some.mp hget
    rw [hentries, List.mem_pair] at hmem
    rcases hmem with h | h
    · obtain ⟨hkey, rfl⟩ := Prod.mk.inj h
      exact Or.inl ⟨(ruleKey_injective hkey).1, by simpa using hout⟩
    · obtain ⟨hkey, rfl⟩ := Prod.mk.inj h
      exact Or.inr ⟨(ruleKey_injective hkey).1, by simpa using hout⟩
  have hapart : OutputsApart crossManager.rules := by
    intro p p' q q' actions actions' out hget hget' hout hout'
    rcases hrule hget hout with ⟨rfl, rfl⟩ | ⟨rfl, rfl⟩
    · rcases hrule hget' hout' with ⟨rfl, -⟩ | ⟨-, h⟩
      · rfl
      · cases h
    · rcases hrule hget' hout' with ⟨-, h⟩ | ⟨rfl, -⟩
      · cases h
      · rfl
  have hinit : packetManagerInitialize twoPorts (some crossRules) 0 = some crossManager :=
    (Option.some_get crossRules_initialized).symm
  exact ⟨hapart, (singleOwner_iff hinit 2000000000).mpr hapart⟩

/-- Both ports forward to the first. -/
def sharedRules : Text := "1,UNKNOWN:OUTPUT(1);\n2,UNKNOWN:OUTPUT(1);".toList

theorem sharedRules_initialized :
    (packetManagerInitialize twoPorts (some sharedRules) 0).isSome := by
  decide +kernel

def sharedManager : PacketManager :=
  (packetManagerInitialize twoPorts (some sharedRules) 0).get sharedRules_initialized

/-- The log of a core of the two while a full burst of UDP packets
arrives at its port. -/
def sharedLog : Nat → List Event :=
  coreLog twoPorts sharedManager 2000000000 fun _ => fullLoad .unknown

/-- The two cores one after the other. -/
def sharedTrace : List (Nat × Event) :=
  (sharedLog 1).map (Prod.mk 1) ++ (sharedLog 2).map (Prod.mk 2)

theorem not_singleOwner_sharedRules :
    Interleaving sharedLog sharedTrace ∧ ¬ SingleOwner sharedTrace := by
  have hinit : packetManagerInitialize twoPorts (some sharedRules) 0 = some sharedManager :=
    (Option.some_get sharedRules_initialized).symm
  have hdrives : ∀ {l : Nat} {p : UInt8}, twoPorts.IsSlave l →
      sharedManager.portManager.getPortByCore l = some ⟨p⟩ →
      getActions sharedManager.rules (ruleKey p .unknown) = some [.output 0] →
      ∃ e ∈ sharedLog l, e.drives = some (.tx 0 0) := by
    intro l p hslave hport hget
    rw [sharedLog, coreLog, if_pos hslave]
    exact fullLoad_drives (serves_of_port hinit hport _) 2000000000 hget (by simp)
  refine ⟨interleaving_pair sharedLog (by decide), ?_⟩
  refine not_exclusive_pair (r := HwQueue.tx 0 0) (by decide) ?_ ?_
  · exact hdrives (p := 0) (by decide) (by decide +kernel) (by decide +kernel)
  · exact hdrives (p := 1) (by decide) (by decide +kernel) (by decide +kernel)

end Yapas
