import Yapas.Ledger

/-!
# Processing a burst

What `RunProcessing` does to the two invariants of a core, function by
function up to whole runs.

`verdict` is what the packet loop decides about a packet before it acts,
as a function of the packet and the tables. With it the loop has a
specification that mentions no state: worked off, the packets `ms` leave
behind the copies `wanted` and give back the buffers `due`. One lemma
for each function says how far it moves the books; `iteration_meets` is
the step and `run_spec` the run. A run that stops does so at the first
packet that cannot be read within its buffer.
-/

namespace Yapas

/-! ## What is to be done with a packet -/

/-- What the first half of the loop's body makes of a packet: rejected
by `PreparePacket`, without a rule, or subject to the actions of one. -/
inductive Verdict
  | rejected
  | noRule
  | rule (m : Mbuf) (actions : List Action)
  deriving DecidableEq

def Action.outputPort? : Action → Option UInt8
  | .output p => some p
  | _ => none

/-- The copies the action loop makes, each with the port it goes to. -/
def copiesOf : Mbuf → List Action → List (UInt8 × Mbuf)
  | _, [] => []
  | m, a :: actions =>
      (a.outputPort?.map fun p => (p, m)).toList ++ copiesOf (executePush m a) actions

def Verdict.copies : Verdict → List (UInt8 × Mbuf)
  | .rule m actions => copiesOf m actions
  | _ => []

/-- A packet without a rule is not given back. -/
def Verdict.gone (id : BufId) : Verdict → List BufId
  | .noRule => []
  | _ => [id]

namespace Thread

/-- `none` when the packet cannot be read within its buffer. -/
def verdict (t : Thread) (portId : UInt8) (m : Mbuf) : Option Verdict :=
  m.prepare.bind fun (prepared, buf) =>
    if prepared then
      buf.analyze.map fun protocol =>
        match getActions t.manager.rules (ruleKey portId protocol) with
        | none => .noRule
        | some actions => .rule buf actions
    else some .rejected

theorem verdict_of_analyze (t : Thread) (portId : UInt8) {m buf : Mbuf} {protocol : Protocol}
    (hprep : m.prepare = some (true, buf)) (hanalyze : buf.analyze = some protocol) :
    t.verdict portId m = some ((getActions t.manager.rules (ruleKey portId protocol)).elim
      .noRule (.rule buf)) := by
  rw [verdict, hprep, Option.bind_some]
  simp only [if_true, hanalyze, Option.map_some]
  cases getActions t.manager.rules (ruleKey portId protocol) with
  | none => rfl
  | some actions => rfl

/-- The actions come from the rule for the protocol the packet was
classified as. -/
theorem verdict_rule {t : Thread} {portId : UInt8} {m buf : Mbuf} {actions : List Action}
    (h : t.verdict portId m = some (.rule buf actions)) :
    ∃ protocol, m.prepare = some (true, buf) ∧ buf.analyze = some protocol
      ∧ getActions t.manager.rules (ruleKey portId protocol) = some actions := by
  obtain ⟨⟨prepared, buf'⟩, hprep, h⟩ := Option.bind_eq_some_iff.mp h
  cases prepared with
  | false => cases h
  | true =>
      obtain ⟨protocol, hanalyze, h⟩ := Option.map_eq_some_iff.mp h
      cases hget : getActions t.manager.rules (ruleKey portId protocol) with
      | none =>
          rw [hget] at h
          cases h
      | some actions' =>
          rw [hget] at h
          cases h
          exact ⟨protocol, hprep, hanalyze, hget⟩

/-- The packet can be read within its buffer. -/
def Readable (t : Thread) (portId : UInt8) (m : Packet) : Prop :=
  (t.verdict portId m.buf).isSome

/-- The packet is subject to no rule. -/
def Uncovered (t : Thread) (portId : UInt8) (m : Packet) : Prop :=
  t.verdict portId m.buf = some .noRule

instance (t : Thread) (portId : UInt8) (m : Packet) : Decidable (t.Readable portId m) :=
  inferInstanceAs (Decidable (_ = true))

instance (t : Thread) (portId : UInt8) (m : Packet) : Decidable (t.Uncovered portId m) :=
  inferInstanceAs (Decidable (_ = _))

/-- The copies to be made of the packets `ms`. -/
def wanted (t : Thread) (portId : UInt8) (ms : List Packet) : List (UInt8 × Mbuf) :=
  ms.flatMap fun m => (t.verdict portId m.buf).elim [] Verdict.copies

/-- Those of the packets `ms` that are given back. -/
def due (t : Thread) (portId : UInt8) (ms : List Packet) : List BufId :=
  ms.flatMap fun m => (t.verdict portId m.buf).elim [] (Verdict.gone m.id)

end Thread

theorem pushAll_concat (m : Mbuf) (actions : List Action) (a : Action) :
    pushAll m (actions ++ [a]) = executePush (pushAll m actions) a := by
  simp [pushAll]

theorem copiesOf_concat (a : Action) : ∀ (m : Mbuf) (actions : List Action),
    copiesOf m (actions ++ [a])
      = copiesOf m actions ++ (a.outputPort?.map fun p => (p, pushAll m actions)).toList
  | m, [] => by simp [copiesOf, pushAll]
  | m, b :: actions => by
      rw [List.cons_append, copiesOf, copiesOf, copiesOf_concat a (executePush m b) actions,
        List.append_assoc]
      rfl

/-- The two invariants together. -/
structure Ledger (t : Thread) (rx : List Packet) (out : List (UInt8 × Mbuf)) (gone : List BufId)
    (s : Lcore) : Prop where
  row : Row t s
  books : Books t rx out gone s

namespace Thread

variable {t : Thread} {rx : List Packet} {out : List (UInt8 × Mbuf)} {gone : List BufId}

/-! ## The functions, one by one -/

theorem pktmbufAlloc_none {s : Lcore} (h : t.driver.alloc s.allocs = none) :
    t.pktmbufAlloc s = (some none, { s with allocs := s.allocs + 1 }) := by
  rw [pktmbufAlloc, Proc.bind_run (Proc.get_run s), Proc.bind_run (Proc.modify_run _ s), h]
  rfl

theorem pktmbufAlloc_some {s : Lcore} {m : FreshMbuf} (h : t.driver.alloc s.allocs = some m) :
    t.pktmbufAlloc s = (some (some ⟨.copy s.allocs, m.buf⟩), { s with
      allocs := s.allocs + 1
      trace := s.trace ++ [.alloc (.copy s.allocs)] }) := by
  rw [pktmbufAlloc, Proc.bind_run (Proc.get_run s), Proc.bind_run (Proc.modify_run _ s), h]
  rfl

theorem copyMbuf_run (src : Mbuf) (s : Lcore)
    (hpool : (t.manager.portManager.mempool (t.hw.lcoreToSocketId t.lcoreId)).isSome) :
    t.copyMbuf src s = (some (t.copyOf s.allocs src), { s with
      allocs := s.allocs + 1
      trace := s.trace ++ t.copyEvents s.allocs src }) := by
  obtain ⟨mp, hmp⟩ := Option.isSome_iff_exists.mp hpool
  rw [copyMbuf, hmp, Proc.bind_run (Proc.ofOption_some_run mp s)]
  cases hm : t.driver.alloc s.allocs with
  | none =>
      rw [Proc.bind_run (pktmbufAlloc_none hm), copyOf, copyEvents, hm, List.append_nil]
      rfl
  | some m =>
      rw [Proc.bind_run (pktmbufAlloc_some hm), copyOf, copyEvents, hm]
      cases hbuf : m.buf.append src.pktLen with
      | none =>
          simp only [hbuf, Option.map_none]
          rw [Proc.bind_run (show pktmbufFree _ _ = _ from rfl)]
          simp
      | some buf =>
          simp only [hbuf, Option.map_some]
          rw [Proc.bind_run (show emit _ _ = _ from rfl)]
          simp

theorem onQueue_run {port : Port} {p : UInt8} {call : Nat → PortQueue Ptr → Option (Sent Ptr)}
    {s : Lcore} {r : Sent Ptr} (h : call s.bursts (s.queues p) = some r) :
    onQueue port p call s = (some (), { s with
      queues := Function.update s.queues p r.queue
      bursts := r.bursts
      trace := s.trace ++ r.events.map (.tx port.portId) }) := by
  rw [onQueue, Proc.bind_run (Proc.get_run s), h, Proc.bind_run (Proc.ofOption_some_run r s)]
  rfl

theorem getPortByIndex_eq (hpm : portManagerInitialize t.hw = .ok t.manager.portManager)
    {p : UInt8} (hp : p.toNat < t.hw.nbPorts.toNat) :
    t.getPortByIndex p = Proc.ofOption (some ⟨p⟩) := by
  rw [getPortByIndex, Yapas.getPortByIndex_eq hpm, if_pos hp]

theorem emit_run (e : Event) (s : Lcore) :
    emit e s = (some (), { s with trace := s.trace ++ [e] }) := rfl

/-! ## A core that serves a port -/

/-- The manager was initialised from `file`, and the core serves
`port`. -/
structure Serves (t : Thread) (file : Option Text) (port : Port) : Prop where
  initialized : packetManagerInitialize t.hw file t.manager.statsInterval = some t.manager
  port_eq : t.manager.portManager.getPortByCore t.lcoreId = some port

theorem serves_started {hw : Hardware} {file : Option Text} {statsInterval : UInt16}
    (hinit : (packetManagerInitialize hw file statsInterval).isSome) {lcoreId : Nat}
    {driver : Driver} {port : Port}
    (hport : (started hw file statsInterval hinit lcoreId driver).manager.portManager.getPortByCore
      lcoreId = some port) :
    (started hw file statsInterval hinit lcoreId driver).Serves file port := by
  obtain ⟨manager, hmanager⟩ := Option.isSome_iff_exists.mp hinit
  have hget : (started hw file statsInterval hinit lcoreId driver).manager = manager :=
    Option.get_of_eq_some hinit hmanager
  refine ⟨?_, hport⟩
  rw [hget, (packetManagerInitialize_spec hmanager).2.1]
  exact hmanager

section Serves

variable {file : Option Text} {port : Port}

theorem Serves.tables (h : t.Serves file port) :
    configInitialize t.hw.nbPorts file = some t.manager.rules
      ∧ portManagerInitialize t.hw = .ok t.manager.portManager := by
  obtain ⟨hrules, -, hports⟩ := packetManagerInitialize_spec h.initialized
  exact ⟨hrules, hports⟩

theorem Serves.mempool (h : t.Serves file port) :
    (t.manager.portManager.mempool (t.hw.lcoreToSocketId t.lcoreId)).isSome :=
  mempool_isSome h.tables.2 h.port_eq

theorem Serves.port_lt (h : t.Serves file port) : port.portId.toNat < t.hw.nbPorts.toNat :=
  getPortByCore_lt h.tables.2 h.port_eq

/-- What the parser guarantees of the lists the loop executes. -/
theorem Serves.actions (h : t.Serves file port) {key : UInt16} {actions : List Action}
    (hget : getActions t.manager.rules key = some actions) :
    WellShaped actions ∧ ∀ p, .output p ∈ actions → p.toNat < t.hw.nbPorts.toNat := by
  obtain ⟨line, right, -, hparse⟩ := line_of_getActions h.tables.1 hget
  refine ⟨parseActions_shape hparse, fun p hp => ?_⟩
  obtain ⟨s, hs⟩ := parseActions_mem hparse _ hp
  exact parseAction_output hs

/-! ## One packet -/

theorem executeOutput_meets (h : t.Serves file port) (m : Mbuf) {p : UInt8}
    (hp : p.toNat < t.hw.nbPorts.toNat) :
    Proc.Meets (Ledger t rx out gone) (t.executeAction m (.output p))
      (fun m' s => m' = m ∧ Ledger t rx (out ++ [(p, m)]) gone s) fun _ => False := by
  refine .of_run fun s hs => ?_
  obtain ⟨-, -, -, -, -, hlocal⟩ := t.copyEvents_spec s.allocs m
  obtain ⟨r, hr, hacc⟩ :=
    sendOnePacket_spec t.driver.tx s.bursts (t.copyOf s.allocs m) (hs.row.count_lt p)
  have hrun : t.executeAction m (.output p) s = (some m, { s with
      allocs := s.allocs + 1
      queues := Function.update s.queues p r.queue
      bursts := r.bursts
      trace := s.trace ++ t.copyEvents s.allocs m ++ r.events.map (.tx p) }) := by
    rw [executeAction, Proc.bind_run (copyMbuf_run m s h.mempool), executeOutput,
      getPortByIndex_eq h.tables.2 hp, Proc.ofOption_some_bind, Proc.bind_run (onQueue_run hr)]
    rfl
  refine ⟨m, _, hrun, rfl, ?_, ?_⟩
  · have hcopied : Row t { s with trace := s.trace ++ t.copyEvents s.allocs m } :=
      hs.row.local rfl rfl hlocal
    exact hcopied.call hacc rfl rfl
  · refine hs.books.output rfl rfl (List.append_assoc _ _ _) (quiet_tx p r.events) ?_
    rw [handed_tx, hacc.written_eq]
    rfl

theorem executeAction_meets (h : t.Serves file port) (m : Mbuf) {a : Action}
    (ha : ∀ p, a = .output p → p.toNat < t.hw.nbPorts.toNat) :
    Proc.Meets (Ledger t rx out gone) (t.executeAction m a)
      (fun m' s => m' = executePush m a
        ∧ Ledger t rx (out ++ (a.outputPort?.map fun p => (p, m)).toList) gone s)
      fun _ => False := by
  cases a with
  | output p => exact executeOutput_meets h m (ha p rfl)
  | drop | pushVlan w | pushMpls w =>
      refine .pure fun s hs => ⟨rfl, ?_⟩
      show Ledger t rx (out ++ []) gone s
      rw [List.append_nil]
      exact hs

theorem executeActions_meets (h : t.Serves file port) (m : Mbuf) {actions : List Action}
    (hactions : ∀ p, .output p ∈ actions → p.toNat < t.hw.nbPorts.toNat) :
    Proc.Meets (Ledger t rx out gone) (actions.foldlM t.executeAction m)
      (fun _ => Ledger t rx (out ++ copiesOf m actions) gone) fun _ => False := by
  have hloop : Proc.Meets
      (fun s => m = pushAll m [] ∧ Ledger t rx (out ++ copiesOf m []) gone s)
      (actions.foldlM t.executeAction m)
      (fun m' s => m' = pushAll m actions ∧ Ledger t rx (out ++ copiesOf m actions) gone s)
      fun _ => False := by
    refine Proc.Meets.foldlM (I := fun pre m' s => m' = pushAll m pre
      ∧ Ledger t rx (out ++ copiesOf m pre) gone s) fun pre a post m' hsplit => ?_
    have ha : ∀ p, a = .output p → p.toNat < t.hw.nbPorts.toNat := by
      rintro p rfl
      exact hactions p (by rw [hsplit]; simp)
    rintro s ⟨hm, hs⟩
    refine (executeAction_meets h m' ha).weaken (fun s hs => hs) (fun m'' s' hs' => ?_)
      (fun _ => id) s hs
    rw [pushAll_concat, copiesOf_concat, ← List.append_assoc, ← hm]
    exact hs'
  refine hloop.weaken (fun s hs => ⟨rfl, ?_⟩) (fun m' s hs => hs.2) fun _ => id
  rw [copiesOf, List.append_nil]
  exact hs

/-- An event that moves no buffer and touches no queue. -/
theorem emit_meets {e : Event} (hq : Quiet [e]) (hhanded : e.handed = [])
    (hlocal : e.isLocal = true) {E : Lcore → Prop} :
    Proc.Meets (Ledger t rx out gone) (emit e) (fun _ => Ledger t rx out gone) E := by
  refine .of_run fun s hs => ⟨(), _, emit_run e s, ?_, ?_⟩
  · refine hs.row.local rfl rfl fun e' hmem => ?_
    rw [List.mem_singleton.mp hmem]
    exact hlocal
  · refine hs.books.quiet rfl rfl rfl hq ?_
    rw [List.flatMap_singleton, hhanded]

theorem updateProtocolStats_meets (protocol : Protocol) {E : Lcore → Prop} :
    Proc.Meets (Ledger t rx out gone) (t.updateProtocolStats port protocol)
      (fun _ => Ledger t rx out gone) E := by
  cases protocol with
  | unknown => exact .pure fun s hs => hs
  | http | sip | rtp | rtsp =>
      refine emit_meets ?_ rfl rfl
      constructor <;> rfl

theorem pktmbufFree_meets (m : Packet) {E : Lcore → Prop} :
    Proc.Meets (Ledger t rx out gone) (pktmbufFree m)
      (fun _ => Ledger t rx out (gone ++ [m.id])) E := by
  refine .of_run fun s hs => ⟨(), _, emit_run _ s, ?_, ?_⟩
  · exact hs.row.local rfl rfl (by simp [Event.isLocal])
  · exact hs.books.free rfl rfl rfl

theorem processPacket_meets (h : t.Serves file port) {m : Packet} {v : Verdict}
    (hv : t.verdict port.portId m.buf = some v) :
    Proc.Meets (Ledger t rx out gone) (t.processPacket port.portId (some m))
      (fun _ => Ledger t rx (out ++ v.copies) (gone ++ v.gone m.id))
      fun _ => False := by
  obtain ⟨⟨prepared, buf⟩, hprep, hv⟩ := Option.bind_eq_some_iff.mp hv
  rw [processPacket, Proc.ofOption_some_bind, hprep, Proc.ofOption_some_bind]
  cases prepared with
  | false =>
      obtain rfl := Option.some.inj hv
      show Proc.Meets _ _ (fun _ => Ledger t rx (out ++ []) _) _
      rw [List.append_nil]
      exact pktmbufFree_meets m
  | true =>
      obtain ⟨protocol, hanalyze, hv⟩ := Option.map_eq_some_iff.mp hv
      simp only [hanalyze, getPortByIndex_eq h.tables.2 h.port_lt, Proc.ofOption_some_bind, if_true]
      refine (updateProtocolStats_meets protocol).bind fun _ => ?_
      cases hget : getActions t.manager.rules (ruleKey port.portId protocol) with
      | none =>
          rw [hget] at hv
          subst hv
          refine .pure fun s hs => ?_
          show Ledger t rx (out ++ []) (gone ++ []) s
          rwa [List.append_nil, List.append_nil]
      | some actions =>
          rw [hget] at hv
          subst hv
          refine (executeActions_meets h buf (h.actions hget).2).bind fun _ => ?_
          exact pktmbufFree_meets m

theorem processPacket_stops {m : Packet} (hv : t.verdict port.portId m.buf = none) (s : Lcore) :
    t.processPacket port.portId (some m) s = (none, s) := by
  rw [processPacket, Proc.ofOption_some_bind]
  unfold verdict at hv
  cases hprep : m.buf.prepare with
  | none => rfl
  | some r =>
      obtain ⟨prepared, buf⟩ := r
      rw [hprep, Option.bind_some] at hv
      rw [Proc.ofOption_some_bind]
      cases prepared with
      | false => cases hv
      | true =>
          have hanalyze := Option.map_eq_none_iff.mp hv
          simp only [hanalyze, if_true]
          rfl

/-! ## A burst -/

theorem wanted_append (p : UInt8) (ms ms' : List Packet) :
    t.wanted p (ms ++ ms') = t.wanted p ms ++ t.wanted p ms' := List.flatMap_append

theorem due_append (p : UInt8) (ms ms' : List Packet) :
    t.due p (ms ++ ms') = t.due p ms ++ t.due p ms' := List.flatMap_append

theorem wanted_singleton {p : UInt8} {m : Packet} {v : Verdict}
    (hv : t.verdict p m.buf = some v) : t.wanted p [m] = v.copies := by
  rw [wanted, List.flatMap_singleton, hv]
  rfl

theorem due_singleton {p : UInt8} {m : Packet} {v : Verdict} (hv : t.verdict p m.buf = some v) :
    t.due p [m] = v.gone m.id := by
  rw [due, List.flatMap_singleton, hv]
  rfl

/-- Of the packets `rx` received, `done` have been worked off. -/
structure Worked (t : Thread) (p : UInt8) (rx done : List Packet) (s : Lcore) : Prop where
  ledger : Ledger t rx (t.wanted p done) (t.due p done) s
  readable : ∀ m ∈ done, t.Readable p m

/-- All packets received have been worked off. -/
def AllWorked (t : Thread) (p : UInt8) (s : Lcore) : Prop := ∃ rx, Worked t p rx rx s

theorem worked_start (t : Thread) (p : UInt8) (slots : UInt8 → Vector Ptr maxPktsInQueue) :
    Worked t p [] [] (Lcore.start slots) :=
  ⟨⟨row_start t slots, books_start t slots⟩, fun _ hm => absurd hm List.not_mem_nil⟩

/-- The packet to be worked off next cannot be read within its
buffer. -/
def Stuck (t : Thread) (p : UInt8) (rx : List Packet) (s : Lcore) : Prop :=
  ∃ done m todo, rx = done ++ m :: todo ∧ Worked t p rx done s ∧ ¬ t.Readable p m

theorem Worked.packet (h : t.Serves file port) {done todo : List Packet} {m : Packet}
    (hrx : rx = done ++ m :: todo) :
    Proc.Meets (Worked t port.portId rx done) (t.processPacket port.portId (some m))
      (fun _ => Worked t port.portId rx (done ++ [m])) (Stuck t port.portId rx) := by
  cases hv : t.verdict port.portId m.buf with
  | none =>
      refine .of_stop fun s hs => ⟨s, processPacket_stops hv s, done, m, todo, hrx, hs, ?_⟩
      rw [Readable, hv]
      exact Bool.false_ne_true
  | some v =>
      intro s hs
      refine (processPacket_meets h hv).weaken (fun s hs => hs) (fun _ s' hs' => ⟨?_, ?_⟩)
        (fun _ hfalse => hfalse.elim) s hs.ledger
      · rw [wanted_append, due_append, wanted_singleton hv, due_singleton hv]
        exact hs'
      · intro m' hm'
        rcases List.mem_append.mp hm' with hm' | hm'
        · exact hs.readable m' hm'
        · rw [List.mem_singleton.mp hm', Readable, hv]
          rfl

theorem processPackets_meets (h : t.Serves file port) {q : PortQueue Ptr} {ms : List Packet}
    (hq : q.queued = ms.map some) :
    Proc.Meets (Worked t port.portId (rx ++ ms) rx) (t.processPackets q port.portId)
      (fun q' s => q' = q.clear ∧ Worked t port.portId (rx ++ ms) (rx ++ ms) s)
      (Stuck t port.portId (rx ++ ms)) := by
  rw [processPackets, hq, List.foldlM_map]
  have hloop : Proc.Meets (Worked t port.portId (rx ++ ms) (rx ++ []))
      (ms.foldlM (fun _ m => t.processPacket port.portId (some m)) ())
      (fun _ => Worked t port.portId (rx ++ ms) (rx ++ ms)) (Stuck t port.portId (rx ++ ms)) := by
    refine Proc.Meets.foldlM (I := fun pre _ => Worked t port.portId (rx ++ ms) (rx ++ pre)) ?_
    intro pre m post _ hsplit
    rw [← List.append_assoc]
    exact Worked.packet h (by rw [hsplit, List.append_assoc])
  rw [List.append_nil] at hloop
  exact hloop.bind fun _ => .pure fun s hs => ⟨rfl, hs⟩

/-! ## The loop -/

theorem flush_meets (h : t.Serves file port) {E : Lcore → Prop} :
    Proc.Meets (Ledger t rx out gone) t.flush (fun _ => Ledger t rx out gone) E := by
  refine Proc.Meets.foldlM (I := fun _ _ => Ledger t rx out gone) fun pre i post _ hsplit => ?_
  have hi : i.toNat < t.hw.nbPorts.toNat := by
    rw [← Hardware.mem_portIds, hsplit]
    simp
  rw [getPortByIndex_eq h.tables.2 hi, Proc.ofOption_some_bind]
  refine .of_run fun s hs => ?_
  obtain ⟨r, hr, -, hacc⟩ := sendAllPackets_spec t.driver.tx s.bursts (s.queues i)
  refine ⟨(), _, onQueue_run hr, hs.row.call hacc rfl rfl, ?_⟩
  refine hs.books.quiet rfl rfl rfl (quiet_tx i r.events) ?_
  rw [handed_tx, hacc.written_eq]
  rfl

theorem linkTimer_meets (l : Locals) (tick : Tick) (diffTsc : UInt64) {E : Lcore → Prop} :
    Proc.Meets (Ledger t rx out gone) (linkTimer port l tick diffTsc)
      (fun l' s => l'.linkStatus
          = (if timerPeriod ≤ l.timerTsc + diffTsc then tick.linkStatus else l.linkStatus)
        ∧ Ledger t rx out gone s) E := by
  rw [linkTimer]
  split
  · have hlink : Quiet [.link port.portId tick.linkStatus] := by
      constructor <;> rfl
    exact (emit_meets hlink rfl rfl).bind fun _ => .pure fun s hs => ⟨rfl, hs⟩
  · exact .pure fun s hs => ⟨rfl, hs⟩

theorem statsTimer_meets (l : Locals) (diffTsc : UInt64) {E : Lcore → Prop} :
    Proc.Meets (Ledger t rx out gone) (t.statsTimer l diffTsc)
      (fun l' s => l'.linkStatus = l.linkStatus ∧ Ledger t rx out gone s) E := by
  rw [statsTimer]
  split
  · split
    · have hprint : Quiet [.printStats t.lcoreId] := by
        constructor <;> rfl
      exact (emit_meets hprint rfl rfl).bind fun _ => .pure fun s hs => ⟨rfl, hs⟩
    · exact .pure fun s hs => ⟨rfl, hs⟩
  · exact .pure fun s hs => ⟨rfl, hs⟩

/-- The iteration asks the port for its link status. -/
def LinkDue (tscHz : UInt64) (l : Locals) (tick : Tick) : Prop :=
  drainTsc tscHz ≤ tick.curTsc - l.prevTsc
    ∧ timerPeriod ≤ l.timerTsc + (tick.curTsc - l.prevTsc)

instance (tscHz : UInt64) (l : Locals) (tick : Tick) : Decidable (LinkDue tscHz l tick) :=
  inferInstanceAs (Decidable (_ ∧ _))

theorem drain_meets (h : t.Serves file port) (tscHz : UInt64) (l : Locals) (tick : Tick)
    {E : Lcore → Prop} :
    Proc.Meets (Ledger t rx out gone) (t.drain tscHz port l tick)
      (fun l' s => l'.linkStatus
          = (if LinkDue tscHz l tick then tick.linkStatus else l.linkStatus)
        ∧ Ledger t rx out gone s) E := by
  simp only [drain, LinkDue]
  split
  · rename_i hdrain
    refine (flush_meets h).bind fun _ => (linkTimer_meets _ tick _).bind fun l' => ?_
    rintro s ⟨hlink, hs⟩
    refine (statsTimer_meets l' _).weaken (fun s hs => hs) (fun l'' s' hs' => ?_) (fun _ => id) s hs
    refine ⟨hs'.1.trans ?_, hs'.2⟩
    simpa [hdrain] using hlink
  · rename_i hdrain
    exact .pure fun s hs => ⟨by simp [hdrain], hs⟩

theorem receivePackets_meets (h : t.Serves file port) (q : PortQueue Ptr) (tick : Tick)
    {E : Lcore → Prop} :
    Proc.Meets (Ledger t rx out gone) (receivePackets port q tick)
      (fun q' s => ∃ ms, ms.map Packet.buf = tick.frames ∧ q'.queued = ms.map some
        ∧ Ledger t (rx ++ ms) out gone s) E := by
  refine .of_run fun s hs => ⟨_, _, rfl, numbered s.received tick.frames, ?_, ?_, ?_, ?_⟩
  · rw [numbered, List.map_map]
    exact List.zipIdx_map_fst _ _
  · exact PortQueue.queued_fill q _
  · refine hs.row.append rfl rfl (by simp) fun p ms hmem => ?_
    obtain ⟨rfl, -⟩ := Event.rxBurst.inj (List.mem_singleton.mp hmem)
    exact h.port_eq
  · exact hs.books.receive rfl rfl rfl rfl

theorem poll_meets (h : t.Serves file port) {l : Locals} (tick : Tick)
    (hlink : l.linkStatus = true) :
    Proc.Meets (Worked t port.portId rx rx) (t.poll port l tick)
      (fun _ s => ∃ ms, ms.map Packet.buf = tick.frames
        ∧ Worked t port.portId (rx ++ ms) (rx ++ ms) s)
      fun s => ∃ ms, ms.map Packet.buf = tick.frames ∧ Stuck t port.portId (rx ++ ms) s := by
  rw [poll, if_pos hlink]
  refine Proc.Meets.bind (Q := fun q s => ∃ ms, ms.map Packet.buf = tick.frames
    ∧ q.queued = ms.map some ∧ Worked t port.portId (rx ++ ms) rx s) ?_ fun q => ?_
  · intro s hs
    refine (receivePackets_meets h l.rxQueue tick).weaken (fun s hs => hs) ?_ (fun _ => id) s
      hs.ledger
    rintro q s' ⟨ms, hframes, hq, hledger⟩
    exact ⟨ms, hframes, hq, hledger, hs.readable⟩
  · rintro s ⟨ms, hframes, hq, hs⟩
    refine Proc.Meets.bind ((processPackets_meets h hq).weaken (fun s hs => hs)
      (fun q' s' hs' => hs'.2) fun s' hs' => ?_) (fun q' => ?_) s hs
    · exact ⟨ms, hframes, hs'⟩
    · exact .pure fun s' hs' => ⟨ms, hframes, hs'⟩

/-- The frames that an iteration reads. -/
def polled (tscHz : UInt64) (l : Locals) (tick : Tick) : List Mbuf :=
  if (if LinkDue tscHz l tick then tick.linkStatus else l.linkStatus) then tick.frames else []

/-- What one iteration receives is worked off. -/
theorem iteration_receives (h : t.Serves file port) (tscHz : UInt64) (l : Locals) (tick : Tick) :
    Proc.Meets (Worked t port.portId rx rx) (t.iteration tscHz port l tick)
      (fun _ s => ∃ ms, ms.map Packet.buf = polled tscHz l tick
        ∧ Worked t port.portId (rx ++ ms) (rx ++ ms) s)
      fun s => ∃ ms, ms.map Packet.buf = polled tscHz l tick ∧ Stuck t port.portId (rx ++ ms) s := by
  refine Proc.Meets.bind (Q := fun l' s => l'.linkStatus
    = (if LinkDue tscHz l tick then tick.linkStatus else l.linkStatus)
      ∧ Worked t port.portId rx rx s) ?_ fun l' => ?_
  · intro s hs
    refine (drain_meets h tscHz l tick).weaken (fun s hs => hs) (fun _ s' hs' => ?_)
      (fun _ => id) s hs.ledger
    exact ⟨hs'.1, hs'.2, hs.readable⟩
  · rintro s ⟨hstatus, hs⟩
    rw [polled, ← hstatus]
    by_cases hlink : l'.linkStatus = true
    · rw [if_pos hlink]
      exact poll_meets h tick hlink s hs
    · rw [poll, if_neg hlink, if_neg hlink]
      refine Proc.Meets.pure (fun s' hs' => ⟨[], rfl, ?_⟩) s hs
      rwa [List.append_nil]

/-- What one iteration keeps. -/
theorem iteration_meets (h : t.Serves file port) (tscHz : UInt64) (l : Locals) (tick : Tick) :
    Proc.Meets (AllWorked t port.portId) (t.iteration tscHz port l tick)
      (fun _ => AllWorked t port.portId) fun s => ∃ rx, Stuck t port.portId rx s := by
  rintro s ⟨rx, hs⟩
  refine (iteration_receives h tscHz l tick).weaken (fun s hs => hs) ?_ ?_ s hs
  · rintro _ s' ⟨ms, -, hs'⟩
    exact ⟨_, hs'⟩
  · rintro s' ⟨ms, -, hs'⟩
    exact ⟨_, hs'⟩

/-- What a run of the loop keeps. -/
theorem runProcessing_meets (h : t.Serves file port) (tscHz : UInt64) (entry : Entry)
    (ticks : List Tick) :
    Proc.Meets (AllWorked t port.portId) (t.runProcessing tscHz entry ticks)
      (fun _ => AllWorked t port.portId) fun s => ∃ rx, Stuck t port.portId rx s := by
  rw [runProcessing, h.port_eq]
  refine Proc.Meets.bind (Q := fun _ => AllWorked t port.portId) ?_ fun _ => .pure fun _ hs => hs
  refine Proc.Meets.foldlM (I := fun _ _ => AllWorked t port.portId) fun _ tick _ l _ => ?_
  exact iteration_meets h tscHz l tick

theorem takeWhile_readable {p : UInt8} {done : List Packet} (h : ∀ m ∈ done, t.Readable p m)
    (rest : List Packet) :
    (done ++ rest).takeWhile (t.Readable p) = done ++ rest.takeWhile (t.Readable p) := by
  rw [List.takeWhile_append_of_pos]
  intro m hm
  exact decide_eq_true (h m hm)

end Serves

end Thread

/-- The packets a core has received. -/
def Lcore.rxPackets (s : Lcore) : List Packet := s.trace.flatMap Event.received

/-- Those of them it has worked off: all up to the first that cannot be
read. -/
def Thread.worked (t : Thread) (port : Port) (s : Lcore) : List Packet :=
  s.rxPackets.takeWhile (t.Readable port.portId)

theorem Thread.worked_eq {t : Thread} {port : Port} {s : Lcore}
    (h : ∀ m ∈ s.rxPackets, t.Readable port.portId m) : t.worked port s = s.rxPackets := by
  have hall := takeWhile_readable h []
  rwa [List.append_nil, List.takeWhile_nil, List.append_nil] at hall

/-- A run from the start, whether it ends or stops. -/
theorem Thread.run_spec {t : Thread} {file : Option Text} {port : Port} (h : t.Serves file port)
    (tscHz : UInt64) (entry : Entry) (ticks : List Tick)
    (slots : UInt8 → Vector Ptr maxPktsInQueue) {o : Option Unit} {s : Lcore}
    (hrun : t.runProcessing tscHz entry ticks (Lcore.start slots) = (o, s)) :
    Worked t port.portId s.rxPackets (t.worked port s) s
      ∧ (o.isSome ↔ ∀ m ∈ s.rxPackets, t.Readable port.portId m) := by
  have hstart : t.AllWorked port.portId (Lcore.start slots) := ⟨[], worked_start t _ slots⟩
  obtain ⟨hreturn, hstop⟩ := runProcessing_meets h tscHz entry ticks _ hstart
  cases o with
  | some u =>
      obtain ⟨rx, hs⟩ := hreturn u s hrun
      obtain rfl : s.rxPackets = rx := hs.ledger.books.received_eq
      rw [worked_eq hs.readable]
      exact ⟨hs, by simpa using hs.readable⟩
  | none =>
      obtain ⟨rx, done, m, todo, hsplit, hs, hm⟩ := hstop s hrun
      obtain rfl : s.rxPackets = rx := hs.ledger.books.received_eq
      have hdone : t.worked port s = done := by
        rw [worked, hsplit, takeWhile_readable hs.readable, List.takeWhile_cons,
          if_neg (by simpa using hm), List.append_nil]
      rw [hdone]
      refine ⟨hs, ?_⟩
      simp only [Option.isSome_none, Bool.false_eq_true, false_iff]
      intro hall
      exact hm (hall m (by rw [hsplit]; simp))

end Yapas
