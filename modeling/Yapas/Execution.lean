import Yapas.Burst

/-!
# Executing the rules

What the packet loop hands to the transmit queues. The loop makes a copy
at every OUTPUT it comes to and does nothing at a DROP; which copies a
rule is meant to make is said by `ruleCopies`, without a loop: one for
each output port of the rule, in order, of the packet after all its
pushes. The two agree on the lists the parser accepts, because there
every push stands before the first OUTPUT (`copiesOf_wellShaped`).
-/

namespace Yapas

/-- The bytes of the copies a packet's rule asks for, each with its
port. -/
def Thread.ruleCopies (t : Thread) (portId : UInt8) (m : Mbuf) : List (UInt8 × List UInt8) :=
  match t.verdict portId m with
  | some (.rule buf actions) =>
      (actions.filterMap Action.outputPort?).map fun p =>
        (p, (pushAll buf (actions.filter Action.isPush)).data)
  | _ => []

/-- The same for all packets worked off. -/
def Thread.dueCopies (t : Thread) (port : Port) (s : Lcore) : List (UInt8 × List UInt8) :=
  (t.worked port s).flatMap fun m => t.ruleCopies port.portId m.buf

/-- The bytes behind the pointers handed to the queues. -/
def Lcore.handedData (s : Lcore) : List (UInt8 × Option (List UInt8)) :=
  (s.trace.flatMap Event.handed).map fun o => (o.1, o.2.map fun c => c.buf.data)

/-- What becomes of the `n`-th copy, of these bytes. -/
def Thread.delivered (t : Thread) (n : Nat) (bytes : List UInt8) : Option (List UInt8) :=
  if (t.driver.alloc n).isSome ∧ bytes.length ≤ mbufDefaultDataroom then some bytes else none

/-! ## Copies -/

/-- A copy holds the bytes of its source; it fails without a buffer or
for want of room. -/
theorem copyOf_data (t : Thread) (n : Nat) (src : Mbuf) :
    (t.copyOf n src).map (fun c => c.buf.data) = t.delivered n src.data := by
  unfold Thread.copyOf Thread.delivered
  rw [src.length_data]
  cases ht : t.driver.alloc n with
  | none => simp
  | some m =>
      have hlen := m.pktLen_eq
      have hroom := m.length_room
      cases hbuf : m.buf.append src.pktLen with
      | none =>
          have hlong := Mbuf.append_eq_none hbuf
          rw [if_neg (by omega)]
          simp [hbuf]
      | some buf =>
          obtain ⟨hfit, hr, hp⟩ := Mbuf.append_spec hbuf
          have hover : overwriteAt m.buf.room 0 src.data
              = src.data ++ m.buf.room.drop src.data.length := by
            rw [overwriteAt_eq (by rw [src.length_data]; omega), List.take_zero,
              List.nil_append, Nat.zero_add]
          have hdata : (buf.overwrite 0 src.data).data = src.data := by
            rw [Mbuf.data, Mbuf.overwrite_room, Mbuf.overwrite_pktLen, hr, hp, hover, hlen,
              Nat.zero_add, ← src.length_data, List.take_left]
          rw [if_pos ⟨rfl, by omega⟩]
          simp [hbuf, hdata]

/-! ## The loop over a well-shaped list -/

theorem copiesOf_append : ∀ (m : Mbuf) (actions actions' : List Action),
    copiesOf m (actions ++ actions') = copiesOf m actions ++ copiesOf (pushAll m actions) actions'
  | m, [], actions' => rfl
  | m, a :: actions, actions' => by
      rw [List.cons_append, copiesOf, copiesOf, copiesOf_append, List.append_assoc]
      rfl

theorem copiesOf_pushes : ∀ (m : Mbuf) {actions : List Action},
    (∀ a ∈ actions, a.isPush = true) →
    copiesOf m actions = [] ∧ actions.filterMap Action.outputPort? = []
      ∧ actions.filter Action.isPush = actions
  | m, [], _ => ⟨rfl, rfl, rfl⟩
  | m, a :: actions, h => by
      have ha := h a (by simp)
      have htail : ∀ b ∈ actions, b.isPush = true := fun b hb => h b (by simp [hb])
      obtain ⟨hcopies, hports, hpushes⟩ := copiesOf_pushes (executePush m a) htail
      cases a with
      | drop | output _ => cases ha
      | pushVlan w | pushMpls w =>
          refine ⟨hcopies, hports, ?_⟩
          rw [List.filter_cons, if_pos ha, hpushes]

theorem copiesOf_outputs : ∀ (m : Mbuf) (ports : List UInt8),
    copiesOf m (ports.map Action.output) = ports.map (fun p => (p, m))
      ∧ (ports.map Action.output).filterMap Action.outputPort? = ports
      ∧ (ports.map Action.output).filter Action.isPush = []
  | m, [] => ⟨rfl, rfl, rfl⟩
  | m, p :: ports => by
      obtain ⟨hcopies, hports, hpushes⟩ := copiesOf_outputs m ports
      refine ⟨congrArg ((p, m) :: ·) hcopies, congrArg (p :: ·) hports, hpushes⟩

theorem copiesOf_wellShaped (m : Mbuf) {actions : List Action} (h : WellShaped actions) :
    copiesOf m actions = (actions.filterMap Action.outputPort?).map fun p =>
      (p, pushAll m (actions.filter Action.isPush)) := by
  rcases h with rfl | ⟨-, -, pushes, ports, hpush, rfl⟩
  · rfl
  · obtain ⟨hcopies, hports, hpushes⟩ := copiesOf_pushes m hpush
    obtain ⟨hcopies', hports', hpushes'⟩ := copiesOf_outputs (pushAll m pushes) ports
    rw [copiesOf_append, hcopies, hcopies', List.filterMap_append, hports, hports',
      List.filter_append, hpushes, hpushes', List.append_nil, List.nil_append, List.nil_append]

/-- The copies made of the packets `ms`, by their bytes. -/
theorem wanted_data {t : Thread} {file : Option Text} {port : Port} (h : t.Serves file port)
    (ms : List Packet) :
    (t.wanted port.portId ms).map (fun o => (o.1, o.2.data))
      = ms.flatMap fun m => t.ruleCopies port.portId m.buf := by
  rw [Thread.wanted, List.map_flatMap]
  congr 1
  funext m
  unfold Thread.ruleCopies
  cases hv : t.verdict port.portId m.buf with
  | none => rfl
  | some v =>
      cases v with
      | rejected | noRule => rfl
      | rule buf actions =>
          obtain ⟨protocol, -, -, hget⟩ := Thread.verdict_rule hv
          have hshape := (h.actions hget).1
          simp only [Option.elim_some, Verdict.copies, copiesOf_wellShaped buf hshape,
            List.map_map]
          rfl

/-! ## A run -/

/-- The pointers handed over answer to the copies asked for one by
one. -/
theorem Thread.handedData_eq {t : Thread} {file : Option Text} {port : Port}
    (h : t.Serves file port) {s : Lcore}
    (hs : Worked t port.portId s.rxPackets (t.worked port s) s) :
    s.handedData = (t.dueCopies port s).zipIdx.map fun e => (e.1.1, t.delivered e.2 e.1.2) := by
  rw [Lcore.handedData, dueCopies, hs.ledger.books.handed_eq, ← wanted_data h, copies,
    List.map_map, List.zipIdx_map, List.map_map]
  congr 1
  funext e
  exact congrArg (Prod.mk e.1.1) (copyOf_data t e.2 e.1.2)

/-- In every run of a core, whatever it receives: the lists of its rules
are DROP alone or pushes in front of outputs to existing ports; the run
goes through unless a packet cannot be read within its buffer; and the
pointers handed to the queues are, in order, one for each copy the rules
of the packets worked off ask for, on the queue of the port it is for,
holding its bytes unless the copy failed. -/
theorem Thread.run_executes {t : Thread} {file : Option Text} {port : Port}
    (h : t.Serves file port) (tscHz : UInt64) (entry : Entry) (ticks : List Tick)
    (slots : UInt8 → Vector Ptr maxPktsInQueue) {o : Option Unit} {s : Lcore}
    (hrun : t.runProcessing tscHz entry ticks (Lcore.start slots) = (o, s)) :
    (∀ key actions, getActions t.manager.rules key = some actions →
        WellShaped actions ∧ ∀ p, .output p ∈ actions → p.toNat < t.hw.nbPorts.toNat)
      ∧ (o.isSome ↔ ∀ m ∈ s.rxPackets, t.Readable port.portId m)
      ∧ s.handedData
        = (t.dueCopies port s).zipIdx.map (fun e => (e.1.1, t.delivered e.2 e.1.2))
      ∧ ((∀ n, (t.driver.alloc n).isSome) →
        (∀ e ∈ t.dueCopies port s, e.2.length ≤ mbufDefaultDataroom) →
        s.handedData = (t.dueCopies port s).map fun e => (e.1, some e.2)) := by
  obtain ⟨hworked, hends⟩ := run_spec h tscHz entry ticks slots hrun
  have hhanded := handedData_eq h hworked
  refine ⟨fun key actions hget => h.actions hget, hends, hhanded, fun halloc hfit => ?_⟩
  calc s.handedData
      = (t.dueCopies port s).zipIdx.map (fun e => (e.1.1, some e.1.2)) := by
        rw [hhanded]
        refine List.map_congr_left fun e he => congrArg (Prod.mk e.1.1) ?_
        exact if_pos ⟨halloc _, hfit _ (List.fst_mem_of_mem_zipIdx he)⟩
    _ = ((t.dueCopies port s).zipIdx.map Prod.fst).map (fun e => (e.1, some e.2)) := by
        rw [List.map_map]
        rfl
    _ = _ := by rw [List.zipIdx_map_fst]

/-! ## Two ports and three cores -/

def twoPorts : Hardware where
  nbPorts := 2
  masterLcore := 0
  lcoreIsEnabled l := l < 3
  lcoreToSocketId _ := 0
  poolCreate _ _ := true
  devConfigure _ := 0
  rxQueueSetup _ _ := 0
  txQueueSetup _ _ := 0
  devStart _ := 0
  lcoreIsEnabled_lt h := Nat.lt_trans (of_decide_eq_true h) (by decide)

def freshMbuf : FreshMbuf where
  buf :=
    { headroom := List.replicate 128 0
      room := List.replicate 2048 0
      pktLen := 0
      l2Len := 0
      l3Len := 0
      l4Len := 0
      pktLen_le := Nat.zero_le _
      size_lt := by
        rw [List.length_replicate, List.length_replicate]
        decide }
  pktLen_eq := rfl
  length_headroom := List.length_replicate
  length_room := List.length_replicate

/-- Every allocation succeeds, and a burst sends what it is offered. -/
def readyDriver : Driver := ⟨fun _ => some freshMbuf, fun _ => maxPktsInQueue⟩

def noSlots : Vector Ptr maxPktsInQueue := Vector.replicate _ none

/-- The counter starts at zero; nothing is known about the link. -/
def coldStart : Thread.Entry := ⟨0, false, noSlots⟩

/-- The link is reported up, and one UDP packet waits. -/
def udpTick : Thread.Tick := ⟨2000000000, true, [udpMbuf], by decide⟩

def tagRule : Text := "1,UNKNOWN:PUSH-VLAN(33024,3,1,100);OUTPUT(2);".toList

theorem tagRule_initialized : (packetManagerInitialize twoPorts (some tagRule) 0).isSome := by
  decide +kernel

/-- The core that serves the first port. -/
def tagThread : Thread := .started twoPorts (some tagRule) 0 tagRule_initialized 1 readyDriver

def tagRun : Option Unit × Lcore :=
  tagThread.runProcessing 2000000000 coldStart [udpTick] (Lcore.start fun _ => noSlots)

theorem tagThread_serves : tagThread.Serves (some tagRule) ⟨0⟩ :=
  Thread.serves_started tagRule_initialized (by decide +kernel)

theorem run_executes_tagged : tagRun.1.isSome ∧ tagRun.2.handedData
    = [(1, some (udpFrame.pushed [.pushVlan 0x64700081, .output 1]))] := by
  obtain ⟨-, hends, hhanded, -⟩ :=
    Thread.run_executes tagThread_serves 2000000000 coldStart [udpTick] (fun _ => noSlots)
      (Prod.mk.eta (p := tagRun)).symm
  refine ⟨hends.mpr ?_, hhanded.trans ?_⟩
  · decide +kernel
  · decide +kernel

end Yapas
