import Mathlib.Logic.Function.Basic
import Yapas.Detectors
import Yapas.Lookup
import Yapas.PortManager
import Yapas.PortQueue
import Yapas.Proc
import Yapas.Push

/-!
# The packet manager

`PacketManager` as the core `lcoreId` runs it: `Initialize`, the loop of
`RunProcessing`, and `ProcessPackets` with the functions it calls. A
core owns one row of the table of transmit queues and writes no other,
so the state of one core (`Lcore`) is its row and a log of what it did:
packets received, buffers taken from the pool and given back, slots
written, bursts offered to the driver.

Buffers have names that are never used again: `rx n` is the `n`-th
packet the core received, `copy n` the buffer of its `n`-th call of
`rte_pktmbuf_alloc`. What the pool and the driver answer is the
parameter `Driver`. A procedure stops where the source would read
outside a buffer, go through a null pointer, or throw.
-/

namespace Yapas

/-! ## State -/

inductive BufId
  | rx (n : Nat)
  | copy (n : Nat)
  deriving DecidableEq

/-- A `rte_mbuf` in use. -/
structure Packet where
  id : BufId
  buf : Mbuf
  deriving DecidableEq

/-- `rte_mbuf *`; `none` is the null pointer. -/
abbrev Ptr := Option Packet

/-- A buffer as `rte_pktmbuf_alloc` returns it, empty and reset. -/
structure FreshMbuf where
  buf : Mbuf
  pktLen_eq : buf.pktLen = 0
  length_headroom : buf.headroom.length = pktmbufHeadroom
  length_room : buf.room.length = mbufDefaultDataroom

/-- The answers a core gets: to its `n`-th allocation, and how many
packets its `n`-th burst may send. -/
structure Driver where
  alloc : Nat → Option FreshMbuf
  tx : Nat → Nat

/-- What a core does to the world. A burst goes to hardware queue 0 of
the port. -/
inductive Event
  | rxBurst (portId : UInt8) (ms : List Packet)
  | stats (portId : UInt8) (protocol : Protocol) (lcoreId : Nat)
  | alloc (id : BufId)
  | copied (id : BufId)
  | free (id : BufId)
  | tx (portId : UInt8) (e : TxEvent Ptr)
  | link (portId : UInt8) (linkStatus : Bool)
  | printStats (lcoreId : Nat)

/-- The state of a core: its row of `port_tx_table_`, the number of
allocations, bursts and packets received so far, and its log. -/
structure Lcore where
  queues : UInt8 → PortQueue Ptr
  allocs : Nat
  bursts : Nat
  received : Nat
  trace : List Event

/-- A row of constructed queues, nothing done yet. -/
def Lcore.start (slots : UInt8 → Vector Ptr maxPktsInQueue) : Lcore where
  queues portId := PortQueue.empty (slots portId)
  allocs := 0
  bursts := 0
  received := 0
  trace := []

structure PacketManager where
  rules : Rules
  statsInterval : UInt16
  portManager : PortManager

/-- `PacketManager::Initialize`. -/
def packetManagerInitialize (hw : Hardware) (file : Option Text) (statsInterval : UInt16) :
    Option PacketManager :=
  match configInitialize hw.nbPorts file with
  | none => none
  | some rules =>
      match portManagerInitialize hw with
      | .error _ => none
      | .ok portManager => some ⟨rules, statsInterval, portManager⟩

theorem packetManagerInitialize_spec {hw : Hardware} {file : Option Text} {statsInterval : UInt16}
    {manager : PacketManager} (h : packetManagerInitialize hw file statsInterval = some manager) :
    configInitialize hw.nbPorts file = some manager.rules
      ∧ manager.statsInterval = statsInterval
      ∧ portManagerInitialize hw = .ok manager.portManager := by
  unfold packetManagerInitialize at h
  split at h
  · cases h
  · rename_i rules hrules
    split at h
    · cases h
    · rename_i pm hpm
      obtain rfl := Option.some.inj h
      exact ⟨hrules, rfl, hpm⟩

/-- A core that runs the packet manager. -/
structure Thread where
  hw : Hardware
  manager : PacketManager
  lcoreId : Nat
  driver : Driver

namespace Thread

/-- The core `lcoreId` of a machine on which the manager came up. -/
def started (hw : Hardware) (file : Option Text) (statsInterval : UInt16)
    (h : (packetManagerInitialize hw file statsInterval).isSome) (lcoreId : Nat)
    (driver : Driver) : Thread :=
  ⟨hw, (packetManagerInitialize hw file statsInterval).get h, lcoreId, driver⟩

variable (t : Thread)

def getPortByIndex (portId : UInt8) : Proc Lcore Port :=
  Proc.ofOption (t.manager.portManager.getPortByIndex portId)

def emit (e : Event) : Proc Lcore Unit :=
  Proc.modify fun s => { s with trace := s.trace ++ [e] }

/-! ## Packets -/

/-- `rte_pktmbuf_alloc`. -/
def pktmbufAlloc : Proc Lcore Ptr := do
  let s ← Proc.get
  Proc.modify fun s => { s with allocs := s.allocs + 1 }
  match t.driver.alloc s.allocs with
  | none => return none
  | some m =>
      emit (.alloc (.copy s.allocs))
      return some ⟨.copy s.allocs, m.buf⟩

/-- `rte_pktmbuf_free`. -/
def pktmbufFree (m : Packet) : Proc Lcore Unit := emit (.free m.id)

/-- `CopyMbuf`. -/
def copyMbuf (src : Mbuf) : Proc Lcore Ptr := do
  let socketId := t.hw.lcoreToSocketId t.lcoreId
  let _ ← Proc.ofOption (t.manager.portManager.mempool socketId)
  match ← t.pktmbufAlloc with
  | none => return none
  | some m =>
      match m.buf.append src.pktLen with
      | none =>
          pktmbufFree m
          return none
      | some buf =>
          emit (.copied m.id)
          return some { m with buf := buf.overwrite 0 src.data }

/-- A call on the queue for `portId` of the core's own row, made on the
port object `port`. -/
def onQueue (port : Port) (portId : UInt8)
    (call : Nat → PortQueue Ptr → Option (Sent Ptr)) : Proc Lcore Unit := do
  let s ← Proc.get
  let r ← Proc.ofOption (call s.bursts (s.queues portId))
  Proc.modify fun s =>
    { s with
      queues := Function.update s.queues portId r.queue
      bursts := r.bursts
      trace := s.trace ++ r.events.map (.tx port.portId) }

/-- `ExecuteOutput`. -/
def executeOutput (m : Ptr) (portId : UInt8) : Proc Lcore Unit := do
  let port ← t.getPortByIndex portId
  onQueue port portId fun bursts q => sendOnePacket t.driver.tx bursts q m

/-- The body of the loop over the actions; the packet as it is
afterwards. -/
def executeAction (m : Mbuf) : Action → Proc Lcore Mbuf
  | .drop => return m
  | .pushVlan vlanTag => return executePushVlan m vlanTag
  | .pushMpls mplsLabel => return executePushMpls m mplsLabel
  | .output portId => do
      let copy ← t.copyMbuf m
      t.executeOutput copy portId
      return m

/-- `UpdateProtocolStats`; UNKNOWN has no counter. -/
def updateProtocolStats (port : Port) (protocol : Protocol) : Proc Lcore Unit :=
  match protocol with
  | .unknown => return ()
  | protocol => emit (.stats port.portId protocol t.lcoreId)

/-- The body of the loop of `ProcessPackets`. -/
def processPacket (portId : UInt8) (m : Ptr) : Proc Lcore Unit := do
  let m ← Proc.ofOption m
  let (prepared, buf) ← Proc.ofOption m.buf.prepare
  if prepared then
    let protocol ← Proc.ofOption buf.analyze
    let port ← t.getPortByIndex portId
    t.updateProtocolStats port protocol
    match getActions t.manager.rules (ruleKey portId protocol) with
    | none => return ()  -- `continue`, past the release below
    | some actions =>
        let _ ← actions.foldlM t.executeAction buf
        pktmbufFree m
  else
    pktmbufFree m

/-- `ProcessPackets`; the receive queue is returned empty. -/
def processPackets (queue : PortQueue Ptr) (portId : UInt8) : Proc Lcore (PortQueue Ptr) := do
  queue.queued.foldlM (fun _ m => t.processPacket portId m) ()
  return queue.clear

/-! ## The loop -/

/-- What an iteration of the loop meets: the time stamp counter, the
link status the port would report, and the frames waiting at it. -/
structure Tick where
  curTsc : UInt64
  linkStatus : Bool
  frames : List Mbuf
  frames_le : frames.length ≤ maxPktsInQueue

/-- The names of received packets, from number `n` on. -/
def numbered (n : Nat) (frames : List Mbuf) : List Packet :=
  (frames.zipIdx n).map fun (buf, i) => ⟨.rx i, buf⟩

@[simp] theorem length_numbered (n : Nat) (frames : List Mbuf) :
    (numbered n frames).length = frames.length := by
  simp [numbered]

/-- `ReceivePackets`. -/
def receivePackets (port : Port) (queue : PortQueue Ptr) (tick : Tick) :
    Proc Lcore (PortQueue Ptr) := do
  let s ← Proc.get
  let ms := numbered s.received tick.frames
  Proc.modify fun s => { s with received := s.received + ms.length }
  emit (.rxBurst port.portId ms)
  return queue.fill (ms.map some) (by simp [ms, tick.frames_le])

/-- The local variables of `RunProcessing`. -/
structure Locals where
  prevTsc : UInt64
  timerTsc : UInt64
  timerStatsTsc : UInt64
  linkStatus : Bool
  rxQueue : PortQueue Ptr

/-- `kTIMER_MILLISECOND`. -/
def timerMillisecond : UInt64 := 2000000

def timerPeriod : UInt64 := timerMillisecond * 100

/-- `drain_tsc`, every 100 microseconds. -/
def drainTsc (tscHz : UInt64) : UInt64 := (tscHz + 1000000 - 1) / 1000000 * 100

def statsIntervalTsc : UInt64 := t.manager.statsInterval.toUInt64 * 1000 * timerMillisecond

/-- The flush of the transmit queues. -/
def flush : Proc Lcore Unit :=
  t.hw.portIds.foldlM (fun _ i => do
    let port ← t.getPortByIndex i
    onQueue port i (sendAllPackets t.driver.tx)) ()

/-- The update of the port's link status. -/
def linkTimer (port : Port) (l : Locals) (tick : Tick) (diffTsc : UInt64) : Proc Lcore Locals :=
  if timerPeriod ≤ l.timerTsc + diffTsc then do
    emit (.link port.portId tick.linkStatus)
    return { l with linkStatus := tick.linkStatus, timerTsc := 0 }
  else return { l with timerTsc := l.timerTsc + diffTsc }

/-- The printing of the statistics, on one core only. -/
def statsTimer (l : Locals) (diffTsc : UInt64) : Proc Lcore Locals :=
  if 0 < t.statsIntervalTsc ∧ t.lcoreId = t.manager.portManager.statsLcoreId then
    if t.statsIntervalTsc < l.timerStatsTsc + diffTsc then do
      emit (.printStats t.lcoreId)
      return { l with timerStatsTsc := 0 }
    else return { l with timerStatsTsc := l.timerStatsTsc + diffTsc }
  else return l

/-- The part of the loop that is due every `drain_tsc`. -/
def drain (tscHz : UInt64) (port : Port) (l : Locals) (tick : Tick) : Proc Lcore Locals :=
  let diffTsc := tick.curTsc - l.prevTsc
  if drainTsc tscHz ≤ diffTsc then do
    t.flush
    let l ← linkTimer port { l with prevTsc := tick.curTsc } tick diffTsc
    t.statsTimer l diffTsc
  else return l

/-- The part that reads the port. -/
def poll (port : Port) (l : Locals) (tick : Tick) : Proc Lcore Locals :=
  if l.linkStatus then do
    let rxQueue ← receivePackets port l.rxQueue tick
    let rxQueue ← t.processPackets rxQueue port.portId
    return { l with rxQueue }
  else return l

/-- One iteration of the loop of `RunProcessing`. -/
def iteration (tscHz : UInt64) (port : Port) (l : Locals) (tick : Tick) : Proc Lcore Locals := do
  let l ← t.drain tscHz port l tick
  t.poll port l tick

/-- What the local variables hold at the start: the counter's value,
and whatever was on the stack. -/
structure Entry where
  prevTsc : UInt64
  linkStatus : Bool
  rxSlots : Vector Ptr maxPktsInQueue

def Entry.locals (e : Entry) : Locals :=
  ⟨e.prevTsc, 0, 0, e.linkStatus, PortQueue.empty e.rxSlots⟩

/-- `RunProcessing`, for as many iterations as there are ticks before
`terminated` is set. -/
def runProcessing (tscHz : UInt64) (entry : Entry) (ticks : List Tick) : Proc Lcore Unit :=
  match t.manager.portManager.getPortByCore t.lcoreId with
  | none => return ()
  | some port => do
      let _ ← ticks.foldlM (t.iteration tscHz port) entry.locals
      return ()

end Thread

end Yapas
