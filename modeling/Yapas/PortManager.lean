import Mathlib.Data.List.Nodup
import Yapas.Text

/-!
# The port manager

`PortManager::Initialize` and the tables it fills: a packet pool for
each socket in use, the ports by number, and the port each core serves.
What it asks of the machine is a parameter (`Hardware`): the ports and
cores there are, and the answers of the calls that may fail.

The search for a core moves a cursor that never goes back, so the cores
come out in ascending order and no core twice; `Assigned` is the
invariant of the loop, and `portManagerInitialize_spec` what it leaves
behind. Printing the link status of the ports has no effect and is left
out.
-/

namespace Yapas

def rteMaxLcore : Nat := 128

/-- `RTE_PKTMBUF_HEADROOM`. -/
def pktmbufHeadroom : Nat := 128

/-- `RTE_MBUF_DEFAULT_DATAROOM`. -/
def mbufDefaultDataroom : Nat := 2048

/-- `RTE_MBUF_DEFAULT_BUF_SIZE`. -/
def mbufDefaultBufSize : Nat := mbufDefaultDataroom + pktmbufHeadroom

/-- A `rte_mempool`, by the arguments it was created with. -/
structure Mempool where
  name : Text
  nbMbuf : Nat
  cacheSize : Nat
  privSize : Nat
  dataRoomSize : Nat
  socketId : Nat
  deriving DecidableEq

/-- What the machine and its drivers answer. `poolCreate` may depend on
the pools that exist already; the set-up calls return zero or an error
number. -/
structure Hardware where
  nbPorts : UInt8
  masterLcore : Nat
  lcoreIsEnabled : Nat → Bool
  lcoreToSocketId : Nat → Nat
  poolCreate : List Mempool → Mempool → Bool
  devConfigure : UInt8 → Int
  rxQueueSetup : UInt8 → Nat → Int
  txQueueSetup : UInt8 → Nat → Int
  devStart : UInt8 → Int
  lcoreIsEnabled_lt : ∀ {lcoreId}, lcoreIsEnabled lcoreId = true → lcoreId < rteMaxLcore

/-- `PortEthernet`; its counters are kept apart. -/
structure Port where
  portId : UInt8
  deriving DecidableEq

/-- `ports_map_` leads from cores to ports. -/
structure PortManager where
  mempools : List Mempool
  portsMap : List (Nat × Port)
  ports : List Port
  statsLcoreId : Nat

/-- Why the set-up failed, as it is logged; `outOfRange` is the
exception of a lookup. -/
inductive InitFailure
  | noCore
  | noMempool (socketId : Nat)
  | configure (portId : UInt8) (error : Int)
  | rxQueue (portId : UInt8) (error : Int)
  | txQueue (portId : UInt8) (error : Int)
  | start (portId : UInt8) (error : Int)
  | outOfRange
  deriving DecidableEq

/-! ## Cores -/

/-- A core that may serve a port. -/
def Hardware.IsSlave (hw : Hardware) (lcoreId : Nat) : Prop :=
  hw.lcoreIsEnabled lcoreId = true ∧ lcoreId ≠ hw.masterLcore

instance (hw : Hardware) (lcoreId : Nat) : Decidable (hw.IsSlave lcoreId) :=
  inferInstanceAs (Decidable (_ ∧ _))

theorem Hardware.IsSlave.lt {hw : Hardware} {l : Nat} (h : hw.IsSlave l) : l < rteMaxLcore :=
  hw.lcoreIsEnabled_lt h.1

/-- The search of `rte_get_next_lcore`, the master skipped and no
wrapping around. -/
def nextLcoreFrom (hw : Hardware) : Nat → Nat → Nat
  | 0, i => i
  | fuel + 1, i =>
      if i < rteMaxLcore ∧ ¬ hw.IsSlave i then nextLcoreFrom hw fuel (i + 1) else i

def getNextLcore (hw : Hardware) (i : Nat) : Nat := nextLcoreFrom hw rteMaxLcore (i + 1)

/-- The loop that looks for a core, from the cursor on. -/
def findCore (hw : Hardware) : Nat → Nat → Except InitFailure Nat
  | 0, _ => .error .noCore
  | fuel + 1, lcoreId =>
      if ¬ hw.IsSlave lcoreId then
        if rteMaxLcore ≤ getNextLcore hw lcoreId then .error .noCore
        else findCore hw fuel (getNextLcore hw lcoreId)
      else .ok lcoreId

/-! ## Set-up -/

def mempoolName : Text := "PKT_MEMPOOL".toList

def PortManager.mempool (pm : PortManager) (socketId : Nat) : Option Mempool :=
  pm.mempools.find? (·.socketId = socketId)

/-- The pool `Initialize` asks for. -/
def socketMempool (socketId : Nat) : Mempool :=
  ⟨mempoolName, 8192, 32, 0, mbufDefaultBufSize, socketId⟩

/-- Create the pool of a socket that has none. -/
def PortManager.addMempool (hw : Hardware) (pm : PortManager) (socketId : Nat) :
    Except InitFailure PortManager :=
  match pm.mempool socketId with
  | some _ => .ok pm
  | none =>
      if hw.poolCreate pm.mempools (socketMempool socketId) then
        .ok { pm with mempools := socketMempool socketId :: pm.mempools }
      else .error (.noMempool socketId)

def checkRet (ret : Int) (failure : Int → InitFailure) : Except InitFailure Unit :=
  if ret < 0 then .error (failure ret) else .ok ()

/-- `InitializePort`. -/
def initializePort (hw : Hardware) (pm : PortManager) (portId : UInt8) (socketId : Nat) :
    Except InitFailure Unit := do
  checkRet (hw.devConfigure portId) (.configure portId)
  match pm.mempool socketId with
  | none => throw .outOfRange
  | some _ =>
      checkRet (hw.rxQueueSetup portId socketId) (.rxQueue portId)
      checkRet (hw.txQueueSetup portId socketId) (.txQueue portId)
      checkRet (hw.devStart portId) (.start portId)

def PortManager.addPort (pm : PortManager) (lcoreId : Nat) (portId : UInt8) : PortManager :=
  { pm with
    ports := pm.ports ++ [⟨portId⟩]
    portsMap := pm.portsMap ++ [(lcoreId, ⟨portId⟩)] }

/-- The loop over the ports; `lcoreId` is the cursor. -/
def initializePorts (hw : Hardware) :
    List UInt8 → Nat → PortManager → Except InitFailure (PortManager × Nat)
  | [], lcoreId, pm => .ok (pm, lcoreId)
  | portId :: portIds, lcoreId, pm => do
      let lcoreId ← findCore hw (rteMaxLcore + 1) lcoreId
      let socketId := hw.lcoreToSocketId lcoreId
      let pm ← pm.addMempool hw socketId
      initializePort hw pm portId socketId
      initializePorts hw portIds (lcoreId + 1) (pm.addPort lcoreId portId)

/-- The numbers the loop counts through. -/
def Hardware.portIds (hw : Hardware) : List UInt8 := (List.range hw.nbPorts.toNat).map UInt8.ofNat

/-- A constructed port manager. -/
def PortManager.empty : PortManager := ⟨[], [], [], rteMaxLcore⟩

/-- `PortManager::Initialize`. The last core is the one before the
cursor, an `unsigned`. -/
def portManagerInitialize (hw : Hardware) : Except InitFailure PortManager := do
  let (pm, lcoreId) ← initializePorts hw hw.portIds 0 PortManager.empty
  return { pm with statsLcoreId := (lcoreId + 2 ^ 32 - 1) % 2 ^ 32 }

namespace PortManager

/-- `GetPortByCore`; `none` is the null pointer. -/
def getPortByCore (pm : PortManager) (lcoreId : Nat) : Option Port := pm.portsMap.lookup lcoreId

/-- `GetPortByIndex`. -/
def getPortByIndex (pm : PortManager) (portId : UInt8) : Option Port := pm.ports[portId.toNat]?

end PortManager

/-! ## The search -/

theorem nextLcoreFrom_spec (hw : Hardware) : ∀ (fuel i : Nat), rteMaxLcore ≤ fuel + i →
    i ≤ nextLcoreFrom hw fuel i
      ∧ (∀ j, i ≤ j → j < nextLcoreFrom hw fuel i → ¬ hw.IsSlave j)
      ∧ (nextLcoreFrom hw fuel i < rteMaxLcore → hw.IsSlave (nextLcoreFrom hw fuel i))
  | 0, i, hfuel => by
      rw [nextLcoreFrom]
      exact ⟨Nat.le_refl _, fun j hj hlt => by omega, fun hlt => by omega⟩
  | fuel + 1, i, hfuel => by
      rw [nextLcoreFrom]
      by_cases h : i < rteMaxLcore ∧ ¬ hw.IsSlave i
      · obtain ⟨hle, hbetween, hslave⟩ := nextLcoreFrom_spec hw fuel (i + 1) (by omega)
        rw [if_pos h]
        refine ⟨by omega, fun j hj hlt => ?_, hslave⟩
        by_cases hji : j = i
        · rw [hji]
          exact h.2
        · exact hbetween j (by omega) hlt
      · rw [if_neg h]
        refine ⟨Nat.le_refl _, fun j hj hlt => by omega, fun hlt => ?_⟩
        by_contra hno
        exact h ⟨hlt, hno⟩

/-- The search yields the least core from the cursor on, and fails only
when there is none. -/
theorem findCore_spec (hw : Hardware) (cursor : Nat) :
    (∃ l, findCore hw (rteMaxLcore + 1) cursor = .ok l ∧ cursor ≤ l ∧ hw.IsSlave l
        ∧ ∀ j, cursor ≤ j → j < l → ¬ hw.IsSlave j)
      ∨ (findCore hw (rteMaxLcore + 1) cursor = .error .noCore
        ∧ ∀ j, cursor ≤ j → ¬ hw.IsSlave j) := by
  rw [findCore]
  by_cases hhere : hw.IsSlave cursor
  · exact Or.inl ⟨cursor, if_neg (not_not_intro hhere), Nat.le_refl _, hhere,
      fun j hj hlt => by omega⟩
  · rw [if_pos hhere]
    obtain ⟨hle, hbetween, hslave⟩ := nextLcoreFrom_spec hw rteMaxLcore (cursor + 1) (by omega)
    have hskip : ∀ j, cursor ≤ j → j < getNextLcore hw cursor → ¬ hw.IsSlave j := by
      intro j hj hlt
      by_cases hji : j = cursor
      · rw [hji]
        exact hhere
      · exact hbetween j (by omega) hlt
    by_cases hend : rteMaxLcore ≤ getNextLcore hw cursor
    · refine Or.inr ⟨if_pos hend, fun j hj hs => ?_⟩
      have := hs.lt
      exact hskip j hj (by omega) hs
    · have hnext := hslave (Nat.lt_of_not_le hend)
      refine Or.inl ⟨getNextLcore hw cursor, ?_, Nat.le_of_succ_le hle, hnext, hskip⟩
      rw [if_neg hend]
      exact if_neg (not_not_intro hnext)

/-! ## One port after the other -/

theorem bind_eq_ok {ε α β : Type} {x : Except ε α} {f : α → Except ε β} {b : β} :
    x >>= f = .ok b ↔ ∃ a, x = .ok a ∧ f a = .ok b := by
  cases x with
  | error e =>
      constructor
      · intro h
        cases h
      · rintro ⟨a, h, -⟩
        cases h
  | ok a =>
      constructor
      · intro h
        exact ⟨a, rfl, h⟩
      · rintro ⟨a', h, hf⟩
        cases h
        exact hf

/-- A pool is there afterwards, and those before are kept. -/
theorem addMempool_spec {hw : Hardware} {pm pm' : PortManager} {socketId : Nat}
    (h : pm.addMempool hw socketId = .ok pm') :
    (∀ s, (pm.mempool s).isSome → (pm'.mempool s).isSome) ∧ (pm'.mempool socketId).isSome
      ∧ pm'.portsMap = pm.portsMap ∧ pm'.ports = pm.ports := by
  unfold PortManager.addMempool at h
  split at h
  · rename_i mp hmp
    cases h
    exact ⟨fun _ hs => hs, by rw [hmp]; rfl, rfl, rfl⟩
  · split at h
    · cases h
      refine ⟨fun s hs => ?_, ?_, rfl, rfl⟩
      · rw [PortManager.mempool, List.find?_cons]
        split
        · rfl
        · exact hs
      · rw [PortManager.mempool, List.find?_cons]
        simp [socketMempool]
    · cases h

/-- Every core serves one port, in ascending order and below the
cursor, and its socket has a pool. -/
structure Assigned (hw : Hardware) (pm : PortManager) (cursor : Nat) : Prop where
  ports_eq : pm.portsMap.map Prod.snd = pm.ports
  ascending : pm.portsMap.Pairwise fun e e' => e.1 < e'.1
  below : ∀ e ∈ pm.portsMap, e.1 < cursor
  slave : ∀ e ∈ pm.portsMap, hw.IsSlave e.1
  pool : ∀ e ∈ pm.portsMap, (pm.mempool (hw.lcoreToSocketId e.1)).isSome

theorem assigned_empty (hw : Hardware) : Assigned hw PortManager.empty 0 := by
  constructor
  · rfl
  · exact List.Pairwise.nil
  · simp [PortManager.empty]
  · simp [PortManager.empty]
  · simp [PortManager.empty]

theorem Assigned.addPort {hw : Hardware} {pm pm' : PortManager} {cursor l : Nat} {p : UInt8}
    (h : Assigned hw pm cursor) (hl : cursor ≤ l) (hslave : hw.IsSlave l)
    (hpool : pm.addMempool hw (hw.lcoreToSocketId l) = .ok pm') :
    Assigned hw (pm'.addPort l p) (l + 1) := by
  obtain ⟨hkeep, hnew, hmap, hports⟩ := addMempool_spec hpool
  have hbelow : ∀ e ∈ pm.portsMap, e.1 < l := fun e he => Nat.lt_of_lt_of_le (h.below e he) hl
  constructor
  · simp [PortManager.addPort, hmap, hports, h.ports_eq]
  · rw [PortManager.addPort, hmap]
    refine List.pairwise_append.mpr ⟨h.ascending, List.pairwise_singleton _ _, ?_⟩
    intro e he e' he'
    rw [List.mem_singleton.mp he']
    exact hbelow e he
  · intro e he
    rw [PortManager.addPort, hmap] at he
    rcases List.mem_append.mp he with he | he
    · exact Nat.lt_succ_of_lt (hbelow e he)
    · rw [List.mem_singleton.mp he]
      exact Nat.lt_succ_self l
  · intro e he
    rw [PortManager.addPort, hmap] at he
    rcases List.mem_append.mp he with he | he
    · exact h.slave e he
    · rw [List.mem_singleton.mp he]
      exact hslave
  · intro e he
    rw [PortManager.addPort, hmap] at he
    rcases List.mem_append.mp he with he | he
    · exact hkeep _ (h.pool e he)
    · rw [List.mem_singleton.mp he]
      exact hnew

theorem initializePorts_spec {hw : Hardware} : ∀ {portIds : List UInt8} {cursor cursor' : Nat}
    {pm pm' : PortManager}, Assigned hw pm cursor →
    initializePorts hw portIds cursor pm = .ok (pm', cursor') →
    Assigned hw pm' cursor' ∧ pm'.ports = pm.ports ++ portIds.map Port.mk
  | [], _, _, _, _, hpm, h => by
      cases h
      exact ⟨hpm, by simp⟩
  | p :: portIds, cursor, cursor', pm, pm', hpm, h => by
      rw [initializePorts, bind_eq_ok] at h
      obtain ⟨l, hcore, h⟩ := h
      obtain ⟨pm₁, hpool, h⟩ := bind_eq_ok.mp h
      obtain ⟨-, -, h⟩ := bind_eq_ok.mp h
      rcases findCore_spec hw cursor with ⟨l', hl', hle, hslave, -⟩ | ⟨hnone, -⟩
      · obtain rfl := Except.ok.inj (hcore.symm.trans hl')
        obtain ⟨hassigned, hports⟩ := initializePorts_spec (hpm.addPort hle hslave hpool) h
        refine ⟨hassigned, hports.trans ?_⟩
        simp [PortManager.addPort, (addMempool_spec hpool).2.2.2]
      · rw [hnone] at hcore
        cases hcore

/-! ## The tables -/

theorem portManagerInitialize_spec {hw : Hardware} {pm : PortManager}
    (h : portManagerInitialize hw = .ok pm) :
    (∃ cursor, Assigned hw pm cursor) ∧ pm.ports = hw.portIds.map Port.mk := by
  obtain ⟨⟨pm', cursor⟩, hloop, h⟩ := bind_eq_ok.mp h
  obtain rfl := Except.ok.inj h
  obtain ⟨⟨hports, hasc, hbelow, hslave, hpool⟩, heq⟩ :=
    initializePorts_spec (assigned_empty hw) hloop
  refine ⟨⟨cursor, hports, hasc, hbelow, hslave, fun e he => ?_⟩, heq⟩
  rw [PortManager.mempool]
  exact hpool e he

theorem Hardware.mem_portIds {hw : Hardware} {p : UInt8} :
    p ∈ hw.portIds ↔ p.toNat < hw.nbPorts.toNat := by
  rw [Hardware.portIds, List.mem_map]
  constructor
  · rintro ⟨n, hn, rfl⟩
    rw [UInt8.toNat_ofNat']
    exact (Nat.mod_le n _).trans_lt (List.mem_range.mp hn)
  · exact fun hp => ⟨p.toNat, List.mem_range.mpr hp, UInt8.ofNat_toNat⟩

theorem getPortByIndex_eq {hw : Hardware} {pm : PortManager}
    (h : portManagerInitialize hw = .ok pm) (p : UInt8) :
    pm.getPortByIndex p = if p.toNat < hw.nbPorts.toNat then some ⟨p⟩ else none := by
  rw [PortManager.getPortByIndex, (portManagerInitialize_spec h).2, Hardware.portIds]
  by_cases hp : p.toNat < hw.nbPorts.toNat
  · simp [hp]
  · simp [hp]

theorem mem_of_getPortByCore {pm : PortManager} {l : Nat} {port : Port}
    (h : pm.getPortByCore l = some port) : (l, port) ∈ pm.portsMap := by
  obtain ⟨before, after, heq, -⟩ := List.lookup_eq_some_iff.mp h
  rw [heq]
  simp

theorem getPortByCore_lt {hw : Hardware} {pm : PortManager} {l : Nat} {port : Port}
    (h : portManagerInitialize hw = .ok pm) (hl : pm.getPortByCore l = some port) :
    port.portId.toNat < hw.nbPorts.toNat := by
  obtain ⟨⟨_, hassigned⟩, hports⟩ := portManagerInitialize_spec h
  have hmem : port ∈ pm.ports := by
    rw [← hassigned.ports_eq]
    exact List.mem_map_of_mem (mem_of_getPortByCore hl)
  rw [hports] at hmem
  obtain ⟨p, hp, rfl⟩ := List.mem_map.mp hmem
  exact Hardware.mem_portIds.mp hp

theorem getPortByCore_isSlave {hw : Hardware} {pm : PortManager} {l : Nat} {port : Port}
    (h : portManagerInitialize hw = .ok pm) (hl : pm.getPortByCore l = some port) :
    hw.IsSlave l := by
  obtain ⟨⟨_, hassigned⟩, -⟩ := portManagerInitialize_spec h
  exact hassigned.slave _ (mem_of_getPortByCore hl)

/-- A port is served by one core only. -/
theorem getPortByCore_injective {hw : Hardware} {pm : PortManager} {l l' : Nat} {port : Port}
    (h : portManagerInitialize hw = .ok pm) (hl : pm.getPortByCore l = some port)
    (hl' : pm.getPortByCore l' = some port) : l = l' := by
  obtain ⟨⟨_, hassigned⟩, hports⟩ := portManagerInitialize_spec h
  have hnodup : (pm.portsMap.map Prod.snd).Nodup := by
    rw [hassigned.ports_eq, hports, Hardware.portIds, List.map_map]
    refine List.Nodup.map_on ?_ List.nodup_range
    intro i hi j hj hij
    have := hw.nbPorts.toNat_lt
    rw [List.mem_range] at hi hj
    have hnat := congrArg UInt8.toNat (Port.mk.inj hij)
    rwa [UInt8.toNat_ofNat', UInt8.toNat_ofNat', Nat.mod_eq_of_lt (by omega),
      Nat.mod_eq_of_lt (by omega)] at hnat
  have heq := List.inj_on_of_nodup_map hnodup (mem_of_getPortByCore hl)
    (mem_of_getPortByCore hl') rfl
  exact (Prod.mk.inj heq).1

/-- Every port is served by some core. -/
theorem exists_getPortByCore {hw : Hardware} {pm : PortManager} {p : UInt8}
    (h : portManagerInitialize hw = .ok pm) (hp : p.toNat < hw.nbPorts.toNat) :
    ∃ l, pm.getPortByCore l = some ⟨p⟩ := by
  obtain ⟨⟨_, hassigned⟩, hports⟩ := portManagerInitialize_spec h
  have hmem : (⟨p⟩ : Port) ∈ pm.portsMap.map Prod.snd := by
    rw [hassigned.ports_eq, hports]
    refine List.mem_map_of_mem (List.mem_map.mpr ⟨p.toNat, List.mem_range.mpr hp, ?_⟩)
    rw [UInt8.ofNat_toNat]
  obtain ⟨⟨l, port⟩, hl, rfl⟩ := List.mem_map.mp hmem
  obtain ⟨before, after, hmap⟩ := List.append_of_mem hl
  refine ⟨l, List.lookup_eq_some_iff.mpr ⟨before, after, hmap, fun e he => ?_⟩⟩
  -- an earlier entry has a smaller core
  have hasc := hassigned.ascending
  rw [hmap, List.pairwise_append] at hasc
  have hlt := hasc.2.2 e he _ List.mem_cons_self
  simpa using (Nat.ne_of_gt hlt)

theorem mempool_isSome {hw : Hardware} {pm : PortManager} {l : Nat} {port : Port}
    (h : portManagerInitialize hw = .ok pm) (hl : pm.getPortByCore l = some port) :
    (pm.mempool (hw.lcoreToSocketId l)).isSome := by
  obtain ⟨⟨_, hassigned⟩, -⟩ := portManagerInitialize_spec h
  exact hassigned.pool _ (mem_of_getPortByCore hl)

end Yapas
