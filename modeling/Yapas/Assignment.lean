import Yapas.PortManager

/-!
# Which core serves which port

The search of `PortManager::Initialize` is greedy: port by port it takes
the least core that is left. So the cores it assigns are the first ones
of `Hardware.slaves`, in order, and the search runs dry exactly when
that list is shorter than the list of the ports.

All packet pools are asked for under one name. Where the driver wants
the names of the pools distinct, a second pool cannot be had, and the
set-up succeeds only if the cores in use are all on one socket.
-/

namespace Yapas

/-- The cores from the cursor on that may serve a port. -/
def Hardware.slavesFrom (hw : Hardware) (cursor : Nat) : List Nat :=
  (List.range' cursor (rteMaxLcore - cursor)).filter fun l => hw.IsSlave l

def Hardware.slaves (hw : Hardware) : List Nat := hw.slavesFrom 0

/-- The first cores, one for each port. -/
def Hardware.portCores (hw : Hardware) : List Nat := hw.slaves.take hw.nbPorts.toNat

/-! ## The cores that are left -/

theorem mem_slavesFrom {hw : Hardware} {cursor l : Nat} :
    l ∈ hw.slavesFrom cursor ↔ cursor ≤ l ∧ hw.IsSlave l := by
  rw [Hardware.slavesFrom, List.mem_filter, List.mem_range'_1, decide_eq_true_eq]
  constructor
  · rintro ⟨⟨hle, -⟩, hslave⟩
    exact ⟨hle, hslave⟩
  · rintro ⟨hle, hslave⟩
    have := hslave.lt
    exact ⟨⟨hle, by omega⟩, hslave⟩

theorem slavesFrom_of_none {hw : Hardware} {cursor : Nat}
    (hnone : ∀ j, cursor ≤ j → ¬ hw.IsSlave j) : hw.slavesFrom cursor = [] := by
  refine List.eq_nil_iff_forall_not_mem.mpr fun l hl => ?_
  obtain ⟨hle, hslave⟩ := mem_slavesFrom.mp hl
  exact hnone l hle hslave

theorem slavesFrom_of_least {hw : Hardware} {cursor l : Nat} (hle : cursor ≤ l)
    (hslave : hw.IsSlave l) (hskip : ∀ j, cursor ≤ j → j < l → ¬ hw.IsSlave j) :
    hw.slavesFrom cursor = l :: hw.slavesFrom (l + 1) := by
  have hlt := hslave.lt
  obtain ⟨d, rfl⟩ := Nat.exists_eq_add_of_le hle
  have hlen : rteMaxLcore - cursor = d + (rteMaxLcore - (cursor + d + 1) + 1) := by omega
  have hfront : (List.range' cursor d).filter (fun j => hw.IsSlave j) = [] := by
    refine List.filter_eq_nil_iff.mpr fun j hj => ?_
    obtain ⟨hj, hjd⟩ := List.mem_range'_1.mp hj
    rw [decide_eq_true_eq]
    exact hskip j hj hjd
  rw [Hardware.slavesFrom, hlen, ← List.range'_append_1, List.range'_succ, List.filter_append,
    hfront, List.nil_append, List.filter_cons_of_pos (by simpa using hslave)]
  rfl

/-- The search takes the first of the cores left, and leaves the rest. -/
theorem findCore_eq (hw : Hardware) (cursor : Nat) :
    (∃ l, findCore hw (rteMaxLcore + 1) cursor = .ok l
        ∧ hw.slavesFrom cursor = l :: hw.slavesFrom (l + 1))
      ∨ (findCore hw (rteMaxLcore + 1) cursor = .error .noCore ∧ hw.slavesFrom cursor = []) := by
  rcases findCore_spec hw cursor with ⟨l, hfind, hle, hslave, hskip⟩ | ⟨hfind, hnone⟩
  · exact Or.inl ⟨l, hfind, slavesFrom_of_least hle hslave hskip⟩
  · exact Or.inr ⟨hfind, slavesFrom_of_none hnone⟩

/-! ## One core for each port -/

/-- A loop that comes to its end has taken one core for each port, in
order; the last one is right before the cursor. -/
theorem initializePorts_cores {hw : Hardware} : ∀ {portIds : List UInt8} {cursor cursor' : Nat}
    {pm pm' : PortManager}, initializePorts hw portIds cursor pm = .ok (pm', cursor') →
    ∃ ls, hw.slavesFrom cursor = ls ++ hw.slavesFrom cursor' ∧ ls.length = portIds.length
      ∧ pm'.portsMap = pm.portsMap ++ ls.zip (portIds.map Port.mk)
      ∧ (portIds ≠ [] → ∃ l ∈ ls, cursor' = l + 1)
  | [], _, _, _, _, h => by
      cases h
      exact ⟨[], rfl, rfl, by simp, fun hne => absurd rfl hne⟩
  | p :: portIds, cursor, cursor', pm, pm', h => by
      rw [initializePorts, bind_eq_ok] at h
      obtain ⟨l, hcore, h⟩ := h
      obtain ⟨pm₁, hpool, h⟩ := bind_eq_ok.mp h
      obtain ⟨-, -, h⟩ := bind_eq_ok.mp h
      rcases findCore_eq hw cursor with ⟨l', hl', hleft⟩ | ⟨hnone, -⟩
      · obtain rfl := Except.ok.inj (hcore.symm.trans hl')
        obtain ⟨ls, hls, hlen, hmap, hlast⟩ := initializePorts_cores h
        refine ⟨l :: ls, by rw [hleft, hls, List.cons_append], congrArg (· + 1) hlen, ?_,
          fun _ => ?_⟩
        · rw [hmap, PortManager.addPort, (addMempool_spec hpool).2.2.1]
          simp
        · cases portIds with
          | nil =>
              cases h
              exact ⟨l, List.mem_cons_self, rfl⟩
          | cons p' portIds =>
              obtain ⟨l', hl', hcursor⟩ := hlast (List.cons_ne_nil _ _)
              exact ⟨l', List.mem_cons_of_mem _ hl', hcursor⟩
      · rw [hnone] at hcore
        cases hcore

theorem length_portIds (hw : Hardware) : hw.portIds.length = hw.nbPorts.toNat := by
  simp [Hardware.portIds]

/-- The ports map pairs the first cores with the ports. -/
theorem portsMap_eq {hw : Hardware} {pm : PortManager} (h : portManagerInitialize hw = .ok pm) :
    pm.portsMap = hw.portCores.zip (hw.portIds.map Port.mk)
      ∧ hw.portCores.length = hw.nbPorts.toNat := by
  obtain ⟨⟨pm', cursor⟩, hloop, h⟩ := bind_eq_ok.mp h
  obtain rfl := Except.ok.inj h
  obtain ⟨ls, hls, hlen, hmap, -⟩ := initializePorts_cores hloop
  rw [length_portIds] at hlen
  have hcores : hw.portCores = ls := by
    rw [Hardware.portCores, Hardware.slaves, hls, ← hlen, List.take_left]
  rw [hcores]
  exact ⟨hmap, hlen⟩

theorem mem_portCores_iff {hw : Hardware} {pm : PortManager}
    (h : portManagerInitialize hw = .ok pm) {l : Nat} :
    l ∈ hw.portCores ↔ ∃ port, pm.getPortByCore l = some port := by
  obtain ⟨hmap, hlen⟩ := portsMap_eq h
  have hcores : pm.portsMap.map Prod.fst = hw.portCores := by
    rw [hmap]
    exact List.map_fst_zip (by rw [hlen, List.length_map, length_portIds])
  constructor
  · intro hl
    rw [← hcores] at hl
    obtain ⟨⟨l', port⟩, hmem, rfl⟩ := List.mem_map.mp hl
    cases hlook : pm.getPortByCore l' with
    | some port' => exact ⟨port', rfl⟩
    | none =>
        have := List.lookup_eq_none_iff.mp hlook _ hmem
        simp at this
  · rintro ⟨port, hport⟩
    rw [← hcores]
    exact List.mem_map_of_mem (mem_of_getPortByCore hport)

/-- The core for the statistics is the last one that was assigned. -/
theorem statsLcoreId_mem {hw : Hardware} {pm : PortManager}
    (h : portManagerInitialize hw = .ok pm) (hpos : 0 < hw.nbPorts.toNat) :
    pm.statsLcoreId ∈ hw.portCores := by
  have hcores := mem_portCores_iff h (l := pm.statsLcoreId)
  obtain ⟨⟨pm', cursor⟩, hloop, hok⟩ := bind_eq_ok.mp h
  obtain ⟨ls, hls, hlen, -, hlast⟩ := initializePorts_cores hloop
  rw [length_portIds] at hlen
  obtain ⟨l, hl, rfl⟩ := hlast (by rw [← List.length_pos_iff, length_portIds]; exact hpos)
  have hmem : l ∈ hw.slavesFrom 0 := by
    rw [hls]
    exact List.mem_append_left _ hl
  have hlt := (mem_slavesFrom.mp hmem).2.lt
  have hstats : pm.statsLcoreId = l := by
    obtain rfl := Except.ok.inj hok
    show (l + 1 + 2 ^ 32 - 1) % 2 ^ 32 = l
    rw [rteMaxLcore] at hlt
    omega
  rw [hstats, Hardware.portCores, Hardware.slaves, hls, ← hlen, List.take_left]
  exact hl

theorem portCores_pairwise (hw : Hardware) : hw.portCores.Pairwise (· < ·) := by
  have hrange : (List.range' 0 rteMaxLcore).Pairwise (· < ·) := List.pairwise_lt_range'
  have hslaves : hw.slaves.Pairwise (· < ·) :=
    hrange.filter fun l => hw.IsSlave l
  exact hslaves.sublist (List.take_sublist _ _)

theorem portCores_getElem? {hw : Hardware} {pm : PortManager}
    (h : portManagerInitialize hw = .ok pm) {l : Nat} {port : Port}
    (hl : pm.getPortByCore l = some port) : hw.portCores[port.portId.toNat]? = some l := by
  have hmem := mem_of_getPortByCore hl
  rw [(portsMap_eq h).1, List.mem_iff_getElem?] at hmem
  obtain ⟨i, hi⟩ := hmem
  obtain ⟨hcore, hport⟩ := List.getElem?_zip_eq_some.mp hi
  rw [Hardware.portIds, List.map_map, List.getElem?_map] at hport
  obtain ⟨j, hj, rfl⟩ := Option.map_eq_some_iff.mp hport
  obtain ⟨hlt, rfl⟩ := List.getElem?_eq_some_iff.mp hj
  rw [List.getElem_range] at hcore ⊢
  rw [List.length_range] at hlt
  have := hw.nbPorts.toNat_lt
  show hw.portCores[(UInt8.ofNat i).toNat]? = some l
  rw [UInt8.toNat_ofNat', Nat.mod_eq_of_lt (by omega)]
  exact hcore

/-- The cores ascend with the ports. -/
theorem portId_lt_iff {hw : Hardware} {pm : PortManager} (h : portManagerInitialize hw = .ok pm)
    {l l' : Nat} {port port' : Port} (hl : pm.getPortByCore l = some port)
    (hl' : pm.getPortByCore l' = some port') : port.portId < port'.portId ↔ l < l' := by
  obtain ⟨hi, rfl⟩ := List.getElem?_eq_some_iff.mp (portCores_getElem? h hl)
  obtain ⟨hi', rfl⟩ := List.getElem?_eq_some_iff.mp (portCores_getElem? h hl')
  have hasc := List.pairwise_iff_getElem.mp (portCores_pairwise hw)
  rw [UInt8.lt_iff_toNat_lt]
  rcases Nat.lt_trichotomy port.portId.toNat port'.portId.toNat with hlt | heq | hgt
  · exact iff_of_true hlt (hasc _ _ hi hi' hlt)
  · refine iff_of_false (by omega) ?_
    simp only [heq]
    exact Nat.lt_irrefl _
  · exact iff_of_false (by omega) (Nat.lt_asymm (hasc _ _ hi' hi hgt))

/-! ## Failures -/

theorem checkRet_eq_ok {ret : Int} {failure : Int → InitFailure} (h : 0 ≤ ret) :
    checkRet ret failure = .ok () := if_neg (by omega)

/-- The calls that set a device up succeed. -/
structure Hardware.DevicesStart (hw : Hardware) : Prop where
  configure : ∀ p, 0 ≤ hw.devConfigure p
  rxQueue : ∀ p s, 0 ≤ hw.rxQueueSetup p s
  txQueue : ∀ p s, 0 ≤ hw.txQueueSetup p s
  start : ∀ p, 0 ≤ hw.devStart p

theorem initializePort_eq_ok {hw : Hardware} (hdev : hw.DevicesStart) {pm : PortManager}
    (p : UInt8) {s : Nat} (hs : (pm.mempool s).isSome) : initializePort hw pm p s = .ok () := by
  obtain ⟨mp, hmp⟩ := Option.isSome_iff_exists.mp hs
  unfold initializePort
  rw [checkRet_eq_ok (hdev.configure p), hmp]
  show (checkRet _ _ >>= fun _ => _) = _
  rw [checkRet_eq_ok (hdev.rxQueue p s)]
  show (checkRet _ _ >>= fun _ => _) = _
  rw [checkRet_eq_ok (hdev.txQueue p s)]
  exact checkRet_eq_ok (hdev.start p)

theorem addMempool_eq_ok {hw : Hardware} (hpools : ∀ mps mp, hw.poolCreate mps mp = true)
    (pm : PortManager) (s : Nat) : ∃ pm', pm.addMempool hw s = .ok pm' := by
  unfold PortManager.addMempool
  split
  · exact ⟨pm, rfl⟩
  · rw [hpools]
    exact ⟨_, rfl⟩

theorem bind_eq_error {ε α β : Type} {x : Except ε α} {f : α → Except ε β} {e : ε} :
    x >>= f = .error e ↔ x = .error e ∨ ∃ a, x = .ok a ∧ f a = .error e := by
  cases x with
  | error e' =>
      constructor
      · intro h
        cases h
        exact Or.inl rfl
      · rintro (h | ⟨a, h, -⟩)
        · cases h
          rfl
        · cases h
  | ok a =>
      constructor
      · intro h
        exact Or.inr ⟨a, rfl, h⟩
      · rintro (h | ⟨a', h, hf⟩)
        · cases h
        · cases h
          exact hf

theorem eq_of_checkRet {ret : Int} {failure : Int → InitFailure} {e : InitFailure}
    (h : checkRet ret failure = .error e) : e = failure ret := by
  unfold checkRet at h
  split at h
  · cases h
    rfl
  · cases h

theorem initializePort_lookup {hw : Hardware} {pm : PortManager} {p : UInt8} {s : Nat}
    (hs : (pm.mempool s).isSome) : initializePort hw pm p s ≠ .error .outOfRange := by
  intro h
  obtain ⟨mp, hmp⟩ := Option.isSome_iff_exists.mp hs
  unfold initializePort at h
  rcases bind_eq_error.mp h with h | ⟨-, -, h⟩
  · cases eq_of_checkRet h
  · rw [hmp] at h
    rcases bind_eq_error.mp h with h | ⟨-, -, h⟩
    · cases eq_of_checkRet h
    · rcases bind_eq_error.mp h with h | ⟨-, -, h⟩
      · cases eq_of_checkRet h
      · cases eq_of_checkRet h

/-- The lookup of a pool never fails: it was made just before. -/
theorem initializePorts_lookup {hw : Hardware} : ∀ (portIds : List UInt8) (cursor : Nat)
    (pm : PortManager), initializePorts hw portIds cursor pm ≠ .error .outOfRange
  | [], _, _ => by
      rintro ⟨⟩
  | p :: portIds, cursor, pm => by
      intro h
      rw [initializePorts, bind_eq_error] at h
      rcases h with h | ⟨l, -, h⟩
      · rcases findCore_spec hw cursor with ⟨l, hl, -⟩ | ⟨hnone, -⟩
        · rw [hl] at h
          cases h
        · rw [hnone] at h
          cases h
      · rcases bind_eq_error.mp h with h | ⟨pm₁, hpool, h⟩
        · unfold PortManager.addMempool at h
          split at h
          · cases h
          · split at h
            · cases h
            · cases h
        · rcases bind_eq_error.mp h with h | ⟨-, -, h⟩
          · exact initializePort_lookup (addMempool_spec hpool).2.1 h
          · exact initializePorts_lookup _ _ _ h

/-- With every call succeeding, the loop ends or runs out of cores. -/
theorem initializePorts_noCore {hw : Hardware} (hdev : hw.DevicesStart)
    (hpools : ∀ mps mp, hw.poolCreate mps mp = true) :
    ∀ (portIds : List UInt8) (cursor : Nat) (pm : PortManager),
    initializePorts hw portIds cursor pm = .error .noCore
      ↔ (hw.slavesFrom cursor).length < portIds.length
  | [], cursor, pm => by
      constructor
      · intro h
        cases h
      · intro h
        exact absurd h (Nat.not_lt_zero _)
  | p :: portIds, cursor, pm => by
      rw [initializePorts]
      rcases findCore_eq hw cursor with ⟨l, hl, hleft⟩ | ⟨hnone, hleft⟩
      · obtain ⟨pm₁, hpool⟩ := addMempool_eq_ok hpools pm (hw.lcoreToSocketId l)
        have hport := initializePort_eq_ok hdev p (addMempool_spec hpool).2.1
        rw [hl, hleft, List.length_cons, List.length_cons, Nat.add_lt_add_iff_right,
          ← initializePorts_noCore hdev hpools portIds (l + 1) (pm₁.addPort l p)]
        show (pm.addMempool hw (hw.lcoreToSocketId l) >>= fun pm => _) = _ ↔ _
        rw [hpool]
        show (initializePort hw pm₁ p (hw.lcoreToSocketId l) >>= fun _ => _) = _ ↔ _
        rw [hport]
        rfl
      · rw [hnone, hleft]
        exact iff_of_true rfl (Nat.succ_pos _)

theorem portManagerInitialize_error {hw : Hardware} {e : InitFailure} :
    portManagerInitialize hw = .error e
      ↔ initializePorts hw hw.portIds 0 PortManager.empty = .error e := by
  rw [portManagerInitialize, bind_eq_error]
  constructor
  · rintro (h | ⟨_, -, h⟩)
    · exact h
    · cases h
  · exact Or.inl

/-- What the set-up of the ports leaves behind: every port is on a core
of its own, the cores ascending with the ports, and every core in use
finds a pool for its socket. -/
structure AssignsPorts (hw : Hardware) (pm : PortManager) : Prop where
  served : ∀ p : UInt8, p.toNat < hw.nbPorts.toNat →
    ∃ l, hw.IsSlave l ∧ pm.getPortByCore l = some ⟨p⟩ ∧ pm.getPortByIndex p = some ⟨p⟩
  numbered : ∀ l port, pm.getPortByCore l = some port → port.portId.toNat < hw.nbPorts.toNat
  increasing : ∀ l l' port port', pm.getPortByCore l = some port →
    pm.getPortByCore l' = some port' → (port.portId < port'.portId ↔ l < l')
  pooled : ∀ l port, pm.getPortByCore l = some port →
    (pm.mempool (hw.lcoreToSocketId l)).isSome
  stats : ∃ port, pm.getPortByCore pm.statsLcoreId = some port

/-- The set-up assigns each port a core of its own, never looks up a pool
that is not there, and fails for want of a core only if there are fewer
cores than ports. -/
theorem portManagerInitialize_assignsPorts (hw : Hardware) (hpos : 0 < hw.nbPorts.toNat) :
    (∀ pm, portManagerInitialize hw = .ok pm → AssignsPorts hw pm)
      ∧ portManagerInitialize hw ≠ .error .outOfRange
      ∧ (hw.DevicesStart → (∀ mps mp, hw.poolCreate mps mp = true) →
        (portManagerInitialize hw = .error .noCore ↔ hw.slaves.length < hw.nbPorts.toNat)) := by
  refine ⟨fun pm h => ?_, fun h => ?_, fun hdev hpools => ?_⟩
  · constructor
    · intro p hp
      obtain ⟨l, hl⟩ := exists_getPortByCore h hp
      exact ⟨l, getPortByCore_isSlave h hl, hl, by rw [getPortByIndex_eq h, if_pos hp]⟩
    · exact fun l port hl => getPortByCore_lt h hl
    · exact fun l l' port port' hl hl' => portId_lt_iff h hl hl'
    · exact fun l port hl => mempool_isSome h hl
    · exact (mem_portCores_iff h).mp (statsLcoreId_mem h hpos)
  · exact initializePorts_lookup _ _ _ (portManagerInitialize_error.mp h)
  · rw [portManagerInitialize_error, initializePorts_noCore hdev hpools, length_portIds]
    rfl

/-- Two ports, for the second and the third of three cores. -/
def threeCores (create : List Mempool → Mempool → Bool) (socketOf : Nat → Nat) : Hardware where
  nbPorts := 2
  masterLcore := 0
  lcoreIsEnabled l := l ≤ 2
  lcoreToSocketId := socketOf
  poolCreate := create
  devConfigure _ := 0
  rxQueueSetup _ _ := 0
  txQueueSetup _ _ := 0
  devStart _ := 0
  lcoreIsEnabled_lt h := Nat.lt_of_le_of_lt (of_decide_eq_true h) (by decide)

theorem threeCores_devicesStart (create : List Mempool → Mempool → Bool) (socketOf : Nat → Nat) :
    (threeCores create socketOf).DevicesStart := by
  constructor
  · exact fun _ => Int.le_refl 0
  · exact fun _ _ => Int.le_refl 0
  · exact fun _ _ => Int.le_refl 0
  · exact fun _ => Int.le_refl 0

theorem portManagerInitialize_assignsPorts_threeCores :
    (∃ pm, portManagerInitialize (threeCores (fun _ _ => true) id) = .ok pm
        ∧ AssignsPorts (threeCores (fun _ _ => true) id) pm)
      ∧ (portManagerInitialize (threeCores (fun _ _ => true) id) = .error .noCore
        ↔ (threeCores (fun _ _ => true) id).slaves.length < 2) := by
  obtain ⟨hok, -, hcores⟩ :=
    portManagerInitialize_assignsPorts (threeCores (fun _ _ => true) id) (by decide)
  exact ⟨⟨_, rfl, hok _ rfl⟩, hcores (threeCores_devicesStart _ _) fun _ _ => rfl⟩

/-! ## One pool for each socket -/

/-- Where the driver refuses a pool, its name is in use. -/
def Hardware.RefusesTakenNames (hw : Hardware) : Prop :=
  ∀ mps mp, hw.poolCreate mps mp = false → mp.name ∈ mps.map Mempool.name

/-- No two pools have one name. -/
def Hardware.KeepsNamesDistinct (hw : Hardware) : Prop :=
  ∀ mps mp, mp.name ∈ mps.map Mempool.name → hw.poolCreate mps mp = false

/-- The set-up succeeds with one pool for each socket that a core in use
is on, and no other. -/
def OnePoolPerSocket (hw : Hardware) : Prop :=
  ∃ pm, portManagerInitialize hw = .ok pm
    ∧ (pm.mempools.map Mempool.socketId).Nodup
    ∧ ∀ s, s ∈ pm.mempools.map Mempool.socketId
      ↔ ∃ l port, pm.getPortByCore l = some port ∧ hw.lcoreToSocketId l = s

/-- The cores the ports get are all on one socket. -/
def Hardware.OneSocket (hw : Hardware) : Prop :=
  ∀ l ∈ hw.portCores, ∀ l' ∈ hw.portCores, hw.lcoreToSocketId l = hw.lcoreToSocketId l'

/-- The socket's pool is made if it is not there. -/
theorem addMempool_oneSocket {hw : Hardware} (hnames : hw.RefusesTakenNames) {s : Nat}
    {pm : PortManager} (hpm : pm.mempools = [] ∨ pm.mempools = [socketMempool s]) :
    ∃ pm₁, pm.addMempool hw s = .ok pm₁ ∧ pm₁.mempools = [socketMempool s] := by
  rcases hpm with hnil | hone
  · have hcreate : hw.poolCreate [] (socketMempool s) = true := by
      cases hc : hw.poolCreate [] (socketMempool s) with
      | true => rfl
      | false => exact absurd (hnames _ _ hc) List.not_mem_nil
    refine ⟨{ pm with mempools := [socketMempool s] }, ?_, rfl⟩
    simp [PortManager.addMempool, PortManager.mempool, hnil, hcreate]
  · refine ⟨pm, ?_, hone⟩
    simp [PortManager.addMempool, PortManager.mempool, hone, socketMempool]

/-- While the cores stay on one socket, the loop makes its pool at the
first port and no other. -/
theorem initializePorts_oneSocket {hw : Hardware} (hdev : hw.DevicesStart)
    (hnames : hw.RefusesTakenNames) {s : Nat} : ∀ (portIds : List UInt8) (cursor : Nat)
    (pm : PortManager), portIds.length ≤ (hw.slavesFrom cursor).length →
    (∀ l ∈ (hw.slavesFrom cursor).take portIds.length, hw.lcoreToSocketId l = s) →
    pm.mempools = [] ∨ pm.mempools = [socketMempool s] →
    ∃ pm' cursor', initializePorts hw portIds cursor pm = .ok (pm', cursor')
      ∧ pm'.mempools = if portIds = [] then pm.mempools else [socketMempool s]
  | [], cursor, pm, _, _, _ => ⟨pm, cursor, rfl, rfl⟩
  | p :: portIds, cursor, pm, hlen, hsocket, hpm => by
      rcases findCore_eq hw cursor with ⟨l, hl, hleft⟩ | ⟨-, hleft⟩
      · rw [hleft, List.length_cons, List.length_cons] at hlen
        rw [hleft, List.length_cons, List.take_succ_cons] at hsocket
        have hs := hsocket l List.mem_cons_self
        obtain ⟨pm₁, hpool, hone⟩ := addMempool_oneSocket hnames hpm
        obtain ⟨pm', cursor', hrun, hpm'⟩ :=
          initializePorts_oneSocket hdev hnames portIds (l + 1) (pm₁.addPort l p)
            (Nat.le_of_succ_le_succ hlen) (fun l' hl' => hsocket l' (List.mem_cons_of_mem _ hl'))
            (Or.inr hone)
        have hport := initializePort_eq_ok hdev p (addMempool_spec hpool).2.1
        refine ⟨pm', cursor', ?_, ?_⟩
        · rw [initializePorts, hl]
          show (pm.addMempool hw (hw.lcoreToSocketId l) >>= fun pm => _) = _
          rw [hs, hpool]
          show (initializePort hw pm₁ p s >>= fun _ => _) = _
          rw [hport]
          exact hrun
        · rw [hpm', if_neg (List.cons_ne_nil _ _)]
          split
          · exact hone
          · rfl
      · rw [hleft] at hlen
        exact absurd hlen (Nat.not_succ_le_zero _)

/-- Where names are kept distinct there is never a second pool. -/
theorem initializePorts_onePool {hw : Hardware} (hnames : hw.KeepsNamesDistinct) :
    ∀ {portIds : List UInt8} {cursor cursor' : Nat} {pm pm' : PortManager},
    initializePorts hw portIds cursor pm = .ok (pm', cursor') →
    pm.mempools = [] ∨ (∃ s, pm.mempools = [socketMempool s]) →
    pm'.mempools = [] ∨ ∃ s, pm'.mempools = [socketMempool s]
  | [], _, _, _, _, h, hpm => by
      cases h
      exact hpm
  | p :: portIds, cursor, cursor', pm, pm', h, hpm => by
      rw [initializePorts, bind_eq_ok] at h
      obtain ⟨l, -, h⟩ := h
      obtain ⟨pm₁, hpool, h⟩ := bind_eq_ok.mp h
      obtain ⟨-, -, h⟩ := bind_eq_ok.mp h
      refine initializePorts_onePool hnames h ?_
      show pm₁.mempools = [] ∨ ∃ s, pm₁.mempools = [socketMempool s]
      unfold PortManager.addMempool at hpool
      split at hpool
      · cases hpool
        exact hpm
      · split at hpool
        · rename_i hcreate
          cases hpool
          rcases hpm with hnil | ⟨s, hone⟩
          · exact Or.inr ⟨_, by rw [hnil]⟩
          · -- a second pool would have the name of the first
            rw [hone, hnames _ _ (by simp [socketMempool])] at hcreate
            cases hcreate
        · cases hpool

theorem portIds_eq_nil_iff {hw : Hardware} {pm : PortManager}
    (h : portManagerInitialize hw = .ok pm) : hw.portIds = [] ↔ hw.portCores = [] := by
  rw [← List.length_eq_zero_iff, ← List.length_eq_zero_iff, length_portIds, (portsMap_eq h).2]

theorem onePoolPerSocket_of_oneSocket {hw : Hardware} (hdev : hw.DevicesStart)
    (hcores : hw.nbPorts.toNat ≤ hw.slaves.length) (hnames : hw.RefusesTakenNames)
    (hone : hw.OneSocket) : OnePoolPerSocket hw := by
  have hs : ∀ l ∈ hw.portCores,
      hw.lcoreToSocketId l = hw.lcoreToSocketId (hw.portCores.headD 0) := by
    intro l hl
    refine hone l hl _ ?_
    cases hcases : hw.portCores with
    | nil =>
        rw [hcases] at hl
        cases hl
    | cons l' ls => exact List.mem_cons_self
  obtain ⟨pm, cursor, hrun, hpools⟩ := initializePorts_oneSocket hdev hnames hw.portIds 0
    PortManager.empty (by rw [length_portIds]; exact hcores)
    (fun l hl => hs l (by rw [length_portIds] at hl; exact hl)) (Or.inl rfl)
  have hok : portManagerInitialize hw
      = .ok { pm with statsLcoreId := (cursor + 2 ^ 32 - 1) % 2 ^ 32 } := by
    rw [portManagerInitialize, hrun]
    rfl
  refine ⟨_, hok, ?_, fun s => ?_⟩
  · show (pm.mempools.map Mempool.socketId).Nodup
    rw [hpools]
    split
    · exact List.nodup_nil
    · exact List.nodup_singleton _
  · have hassigned : ∀ l, (∃ port, PortManager.getPortByCore _ l = some port) ↔ l ∈ hw.portCores :=
      fun l => (mem_portCores_iff hok).symm
    have hnil := portIds_eq_nil_iff hok
    show s ∈ pm.mempools.map Mempool.socketId ↔ _
    rw [hpools]
    constructor
    · intro hmem
      have hne : hw.portIds ≠ [] := by
        intro hports
        rw [if_pos hports] at hmem
        cases hmem
      rw [if_neg hne, List.map_singleton, List.mem_singleton] at hmem
      obtain ⟨l, ls, hls⟩ := List.exists_cons_of_ne_nil (mt hnil.mpr hne)
      have hl : l ∈ hw.portCores := hls ▸ List.mem_cons_self
      obtain ⟨port, hport⟩ := (hassigned l).mpr hl
      exact ⟨l, port, hport, (hs l hl).trans hmem.symm⟩
    · rintro ⟨l, port, hport, rfl⟩
      have hl := (hassigned l).mp ⟨port, hport⟩
      rw [if_neg (mt hnil.mp (List.ne_nil_of_mem hl)), hs l hl]
      exact List.mem_cons_self

theorem oneSocket_of_onePoolPerSocket {hw : Hardware} (hnames : hw.KeepsNamesDistinct)
    (h : OnePoolPerSocket hw) : hw.OneSocket := by
  obtain ⟨pm, hok, -, hpools⟩ := h
  obtain ⟨⟨pm', cursor⟩, hloop, hpm⟩ := bind_eq_ok.mp hok
  have hone : pm.mempools = [] ∨ ∃ s, pm.mempools = [socketMempool s] := by
    have hone := initializePorts_onePool hnames hloop (Or.inl rfl)
    obtain rfl := Except.ok.inj hpm
    exact hone
  have hmem : ∀ l ∈ hw.portCores,
      hw.lcoreToSocketId l ∈ pm.mempools.map Mempool.socketId := by
    intro l hl
    obtain ⟨port, hport⟩ := (mem_portCores_iff hok).mp hl
    exact (hpools _).mpr ⟨l, port, hport, rfl⟩
  intro l hl l' hl'
  have hin := hmem l hl
  have hin' := hmem l' hl'
  rcases hone with hnil | ⟨s, hone⟩
  · rw [hnil] at hin
    cases hin
  · rw [hone] at hin hin'
    exact (List.mem_singleton.mp hin).trans (List.mem_singleton.mp hin').symm

/-- With one socket in use, there is one pool for it; and there is no
other way where the names of the pools are kept distinct. -/
theorem onePoolPerSocket_iff (hw : Hardware) (hdev : hw.DevicesStart)
    (hcores : hw.nbPorts.toNat ≤ hw.slaves.length) (hnames : hw.RefusesTakenNames) :
    (hw.OneSocket → OnePoolPerSocket hw)
      ∧ (hw.KeepsNamesDistinct → (OnePoolPerSocket hw ↔ hw.OneSocket)) := by
  refine ⟨onePoolPerSocket_of_oneSocket hdev hcores hnames, fun hdistinct => ?_⟩
  constructor
  · exact oneSocket_of_onePoolPerSocket hdistinct
  · exact onePoolPerSocket_of_oneSocket hdev hcores hnames

/-- A pool is refused exactly when its name is taken. -/
def distinctNames (mps : List Mempool) (mp : Mempool) : Bool :=
  !(mps.map Mempool.name).contains mp.name

theorem threeCores_refusesTakenNames (socketOf : Nat → Nat) :
    (threeCores distinctNames socketOf).RefusesTakenNames := by
  intro mps mp h
  simpa [threeCores, distinctNames] using h

theorem threeCores_keepsNamesDistinct (socketOf : Nat → Nat) :
    (threeCores distinctNames socketOf).KeepsNamesDistinct := by
  intro mps mp h
  simpa [threeCores, distinctNames] using h

theorem onePoolPerSocket_oneSocket : OnePoolPerSocket (threeCores distinctNames fun _ => 0) := by
  have hiff := (onePoolPerSocket_iff (threeCores distinctNames fun _ => 0)
    (threeCores_devicesStart _ _) (by decide) (threeCores_refusesTakenNames _)).2
    (threeCores_keepsNamesDistinct _)
  exact hiff.mpr fun _ _ _ _ => rfl

/-- Two cores on two sockets are too many. -/
theorem not_onePoolPerSocket_twoSockets :
    (threeCores distinctNames id).DevicesStart
      ∧ (threeCores distinctNames id).nbPorts.toNat ≤ (threeCores distinctNames id).slaves.length
      ∧ (threeCores distinctNames id).RefusesTakenNames
      ∧ portManagerInitialize (threeCores distinctNames id) = .error (.noMempool 2)
      ∧ ¬ OnePoolPerSocket (threeCores distinctNames id) := by
  have herr : portManagerInitialize (threeCores distinctNames id) = .error (.noMempool 2) := rfl
  refine ⟨threeCores_devicesStart _ _, by decide, threeCores_refusesTakenNames _, herr, ?_⟩
  rintro ⟨pm, hok, -⟩
  rw [herr] at hok
  cases hok

end Yapas
