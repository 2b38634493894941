import Yapas.Execution

/-!
# Forwarding

What leaves a core on the wire. Between a rule's OUTPUT and the driver
lie the transmit queues, and a property of them and of the log that
every call keeps (`QueueInvariant`) holds in every run of a core
(`run_keeps`). Three such properties are wanted: a queue is in the order
in which it was filled; with a driver that takes all it is offered
nothing is freed; and since the queues were last flushed, what is queued
is what was put there since.
-/

namespace Yapas

/-- A property of a core's queues and of its log. -/
abbrev QueueProp := (UInt8 → PortQueue Ptr) → List Event → Prop

/-- Calls on the queues keep it, and it is about nothing else. -/
structure QueueInvariant (t : Thread) (I : QueueProp) : Prop where
  aside : ∀ {queues : UInt8 → PortQueue Ptr} {trace : List Event} {e : Event},
    I queues trace → (∀ p, e.onPort p = []) → I queues (trace ++ [e])
  call : ∀ {queues : UInt8 → PortQueue Ptr} {trace : List Event} {p : UInt8} {bursts : Nat}
    {c : Call Ptr} {r : Sent Ptr}, I queues trace → (queues p).count < maxPktsInQueue →
    c.run t.driver.tx bursts (queues p) = some r →
    I (Function.update queues p r.queue) (trace ++ r.events.map (.tx p))

/-- The property holds, and every queue has a free slot. -/
def Holds (I : QueueProp) (s : Lcore) : Prop :=
  (∀ p, (s.queues p).count < maxPktsInQueue) ∧ I s.queues s.trace

namespace Thread

/-- Return or stop, the procedure keeps the property. -/
def Keeps {α : Type} (I : QueueProp) (p : Proc Lcore α) : Prop :=
  Proc.Meets (Holds I) p (fun _ => Holds I) (Holds I)

section Keeps

variable {t : Thread} {I : QueueProp} {α β τ : Type}

theorem keeps_pure (a : α) : Keeps I (pure a) := Proc.Meets.pure fun _ hs => hs

theorem Keeps.bind {p : Proc Lcore α} {f : α → Proc Lcore β} (hp : Keeps I p)
    (hf : ∀ a, Keeps I (f a)) : Keeps I (p >>= f) :=
  Proc.Meets.bind hp hf

theorem keeps_ofOption : ∀ o : Option α, Keeps I (Proc.ofOption o)
  | some a => keeps_pure a
  | none => .of_stop fun s hs => ⟨s, rfl, hs⟩

theorem keeps_foldlM {f : β → τ → Proc Lcore β} (hf : ∀ b x, Keeps I (f b x)) (xs : List τ)
    (b : β) : Keeps I (xs.foldlM f b) :=
  Proc.Meets.foldlM (I := fun _ _ => Holds I) fun _ x _ b _ => hf b x

theorem keeps_get : Keeps I Proc.get := .of_run fun s hs => ⟨s, s, rfl, hs⟩

/-- The change is not to the queues or to the log. -/
theorem keeps_modify {f : Lcore → Lcore} (hqueues : ∀ s, (f s).queues = s.queues)
    (htrace : ∀ s, (f s).trace = s.trace) : Keeps I (Proc.modify f) := by
  refine .of_run fun s hs => ⟨(), f s, rfl, ?_, ?_⟩
  · rw [hqueues]
    exact hs.1
  · rw [hqueues, htrace]
    exact hs.2

variable (hI : QueueInvariant t I)

include hI

theorem keeps_emit {e : Event} (he : ∀ p, e.onPort p = []) : Keeps I (emit e) :=
  .of_run fun s hs => ⟨(), _, emit_run e s, hs.1, hI.aside hs.2 he⟩

theorem keeps_onQueue (port : Port) {c : Call Ptr} :
    Keeps I (onQueue port port.portId fun bursts q => c.run t.driver.tx bursts q) := by
  refine .of_run fun s hs => ?_
  obtain ⟨r, hr, hacc⟩ := c.run_spec t.driver.tx s.bursts (hs.1 port.portId)
  refine ⟨(), _, onQueue_run hr, fun p => ?_, hI.call hs.2 (hs.1 port.portId) hr⟩
  show (Function.update s.queues port.portId r.queue p).count < maxPktsInQueue
  by_cases hp : p = port.portId
  · rw [hp, Function.update_self]
    exact hacc.count_lt
  · rw [Function.update_of_ne hp]
    exact hs.1 p

theorem keeps_pktmbufAlloc : Keeps I t.pktmbufAlloc := by
  refine keeps_get.bind fun s => Keeps.bind ?_ fun _ => ?_
  · exact keeps_modify (fun _ => rfl) fun _ => rfl
  cases t.driver.alloc s.allocs with
  | none => exact keeps_pure _
  | some m => exact (keeps_emit hI fun _ => rfl).bind fun _ => keeps_pure _

theorem keeps_copyMbuf (src : Mbuf) : Keeps I (t.copyMbuf src) := by
  refine (keeps_ofOption _).bind fun _ => (keeps_pktmbufAlloc hI).bind fun copy => ?_
  cases copy with
  | none => exact keeps_pure _
  | some m =>
      cases hbuf : m.buf.append src.pktLen with
      | none =>
          simp only [hbuf]
          exact (keeps_emit hI fun _ => rfl).bind fun _ => keeps_pure _
      | some buf =>
          simp only [hbuf]
          exact (keeps_emit hI fun _ => rfl).bind fun _ => keeps_pure _

theorem keeps_receivePackets (port : Port) (queue : PortQueue Ptr) (tick : Tick) :
    Keeps I (receivePackets port queue tick) := by
  refine keeps_get.bind fun s => Keeps.bind ?_ fun _ => ?_
  · exact keeps_modify (fun _ => rfl) fun _ => rfl
  exact (keeps_emit hI fun _ => rfl).bind fun _ => keeps_pure _

theorem keeps_linkTimer (port : Port) (l : Locals) (tick : Tick) (diffTsc : UInt64) :
    Keeps I (linkTimer port l tick diffTsc) := by
  rw [linkTimer]
  split
  · exact (keeps_emit hI fun _ => rfl).bind fun _ => keeps_pure _
  · exact keeps_pure _

theorem keeps_statsTimer (l : Locals) (diffTsc : UInt64) : Keeps I (t.statsTimer l diffTsc) := by
  rw [statsTimer]
  split
  · split
    · exact (keeps_emit hI fun _ => rfl).bind fun _ => keeps_pure _
    · exact keeps_pure _
  · exact keeps_pure _

variable (hpm : portManagerInitialize t.hw = .ok t.manager.portManager)

include hpm

/-- The port of a number has this number. -/
theorem keeps_onPort (p : UInt8) (c : Call Ptr) :
    Keeps I (t.getPortByIndex p >>= fun port =>
      onQueue port p fun bursts q => c.run t.driver.tx bursts q) := by
  by_cases hp : p.toNat < t.hw.nbPorts.toNat
  · rw [getPortByIndex_eq hpm hp, Proc.ofOption_some_bind]
    exact keeps_onQueue hI ⟨p⟩
  · rw [getPortByIndex, Yapas.getPortByIndex_eq hpm, if_neg hp]
    exact .of_stop fun s hs => ⟨s, rfl, hs⟩

theorem keeps_executeAction (m : Mbuf) (a : Action) : Keeps I (t.executeAction m a) := by
  cases a with
  | drop | pushVlan w | pushMpls w => exact keeps_pure _
  | output p =>
      refine (keeps_copyMbuf hI m).bind fun copy => Keeps.bind ?_ fun _ => keeps_pure m
      exact keeps_onPort hI hpm p (.one copy)

theorem keeps_processPacket (portId : UInt8) (m : Ptr) : Keeps I (t.processPacket portId m) := by
  refine (keeps_ofOption m).bind fun m => (keeps_ofOption _).bind fun r => ?_
  obtain ⟨prepared, buf⟩ := r
  cases prepared with
  | false => exact keeps_emit hI fun _ => rfl
  | true =>
      refine (keeps_ofOption _).bind fun protocol => (keeps_ofOption _).bind fun port => ?_
      refine Keeps.bind ?_ fun _ => ?_
      · cases protocol with
        | unknown => exact keeps_pure ()
        | http | sip | rtp | rtsp => exact keeps_emit hI fun _ => rfl
      · cases getActions t.manager.rules (ruleKey portId protocol) with
        | none => exact keeps_pure ()
        | some actions =>
            refine (keeps_foldlM (keeps_executeAction hI hpm) actions buf).bind fun _ => ?_
            exact keeps_emit hI fun _ => rfl

theorem keeps_flush : Keeps I t.flush :=
  keeps_foldlM (fun _ i => keeps_onPort hI hpm i .all) _ _

theorem keeps_drain (tscHz : UInt64) (port : Port) (l : Locals) (tick : Tick) :
    Keeps I (t.drain tscHz port l tick) := by
  simp only [drain]
  split
  · refine (keeps_flush hI hpm).bind fun _ => ?_
    exact (keeps_linkTimer hI port _ tick _).bind fun l => keeps_statsTimer hI l _
  · exact keeps_pure l

theorem keeps_poll (port : Port) (l : Locals) (tick : Tick) : Keeps I (t.poll port l tick) := by
  rw [poll]
  split
  · refine (keeps_receivePackets hI port _ tick).bind fun queue => Keeps.bind ?_ fun _ => ?_
    · exact (keeps_foldlM (fun _ => keeps_processPacket hI hpm port.portId) _ ()).bind fun _ =>
        keeps_pure _
    · exact keeps_pure _
  · exact keeps_pure l

theorem keeps_iteration (tscHz : UInt64) (port : Port) (l : Locals) (tick : Tick) :
    Keeps I (t.iteration tscHz port l tick) :=
  (keeps_drain hI hpm tscHz port l tick).bind fun l => keeps_poll hI hpm port l tick

theorem keeps_runProcessing (tscHz : UInt64) (entry : Entry) (ticks : List Tick) :
    Keeps I (t.runProcessing tscHz entry ticks) := by
  rw [runProcessing]
  cases t.manager.portManager.getPortByCore t.lcoreId with
  | none => exact keeps_pure ()
  | some port =>
      refine (keeps_foldlM (keeps_iteration hI hpm tscHz port) ticks _).bind fun _ => ?_
      exact keeps_pure ()

/-- What holds of constructed queues holds after every run. -/
theorem run_keeps {tscHz : UInt64} {entry : Entry} {ticks : List Tick}
    {slots : UInt8 → Vector Ptr maxPktsInQueue} {o : Option Unit} {s : Lcore}
    (h : I (fun p => PortQueue.empty (slots p)) [])
    (hrun : t.runProcessing tscHz entry ticks (Lcore.start slots) = (o, s)) : Holds I s :=
  (keeps_runProcessing hI hpm tscHz entry ticks).ends ⟨fun _ => Nat.zero_lt_succ _, h⟩ hrun

end Keeps

end Thread

/-! ## One queue -/

/-- A property of each queue and of what was done on it. -/
theorem queueInvariant_of {t : Thread} {J : UInt8 → PortQueue Ptr → List (TxEvent Ptr) → Prop}
    (hstep : ∀ {p : UInt8} {q : PortQueue Ptr} {es : List (TxEvent Ptr)} {bursts : Nat}
      {c : Call Ptr} {r : Sent Ptr}, J p q es → q.count < maxPktsInQueue →
      c.run t.driver.tx bursts q = some r → J p r.queue (es ++ r.events)) :
    QueueInvariant t fun queues trace => ∀ p, J p (queues p) (onPort p trace) := by
  constructor
  · intro queues trace e h he p
    have hnone : onPort p [e] = [] := by rw [onPort, List.flatMap_singleton, he]
    rw [onPort_append, hnone, List.append_nil]
    exact h p
  · intro queues trace p bursts c r h hcount hr q
    rw [onPort_append, onPort_tx]
    by_cases hq : q = p
    · subst hq
      rw [if_pos rfl, Function.update_self]
      exact hstep (h q) hcount hr
    · rw [if_neg (Ne.symm hq), Function.update_of_ne hq, List.append_nil]
      exact h q

section Queue

variable {q : PortQueue Ptr} {es : List (TxEvent Ptr)} {tx : Nat → Nat} {bursts : Nat}
  {c : Call Ptr} {r : Sent Ptr}

theorem accounts_of_run (hcount : q.count < maxPktsInQueue) (hr : c.run tx bursts q = some r) :
    r.Accounts q c.new := by
  obtain ⟨r', hr', hacc⟩ := c.run_spec tx bursts hcount
  obtain rfl := Option.some.inj (hr.symm.trans hr')
  exact hacc

/-- Accepted and queued in the order of writing. -/
def InOrder (q : PortQueue Ptr) (es : List (TxEvent Ptr)) : Prop :=
  (accepted es ++ q.queued).Sublist (written es)

theorem InOrder.call (h : InOrder q es) (hacc : r.Accounts q c.new) :
    InOrder r.queue (es ++ r.events) := by
  have hown : (accepted r.events ++ r.queue.queued).Sublist (q.queued ++ c.new) := by
    rw [← hacc.accounts]
    exact (List.sublist_append_right _ _).append_left _
  rw [InOrder, accepted_append, written_append, hacc.written_eq, List.append_assoc]
  refine (hown.append_left _).trans ?_
  rw [← List.append_assoc]
  exact h.append_right _

/-- Nothing is freed. -/
def Whole (q : PortQueue Ptr) (es : List (TxEvent Ptr)) : Prop :=
  accepted es ++ q.queued = written es

/-- A driver that takes a whole queue is called once. -/
theorem freed_of_accepting (htx : ∀ k, maxPktsInQueue ≤ tx k) (hcount : q.count < maxPktsInQueue)
    (hr : c.run tx bursts q = some r) : freed r.events = [] := by
  have hall : ∀ {q : PortQueue Ptr} {bursts : Nat} {r : Sent Ptr},
      sendAllPackets tx bursts q = some r → freed r.events = [] := by
    intro q bursts r hr
    rw [sendAllPackets] at hr
    split at hr
    · obtain rfl := Option.some.inj hr
      rfl
    · rename_i hzero
      have hlen : (q.pending 0).length = q.count := q.length_pending 0
      have hmin : min (tx bursts) (q.pending 0).length = q.count := by
        have := htx bursts
        have := q.count_le
        omega
      rw [sendLoop, if_neg (Ne.symm hzero)] at hr
      simp only [hmin, hzero, if_false, Nat.zero_add] at hr
      obtain ⟨k, hk⟩ := Nat.exists_eq_succ_of_ne_zero hzero
      rw [hk, sendLoop, ← Nat.succ_eq_add_one, ← hk, if_pos rfl] at hr
      obtain rfl := Option.some.inj hr
      simp [q.pending_count, freed, TxEvent.freed]
  cases c with
  | all => exact hall hr
  | one m =>
      rw [Call.run, sendOnePacket, dif_pos hcount] at hr
      split at hr
      · obtain ⟨r', hr', rfl⟩ := Option.map_eq_some_iff.mp hr
        have hrest : freed r'.events = [] := hall hr'
        exact hrest
      · obtain rfl := Option.some.inj hr
        rfl

theorem Whole.call (h : Whole q es) (hacc : r.Accounts q c.new) (hfreed : freed r.events = []) :
    Whole r.queue (es ++ r.events) := by
  have hown : accepted r.events ++ r.queue.queued = q.queued ++ c.new := by
    rw [← hacc.accounts, hfreed, List.nil_append]
  rw [Whole, accepted_append, written_append, hacc.written_eq, List.append_assoc, hown,
    ← List.append_assoc, h]

/-- What is queued was written behind `old`. -/
def QueuedSince (old : List Ptr) (q : PortQueue Ptr) (es : List (TxEvent Ptr)) : Prop :=
  ∃ new, written es = old ++ new ∧ q.queued <:+ new

theorem QueuedSince.call {old : List Ptr} (h : QueuedSince old q es) (hacc : r.Accounts q c.new) :
    QueuedSince old r.queue (es ++ r.events) := by
  obtain ⟨new, hnew, hsuffix⟩ := h
  refine ⟨new ++ c.new, ?_, ?_⟩
  · rw [written_append, hacc.written_eq, hnew, List.append_assoc]
  · have hown : r.queue.queued <:+ q.queued ++ c.new := by
      rw [← hacc.accounts, ← List.append_assoc]
      exact List.suffix_append _ _
    obtain ⟨front, hfront⟩ := hsuffix
    refine hown.trans ⟨front, ?_⟩
    rw [← List.append_assoc, hfront]

/-- Each packet written is accepted, freed or queued. -/
def Settled (q : PortQueue Ptr) (es : List (TxEvent Ptr)) : Prop :=
  (accepted es ++ (freed es ++ q.queued)).Perm (written es)

theorem Settled.call (h : Settled q es) (hacc : r.Accounts q c.new) :
    Settled r.queue (es ++ r.events) := by
  rw [Settled, accepted_append, freed_append, written_append, hacc.written_eq]
  exact perm_append_step h hacc.accounts

end Queue

/-! ## The wire -/

/-- The bytes behind a pointer. -/
def Ptr.data (m : Ptr) : Option (List UInt8) := m.map fun c => c.buf.data

/-- What the driver has accepted for a port, in order. -/
def Lcore.sent (p : UInt8) (s : Lcore) : List (Option (List UInt8)) :=
  (accepted (onPort p s.trace)).map Ptr.data

/-- What waits in the queue of a port. -/
def Lcore.waiting (p : UInt8) (s : Lcore) : List (Option (List UInt8)) :=
  (s.queues p).queued.map Ptr.data

/-- What the packets worked off have for a port, by their rules. -/
def Thread.dueTo (t : Thread) (port : Port) (p : UInt8) (s : Lcore) :
    List (Option (List UInt8)) :=
  (((t.dueCopies port s).zipIdx.map fun e => (e.1.1, t.delivered e.2 e.1.2)).filter
    (·.1 = p)).map Prod.snd

theorem written_data {t : Thread} {file : Option Text} {port : Port} (h : t.Serves file port)
    {s : Lcore} (hs : Thread.Worked t port.portId s.rxPackets (t.worked port s) s) (p : UInt8) :
    (written (onPort p s.trace)).map Ptr.data = t.dueTo port p s := by
  rw [Thread.dueTo, ← Thread.handedData_eq h hs, Lcore.handedData, List.filter_map,
    written_onPort, List.map_map, List.map_map]
  rfl

namespace Thread

variable {t : Thread} {file : Option Text} {port : Port}

theorem run_inOrder (h : t.Serves file port) {tscHz : UInt64} {entry : Entry}
    {ticks : List Tick} {slots : UInt8 → Vector Ptr maxPktsInQueue} {o : Option Unit} {s : Lcore}
    (hrun : t.runProcessing tscHz entry ticks (Lcore.start slots) = (o, s)) (p : UInt8) :
    InOrder (s.queues p) (onPort p s.trace) := by
  have hinv : QueueInvariant t fun queues trace => ∀ p, InOrder (queues p) (onPort p trace) :=
    queueInvariant_of fun h hcount hr => h.call (accounts_of_run hcount hr)
  exact (run_keeps hinv h.tables.2 (fun _ => List.Sublist.refl _) hrun).2 p

/-- In every run of a core the frames that leave on a port, and behind
them those that wait, are frames the rules have for this port, in the
order in which their packets came. None leaves twice. -/
theorem sent_in_order (h : t.Serves file port) {tscHz : UInt64} {entry : Entry}
    {ticks : List Tick} {slots : UInt8 → Vector Ptr maxPktsInQueue} {o : Option Unit} {s : Lcore}
    (hrun : t.runProcessing tscHz entry ticks (Lcore.start slots) = (o, s)) (p : UInt8) :
    (s.sent p ++ s.waiting p).Sublist (t.dueTo port p s) := by
  have hdata := (run_inOrder h hrun p).map Ptr.data
  rwa [List.map_append, written_data h (run_spec h tscHz entry ticks slots hrun).1] at hdata

theorem sent_in_order_tagged : (tagRun.2.sent 1 ++ tagRun.2.waiting 1).Sublist
    (tagThread.dueTo ⟨0⟩ 1 tagRun.2) :=
  sent_in_order tagThread_serves (Prod.mk.eta (p := tagRun)).symm 1

/-- A frame that leaves is one that a rule has for a packet received. -/
theorem ruleCopies_of_sent (h : t.Serves file port) {tscHz : UInt64} {entry : Entry}
    {ticks : List Tick} {slots : UInt8 → Vector Ptr maxPktsInQueue} {o : Option Unit} {s : Lcore}
    (hrun : t.runProcessing tscHz entry ticks (Lcore.start slots) = (o, s)) {p : UInt8}
    {out : List UInt8} (hsent : some out ∈ s.sent p) :
    ∃ m ∈ s.rxPackets, (p, out) ∈ t.ruleCopies port.portId m.buf := by
  have hdata := (run_inOrder h hrun p).map Ptr.data
  rw [List.map_append, written_data h (run_spec h tscHz entry ticks slots hrun).1] at hdata
  have hdue := hdata.subset (List.mem_append_left _ hsent)
  obtain ⟨e, he, hout⟩ := List.mem_map.mp hdue
  obtain ⟨hmem, hport⟩ := List.mem_filter.mp he
  obtain ⟨⟨copy, n⟩, hcopy, rfl⟩ := List.mem_map.mp hmem
  obtain ⟨m, hm, hrule⟩ := List.mem_flatMap.mp (List.fst_mem_of_mem_zipIdx hcopy)
  refine ⟨m, (List.takeWhile_sublist _).subset hm, ?_⟩
  rw [delivered] at hout
  split at hout
  · rw [← Option.some.inj hout, ← of_decide_eq_true hport]
    exact hrule
  · cases hout

/-- With a driver that takes what it is offered everything handed to a
queue has left or waits. -/
theorem sent_eq_dueTo (h : t.Serves file port) (htx : ∀ k, maxPktsInQueue ≤ t.driver.tx k)
    {tscHz : UInt64} {entry : Entry} {ticks : List Tick} {slots : UInt8 → Vector Ptr maxPktsInQueue}
    {o : Option Unit} {s : Lcore}
    (hrun : t.runProcessing tscHz entry ticks (Lcore.start slots) = (o, s)) (p : UInt8) :
    s.sent p ++ s.waiting p = t.dueTo port p s := by
  have hinv : QueueInvariant t fun queues trace => ∀ p, Whole (queues p) (onPort p trace) :=
    queueInvariant_of fun h hcount hr =>
      h.call (accounts_of_run hcount hr) (freed_of_accepting htx hcount hr)
  obtain ⟨-, hwhole⟩ := run_keeps hinv h.tables.2 (fun _ => rfl) hrun
  rw [Lcore.sent, Lcore.waiting, ← List.map_append, hwhole p,
    written_data h (run_spec h tscHz entry ticks slots hrun).1]

/-- A pool that has buffers holds every copy that fits. -/
theorem dueTo_eq {s : Lcore} (halloc : ∀ n, (t.driver.alloc n).isSome)
    (hfit : ∀ e ∈ t.dueCopies port s, e.2.length ≤ mbufDefaultDataroom) (p : UInt8) :
    t.dueTo port p s = ((t.dueCopies port s).filter (·.1 = p)).map fun e => some e.2 := by
  have hdelivered : (t.dueCopies port s).zipIdx.map (fun e => (e.1.1, t.delivered e.2 e.1.2))
      = (t.dueCopies port s).map fun e => (e.1, some e.2) := by
    rw [← List.zipIdx_map_fst 0 (t.dueCopies port s), List.map_map, List.zipIdx_map_fst]
    refine List.map_congr_left fun e he => congrArg (Prod.mk e.1.1) ?_
    exact if_pos ⟨halloc _, hfit _ (List.fst_mem_of_mem_zipIdx he)⟩
  rw [dueTo, hdelivered, List.filter_map, List.map_map]
  rfl

/-- With a pool that has buffers and a driver that takes what it is
offered no frame is lost: it has left or waits. -/
theorem sent_all (h : t.Serves file port) (halloc : ∀ n, (t.driver.alloc n).isSome)
    (htx : ∀ k, maxPktsInQueue ≤ t.driver.tx k) {tscHz : UInt64} {entry : Entry}
    {ticks : List Tick} {slots : UInt8 → Vector Ptr maxPktsInQueue} {o : Option Unit} {s : Lcore}
    (hrun : t.runProcessing tscHz entry ticks (Lcore.start slots) = (o, s))
    (hfit : ∀ e ∈ t.dueCopies port s, e.2.length ≤ mbufDefaultDataroom) (p : UInt8) :
    s.sent p ++ s.waiting p = ((t.dueCopies port s).filter (·.1 = p)).map fun e => some e.2 := by
  rw [sent_eq_dueTo h htx hrun, dueTo_eq halloc hfit]

theorem sent_all_tagged : tagRun.2.sent 1 ++ tagRun.2.waiting 1
    = [some (udpFrame.pushed [.pushVlan 0x64700081, .output 1])] := by
  refine (sent_all tagThread_serves (fun _ => rfl) (fun _ => Nat.le_refl _)
    (Prod.mk.eta (p := tagRun)).symm ?_ 1).trans ?_
  · decide +kernel
  · decide +kernel

/-! ## Flushing -/

/-- What is on the queues, and in what was written nothing is new. -/
def Unwritten (old : UInt8 → List Ptr) (s : Lcore) : Prop :=
  (∀ p, (s.queues p).count < maxPktsInQueue) ∧ ∀ p, written (onPort p s.trace) = old p

theorem flush_one (h : t.Serves file port) (old : UInt8 → List Ptr) {pre post : List UInt8}
    {i : UInt8} (hsplit : t.hw.portIds = pre ++ i :: post) {E : Lcore → Prop} :
    Proc.Meets (fun s => Unwritten old s ∧ ∀ p ∈ pre, (s.queues p).queued = [])
      (t.getPortByIndex i >>= fun port => onQueue port i (sendAllPackets t.driver.tx))
      (fun _ s => Unwritten old s ∧ ∀ p ∈ pre ++ [i], (s.queues p).queued = []) E := by
  have hi : i.toNat < t.hw.nbPorts.toNat := by
    rw [← Hardware.mem_portIds, hsplit]
    simp
  rw [getPortByIndex_eq h.tables.2 hi, Proc.ofOption_some_bind]
  refine .of_run fun s ⟨⟨hcount, hwritten⟩, hpre⟩ => ?_
  obtain ⟨r, hr, hzero, hacc⟩ := sendAllPackets_spec t.driver.tx s.bursts (s.queues i)
  have hnil : r.queue.queued = [] :=
    List.length_eq_zero_iff.mp (by rw [PortQueue.length_queued, hzero])
  refine ⟨(), _, onQueue_run hr, ⟨fun p => ?_, fun p => ?_⟩, fun p hp => ?_⟩
  · show (Function.update s.queues i r.queue p).count < maxPktsInQueue
    by_cases hpi : p = i
    · rw [hpi, Function.update_self]
      exact hacc.count_lt
    · rw [Function.update_of_ne hpi]
      exact hcount p
  · show written (onPort p (s.trace ++ r.events.map (.tx i))) = old p
    rw [onPort_append, onPort_tx, written_append, hwritten]
    split
    · rw [hacc.written_eq, List.append_nil]
    · rw [written, List.flatMap_nil, List.append_nil]
  · show (Function.update s.queues i r.queue p).queued = []
    by_cases hpi : p = i
    · rw [hpi, Function.update_self, hnil]
    · rw [Function.update_of_ne hpi]
      exact hpre p ((List.mem_append.mp hp).resolve_right fun h => hpi (List.mem_singleton.mp h))

theorem flush_empties (h : t.Serves file port) (old : UInt8 → List Ptr) {E : Lcore → Prop} :
    Proc.Meets (Unwritten old) t.flush
      (fun _ s => Unwritten old s ∧ ∀ p ∈ t.hw.portIds, (s.queues p).queued = []) E := by
  have hloop : Proc.Meets
      (fun s => Unwritten old s ∧ ∀ p ∈ ([] : List UInt8), (s.queues p).queued = [])
      t.flush (fun _ s => Unwritten old s ∧ ∀ p ∈ t.hw.portIds, (s.queues p).queued = []) E := by
    refine Proc.Meets.foldlM
      (I := fun pre _ s => Unwritten old s ∧ ∀ p ∈ pre, (s.queues p).queued = []) ?_
    exact fun pre i post _ hsplit => flush_one h old hsplit
  exact hloop.weaken (fun s hs => ⟨hs, List.forall_mem_nil _⟩) (fun _ _ hs => hs) fun _ => id

/-- What is queued for a port was written since the log had `old`. -/
def AllQueuedSince (t : Thread) (old : UInt8 → List Ptr) : QueueProp := fun queues trace =>
  ∀ p, p ∈ t.hw.portIds → QueuedSince (old p) (queues p) (onPort p trace)

theorem allQueuedSince_invariant (t : Thread) (old : UInt8 → List Ptr) :
    QueueInvariant t (AllQueuedSince t old) :=
  queueInvariant_of (J := fun p q es => p ∈ t.hw.portIds → QueuedSince (old p) q es)
    fun h hcount hr hp => (h hp).call (accounts_of_run hcount hr)

theorem drain_since (h : t.Serves file port) (old : UInt8 → List Ptr) {tscHz : UInt64}
    {l : Locals} {tick : Tick} (hdue : drainTsc tscHz ≤ tick.curTsc - l.prevTsc) :
    Proc.Meets (Unwritten old) (t.drain tscHz port l tick)
      (fun _ => Holds (AllQueuedSince t old)) (Holds (AllQueuedSince t old)) := by
  have hinv := allQueuedSince_invariant t old
  simp only [drain, if_pos hdue]
  refine Proc.Meets.bind (Q := fun _ => Holds (AllQueuedSince t old)) ?_ fun _ => ?_
  · refine (flush_empties h old).weaken (fun _ hs => hs) ?_ fun _ => id
    rintro _ s ⟨⟨hcount, hwritten⟩, hempty⟩
    refine ⟨hcount, fun p hp => ⟨[], ?_, ?_⟩⟩
    · rw [hwritten, List.append_nil]
    · rw [hempty p hp]
  · exact (keeps_linkTimer hinv port _ tick _).bind fun l => keeps_statsTimer hinv l _

/-- What is queued when an iteration that flushes ends, or stops, was put
there by it. -/
theorem iteration_since (h : t.Serves file port) {tscHz : UInt64} {l : Locals} {s s' : Lcore}
    (hs : ∀ p, (s.queues p).count < maxPktsInQueue) {tick : Tick}
    (hdue : drainTsc tscHz ≤ tick.curTsc - l.prevTsc) {o : Option Locals}
    (hlast : t.iteration tscHz port l tick s = (o, s')) {p : UInt8} (hp : p ∈ t.hw.portIds) :
    QueuedSince (written (onPort p s.trace)) (s'.queues p) (onPort p s'.trace) := by
  have hsince := allQueuedSince_invariant t fun p => written (onPort p s.trace)
  have hstep : Proc.Meets (Unwritten fun p => written (onPort p s.trace))
      (t.iteration tscHz port l tick)
      (fun _ => Holds (AllQueuedSince t fun p => written (onPort p s.trace)))
      (Holds (AllQueuedSince t fun p => written (onPort p s.trace))) :=
    (drain_since h _ hdue).bind fun l => keeps_poll hsince h.tables.2 port l tick
  have hstart : Unwritten (fun p => written (onPort p s.trace)) s := ⟨hs, fun _ => rfl⟩
  exact (hstep.ends hstart hlast).2 p hp

/-- In a run, an iteration that flushes leaves nothing in the queues but
what it has put there itself: all that was written before is accepted or
freed when it ends. -/
theorem iteration_flushes (h : t.Serves file port) {tscHz : UInt64} {entry : Entry}
    {ticks : List Tick} {slots : UInt8 → Vector Ptr maxPktsInQueue} {l : Locals} {s s' : Lcore}
    (hrun : ticks.foldlM (t.iteration tscHz port) entry.locals (Lcore.start slots) = (some l, s))
    {tick : Tick} (hdue : drainTsc tscHz ≤ tick.curTsc - l.prevTsc) {o : Option Locals}
    (hlast : t.iteration tscHz port l tick s = (o, s')) {p : UInt8} (hp : p ∈ t.hw.portIds) :
    ∃ new, written (onPort p s'.trace)
        = written (onPort p s.trace) ++ (new ++ (s'.queues p).queued) ∧
      (accepted (onPort p s'.trace) ++ freed (onPort p s'.trace)).Perm
        (written (onPort p s.trace) ++ new) := by
  have hsettled : QueueInvariant t fun queues trace => ∀ p, Settled (queues p) (onPort p trace) :=
    queueInvariant_of fun h hcount hr => h.call (accounts_of_run hcount hr)
  have hall : Keeps (fun queues trace => ∀ p, Settled (queues p) (onPort p trace))
      (ticks.foldlM (t.iteration tscHz port) entry.locals) :=
    keeps_foldlM (keeps_iteration hsettled h.tables.2 tscHz port) ticks _
  have hstart : Holds (fun queues trace => ∀ p, Settled (queues p) (onPort p trace))
      (Lcore.start slots) := ⟨fun _ => Nat.zero_lt_succ _, fun _ => List.Perm.refl []⟩
  have hs := hall.ends hstart hrun
  have hs' := (keeps_iteration hsettled h.tables.2 tscHz port l tick).ends hs hlast
  obtain ⟨all, hwritten, new, rfl⟩ := iteration_since h hs.1 hdue hlast hp
  refine ⟨new, hwritten, ?_⟩
  have hperm := hs'.2 p
  rw [Settled, hwritten, ← List.append_assoc, ← List.append_assoc] at hperm
  exact (List.perm_append_right_iff _).mp hperm

/-- No packet waits any more. -/
def idleTick : Tick := ⟨4000000000, true, [], by decide⟩

theorem iteration_flushes_tagged : ∃ l s o s' new,
    [udpTick].foldlM (tagThread.iteration 2000000000 ⟨0⟩) coldStart.locals
        (Lcore.start fun _ => noSlots) = (some l, s) ∧
      tagThread.iteration 2000000000 ⟨0⟩ l idleTick s = (o, s') ∧
      written (onPort 1 s'.trace)
        = written (onPort 1 s.trace) ++ (new ++ (s'.queues 1).queued) ∧
      (accepted (onPort 1 s'.trace) ++ freed (onPort 1 s'.trace)).Perm
        (written (onPort 1 s.trace) ++ new) := by
  have hprev : ([udpTick].foldlM (tagThread.iteration 2000000000 ⟨0⟩) coldStart.locals
      (Lcore.start fun _ => noSlots)).1.map Locals.prevTsc = some 2000000000 := by decide +kernel
  obtain ⟨⟨o, s⟩, hrun⟩ : ∃ r, [udpTick].foldlM (tagThread.iteration 2000000000 ⟨0⟩)
      coldStart.locals (Lcore.start fun _ => noSlots) = r := ⟨_, rfl⟩
  rw [hrun] at hprev
  obtain ⟨l, rfl, htsc⟩ := Option.map_eq_some_iff.mp hprev
  obtain ⟨⟨o, s'⟩, hlast⟩ : ∃ r, tagThread.iteration 2000000000 ⟨0⟩ l idleTick s = r := ⟨_, rfl⟩
  have hdue : drainTsc 2000000000 ≤ idleTick.curTsc - l.prevTsc := by
    rw [htsc]
    decide
  have hport : (1 : UInt8) ∈ tagThread.hw.portIds := by decide +kernel
  obtain ⟨new, hwritten, hperm⟩ := iteration_flushes tagThread_serves hrun hdue hlast hport
  exact ⟨l, s, o, s', new, hrun, hlast, hwritten, hperm⟩

end Thread

end Yapas
