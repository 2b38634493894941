import Mathlib.Data.List.Perm.Basic
import Yapas.PacketManager

/-!
# What a core's log adds up to

Two invariants of the state of a core. `Row` is about its transmit
queues: what was written to the slots of a queue has been accepted by
the driver, freed, or is still queued, and a burst offers only what was
written. `Books` is about buffers: which packets were received, which
copies were made and handed to a queue, and which buffers have been
given back.

The books are kept against three lists that say what should have
happened: the packets received, the copies the rules ask for (`out`),
and the received buffers due to be given back (`gone`). The functions of
`ProcessPackets` extend these lists, and a run of the loop is settled by
looking at the lists alone.
-/

namespace Yapas

/-! ## Reading a log -/

def Event.received : Event → List Packet
  | .rxBurst _ ms => ms
  | _ => []

def Event.allocated : Event → List BufId
  | .alloc id => [id]
  | _ => []

/-- `CopyMbuf` succeeds. -/
def Event.made : Event → List BufId
  | .copied id => [id]
  | _ => []

/-- The buffer is given back by `ProcessPackets` or `CopyMbuf`. -/
def Event.released : Event → List BufId
  | .free id => [id]
  | _ => []

/-- A slot of the queue for a port is written. -/
def Event.handed : Event → List (UInt8 × Ptr)
  | .tx p (.write _ m) => [(p, m)]
  | _ => []

def Event.onPort (p : UInt8) : Event → List (TxEvent Ptr)
  | .tx q e => if q = p then [e] else []
  | _ => []

/-- The event is not about a hardware queue. -/
def Event.isLocal : Event → Bool
  | .rxBurst _ _ => false
  | .tx _ _ => false
  | _ => true

/-- The event is part of an action: a buffer is taken, filled or given
back, or a queue is called. -/
def Event.isWork : Event → Bool
  | .alloc _ => true
  | .copied _ => true
  | .free _ => true
  | .tx _ _ => true
  | _ => false

/-- The names behind the pointers handed over. -/
def handedIds (trace : List Event) : List BufId :=
  (trace.flatMap Event.handed).filterMap fun o => o.2.map Packet.id

/-- The events on the queue for a port. -/
def onPort (p : UInt8) (trace : List Event) : List (TxEvent Ptr) :=
  trace.flatMap (Event.onPort p)

@[simp] theorem handedIds_append (es fs : List Event) :
    handedIds (es ++ fs) = handedIds es ++ handedIds fs := by
  simp [handedIds]

@[simp] theorem onPort_append (p : UInt8) (es fs : List Event) :
    onPort p (es ++ fs) = onPort p es ++ onPort p fs := List.flatMap_append

/-- No buffer changes hands. -/
structure Quiet (es : List Event) : Prop where
  received : es.flatMap Event.received = []
  allocated : es.flatMap Event.allocated = []
  made : es.flatMap Event.made = []
  released : es.flatMap Event.released = []

theorem quiet_tx (p : UInt8) (events : List (TxEvent Ptr)) : Quiet (events.map (.tx p)) := by
  constructor <;> simp [Event.received, Event.allocated, Event.made, Event.released]

theorem handed_tx (p : UInt8) (events : List (TxEvent Ptr)) :
    (events.map (.tx p)).flatMap Event.handed = (written events).map fun m => (p, m) := by
  induction events with
  | nil => rfl
  | cons e events ih =>
      have hcons : written (e :: events) = e.written ++ written events := List.flatMap_cons
      rw [List.map_cons, List.flatMap_cons, ih, hcons, List.map_append]
      cases e <;> rfl

theorem onPort_tx (p q : UInt8) (events : List (TxEvent Ptr)) :
    onPort q (events.map (.tx p)) = if p = q then events else [] := by
  induction events with
  | nil => simp [onPort]
  | cons e events ih =>
      have htail : onPort q (.tx p e :: events.map (.tx p))
          = Event.onPort q (.tx p e) ++ onPort q (events.map (.tx p)) := List.flatMap_cons
      rw [List.map_cons, htail, ih]
      by_cases hpq : p = q
      · simp [Event.onPort, hpq]
      · simp [Event.onPort, hpq]

/-- What is written on the queue for a port is what is handed over for
it. -/
theorem written_onPort (p : UInt8) (trace : List Event) :
    written (onPort p trace)
      = ((trace.flatMap Event.handed).filter (·.1 = p)).map Prod.snd := by
  induction trace with
  | nil => rfl
  | cons e trace ih =>
      have hcons : onPort p (e :: trace) = Event.onPort p e ++ onPort p trace := List.flatMap_cons
      rw [hcons, written_append, ih, List.flatMap_cons, List.filter_append, List.map_append]
      congr 1
      cases e with
      | tx q e' =>
          by_cases hq : q = p
          · cases e' <;> simp [Event.onPort, Event.handed, hq, written, TxEvent.written]
          · cases e' <;> simp [Event.onPort, Event.handed, hq, written]
      | _ => rfl

theorem mem_written_onPort {p : UInt8} {m : Ptr} {trace : List Event} :
    m ∈ written (onPort p trace) ↔ (p, m) ∈ trace.flatMap Event.handed := by
  simp [written_onPort]

/-! ## What the actions log -/

namespace Thread

variable {t : Thread} {C : Event → Prop}

/-- The procedure logs nothing but work. -/
def Works {α : Type} (p : Proc Lcore α) : Prop :=
  Proc.Adds Lcore.trace (fun e => e.isWork = true) p

theorem adds_emit {e : Event} (h : C e) : Proc.Adds Lcore.trace C (emit e) :=
  fun _ => ⟨[e], rfl, fun _ he' => List.mem_singleton.mp he' ▸ h⟩

theorem adds_get : Proc.Adds Lcore.trace C Proc.get := Proc.Adds.none fun _ => rfl

theorem works_emit {e : Event} (h : e.isWork = true) : Works (emit e) := adds_emit h

theorem works_pktmbufAlloc : Works t.pktmbufAlloc := by
  refine adds_get.bind fun s => ?_
  refine Proc.Adds.bind (.none fun _ => rfl) fun _ => ?_
  cases t.driver.alloc s.allocs with
  | none => exact .pure
  | some m => exact (works_emit rfl).bind fun _ => .pure

theorem works_copyMbuf (src : Mbuf) : Works (t.copyMbuf src) := by
  refine (Proc.Adds.ofOption _).bind fun _ => works_pktmbufAlloc.bind fun copy => ?_
  cases copy with
  | none => exact .pure
  | some m =>
      cases hbuf : m.buf.append src.pktLen with
      | none =>
          simp only [hbuf]
          exact (works_emit rfl).bind fun _ => .pure
      | some buf =>
          simp only [hbuf]
          exact (works_emit rfl).bind fun _ => .pure

theorem works_onQueue (port : Port) (p : UInt8)
    (call : Nat → PortQueue Ptr → Option (Sent Ptr)) : Works (onQueue port p call) := by
  refine adds_get.bind fun s => (Proc.Adds.ofOption _).bind fun r => ?_
  intro s'
  refine ⟨r.events.map (.tx port.portId), rfl, fun e he => ?_⟩
  obtain ⟨e', -, rfl⟩ := List.mem_map.mp he
  rfl

theorem works_executeAction (m : Mbuf) (a : Action) : Works (t.executeAction m a) := by
  cases a with
  | drop | pushVlan w | pushMpls w => exact .pure
  | output p =>
      refine (works_copyMbuf m).bind fun copy => ?_
      refine ((Proc.Adds.ofOption _).bind fun port => ?_).bind fun _ => .pure
      exact works_onQueue port p _

theorem works_executeActions (actions : List Action) (m : Mbuf) :
    Works (actions.foldlM t.executeAction m) :=
  Proc.Adds.foldlM works_executeAction actions m

theorem works_flush : Works t.flush := by
  refine Proc.Adds.foldlM (fun _ i => ?_) _ _
  exact (Proc.Adds.ofOption _).bind fun port => works_onQueue port i _

theorem adds_linkTimer (port : Port) (l : Locals) (tick : Tick) (diffTsc : UInt64)
    (h : C (.link port.portId tick.linkStatus)) :
    Proc.Adds Lcore.trace C (linkTimer port l tick diffTsc) := by
  rw [linkTimer]
  split
  · exact (adds_emit h).bind fun _ => .pure
  · exact .pure

theorem adds_statsTimer (l : Locals) (diffTsc : UInt64) (h : C (.printStats t.lcoreId)) :
    Proc.Adds Lcore.trace C (t.statsTimer l diffTsc) := by
  rw [statsTimer]
  split
  · split
    · exact (adds_emit h).bind fun _ => .pure
    · exact .pure
  · exact .pure

end Thread

/-! ## The row of queues -/

/-- The invariant of a core's queues, the one it polls included. -/
structure Row (t : Thread) (s : Lcore) : Prop where
  count_lt : ∀ p, (s.queues p).count < maxPktsInQueue
  settled : ∀ p, (accepted (onPort p s.trace) ++ (freed (onPort p s.trace)
    ++ (s.queues p).queued)).Perm (written (onPort p s.trace))
  offered : ∀ p ms ret, .tx p (.burst ms ret) ∈ s.trace →
    ms ≠ [] ∧ ∀ m ∈ ms, m ∈ written (onPort p s.trace)
  refused : ∀ p, FreedWhenRefused (onPort p s.trace)
  polled : ∀ p ms, .rxBurst p ms ∈ s.trace →
    t.manager.portManager.getPortByCore t.lcoreId = some ⟨p⟩

section Row

variable {t : Thread} {s s' : Lcore}

theorem row_start (t : Thread) (slots : UInt8 → Vector Ptr maxPktsInQueue) :
    Row t (Lcore.start slots) := by
  constructor
  · intro p
    exact Nat.zero_lt_succ _
  · intro p
    exact List.Perm.refl []
  · intro p ms ret h
    cases h
  · intro p
    exact freedWhenRefused_of_freed rfl
  · intro p ms h
    cases h

/-- Events that are not about a transmit queue. -/
theorem Row.append {es : List Event} (h : Row t s) (hq : s'.queues = s.queues)
    (ht : s'.trace = s.trace ++ es) (hes : ∀ p e, .tx p e ∉ es)
    (hpolled : ∀ p ms, .rxBurst p ms ∈ es →
      t.manager.portManager.getPortByCore t.lcoreId = some ⟨p⟩) : Row t s' := by
  have hnone : ∀ p, onPort p s'.trace = onPort p s.trace := by
    intro p
    have hnil : onPort p es = [] := by
      refine List.flatMap_eq_nil_iff.mpr fun ev hev => ?_
      cases ev with
      | tx q e => exact absurd hev (hes q e)
      | _ => rfl
    rw [ht, onPort_append, hnil, List.append_nil]
  constructor
  · intro p
    rw [hq]
    exact h.count_lt p
  · intro p
    rw [hnone, hq]
    exact h.settled p
  · intro p ms ret hmem
    rw [ht] at hmem
    rcases List.mem_append.mp hmem with hmem | hmem
    · rw [hnone]
      exact h.offered p ms ret hmem
    · exact absurd hmem (hes p _)
  · intro p
    rw [hnone]
    exact h.refused p
  · intro p ms hmem
    rw [ht] at hmem
    rcases List.mem_append.mp hmem with hmem | hmem
    · exact h.polled p ms hmem
    · exact hpolled p ms hmem

theorem Row.local {es : List Event} (h : Row t s) (hq : s'.queues = s.queues)
    (ht : s'.trace = s.trace ++ es) (hes : ∀ e ∈ es, e.isLocal = true) : Row t s' := by
  refine h.append hq ht (fun p e hmem => ?_) fun p ms hmem => ?_
  · cases hes _ hmem
  · cases hes _ hmem

theorem perm_append_step {a f q a' f' q' w new : List Ptr}
    (h : (a ++ (f ++ q)).Perm w) (h' : a' ++ (f' ++ q') = q ++ new) :
    ((a ++ a') ++ ((f ++ f') ++ q')).Perm (w ++ new) := by
  rw [List.perm_iff_count] at h ⊢
  intro m
  have hc := h m
  have hc' := congrArg (List.count m) h'
  simp only [List.count_append] at hc hc' ⊢
  omega

/-- A call on one queue. -/
theorem Row.call {p : UInt8} {r : Sent Ptr} {new : List Ptr} (h : Row t s)
    (hr : r.Accounts (s.queues p) new) (hq : s'.queues = Function.update s.queues p r.queue)
    (ht : s'.trace = s.trace ++ r.events.map (.tx p)) : Row t s' := by
  have hold : ∀ {m : Ptr}, m ∈ (s.queues p).queued ++ new →
      m ∈ written (onPort p s.trace) ++ new := by
    intro m hm
    rcases List.mem_append.mp hm with hm | hm
    · refine List.mem_append_left _ ((h.settled p).subset ?_)
      exact List.mem_append_right _ (List.mem_append_right _ hm)
    · exact List.mem_append_right _ hm
  constructor
  · intro q
    rw [hq]
    by_cases hqp : q = p
    · rw [hqp, Function.update_self]
      exact hr.count_lt
    · rw [Function.update_of_ne hqp]
      exact h.count_lt q
  · intro q
    rw [ht, hq, onPort_append, onPort_tx]
    by_cases hqp : q = p
    · rw [hqp, if_pos rfl, Function.update_self, accepted_append, freed_append, written_append,
        hr.written_eq]
      exact perm_append_step (h.settled p) hr.accounts
    · rw [if_neg (Ne.symm hqp), Function.update_of_ne hqp, List.append_nil]
      exact h.settled q
  · intro q ms ret hmem
    rw [ht] at hmem ⊢
    rw [onPort_append, onPort_tx, written_append]
    rcases List.mem_append.mp hmem with hmem | hmem
    · obtain ⟨hne, hsub⟩ := h.offered q ms ret hmem
      exact ⟨hne, fun m hm => List.mem_append_left _ (hsub m hm)⟩
    · obtain ⟨e, he, heq⟩ := List.mem_map.mp hmem
      obtain ⟨rfl, rfl⟩ := Event.tx.inj heq
      obtain ⟨hne, hsub⟩ := hr.offered ms ret he
      refine ⟨hne, fun m hm => ?_⟩
      rw [if_pos rfl, hr.written_eq]
      exact hold (hsub m hm)
  · intro q
    rw [ht, onPort_append, onPort_tx]
    by_cases hqp : p = q
    · rw [if_pos hqp]
      exact (h.refused q).append hr.refused
    · rw [if_neg hqp, List.append_nil]
      exact h.refused q
  · intro q ms hmem
    rw [ht] at hmem
    rcases List.mem_append.mp hmem with hmem | hmem
    · exact h.polled q ms hmem
    · obtain ⟨e, -, heq⟩ := List.mem_map.mp hmem
      cases heq

end Row

/-! ## The books -/

namespace Thread

variable (t : Thread)

/-- What the `n`-th call of `CopyMbuf` returns. -/
def copyOf (n : Nat) (src : Mbuf) : Ptr :=
  match t.driver.alloc n with
  | none => none
  | some m => (m.buf.append src.pktLen).map fun buf => ⟨.copy n, buf.overwrite 0 src.data⟩

/-- The pointers handed over for the copies `out`. -/
def copies (out : List (UInt8 × Mbuf)) : List (UInt8 × Ptr) :=
  out.zipIdx.map fun o => (o.1.1, t.copyOf o.2 o.1.2)

/-- What the `n`-th call of `CopyMbuf` does. -/
def copyEvents (n : Nat) (src : Mbuf) : List Event :=
  match t.driver.alloc n with
  | none => []
  | some m =>
      match m.buf.append src.pktLen with
      | none => [.alloc (.copy n), .free (.copy n)]
      | some _ => [.alloc (.copy n), .copied (.copy n)]

theorem copies_concat (out : List (UInt8 × Mbuf)) (p : UInt8) (src : Mbuf) :
    t.copies (out ++ [(p, src)]) = t.copies out ++ [(p, t.copyOf out.length src)] := by
  simp [copies, List.zipIdx_append]

/-- Of the three ways a call of `CopyMbuf` goes, the buffer it took is
given back in one and handed on in another. -/
theorem copyEvents_spec (n : Nat) (src : Mbuf) :
    (t.copyEvents n src).flatMap Event.received = []
      ∧ (t.copyEvents n src).flatMap Event.handed = []
      ∧ (t.copyEvents n src).flatMap Event.made = ((t.copyOf n src).map Packet.id).toList
      ∧ ((t.copyEvents n src).flatMap Event.allocated).Sublist [.copy n]
      ∧ (t.copyEvents n src).flatMap Event.released ++ ((t.copyOf n src).map Packet.id).toList
        = (t.copyEvents n src).flatMap Event.allocated
      ∧ ∀ e ∈ t.copyEvents n src, e.isLocal = true := by
  unfold copyEvents copyOf
  split
  · simp
  · rename_i m hm
    cases m.buf.append src.pktLen with
    | none =>
        simp [Event.received, Event.handed, Event.made, Event.allocated, Event.released,
          Event.isLocal]
    | some buf =>
        simp [Event.received, Event.handed, Event.made, Event.allocated, Event.released,
          Event.isLocal]

end Thread

/-- The books of a core that has received `rx`, was asked for the
copies `out`, and should have given back `gone`. -/
structure Books (t : Thread) (rx : List Packet) (out : List (UInt8 × Mbuf)) (gone : List BufId)
    (s : Lcore) : Prop where
  received_eq : s.trace.flatMap Event.received = rx
  names_eq : rx.map Packet.id = (List.range s.received).map BufId.rx
  allocs_eq : s.allocs = out.length
  handed_eq : s.trace.flatMap Event.handed = t.copies out
  made_eq : s.trace.flatMap Event.made = handedIds s.trace
  allocated_sub : (s.trace.flatMap Event.allocated).Sublist ((List.range s.allocs).map BufId.copy)
  balanced : ∀ id, (s.trace.flatMap Event.released).count id + (handedIds s.trace).count id
    = (s.trace.flatMap Event.allocated).count id + gone.count id

section Books

variable {t : Thread} {rx : List Packet} {out : List (UInt8 × Mbuf)} {gone : List BufId}
  {s s' : Lcore}

theorem books_start (t : Thread) (slots : UInt8 → Vector Ptr maxPktsInQueue) :
    Books t [] [] [] (Lcore.start slots) := by
  constructor <;> simp [Lcore.start, Thread.copies, handedIds]

theorem handedIds_eq_nil {es : List Event} (h : es.flatMap Event.handed = []) :
    handedIds es = [] := by
  rw [handedIds, h]
  rfl

theorem Books.quiet {es : List Event} (h : Books t rx out gone s) (hallocs : s'.allocs = s.allocs)
    (hreceived : s'.received = s.received) (ht : s'.trace = s.trace ++ es) (hes : Quiet es)
    (hhanded : es.flatMap Event.handed = []) : Books t rx out gone s' := by
  have hids := handedIds_eq_nil hhanded
  constructor
  · rw [ht, List.flatMap_append, hes.received, List.append_nil, h.received_eq]
  · rw [hreceived, h.names_eq]
  · rw [hallocs, h.allocs_eq]
  · rw [ht, List.flatMap_append, hhanded, List.append_nil, h.handed_eq]
  · rw [ht, List.flatMap_append, hes.made, handedIds_append, hids, List.append_nil,
      List.append_nil, h.made_eq]
  · rw [ht, List.flatMap_append, hes.allocated, List.append_nil, hallocs]
    exact h.allocated_sub
  · intro id
    rw [ht, List.flatMap_append, List.flatMap_append, handedIds_append, hes.released,
      hes.allocated, hids, List.append_nil, List.append_nil, List.append_nil]
    exact h.balanced id

theorem ids_numbered (n : Nat) (frames : List Mbuf) :
    (Thread.numbered n frames).map Packet.id
      = (List.range' n frames.length).map BufId.rx := by
  rw [Thread.numbered, List.map_map, ← List.zipIdx_map_snd n frames, List.map_map]
  rfl

theorem Books.receive {p : UInt8} {ms : List Packet} {frames : List Mbuf}
    (h : Books t rx out gone s) (hms : ms = Thread.numbered s.received frames)
    (hallocs : s'.allocs = s.allocs) (hreceived : s'.received = s.received + ms.length)
    (ht : s'.trace = s.trace ++ [.rxBurst p ms]) : Books t (rx ++ ms) out gone s' := by
  have hids : handedIds s'.trace = handedIds s.trace := by
    simp [ht, handedIds, Event.handed]
  constructor
  · simp [ht, h.received_eq, Event.received]
  · rw [List.map_append, h.names_eq, hms, ids_numbered, hreceived, hms,
      Thread.length_numbered, ← List.map_append, List.range_eq_range', List.range_eq_range',
      ← List.range'_append_1, Nat.zero_add]
  · rw [hallocs, h.allocs_eq]
  · simp [ht, h.handed_eq, Event.handed]
  · rw [hids, ← h.made_eq]
    simp [ht, Event.made]
  · simpa [ht, Event.allocated, hallocs] using h.allocated_sub
  · intro id
    rw [hids]
    simpa [ht, Event.allocated, Event.released] using h.balanced id

theorem Books.free {id : BufId} (h : Books t rx out gone s) (hallocs : s'.allocs = s.allocs)
    (hreceived : s'.received = s.received) (ht : s'.trace = s.trace ++ [.free id]) :
    Books t rx out (gone ++ [id]) s' := by
  have hids : handedIds s'.trace = handedIds s.trace := by
    simp [ht, handedIds, Event.handed]
  constructor
  · simp [ht, h.received_eq, Event.received]
  · rw [hreceived, h.names_eq]
  · rw [hallocs, h.allocs_eq]
  · simp [ht, h.handed_eq, Event.handed]
  · rw [hids, ← h.made_eq]
    simp [ht, Event.made]
  · simpa [ht, Event.allocated, hallocs] using h.allocated_sub
  · intro id'
    have hbal := h.balanced id'
    rw [hids, ht, List.flatMap_append, List.flatMap_append, List.count_append, List.count_append,
      List.count_append]
    show _ + List.count id' [id] + _ = _ + List.count id' [] + (_ + List.count id' [id])
    rw [List.count_nil]
    omega

/-- A copy is asked for, and what comes of it is handed to the queue. -/
theorem Books.output {p : UInt8} {src : Mbuf} {es : List Event} (h : Books t rx out gone s)
    (hallocs : s'.allocs = s.allocs + 1) (hreceived : s'.received = s.received)
    (ht : s'.trace = s.trace ++ (t.copyEvents s.allocs src ++ es)) (hes : Quiet es)
    (hhanded : es.flatMap Event.handed = [(p, t.copyOf s.allocs src)]) :
    Books t rx (out ++ [(p, src)]) gone s' := by
  obtain ⟨hrx, hno, hmade, hsub, hbal, -⟩ := t.copyEvents_spec s.allocs src
  have hids : handedIds s'.trace
      = handedIds s.trace ++ ((t.copyOf s.allocs src).map Packet.id).toList := by
    rw [ht, handedIds_append, handedIds_append, handedIds_eq_nil hno, List.nil_append, handedIds,
      handedIds, hhanded]
    cases t.copyOf s.allocs src <;> rfl
  constructor
  · simp only [ht, List.flatMap_append, hrx, hes.received, List.append_nil, h.received_eq]
  · rw [hreceived, h.names_eq]
  · rw [hallocs, h.allocs_eq, List.length_append]
    rfl
  · rw [Thread.copies_concat, ← h.allocs_eq]
    simp only [ht, List.flatMap_append, hno, hhanded, List.nil_append, h.handed_eq]
  · rw [hids]
    simp only [ht, List.flatMap_append, hmade, hes.made, List.append_nil, h.made_eq]
  · rw [hallocs, List.range_succ, List.map_append]
    simp only [ht, List.flatMap_append, hes.allocated, List.append_nil]
    exact h.allocated_sub.append hsub
  · intro id
    have hold := h.balanced id
    have hnew := congrArg (List.count id) hbal
    rw [hids]
    simp only [ht, List.flatMap_append, hes.released, hes.allocated, List.append_nil,
      List.count_append] at hnew ⊢
    omega

end Books

end Yapas
