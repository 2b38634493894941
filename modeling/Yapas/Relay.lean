import Yapas.Classification
import Yapas.Forwarding
import Yapas.HeaderLengths
import Yapas.Timers

/-!
# Frames received again

A frame that leaves by a rule may come to another port, of the same
machine or of the next one in a row. A tag does not hide what is in it:
every core on the way finds the same headers and classifies the payload
alike, so a row of cores does to a frame what one list of all their
actions is meant to do (`relayed_iff`). A label does: behind it the
ethertype is that of MPLS, and no core forwards the frame any further
(`not_forwards_labelled`), in whatever order its rule has pushed.

A core forwards a frame if there is a run in which it receives nothing
else and the driver accepts what it sends (`Hop.Forwards`). Such a run has
two ticks: the frame is read at the first, and at the second the queues
are flushed (`exists_run_alone`).
-/

namespace Yapas

/-! ## Frames with more tags -/

namespace TaggedFrame

variable (f : TaggedFrame)

theorem bytes_eq_pushedBehind : f.bytes = f.macs ++ f.pushedBehind [] := rfl

theorem length_pushed (actions : List Action) : (f.pushed actions).length
    = f.bytes.length + 4 * ((vlanWords actions).length + (mplsWords actions).length) := by
  have htype : (if mplsWords actions = [] then [f.typeHi, f.typeLo] else [0x88, 0x47]).length
      = 2 := by split <;> rfl
  simp only [pushed, pushedBehind, bytes, List.length_append, length_flatMap_bytes,
    List.length_reverse, htype, List.length_cons, List.length_nil]
  omega

/-- The frame with `ws` in front of its tags. -/
def withTags (ws : List UInt32) (h : ∀ w ∈ ws, StartsWithTag w) : TaggedFrame :=
  { f with
    tags := ws ++ f.tags
    startsWithTag := fun w hw => (List.mem_append.mp hw).elim (h w) (f.startsWithTag w) }

/-- Its ethertype replaced by that of MPLS, and a label behind it; `k`
tags stay in front. -/
def withLabel (k : Nat) (w : UInt32) : TaggedFrame :=
  { f with
    tags := f.tags.take k
    typeHi := 0x88
    typeLo := 0x47
    rest := Word.bytes w ++ (f.pushedBehind []).drop (4 * k + 2)
    startsWithTag := fun w hw => f.startsWithTag w (List.mem_of_mem_take hw)
    not_vlanType := by decide }

theorem pushedBehind_nil :
    f.pushedBehind [] = f.tags.flatMap Word.bytes ++ ([f.typeHi, f.typeLo] ++ f.rest) := rfl

theorem pushBehind_withTags (k : Nat) {w : UInt32} (h : ∀ v ∈ [w], StartsWithTag v) :
    pushBehind k (f.pushedBehind []) (.pushVlan w) = (f.withTags [w] h).pushedBehind [] := by
  show Word.bytes w ++ (f.tags.flatMap Word.bytes ++ _) = (w :: f.tags).flatMap Word.bytes ++ _
  rw [List.flatMap_cons, List.append_assoc]
  rfl

theorem pushBehind_withLabel {k : Nat} (hk : k ≤ f.tags.length) (w : UInt32) :
    pushBehind k (f.pushedBehind []) (.pushMpls w) = (f.withLabel k w).pushedBehind [] := by
  have hfront : (f.pushedBehind []).take (4 * k) = (f.tags.take k).flatMap Word.bytes := by
    rw [pushedBehind_nil]
    conv_lhs => rw [← List.take_append_drop k f.tags]
    rw [List.flatMap_append, List.append_assoc]
    exact List.take_left' (by rw [length_flatMap_bytes, List.length_take, Nat.min_eq_left hk])
  rw [pushBehind, hfront, List.append_assoc]
  rfl

variable {f} {ip l4 payload : List UInt8}

/-- A tag hides nothing. -/
theorem Carries.withTags (h : f.Carries ip l4 payload) (ws : List UInt32)
    (hws : ∀ w ∈ ws, StartsWithTag w) : (f.withTags ws hws).Carries ip l4 payload := h

/-- Without a label the frame made is the one with the tags, and more
pushes go on from there. -/
theorem pushed_append {actions : List Action} (hmpls : mplsWords actions = [])
    (hws : ∀ w ∈ (vlanWords actions).reverse, StartsWithTag w) (more : List Action) :
    f.pushed (actions ++ more) = (f.withTags (vlanWords actions).reverse hws).pushed more := by
  have hvlan : vlanWords (actions ++ more) = vlanWords actions ++ vlanWords more :=
    List.filterMap_append
  have hlabels : mplsWords (actions ++ more) = mplsWords more := by
    rw [mplsWords, List.filterMap_append]
    exact congrArg (· ++ mplsWords more) hmpls
  rw [pushed, pushed, pushedBehind, pushedBehind, hvlan, hlabels, List.reverse_append,
    List.append_assoc]
  rfl

theorem pushed_eq_bytes {actions : List Action} (hmpls : mplsWords actions = [])
    (hws : ∀ w ∈ (vlanWords actions).reverse, StartsWithTag w) :
    f.pushed actions = (f.withTags (vlanWords actions).reverse hws).bytes := by
  have happend := f.pushed_append hmpls hws []
  rwa [List.append_nil] at happend

/-- Once a label has been pushed the ethertype is that of MPLS, whatever
else is pushed. -/
theorem foldl_pushBehind_label {k : Nat} {actions : List Action} {f : TaggedFrame}
    (hwords : ∀ w ∈ vlanWords actions, StartsWithTag w) (hk : k ≤ f.tags.length)
    (htype : mplsWords actions ≠ [] ∨ f.type = 0x8847) :
    ∃ g : TaggedFrame, actions.foldl (pushBehind k) (f.pushedBehind []) = g.pushedBehind []
      ∧ g.macs = f.macs ∧ g.type = 0x8847 := by
  induction actions generalizing f with
  | nil => exact ⟨f, rfl, rfl, htype.resolve_left fun h => h rfl⟩
  | cons a actions ih =>
      cases a with
      | drop | output _ => exact ih hwords hk htype
      | pushVlan w =>
          have hw : ∀ v ∈ [w], StartsWithTag v := fun v hv =>
            hwords v (List.mem_cons.mpr (Or.inl (List.mem_singleton.mp hv)))
          rw [List.foldl_cons, f.pushBehind_withTags k hw]
          exact ih (f := f.withTags [w] hw) (fun v hv => hwords v (List.mem_cons_of_mem w hv))
            (Nat.le_succ_of_le hk) htype
      | pushMpls w =>
          rw [List.foldl_cons, f.pushBehind_withLabel hk]
          exact ih (f := f.withLabel k w) hwords (List.length_take_of_le hk).ge (Or.inr rfl)

end TaggedFrame

/-! ## A frame alone -/

namespace Thread

variable {t : Thread} {file : Option Text} {port : Port}

/-- The link is reported up, and one frame waits. -/
def arrival (buf : Mbuf) : Tick := ⟨2000000000, true, [buf], Nat.succ_pos _⟩

theorem arrival_curTsc (buf : Mbuf) : (arrival buf).curTsc - coldStart.prevTsc = 2000000000 :=
  UInt64.sub_zero 2000000000

theorem polled_arrival (buf : Mbuf) :
    polled 2000000000 coldStart.locals (arrival buf) = [buf] := by
  have hdue : LinkDue 2000000000 coldStart.locals (arrival buf) := by
    have htsc : (arrival buf).curTsc - coldStart.locals.prevTsc = 2000000000 := arrival_curTsc buf
    have htimer : coldStart.locals.timerTsc = 0 := rfl
    rw [LinkDue, htsc, htimer]
    decide
  rw [polled, if_pos hdue]
  rfl

theorem flushTicks_arrival (buf : Mbuf) :
    flushTicks 2000000000 coldStart.prevTsc [arrival buf] = [arrival buf] := by
  rw [flushTicks, periodic, arrival_curTsc]
  exact if_pos (by decide)

theorem polled_idleTick (tscHz : UInt64) (l : Locals) : polled tscHz l idleTick = [] :=
  ite_self _

theorem not_stuck {rx : List Packet} {s : Lcore} (hread : ∀ m ∈ rx, t.Readable port.portId m) :
    ¬ Stuck t port.portId rx s := by
  rintro ⟨done, m, todo, rfl, -, hm⟩
  exact hm (hread m (List.mem_append_right done List.mem_cons_self))

/-- An iteration whose frames can all be read comes to its end. -/
theorem exists_iteration (h : t.Serves file port) {tscHz : UInt64} {l : Locals} {tick : Tick}
    {rx : List Packet} {s : Lcore} (hs : Worked t port.portId rx rx s)
    (hread : ∀ buf ∈ polled tscHz l tick, (t.verdict port.portId buf).isSome) : ∃ l' s' ms,
      t.iteration tscHz port l tick s = (some l', s') ∧ ms.map Packet.buf = polled tscHz l tick
        ∧ Worked t port.portId (rx ++ ms) (rx ++ ms) s' := by
  obtain ⟨⟨o, s'⟩, hrun⟩ : ∃ r, t.iteration tscHz port l tick s = r := ⟨_, rfl⟩
  obtain ⟨hreturn, hstop⟩ := iteration_receives h tscHz l tick s hs
  rcases o with _ | l'
  · obtain ⟨ms, hms, hstuck⟩ := hstop s' hrun
    refine absurd hstuck (not_stuck fun m hm => ?_)
    rcases List.mem_append.mp hm with hold | hnew
    · exact hs.readable m hold
    · exact hread m.buf (hms ▸ List.mem_map_of_mem hnew)
  · obtain ⟨ms, hms, hworked⟩ := hreturn l' s' hrun
    exact ⟨l', s', ms, hrun, hms, hworked⟩

/-- The frame is received and worked off. -/
theorem exists_arrival (h : t.Serves file port) {buf : Mbuf}
    (hread : (t.verdict port.portId buf).isSome) : ∃ l s m,
      t.iteration 2000000000 port coldStart.locals (arrival buf) (Lcore.start fun _ => noSlots)
          = (some l, s)
        ∧ l.prevTsc = 2000000000 ∧ m.buf = buf ∧ Worked t port.portId [m] [m] s := by
  obtain ⟨l, s, ms, hrun, hms, hworked⟩ := exists_iteration h
    (worked_start t port.portId fun _ => noSlots)
    (show ∀ b ∈ polled 2000000000 coldStart.locals (arrival buf), _ by
      rwa [polled_arrival, List.forall_mem_singleton])
  rw [polled_arrival] at hms
  obtain ⟨m, rfl, hbuf⟩ := List.map_eq_singleton_iff.mp hms
  have hfold : [arrival buf].foldlM (t.iteration 2000000000 port) coldStart.locals
      (Lcore.start fun _ => noSlots) = (some l, s) := by
    rw [List.foldlM_cons, Proc.bind_run hrun]
    rfl
  have htimed := (iterations_timed 2000000000 coldStart.prevTsc [arrival buf] coldStart.locals
    _ (t.timed_start port 2000000000 coldStart fun _ => noSlots)).1 l s hfold
  have hprev := htimed.1.prev_eq
  rw [flushTicks_arrival] at hprev
  exact ⟨l, s, m, hrun, hprev, hbuf, hworked⟩

/-- Where all packets have been worked off, what was written is what the
rules have for them. -/
theorem Worked.written {s : Lcore} {ms : List Packet} (h : t.Serves file port)
    (hs : Worked t port.portId ms ms s) (p : UInt8) : s.rxPackets = ms
      ∧ (written (onPort p s.trace)).map Ptr.data = t.dueTo port p s
      ∧ t.dueCopies port s = ms.flatMap fun m => t.ruleCopies port.portId m.buf := by
  obtain rfl : s.rxPackets = ms := hs.ledger.books.received_eq
  have hworked := worked_eq hs.readable
  refine ⟨rfl, written_data h ?_ p, ?_⟩
  · rwa [hworked]
  · rw [dueCopies, hworked]

/-- A core can receive a frame and nothing else, and send all that its
rule has for it. -/
theorem exists_run_alone (h : t.Serves file port) {buf : Mbuf}
    (hread : (t.verdict port.portId buf).isSome) : ∃ s m,
      t.runProcessing 2000000000 coldStart [arrival buf, idleTick] (Lcore.start fun _ => noSlots)
          = (some (), s)
        ∧ s.rxPackets = [m] ∧ m.buf = buf
        ∧ t.dueCopies port s = t.ruleCopies port.portId buf
        ∧ ∀ p ∈ t.hw.portIds, s.waiting p = [] := by
  obtain ⟨l, s, m, hrun, hprev, rfl, hworked⟩ := exists_arrival h hread
  have hidle := polled_idleTick 2000000000 l
  obtain ⟨l', s', ms, hrun', hms, hworked'⟩ := exists_iteration h hworked
    (show ∀ buf ∈ polled 2000000000 l idleTick, _ from hidle ▸ fun _ hbuf => by cases hbuf)
  obtain rfl : ms = [] := List.map_eq_nil_iff.mp (hms.trans hidle)
  have hcount := hworked.ledger.row.count_lt
  have hdue : drainTsc 2000000000 ≤ idleTick.curTsc - l.prevTsc := by
    rw [hprev]
    decide
  refine ⟨s', m, ?_, (hworked'.written h 0).1, rfl, ?_, fun p hp => ?_⟩
  · have hfold : [arrival m.buf, idleTick].foldlM (t.iteration 2000000000 port) coldStart.locals
        (Lcore.start fun _ => noSlots) = (some l', s') := by
      rw [List.foldlM_cons, Proc.bind_run hrun, List.foldlM_cons, Proc.bind_run hrun']
      rfl
    rw [runProcessing, h.port_eq]
    exact Proc.bind_run hfold _
  · rw [(hworked'.written h 0).2.2]
    exact List.flatMap_singleton _ _
  · -- nothing is written at the second tick, and what waits would have been
    obtain ⟨new, hnew, hqueued⟩ := iteration_since h hcount hdue hrun' hp
    obtain ⟨-, hdata, hcopies⟩ := hworked.written h p
    obtain ⟨-, hdata', hcopies'⟩ := hworked'.written h p
    have hsame : t.dueTo port p s' = t.dueTo port p s := by
      rw [dueTo, dueTo, hcopies, hcopies']
      rfl
    have hlen := congrArg List.length (hdata'.trans (hsame.trans hdata.symm))
    rw [List.length_map, List.length_map, hnew, List.length_append] at hlen
    have hnil : new = [] := List.length_eq_zero_iff.mp (by omega)
    rw [hnil, List.suffix_nil] at hqueued
    rw [Lcore.waiting, hqueued, List.map_nil]

end Thread

/-! ## One core -/

/-- A core that receives on a port. -/
structure Hop where
  thread : Thread
  port : Port

namespace Hop

/-- What its rule for the protocol says, nothing without one. -/
def actions (h : Hop) (q : Protocol) : List Action :=
  (getActions h.thread.manager.rules (ruleKey h.port.portId q)).getD []

/-- In some run the frame is all the core receives, in some buffer that
holds it, and the driver accepts `out`, for whatever port. -/
def Forwards (h : Hop) (bytes out : List UInt8) : Prop :=
  ∃ tscHz entry ticks slots o s m p,
    h.thread.runProcessing tscHz entry ticks (Lcore.start slots) = (o, s)
      ∧ s.rxPackets = [m] ∧ m.buf.headroom.length = pktmbufHeadroom ∧ m.buf.data = bytes
      ∧ some out ∈ s.sent p

end Hop

theorem foldl_pushBehind_filter (k : Nat) : ∀ (actions : List Action) (x : List UInt8),
    (actions.filter Action.isPush).foldl (pushBehind k) x = actions.foldl (pushBehind k) x
  | [], _ => rfl
  | .drop :: actions, x => foldl_pushBehind_filter k actions x
  | .output _ :: actions, x => foldl_pushBehind_filter k actions x
  | .pushVlan _ :: actions, _ => foldl_pushBehind_filter k actions _
  | .pushMpls _ :: actions, _ => foldl_pushBehind_filter k actions _

section Forwards

variable {h : Hop} {file : Option Text} {f : TaggedFrame} {ip l4 payload : List UInt8}
  {q : Protocol}

theorem Hop.startsWithTag (hserves : h.thread.Serves file h.port) (q : Protocol) :
    ∀ w ∈ vlanWords (h.actions q), StartsWithTag w := by
  rw [Hop.actions]
  cases hget : getActions h.thread.manager.rules (ruleKey h.port.portId q) with
  | none => exact fun w hw => absurd hw List.not_mem_nil
  | some actions =>
      obtain ⟨line, right, -, hparse⟩ := line_of_getActions hserves.tables.1 hget
      exact startsWithTag_of_parseActions hparse

/-- The walk finds the headers, and the analysis the protocol. -/
theorem prepare_analyze (hcarries : f.Carries ip l4 payload) (htags : f.tags.length ≤ 28)
    (hends : ¬ EndsEarly payload) (hq : Classified payload q) {m : Mbuf}
    (hdata : m.data = f.bytes) :
    ∃ m', m.prepare = some (true, m') ∧ m'.analyze = some q ∧ m'.data = f.bytes
      ∧ m'.l2Len.toNat = 14 + 4 * f.tags.length ∧ m'.headroom = m.headroom := by
  obtain ⟨m', hprep, hl2, hl3, hl4, hpayload, -⟩ := prepare_of_carries hdata hcarries htags
  obtain ⟨hdata', -, hhead⟩ := prepare_taggedFrame hdata hprep htags
  have hlen : m'.headersLen ≤ m'.pktLen := by
    have hbytes : f.bytes.length
        = 14 + 4 * f.tags.length + (ip.length + (l4.length + payload.length)) := by
      rw [f.bytes_eq, hcarries.1, List.length_append, List.length_append, f.length_front,
        List.length_append, List.length_append, List.length_cons, List.length_singleton]
      omega
    refine Nat.le_trans (Nat.mod_le _ _) ?_
    rw [← m'.length_data, hdata', hbytes, hl2, hl3, hl4]
    omega
  exact ⟨m', hprep, analyze_of_classified hlen (hpayload ▸ hends) (hpayload ▸ hq), hdata', hl2,
    hhead⟩

/-- What a core asks for, whatever the buffer. -/
theorem Hop.ruleCopies_eq (hcarries : f.Carries ip l4 payload) (htags : f.tags.length ≤ 28)
    (hends : ¬ EndsEarly payload) (hq : Classified payload q) {m : Mbuf} (hdata : m.data = f.bytes)
    (hhead : 4 * ((h.actions q).filter Action.isPush).length ≤ m.headroom.length) :
    h.thread.ruleCopies h.port.portId m = ((h.actions q).filterMap Action.outputPort?).map fun p =>
      (p, f.macs ++ (h.actions q).foldl (pushBehind f.tags.length) (f.pushedBehind [])) := by
  obtain ⟨m', hprep, hanalyze, hdata', hl2, hhead'⟩ :=
    prepare_analyze hcarries htags hends hq hdata
  have hverdict := h.thread.verdict_of_analyze h.port.portId hprep hanalyze
  rw [Hop.actions] at hhead ⊢
  rw [Thread.ruleCopies, hverdict]
  cases hget : getActions h.thread.manager.rules (ruleKey h.port.portId q) with
  | none => rfl
  | some actions =>
      rw [hget, Option.getD_some] at hhead
      have hlen : 4 * f.tags.length + 2 ≤ (f.pushedBehind []).length := by
        have := length_flatMap_bytes f.tags
        rw [f.pushedBehind_nil, List.length_append, List.length_append, this, List.length_cons,
          List.length_singleton]
        omega
      have hpush : (pushAll m' (actions.filter Action.isPush)).data
          = f.macs ++ actions.foldl (pushBehind f.tags.length) (f.pushedBehind []) := by
        have hroom : 4 * ((actions.filter Action.isPush).filter Action.isPush).length
            ≤ m'.headroom.length := by
          simpa only [List.filter_filter, Bool.and_self, hhead'] using hhead
        rw [pushAll_data f.length_macs hl2 hlen hdata' hroom, foldl_pushBehind_filter]
      simp only [Option.elim_some, Option.getD_some, hpush]

/-- A frame in a buffer of its own. -/
def received (bytes : List UInt8) (h : bytes.length + pktmbufHeadroom < 2 ^ 16) : Mbuf where
  headroom := List.replicate pktmbufHeadroom 0
  room := bytes
  pktLen := bytes.length
  l2Len := 0
  l3Len := 0
  l4Len := 0
  pktLen_le := Nat.le_refl _
  size_lt := by rwa [List.length_replicate, Nat.add_comm]

/-- What is forwarded is what a rule asks for. -/
theorem Hop.Forwards.ruleCopies (hserves : h.thread.Serves file h.port) {bytes out : List UInt8}
    (hout : h.Forwards bytes out) : ∃ m : Mbuf, m.headroom.length = pktmbufHeadroom
      ∧ m.data = bytes ∧ ∃ p, (p, out) ∈ h.thread.ruleCopies h.port.portId m := by
  obtain ⟨tscHz, entry, ticks, slots, o, s, m, p, hrun, hrx, hhead, hdata, hsent⟩ := hout
  obtain ⟨m', hm', hrule⟩ := Thread.ruleCopies_of_sent hserves hrun hsent
  rw [hrx] at hm'
  obtain rfl := List.mem_singleton.mp hm'
  exact ⟨m'.buf, hhead, hdata, p, hrule⟩

theorem mem_outputPorts {actions : List Action} {p : UInt8} :
    p ∈ actions.filterMap Action.outputPort? ↔ .output p ∈ actions := by
  rw [List.mem_filterMap]
  constructor
  · rintro ⟨a, ha, hp⟩
    cases a with
    | output p' =>
        obtain rfl := Option.some.inj hp
        exact ha
    | drop | pushVlan _ | pushMpls _ => cases hp
  · exact fun hp => ⟨_, hp, rfl⟩

theorem Hop.Forwards.eq (hserves : h.thread.Serves file h.port)
    (hcarries : f.Carries ip l4 payload) (htags : f.tags.length ≤ 28)
    (hends : ¬ EndsEarly payload) (hq : Classified payload q)
    (hpushes : 4 * ((h.actions q).filter Action.isPush).length ≤ pktmbufHeadroom)
    {out : List UInt8} (hout : h.Forwards f.bytes out) : (∃ p, .output p ∈ h.actions q)
      ∧ out = f.macs ++ (h.actions q).foldl (pushBehind f.tags.length) (f.pushedBehind []) := by
  obtain ⟨m, hhead, hdata, p, hmem⟩ := hout.ruleCopies hserves
  rw [ruleCopies_eq hcarries htags hends hq hdata (by rwa [hhead])] at hmem
  obtain ⟨p', hp', heq⟩ := List.mem_map.mp hmem
  exact ⟨⟨p', mem_outputPorts.mp hp'⟩, (Prod.mk.inj heq).2.symm⟩

/-- The pool has buffers, and the driver takes what it is offered. -/
structure Hop.Ready (h : Hop) : Prop where
  alloc : ∀ n, (h.thread.driver.alloc n).isSome
  tx : ∀ k, maxPktsInQueue ≤ h.thread.driver.tx k

/-- With a pool and a driver that are ready a core forwards what its rule
asks for, as far as a buffer holds it. -/
theorem Hop.forwards_of_ready (hserves : h.thread.Serves file h.port) (hready : h.Ready)
    {m : Mbuf} (hhead : m.headroom.length = pktmbufHeadroom)
    (hread : (h.thread.verdict h.port.portId m).isSome) {p : UInt8} {out : List UInt8}
    (hp : p.toNat < h.thread.hw.nbPorts.toNat)
    (hmem : (p, out) ∈ h.thread.ruleCopies h.port.portId m)
    (hfit : ∀ e ∈ h.thread.ruleCopies h.port.portId m, e.2.length ≤ mbufDefaultDataroom) :
    h.Forwards m.data out := by
  obtain ⟨s, m', hrun, hrx, rfl, hcopies, hwaiting⟩ := Thread.exists_run_alone hserves hread
  refine ⟨_, _, _, _, _, s, m', p, hrun, hrx, hhead, rfl, ?_⟩
  have hsent := Thread.sent_eq_dueTo hserves hready.tx hrun p
  rw [hwaiting p (Hardware.mem_portIds.mpr hp), List.append_nil,
    Thread.dueTo_eq hready.alloc (by rwa [hcopies]), hcopies] at hsent
  rw [hsent]
  exact List.mem_map.mpr ⟨(p, out), List.mem_filter.mpr ⟨hmem, decide_eq_true rfl⟩, rfl⟩

theorem Hop.forwards_iff (hserves : h.thread.Serves file h.port) (hready : h.Ready)
    (hcarries : f.Carries ip l4 payload) (htags : f.tags.length ≤ 28)
    (hends : ¬ EndsEarly payload) (hq : Classified payload q)
    (hpushes : 4 * ((h.actions q).filter Action.isPush).length ≤ pktmbufHeadroom)
    (hbytes : f.bytes.length ≤ mbufDefaultDataroom)
    (hfit : (f.macs ++ (h.actions q).foldl (pushBehind f.tags.length) (f.pushedBehind [])).length
      ≤ mbufDefaultDataroom) {out : List UInt8} :
    h.Forwards f.bytes out ↔ (∃ p, .output p ∈ h.actions q)
      ∧ out = f.macs ++ (h.actions q).foldl (pushBehind f.tags.length) (f.pushedBehind []) := by
  refine ⟨Forwards.eq hserves hcarries htags hends hq hpushes, ?_⟩
  rintro ⟨⟨p, hp⟩, rfl⟩
  have hroom : f.bytes.length + pktmbufHeadroom < 2 ^ 16 :=
    (Nat.add_le_add_right hbytes pktmbufHeadroom).trans_lt (by decide)
  have hdata : (received f.bytes hroom).data = f.bytes := List.take_length
  have hhead : (received f.bytes hroom).headroom.length = pktmbufHeadroom := List.length_replicate
  have hcopies := ruleCopies_eq hcarries htags hends hq hdata (h := h) (by rwa [hhead])
  obtain ⟨m', hprep, hanalyze, -⟩ := prepare_analyze hcarries htags hends hq hdata
  have hread : (h.thread.verdict h.port.portId (received f.bytes hroom)).isSome := by
    rw [h.thread.verdict_of_analyze h.port.portId hprep hanalyze]
    rfl
  have hport : p.toNat < h.thread.hw.nbPorts.toNat := by
    rw [Hop.actions] at hp
    cases hget : getActions h.thread.manager.rules (ruleKey h.port.portId q) with
    | none =>
        rw [hget] at hp
        cases hp
    | some actions =>
        rw [hget] at hp
        exact (hserves.actions hget).2 p hp
  have hout := forwards_of_ready hserves hready hhead hread hport
    (by rw [hcopies]; exact List.mem_map_of_mem (mem_outputPorts.mpr hp)) (by
      rw [hcopies]
      exact List.forall_mem_map.mpr fun _ _ => hfit)
  rwa [hdata] at hout

theorem verdict_of_foreign (t : Thread) (portId : UInt8) (hforeign : f.Foreign)
    {m : Mbuf} (hdata : m.data = f.bytes) : t.verdict portId m = some .rejected := by
  obtain ⟨m', hprep⟩ := prepare_of_foreign hdata hforeign
  rw [Thread.verdict, hprep]
  rfl

/-- A core that does not know what the frame carries forwards nothing. -/
theorem Hop.not_forwards_foreign (hforeign : f.Foreign) (hserves : h.thread.Serves file h.port)
    (out : List UInt8) : ¬ h.Forwards f.bytes out := by
  intro hout
  obtain ⟨m, -, hdata, p, hmem⟩ := hout.ruleCopies hserves
  rw [Thread.ruleCopies, verdict_of_foreign h.thread h.port.portId hforeign hdata] at hmem
  cases hmem

/-- What leaves by a rule that pushes a label has the ethertype of
MPLS. -/
theorem exists_foreign (hserves : h.thread.Serves file h.port)
    (hlabel : mplsWords (h.actions q) ≠ []) :
    ∃ g : TaggedFrame, f.macs ++ (h.actions q).foldl (pushBehind f.tags.length) (f.pushedBehind [])
      = g.bytes ∧ g.Foreign := by
  obtain ⟨g, hfold, hmacs, htype⟩ := TaggedFrame.foldl_pushBehind_label
    (Hop.startsWithTag hserves q) (Nat.le_refl f.tags.length) (Or.inl hlabel)
  refine ⟨g, by rw [hfold, g.bytes_eq_pushedBehind, hmacs], Or.inl ?_⟩
  rw [htype]
  decide

/-- Behind a core that pushes a label, in whatever order, no core
forwards the frame. -/
theorem not_forwards_labelled (hserves : h.thread.Serves file h.port)
    (hcarries : f.Carries ip l4 payload) (htags : f.tags.length ≤ 28)
    (hends : ¬ EndsEarly payload) (hq : Classified payload q)
    (hpushes : 4 * ((h.actions q).filter Action.isPush).length ≤ pktmbufHeadroom)
    (hlabel : mplsWords (h.actions q) ≠ []) {out : List UInt8} (hout : h.Forwards f.bytes out)
    {next : Hop} {file' : Option Text} (hnext : next.thread.Serves file' next.port)
    (out' : List UInt8) : ¬ next.Forwards out out' := by
  obtain ⟨-, rfl⟩ := hout.eq hserves hcarries htags hends hq hpushes
  obtain ⟨g, hg, hforeign⟩ := exists_foreign hserves hlabel
  rw [hg]
  exact Hop.not_forwards_foreign hforeign hnext out'

/-- Where no label follows a tag, what leaves is what should. -/
theorem foldl_pushBehind_actions (hserves : h.thread.Serves file h.port)
    (horder : LabelsFirst (h.actions q)) :
    f.macs ++ (h.actions q).foldl (pushBehind f.tags.length) (f.pushedBehind [])
      = f.pushed (h.actions q) :=
  congrArg (f.macs ++ ·) ((foldl_pushBehind_iff f (Hop.startsWithTag hserves q)).mpr horder)

end Forwards

/-! ## Cores in a row -/

/-- The cores receive the frame one behind the other, and the last of
them sends `out`. -/
inductive Relayed : List Hop → List UInt8 → List UInt8 → Prop
  | here (bytes : List UInt8) : Relayed [] bytes bytes
  | hop {h : Hop} {hops : List Hop} {bytes out out' : List UInt8} (hout : h.Forwards bytes out)
      (hrest : Relayed hops out out') : Relayed (h :: hops) bytes out'

theorem relayed_nil_iff {bytes out : List UInt8} : Relayed [] bytes out ↔ out = bytes := by
  constructor
  · rintro ⟨⟩
    rfl
  · rintro rfl
    exact .here _

theorem relayed_cons_iff {h : Hop} {hops : List Hop} {bytes out : List UInt8} :
    Relayed (h :: hops) bytes out ↔ ∃ mid, h.Forwards bytes mid ∧ Relayed hops mid out := by
  constructor
  · rintro ⟨⟩
    exact ⟨_, ‹_›, ‹_›⟩
  · rintro ⟨mid, hmid, hrest⟩
    exact .hop hmid hrest

/-- All the actions on the way of a frame of this protocol. -/
def actionsOf (q : Protocol) (hops : List Hop) : List Action := hops.flatMap (·.actions q)

/-- Every core that receives the frame can count its tags, and has room
for what its rule pushes; its pool and its driver are ready, and a buffer
holds the frame to the end. The last one pushes its labels first. -/
structure Route (q : Protocol) (f : TaggedFrame) (hops : List Hop) : Prop where
  serves : ∀ h ∈ hops, ∃ file, h.thread.Serves file h.port
  ready : ∀ h ∈ hops, h.Ready
  tags_le : f.tags.length + (vlanWords (actionsOf q hops.dropLast)).length ≤ 28
  pushes_le : ∀ h ∈ hops, 4 * ((h.actions q).filter Action.isPush).length ≤ pktmbufHeadroom
  fits : (f.pushed (actionsOf q hops)).length ≤ mbufDefaultDataroom
  labelsFirst : ∀ h ∈ hops.getLast?, LabelsFirst (h.actions q)

section Route

variable {q : Protocol} {f : TaggedFrame} {ip l4 payload : List UInt8} {h next : Hop}
  {hops : List Hop}

theorem vlanWords_append (actions more : List Action) :
    vlanWords (actions ++ more) = vlanWords actions ++ vlanWords more := List.filterMap_append

theorem mplsWords_append (actions more : List Action) :
    mplsWords (actions ++ more) = mplsWords actions ++ mplsWords more := List.filterMap_append

theorem labelsFirst_of_mplsWords {actions : List Action} (hmpls : mplsWords actions = []) :
    LabelsFirst actions := by
  have hnone := List.filterMap_eq_nil_iff.mp hmpls
  exact List.pairwise_of_forall_mem_list fun _ _ b hb => Or.inr (hnone b hb)

theorem Route.bytes_fit (hroute : Route q f hops) : f.bytes.length ≤ mbufDefaultDataroom := by
  have hfits := hroute.fits
  rw [f.length_pushed] at hfits
  omega

/-- The way behind a core that pushes no label. -/
theorem Route.tail (hroute : Route q f (h :: next :: hops)) (hmpls : mplsWords (h.actions q) = [])
    (hws : ∀ w ∈ (vlanWords (h.actions q)).reverse, StartsWithTag w) :
    Route q (f.withTags (vlanWords (h.actions q)).reverse hws) (next :: hops) := by
  refine ⟨fun h' hh' => hroute.serves h' (List.mem_cons_of_mem h hh'),
    fun h' hh' => hroute.ready h' (List.mem_cons_of_mem h hh'), ?_,
    fun h' hh' => hroute.pushes_le h' (List.mem_cons_of_mem h hh'), ?_, hroute.labelsFirst⟩
  · have htags := hroute.tags_le
    rw [List.dropLast_cons_cons, actionsOf, List.flatMap_cons, vlanWords_append,
      List.length_append] at htags
    show ((vlanWords (h.actions q)).reverse ++ f.tags).length + _ ≤ 28
    rw [List.length_append, List.length_reverse, actionsOf]
    omega
  · rw [← TaggedFrame.pushed_append hmpls hws]
    exact hroute.fits

/-- A frame comes through exactly where every core outputs it and none
but the last has labelled it, and it has the tags and labels of the
whole way, as if one core had pushed them. -/
theorem relayed_iff (hroute : Route q f hops) (hcarries : f.Carries ip l4 payload)
    (hends : ¬ EndsEarly payload) (hq : Classified payload q) {out : List UInt8} :
    Relayed hops f.bytes out ↔ (∀ h ∈ hops, ∃ p, .output p ∈ h.actions q)
      ∧ mplsWords (actionsOf q hops.dropLast) = [] ∧ out = f.pushed (actionsOf q hops) := by
  induction hops generalizing f with
  | nil =>
      rw [relayed_nil_iff]
      exact ⟨fun h => ⟨fun _ h => absurd h List.not_mem_nil, rfl, h⟩, fun h => h.2.2⟩
  | cons h hops ih =>
      obtain ⟨file, hserves⟩ := hroute.serves h List.mem_cons_self
      have htags : f.tags.length ≤ 28 := by
        have := hroute.tags_le
        omega
      have hforwards := Hop.forwards_iff hserves (hroute.ready h List.mem_cons_self) hcarries htags
        hends hq (hroute.pushes_le h List.mem_cons_self) hroute.bytes_fit
      rw [relayed_cons_iff]
      cases hops with
      | nil =>
          have horder := foldl_pushBehind_actions (f := f) hserves (hroute.labelsFirst h rfl)
          have hfit : (f.pushed (h.actions q)).length ≤ mbufDefaultDataroom := by
            have hfits := hroute.fits
            rwa [actionsOf, List.flatMap_singleton] at hfits
          rw [horder] at hforwards
          simp only [hforwards hfit, relayed_nil_iff, actionsOf, List.flatMap_cons,
            List.flatMap_nil, List.append_nil, List.forall_mem_cons, List.dropLast_singleton]
          constructor
          · rintro ⟨mid, ⟨hport, rfl⟩, rfl⟩
            exact ⟨⟨hport, fun _ h => absurd h List.not_mem_nil⟩, rfl, rfl⟩
          · rintro ⟨⟨hport, -⟩, -, rfl⟩
            exact ⟨_, ⟨hport, rfl⟩, rfl⟩
      | cons next hops =>
          have hactions : actionsOf q (h :: next :: hops)
              = h.actions q ++ actionsOf q (next :: hops) := List.flatMap_cons
          rw [List.dropLast_cons_cons, hactions]
          have hfront : actionsOf q (h :: (next :: hops).dropLast)
              = h.actions q ++ actionsOf q (next :: hops).dropLast := List.flatMap_cons
          rw [hfront, mplsWords_append, List.append_eq_nil_iff]
          by_cases hmpls : mplsWords (h.actions q) = []
          · have hws : ∀ w ∈ (vlanWords (h.actions q)).reverse, StartsWithTag w := fun w hw =>
              Hop.startsWithTag hserves q w (List.mem_reverse.mp hw)
            have hmid : f.macs ++ (h.actions q).foldl (pushBehind f.tags.length) (f.pushedBehind [])
                = (f.withTags (vlanWords (h.actions q)).reverse hws).bytes := by
              rw [foldl_pushBehind_actions hserves (labelsFirst_of_mplsWords hmpls),
                TaggedFrame.pushed_eq_bytes hmpls hws]
            have htail := hroute.tail hmpls hws
            have hrest := ih htail (hcarries.withTags _ hws)
            rw [← TaggedFrame.pushed_append hmpls hws] at hrest
            rw [hmid] at hforwards
            simp only [hforwards htail.bytes_fit, List.forall_mem_cons (l := next :: hops)]
            constructor
            · rintro ⟨mid, ⟨hport, rfl⟩, hrelayed⟩
              obtain ⟨hports, hlabels, hout⟩ := hrest.mp hrelayed
              exact ⟨⟨hport, hports⟩, ⟨hmpls, hlabels⟩, hout⟩
            · rintro ⟨⟨hport, hports⟩, ⟨-, hlabels⟩, hout⟩
              exact ⟨_, ⟨hport, rfl⟩, hrest.mpr ⟨hports, hlabels, hout⟩⟩
          · refine iff_of_false ?_ fun hright => hmpls hright.2.1.1
            rintro ⟨mid, hmid, hrest⟩
            obtain ⟨out', hout', -⟩ := relayed_cons_iff.mp hrest
            obtain ⟨file', hnext⟩ := hroute.serves next (List.mem_cons_of_mem h List.mem_cons_self)
            exact not_forwards_labelled hserves hcarries htags hends hq
              (hroute.pushes_le h List.mem_cons_self) hmpls hmid hnext out' hout'

end Route

/-! ## Two cores in a row -/

theorem udpFrame_carries :
    udpFrame.Carries (0x45 :: List.replicate 8 0 ++ 0x11 :: List.replicate 10 0)
      (List.replicate 8 0) [] :=
  ⟨rfl, 0x11, Or.inl ⟨by decide, by decide, _, rfl, by decide⟩, Or.inr ⟨rfl, rfl⟩⟩

theorem not_endsEarly_nil : ¬ EndsEarly [] := by
  rintro (hstays | ⟨hlong, -⟩)
  · exact hstays (Or.inl (by decide))
  · exact absurd hlong (by decide)

theorem classified_nil : Classified [] .unknown := by
  have hshort : ∀ n : Nat, 0 < n → ¬ n ≤ ([] : List UInt8).length := fun n hn =>
    Nat.not_le_of_lt hn
  refine Or.inr ⟨fun h => hshort 15 (by decide) h.1, Or.inr ⟨fun h => hshort 14 (by decide) h.1,
    Or.inr ⟨fun h => ?_, Or.inr ⟨fun h => hshort 15 (by decide) h.1, rfl⟩⟩⟩⟩
  exact hshort 12 (by decide) h.length_ge

/-- The core that tags what comes to the first port. -/
def tagHop : Hop := ⟨tagThread, ⟨0⟩⟩

theorem tagHop_actions : tagHop.actions .unknown = [.pushVlan 0x64700081, .output 1] := by
  decide +kernel

theorem relayed_iff_tagHop : Relayed [tagHop, tagHop] udpFrame.bytes
    (udpFrame.pushed [.pushVlan 0x64700081, .output 1, .pushVlan 0x64700081, .output 1]) := by
  have hall : actionsOf .unknown [tagHop, tagHop]
      = [.pushVlan 0x64700081, .output 1, .pushVlan 0x64700081, .output 1] := by
    simp only [actionsOf, List.flatMap_cons, List.flatMap_nil, tagHop_actions]
    rfl
  have hone : actionsOf .unknown [tagHop] = [.pushVlan 0x64700081, .output 1] := by
    simp only [actionsOf, List.flatMap_cons, List.flatMap_nil, tagHop_actions]
    rfl
  have hmem : ∀ h ∈ [tagHop, tagHop], h = tagHop := fun h hh => by simpa using hh
  have hroute : Route .unknown udpFrame [tagHop, tagHop] := by
    refine ⟨fun h hh => ?_, fun h hh => ?_, ?_, fun h hh => ?_, ?_, fun h hh => ?_⟩
    · rw [hmem h hh]
      exact ⟨_, tagThread_serves⟩
    · rw [hmem h hh]
      exact ⟨fun _ => rfl, fun _ => Nat.le_refl _⟩
    · rw [List.dropLast_cons_cons, List.dropLast_singleton, hone]
      decide
    · rw [hmem h hh, tagHop_actions]
      decide
    · rw [hall]
      decide +kernel
    · have hlast : h = tagHop := (Option.some.inj hh).symm
      rw [hlast, tagHop_actions]
      decide
  rw [← hall]
  refine (relayed_iff hroute udpFrame_carries not_endsEarly_nil classified_nil).mpr
    ⟨fun h hh => ⟨1, ?_⟩, ?_, rfl⟩
  · rw [hmem h hh, tagHop_actions]
    decide
  · rw [List.dropLast_cons_cons, List.dropLast_singleton, hone]
    rfl

end Yapas
