import Yapas.Execution

/-!
# The receive gate

A core reads its port only while the link is up, as far as it knows:
what it knows is the last report the driver gave it (`lastReport`). A
log is `Gated` when every reception in it follows a report that said so.

The loop keeps the report in a variable that nothing sets before the
first one, and the first one is due only when the link timer expires. So
a run is gated unless the variable happens to say that the link is up
and the first iteration comes too early to correct it; from then on the
variable is the last report (`LinkKnown`).
-/

namespace Yapas

/-! ## Reports -/

/-- The link status reported for a port. -/
def Event.report? (p : UInt8) : Event → Option Bool
  | .link q linkStatus => if q = p then some linkStatus else none
  | _ => none

def Event.isReception : Event → Bool
  | .rxBurst _ _ => true
  | _ => false

theorem exists_rxBurst_of_head : ∀ {trace : List Event},
    trace.head?.any Event.isReception = true → ∃ p ms after, trace = .rxBurst p ms :: after
  | .rxBurst p ms :: after, _ => ⟨p, ms, after, rfl⟩

def lastReport (p : UInt8) (trace : List Event) : Option Bool :=
  (trace.filterMap (Event.report? p)).getLast?

/-- Before every reception from a port the last report said that its
link is up. -/
def Gated (trace : List Event) : Prop :=
  ∀ before p ms after, trace = before ++ .rxBurst p ms :: after →
    lastReport p before = some true

theorem gated_nil : Gated [] := by
  intro before p ms after h
  simp at h

theorem gated_concat {trace : List Event} {e : Event} : Gated (trace ++ [e])
    ↔ Gated trace ∧ ∀ p ms, e = .rxBurst p ms → lastReport p trace = some true := by
  constructor
  · intro h
    refine ⟨fun before p ms after htrace => ?_, ?_⟩
    · refine h before p ms (after ++ [e]) ?_
      rw [htrace, List.append_assoc, List.cons_append]
    · rintro p ms rfl
      exact h trace p ms [] rfl
  · rintro ⟨h, he⟩ before p ms after htrace
    rcases List.eq_nil_or_concat after with rfl | ⟨after', e', rfl⟩
    · obtain ⟨rfl, hlast⟩ := List.append_inj' htrace rfl
      exact he p ms (List.cons.inj hlast).1
    · rw [List.concat_eq_append, ← List.cons_append, ← List.append_assoc] at htrace
      obtain ⟨htrace, -⟩ := List.append_inj' htrace rfl
      exact h before p ms after' htrace

theorem Gated.of_append : ∀ {trace more : List Event}, Gated (trace ++ more) → Gated trace := by
  intro trace more h before p ms after htrace
  refine h before p ms (after ++ more) ?_
  rw [htrace, List.append_assoc, List.cons_append]

theorem lastReport_concat {p : UInt8} {trace : List Event} {e : Event}
    (h : e.report? p = none) : lastReport p (trace ++ [e]) = lastReport p trace := by
  rw [lastReport, List.filterMap_append, List.filterMap_cons_none h, List.filterMap_nil,
    List.append_nil, lastReport]

theorem lastReport_link (p : UInt8) (trace : List Event) (linkStatus : Bool) :
    lastReport p (trace ++ [.link p linkStatus]) = some linkStatus := by
  have hreport : Event.report? p (.link p linkStatus) = some linkStatus := if_pos rfl
  rw [lastReport, List.filterMap_append, List.filterMap_cons_some hreport, List.filterMap_nil,
    List.getLast?_append, List.getLast?_singleton, Option.some_or]

/-! ## What the loop does between receptions and reports -/

/-- Neither a reception nor a report. -/
def Event.isAside : Event → Bool
  | .rxBurst _ _ => false
  | .link _ _ => false
  | _ => true

theorem report?_of_isAside {p : UInt8} {e : Event} (h : e.isAside = true) :
    e.report? p = none := by
  cases e with
  | rxBurst _ _ | link _ _ => cases h
  | _ => rfl

theorem not_rxBurst_of_isAside {p : UInt8} {ms : List Packet} {e : Event}
    (h : e.isAside = true) : e ≠ .rxBurst p ms := by
  rintro rfl
  cases h

/-- The log is gated, and a link taken for up was reported up. -/
def LinkKnown (p : UInt8) (linkStatus : Bool) (trace : List Event) : Prop :=
  Gated trace ∧ (linkStatus = true → lastReport p trace = some true)

theorem LinkKnown.aside {p : UInt8} {linkStatus : Bool} {trace : List Event} {e : Event}
    (h : LinkKnown p linkStatus trace) (he : e.isAside = true) :
    LinkKnown p linkStatus (trace ++ [e]) := by
  refine ⟨gated_concat.mpr ⟨h.1, fun _ _ hrx => absurd hrx (not_rxBurst_of_isAside he)⟩, ?_⟩
  rw [lastReport_concat (report?_of_isAside he)]
  exact h.2

namespace Thread

variable {t : Thread} {port : Port}

def Aside {α : Type} (p : Proc Lcore α) : Prop :=
  Proc.Adds Lcore.trace (fun e => e.isAside = true) p

theorem Works.isAside {α : Type} {p : Proc Lcore α} (h : Works p) : Aside p :=
  h.mono fun e he => by
    cases e with
    | alloc _ | copied _ | free _ | tx _ _ => rfl
    | rxBurst _ _ | stats _ _ _ | link _ _ | printStats _ => cases he

theorem aside_emit {e : Event} (h : e.isAside = true) : Aside (emit e) := adds_emit h

theorem aside_processPacket (portId : UInt8) (m : Ptr) : Aside (t.processPacket portId m) := by
  refine (Proc.Adds.ofOption _).bind fun m => (Proc.Adds.ofOption _).bind fun r => ?_
  obtain ⟨prepared, buf⟩ := r
  cases prepared with
  | false => exact aside_emit rfl
  | true =>
      refine (Proc.Adds.ofOption _).bind fun protocol => (Proc.Adds.ofOption _).bind fun port => ?_
      have hstats : Aside (t.updateProtocolStats port protocol) := by
        cases protocol with
        | unknown => exact .pure
        | http | sip | rtp | rtsp => exact aside_emit rfl
      refine hstats.bind fun _ => ?_
      cases getActions t.manager.rules (ruleKey portId protocol) with
      | none => exact .pure
      | some actions =>
          exact (works_executeActions actions buf).isAside.bind fun _ => aside_emit rfl

theorem aside_processPackets (queue : PortQueue Ptr) (portId : UInt8) :
    Aside (t.processPackets queue portId) :=
  (Proc.Adds.foldlM (fun _ m => aside_processPacket portId m) _ _).bind fun _ => .pure

theorem Aside.known {α : Type} {p : Proc Lcore α} (h : Aside p) (portId : UInt8)
    (linkStatus : Bool) :
    Proc.Meets (fun s => LinkKnown portId linkStatus s.trace) p
      (fun _ s => LinkKnown portId linkStatus s.trace) fun s => Gated s.trace :=
  (h.meets fun _ _ hes he => hes.aside he).weaken (fun _ hs => hs) (fun _ _ hs => hs)
    fun _ hs => hs.1

/-! ## One iteration -/

/-- The log is gated, and a link taken for up was reported up or is
about to be reported. -/
def LinkPending (p : UInt8) (linkStatus : Bool) (due : Prop) (trace : List Event) : Prop :=
  Gated trace ∧ (linkStatus = true → lastReport p trace = some true ∨ due)

theorem linkTimer_known (port : Port) (l : Locals) (tick : Tick) (diffTsc : UInt64)
    {E : Lcore → Prop} :
    Proc.Meets
      (fun s => LinkPending port.portId l.linkStatus (timerPeriod ≤ l.timerTsc + diffTsc) s.trace)
      (linkTimer port l tick diffTsc)
      (fun l' s => LinkKnown port.portId l'.linkStatus s.trace) E := by
  rw [linkTimer]
  split
  · refine .of_run fun s hs => ⟨_, _, rfl, ?_, ?_⟩
    · exact gated_concat.mpr ⟨hs.1, fun _ _ he => by cases he⟩
    · rintro hup
      have hup : tick.linkStatus = true := hup
      rw [← hup]
      exact lastReport_link port.portId s.trace tick.linkStatus
  · rename_i hdue
    exact .pure fun s hs => ⟨hs.1, fun hup => (hs.2 hup).resolve_right hdue⟩

theorem statsTimer_known (l : Locals) (diffTsc : UInt64) {E : Lcore → Prop} :
    Proc.Meets (fun s => LinkKnown port.portId l.linkStatus s.trace) (t.statsTimer l diffTsc)
      (fun l' s => LinkKnown port.portId l'.linkStatus s.trace) E := by
  rw [statsTimer]
  split
  · split
    · exact .of_run fun s hs => ⟨_, _, rfl, hs.aside rfl⟩
    · exact .pure fun s hs => hs
  · exact .pure fun s hs => hs

theorem drain_known (tscHz : UInt64) (l : Locals) (tick : Tick) :
    Proc.Meets (fun s => LinkPending port.portId l.linkStatus (LinkDue tscHz l tick) s.trace)
      (t.drain tscHz port l tick)
      (fun l' s => LinkKnown port.portId l'.linkStatus s.trace) fun s => Gated s.trace := by
  simp only [drain, LinkDue]
  split
  · rename_i hdrain
    have hflush : Proc.Meets
        (fun s => LinkPending port.portId l.linkStatus
          (timerPeriod ≤ l.timerTsc + (tick.curTsc - l.prevTsc)) s.trace) t.flush
        (fun _ s => LinkPending port.portId l.linkStatus
          (timerPeriod ≤ l.timerTsc + (tick.curTsc - l.prevTsc)) s.trace)
        fun s => Gated s.trace := by
      refine (works_flush.isAside.meets (I := LinkPending port.portId l.linkStatus _)
        fun trace e hs he => ⟨?_, ?_⟩).weaken (fun _ hs => hs) (fun _ _ hs => hs) fun _ hs => hs.1
      · exact gated_concat.mpr ⟨hs.1, fun _ _ hrx => absurd hrx (not_rxBurst_of_isAside he)⟩
      · rw [lastReport_concat (report?_of_isAside he)]
        exact hs.2
    refine Proc.Meets.bind (hflush.weaken (fun s hs => ⟨hs.1, fun hup => ?_⟩)
      (fun _ _ hs => hs) fun _ hs => hs) fun _ => ?_
    · exact (hs.2 hup).imp_right And.right
    · have hlink : Proc.Meets _ (linkTimer port { l with prevTsc := tick.curTsc } tick
          (tick.curTsc - l.prevTsc)) _ fun s => Gated s.trace :=
        linkTimer_known port { l with prevTsc := tick.curTsc } tick (tick.curTsc - l.prevTsc)
      exact hlink.bind fun l' => statsTimer_known l' _
  · rename_i hdrain
    exact .pure fun s hs => ⟨hs.1, fun hup => (hs.2 hup).resolve_right fun h => hdrain h.1⟩

theorem receivePackets_known (queue : PortQueue Ptr) (tick : Tick) {E : Lcore → Prop} :
    Proc.Meets (fun s => LinkKnown port.portId true s.trace) (receivePackets port queue tick)
      (fun _ s => LinkKnown port.portId true s.trace) E := by
  refine .of_run fun s hs => ⟨_, _, rfl, ?_, fun _ => ?_⟩
  · refine gated_concat.mpr ⟨hs.1, ?_⟩
    rintro p ms he
    obtain ⟨rfl, -⟩ := Event.rxBurst.inj he
    exact hs.2 rfl
  · exact (lastReport_concat rfl).trans (hs.2 rfl)

theorem poll_known (l : Locals) (tick : Tick) :
    Proc.Meets (fun s => LinkKnown port.portId l.linkStatus s.trace) (t.poll port l tick)
      (fun l' s => LinkKnown port.portId l'.linkStatus s.trace) fun s => Gated s.trace := by
  rw [poll]
  split
  · rename_i hup
    rw [hup]
    refine (receivePackets_known l.rxQueue tick).bind fun queue => ?_
    refine ((aside_processPackets queue port.portId).known port.portId true).bind fun queue' => ?_
    exact .pure fun s hs => ⟨hs.1, fun _ => hs.2 rfl⟩
  · exact .pure fun s hs => hs

theorem iteration_known (tscHz : UInt64) (l : Locals) (tick : Tick) :
    Proc.Meets (fun s => LinkPending port.portId l.linkStatus (LinkDue tscHz l tick) s.trace)
      (t.iteration tscHz port l tick)
      (fun l' s => LinkKnown port.portId l'.linkStatus s.trace) fun s => Gated s.trace :=
  (drain_known tscHz l tick).bind fun l' => poll_known l' tick

theorem iterations_known (tscHz : UInt64) (ticks : List Tick) (l : Locals) :
    Proc.Meets (fun s => LinkKnown port.portId l.linkStatus s.trace)
      (ticks.foldlM (t.iteration tscHz port) l)
      (fun l' s => LinkKnown port.portId l'.linkStatus s.trace) fun s => Gated s.trace := by
  refine Proc.Meets.foldlM (I := fun _ (l' : Locals) (s : Lcore) =>
    LinkKnown port.portId l'.linkStatus s.trace) ?_
  intro _ tick _ l' _
  exact (iteration_known tscHz l' tick).weaken (fun s hs => ⟨hs.1, fun hup => Or.inl (hs.2 hup)⟩)
    (fun _ _ hs => hs) fun _ hs => hs

/-! ## A reception without a report -/

def Grows {α : Type} (p : Proc Lcore α) : Prop := Proc.Adds Lcore.trace (fun _ => True) p

/-- What has gone wrong stays in the log. -/
theorem Grows.ungated {α : Type} {p : Proc Lcore α} (h : Grows p) :
    Proc.Meets (fun s => ¬ Gated s.trace) p (fun _ s => ¬ Gated s.trace)
      fun s => ¬ Gated s.trace :=
  h.meets (I := fun trace => ¬ Gated trace) fun _ _ hes _ hgated => hes hgated.of_append

theorem grows_receivePackets (queue : PortQueue Ptr) (tick : Tick) :
    Grows (receivePackets port queue tick) := by
  refine adds_get.bind fun s => Proc.Adds.bind (.none fun _ => rfl) fun _ => ?_
  exact (adds_emit trivial).bind fun _ => .pure

theorem grows_iteration (tscHz : UInt64) (l : Locals) (tick : Tick) :
    Grows (t.iteration tscHz port l tick) := by
  have hdrain : Grows (t.drain tscHz port l tick) := by
    simp only [drain]
    split
    · exact (works_flush.mono fun _ _ => trivial).bind fun _ =>
        (adds_linkTimer port _ tick _ trivial).bind fun l' => adds_statsTimer l' _ trivial
    · exact .pure
  refine hdrain.bind fun l' => ?_
  rw [poll]
  split
  · refine (grows_receivePackets l'.rxQueue tick).bind fun queue => ?_
    exact ((aside_processPackets queue port.portId).mono fun _ _ => trivial).bind fun _ => .pure
  · exact .pure

/-- Without the link timer the part that is due now and then reports
nothing. -/
theorem aside_drain {tscHz : UInt64} {l : Locals} {tick : Tick} (hdue : ¬ LinkDue tscHz l tick) :
    Aside (t.drain tscHz port l tick) := by
  simp only [drain]
  split
  · rename_i hdrain
    have hlink : linkTimer port { l with prevTsc := tick.curTsc } tick (tick.curTsc - l.prevTsc)
        = pure { l with
            prevTsc := tick.curTsc
            timerTsc := l.timerTsc + (tick.curTsc - l.prevTsc) } :=
      if_neg fun hperiod => hdue ⟨hdrain, hperiod⟩
    have hstats : ∀ l' diffTsc, Aside (t.statsTimer l' diffTsc) :=
      fun l' diffTsc => adds_statsTimer l' diffTsc rfl
    rw [hlink]
    exact works_flush.isAside.bind fun _ => Proc.Adds.pure.bind fun l' => hstats l' _
  · exact .pure

/-- The port's link has not been reported up. -/
def Unreported (p : UInt8) (trace : List Event) : Prop := lastReport p trace ≠ some true

theorem Unreported.append {p : UInt8} {trace es : List Event} (h : Unreported p trace)
    (hes : ∀ e ∈ es, e.isAside = true) : Unreported p (trace ++ es) := by
  have hnone : es.filterMap (Event.report? p) = [] :=
    List.filterMap_eq_nil_iff.mpr fun e he => report?_of_isAside (hes e he)
  rw [Unreported, lastReport, List.filterMap_append, hnone, List.append_nil]
  exact h

theorem poll_ungated {l : Locals} (hup : l.linkStatus = true) (tick : Tick) :
    Proc.Meets (fun s => Unreported port.portId s.trace) (t.poll port l tick)
      (fun _ s => ¬ Gated s.trace) fun s => ¬ Gated s.trace := by
  rw [poll, if_pos hup]
  refine Proc.Meets.bind (Q := fun _ s => ¬ Gated s.trace) ?_ fun queue => ?_
  · refine .of_run fun s hs => ⟨_, _, rfl, fun hgated => ?_⟩
    exact hs ((gated_concat.mp hgated).2 port.portId _ rfl)
  · have hgrows : Grows (t.processPackets queue port.portId) :=
      (aside_processPackets queue port.portId).mono fun _ _ => trivial
    exact hgrows.ungated.bind fun _ => .pure fun _ hs => hs

section Serves

variable {file : Option Text}

/-- The first iteration reads the port on what was on the stack. -/
theorem iteration_ungated (h : t.Serves file port) {tscHz : UInt64} {l : Locals} {tick : Tick}
    (hup : l.linkStatus = true) (hdue : ¬ LinkDue tscHz l tick) :
    Proc.Meets (fun s => t.AllWorked port.portId s ∧ Unreported port.portId s.trace)
      (t.iteration tscHz port l tick) (fun _ s => ¬ Gated s.trace) fun s => ¬ Gated s.trace := by
  refine Proc.Meets.bind
    (Q := fun l' s => l'.linkStatus = true ∧ Unreported port.portId s.trace) ?_ fun l' => ?_
  · rintro s ⟨⟨rx, hs⟩, hno⟩
    obtain ⟨hreturn, hstop⟩ := drain_meets h tscHz l tick (E := fun _ => False) s hs.ledger
    have haside : Aside (t.drain tscHz port l tick) := aside_drain hdue
    obtain ⟨es, hes, hall⟩ := haside s
    refine ⟨fun l' s' hrun => ?_, fun s' hrun => (hstop s' hrun).elim⟩
    rw [hrun] at hes
    refine ⟨((hreturn l' s' hrun).1.trans (if_neg hdue)).trans hup, ?_⟩
    rw [hes]
    exact hno.append hall
  · rintro s ⟨hup', hno⟩
    exact poll_ungated hup' tick s hno

/-- A run whose first iteration knows the link, or asks for it. -/
theorem run_gated (h : t.Serves file port) (tscHz : UInt64) (entry : Entry) (tick : Tick)
    (ticks : List Tick) :
    Proc.Meets (fun s => LinkPending port.portId entry.linkStatus
        (LinkDue tscHz entry.locals tick) s.trace)
      (t.runProcessing tscHz entry (tick :: ticks)) (fun _ s => Gated s.trace)
      fun s => Gated s.trace := by
  simp only [runProcessing, h.port_eq, List.foldlM_cons]
  refine Proc.Meets.bind (Q := fun l' s => LinkKnown port.portId l'.linkStatus s.trace) ?_
    fun _ => .pure fun _ hs => hs.1
  exact (iteration_known tscHz entry.locals tick).bind fun l' => iterations_known tscHz ticks l'

theorem run_ungated (h : t.Serves file port) {tscHz : UInt64} {entry : Entry} {tick : Tick}
    (ticks : List Tick) (hup : entry.linkStatus = true)
    (hdue : ¬ LinkDue tscHz entry.locals tick) :
    Proc.Meets (fun s => t.AllWorked port.portId s ∧ Unreported port.portId s.trace)
      (t.runProcessing tscHz entry (tick :: ticks)) (fun _ s => ¬ Gated s.trace)
      fun s => ¬ Gated s.trace := by
  simp only [runProcessing, h.port_eq, List.foldlM_cons]
  refine Proc.Meets.bind (Q := fun _ s => ¬ Gated s.trace) ?_ fun _ => .pure fun _ hs => hs
  refine (iteration_ungated h (l := entry.locals) hup hdue).bind fun l' => ?_
  exact Grows.ungated (Proc.Adds.foldlM (fun l'' tick' => grows_iteration tscHz l'' tick') ticks l')

theorem gated_iff_of_serves (h : t.Serves file port) (tscHz : UInt64) (entry : Entry)
    (ticks : List Tick) (slots : UInt8 → Vector Ptr maxPktsInQueue) {o : Option Unit} {s : Lcore}
    (hrun : t.runProcessing tscHz entry ticks (Lcore.start slots) = (o, s)) :
    Gated s.trace ↔ (entry.linkStatus = true → ∀ tick ∈ ticks.head?,
      LinkDue tscHz entry.locals tick) := by
  cases ticks with
  | nil =>
      have hnone : Proc.Meets (fun s => Gated s.trace) (t.runProcessing tscHz entry [])
          (fun _ s => Gated s.trace) fun s => Gated s.trace := by
        rw [runProcessing, h.port_eq]
        exact .pure fun _ hs => hs
      exact iff_of_true (hnone.ends gated_nil hrun) fun _ _ htick => by cases htick
  | cons tick ticks =>
      constructor
      · intro hgated hup tick' htick'
        obtain rfl := Option.some.inj htick'
        by_contra hdue
        have hstart : t.AllWorked port.portId (Lcore.start slots) := ⟨[], worked_start t _ slots⟩
        have hno : Unreported port.portId (Lcore.start slots).trace := by
          intro hreport
          cases hreport
        exact (run_ungated h ticks hup hdue).ends ⟨hstart, hno⟩ hrun hgated
      · intro hdue
        refine (run_gated h tscHz entry tick ticks).ends ⟨gated_nil, fun hup => ?_⟩ hrun
        exact Or.inr (hdue hup tick rfl)

end Serves

/-- In a run every reception follows a report that the link is up
exactly when the core has no port, the link is not taken for up at the
start, or the first iteration already asks for it. -/
theorem gated_iff {file : Option Text}
    (hinit : packetManagerInitialize t.hw file t.manager.statsInterval = some t.manager)
    (tscHz : UInt64) (entry : Entry) (ticks : List Tick)
    (slots : UInt8 → Vector Ptr maxPktsInQueue) {o : Option Unit} {s : Lcore}
    (hrun : t.runProcessing tscHz entry ticks (Lcore.start slots) = (o, s)) :
    Gated s.trace ↔ ((t.manager.portManager.getPortByCore t.lcoreId).isSome →
      entry.linkStatus = true → ∀ tick ∈ ticks.head?, LinkDue tscHz entry.locals tick) := by
  cases hport : t.manager.portManager.getPortByCore t.lcoreId with
  | none =>
      rw [runProcessing, hport] at hrun
      obtain rfl : Lcore.start slots = s := congrArg Prod.snd hrun
      exact iff_of_true gated_nil fun hsome => by cases hsome
  | some port =>
      have hserves : t.Serves file port := ⟨hinit, hport⟩
      rw [gated_iff_of_serves hserves tscHz entry ticks slots hrun]
      exact ⟨fun h _ => h, fun h => h rfl⟩

end Thread

/-- The core of the tagging rule, with an idle tick in front of the one
that asks for the link. -/
def earlyRun (linkStatus : Bool) : Option Unit × Lcore :=
  tagThread.runProcessing 2000000000 ⟨0, linkStatus, noSlots⟩
    [{ udpTick with curTsc := 1000 }, udpTick] (Lcore.start fun _ => noSlots)

theorem gated_earlyRun : Gated (earlyRun false).2.trace :=
  (Thread.gated_iff tagThread_serves.initialized 2000000000 _ _ _
    (Prod.mk.eta (p := earlyRun false)).symm).mpr fun _ hup => by cases hup

/-- With a set bit on the stack the first packet is read before any
report. -/
theorem not_gated_earlyRun : ¬ Gated (earlyRun true).2.trace := by
  have hfirst : (earlyRun true).2.trace.head?.any Event.isReception = true := by decide +kernel
  intro h
  obtain ⟨p, ms, after, htrace⟩ := exists_rxBurst_of_head hfirst
  exact absurd (h [] p ms after htrace) nofun

end Yapas
