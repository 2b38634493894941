import Mathlib.Data.List.Chain
import Yapas.Execution

/-!
# The timers of a core

What the loop does from time to time: it flushes its queues, asks the
port for its link status and prints the statistics. The loop keeps the
counter of its last flush and adds up the time between flushes; as a
specification there are three clocks, each of which is due when its
period is over since it was due last (`periodic`), the second and the
third looked at only when the first is due. `run_timers` says that a log
is what these clocks make of the counter's values, although sums and
counter may wrap.
-/

namespace Yapas

theorem tsc_add (a b c : UInt64) : b - a + (c - b) = c - a := by
  grind

/-- The port and what was reported of its link. -/
def Event.linkReport? : Event → Option (UInt8 × Bool)
  | .link p linkStatus => some (p, linkStatus)
  | _ => none

/-- The core that prints. -/
def Event.printer? : Event → Option Nat
  | .printStats lcoreId => some lcoreId
  | _ => none

def Lcore.linkReports (s : Lcore) : List (UInt8 × Bool) := s.trace.filterMap Event.linkReport?

def Lcore.printers (s : Lcore) : List Nat := s.trace.filterMap Event.printer?

/-- No clock is due at it. -/
def Event.isUntimed (e : Event) : Bool := e.linkReport?.isNone && e.printer?.isNone

namespace Thread

/-! ## Clocks -/

/-- The ticks at which the time since the last of them is `due`; it
counts from `since` at first. -/
def periodic (due : UInt64 → Bool) : UInt64 → List Tick → List Tick
  | _, [] => []
  | since, tick :: ticks =>
      if due (tick.curTsc - since) then tick :: periodic due tick.curTsc ticks
      else periodic due since ticks

def lastTsc : UInt64 → List Tick → UInt64
  | since, [] => since
  | _, tick :: ticks => lastTsc tick.curTsc ticks

theorem lastTsc_concat (tick : Tick) : ∀ (since : UInt64) (ticks : List Tick),
    lastTsc since (ticks ++ [tick]) = tick.curTsc
  | _, [] => rfl
  | _, first :: ticks => lastTsc_concat tick first.curTsc ticks

theorem periodic_concat (due : UInt64 → Bool) (tick : Tick) :
    ∀ (since : UInt64) (ticks : List Tick), periodic due since (ticks ++ [tick])
      = periodic due since ticks
        ++ if due (tick.curTsc - lastTsc since (periodic due since ticks)) then [tick] else []
  | since, [] => rfl
  | since, first :: ticks => by
      rw [List.cons_append, periodic, periodic]
      split
      · rw [periodic_concat due tick first.curTsc ticks, List.cons_append, lastTsc]
      · rw [periodic_concat due tick since ticks]

/-- From each to the next the period is over. -/
theorem periodic_spaced (due : UInt64 → Bool) : ∀ (since : UInt64) (ticks : List Tick),
    ((periodic due since ticks).map Tick.curTsc).IsChain (fun a b => due (b - a) = true) ∧
      ∀ tsc ∈ ((periodic due since ticks).map Tick.curTsc).head?, due (tsc - since) = true
  | since, [] => ⟨.nil, by simp [periodic]⟩
  | since, tick :: ticks => by
      rw [periodic]
      split
      · rename_i hdue
        obtain ⟨hchain, hhead⟩ := periodic_spaced due tick.curTsc ticks
        rw [List.map_cons]
        exact ⟨List.isChain_cons.mpr ⟨hhead, hchain⟩, by simpa using hdue⟩
      · exact periodic_spaced due since ticks

/-- When the queues are flushed. -/
def flushTicks (tscHz since : UInt64) (ticks : List Tick) : List Tick :=
  periodic (fun tsc => decide (drainTsc tscHz ≤ tsc)) since ticks

def linkTicks (tscHz since : UInt64) (ticks : List Tick) : List Tick :=
  periodic (fun tsc => decide (timerPeriod ≤ tsc)) since (flushTicks tscHz since ticks)

/-- The core prints the statistics. -/
def Prints (t : Thread) : Prop :=
  0 < t.statsIntervalTsc ∧ t.lcoreId = t.manager.portManager.statsLcoreId

instance (t : Thread) : Decidable t.Prints := inferInstanceAs (Decidable (_ ∧ _))

def printTicks (t : Thread) (tscHz since : UInt64) (ticks : List Tick) : List Tick :=
  if t.Prints then
    periodic (fun tsc => decide (t.statsIntervalTsc < tsc)) since (flushTicks tscHz since ticks)
  else []

/-! ## The loop -/

variable {t : Thread} {port : Port}

def Untimed {α : Type} (p : Proc Lcore α) : Prop :=
  Proc.Adds Lcore.trace (fun e => e.isUntimed = true) p

theorem Works.untimed {α : Type} {p : Proc Lcore α} (h : Works p) : Untimed p :=
  h.mono fun e he => by
    cases e with
    | alloc _ | copied _ | free _ | tx _ _ => rfl
    | rxBurst _ _ | stats _ _ _ | link _ _ | printStats _ => cases he

theorem untimed_processPacket (portId : UInt8) (m : Ptr) : Untimed (t.processPacket portId m) := by
  refine (Proc.Adds.ofOption _).bind fun m => (Proc.Adds.ofOption _).bind fun r => ?_
  obtain ⟨prepared, buf⟩ := r
  cases prepared with
  | false => exact adds_emit rfl
  | true =>
      refine (Proc.Adds.ofOption _).bind fun protocol => (Proc.Adds.ofOption _).bind fun port => ?_
      have hstats : Untimed (t.updateProtocolStats port protocol) := by
        cases protocol with
        | unknown => exact .pure
        | http | sip | rtp | rtsp => exact adds_emit rfl
      refine hstats.bind fun _ => ?_
      cases getActions t.manager.rules (ruleKey portId protocol) with
      | none => exact .pure
      | some actions => exact (works_executeActions actions buf).untimed.bind fun _ => adds_emit rfl

/-- The reports and the prints are those of the ticks. -/
structure Logged (t : Thread) (port : Port) (tscHz since : UInt64) (ticks : List Tick)
    (s : Lcore) : Prop where
  reports : s.linkReports
    = (linkTicks tscHz since ticks).map fun tick => (port.portId, tick.linkStatus)
  prints : s.printers = List.replicate (t.printTicks tscHz since ticks).length t.lcoreId

/-- The variables of the loop are where the clocks are. -/
structure OnTime (t : Thread) (tscHz since : UInt64) (ticks : List Tick) (l : Locals) : Prop where
  prev_eq : l.prevTsc = lastTsc since (flushTicks tscHz since ticks)
  timer_eq : l.timerTsc = l.prevTsc - lastTsc since (linkTicks tscHz since ticks)
  stats_eq : t.Prints → l.timerStatsTsc = l.prevTsc - lastTsc since (t.printTicks tscHz since ticks)

def Timed (t : Thread) (port : Port) (tscHz since : UInt64) (ticks : List Tick) (l : Locals)
    (s : Lcore) : Prop :=
  t.OnTime tscHz since ticks l ∧ t.Logged port tscHz since ticks s

section Steps

variable {tscHz since : UInt64} {ticks : List Tick} {tick : Tick} {l : Locals} {s : Lcore}

theorem Untimed.logged {α : Type} {p : Proc Lcore α} (h : Untimed p) :
    Proc.Meets (t.Logged port tscHz since ticks) p (fun _ => t.Logged port tscHz since ticks)
      (t.Logged port tscHz since ticks) := by
  have hkeep := h.meets (I := fun trace =>
    trace.filterMap Event.linkReport?
        = (linkTicks tscHz since ticks).map (fun tick => (port.portId, tick.linkStatus)) ∧
      trace.filterMap Event.printer?
        = List.replicate (t.printTicks tscHz since ticks).length t.lcoreId) ?_
  · exact hkeep.weaken (fun s hs => ⟨hs.reports, hs.prints⟩) (fun _ s hs => ⟨hs.1, hs.2⟩)
      fun s hs => ⟨hs.1, hs.2⟩
  · rintro es e ⟨hreports, hprints⟩ he
    rw [Event.isUntimed, Bool.and_eq_true, Option.isNone_iff_eq_none,
      Option.isNone_iff_eq_none] at he
    rw [List.filterMap_append, List.filterMap_append, List.filterMap_cons_none he.1,
      List.filterMap_cons_none he.2]
    simpa using ⟨hreports, hprints⟩

theorem linkReports_emit (s : Lcore) (e : Event) :
    Lcore.linkReports { s with trace := s.trace ++ [e] }
      = s.linkReports ++ e.linkReport?.toList := by
  rw [Lcore.linkReports, List.filterMap_append]
  cases h : e.linkReport? <;> simp [h, Lcore.linkReports]

theorem printers_emit (s : Lcore) (e : Event) :
    Lcore.printers { s with trace := s.trace ++ [e] } = s.printers ++ e.printer?.toList := by
  rw [Lcore.printers, List.filterMap_append]
  cases h : e.printer? <;> simp [h, Lcore.printers]

/-! ## One iteration -/

/-- Where no flush is due no clock is. -/
theorem Timed.not_due (h : t.Timed port tscHz since ticks l s)
    (hdue : ¬ drainTsc tscHz ≤ tick.curTsc - l.prevTsc) :
    t.Timed port tscHz since (ticks ++ [tick]) l s := by
  have hflush : flushTicks tscHz since (ticks ++ [tick]) = flushTicks tscHz since ticks := by
    rw [flushTicks, periodic_concat, ← flushTicks, ← h.1.prev_eq, if_neg (by simpa using hdue),
      List.append_nil]
  have hlink : linkTicks tscHz since (ticks ++ [tick]) = linkTicks tscHz since ticks := by
    rw [linkTicks, hflush, linkTicks]
  have hprint : t.printTicks tscHz since (ticks ++ [tick]) = t.printTicks tscHz since ticks := by
    rw [printTicks, hflush, printTicks]
  obtain ⟨⟨hprev, htimer, hstats⟩, hreports, hprints⟩ := h
  constructor
  · constructor
    · rw [hflush, hprev]
    · rw [hlink, htimer]
    · rw [hprint]
      exact hstats
  · constructor
    · rw [hlink, hreports]
    · rw [hprint, hprints]

/-- The link clock has been looked at, that of the statistics has not. -/
structure Halfway (t : Thread) (port : Port) (tscHz since : UInt64) (ticks : List Tick)
    (tick : Tick) (old l : Locals) (s : Lcore) : Prop where
  prev_eq : l.prevTsc = tick.curTsc
  timer_eq : l.timerTsc = tick.curTsc - lastTsc since (linkTicks tscHz since (ticks ++ [tick]))
  stats_eq : l.timerStatsTsc = old.timerStatsTsc
  reports : s.linkReports = (linkTicks tscHz since (ticks ++ [tick])).map fun tick =>
    (port.portId, tick.linkStatus)
  prints : s.printers = List.replicate (t.printTicks tscHz since ticks).length t.lcoreId

variable (hflush : flushTicks tscHz since (ticks ++ [tick])
  = flushTicks tscHz since ticks ++ [tick])

include hflush

theorem linkTimer_timed {E : Lcore → Prop} :
    Proc.Meets (t.Timed port tscHz since ticks l)
      (linkTimer port { l with prevTsc := tick.curTsc } tick (tick.curTsc - l.prevTsc))
      (t.Halfway port tscHz since ticks tick l) E := by
  intro s hs
  obtain ⟨⟨-, htimer, -⟩, hreports, hprints⟩ := hs
  have hsum : l.timerTsc + (tick.curTsc - l.prevTsc)
      = tick.curTsc - lastTsc since (linkTicks tscHz since ticks) := by rw [htimer, tsc_add]
  have hlink : linkTicks tscHz since (ticks ++ [tick]) = linkTicks tscHz since ticks
      ++ if timerPeriod ≤ l.timerTsc + (tick.curTsc - l.prevTsc) then [tick] else [] := by
    rw [linkTicks, hflush, periodic_concat, ← linkTicks, hsum]
    simp only [decide_eq_true_eq]
  rw [linkTimer]
  by_cases hdue : timerPeriod ≤ l.timerTsc + (tick.curTsc - l.prevTsc)
  · rw [if_pos hdue] at hlink ⊢
    refine Proc.Meets.of_run (P := fun s' => s' = s) ?_ s rfl
    rintro s' rfl
    refine ⟨_, _, rfl, rfl, ?_, rfl, ?_, ?_⟩
    · rw [hlink, lastTsc_concat, UInt64.sub_self]
    · rw [linkReports_emit, hreports, hlink, List.map_append]
      rfl
    · rw [printers_emit, hprints]
      exact List.append_nil _
  · rw [if_neg hdue] at hlink ⊢
    refine Proc.Meets.pure (P := fun s' => s' = s) ?_ s rfl
    rintro s' rfl
    rw [List.append_nil] at hlink
    refine ⟨rfl, ?_, rfl, ?_, hprints⟩
    · rw [hlink]
      exact hsum
    · rw [hlink]
      exact hreports

theorem printTicks_concat (hprints : t.Prints) :
    t.printTicks tscHz since (ticks ++ [tick]) = t.printTicks tscHz since ticks
      ++ if t.statsIntervalTsc < tick.curTsc - lastTsc since (t.printTicks tscHz since ticks) then
        [tick] else [] := by
  rw [printTicks, printTicks, if_pos hprints, if_pos hprints, hflush, periodic_concat]
  simp only [decide_eq_true_eq]

theorem statsTimer_timed {l' : Locals} {E : Lcore → Prop}
    (hstats : t.Prints →
      l.timerStatsTsc = l.prevTsc - lastTsc since (t.printTicks tscHz since ticks)) :
    Proc.Meets (t.Halfway port tscHz since ticks tick l l')
      (t.statsTimer l' (tick.curTsc - l.prevTsc))
      (t.Timed port tscHz since (ticks ++ [tick])) E := by
  have hlast : lastTsc since (flushTicks tscHz since (ticks ++ [tick])) = tick.curTsc := by
    rw [hflush, lastTsc_concat]
  have hprev : ∀ {s}, t.Halfway port tscHz since ticks tick l l' s →
      l'.prevTsc = lastTsc since (flushTicks tscHz since (ticks ++ [tick])) := fun hs =>
    hs.prev_eq.trans hlast.symm
  have htimer : ∀ {s}, t.Halfway port tscHz since ticks tick l l' s →
      l'.timerTsc = l'.prevTsc - lastTsc since (linkTicks tscHz since (ticks ++ [tick])) :=
    fun hs => hs.timer_eq.trans (by rw [← hs.prev_eq])
  by_cases hprints : t.Prints
  · have hsum : ∀ {s}, t.Halfway port tscHz since ticks tick l l' s →
        l'.timerStatsTsc + (tick.curTsc - l.prevTsc)
          = tick.curTsc - lastTsc since (t.printTicks tscHz since ticks) := fun hs => by
      rw [hs.stats_eq, hstats hprints, tsc_add]
    have hconcat := printTicks_concat hflush hprints
    by_cases hdue : t.statsIntervalTsc < l'.timerStatsTsc + (tick.curTsc - l.prevTsc)
    · have hprog : t.statsTimer l' (tick.curTsc - l.prevTsc) = (do
          emit (.printStats t.lcoreId)
          return { l' with timerStatsTsc := 0 }) := (if_pos hprints).trans (if_pos hdue)
      rw [hprog]
      refine .of_run fun s hs => ⟨_, _, rfl, ⟨hprev hs, htimer hs, fun _ => ?_⟩, ?_, ?_⟩
      · rw [hsum hs] at hdue
        rw [hconcat, if_pos hdue, lastTsc_concat]
        show 0 = l'.prevTsc - tick.curTsc
        rw [hs.prev_eq, UInt64.sub_self]
      · rw [linkReports_emit, hs.reports]
        exact List.append_nil _
      · rw [hsum hs] at hdue
        rw [printers_emit, hs.prints, hconcat, if_pos hdue, List.length_append,
          List.length_singleton, List.replicate_succ']
        rfl
    · have hprog : t.statsTimer l' (tick.curTsc - l.prevTsc)
          = pure { l' with timerStatsTsc := l'.timerStatsTsc + (tick.curTsc - l.prevTsc) } :=
        (if_pos hprints).trans (if_neg hdue)
      rw [hprog]
      refine .pure fun s hs => ?_
      rw [hsum hs] at hdue
      rw [if_neg hdue, List.append_nil] at hconcat
      refine ⟨⟨hprev hs, htimer hs, fun _ => ?_⟩, hs.reports, ?_⟩
      · rw [hconcat]
        exact (hsum hs).trans (by rw [hs.prev_eq])
      · rw [hconcat]
        exact hs.prints
  · have hnone : ∀ ticks, t.printTicks tscHz since ticks = [] := fun _ => if_neg hprints
    have hprog : t.statsTimer l' (tick.curTsc - l.prevTsc) = pure l' := if_neg hprints
    rw [hprog]
    refine .pure fun s hs => ⟨⟨hprev hs, htimer hs, fun h => absurd h hprints⟩, hs.reports, ?_⟩
    rw [hs.prints, hnone, hnone]

omit hflush

theorem drain_timed : Proc.Meets (t.Timed port tscHz since ticks l) (t.drain tscHz port l tick)
    (t.Timed port tscHz since (ticks ++ [tick])) (t.Logged port tscHz since ticks) := by
  simp only [drain]
  split
  · rename_i hdue
    intro s hs
    have hflush : flushTicks tscHz since (ticks ++ [tick])
        = flushTicks tscHz since ticks ++ [tick] := by
      rw [flushTicks, periodic_concat, ← flushTicks, ← hs.1.prev_eq, if_pos (by simpa using hdue)]
    refine Proc.Meets.bind (Q := fun _ => t.Timed port tscHz since ticks l) ?_ (fun _ => ?_) s hs
    · intro s hs
      refine (works_flush.untimed.logged).weaken (fun s hs => hs) (fun _ s' hs' => ⟨?_, hs'⟩)
        (fun _ => id) s hs.2
      exact hs.1
    · refine (linkTimer_timed hflush).bind fun l' => ?_
      exact statsTimer_timed hflush hs.1.stats_eq
  · rename_i hdue
    exact .pure fun s hs => hs.not_due hdue

theorem poll_timed : Proc.Meets (t.Timed port tscHz since ticks l) (t.poll port l tick)
    (t.Timed port tscHz since ticks) (t.Logged port tscHz since ticks) := by
  rw [poll]
  split
  · rintro s ⟨hl, hs⟩
    have hreceive : Untimed (receivePackets port l.rxQueue tick) := by
      refine adds_get.bind fun s => Proc.Adds.bind (.none fun _ => rfl) fun _ => ?_
      exact Proc.Adds.bind (adds_emit rfl) fun _ => .pure
    have hprocess : ∀ queue, Untimed (t.processPackets queue port.portId) := fun queue =>
      (Proc.Adds.foldlM (fun _ m => untimed_processPacket port.portId m) _ _).bind fun _ => .pure
    refine (hreceive.logged.bind fun queue => (hprocess queue).logged.bind fun queue' => ?_) s hs
    exact .pure fun s hs => ⟨⟨hl.prev_eq, hl.timer_eq, hl.stats_eq⟩, hs⟩
  · exact .pure fun s hs => hs

end Steps

/-- What a run keeps. -/
theorem iterations_timed (tscHz since : UInt64) (ticks : List Tick) (l : Locals) :
    Proc.Meets (t.Timed port tscHz since [] l) (ticks.foldlM (t.iteration tscHz port) l)
      (t.Timed port tscHz since ticks)
      fun s => ∃ pre, pre <+: ticks ∧ t.Logged port tscHz since pre s := by
  refine Proc.Meets.foldlM (I := fun pre l s => t.Timed port tscHz since pre l s) ?_
  rintro pre tick post l rfl
  have hstop : ∀ s, t.Logged port tscHz since pre s →
      ∃ pre', pre' <+: pre ++ tick :: post ∧ t.Logged port tscHz since pre' s :=
    fun s hs => ⟨pre, List.prefix_append _ _, hs⟩
  have hstop' : ∀ s, t.Logged port tscHz since (pre ++ [tick]) s →
      ∃ pre', pre' <+: pre ++ tick :: post ∧ t.Logged port tscHz since pre' s :=
    fun s hs => ⟨pre ++ [tick], ⟨post, by simp⟩, hs⟩
  exact (drain_timed.weaken (fun _ hs => hs) (fun _ _ hs => hs) hstop).bind fun l' =>
    poll_timed.weaken (fun _ hs => hs) (fun _ _ hs => hs) hstop'

theorem timed_start (t : Thread) (port : Port) (tscHz : UInt64) (entry : Entry)
    (slots : UInt8 → Vector Ptr maxPktsInQueue) :
    t.Timed port tscHz entry.prevTsc [] entry.locals (Lcore.start slots) := by
  have hsub : (0 : UInt64) = entry.prevTsc - entry.prevTsc := (UInt64.sub_self _).symm
  have hnone : t.printTicks tscHz entry.prevTsc [] = [] := ite_self _
  refine ⟨⟨rfl, hsub, fun _ => ?_⟩, rfl, ?_⟩
  · rw [hnone]
    exact hsub
  · rw [hnone]
    rfl

/-- In every run the driver is asked for the link status, and the
statistics are printed, when the clocks are due: by the core that is to
print them, and by no other. A run that stops does so within a tick. No
two reports are closer than the period. -/
theorem run_timers {file : Option Text} (h : t.Serves file port) {tscHz : UInt64} {entry : Entry}
    {ticks : List Tick} {slots : UInt8 → Vector Ptr maxPktsInQueue} {o : Option Unit} {s : Lcore}
    (hrun : t.runProcessing tscHz entry ticks (Lcore.start slots) = (o, s)) :
    ∃ pre, pre <+: ticks ∧ (o.isSome → pre = ticks) ∧
      s.linkReports = (linkTicks tscHz entry.prevTsc pre).map
        (fun tick => (port.portId, tick.linkStatus)) ∧
      s.printers = List.replicate (t.printTicks tscHz entry.prevTsc pre).length t.lcoreId ∧
      ((linkTicks tscHz entry.prevTsc pre).map Tick.curTsc).IsChain
        (fun a b => decide (timerPeriod ≤ b - a) = true) := by
  have hstart := t.timed_start port tscHz entry slots
  rw [runProcessing, h.port_eq] at hrun
  have hmeets : Proc.Meets (t.Timed port tscHz entry.prevTsc [] entry.locals)
      (ticks.foldlM (t.iteration tscHz port) entry.locals >>= fun _ => pure ())
      (fun _ => t.Logged port tscHz entry.prevTsc ticks)
      fun s => ∃ pre, pre <+: ticks ∧ t.Logged port tscHz entry.prevTsc pre s :=
    (iterations_timed tscHz entry.prevTsc ticks entry.locals).bind fun l =>
      .pure fun s hs => hs.2
  have hspaced : ∀ pre, ((linkTicks tscHz entry.prevTsc pre).map Tick.curTsc).IsChain
      fun a b => decide (timerPeriod ≤ b - a) = true := fun pre =>
    (periodic_spaced (fun tsc => decide (timerPeriod ≤ tsc)) _ _).1
  obtain ⟨hreturn, hstop⟩ := hmeets _ hstart
  cases o with
  | some u =>
      obtain ⟨hreports, hprints⟩ := hreturn u s hrun
      exact ⟨ticks, List.prefix_refl _, fun _ => rfl, hreports, hprints, hspaced ticks⟩
  | none =>
      obtain ⟨pre, hpre, hreports, hprints⟩ := hstop s hrun
      exact ⟨pre, hpre, fun hsome => absurd hsome Bool.false_ne_true, hreports, hprints,
        hspaced pre⟩

theorem tagRule_printing : (packetManagerInitialize twoPorts (some tagRule) 1).isSome := by
  decide +kernel

/-- The core of the second port, which prints the statistics every
second. -/
def printThread : Thread := .started twoPorts (some tagRule) 1 tagRule_printing 2 readyDriver

theorem printThread_serves : printThread.Serves (some tagRule) ⟨1⟩ :=
  serves_started tagRule_printing (by decide +kernel)

/-- At a tenth of a second, a little later, and behind the second one. -/
def threeTicks : List Tick :=
  [⟨200000000, false, [], Nat.zero_le maxPktsInQueue⟩,
    ⟨250000000, false, [], Nat.zero_le maxPktsInQueue⟩,
    ⟨2100000000, true, [], Nat.zero_le maxPktsInQueue⟩]

def printRun : Option Unit × Lcore :=
  printThread.runProcessing 2000000000 coldStart threeTicks (Lcore.start fun _ => noSlots)

/-- The link clock is due at the first tick and at the third, and that of
the statistics at the third. -/
theorem run_timers_printing :
    printRun.2.linkReports = [(1, false), (1, true)] ∧ printRun.2.printers = [2] := by
  obtain ⟨pre, -, hall, hreports, hprints, -⟩ :=
    run_timers printThread_serves (Prod.mk.eta (p := printRun)).symm
  obtain rfl := hall (by decide +kernel)
  exact ⟨hreports.trans (by decide +kernel), hprints.trans (by decide +kernel)⟩

end Thread

end Yapas
