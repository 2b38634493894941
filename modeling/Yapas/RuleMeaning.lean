import Yapas.Forwarding
import Yapas.Print
import Yapas.Relay

/-!
# What a rule file means

A table of rules says what becomes of the traffic of a port: a frame goes
out on the ports of the rule for its protocol, with the tags and labels
of the rule, and without a rule it goes nowhere. `Table.frames` is that
and nothing else; no text is in it, no buffer and no queue.

A core whose manager has read the table, one rule a line and with any
spacing, does this: what has left on a port, and behind it what waits
there, are the frames of the table for all that was received, in the
order in which it came (`sent_of_table`). What has an ethertype that is
not known is given back.

The rules push their labels first, since a label behind a tag does not
end up where it should, and each buffer has room for what they push.
-/

namespace Yapas

/-! ## Tables and traffic -/

/-- A frame in which the headers can be found, and the protocol of what
it carries. -/
structure Traffic where
  frame : TaggedFrame
  protocol : Protocol
  ip : List UInt8
  l4 : List UInt8
  payload : List UInt8
  carries : frame.Carries ip l4 payload
  tags_le : frame.tags.length ≤ 28
  not_endsEarly : ¬ EndsEarly payload
  classified : Classified payload protocol

section Tables

variable {nbPorts : UInt8}

/-- What a rule makes of a frame, on each of its ports. -/
def RuleActions.frames (f : TaggedFrame) : RuleActions nbPorts → List (UInt8 × List UInt8)
  | .drop => []
  | .forward pushes outputs _ => outputs.map fun n => (n.id, f.pushed (pushes.map Push.action))

namespace Table

variable (table : Table nbPorts)

/-- The rule for a port and a protocol. -/
def rule? (portId : UInt8) (q : Protocol) : Option (Rule nbPorts) :=
  table.rules.find? fun r => r.port.id = portId ∧ r.protocol = q

/-- What the table makes of the traffic of a port. -/
def frames (portId : UInt8) (c : Traffic) : List (UInt8 × List UInt8) :=
  (table.rule? portId c.protocol).elim [] fun r => r.actions.frames c.frame

/-- Every rule pushes its labels first. -/
def OrdersPushes : Prop := ∀ r ∈ table.rules, LabelsFirst r.actions.actions

/-- The buffer has room for what any of the rules pushes. -/
def FitsIn (m : Mbuf) : Prop :=
  ∀ r ∈ table.rules, 4 * (r.actions.actions.filter Action.isPush).length ≤ m.headroom.length

end Table

/-! ## The table that is read -/

theorem configInitialize_toRules (table : Table nbPorts) {lines : List Text} {contents : Text}
    (hlines : List.Forall₂ (fun r line => Spaced (Rule.tokens r) line) table.rules lines)
    (hfile : FileOf lines contents) :
    configInitialize nbPorts (some contents) = some table.toRules := by
  have hgood : ∀ l ∈ lines, l ≠ [] ∧ '\n' ∉ l := fun l hl => by
    obtain ⟨r, -, hr⟩ := exists_mem_left hlines l hl
    exact ⟨hr.ne_nil Nat.toDigits_ne_nil, hr.newline_not_mem (plain_tokens r)⟩
  have hentries : List.Forall₂ (LineEntry nbPorts) lines table.entries :=
    List.forall₂_map_right_iff.mpr (hlines.imp fun _ _ h => lineEntry_spelled h).flip
  exact initialize_eq_some.mpr ⟨_, (getlines_fileOf hfile hgood).symm ▸ hentries, rfl⟩

theorem Table.rule?_spec {table : Table nbPorts} {portId : UInt8} {q : Protocol} {r : Rule nbPorts}
    (h : table.rule? portId q = some r) :
    r ∈ table.rules ∧ r.port.id = portId ∧ r.protocol = q := by
  have hfound := List.find?_some (show table.rules.find? _ = some r from h)
  exact ⟨List.mem_of_find?_eq_some h, of_decide_eq_true hfound⟩

/-- The actions that are found are those of the rule. -/
theorem getActions_toRules (table : Table nbPorts) (portId : UInt8) (q : Protocol) :
    getActions table.toRules (ruleKey portId q)
      = (table.rule? portId q).map fun r => r.actions.actions := by
  have hentries : table.toRules.entries = (table.rules.map fun r =>
      (ruleKey r.port.id r.protocol, r.actions.actions)).reverse := rfl
  cases hrule : table.rule? portId q with
  | none =>
      refine Rules.find_eq_none.mpr fun hmem => ?_
      rw [hentries, List.map_reverse, List.mem_reverse, List.map_map] at hmem
      obtain ⟨r, hr, hkey⟩ := List.mem_map.mp hmem
      exact absurd (decide_eq_true (ruleKey_injective hkey)) (List.find?_eq_none.mp hrule r hr)
  | some r =>
      obtain ⟨hr, rfl, rfl⟩ := Table.rule?_spec hrule
      refine Rules.find_eq_some.mpr ?_
      rw [hentries, List.mem_reverse]
      exact List.mem_map_of_mem hr

/-- Nothing but the pushes counts for the frame, and nothing but the
outputs for where it goes. -/
theorem RuleActions.frames_eq (a : RuleActions nbPorts) (f : TaggedFrame) : a.frames f
    = (a.actions.filterMap Action.outputPort?).map fun p => (p, f.pushed a.actions) := by
  cases a with
  | drop => rfl
  | forward pushes outputs hne =>
      have hpushes : (pushes.map Push.action).filterMap Action.outputPort? = [] := by
        rw [List.filterMap_map]
        refine List.filterMap_eq_nil_iff.mpr fun push _ => ?_
        cases push <;> rfl
      have houtputs : (outputs.map fun n => Action.output n.id).filterMap Action.outputPort?
          = outputs.map PortNumber.id := by
        rw [List.filterMap_map]
        exact congrFun List.filterMap_eq_map outputs
      have hvlan : vlanWords (outputs.map fun n => Action.output n.id) = [] := by
        rw [vlanWords, List.filterMap_map]
        exact List.filterMap_eq_nil_iff.mpr fun _ _ => rfl
      have hmpls : mplsWords (outputs.map fun n => Action.output n.id) = [] := by
        rw [mplsWords, List.filterMap_map]
        exact List.filterMap_eq_nil_iff.mpr fun _ _ => rfl
      have hpushed : f.pushed (pushes.map Push.action ++ outputs.map fun n => .output n.id)
          = f.pushed (pushes.map Push.action) := by
        rw [TaggedFrame.pushed, TaggedFrame.pushed, TaggedFrame.pushedBehind,
          TaggedFrame.pushedBehind, vlanWords_append, mplsWords_append, hvlan, hmpls,
          List.append_nil, List.append_nil]
      rw [RuleActions.frames, RuleActions.actions, hpushed, List.filterMap_append, hpushes,
        houtputs, List.nil_append, List.map_map]
      rfl

end Tables

/-! ## One packet -/

section Packet

variable {t : Thread} {file : Option Text} {port : Port} {table : Table t.hw.nbPorts}

theorem actions_of_table (hrules : t.manager.rules = table.toRules) (port : Port) (q : Protocol) :
    (Hop.mk t port).actions q
      = ((table.rule? port.portId q).map fun r => r.actions.actions).getD [] := by
  rw [Hop.actions, hrules, getActions_toRules]

/-- A core makes of a packet what the table makes of what is in it. -/
theorem ruleCopies_of_table (h : t.Serves file port) (hrules : t.manager.rules = table.toRules)
    (horder : table.OrdersPushes) (c : Traffic) {m : Mbuf} (hdata : m.data = c.frame.bytes)
    (hfits : table.FitsIn m) :
    t.ruleCopies port.portId m = table.frames port.portId c := by
  have hactions := actions_of_table hrules port c.protocol
  rw [Table.frames]
  cases hrule : table.rule? port.portId c.protocol with
  | none =>
      rw [hrule] at hactions
      have hroom : 4 * (((Hop.mk t port).actions c.protocol).filter Action.isPush).length
          ≤ m.headroom.length := by
        rw [hactions]
        exact Nat.zero_le _
      exact (Hop.ruleCopies_eq c.carries c.tags_le c.not_endsEarly c.classified hdata hroom).trans
        (by rw [hactions]; rfl)
  | some r =>
      obtain ⟨hr, -⟩ := Table.rule?_spec hrule
      rw [hrule, Option.map_some, Option.getD_some] at hactions
      have hroom : 4 * (((Hop.mk t port).actions c.protocol).filter Action.isPush).length
          ≤ m.headroom.length := by
        rw [hactions]
        exact hfits r hr
      have hpushed := foldl_pushBehind_actions (h := ⟨t, port⟩) (f := c.frame) (q := c.protocol) h
        (by rw [hactions]; exact horder r hr)
      rw [hactions] at hpushed
      refine (Hop.ruleCopies_eq c.carries c.tags_le c.not_endsEarly c.classified hdata
        hroom).trans ?_
      rw [hactions, hpushed, Option.elim_some, RuleActions.frames_eq]

/-- The packet holds the traffic, in a buffer with room; it holds none if
it is neither TCP nor UDP over IP. -/
def Table.Bears {nbPorts : UInt8} (table : Table nbPorts) (m : Packet) : Option Traffic → Prop
  | some c => m.buf.data = c.frame.bytes ∧ table.FitsIn m.buf
  | none => ∃ f : TaggedFrame, m.buf.data = f.bytes ∧ f.Foreign

theorem Table.Bears.readable {nbPorts : UInt8} {table : Table nbPorts} {m : Packet}
    {c : Option Traffic} (h : table.Bears m c) (t : Thread) (portId : UInt8) :
    t.Readable portId m := by
  rw [Thread.Readable]
  cases c with
  | none =>
      obtain ⟨f, hdata, hforeign⟩ := h
      rw [verdict_of_foreign t portId hforeign hdata]
      rfl
  | some c =>
      obtain ⟨m', hprep, hanalyze, -⟩ :=
        prepare_analyze c.carries c.tags_le c.not_endsEarly c.classified h.1
      rw [t.verdict_of_analyze portId hprep hanalyze]
      rfl

/-- What the table makes of the packet. -/
def Table.framesOf {nbPorts : UInt8} (table : Table nbPorts) (portId : UInt8) (c : Option Traffic) :
    List (UInt8 × List UInt8) :=
  c.elim [] (table.frames portId)

theorem Table.Bears.ruleCopies {m : Packet} {c : Option Traffic} (hbears : table.Bears m c)
    (h : t.Serves file port) (hrules : t.manager.rules = table.toRules)
    (horder : table.OrdersPushes) :
    t.ruleCopies port.portId m.buf = table.framesOf port.portId c := by
  cases c with
  | none =>
      obtain ⟨f, hdata, hforeign⟩ := hbears
      rw [Thread.ruleCopies, verdict_of_foreign t port.portId hforeign hdata]
      rfl
  | some c => exact ruleCopies_of_table h hrules horder c hbears.1 hbears.2

end Packet

/-! ## Runs -/

section Runs

variable {t : Thread} {port : Port} {table : Table t.hw.nbPorts} {lines : List Text}
  {contents : Text} {s : Lcore} {traffic : List (Option Traffic)}

theorem dueCopies_of_table {file : Option Text} (h : t.Serves file port)
    (hrules : t.manager.rules = table.toRules) (horder : table.OrdersPushes)
    (hbears : List.Forall₂ table.Bears s.rxPackets traffic) :
    t.dueCopies port s = traffic.flatMap (table.framesOf port.portId) := by
  have hreadable : ∀ m ∈ s.rxPackets, t.Readable port.portId m := fun m hm => by
    obtain ⟨c, -, hm⟩ := exists_mem_right hbears m hm
    exact hm.readable t port.portId
  rw [Thread.dueCopies, Thread.worked_eq hreadable]
  generalize s.rxPackets = ms at hbears
  induction hbears with
  | nil => rfl
  | @cons m c ms traffic hm hms ih =>
      rw [List.flatMap_cons, List.flatMap_cons, ih, hm.ruleCopies h hrules horder]

/-- The run goes through, and on every port the frames of the table have
left or wait, in the order in which the traffic came. -/
theorem sent_of_table
    (hlines : List.Forall₂ (fun r line => Spaced (Rule.tokens r) line) table.rules lines)
    (hfile : FileOf lines contents) (horder : table.OrdersPushes)
    (h : t.Serves (some contents) port) (halloc : ∀ n, (t.driver.alloc n).isSome)
    (htx : ∀ k, maxPktsInQueue ≤ t.driver.tx k) {tscHz : UInt64} {entry : Thread.Entry}
    {ticks : List Thread.Tick} {slots : UInt8 → Vector Ptr maxPktsInQueue} {o : Option Unit}
    (hrun : t.runProcessing tscHz entry ticks (Lcore.start slots) = (o, s))
    (hbears : List.Forall₂ table.Bears s.rxPackets traffic)
    (hfit : ∀ e ∈ traffic.flatMap (table.framesOf port.portId), e.2.length ≤ mbufDefaultDataroom) :
    o.isSome ∧ ∀ p, s.sent p ++ s.waiting p
      = ((traffic.flatMap (table.framesOf port.portId)).filter (·.1 = p)).map (some ·.2) := by
  have hrules : t.manager.rules = table.toRules :=
    Option.some.inj (h.tables.1.symm.trans (configInitialize_toRules table hlines hfile))
  have hdue := dueCopies_of_table h hrules horder hbears
  refine ⟨(Thread.run_spec h tscHz entry ticks slots hrun).2.mpr fun m hm => ?_, fun p => ?_⟩
  · obtain ⟨c, -, hm⟩ := exists_mem_right hbears m hm
    exact hm.readable t port.portId
  · rw [Thread.sent_eq_dueTo h htx hrun, Thread.dueTo_eq halloc (hdue ▸ hfit), hdue]

end Runs

/-! ## One rule -/

theorem spaced_flatten : ∀ tokens : List Text, Spaced tokens tokens.flatten
  | [] => .nil 0
  | token :: tokens => .cons 0 token (spaced_flatten tokens)

def portOfTwo (n : Nat) (h : 1 ≤ n ∧ n ≤ 2) : PortNumber 2 := ⟨n, h.1, h.2⟩

def tagFields (tpid pcp cfi vid : Nat) (h : (tpid = 33024 ∨ tpid = 34984) ∧ pcp ≤ 7 ∧ cfi ≤ 1
    ∧ 1 ≤ vid ∧ vid ≤ 4094) : VlanFields :=
  ⟨tpid, pcp, cfi, vid, h.1, h.2.1, h.2.2.1, h.2.2.2.1, h.2.2.2.2⟩

def tagTable : Table 2 where
  rules :=
    [⟨portOfTwo 1 (by decide), .unknown,
      .forward [.vlan (tagFields 33024 3 1 100 (by decide))] [portOfTwo 2 (by decide)]
        (Or.inl (List.cons_ne_nil _ _))⟩]
  distinct := List.nodup_singleton _

def udpTraffic : Traffic where
  frame := udpFrame
  protocol := .unknown
  ip := 0x45 :: List.replicate 8 0 ++ 0x11 :: List.replicate 10 0
  l4 := List.replicate 8 0
  payload := []
  carries := udpFrame_carries
  tags_le := by decide
  not_endsEarly := not_endsEarly_nil
  classified := classified_nil

theorem tagRun_bears : List.Forall₂ tagTable.Bears tagRun.2.rxPackets [some udpTraffic] := by
  have hreceived : tagRun.2.rxPackets.map (fun m => (m.buf.data, m.buf.headroom.length))
      = [(udpFrame.bytes, 8)] := by decide +kernel
  obtain ⟨m, hm, hbuf⟩ := List.map_eq_singleton_iff.mp hreceived
  obtain ⟨hdata, hroom⟩ := Prod.mk.inj hbuf
  rw [hm]
  refine .cons (show _ ∧ _ from ⟨hdata, ?_⟩) .nil
  rw [Table.FitsIn, hroom]
  decide

theorem sent_of_table_tagged : tagRun.1.isSome ∧ ∀ p, tagRun.2.sent p ++ tagRun.2.waiting p
    = (([some udpTraffic].flatMap (tagTable.framesOf 0)).filter (·.1 = p)).map (some ·.2) := by
  have hlines : List.Forall₂ (fun r line => Spaced (Rule.tokens r) line) tagTable.rules
      [tagRule] := by
    have htext : tagRule = (tagTable.rules.flatMap Rule.tokens).flatten := by decide +kernel
    refine .cons ?_ .nil
    rw [htext]
    exact spaced_flatten _
  refine sent_of_table hlines (Or.inr rfl) ?_ tagThread_serves (fun _ => rfl)
    (fun _ => Nat.le_refl _) (Prod.mk.eta (p := tagRun)).symm tagRun_bears ?_
  · unfold Table.OrdersPushes
    decide
  · decide +kernel

end Yapas
