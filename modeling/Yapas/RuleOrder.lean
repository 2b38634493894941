import Yapas.Lookup
import Yapas.Ownership

/-!
# The order of the rules

A file is accepted exactly when each of its lines is and no two of them
have the same port and protocol (`initialize_isSome_iff`), and the
actions of a key are those of the line that names it
(`getActions_eq_some_iff`). Neither says where a line stands.

So the lines of a file may be put in any order: the manager comes up with
both files or with none, and then every core does the same in every run
(`coreLog_perm`).
-/

namespace Yapas

/-! ## Files -/

/-- The two lines do not name the same port and protocol. -/
def Apart (nbPorts : UInt8) (line line' : Text) : Prop :=
  ∀ e e', LineEntry nbPorts line e → LineEntry nbPorts line' e' → e.1 ≠ e'.1

section Files

variable {nbPorts : UInt8} {contents : Text} {rules : Rules}

theorem LineEntry.unique {line : Text} {e e' : UInt16 × List Action}
    (h : LineEntry nbPorts line e) (h' : LineEntry nbPorts line e') : e = e' := by
  obtain ⟨right, hline, hactions⟩ := h
  obtain ⟨right', hline', hactions'⟩ := h'
  obtain ⟨hkey, rfl⟩ := Prod.mk.inj (Option.some.inj (hline.symm.trans hline'))
  exact Prod.ext hkey (Option.some.inj (hactions.symm.trans hactions'))

theorem exists_entries {lines : List Text} (h : ∀ line ∈ lines, ∃ e, LineEntry nbPorts line e) :
    ∃ es, List.Forall₂ (LineEntry nbPorts) lines es := by
  induction lines with
  | nil => exact ⟨[], .nil⟩
  | cons line lines ih =>
      obtain ⟨⟨e, he⟩, hlines⟩ := List.forall_mem_cons.mp h
      obtain ⟨es, hes⟩ := ih hlines
      exact ⟨e :: es, .cons he hes⟩

theorem nodup_iff_apart {lines : List Text} {es : List (UInt16 × List Action)}
    (h : List.Forall₂ (LineEntry nbPorts) lines es) :
    (es.map Prod.fst).Nodup ↔ lines.Pairwise (Apart nbPorts) := by
  induction h with
  | nil => simp
  | @cons line e lines es he hes ih =>
      rw [List.map_cons, List.nodup_cons, List.pairwise_cons, ih]
      refine and_congr_left fun _ => ⟨fun hnot line' hline' e₁ e₂ h₁ h₂ hkey => ?_, fun h => ?_⟩
      · obtain ⟨e', he', hentry⟩ := exists_mem_right hes line' hline'
        refine hnot (List.mem_map.mpr ⟨e', he', ?_⟩)
        rw [hentry.unique h₂, ← hkey, h₁.unique he]
      · intro hmem
        obtain ⟨e', he', hkey⟩ := List.mem_map.mp hmem
        obtain ⟨line', hline', hentry⟩ := exists_mem_left hes e' he'
        exact h line' hline' e e' he hentry hkey.symm

theorem initialize_isSome_iff : (configInitialize nbPorts (some contents)).isSome
    ↔ (∀ line ∈ getlines contents, ∃ e, LineEntry nbPorts line e)
      ∧ (getlines contents).Pairwise (Apart nbPorts) := by
  rw [Option.isSome_iff_exists]
  constructor
  · rintro ⟨rules, hrules⟩
    obtain ⟨es, hes, hentries⟩ := initialize_eq_some.mp hrules
    have hnodup := rules.nodup
    rw [hentries, List.map_reverse, List.nodup_reverse] at hnodup
    refine ⟨fun line hline => ?_, (nodup_iff_apart hes).mp hnodup⟩
    obtain ⟨e, -, he⟩ := exists_mem_right hes line hline
    exact ⟨e, he⟩
  · rintro ⟨hlines, hapart⟩
    obtain ⟨es, hes⟩ := exists_entries hlines
    have hnodup : (es.reverse.map Prod.fst).Nodup := by
      rw [List.map_reverse, List.nodup_reverse]
      exact (nodup_iff_apart hes).mpr hapart
    exact ⟨⟨es.reverse, hnodup⟩, initialize_eq_some.mpr ⟨es, hes, rfl⟩⟩

theorem getActions_eq_some_iff (h : configInitialize nbPorts (some contents) = some rules)
    {key : UInt16} {actions : List Action} : getActions rules key = some actions
      ↔ ∃ line ∈ getlines contents, LineEntry nbPorts line (key, actions) := by
  rw [getActions, Rules.find_eq_some]
  constructor
  · exact line_of_entry h (key, actions)
  · rintro ⟨line, hline, hentry⟩
    obtain ⟨e, he, hentry'⟩ := entry_of_line h line hline
    rwa [hentry.unique hentry']

variable {contents' : Text} {rules' : Rules}

theorem initialize_isSome_perm (h : (getlines contents).Perm (getlines contents')) :
    (configInitialize nbPorts (some contents)).isSome
      ↔ (configInitialize nbPorts (some contents')).isSome := by
  have hsymm : ∀ {line line'}, Apart nbPorts line line' → Apart nbPorts line' line :=
    fun hapart e e' he he' => (hapart e' e he' he).symm
  rw [initialize_isSome_iff, initialize_isSome_iff, h.pairwise_iff hsymm]
  exact and_congr_left fun _ => forall_congr' fun line => by rw [h.mem_iff]

theorem getActions_perm (h : (getlines contents).Perm (getlines contents'))
    (hrules : configInitialize nbPorts (some contents) = some rules)
    (hrules' : configInitialize nbPorts (some contents') = some rules') :
    getActions rules = getActions rules' := by
  funext key
  refine Option.ext fun actions => ?_
  rw [getActions_eq_some_iff hrules, getActions_eq_some_iff hrules']
  exact exists_congr fun line => by rw [h.mem_iff]

end Files

/-! ## Cores -/

namespace Thread

variable (t : Thread) (rules : Rules)

/-- The same core with other rules. -/
def withRules : Thread := { t with manager := { t.manager with rules := rules } }

variable {t rules} (h : getActions rules = getActions t.manager.rules)

include h

theorem processPacket_withRules : (t.withRules rules).processPacket = t.processPacket := by
  funext portId m
  have hlookup : getActions (t.withRules rules).manager.rules = getActions t.manager.rules := h
  rw [processPacket, processPacket, hlookup]
  rfl

theorem iteration_withRules (tscHz : UInt64) (port : Port) :
    (t.withRules rules).iteration tscHz port = t.iteration tscHz port := by
  funext l tick
  rw [iteration, iteration]
  have hpoll : (t.withRules rules).poll port = t.poll port := by
    funext l tick
    rw [poll, poll]
    simp only [processPackets, processPacket_withRules h]
  rw [hpoll]
  rfl

theorem log_withRules (tscHz : UInt64) (run : CoreRun) :
    (t.withRules rules).log tscHz run = t.log tscHz run := by
  rw [log, log, runProcessing, runProcessing]
  simp only [iteration_withRules h]
  rfl

end Thread

/-- Two files with the same lines: with both of them the manager comes up
or with neither, and then no core can tell which it was. -/
theorem coreLog_perm (hw : Hardware) {contents contents' : Text}
    (h : (getlines contents).Perm (getlines contents')) (statsInterval : UInt16) :
    ((packetManagerInitialize hw (some contents) statsInterval).isSome
        ↔ (packetManagerInitialize hw (some contents') statsInterval).isSome)
      ∧ ∀ manager manager',
        packetManagerInitialize hw (some contents) statsInterval = some manager →
        packetManagerInitialize hw (some contents') statsInterval = some manager' →
        ∀ tscHz runs, coreLog hw manager tscHz runs = coreLog hw manager' tscHz runs := by
  refine ⟨?_, fun manager manager' hmanager hmanager' tscHz runs => ?_⟩
  · have hconfig : (configInitialize hw.nbPorts (some contents)).isSome
        ↔ (configInitialize hw.nbPorts (some contents')).isSome := initialize_isSome_perm h
    rw [packetManagerInitialize, packetManagerInitialize]
    cases hrules : configInitialize hw.nbPorts (some contents) with
    | none =>
        rw [hrules] at hconfig
        cases hrules' : configInitialize hw.nbPorts (some contents') with
        | none => exact Iff.rfl
        | some rules' =>
            rw [hrules'] at hconfig
            exact absurd (hconfig.mpr rfl) Bool.false_ne_true
    | some rules =>
        rw [hrules] at hconfig
        obtain ⟨rules', hrules'⟩ := Option.isSome_iff_exists.mp (hconfig.mp rfl)
        rw [hrules']
        cases portManagerInitialize hw <;> exact Iff.rfl
  · obtain ⟨hrules, hinterval, hports⟩ := packetManagerInitialize_spec hmanager
    obtain ⟨hrules', hinterval', hports'⟩ := packetManagerInitialize_spec hmanager'
    have hactions := getActions_perm h hrules hrules'
    obtain ⟨rules, interval, ports⟩ := manager
    obtain ⟨rules', interval', ports'⟩ := manager'
    obtain rfl := hinterval.trans hinterval'.symm
    obtain rfl := Except.ok.inj (hports.symm.trans hports')
    funext lcoreId
    rw [coreLog, coreLog]
    split
    · exact Thread.log_withRules (t := ⟨hw, ⟨rules', interval, ports⟩, lcoreId, _⟩) hactions tscHz
        (runs lcoreId)
    · rfl

/-- The rules of two ports that forward, the second one first. -/
def swappedRules : Text := "2,UNKNOWN:OUTPUT(1);\n1,UNKNOWN:OUTPUT(2);".toList

theorem coreLog_perm_swappedRules : (getlines crossRules).Perm (getlines swappedRules)
    ∧ ∃ manager', packetManagerInitialize twoPorts (some swappedRules) 0 = some manager'
      ∧ ∀ tscHz runs, coreLog twoPorts crossManager tscHz runs
        = coreLog twoPorts manager' tscHz runs := by
  have hperm : (getlines crossRules).Perm (getlines swappedRules) := by decide
  obtain ⟨hinit, hsame⟩ := coreLog_perm twoPorts hperm 0
  obtain ⟨manager', hmanager'⟩ := Option.isSome_iff_exists.mp (hinit.mp crossRules_initialized)
  have hcross : packetManagerInitialize twoPorts (some crossRules) 0 = some crossManager :=
    (Option.some_get crossRules_initialized).symm
  exact ⟨hperm, manager', hmanager', hsame crossManager manager' hcross hmanager'⟩

end Yapas
