import Yapas.Numerals

/-!
# The command line

`ParseArgs` over the results of `getopt_long`, which belongs to the C
library: whatever results it delivers for a command line, `ParseArgs`
goes through them in order and keeps the last value of each option. The
interval is checked as text and then stored in sixteen bits.
-/

namespace Yapas

/-- What one call of `getopt_long` leaves behind: its return value, the
index of the option, and the option's argument. -/
structure OptResult where
  c : Int
  longIndex : Nat
  optarg : Text
  deriving DecidableEq

def configName : Text := "config".toList

def statsIntervalName : Text := "stats-interval".toList

/-- The names in `long_opts`. -/
def longOpts : List Text := [configName, statsIntervalName]

structure CmdArgs where
  configFile : Text := []
  statsInterval : UInt16 := 0
  deriving DecidableEq

/-- The text of the `invalid_argument` thrown. -/
def invalidInterval (optarg : Text) : Text :=
  "Invalid stats-interval. Used \"".toList ++ optarg ++ ['"']

/-- The body of the loop of `ParseArgs`. -/
def parseArg (ret : CmdArgs) (r : OptResult) : Except Text CmdArgs :=
  if r.c ≠ 0 then .ok ret
  else if longOpts[r.longIndex]? = some configName then
    .ok { ret with configFile := r.optarg }
  else if longOpts[r.longIndex]? = some statsIntervalName then
    match parseInt r.optarg with
    | none => .error (invalidInterval r.optarg)
    | some statsInterval => .ok { ret with statsInterval := UInt16.ofNat statsInterval }
  else .ok ret

/-- The loop, over the results up to the one that is `-1`. -/
def parseArgsLoop : CmdArgs → List OptResult → Except Text CmdArgs
  | ret, [] => .ok ret
  | ret, r :: rs =>
      match parseArg ret r with
      | .error msg => .error msg
      | .ok ret => parseArgsLoop ret rs

/-- `ParseArgs`, with the results `getoptLong` delivers. -/
def parseArgs (getoptLong : List Text → List OptResult) (argv : List Text) :
    Except Text CmdArgs :=
  parseArgsLoop {} (getoptLong argv)

/-! ## The arguments of the interval -/

def OptResult.interval? (r : OptResult) : Option Text :=
  if r.c = 0 ∧ longOpts[r.longIndex]? = some statsIntervalName then some r.optarg else none

/-- The arguments given for `--stats-interval`, in order. -/
def intervalArgs (rs : List OptResult) : List Text := rs.filterMap OptResult.interval?

theorem parseArg_other (ret : CmdArgs) {r : OptResult} (h : r.interval? = none) :
    ∃ ret', parseArg ret r = .ok ret' ∧ ret'.statsInterval = ret.statsInterval := by
  rw [OptResult.interval?] at h
  rw [parseArg]
  split
  · exact ⟨ret, rfl, rfl⟩
  · rename_i hc
    split
    · exact ⟨_, rfl, rfl⟩
    · split
      · rename_i hname
        rw [if_pos ⟨not_not.mp hc, hname⟩] at h
        cases h
      · exact ⟨ret, rfl, rfl⟩

theorem parseArg_interval {ret : CmdArgs} {r : OptResult} {arg : Text}
    (h : r.interval? = some arg) : parseArg ret r = match parseInt arg with
      | none => .error (invalidInterval arg)
      | some v => .ok { ret with statsInterval := UInt16.ofNat v } := by
  rw [OptResult.interval?] at h
  split at h
  · rename_i hr
    obtain rfl := Option.some.inj h
    have hname : longOpts[r.longIndex]? ≠ some configName := by
      rw [hr.2]
      decide
    rw [parseArg, if_neg (not_not_intro hr.1), if_neg hname, if_pos hr.2]
  · cases h

/-- The interval the loop ends with, when all its arguments are
accepted. -/
def lastInterval (start : UInt16) (args : List Text) : UInt16 :=
  match args.getLast?.bind parseInt with
  | none => start
  | some v => UInt16.ofNat v

/-- The loop throws at the first argument that is not accepted; without
one it ends with the last. -/
theorem parseArgsLoop_result : ∀ (rs : List OptResult) (ret : CmdArgs),
    ((∃ arg ∈ intervalArgs rs, parseInt arg = none) ∧ ∃ msg, parseArgsLoop ret rs = .error msg)
      ∨ (∀ arg ∈ intervalArgs rs, (parseInt arg).isSome)
        ∧ ∃ ret', parseArgsLoop ret rs = .ok ret'
          ∧ ret'.statsInterval = lastInterval ret.statsInterval (intervalArgs rs)
  | [], ret => Or.inr ⟨by simp [intervalArgs], ret, rfl, rfl⟩
  | r :: rs, ret => by
      cases hr : r.interval? with
      | none =>
          obtain ⟨ret', hret', hsame⟩ := parseArg_other ret hr
          have hargs : intervalArgs (r :: rs) = intervalArgs rs := List.filterMap_cons_none hr
          rw [hargs, parseArgsLoop, hret', ← hsame]
          exact parseArgsLoop_result rs ret'
      | some arg =>
          have hargs : intervalArgs (r :: rs) = arg :: intervalArgs rs :=
            List.filterMap_cons_some hr
          rw [hargs, parseArgsLoop, parseArg_interval hr]
          cases hv : parseInt arg with
          | none => exact Or.inl ⟨⟨arg, List.mem_cons_self, hv⟩, _, rfl⟩
          | some v =>
              rcases parseArgsLoop_result rs { ret with statsInterval := UInt16.ofNat v } with
                ⟨⟨arg', harg', hnone⟩, msg, hmsg⟩ | ⟨hall, ret', hret', hlast⟩
              · exact Or.inl ⟨⟨arg', List.mem_cons_of_mem arg harg', hnone⟩, msg, hmsg⟩
              · refine Or.inr ⟨?_, ret', hret', hlast.trans ?_⟩
                · exact List.forall_mem_cons.mpr ⟨by rw [hv]; rfl, hall⟩
                · cases hrest : intervalArgs rs with
                  | nil => simp [lastInterval, hv]
                  | cons arg' args =>
                      rw [hrest] at hall
                      have hsome := hall _ (List.getLast_mem (List.cons_ne_nil arg' args))
                      obtain ⟨w, hw⟩ := Option.isSome_iff_exists.mp hsome
                      simp [lastInterval, List.getLast?_cons_cons,
                        List.getLast?_eq_some_getLast (List.cons_ne_nil arg' args), hw]

/-! ## Fidelity -/

/-- `ParseArgs` throws, or stores the integer the last argument
denotes. -/
def ArgsExact (getoptLong : List Text → List OptResult) (argv : List Text) : Prop :=
  ∀ ret, parseArgs getoptLong argv = .ok ret →
    ∀ arg, (intervalArgs (getoptLong argv)).getLast? = some arg →
      readInt arg = some (ret.statsInterval.toNat : Int)

/-- The last argument denotes a number of sixteen bits, or one of them
denotes no integer of 64. -/
def IntervalFits (getoptLong : List Text → List OptResult) (argv : List Text) : Prop :=
  (∃ arg ∈ intervalArgs (getoptLong argv),
      ¬ ∃ z, readInt arg = some z ∧ z.natAbs < 2 ^ 64)
    ∨ ∀ arg, (intervalArgs (getoptLong argv)).getLast? = some arg →
      ∃ z, readInt arg = some z ∧ 0 ≤ z ∧ z < 2 ^ 16

theorem argsExact_iff (getoptLong : List Text → List OptResult) (argv : List Text) :
    ArgsExact getoptLong argv ↔ IntervalFits getoptLong argv := by
  rcases parseArgsLoop_result (getoptLong argv) {} with
    ⟨⟨arg, harg, hnone⟩, msg, hmsg⟩ | ⟨hall, ret', hret', hlast⟩
  · refine iff_of_true (fun ret hret => ?_) (Or.inl ⟨arg, harg, ?_⟩)
    · cases hmsg.symm.trans hret
    · rw [← parseInt_isSome, hnone]
      exact Bool.false_ne_true
  have hspec : ∀ arg, (intervalArgs (getoptLong argv)).getLast? = some arg →
      ∃ v z, parseInt arg = some v ∧ readInt arg = some z
        ∧ ret'.statsInterval.toNat = v % 2 ^ 16 := by
    intro arg harg
    obtain ⟨v, hv⟩ := Option.isSome_iff_exists.mp (hall arg (List.mem_of_getLast? harg))
    obtain ⟨z, hz, -⟩ := parseInt_eq_some.mp hv
    refine ⟨v, z, hv, hz, ?_⟩
    rw [hlast, lastInterval, harg, Option.bind_some, hv]
    exact UInt16.toNat_ofNat'
  constructor
  · intro hexact
    refine Or.inr fun arg harg => ?_
    have hread := hexact ret' hret' arg harg
    exact ⟨_, hread, Int.natCast_nonneg _, by exact_mod_cast ret'.statsInterval.toNat_lt⟩
  · rintro (⟨arg, harg, hbad⟩ | hfits) ret hret arg' harg'
    · exact absurd (parseInt_isSome.mp (hall arg harg)) hbad
    · obtain rfl := Except.ok.inj (hret'.symm.trans hret)
      obtain ⟨v, z, hv, hz, hstored⟩ := hspec arg' harg'
      obtain ⟨z', hz', hpos, hlt⟩ := hfits arg' harg'
      obtain rfl := Option.some.inj (hz.symm.trans hz')
      have hvz := parseInt_of_nonneg hv hz hpos
      rw [hz, hstored]
      congr 1
      omega

/-- A text is converted faithfully when it has no padding, and a command
line when its interval fits. -/
theorem numericFidelity_iff (getoptLong : List Text → List OptResult) :
    (∀ s, ParseIntExact s ↔ ¬ Padded s)
      ∧ ∀ argv, ArgsExact getoptLong argv ↔ IntervalFits getoptLong argv :=
  ⟨fun _ => parseIntExact_iff, argsExact_iff getoptLong⟩

/-- `getopt_long` on full option names, each with its value behind it;
anything else is passed over. -/
def optionPairs : List Text → List OptResult
  | name :: value :: args =>
      match longOpts.findIdx? fun opt => '-' :: '-' :: opt == name with
      | some longIndex => ⟨0, longIndex, value⟩ :: optionPairs args
      | none => optionPairs (value :: args)
  | _ => []

/-- The same behind the program's name. -/
def pairedArgs (argv : List Text) : List OptResult := optionPairs argv.tail

example : parseArgs pairedArgs ["./dpdk_dpi".toList, "--stats-interval".toList, "5".toList,
    "--config".toList, "test_config.txt".toList] = .ok ⟨"test_config.txt".toList, 5⟩ := by
  decide

/-- A minus sign is accepted, and 65541 becomes 5. -/
theorem not_numericFidelity :
    (parseInt "-1".toList = some (2 ^ 64 - 1) ∧ ¬ ParseIntExact "-1".toList)
      ∧ parseArgs pairedArgs ["./dpdk_dpi".toList, "--stats-interval".toList, "65541".toList]
        = .ok ⟨[], 5⟩
      ∧ ¬ ArgsExact pairedArgs
        ["./dpdk_dpi".toList, "--stats-interval".toList, "65541".toList] := by
  have hminus : parseInt "-1".toList = some (2 ^ 64 - 1) := by decide
  have hwrap : parseArgs pairedArgs
      ["./dpdk_dpi".toList, "--stats-interval".toList, "65541".toList] = .ok ⟨[], 5⟩ := by decide
  refine ⟨⟨hminus, fun h => ?_⟩, hwrap, fun h => ?_⟩
  · exact absurd ((h _).mp hminus).1 (by decide)
  · have hread := h _ hwrap _ rfl
    revert hread
    decide

end Yapas
