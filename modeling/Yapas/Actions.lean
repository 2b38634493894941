import Yapas.Config
import Yapas.Prepare

/-!
# What an accepted action list looks like

The facts about `parseActions` that the packet loop relies on without
checking them. The loop of the parser stops at the first DROP and the
priority scan rejects whatever descends, so an accepted list is either
DROP alone or pushes followed by outputs (`parseActions_shape`); its
output ports exist, and each VLAN word starts with one of the two tag
types (`parseAction_pushVlan`).
-/

namespace Yapas

/-! ## Fields and words -/

theorem parseVlanData_spec {s : Text} {tpid vid : UInt16} {pcp cfi : UInt8}
    (h : parseVlanData s = some (tpid, pcp, cfi, vid)) :
    (tpid = 0x8100 ∨ tpid = 0x88a8) ∧ pcp.toNat ≤ 7 ∧ cfi.toNat ≤ 1
      ∧ 0 < vid.toNat ∧ vid.toNat ≤ 4094 := by
  simp only [parseVlanData, Option.bind_eq_bind, Option.bind_eq_some_iff,
    Option.pure_def, Option.some.injEq, Prod.mk.injEq, Option.guard_eq_some'] at h
  obtain ⟨x, -, n1, -, -, ht, y, -, n2, -, -, hp, z, -, n3, -, -, hc, n4, -, -, hv,
    rfl, rfl, rfl, rfl⟩ := h
  rw [not_or] at hv
  refine ⟨ht, UInt8.le_iff_toNat_le.mp hp, UInt8.le_iff_toNat_le.mp hc, ?_,
    Nat.le_of_not_lt fun hlt => hv.2 (UInt16.lt_iff_toNat_lt.mpr hlt)⟩
  exact Nat.pos_of_ne_zero fun h0 => hv.1 (UInt16.toNat_inj.mp h0)

theorem toNat_vlanTag {tpid vid : UInt16} {pcp cfi : UInt8} (hvid : vid.toNat < 2 ^ 12)
    (hcfi : cfi.toNat ≤ 1) (hpcp : pcp.toNat ≤ 7) :
    (vlanTag tpid pcp cfi vid).toNat =
      vid.toNat + cfi.toNat * 2 ^ 12 + pcp.toNat * 2 ^ 13 + tpid.toNat * 2 ^ 16 := by
  have htpid := tpid.toNat_lt
  have h1 : (vid.toUInt32 ||| cfi.toUInt32 <<< 12).toNat
      = vid.toNat + cfi.toNat * 2 ^ 12 :=
    Word.toNat_or_shiftLeft (k := 12) (by decide) (by simpa using hvid)
      (by simp; omega)
  have h2 : (vid.toUInt32 ||| cfi.toUInt32 <<< 12 ||| pcp.toUInt32 <<< 13).toNat
      = vid.toNat + cfi.toNat * 2 ^ 12 + pcp.toNat * 2 ^ 13 := by
    rw [← h1]
    exact Word.toNat_or_shiftLeft (k := 13) (by decide) (by rw [h1]; simp; omega)
      (by simp; omega)
  rw [← h2]
  exact Word.toNat_or_shiftLeft (k := 16) (by decide) (by rw [h2]; simp; omega)
    (by simp; omega)

theorem toNat_mplsLabel {label : UInt32} {exp bos ttl : UInt8}
    (hlabel : label.toNat < 2 ^ 20) (hexp : exp.toNat ≤ 7) (hbos : bos.toNat ≤ 1) :
    (mplsLabel label exp bos ttl).toNat =
      ttl.toNat + bos.toNat * 2 ^ 8 + exp.toNat * 2 ^ 9 + label.toNat * 2 ^ 12 := by
  have httl := ttl.toNat_lt
  have h1 : (ttl.toUInt32 ||| bos.toUInt32 <<< 8).toNat
      = ttl.toNat + bos.toNat * 2 ^ 8 :=
    Word.toNat_or_shiftLeft (k := 8) (by decide) (by simpa using httl)
      (by simp; omega)
  have h2 : (ttl.toUInt32 ||| bos.toUInt32 <<< 8 ||| exp.toUInt32 <<< 9).toNat
      = ttl.toNat + bos.toNat * 2 ^ 8 + exp.toNat * 2 ^ 9 := by
    rw [← h1]
    exact Word.toNat_or_shiftLeft (k := 9) (by decide) (by rw [h1]; simp; omega)
      (by simp; omega)
  rw [← h2]
  exact Word.toNat_or_shiftLeft (k := 12) (by decide) (by rw [h2]; simp; omega)
    (by simp; omega)

/-- A VLAN word in memory starts with one of the two tag types. -/
def StartsWithTag (w : UInt32) : Prop :=
  ∃ a b c d, Word.bytes w = [a, b, c, d] ∧ isVlanType (256 * a.toNat + b.toNat) = true

theorem startsWithTag_bswap {tpid vid : UInt16} {pcp cfi : UInt8}
    (htpid : tpid = 0x8100 ∨ tpid = 0x88a8) (hpcp : pcp.toNat ≤ 7)
    (hcfi : cfi.toNat ≤ 1) (hvid : vid.toNat ≤ 4094) :
    StartsWithTag (Word.bswap (vlanTag tpid pcp cfi vid)) := by
  have hw : (vlanTag tpid pcp cfi vid).toNat = _ := toNat_vlanTag (by omega) hcfi hpcp
  refine ⟨_, _, _, _, Word.bytes_bswap _, ?_⟩
  have hbytes : 256 * (UInt8.ofNat ((vlanTag tpid pcp cfi vid).toNat / 2 ^ 24)).toNat
      + (UInt8.ofNat ((vlanTag tpid pcp cfi vid).toNat / 2 ^ 16)).toNat = tpid.toNat := by
    rw [UInt8.toNat_ofNat', UInt8.toNat_ofNat', hw]
    have := tpid.toNat_lt
    omega
  rw [hbytes]
  rcases htpid with rfl | rfl <;> decide

/-! ## One action -/

theorem portIdIsValid_iff {nbPorts : UInt8} {portId : Nat} :
    portIdIsValid nbPorts portId = true ↔ 0 < portId ∧ portId ≤ nbPorts.toNat := by
  simp [portIdIsValid]

theorem toNat_portId {nbPorts : UInt8} {portId : Nat} (h : portId ≤ nbPorts.toNat) :
    (UInt8.ofNat (portId - 1)).toNat = portId - 1 := by
  have := nbPorts.toNat_lt
  rw [UInt8.toNat_ofNat', Nat.mod_eq_of_lt (by omega)]

theorem parseAction_pushVlan {nbPorts : UInt8} {s : Text} {w : UInt32}
    (h : parseAction nbPorts s = some (.pushVlan w)) : StartsWithTag w := by
  unfold parseAction at h
  split at h
  · cases h
  · split at h
    · simp only [Option.bind_eq_bind, Option.bind_eq_some_iff, Option.pure_def,
        Option.some.injEq, Action.pushVlan.injEq] at h
      obtain ⟨args, -, ⟨tpid, pcp, cfi, vid⟩, hdata, rfl⟩ := h
      obtain ⟨ht, hp, hc, -, hv⟩ := parseVlanData_spec hdata
      exact startsWithTag_bswap ht hp hc hv
    · split at h
      · simp [Option.bind_eq_some_iff] at h
      · split at h
        · simp [Option.bind_eq_some_iff] at h
        · cases h

theorem parseAction_output {nbPorts : UInt8} {s : Text} {portId : UInt8}
    (h : parseAction nbPorts s = some (.output portId)) :
    portId.toNat < nbPorts.toNat := by
  unfold parseAction at h
  split at h
  · cases h
  · split at h
    · simp [Option.bind_eq_some_iff] at h
    · split at h
      · simp [Option.bind_eq_some_iff] at h
      · split at h
        · simp only [Option.bind_eq_bind, Option.bind_eq_some_iff, Option.pure_def,
            Option.some.injEq, Action.output.injEq, Option.guard_eq_some',
            portIdIsValid_iff] at h
          obtain ⟨args, -, n, -, -, ⟨hpos, hle⟩, rfl⟩ := h
          rw [toNat_portId hle]
          omega
        · cases h

/-! ## The loop -/

/-- One iteration of the loop: no semicolon is left, or a DROP ends it,
or another action is pushed and it goes on. -/
theorem parseActionsLoop_cases {nbPorts : UInt8} {fuel : Nat} {str : Text}
    {actions : List Action}
    (h : parseActionsLoop nbPorts (fuel + 1) str = some actions) :
    (cut ';' str = none ∧ actions = []) ∨
      ∃ s rest, cut ';' str = some (s, rest) ∧
        ((parseAction nbPorts s = some .drop ∧ actions = [.drop]) ∨
          ∃ a tl, a ≠ .drop ∧ parseAction nbPorts s = some a
            ∧ parseActionsLoop nbPorts fuel rest = some tl ∧ actions = a :: tl) := by
  rw [parseActionsLoop] at h
  split at h
  · rename_i hcut
    cases h
    exact Or.inl ⟨hcut, rfl⟩
  · rename_i s rest hcut
    refine Or.inr ⟨s, rest, hcut, ?_⟩
    split at h
    · cases h
    · rename_i hdrop
      cases h
      exact Or.inl ⟨hdrop, rfl⟩
    · rename_i a hne ha
      rw [Option.map_eq_some_iff] at h
      obtain ⟨tl, htl, rfl⟩ := h
      exact Or.inr ⟨a, tl, hne, ha, htl, rfl⟩

theorem parseActionsLoop_mem {nbPorts : UInt8} :
    ∀ {fuel : Nat} {str : Text} {actions : List Action},
      parseActionsLoop nbPorts fuel str = some actions →
      ∀ a ∈ actions, ∃ s, parseAction nbPorts s = some a
  | 0, _, _, h, _, _ => by cases h
  | fuel + 1, str, actions, h, a, ha => by
      rcases parseActionsLoop_cases h with
        ⟨-, rfl⟩ | ⟨s, rest, -, ⟨hs, rfl⟩ | ⟨b, tl, -, hb, htl, rfl⟩⟩
      · cases ha
      · obtain rfl := List.mem_singleton.mp ha
        exact ⟨s, hs⟩
      · rcases List.mem_cons.mp ha with rfl | ha
        · exact ⟨s, hb⟩
        · exact parseActionsLoop_mem htl a ha

/-- A DROP is the last action of the list. -/
theorem parseActionsLoop_drop {nbPorts : UInt8} :
    ∀ {fuel : Nat} {str : Text} {actions : List Action},
      parseActionsLoop nbPorts fuel str = some actions →
      ∃ others, .drop ∉ others ∧ (actions = others ∨ actions = others ++ [.drop])
  | 0, _, _, h => by cases h
  | fuel + 1, str, actions, h => by
      rcases parseActionsLoop_cases h with
        ⟨-, rfl⟩ | ⟨s, rest, -, ⟨hs, rfl⟩ | ⟨b, tl, hne, hb, htl, rfl⟩⟩
      · exact ⟨[], List.not_mem_nil, Or.inl rfl⟩
      · exact ⟨[], List.not_mem_nil, Or.inr rfl⟩
      · obtain ⟨others, hno, htail⟩ := parseActionsLoop_drop htl
        refine ⟨b :: others, by simp [hno, Ne.symm hne], ?_⟩
        rcases htail with rfl | rfl
        · exact Or.inl rfl
        · exact Or.inr rfl

/-! ## The order -/

/-- The scan accepts exactly the lists whose priorities never descend. -/
theorem checkOrder_iff : ∀ {last : Nat} {actions : List Action},
    checkOrder last actions = true ↔
      (∀ a ∈ actions, last ≤ a.priority)
        ∧ actions.Pairwise fun a b => a.priority ≤ b.priority
  | _, [] => by simp [checkOrder]
  | last, a :: actions => by
      rw [checkOrder]
      by_cases hlt : a.priority < last
      · rw [if_pos hlt]
        simp only [Bool.false_eq_true, false_iff, not_and]
        intro hall
        have := hall a (by simp)
        omega
      · rw [if_neg hlt, checkOrder_iff, List.pairwise_cons]
        constructor
        · rintro ⟨hall, hpair⟩
          refine ⟨fun b hb => ?_, hall, hpair⟩
          rcases List.mem_cons.mp hb with rfl | hb
          · omega
          · have := hall b hb
            omega
        · exact fun ⟨_, hall, hpair⟩ => ⟨hall, hpair⟩

/-- Priorities that never descend put the pushes in front. -/
theorem pushes_then_outputs : ∀ {actions : List Action}, .drop ∉ actions →
    (actions.Pairwise fun a b => a.priority ≤ b.priority) →
    ∃ (pushes : List Action) (ports : List UInt8), (∀ a ∈ pushes, a.isPush = true)
      ∧ actions = pushes ++ ports.map Action.output
  | [], _, _ => ⟨[], [], by simp, rfl⟩
  | a :: actions, hdrop, hpair => by
      rw [List.mem_cons, not_or] at hdrop
      rw [List.pairwise_cons] at hpair
      obtain ⟨pushes, ports, hpush, rfl⟩ := pushes_then_outputs hdrop.2 hpair.2
      cases a with
      | drop => exact absurd rfl hdrop.1
      | pushVlan w =>
          exact ⟨.pushVlan w :: pushes, ports, List.forall_mem_cons.mpr ⟨rfl, hpush⟩, rfl⟩
      | pushMpls w =>
          exact ⟨.pushMpls w :: pushes, ports, List.forall_mem_cons.mpr ⟨rfl, hpush⟩, rfl⟩
      | output p =>
          cases pushes with
          | nil => exact ⟨[], p :: ports, by simp, rfl⟩
          | cons b pushes =>
              have hb := hpush b (by simp)
              have hle := hpair.1 b (by simp)
              cases b <;> simp [Action.isPush, Action.priority] at hb hle

/-- The shape of an accepted list. -/
def WellShaped (actions : List Action) : Prop :=
  actions = [.drop] ∨
    (actions ≠ [] ∧ .drop ∉ actions ∧ ∃ (pushes : List Action) (ports : List UInt8),
      (∀ a ∈ pushes, a.isPush = true) ∧ actions = pushes ++ ports.map Action.output)

theorem parseActions_eq_some {nbPorts : UInt8} {str : Text} {actions : List Action} :
    parseActions nbPorts str = some actions ↔
      parseActionsLoop nbPorts (str.length + 1) str = some actions ∧ actions ≠ []
        ∧ actions.Pairwise fun a b => a.priority ≤ b.priority := by
  unfold parseActions
  constructor
  · intro h
    split at h
    · cases h
    · cases h
    · rename_i a tl hloop
      split at h
      · rename_i horder
        cases h
        exact ⟨hloop, List.cons_ne_nil a tl, List.pairwise_cons.mpr (checkOrder_iff.mp horder)⟩
      · cases h
  · rintro ⟨hloop, hne, hpair⟩
    obtain ⟨a, tl, rfl⟩ := List.exists_cons_of_ne_nil hne
    rw [hloop]
    exact if_pos (checkOrder_iff.mpr (List.pairwise_cons.mp hpair))

theorem parseActions_mem {nbPorts : UInt8} {str : Text} {actions : List Action}
    (h : parseActions nbPorts str = some actions) :
    ∀ a ∈ actions, ∃ s, parseAction nbPorts s = some a :=
  parseActionsLoop_mem (parseActions_eq_some.mp h).1

theorem parseActions_shape {nbPorts : UInt8} {str : Text} {actions : List Action}
    (h : parseActions nbPorts str = some actions) : WellShaped actions := by
  obtain ⟨hloop, hne, hpair⟩ := parseActions_eq_some.mp h
  obtain ⟨others, hno, rfl | rfl⟩ := parseActionsLoop_drop hloop
  · exact Or.inr ⟨hne, hno, pushes_then_outputs hno hpair⟩
  · -- a DROP behind another action would descend in priority
    cases others with
    | nil => exact Or.inl rfl
    | cons a others =>
        rw [List.cons_append, List.pairwise_cons] at hpair
        have hle := hpair.1 .drop (by simp)
        cases a <;> simp [Action.priority] at hle hno

end Yapas
