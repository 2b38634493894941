import Yapas.Numerals
import Yapas.Print
import Yapas.RuleText

/-!
# The numbers of an action

What becomes of the four numbers of a VLAN or MPLS push on their way
from the rule text into the 32-bit word of the action. The numbers are
those the text denotes, of any size (`readInt`); what is stored is read
back from the bytes of the word (`unpackVlan`, `unpackMpls`).

Between the two a number is reduced to 64 bits, then to the type of its
field, and only then checked. So a number is stored faithfully when it
fits the type, and one that does not may pass for another
(`vlanFaithful_iff`). The label and the TTL of an MPLS push have no
check at all: here the field itself decides (`mplsFaithful_iff`).
-/

namespace Yapas

/-! ## The word read back -/

/-- A word in memory, read in network order. -/
def wireValue (w : UInt32) : Nat :=
  (Word.bytes w).foldl (fun n b => 2 ^ 8 * n + b.toNat) 0

theorem wireValue_bswap (w : UInt32) : wireValue (Word.bswap w) = w.toNat := by
  have hlt := w.toNat_lt
  rw [wireValue, Word.bytes_bswap]
  simp only [Word.bytes, List.reverse_cons, List.reverse_nil, List.nil_append, List.cons_append,
    List.foldl_cons, List.foldl_nil, UInt8.toNat_ofNat']
  omega

/-- TPID, PCP, CFI and VID: 16, 3, 1 and 12 bits. -/
def unpackVlan (w : UInt32) : Nat × Nat × Nat × Nat :=
  (wireValue w / 2 ^ 16, wireValue w / 2 ^ 13 % 2 ^ 3, wireValue w / 2 ^ 12 % 2,
    wireValue w % 2 ^ 12)

/-- Label, CoS, S and TTL: 20, 3, 1 and 8 bits. -/
def unpackMpls (w : UInt32) : Nat × Nat × Nat × Nat :=
  (wireValue w / 2 ^ 12, wireValue w / 2 ^ 9 % 2 ^ 3, wireValue w / 2 ^ 8 % 2,
    wireValue w % 2 ^ 8)

theorem unpackVlan_bswap (tpid : UInt16) {vid : UInt16} {pcp cfi : UInt8} (hvid : vid.toNat ≤ 4094)
    (hcfi : cfi.toNat ≤ 1) (hpcp : pcp.toNat ≤ 7) :
    unpackVlan (Word.bswap (vlanTag tpid pcp cfi vid))
      = (tpid.toNat, pcp.toNat, cfi.toNat, vid.toNat) := by
  have htpid := tpid.toNat_lt
  rw [unpackVlan, wireValue_bswap, toNat_vlanTag (by omega) hcfi hpcp]
  simp only [Prod.mk.injEq]
  refine ⟨?_, ?_, ?_, ?_⟩ <;> omega

theorem unpackMpls_bswap {label : UInt32} {exp bos : UInt8} (ttl : UInt8)
    (hlabel : label.toNat < 2 ^ 20) (hexp : exp.toNat ≤ 7) (hbos : bos.toNat ≤ 1) :
    unpackMpls (Word.bswap (mplsLabel label exp bos ttl))
      = (label.toNat, exp.toNat, bos.toNat, ttl.toNat) := by
  have httl := ttl.toNat_lt
  rw [unpackMpls, wireValue_bswap, toNat_mplsLabel hlabel hexp hbos]
  simp only [Prod.mk.injEq]
  refine ⟨?_, ?_, ?_, ?_⟩ <;> omega

/-! ## The text of an action -/

/-- Four fields, separated by commas. -/
def fourFields (a b c d : Text) : Text := a ++ ',' :: (b ++ ',' :: (c ++ ',' :: d))

def pushVlanText (a b c d : Text) : Text := pushVlanPrefix ++ fourFields a b c d ++ [')']

def pushMplsText (a b c d : Text) : Text := pushMplsPrefix ++ fourFields a b c d ++ [')']

/-- The fields denote these integers. -/
def Denote (a b c d : Text) (x y z v : Int) : Prop :=
  readInt a = some x ∧ readInt b = some y ∧ readInt c = some z ∧ readInt d = some v

/-- A keyword with a character of no numeral and no separator is in an
action's text only if the character is in the action's own keyword. -/
theorem not_contains_actionText (ch : Char) {pat keyword a b c d : Text} {x y z v : Int}
    (h : Denote a b c d x y z v) (hpat : ch ∈ pat) (hkeyword : ch ∉ keyword)
    (hspace : isSpace ch = false) (hdigit : ch.isDigit = false)
    (hpunct : ch ∉ ['-', '+', ',', ')']) :
    ¬ contains pat (keyword ++ fourFields a b c d ++ [')']) = true := by
  simp only [List.mem_cons, List.not_mem_nil, or_false, not_or] at hpunct
  obtain ⟨hminus, hplus, hcomma, hclose⟩ := hpunct
  obtain ⟨ha, hb, hc, hd⟩ := h
  have hno : ∀ {s : Text} {n : Int}, readInt s = some n → ch ∉ s :=
    fun hs => not_mem_of_readInt hs hspace hdigit hminus hplus
  have htext : ch ∉ keyword ++ fourFields a b c d ++ [')'] := by
    simp only [fourFields, List.mem_append, List.mem_cons, List.not_mem_nil, or_false, not_or]
    exact ⟨⟨hkeyword, hno ha, hcomma, hno hb, hcomma, hno hc, hcomma, hno hd⟩, hclose⟩
  rw [contains_eq_false_of_not_mem hpat htext]
  exact Bool.false_ne_true

theorem comma_not_mem {s : Text} {z : Int} (h : readInt s = some z) : ',' ∉ s :=
  not_mem_of_readInt h (by decide) (by decide) (by decide) (by decide)

section Fields

variable {nbPorts : UInt8} {a b c d : Text} {x y z v : Int}

theorem parseAction_pushVlanText (h : Denote a b c d x y z v) :
    parseAction nbPorts (pushVlanText a b c d) = (parseVlanData (fourFields a b c d)).bind
      fun (tpid, pcp, cfi, vid) => some (.pushVlan (Word.bswap (vlanTag tpid pcp cfi vid))) := by
  have hdrop : ¬ contains dropPrefix (pushVlanText a b c d) = true :=
    not_contains_actionText 'D' h (by decide) (by decide) rfl rfl (by decide)
  have hvlan : contains pushVlanPrefix (pushVlanText a b c d) = true := by
    rw [pushVlanText, List.append_assoc]
    exact contains_of_prefix _ _
  have hargs : arguments pushVlanPrefix (pushVlanText a b c d) = some (fourFields a b c d) :=
    arguments_append _ _
  rw [parseAction, if_neg hdrop, if_pos hvlan, hargs]
  rfl

theorem parseAction_pushMplsText (h : Denote a b c d x y z v) :
    parseAction nbPorts (pushMplsText a b c d) = (parseMplsData (fourFields a b c d)).bind
      fun (label, exp, bos, ttl) =>
        some (.pushMpls (Word.bswap (mplsLabel label exp bos ttl))) := by
  have hdrop : ¬ contains dropPrefix (pushMplsText a b c d) = true :=
    not_contains_actionText 'D' h (by decide) (by decide) rfl rfl (by decide)
  have hvlan : ¬ contains pushVlanPrefix (pushMplsText a b c d) = true :=
    not_contains_actionText 'V' h (by decide) (by decide) rfl rfl (by decide)
  have hmpls : contains pushMplsPrefix (pushMplsText a b c d) = true := by
    rw [pushMplsText, List.append_assoc]
    exact contains_of_prefix _ _
  have hargs : arguments pushMplsPrefix (pushMplsText a b c d) = some (fourFields a b c d) :=
    arguments_append _ _
  rw [parseAction, if_neg hdrop, if_neg hvlan, if_pos hmpls, hargs]
  rfl

/-- What the four fields are converted to. -/
def Converted (a b c d : Text) (n1 n2 n3 n4 : Nat) : Prop :=
  parseInt a = some n1 ∧ parseInt b = some n2 ∧ parseInt c = some n3 ∧ parseInt d = some n4

theorem Denote.eq_of_nonneg (h : Denote a b c d x y z v) {n1 n2 n3 n4 : Nat}
    (hn : Converted a b c d n1 n2 n3 n4) (hx : 0 ≤ x) (hy : 0 ≤ y) (hz : 0 ≤ z) (hv : 0 ≤ v) :
    x = n1 ∧ y = n2 ∧ z = n3 ∧ v = n4 := by
  obtain ⟨ha, hb, hc, hd⟩ := h
  obtain ⟨h1, h2, h3, h4⟩ := hn
  have e1 := parseInt_of_nonneg h1 ha hx
  have e2 := parseInt_of_nonneg h2 hb hy
  have e3 := parseInt_of_nonneg h3 hc hz
  have e4 := parseInt_of_nonneg h4 hd hv
  omega

/-- Each field is converted on its own and narrowed. -/
theorem parseVlanData_fourFields (h : Denote a b c d x y z v) {tpid vid : UInt16}
    {pcp cfi : UInt8} (hdata : parseVlanData (fourFields a b c d) = some (tpid, pcp, cfi, vid)) :
    ∃ n1 n2 n3 n4, Converted a b c d n1 n2 n3 n4
      ∧ tpid = UInt16.ofNat n1 ∧ pcp = UInt8.ofNat n2 ∧ cfi = UInt8.ofNat n3
      ∧ vid = UInt16.ofNat n4 := by
  obtain ⟨ha, hb, hc, -⟩ := h
  simp only [parseVlanData, fourFields, cut_append _ (comma_not_mem ha),
    cut_append _ (comma_not_mem hb), cut_append _ (comma_not_mem hc), Option.bind_eq_bind,
    Option.bind_some, Option.bind_eq_some_iff, Option.pure_def, Option.some.injEq,
    Prod.mk.injEq] at hdata
  obtain ⟨n1, h1, -, -, n2, h2, -, -, n3, h3, -, -, n4, h4, -, -, rfl, rfl, rfl, rfl⟩ := hdata
  exact ⟨n1, n2, n3, n4, ⟨h1, h2, h3, h4⟩, rfl, rfl, rfl, rfl⟩

theorem parseMplsData_fourFields (h : Denote a b c d x y z v) {label : UInt32}
    {exp bos ttl : UInt8}
    (hdata : parseMplsData (fourFields a b c d) = some (label, exp, bos, ttl)) :
    ∃ n1 n2 n3 n4, Converted a b c d n1 n2 n3 n4
      ∧ label = UInt32.ofNat n1 ∧ (exp = UInt8.ofNat n2 ∧ exp ≤ 7)
      ∧ (bos = UInt8.ofNat n3 ∧ bos ≤ 1) ∧ ttl = UInt8.ofNat n4 := by
  obtain ⟨ha, hb, hc, -⟩ := h
  simp only [parseMplsData, fourFields, cut_append _ (comma_not_mem ha),
    cut_append _ (comma_not_mem hb), cut_append _ (comma_not_mem hc), Option.bind_eq_bind,
    Option.bind_some, Option.bind_eq_some_iff, Option.pure_def, Option.some.injEq,
    Prod.mk.injEq, Option.guard_eq_some'] at hdata
  obtain ⟨n1, h1, n2, h2, -, hexp, n3, h3, -, hbos, n4, h4, rfl, rfl, rfl, rfl⟩ := hdata
  exact ⟨n1, n2, n3, n4, ⟨h1, h2, h3, h4⟩, rfl, ⟨rfl, hexp⟩, ⟨rfl, hbos⟩, rfl⟩

/-! ## Fidelity -/

/-- The action stores the four integers, and they are in their ranges. -/
def VlanFaithful (x y z v : Int) (action : Action) : Prop :=
  (x = 0x8100 ∨ x = 0x88a8) ∧ (0 ≤ y ∧ y ≤ 7) ∧ (0 ≤ z ∧ z ≤ 1) ∧ (1 ≤ v ∧ v ≤ 4094)
    ∧ ∃ w tpid pcp cfi vid, action = .pushVlan w ∧ unpackVlan w = (tpid, pcp, cfi, vid)
      ∧ x = tpid ∧ y = pcp ∧ z = cfi ∧ v = vid

/-- The integers fit the types they are narrowed to. -/
def VlanFits (x y z v : Int) : Prop :=
  (0 ≤ x ∧ x < 2 ^ 16) ∧ (0 ≤ y ∧ y < 2 ^ 8) ∧ (0 ≤ z ∧ z < 2 ^ 8) ∧ (0 ≤ v ∧ v < 2 ^ 16)

/-- Whatever the numbers in an accepted VLAN push, its action stores
them exactly when each fits the type of its field. -/
theorem vlanFaithful_iff {s : Text} {actions : List Action} {i : Nat} {action : Action}
    (hparse : parseActions nbPorts s = some actions)
    (htext : (actionTexts s).1[i]? = some (pushVlanText a b c d))
    (haction : actions[i]? = some action) (hread : Denote a b c d x y z v) :
    VlanFaithful x y z v action ↔ VlanFits x y z v := by
  constructor
  · rintro ⟨hx, hy, hz, hv, -⟩
    refine ⟨?_, by omega, by omega, by omega⟩
    rcases hx with rfl | rfl <;> decide
  · rintro ⟨hx, hy, hz, hv⟩
    have hone := parseActionsLoop_getElem? (parseActions_eq_some.mp hparse).1 htext haction
    rw [parseAction_pushVlanText hread, Option.bind_eq_some_iff] at hone
    obtain ⟨⟨tpid, pcp, cfi, vid⟩, hdata, hpush⟩ := hone
    obtain ⟨htpid, hpcp, hcfi, hpos, hvid⟩ := parseVlanData_spec hdata
    obtain ⟨n1, n2, n3, n4, hconverted, rfl, rfl, rfl, rfl⟩ :=
      parseVlanData_fourFields hread hdata
    obtain ⟨rfl, rfl, rfl, rfl⟩ := hread.eq_of_nonneg hconverted hx.1 hy.1 hz.1 hv.1
    have hunpack := unpackVlan_bswap (UInt16.ofNat n1) hvid hcfi hpcp
    simp only [← UInt16.toNat_inj, UInt16.toNat_ofNat', UInt8.toNat_ofNat', UInt16.reduceToNat]
      at htpid hpcp hcfi hpos hvid hunpack
    refine ⟨by omega, by omega, by omega, by omega, _, _, _, _, _,
      (Option.some.inj hpush).symm, hunpack, ?_⟩
    omega

theorem vlanFaithful_inRange : VlanFaithful 33024 3 1 100 (.pushVlan 0x64700081) := by
  have hparse : parseActions 0 "PUSH-VLAN(33024,3,1,100);".toList
      = some [.pushVlan 0x64700081] := by decide +kernel
  have htext : (actionTexts "PUSH-VLAN(33024,3,1,100);".toList).1[0]?
      = some (pushVlanText "33024".toList "3".toList "1".toList "100".toList) := by decide
  exact (vlanFaithful_iff hparse htext rfl ⟨rfl, rfl, rfl, rfl⟩).mpr (by unfold VlanFits; decide)

/-- The TPID 98560 is 0x8100 in sixteen bits, and so is -32512. -/
theorem not_vlanFaithful_narrowed :
    parseActions 0 "PUSH-VLAN(98560,3,1,100);".toList = some [.pushVlan 0x64700081]
      ∧ parseActions 0 "PUSH-VLAN(-32512,3,1,100);".toList = some [.pushVlan 0x64700081]
      ∧ readInt "98560".toList = some 98560 ∧ readInt "-32512".toList = some (-32512)
      ∧ ¬ VlanFaithful 98560 3 1 100 (.pushVlan 0x64700081)
      ∧ ¬ VlanFaithful (-32512) 3 1 100 (.pushVlan 0x64700081) := by
  refine ⟨by decide +kernel, by decide +kernel, rfl, rfl, fun h => ?_, fun h => ?_⟩
  · exact absurd h.1 (by decide)
  · exact absurd h.1 (by decide)

/-- The action stores the four integers, and they are in their ranges. -/
def MplsFaithful (x y z v : Int) (action : Action) : Prop :=
  (0 ≤ x ∧ x < 2 ^ 20) ∧ (0 ≤ y ∧ y ≤ 7) ∧ (0 ≤ z ∧ z ≤ 1) ∧ (0 ≤ v ∧ v ≤ 255)
    ∧ ∃ w label exp bos ttl, action = .pushMpls w ∧ unpackMpls w = (label, exp, bos, ttl)
      ∧ x = label ∧ y = exp ∧ z = bos ∧ v = ttl

/-- The label fits its field, and the others the types they are narrowed
to. -/
def MplsFits (x y z v : Int) : Prop :=
  (0 ≤ x ∧ x < 2 ^ 20) ∧ (0 ≤ y ∧ y < 2 ^ 8) ∧ (0 ≤ z ∧ z < 2 ^ 8) ∧ (0 ≤ v ∧ v < 2 ^ 8)

theorem mplsFaithful_iff {s : Text} {actions : List Action} {i : Nat} {action : Action}
    (hparse : parseActions nbPorts s = some actions)
    (htext : (actionTexts s).1[i]? = some (pushMplsText a b c d))
    (haction : actions[i]? = some action) (hread : Denote a b c d x y z v) :
    MplsFaithful x y z v action ↔ MplsFits x y z v := by
  constructor
  · rintro ⟨hx, hy, hz, hv, -⟩
    refine ⟨hx, by omega, by omega, by omega⟩
  · rintro ⟨hx, hy, hz, hv⟩
    have hone := parseActionsLoop_getElem? (parseActions_eq_some.mp hparse).1 htext haction
    rw [parseAction_pushMplsText hread, Option.bind_eq_some_iff] at hone
    obtain ⟨⟨label, exp, bos, ttl⟩, hdata, hpush⟩ := hone
    obtain ⟨n1, n2, n3, n4, hconverted, rfl, ⟨rfl, hexp⟩, ⟨rfl, hbos⟩, rfl⟩ :=
      parseMplsData_fourFields hread hdata
    obtain ⟨rfl, rfl, rfl, rfl⟩ := hread.eq_of_nonneg hconverted hx.1 hy.1 hz.1 hv.1
    rw [UInt8.le_iff_toNat_le] at hexp hbos
    have hlabel : (UInt32.ofNat n1).toNat < 2 ^ 20 := by
      rw [UInt32.toNat_ofNat']
      omega
    have hunpack := unpackMpls_bswap (UInt8.ofNat n4) hlabel hexp hbos
    simp only [UInt32.toNat_ofNat', UInt8.toNat_ofNat', UInt8.reduceToNat] at hexp hbos hunpack
    refine ⟨hx, by omega, by omega, by omega, _, _, _, _, _,
      (Option.some.inj hpush).symm, hunpack, ?_⟩
    omega

theorem mplsFaithful_inRange : MplsFaithful 100 3 1 64 (.pushMpls 0x40470600) := by
  have hparse : parseActions 0 "PUSH-MPLS(100,3,1,64);".toList
      = some [.pushMpls 0x40470600] := by decide +kernel
  have htext : (actionTexts "PUSH-MPLS(100,3,1,64);".toList).1[0]?
      = some (pushMplsText "100".toList "3".toList "1".toList "64".toList) := by decide
  exact (mplsFaithful_iff hparse htext rfl ⟨rfl, rfl, rfl, rfl⟩).mpr (by unfold MplsFits; decide)

/-- A label of 21 bits loses the highest, and a TTL of nine bits too. -/
theorem not_mplsFaithful_narrowed :
    parseActions 0 "PUSH-MPLS(1048676,3,1,320);".toList = some [.pushMpls 0x40470600]
      ∧ readInt "1048676".toList = some 1048676 ∧ readInt "320".toList = some 320
      ∧ ¬ MplsFaithful 1048676 3 1 320 (.pushMpls 0x40470600) := by
  refine ⟨by decide +kernel, rfl, rfl, fun h => ?_⟩
  exact absurd h.1 (by decide)

end Fields

end Yapas
