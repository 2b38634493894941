import Mathlib.Data.Char
import Yapas.FirstDifference
import Yapas.Text

/-!
# The hints of `readline.cc`

They are in a set, which is ordered by `HintCompare`: two hints are
compared up to the length of the shorter one, so none is less than the
other when one is a beginning of the other. What is typed therefore finds
a hint it is a beginning of (`tabLookup_spec`), but a beginning of two
hints is equivalent to both of them, while they are not to each other,
and a hint is lost when it is a beginning of one that is there, or the
other way round (`hints_kept_iff`).

A text counts up to its first NUL (`seen`). The lengths are those of an
`int`: from 2^31 characters on the comparison is not even transitive
(`not_transitive_long`).
-/

namespace Yapas

namespace Readline

/-! ## The comparison -/

/-- `strncmp`, of two `c_str()`: the first difference of so many
characters, which are unsigned, unless both end before. -/
def strncmp : Nat → Text → Text → Int
  | 0, _, _ => 0
  | n + 1, c :: s, d :: t =>
      if c ≠ d then c.toNat - d.toNat else if c = '\x00' then 0 else strncmp n s t
  | _ + 1, _, _ => 0

/-- A `size_t` as an `int`. -/
def toInt (size : Nat) : Int := (BitVec.ofNat 32 size).toInt

/-- An `int` as a `size_t`. -/
def toSize (n : Int) : Nat := (BitVec.ofInt 64 n).toNat

def hintCompare (a b : Text) : Bool :=
  let n := toInt (if b.length > a.length then a.length else b.length)
  if strncmp (toSize n) (a ++ ['\x00']) (b ++ ['\x00']) < 0 then true else false

/-- What the comparison looks at, at most: up to the first NUL, if there
is one. -/
def seen : Text → Text
  | [] => []
  | c :: s => if c = '\x00' then [c] else c :: seen s

/-- The length fits into an `int`. -/
def Fits (s : Text) : Prop := s.length < 2 ^ 31

theorem seen_cons (c : Char) (s : Text) :
    seen (c :: s) = c :: if c = '\x00' then [] else seen s := by
  rw [seen]
  split <;> rfl

theorem toSize_toInt {n : Nat} (h : n < 2 ^ 31) : toSize (toInt n) = n := by
  have hn : (BitVec.ofNat 32 n).toNat = n := by
    rw [BitVec.toNat_ofNat, Nat.mod_eq_of_lt (by omega)]
  rw [toSize, toInt, BitVec.toInt_eq_toNat_of_lt (by rw [hn]; omega), hn, BitVec.toNat_ofInt]
  omega

theorem strncmp_self : ∀ (n : Nat) (s : Text), strncmp n s s = 0
  | 0, _ => rfl
  | _ + 1, [] => rfl
  | n + 1, c :: s => by
      rw [strncmp, if_neg (not_not_intro rfl), strncmp_self n s, ite_self]

theorem toNat_sub_neg_iff (c d : Char) : (c.toNat : Int) - d.toNat < 0 ↔ c < d := by
  rw [Char.lt_def, UInt32.lt_iff_toNat_lt, ← Int.ofNat_lt]
  exact ⟨Int.lt_of_sub_neg, Int.sub_neg_of_lt⟩

/-- Up to the length of the shorter one. -/
theorem strncmp_neg_iff : ∀ {a b : Text},
    strncmp (min a.length b.length) (a ++ ['\x00']) (b ++ ['\x00']) < 0
      ↔ differsBelow (seen a) (seen b) = true
  | [], b => by
      rw [List.length_nil, Nat.zero_min, strncmp, seen, differsBelow_nil_left]
      simp
  | c :: a, [] => by
      rw [List.length_nil, Nat.min_zero, strncmp, seen, differsBelow_nil_right]
      simp
  | c :: a, d :: b => by
      rw [List.length_cons, List.length_cons, Nat.add_min_add_right, List.cons_append,
        List.cons_append, strncmp, seen_cons, seen_cons, differsBelow]
      by_cases hcd : c = d
      · subst hcd
        rw [if_neg (not_not_intro rfl), if_pos rfl]
        by_cases hnul : c = '\x00'
        · rw [if_pos hnul, if_pos hnul, differsBelow_nil_left]
          simp
        · rw [if_neg hnul, if_neg hnul, if_neg hnul, strncmp_neg_iff]
      · rw [if_pos hcd, if_neg hcd, toNat_sub_neg_iff, decide_eq_true_iff]

theorem hintCompare_irrefl (a : Text) : hintCompare a a = false := by
  rw [hintCompare, strncmp_self]
  rfl

theorem hintCompare_eq {a b : Text} (h : Fits a ∨ Fits b) :
    hintCompare a b = differsBelow (seen a) (seen b) := by
  have hmin : (if b.length > a.length then a.length else b.length) = min a.length b.length := by
    split <;> omega
  have hfits : min a.length b.length < 2 ^ 31 :=
    h.elim (Nat.lt_of_le_of_lt (Nat.min_le_left _ _)) (Nat.lt_of_le_of_lt (Nat.min_le_right _ _))
  rw [hintCompare, hmin, toSize_toInt hfits, Bool.eq_iff_iff, ← strncmp_neg_iff]
  split
  case isTrue hneg => exact iff_of_true rfl hneg
  case isFalse hnot => exact iff_of_false Bool.false_ne_true hnot

/-- Texts of 4 GiB are not compared at all. -/
theorem hintCompare_long {a b : Text} (ha : a.length = 2 ^ 32) (hb : b.length = 2 ^ 32) :
    hintCompare a b = false := by
  rw [hintCompare, ha, hb, if_neg (Nat.lt_irrefl _)]
  rfl

/-- So a shorter one may be between two that are not compared. -/
theorem not_transitive_long :
    ∃ a b c, hintCompare a b ∧ hintCompare b c ∧ ¬ hintCompare a c := by
  have hshort : Fits ['b'] := show 1 < 2 ^ 31 by decide
  have hlong : ∀ c : Char, (c :: List.replicate (2 ^ 32 - 1) c).length = 2 ^ 32 := fun c => by
    rw [List.length_cons, List.length_replicate, Nat.sub_add_cancel (by decide)]
  refine ⟨'a' :: List.replicate (2 ^ 32 - 1) 'a', ['b'],
    'c' :: List.replicate (2 ^ 32 - 1) 'c', ?_, ?_, ?_⟩
  · rw [hintCompare_eq (Or.inr hshort), seen_cons]
    rfl
  · rw [hintCompare_eq (Or.inl hshort), seen_cons]
    rfl
  · rw [hintCompare_long (hlong 'a') (hlong 'c')]
    exact Bool.false_ne_true

theorem hintCompare_transOn {hs : List Text} (hfits : ∀ h ∈ hs, Fits h) :
    TransOn hintCompare hs := by
  intro a ha b hb c hc
  rw [hintCompare_eq (Or.inl (hfits a ha)), hintCompare_eq (Or.inl (hfits b hb)),
    hintCompare_eq (Or.inl (hfits a ha))]
  exact differsBelow_trans

/-- Neither is less than the other exactly when one is a beginning of
the other. -/
theorem comparable_iff {a b : Text} (ha : Fits a) :
    Comparable hintCompare a b ↔ ¬ (seen a <+: seen b ∨ seen b <+: seen a) := by
  rw [← comparable_differsBelow_iff, Comparable, Comparable, hintCompare_eq (Or.inl ha),
    hintCompare_eq (Or.inr ha)]

/-! ## The set -/

def addHints (balance : Balance Text) (hints : Tree Text) (hint : Text) : Tree Text :=
  add balance hintCompare hints hint

/-- What Tab makes of the line. -/
def tabLookup (hints : Tree Text) (cmd : Text) : Text := (hints.find hintCompare cmd none).getD cmd

/-- The hints after calls of `addHints`. -/
def hints (balance : Balance Text) (hs : List Text) : Tree Text := hs.foldl (addHints balance) .leaf

theorem hints_eq (balance : Balance Text) (hs : List Text) :
    hints balance hs = build balance hintCompare hs := rfl

/-- Tab changes the line to a hint that is a beginning of it or has it
as a beginning, if there is one. -/
theorem tabLookup_spec (balance : Balance Text) {hs : List Text} {cmd : Text} (hcmd : Fits cmd)
    (hfits : ∀ h ∈ hs, Fits h) :
    (∃ hint ∈ (hints balance hs).toList, (seen hint <+: seen cmd ∨ seen cmd <+: seen hint) ∧
      tabLookup (hints balance hs) cmd = hint) ∨
    ((∀ hint ∈ (hints balance hs).toList, ¬ (seen hint <+: seen cmd ∨ seen cmd <+: seen hint)) ∧
      tabLookup (hints balance hs) cmd = cmd) := by
  obtain ⟨hsorted, hsub⟩ := build_inv balance (hintCompare_transOn hfits)
  have hall : ∀ h ∈ cmd :: (hints balance hs).toList, Fits h :=
    List.forall_mem_cons.mpr ⟨hcmd, fun h hh => hfits h (hsub hh)⟩
  rcases Tree.find_spec hsorted (hintCompare_transOn hall) with
    ⟨hint, hmem, hnot, hfind⟩ | ⟨hnone, hfind⟩
  · rw [comparable_iff (hfits hint (hsub hmem)), not_not] at hnot
    exact Or.inl ⟨hint, hmem, hnot, by rw [tabLookup, hints_eq, hfind, Option.getD_some]⟩
  · refine Or.inr ⟨fun hint hmem => ?_, by rw [tabLookup, hints_eq, hfind, Option.getD_none]⟩
    exact (comparable_iff (hfits hint (hsub hmem))).mp (hnone hint hmem)

/-- The comparison is irreflexive and transitive, and to be equivalent is
passed on unless the middle one is a beginning of two that differ; the
hints are all kept exactly when none is a beginning of another one. -/
theorem hints_kept_iff (a b c : Text) (balance : Balance Text) {hs : List Text}
    (hnodup : hs.Nodup) (hfits : ∀ h ∈ hs, Fits h) :
    hintCompare a a = false ∧
    (Fits a → Fits b → Fits c →
      (hintCompare a b → hintCompare b c → hintCompare a c) ∧
      ((¬ Comparable hintCompare a b → ¬ Comparable hintCompare b c →
          ¬ Comparable hintCompare a c)
        ↔ ¬ (seen b <+: seen a ∧ seen b <+: seen c
            ∧ ¬ (seen a <+: seen c ∨ seen c <+: seen a)))) ∧
    ((∀ h ∈ hs, h ∈ (hints balance hs).toList)
      ↔ hs.Pairwise fun h h' => ¬ (seen h <+: seen h' ∨ seen h' <+: seen h)) := by
  refine ⟨hintCompare_irrefl a, fun ha hb hc => ⟨?_, ?_⟩, ?_⟩
  · have htrans : TransOn hintCompare [a, b, c] := hintCompare_transOn (by simp [ha, hb, hc])
    exact htrans a (by simp) b (by simp) c (by simp)
  · rw [← incomparable_trans_iff, comparable_differsBelow_iff, comparable_differsBelow_iff,
      comparable_differsBelow_iff, comparable_iff ha, comparable_iff hb, comparable_iff ha]
  · rw [hints_eq, build_keeps_iff balance hnodup (hintCompare_transOn hfits)]
    exact List.Pairwise.iff_of_mem fun ha _ => comparable_iff (hfits _ ha)

/-- The hints of `main` are kept, where two keys need no balancing. -/
theorem hints_kept_main :
    ["help".toList, "ls".toList].Nodup ∧ ∀ h ∈ ["help".toList, "ls".toList],
      h ∈ (hints ⟨id, fun _ => rfl⟩ ["help".toList, "ls".toList]).toList := by
  have hnodup : ["help".toList, "ls".toList].Nodup := by decide
  have hfits : ∀ h ∈ ["help".toList, "ls".toList], Fits h :=
    List.forall_mem_cons.mpr ⟨show 4 < 2 ^ 31 by decide,
      List.forall_mem_singleton.mpr (show 2 < 2 ^ 31 by decide)⟩
  exact ⟨hnodup, (hints_kept_iff [] [] [] ⟨id, fun _ => rfl⟩ hnodup hfits).2.2.mpr (by decide)⟩

/-- `l` is equivalent to `ls` and to `lx`, which are not to each other;
of `l` and `ls` the second is lost. -/
theorem not_hints_kept_beginning :
    (¬ Comparable hintCompare "ls".toList "l".toList ∧
      ¬ Comparable hintCompare "l".toList "lx".toList ∧
      Comparable hintCompare "ls".toList "lx".toList) ∧
    ∀ balance : Balance Text,
      ¬ ∀ h ∈ ["l".toList, "ls".toList], h ∈ (hints balance ["l".toList, "ls".toList]).toList := by
  have hl : Fits "l".toList := show 1 < 2 ^ 31 by decide
  have hls : Fits "ls".toList := show 2 < 2 ^ 31 by decide
  have hlost : ¬ Comparable hintCompare "l".toList "ls".toList := by
    rw [comparable_iff hl]
    decide
  refine ⟨⟨?_, ?_, ?_⟩, fun balance h => ?_⟩
  · rw [comparable_iff hls]
    decide
  · rw [comparable_iff hl]
    decide
  · rw [comparable_iff hls]
    decide
  · rw [hints_eq, build_keeps_iff balance (by decide)
      (hintCompare_transOn (List.forall_mem_cons.mpr ⟨hl, List.forall_mem_singleton.mpr hls⟩)),
      List.pairwise_pair] at h
    exact hlost h

end Readline

end Yapas
