import Yapas.Config

/-!
# Numerals

The integer a text denotes (`readInt`): digits, with white space and a
sign allowed in front, and no bound on the value. `parseInt` accepts
exactly these texts, up to 64 bits of magnitude, and returns the integer
reduced modulo `2 ^ 64` (`parseInt_eq_some`): a negative one comes out
as another number, and whoever narrows the result reduces it again.
-/

namespace Yapas

/-- A numeral of digits only. -/
def Digits (s : Text) : Prop := s ≠ [] ∧ s.all Char.isDigit = true

instance (s : Text) : Decidable (Digits s) := inferInstanceAs (Decidable (_ ∧ _))

/-- The number the digits denote. -/
def digitsValue (s : Text) : Nat := Nat.ofDigitChars 10 s 0

/-- The integer a text denotes: white space, a sign and digits, and
nothing else. -/
def readInt (s : Text) : Option Int :=
  let (neg, _, digits) := takeSign (s.dropWhile isSpace)
  if Digits digits then
    some (if neg then -(digitsValue digits : Int) else digitsValue digits)
  else none

/-! ## The parts of a numeral -/

theorem takeSign_length (s : Text) :
    (takeSign s).2.1 + (takeSign s).2.2.length = s.length := by
  unfold takeSign
  split <;> simp [Nat.add_comm]

/-- A sign, as the text it is written with. -/
def signText (neg plus : Bool) : Text :=
  if neg then ['-'] else if plus then ['+'] else []

theorem takeSign_eq (s : Text) :
    ∃ plus, s = signText (takeSign s).1 plus ++ (takeSign s).2.2 := by
  unfold takeSign
  split
  · exact ⟨false, rfl⟩
  · exact ⟨true, rfl⟩
  · exact ⟨false, rfl⟩

theorem Digits.head {s : Text} (h : Digits s) : ∃ c t, s = c :: t ∧ c.isDigit = true := by
  obtain ⟨c, t, rfl⟩ := List.exists_cons_of_ne_nil h.1
  exact ⟨c, t, rfl, (Bool.and_eq_true_iff.mp h.2).1⟩

theorem takeSign_signText (neg plus : Bool) {digits : Text} (h : Digits digits) :
    takeSign (signText neg plus ++ digits)
      = (neg, (signText neg plus).length, digits) := by
  obtain ⟨c, t, rfl, hc⟩ := h.head
  cases neg with
  | true => rfl
  | false =>
      cases plus with
      | true => rfl
      | false =>
          show takeSign (c :: t) = (false, 0, c :: t)
          unfold takeSign
          split
          · rename_i heq
            obtain rfl := (List.cons.inj heq).1
            cases hc
          · rename_i heq
            obtain rfl := (List.cons.inj heq).1
            cases hc
          · rfl

theorem dropWhile_isSpace {space : Text} (neg plus : Bool) {digits : Text}
    (hspace : space.all isSpace = true) (h : Digits digits) :
    (space ++ (signText neg plus ++ digits)).dropWhile isSpace
      = signText neg plus ++ digits := by
  obtain ⟨c, t, rfl, hc⟩ := h.head
  have hdigit : isSpace c = false := isDigit_not_isSpace hc
  rw [List.dropWhile_append_of_pos (List.all_eq_true.mp hspace)]
  cases neg with
  | true => rfl
  | false =>
      cases plus with
      | true => rfl
      | false => exact List.dropWhile_cons_of_neg (by rw [hdigit]; exact Bool.false_ne_true)

/-- A text denotes an integer when it is written as one. -/
theorem readInt_eq_some {s : Text} {z : Int} : readInt s = some z ↔
    ∃ space neg plus digits, s = space ++ (signText neg plus ++ digits)
      ∧ space.all isSpace = true ∧ Digits digits
      ∧ z = if neg then -(digitsValue digits : Int) else digitsValue digits := by
  constructor
  · intro h
    simp only [readInt] at h
    split at h
    · rename_i hdigits
      obtain ⟨plus, hsign⟩ := takeSign_eq (s.dropWhile isSpace)
      refine ⟨s.takeWhile isSpace, _, plus, _, ?_, ?_, hdigits, (Option.some.inj h).symm⟩
      · rw [← hsign, List.takeWhile_append_dropWhile]
      · exact List.all_takeWhile
    · cases h
  · rintro ⟨space, neg, plus, digits, rfl, hspace, hdigits, rfl⟩
    simp only [readInt, dropWhile_isSpace neg plus hspace hdigits,
      takeSign_signText neg plus hdigits, if_pos hdigits]

/-- A numeral is made of white space, a sign and digits. -/
theorem not_mem_of_readInt {ch : Char} {s : Text} {z : Int} (h : readInt s = some z)
    (hspace : isSpace ch = false) (hdigit : ch.isDigit = false) (hminus : ch ≠ '-')
    (hplus : ch ≠ '+') : ch ∉ s := by
  obtain ⟨space, neg, plus, digits, rfl, hall, hdigits, -⟩ := readInt_eq_some.mp h
  simp only [List.mem_append, not_or]
  refine ⟨fun hmem => ?_, fun hmem => ?_, fun hmem => ?_⟩
  · rw [List.all_eq_true.mp hall _ hmem] at hspace
    cases hspace
  · revert hmem
    cases neg <;> cases plus <;> simp [signText, hminus, hplus]
  · rw [List.all_eq_true.mp hdigits.2 _ hmem] at hdigit
    cases hdigit

/-! ## What `ParseInt` accepts -/

/-- Without a null character the conversion reads white space, a sign
and as many digits as there are. -/
theorem stoul_eq {s : Text} (hnul : '\x00' ∉ s) :
    stoul s =
      let (neg, signLen, rest) := takeSign (s.dropWhile isSpace)
      let digits := rest.takeWhile Char.isDigit
      if digits = [] then none
      else if 2 ^ 64 ≤ digitsValue digits then none
      else some (if neg then (2 ^ 64 - digitsValue digits) % 2 ^ 64 else digitsValue digits,
        (s.takeWhile isSpace).length + signLen + digits.length) := by
  have hs : s.takeWhile (· != '\x00') = s := takeWhile_eq_self fun c hc => by
    rw [bne_iff_ne]
    rintro rfl
    exact hnul hc
  have hsplit : s.takeWhile isSpace ++ s.dropWhile isSpace = s := List.takeWhile_append_dropWhile
  have hdrop : s.drop (s.takeWhile isSpace).length = s.dropWhile isSpace :=
    calc s.drop (s.takeWhile isSpace).length
        = (s.takeWhile isSpace ++ s.dropWhile isSpace).drop (s.takeWhile isSpace).length := by
          rw [hsplit]
      _ = s.dropWhile isSpace := List.drop_left
  rw [stoul]
  simp only [hs, hdrop]
  rfl

/-- The characters read are the text's first. -/
theorem length_takeWhile_isSpace (s : Text) :
    (s.takeWhile isSpace).length + ((takeSign (s.dropWhile isSpace)).2.1
      + (takeSign (s.dropWhile isSpace)).2.2.length) = s.length := by
  have hsplit : s.takeWhile isSpace ++ s.dropWhile isSpace = s := List.takeWhile_append_dropWhile
  rw [takeSign_length, ← List.length_append, hsplit]

/-- A conversion that consumes the whole text reads the integer the text
denotes. -/
theorem stoul_whole {s : Text} {v : Nat} (hnul : '\x00' ∉ s) : stoul s = some (v, s.length) ↔
    ∃ z, readInt s = some z ∧ z.natAbs < 2 ^ 64 ∧ (v : Int) = z % 2 ^ 64 := by
  have hlen := length_takeWhile_isSpace s
  rw [stoul_eq hnul]
  simp only [readInt]
  generalize takeSign (s.dropWhile isSpace) = t at hlen ⊢
  obtain ⟨neg, signLen, rest⟩ := t
  simp only at hlen ⊢
  by_cases hdigits : Digits rest
  · have hall : rest.takeWhile Char.isDigit = rest :=
      takeWhile_eq_self (List.all_eq_true.mp hdigits.2)
    rw [hall, if_neg hdigits.1, if_pos hdigits]
    generalize digitsValue rest = n
    by_cases hbig : 2 ^ 64 ≤ n
    · rw [if_pos hbig]
      refine iff_of_false (fun h => by cases h) ?_
      rintro ⟨z, hz, hlt, -⟩
      obtain rfl := Option.some.inj hz
      cases neg <;> simp at hlt <;> omega
    · have hend : (s.takeWhile isSpace).length + signLen + rest.length = s.length := by omega
      rw [if_neg hbig, hend]
      simp only [Option.some.injEq, Prod.mk.injEq, and_true]
      constructor
      · rintro rfl
        refine ⟨_, rfl, ?_, ?_⟩ <;> cases neg <;> simp <;> omega
      · rintro ⟨z, rfl, -, hv⟩
        cases neg <;> simp at hv ⊢ <;> omega
  · rw [if_neg hdigits]
    refine iff_of_false (fun h => ?_) (fun ⟨z, hz, _⟩ => by cases hz)
    split at h
    · cases h
    · rename_i hne
      split at h
      · cases h
      · -- the digits read would be all there is behind the sign
        simp only [Option.some.injEq, Prod.mk.injEq] at h
        have hwhole : rest.takeWhile Char.isDigit = rest :=
          (List.takeWhile_prefix _).eq_of_length (by omega)
        rw [← hwhole] at hdigits
        exact hdigits ⟨hne, List.all_takeWhile⟩

theorem stoul_takeWhile (s : Text) : stoul (s.takeWhile (· != '\x00')) = stoul s := by
  have hidem : (s.takeWhile (· != '\x00')).takeWhile (· != '\x00')
      = s.takeWhile (· != '\x00') :=
    takeWhile_eq_self fun c hc => (List.all_eq_true.mp List.all_takeWhile c hc)
  rw [stoul, stoul]
  simp only [hidem]

theorem endPos_le {s : Text} {v e : Nat} (hnul : '\x00' ∉ s) (h : stoul s = some (v, e)) :
    e ≤ s.length := by
  have hlen := length_takeWhile_isSpace s
  rw [stoul_eq hnul] at h
  generalize takeSign (s.dropWhile isSpace) = t at hlen h
  obtain ⟨neg, signLen, rest⟩ := t
  have hle : (rest.takeWhile Char.isDigit).length ≤ rest.length :=
    (List.takeWhile_prefix _).length_le
  simp only at hlen h
  split at h
  · cases h
  · split at h
    · cases h
    · simp only [Option.some.injEq, Prod.mk.injEq] at h
      omega

/-- `ParseInt` accepts the texts that denote an integer of at most 64
bits, and returns the integer modulo `2 ^ 64`. -/
theorem parseInt_eq_some {s : Text} {v : Nat} : parseInt s = some v ↔
    ∃ z, readInt s = some z ∧ z.natAbs < 2 ^ 64 ∧ (v : Int) = z % 2 ^ 64 := by
  have hparse : parseInt s = some v ↔ stoul s = some (v, s.length) := by
    rw [parseInt]
    constructor
    · intro h
      split at h
      · cases h
      · rename_i v' e hstoul
        split at h
        · rename_i he
          obtain rfl := Option.some.inj h
          rw [hstoul, he]
        · cases h
    · intro h
      rw [h]
      exact if_pos rfl
  rw [hparse]
  constructor
  · intro h
    have hnul : '\x00' ∉ s.takeWhile (· != '\x00') := fun hmem =>
      absurd (List.all_eq_true.mp List.all_takeWhile _ hmem) (by decide)
    have hle := endPos_le hnul ((stoul_takeWhile s).trans h)
    have hwhole : s.takeWhile (· != '\x00') = s := (List.takeWhile_prefix _).eq_of_length_le hle
    rw [hwhole] at hnul
    exact (stoul_whole hnul).mp h
  · rintro ⟨z, hz, hspec⟩
    exact (stoul_whole (not_mem_of_readInt hz rfl rfl (by decide) (by decide))).mpr ⟨z, hz, hspec⟩

theorem parseInt_isSome {s : Text} :
    (parseInt s).isSome ↔ ∃ z, readInt s = some z ∧ z.natAbs < 2 ^ 64 := by
  rw [Option.isSome_iff_exists]
  constructor
  · rintro ⟨v, hv⟩
    obtain ⟨z, hz, hlt, -⟩ := parseInt_eq_some.mp hv
    exact ⟨z, hz, hlt⟩
  · rintro ⟨z, hz, hlt⟩
    have hpos : 0 ≤ z % 2 ^ 64 := Int.emod_nonneg z (by decide)
    exact ⟨(z % 2 ^ 64).toNat, parseInt_eq_some.mpr ⟨z, hz, hlt, Int.toNat_of_nonneg hpos⟩⟩

/-- An integer that fits is returned as it is. -/
theorem parseInt_of_nonneg {s : Text} {v : Nat} {z : Int} (h : parseInt s = some v)
    (hz : readInt s = some z) (hpos : 0 ≤ z) : (v : Int) = z := by
  obtain ⟨z', hz', hlt, hv⟩ := parseInt_eq_some.mp h
  obtain rfl := Option.some.inj (hz.symm.trans hz')
  rw [hv]
  exact Int.emod_eq_of_lt hpos (by omega)

/-! ## Digits and nothing else -/

/-- `ParseInt` accepts digits that denote a 64-bit number, and nothing
else. -/
def ParseIntExact (s : Text) : Prop :=
  ∀ v, parseInt s = some v ↔ Digits s ∧ v = digitsValue s ∧ v < 2 ^ 64

/-- The digits of a 64-bit number behind white space or a sign. -/
def Padded (s : Text) : Prop :=
  ∃ space neg plus digits, s = space ++ (signText neg plus ++ digits)
    ∧ space.all isSpace = true ∧ space ++ signText neg plus ≠ [] ∧ Digits digits
    ∧ digitsValue digits < 2 ^ 64

theorem readInt_digits {s : Text} (h : Digits s) : readInt s = some (digitsValue s) :=
  readInt_eq_some.mpr ⟨[], false, false, s, rfl, rfl, h, rfl⟩

/-- What stands in front of the digits is not one. -/
theorem not_digits_of_padding {space digits : Text} {neg plus : Bool}
    (hspace : space.all isSpace = true) (hne : space ++ signText neg plus ≠ []) :
    ¬ Digits (space ++ (signText neg plus ++ digits)) := by
  rintro ⟨-, hall⟩
  rw [List.all_append, List.all_append, Bool.and_eq_true, Bool.and_eq_true] at hall
  obtain ⟨hdigit, hsign, -⟩ := hall
  cases space with
  | nil => cases neg <;> cases plus <;> first | exact hne rfl | cases hsign
  | cons c space =>
      have hc := (Bool.and_eq_true_iff.mp hdigit).1
      have hc' := (Bool.and_eq_true_iff.mp hspace).1
      rw [isDigit_not_isSpace hc] at hc'
      cases hc'

theorem parseIntExact_iff {s : Text} : ParseIntExact s ↔ ¬ Padded s := by
  constructor
  · rintro hexact ⟨space, neg, plus, digits, rfl, hspace, hne, hdigits, hlt⟩
    have hread := readInt_eq_some.mpr ⟨space, neg, plus, digits, rfl, hspace, hdigits, rfl⟩
    have hsome := parseInt_isSome.mpr ⟨_, hread, by cases neg <;> simpa using hlt⟩
    obtain ⟨v, hv⟩ := Option.isSome_iff_exists.mp hsome
    exact not_digits_of_padding hspace hne ((hexact v).mp hv).1
  · intro hpad v
    rw [parseInt_eq_some]
    constructor
    · rintro ⟨z, hz, hlt, hv⟩
      obtain ⟨space, neg, plus, digits, rfl, hspace, hdigits, rfl⟩ := readInt_eq_some.mp hz
      have hval : digitsValue digits < 2 ^ 64 := by cases neg <;> simpa using hlt
      have hnone : space ++ signText neg plus = [] := by
        by_contra hne
        exact hpad ⟨space, neg, plus, digits, rfl, hspace, hne, hdigits, hval⟩
      obtain ⟨rfl, hsign⟩ := List.append_eq_nil_iff.mp hnone
      have hneg : neg = false := by
        cases neg with
        | false => rfl
        | true => cases hsign
      subst hneg
      rw [hsign]
      have hv : (v : Int) = (digitsValue digits : Int) % 2 ^ 64 := hv
      exact ⟨hdigits, show v = digitsValue digits by omega, by omega⟩
    · rintro ⟨hdigits, rfl, hlt⟩
      exact ⟨_, readInt_digits hdigits, by simpa using hlt, by omega⟩

end Yapas
