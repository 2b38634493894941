import Mathlib.Algebra.Group.Nat.Defs
import Mathlib.Data.List.Basic
import Mathlib.Data.List.Infix

/-!
# Text

The operations of `std::string` and `std::getline` that line-oriented
parsers are made of, on lists of characters (a `char` is the character
with its code): cutting a text at the first occurrence of a character,
searching for a substring, reading lines, and the decimal conversion
`std::stoul`.

`cut_eq_some` and `cut_append` say everything a caller needs to know
about `find` followed by two `substr`; `getlines_cons` does so for one
step of a `getline` loop, and `stoul_decimal` for a printed number.
-/

namespace Yapas

abbrev Text := List Char

/-! ## Cutting -/

/-- `find(c)` and the two `substr` around it. -/
def cut (c : Char) (s : Text) : Option (Text × Text) :=
  (s.findIdx? (· == c)).map fun pos => (s.take pos, s.drop (pos + 1))

@[simp] theorem cut_nil (c : Char) : cut c [] = none := rfl

theorem cut_cons_self (c : Char) (s : Text) : cut c (c :: s) = some ([], s) := by
  simp [cut, List.findIdx?_cons]

theorem cut_cons_of_ne {c x : Char} (h : x ≠ c) (s : Text) :
    cut c (x :: s) = (cut c s).map fun ab => (x :: ab.1, ab.2) := by
  simp [cut, List.findIdx?_cons, h, Function.comp_def]

theorem cut_append {c : Char} : ∀ {a : Text} (b : Text), c ∉ a →
    cut c (a ++ c :: b) = some (a, b)
  | [], b, _ => cut_cons_self c b
  | x :: a, b, h => by
      rw [List.mem_cons, not_or] at h
      rw [List.cons_append, cut_cons_of_ne (Ne.symm h.1), cut_append b h.2]
      rfl

theorem cut_eq_none {c : Char} : ∀ {s : Text}, cut c s = none ↔ c ∉ s
  | [] => by simp
  | x :: s => by
      by_cases hx : x = c
      · subst hx
        simp [cut_cons_self]
      · simp [cut_cons_of_ne hx, cut_eq_none, Ne.symm hx]

theorem cut_eq_some {c : Char} {s a b : Text} :
    cut c s = some (a, b) ↔ s = a ++ c :: b ∧ c ∉ a := by
  constructor
  · intro h
    induction s generalizing a with
    | nil => cases h
    | cons x s ih =>
        by_cases hx : x = c
        · subst hx
          rw [cut_cons_self] at h
          cases h
          exact ⟨rfl, List.not_mem_nil⟩
        · rw [cut_cons_of_ne hx, Option.map_eq_some_iff] at h
          obtain ⟨⟨a', b'⟩, hcut, hab⟩ := h
          cases hab
          obtain ⟨rfl, hc⟩ := ih hcut
          exact ⟨rfl, by simp [hc, Ne.symm hx]⟩
  · rintro ⟨rfl, hc⟩
    exact cut_append b hc

/-! ## Substrings -/

/-- `find(pat) != npos`. -/
def contains (pat s : Text) : Bool := decide (pat <:+: s)

theorem contains_eq_true {pat s : Text} : contains pat s = true ↔ pat <:+: s :=
  decide_eq_true_iff

theorem contains_of_prefix (pat s : Text) : contains pat (pat ++ s) = true :=
  contains_eq_true.mpr (List.prefix_append pat s).isInfix

/-- A text without the first character of a pattern does not contain
the pattern. -/
theorem contains_eq_false_of_not_mem {c : Char} {pat s : Text} (hpat : c ∈ pat)
    (hs : c ∉ s) : contains pat s = false := by
  rw [Bool.eq_false_iff, Ne, contains_eq_true]
  exact fun h => hs (h.subset hpat)

/-! ## Lines -/

/-- The lines a `getline` loop sees: a last piece without a newline is
one of them unless it is empty. -/
def getlines : Text → List Text
  | [] => []
  | c :: s =>
      if c = '\n' then [] :: getlines s
      else match getlines s with
        | [] => [[c]]
        | l :: ls => (c :: l) :: ls

theorem getlines_cons : ∀ {l : Text} (s : Text), '\n' ∉ l →
    getlines (l ++ '\n' :: s) = l :: getlines s
  | [], s, _ => by simp [getlines]
  | c :: l, s, h => by
      rw [List.mem_cons, not_or] at h
      rw [List.cons_append, getlines, if_neg (Ne.symm h.1), getlines_cons s h.2]

theorem getlines_last : ∀ {l : Text}, l ≠ [] → '\n' ∉ l → getlines l = [l]
  | [], h, _ => absurd rfl h
  | [c], _, h => by
      rw [List.mem_singleton] at h
      simp [getlines, Ne.symm h]
  | c :: d :: l, _, h => by
      rw [List.mem_cons, not_or] at h
      rw [getlines, if_neg (Ne.symm h.1), getlines_last (List.cons_ne_nil d l) h.2]

/-! ## Numbers -/

/-- `isspace` of the C locale. -/
def isSpace (c : Char) : Bool :=
  c == ' ' || c == '\t' || c == '\n' || c == '\x0b' || c == '\x0c' || c == '\r'

/-- The sign `strtoul` accepts, and what follows it. -/
def takeSign : Text → Bool × Nat × Text
  | '-' :: s => (true, 1, s)
  | '+' :: s => (false, 1, s)
  | s => (false, 0, s)

/-- `std::stoul(s.c_str(), &end_pos, 10)` with a 64-bit `unsigned long`:
the value and `end_pos`, or `none` where it throws. A negated number
wraps. -/
def stoul (s : Text) : Option (Nat × Nat) :=
  let s := s.takeWhile (· != '\x00')
  let space := s.takeWhile isSpace
  let (neg, signLen, rest) := takeSign (s.drop space.length)
  let digits := rest.takeWhile Char.isDigit
  let n := Nat.ofDigitChars 10 digits 0
  if digits = [] then none
  else if 2 ^ 64 ≤ n then none
  else some (if neg then (2 ^ 64 - n) % 2 ^ 64 else n,
    space.length + signLen + digits.length)

theorem takeWhile_eq_self {p : Char → Bool} {s : Text} (h : ∀ c ∈ s, p c = true) :
    s.takeWhile p = s := by
  induction s with
  | nil => rfl
  | cons c s ih =>
      rw [List.takeWhile_cons, if_pos (h c (by simp)), ih fun d hd => h d (by simp [hd])]

theorem isDigit_ne {c d : Char} (hc : c.isDigit = true) (hd : d.isDigit = false) :
    c ≠ d := by
  rintro rfl
  rw [hc] at hd
  cases hd

theorem isDigit_not_isSpace {c : Char} (hc : c.isDigit = true) : isSpace c = false := by
  simp only [isSpace, Bool.or_eq_false_iff, beq_eq_false_iff_ne]
  refine ⟨⟨⟨⟨⟨?_, ?_⟩, ?_⟩, ?_⟩, ?_⟩, ?_⟩ <;> exact isDigit_ne hc (by decide)

/-- A non-empty run of digits is read as the number it denotes. -/
theorem stoul_digits {s : Text} (hne : s ≠ []) (hs : ∀ c ∈ s, c.isDigit = true)
    (hlt : Nat.ofDigitChars 10 s 0 < 2 ^ 64) :
    stoul s = some (Nat.ofDigitChars 10 s 0, s.length) := by
  obtain ⟨c, t, rfl⟩ := List.exists_cons_of_ne_nil hne
  have hc : c.isDigit = true := hs c (by simp)
  have hnul : (c :: t).takeWhile (· != '\x00') = c :: t :=
    takeWhile_eq_self fun d hd => by simpa using isDigit_ne (hs d hd) (by decide)
  have hspace : (c :: t).takeWhile isSpace = [] := by
    rw [List.takeWhile_cons, isDigit_not_isSpace hc]
    rfl
  have hsign : takeSign (c :: t) = (false, 0, c :: t) := by
    unfold takeSign
    split
    · rename_i heq
      cases heq
      cases hc
    · rename_i heq
      cases heq
      cases hc
    · rfl
  rw [stoul]
  simp only [hnul, hspace, List.length_nil, List.drop_zero, hsign, takeWhile_eq_self hs,
    if_neg hne, if_neg (Nat.not_le_of_lt hlt)]
  simp

/-- The decimal numeral of a number. -/
def decimal (n : Nat) : Text := Nat.toDigits 10 n

theorem decimal_isDigit {n : Nat} {c : Char} (h : c ∈ decimal n) : c.isDigit = true :=
  Nat.isDigit_of_mem_toDigits (by decide) (by decide) h

theorem not_mem_decimal {c : Char} (hc : c.isDigit = false) (n : Nat) : c ∉ decimal n :=
  fun h => isDigit_ne (decimal_isDigit h) hc rfl

theorem stoul_decimal {n : Nat} (h : n < 2 ^ 64) :
    stoul (decimal n) = some (n, (decimal n).length) := by
  have hval : Nat.ofDigitChars 10 (decimal n) 0 = n := Nat.ofDigitChars_ten_toDigits
  have := stoul_digits (s := decimal n) Nat.toDigits_ne_nil (fun c => decimal_isDigit)
    (by rw [hval]; exact h)
  rwa [hval] at this

end Yapas
