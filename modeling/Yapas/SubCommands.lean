import Yapas.Completion

/-!
# The list of the sub-commands

Behind a command of several words the list shows the candidates without
the first one. `eraseMainCmd` takes it out by searching the whole list
from the front, once for each candidate.

The list is read as a part that is done, `z`, and the candidates still
to come. What is erased is as long as the main command, so the done part
has the length it should have from then on, and a wrong one never turns
into the right one again (`eraseFrom_eq_iff`): the list is right exactly
when every search ends at the head of the next candidate. That is a
condition on the candidates alone, since no main command reaches over a
space (`headsAt_iff`).
-/

namespace Yapas

/-! ## Searching -/

theorem findText_of_prefix {pat s : Text} (h : pat <+: s) : findText pat s = some 0 := by
  cases s with
  | nil => exact if_pos (List.prefix_nil.mp h)
  | cons c s => exact if_pos (List.isPrefixOf_iff_prefix.mpr h)

theorem findText_length {pat : Text} : ∀ {s : Text} {n : Nat}, findText pat s = some n →
    n + pat.length ≤ s.length
  | [], n, h => by
      rw [findText] at h
      split at h
      · rename_i hnil
        obtain rfl := Option.some.inj h
        rw [hnil]
        exact Nat.le_refl 0
      · cases h
  | c :: s, n, h => by
      rw [findText] at h
      split at h
      · rename_i hpre
        obtain rfl := Option.some.inj h
        rw [Nat.zero_add]
        exact (List.isPrefixOf_iff_prefix.mp hpre).length_le
      · obtain ⟨m, hm, rfl⟩ := Option.map_eq_some_iff.mp h
        have := findText_length hm
        rw [List.length_cons]
        omega

/-- What is found in a text is found there with more text behind. -/
theorem findText_append_right {pat : Text} (b : Text) : ∀ {a : Text} {n : Nat},
    findText pat a = some n → findText pat (a ++ b) = some n
  | [], n, h => by
      rw [findText] at h
      split at h
      · rename_i hnil
        obtain rfl := Option.some.inj h
        exact findText_of_prefix (hnil ▸ List.nil_prefix)
      · cases h
  | c :: a, n, h => by
      rw [findText] at h
      split at h
      · rename_i hpre
        obtain rfl := Option.some.inj h
        exact findText_of_prefix ((List.isPrefixOf_iff_prefix.mp hpre).trans
          (List.prefix_append _ b))
      · rename_i hnot
        obtain ⟨m, hm, rfl⟩ := Option.map_eq_some_iff.mp h
        have hlen := findText_length hm
        have hnot' : ¬pat.isPrefixOf (c :: (a ++ b)) = true := by
          intro hpre
          refine hnot (List.isPrefixOf_iff_prefix.mpr ?_)
          refine List.prefix_of_prefix_length_le (List.isPrefixOf_iff_prefix.mp hpre)
            (List.prefix_append (c :: a) b) ?_
          rw [List.length_cons]
          omega
        rw [List.cons_append, findText, if_neg hnot', findText_append_right b hm, Option.map_some]

/-- What does not hold `x` does not reach over one. -/
theorem prefix_append_cons_iff {α : Type} {c a b : List α} {x : α} (hx : x ∉ c) :
    c <+: a ++ x :: b ↔ c <+: a := by
  refine ⟨fun ⟨t, ht⟩ => ?_, fun h => h.trans (List.prefix_append a _)⟩
  rcases List.append_eq_append_iff.mp ht with ⟨d, rfl, -⟩ | ⟨d, rfl, hd⟩
  · exact List.prefix_append c d
  · cases d with
    | nil => rw [List.append_nil]
    | cons y d =>
        obtain ⟨rfl, -⟩ := List.cons.inj hd
        exact absurd (List.mem_append_right a List.mem_cons_self) hx

theorem infix_append_cons_iff {α : Type} {c b : List α} {x : α} (hx : x ∉ c) : ∀ {a : List α},
    c <:+: a ++ x :: b ↔ c <:+: a ∨ c <:+: b
  | [] => by
      rw [List.nil_append, List.infix_cons_iff, List.infix_nil]
      refine or_congr_left ?_
      rw [← List.nil_append (x :: b), prefix_append_cons_iff hx, List.prefix_nil]
  | y :: a => by
      rw [List.cons_append, List.infix_cons_iff, List.infix_cons_iff, infix_append_cons_iff hx,
        ← List.cons_append, prefix_append_cons_iff hx, or_assoc]

theorem findText_infix {pat a : Text} (b : Text) (h : pat <:+: a) :
    ∃ n, findText pat (a ++ b) = some n ∧ n + pat.length ≤ a.length := by
  obtain ⟨u, v, rfl⟩ := h
  obtain ⟨n, hn, hle⟩ := findText_append (List.prefix_append pat v) u
  rw [← List.append_assoc] at hn
  exact ⟨n, findText_append_right b hn, findText_length hn⟩

theorem findText_append_cons {pat : Text} {x : Char} (hx : x ∉ pat) (b : Text) : ∀ {a : Text},
    ¬pat <:+: a → findText pat (a ++ x :: b) = (findText pat b).map (· + (a.length + 1))
  | [], h => by
      have hpre : ¬pat.isPrefixOf (x :: b) = true := by
        rw [List.isPrefixOf_iff_prefix, ← List.nil_append (x :: b), prefix_append_cons_iff hx]
        exact fun hpre => h hpre.isInfix
      rw [List.nil_append, findText, if_neg hpre]
      rfl
  | c :: a, h => by
      rw [List.infix_cons_iff, not_or] at h
      have hpre : ¬pat.isPrefixOf (c :: (a ++ x :: b)) = true := by
        rw [List.isPrefixOf_iff_prefix, ← List.cons_append, prefix_append_cons_iff hx]
        exact h.1
      rw [List.cons_append, findText, if_neg hpre, findText_append_cons hx b h.2, Option.map_map]
      rfl

namespace CmdLine

/-! ## One search -/

/-- The main command is found at the head of the next candidate, where
`z` is done. A newline may be taken for another one. -/
def HeadAt (main z : Text) : Prop :=
  ∃ n, findText (cStr main) (z ++ main) = some n
    ∧ (n = z.length ∨ n + 1 = z.length ∧ z.getLast? = some '\n' ∧ main.getLast? = some '\n')

/-- The text ends as the list does behind a candidate. -/
def Ended (z : Text) : Prop := z = [] ∨ ∃ y i, z = y ++ separator i

theorem ended_concat {z : Text} {x : Char} (h : Ended (z ++ [x])) :
    x = ' ' ∨ x = '\n' ∧ ∃ y, z = y ++ [' '] := by
  obtain hnil | ⟨y, i, hy⟩ := h
  · exact absurd hnil (List.concat_ne_nil _ _)
  · rw [separator] at hy
    split at hy
    · rw [List.append_cons y] at hy
      obtain ⟨rfl, hx⟩ := List.append_inj' hy rfl
      exact Or.inr ⟨List.singleton_inj.mp hx, y, rfl⟩
    · obtain ⟨-, hx⟩ := List.append_inj' hy rfl
      exact Or.inl (List.singleton_inj.mp hx)

/-- What moves up to where the search ended is what has been there, and
so the search ended at the head, or at a newline in front of it. -/
theorem moved_up {main a d e f : Text} (hspace : ' ' ∉ main) (hne : main ≠ [])
    (h : d ++ main = e ++ f) (hlen : e.length = main.length) (hend : Ended (a ++ f))
    (hlast : (a ++ d).getLast? = (a ++ f).getLast?) :
    d = f ∧ (d = [] ∨ d = ['\n'] ∧ main.getLast? = some '\n') := by
  have hdf : d.length = f.length := by
    have := congrArg List.length h
    rw [List.length_append, List.length_append] at this
    omega
  obtain rfl | ⟨f, x, rfl⟩ := List.eq_nil_or_concat f
  · have hnil : d = [] := List.length_eq_zero_iff.mp hdf
    exact ⟨hnil, Or.inl hnil⟩
  obtain rfl | ⟨d, x', rfl⟩ := List.eq_nil_or_concat d
  · rw [List.concat_eq_append, List.length_append] at hdf
    cases hdf
  obtain rfl | ⟨main, w, rfl⟩ := List.eq_nil_or_concat main
  · exact absurd rfl hne
  simp only [List.concat_eq_append, ← List.append_assoc] at *
  obtain rfl : x' = x := by simpa using hlast
  obtain ⟨h, hw⟩ := List.append_inj' h rfl
  obtain rfl := List.singleton_inj.mp hw
  obtain rfl | ⟨rfl, y, hy⟩ := ended_concat hend
  · exact absurd (List.mem_append_right main List.mem_cons_self) hspace
  obtain rfl | ⟨f, v, rfl⟩ := List.eq_nil_or_concat f
  · obtain rfl : d = [] := List.length_eq_zero_iff.mp (by simpa using hdf)
    exact ⟨rfl, Or.inr ⟨rfl, List.getLast?_concat⟩⟩
  simp only [List.concat_eq_append, ← List.append_assoc] at *
  obtain ⟨-, hv⟩ := List.append_inj' hy rfl
  obtain rfl := List.singleton_inj.mp hv
  -- the space in front of the newline would stand in the main command, or end the text
  obtain rfl | ⟨main, u, rfl⟩ := List.eq_nil_or_concat main
  · rw [List.append_nil] at h
    obtain ⟨-, hx⟩ := List.append_inj' h rfl
    exact absurd (List.singleton_inj.mp hx) (by decide)
  · simp only [List.concat_eq_append, ← List.append_assoc] at h hspace
    obtain ⟨-, hu⟩ := List.append_inj' h rfl
    obtain rfl := List.singleton_inj.mp hu
    simp at hspace

/-- One search and what is erased there: the part in front keeps its
length, and it is right afterwards if it was before and the search ended
at the head. -/
theorem eraseHead {main z Z : Text} (hspace : ' ' ∉ main) (hne : main ≠ [])
    (hlen : z.length = Z.length) (hlast : z.getLast? = Z.getLast?) (hend : Ended Z) (b : Text) :
    ∃ n y, findText (cStr main) (z ++ main ++ b) = some n
      ∧ erase (z ++ main ++ b) n (some main.length) = some (y ++ b)
      ∧ y.length = z.length ∧ (y = Z ↔ z = Z ∧ HeadAt main Z) := by
  obtain ⟨n, hn, hle⟩ := findText_append (List.takeWhile_prefix (· ≠ '\x00') : cStr main <+: main) z
  obtain ⟨a, d, rfl, rfl⟩ : ∃ a d, z = a ++ d ∧ n = a.length :=
    ⟨z.take n, z.drop n, (List.take_append_drop n z).symm, (List.length_take_of_le hle).symm⟩
  obtain ⟨e, f, hef, helen⟩ : ∃ e f, d ++ main = e ++ f ∧ e.length = main.length := by
    refine ⟨_, _, (List.take_append_drop main.length (d ++ main)).symm, ?_⟩
    exact List.length_take_of_le (by rw [List.length_append]; omega)
  have hdf : d.length = f.length := by
    have := congrArg List.length hef
    rw [List.length_append, List.length_append] at this
    omega
  refine ⟨a.length, a ++ f, findText_append_right b hn, ?_, ?_, ?_⟩
  · have hsplit : a ++ d ++ main ++ b = a ++ e ++ (f ++ b) := by
      rw [List.append_assoc a d, hef]
      simp only [List.append_assoc]
    rw [hsplit, ← helen, erase_append, List.append_assoc]
  · rw [List.length_append, List.length_append, hdf]
  constructor
  · rintro rfl
    obtain ⟨rfl, hcase⟩ := moved_up hspace hne hef helen hend hlast
    refine ⟨rfl, _, hn, ?_⟩
    rcases hcase with rfl | ⟨rfl, hmain⟩
    · exact Or.inl (by rw [List.append_nil])
    · exact Or.inr ⟨by rw [List.length_append]; rfl, List.getLast?_concat, hmain⟩
  · rintro ⟨rfl, m, hm, hcase⟩
    obtain rfl := Option.some.inj (hn.symm.trans hm)
    refine congrArg (a ++ ·) ?_
    rcases hcase with hall | ⟨hone, hnl, hmain⟩
    · obtain rfl : d = [] := List.length_eq_zero_iff.mp (by rw [List.length_append] at hall; omega)
      exact List.length_eq_zero_iff.mp hdf.symm
    · obtain ⟨x, rfl⟩ := List.length_eq_one_iff.mp
        (show d.length = 1 by rw [List.length_append] at hone; omega)
      obtain ⟨x', rfl⟩ := List.length_eq_one_iff.mp (hdf.symm : f.length = 1)
      have hx : x = '\n' := by simpa using hnl
      have hlast' := congrArg List.getLast? hef
      rw [List.getLast?_append, hmain, List.getLast?_concat] at hlast'
      rw [hx, ← Option.some.inj hlast']

/-! ## All of them -/

/-- The list is right exactly when all before the first search is and
every search ends at the head. -/
theorem eraseFrom_eq_iff {main : Text} (hspace : ' ' ∉ main) (hne : main ≠ []) :
    ∀ (ts : List Text) (i : Nat) {z Z : Text}, z.length = Z.length →
      z.getLast? = Z.getLast? → Ended Z →
      (eraseMainCmd main ts.length (z ++ listedFrom i (ts.map (main ++ ·)))
          = some (Z ++ listedFrom i ts)
        ↔ z = Z ∧ ∀ j < ts.length, HeadAt main (Z ++ listedFrom i (ts.take j)))
  | [], i, z, Z, _, _, _ => by
      simp [eraseMainCmd, listedFrom]
  | t :: ts, i, z, Z, hlen, hlast, hend => by
      obtain ⟨b, hb⟩ : ∃ b, t ++ separator i = b := ⟨_, rfl⟩
      have hbne : b ≠ [] := hb ▸ List.append_ne_nil_of_right_ne_nil _ (List.cons_ne_nil _ _)
      have htext : z ++ listedFrom i ((t :: ts).map (main ++ ·))
          = z ++ main ++ (b ++ listedFrom (i + 1) (ts.map (main ++ ·))) := by
        rw [List.map_cons, listedFrom_cons, List.append_assoc main, hb]
        simp only [List.append_assoc]
      obtain ⟨n, y, hfind, herase, hylen, hright⟩ := eraseHead hspace hne hlen hlast hend
        (b ++ listedFrom (i + 1) (ts.map (main ++ ·)))
      have hrest := eraseFrom_eq_iff hspace hne ts (i + 1) (z := y ++ b) (Z := Z ++ b)
        (by rw [List.length_append, List.length_append, hylen, hlen])
        (by rw [List.getLast?_append_of_ne_nil _ hbne, List.getLast?_append_of_ne_nil _ hbne])
        (Or.inr ⟨Z ++ t, i, by rw [List.append_assoc, hb]⟩)
      have hrun : eraseMainCmd main (t :: ts).length
            (z ++ listedFrom i ((t :: ts).map (main ++ ·)))
          = eraseMainCmd main ts.length
            (y ++ b ++ listedFrom (i + 1) (ts.map (main ++ ·))) := by
        rw [htext, List.length_cons, eraseMainCmd, hfind, Option.map_some, Option.getD_some]
        show (erase _ (n : Int) (some main.length)).bind _ = _
        rw [herase, Option.bind_some, List.append_assoc]
      have hlist : ∀ ts, Z ++ listedFrom i (t :: ts) = Z ++ b ++ listedFrom (i + 1) ts := by
        intro ts
        rw [listedFrom_cons, hb, List.append_assoc]
      rw [hrun, hlist ts, hrest, List.append_cancel_right_eq, hright, and_assoc, List.length_cons,
        Nat.forall_lt_succ_left]
      simp only [List.take_zero, List.take_succ_cons, hlist]
      simp only [listedFrom, List.zipIdx_nil, List.flatMap_nil, List.append_nil]

/-! ## Where the main command is found -/

section Word

variable {c : Text} (hspace : ' ' ∉ c) (hne : c ≠ [])

include hspace hne

theorem infix_cons_space {t : Text} : c <:+: ' ' :: t ↔ c <:+: t := by
  rw [← List.nil_append (' ' :: t), infix_append_cons_iff hspace, List.infix_nil]
  exact or_iff_right hne

theorem infix_listed : ∀ ts : List Text, (∀ t ∈ ts, ∃ t', t = ' ' :: t') →
    (c <:+: listed ts ↔ (∃ t ∈ ts, c <:+: t) ∨ c = ['\n'] ∧ 4 ≤ ts.length) := by
  intro ts
  induction ts using List.reverseRecOn with
  | nil => exact fun _ => by simp [listed, hne]
  | append_singleton ts t ih =>
      intro hts
      obtain ⟨t', rfl⟩ := hts t (List.mem_append_right ts List.mem_cons_self)
      have hnl : c <:+: (if (ts.length + 1) % 4 = 0 then ['\n'] else [])
          ↔ c = ['\n'] ∧ (ts.length + 1) % 4 = 0 := by
        split
        · rename_i hfour
          rw [List.infix_cons_iff, List.infix_nil, or_iff_left hne, List.prefix_cons_iff,
            or_iff_right hne, and_iff_left hfour]
          simp [List.prefix_nil]
        · rename_i hfour
          rw [List.infix_nil]
          exact iff_of_false hne fun h => hfour h.2
      have hcount : 4 ≤ ts.length + 1 ↔ 4 ≤ ts.length ∨ (ts.length + 1) % 4 = 0 := by omega
      have hends : (∃ t ∈ ts ++ [' ' :: t'], c <:+: t) ↔ (∃ t ∈ ts, c <:+: t) ∨ c <:+: t' := by
        simp only [List.mem_append, List.mem_singleton, or_and_right, exists_or, exists_eq_left,
          infix_cons_space hspace hne]
      have hbefore := ih fun t ht => hts t (List.mem_append_left _ ht)
      rw [listed_concat, List.append_assoc _ [' '], List.singleton_append]
      rw [infix_append_cons_iff hspace, infix_append_cons_iff hspace]
      rw [hnl, hends, hbefore, List.length_append, List.length_singleton, hcount, and_or_left,
        or_assoc, or_or_or_comm]

end Word

/-- Behind a candidate the search has to pass what is left of it, and a
newline if the candidate is the fourth in its row. -/
theorem headAt_concat {main : Text} (hspace : ' ' ∉ main) (hne : cStr main ≠ [])
    (ts : List Text) (t : Text) :
    HeadAt main (listed (ts ++ [t]))
      ↔ ¬cStr main <:+: listed ts ++ t ∧ ((ts.length + 1) % 4 = 0 →
        cStr main <+: '\n' :: main → main.getLast? = some '\n') := by
  have hspace' : ' ' ∉ cStr main := fun h => hspace (List.takeWhile_subset _ h)
  have hhead : findText (cStr main) main = some 0 := findText_of_prefix (List.takeWhile_prefix _)
  rw [listed_concat, List.append_assoc _ [' '], List.singleton_append]
  generalize listed ts ++ t = y
  rw [HeadAt, List.append_assoc, List.cons_append, List.length_append, List.length_cons]
  by_cases hin : cStr main <:+: y
  · have hpos := List.length_pos_iff.mpr hne
    obtain ⟨n, hn, hle⟩ := findText_infix
      (' ' :: ((if (ts.length + 1) % 4 = 0 then ['\n'] else []) ++ main)) hin
    rw [hn]
    refine iff_of_false ?_ fun h => h.1 hin
    rintro ⟨m, hm, hcase⟩
    obtain rfl := Option.some.inj hm
    omega
  rw [findText_append_cons hspace' _ hin]
  split
  · rename_i hfour
    simp only [hin, hfour, not_false_eq_true, true_and, true_imp_iff]
    rw [List.singleton_append, findText, hhead]
    simp only [List.isPrefixOf_iff_prefix, Option.map_some]
    split
    · rename_i hpre
      simp [hpre]
    · rename_i hpre
      simp [hpre, Nat.add_comm 1]
  · rename_i hfour
    simp [hin, hfour, hhead]

/-- The search finds the heads: the main command is empty, or what it is
searched as is not in the rest of a candidate that another one follows,
and not at the newline between two rows. -/
def HeadsFound (main : Text) (common : List Text) : Prop :=
  main = [] ∨ (∀ t ∈ common.dropLast, ¬cStr main <:+: t.drop main.length)
    ∧ (4 < common.length → cStr main <+: '\n' :: main → main.getLast? = some '\n')
    ∧ (cStr main = ['\n'] → common.length ≤ 5)

theorem headAt_nil (main : Text) : HeadAt main [] :=
  ⟨0, findText_of_prefix (List.takeWhile_prefix _), Or.inl rfl⟩

/-- What is empty as a C string is found in front of all, so it is not
found at the head of the second candidate. -/
theorem not_headAt_of_nul {main : Text} (hnil : cStr main = []) (t : Text) (ht : t ≠ []) :
    ¬HeadAt main (listed [t]) := by
  have hpos := List.length_pos_iff.mpr ht
  have hlen : 2 ≤ (listed [t]).length := by
    rw [← List.nil_append [t], listed_concat]
    simp only [List.length_append, List.length_singleton]
    omega
  rintro ⟨n, hn, hcase⟩
  rw [hnil, findText_of_prefix List.nil_prefix] at hn
  obtain rfl := Option.some.inj hn
  omega

theorem headAt_take {main : Text} {ts : List Text} (hspace : ' ' ∉ main) (hne : cStr main ≠ [])
    (hts : ∀ t ∈ ts, ∃ t', t = ' ' :: t') {j : Nat} (hj : j + 1 < ts.length) :
    HeadAt main (listed (ts.take (j + 1)))
      ↔ (∀ t ∈ ts.take (j + 1), ¬cStr main <:+: t) ∧ ¬(cStr main = ['\n'] ∧ 4 ≤ j)
        ∧ ((j + 1) % 4 = 0 → cStr main <+: '\n' :: main → main.getLast? = some '\n') := by
  have hspace' : ' ' ∉ cStr main := fun h => hspace (List.takeWhile_subset _ h)
  have hlt : j < ts.length := Nat.lt_of_succ_lt hj
  have hlen : (ts.take j).length = j := List.length_take_of_le (Nat.le_of_lt hlt)
  obtain ⟨t', ht'⟩ := hts ts[j] (List.getElem_mem hlt)
  have hbefore := infix_listed hspace' hne (ts.take j) fun t ht => hts t (List.mem_of_mem_take ht)
  rw [List.take_succ_eq_append_getElem hlt, headAt_concat hspace hne, ht',
    infix_append_cons_iff hspace', hbefore, hlen, ← and_assoc]
  refine and_congr_left' ?_
  rw [not_or, not_or, and_right_comm, List.forall_mem_append, List.forall_mem_singleton,
    infix_cons_space hspace' hne]
  simp only [not_exists, not_and]

theorem headsAt_iff {main : Text} {ts : List Text} (hspace : ' ' ∉ main) (hne : main ≠ [])
    (hts : ∀ t ∈ ts, ∃ t', t = ' ' :: t') (hmany : 2 ≤ ts.length) :
    (∀ j < ts.length, HeadAt main (listed (ts.take j)))
      ↔ HeadsFound main (ts.map (main ++ ·)) := by
  have hrest : (∀ t ∈ (ts.map (main ++ ·)).dropLast, ¬cStr main <:+: t.drop main.length)
      ↔ ∀ t ∈ ts.take (ts.length - 1), ¬cStr main <:+: t := by
    rw [← List.map_dropLast, List.forall_mem_map, List.dropLast_eq_take]
    simp only [List.drop_left]
  rw [HeadsFound, or_iff_right hne, hrest, List.length_map]
  by_cases hnil : cStr main = []
  · obtain ⟨t, ts, rfl⟩ := List.exists_cons_of_length_pos (Nat.lt_of_lt_of_le Nat.zero_lt_two hmany)
    obtain ⟨t', rfl⟩ := hts t List.mem_cons_self
    refine iff_of_false (fun h => ?_) fun h => ?_
    · exact not_headAt_of_nul hnil _ (List.cons_ne_nil _ _) (h 1 hmany)
    · rw [List.length_cons] at hmany
      refine h.1 (' ' :: t') ?_ (hnil ▸ List.nil_infix)
      rw [List.length_cons, Nat.add_sub_cancel, ← Nat.sub_add_cancel (Nat.le_of_succ_le_succ hmany)]
      exact List.mem_cons_self
  constructor
  · intro h
    have hat : ∀ j, j + 1 < ts.length → _ := fun j hj =>
      (headAt_take hspace hnil hts hj).mp (h (j + 1) hj)
    refine ⟨?_, fun hfour => (hat 3 hfour).2.2 rfl, fun hnl => ?_⟩
    · have hlast := (hat (ts.length - 2) (by omega)).1
      rwa [show ts.length - 2 + 1 = ts.length - 1 by omega] at hlast
    · exact Nat.le_of_not_lt fun hfive => (hat 4 hfive).2.1 ⟨hnl, Nat.le_refl 4⟩
  · rintro ⟨hfree, hfour, hfive⟩ (_ | j) hj
    · exact headAt_nil main
    · refine (headAt_take hspace hnil hts hj).mpr ⟨fun t ht => hfree t ?_, ?_, fun hrow => ?_⟩
      · exact (List.take_prefix_take_left (show j + 1 ≤ ts.length - 1 by omega)).subset ht
      · rintro ⟨hnl, hle⟩
        have := hfive hnl
        omega
      · exact hfour (by omega)

/-! ## What is shown -/

/-- `main_cmd`. -/
def mainCmd (cmd : Text) : Text := cmd.takeWhile (· ≠ ' ')

theorem mainCmd_eq {cmd : Text} (h : ' ' ∈ cmd) :
    ∃ rest, cmd = mainCmd cmd ++ ' ' :: rest ∧ ' ' ∉ mainCmd cmd := by
  obtain ⟨a, b, rfl, ha⟩ := List.eq_append_cons_of_mem h
  have hmain : mainCmd (a ++ ' ' :: b) = a := by
    rw [mainCmd, List.takeWhile_append_of_pos, List.takeWhile_cons_of_neg (by simp),
      List.append_nil]
    intro c hc
    rw [decide_eq_true_eq]
    rintro rfl
    exact ha hc
  rw [hmain]
  exact ⟨b, rfl, ha⟩

theorem eraseMainCmd_nil : ∀ (n : Nat) (possible : Text),
    eraseMainCmd [] n possible = some possible
  | 0, _ => rfl
  | n + 1, possible => by
      have hfind : findText (cStr []) possible = some 0 := findText_of_prefix List.nil_prefix
      have herase : erase possible (0 : Nat) (some 0) = some possible :=
        erase_append [] [] possible
      rw [eraseMainCmd, hfind, Option.map_some, Option.getD_some]
      show (erase possible (0 : Nat) (some 0)).bind _ = _
      rw [herase, Option.bind_some, eraseMainCmd_nil n possible]

/-- Every candidate is the main command and a rest that begins with the
space. -/
theorem offers_eq_map {s : CmdLine} (hspace : ' ' ∈ s.cmd) : ∃ ts : List Text,
    (∀ t ∈ ts, ∃ t', t = ' ' :: t') ∧ s.offers = ts.map (mainCmd s.cmd ++ ·)
      ∧ s.offers.map (·.drop (mainCmd s.cmd).length) = ts := by
  obtain ⟨rest, hcmd, -⟩ := mainCmd_eq hspace
  have hoffer : ∀ t ∈ s.offers, ∃ t', t = mainCmd s.cmd ++ ' ' :: t' := fun t ht => by
    obtain ⟨⟨t', rfl⟩, -⟩ := (of_decide_eq_true (List.mem_filter.mp ht).2 : Offered s.cmd t).1
    exact ⟨rest ++ t', by rw [← List.cons_append, ← List.append_assoc, ← hcmd]⟩
  refine ⟨_, List.forall_mem_map.mpr fun t ht => ?_, ?_, rfl⟩
  · obtain ⟨t', rfl⟩ := hoffer t ht
    exact ⟨t', List.drop_left⟩
  · rw [List.map_map]
    refine (List.map_id _).symm.trans (List.map_congr_left fun t ht => ?_)
    obtain ⟨t', rfl⟩ := hoffer t ht
    exact congrArg (mainCmd s.cmd ++ ·) List.drop_left.symm

/-- The list shows every candidate without the main command. -/
def ListsSubCommands (s : CmdLine) : Prop := ∀ possible appendStr, ∃ count appendStr',
  s.compareHints possible appendStr
    = some (count, listed (s.offers.map (·.drop (mainCmd s.cmd).length)), appendStr')

theorem compareHints_erased {s : CmdLine} (hspace : ' ' ∈ s.cmd) (hmany : 2 ≤ s.offers.length)
    (possible appendStr : Text) : ∃ count listing appendStr',
    s.compareHints possible appendStr = some (count, listing, appendStr')
      ∧ eraseMainCmd (mainCmd s.cmd) s.offers.length (listed s.offers) = some listing := by
  have hcmd : s.cmd ≠ [] := List.ne_nil_of_mem hspace
  have hcontains : s.cmd.contains ' ' = true := List.contains_iff_mem.mpr hspace
  have hm := s.matching_matched
  have hcommon : s.matching.common = s.offers := by
    rw [hm.common_eq, found_of_space hspace, offers]
  obtain ⟨listing, r, hrun, -⟩ := compareHints_completed hcmd possible appendStr
  refine ⟨_, listing, _, hrun, ?_⟩
  rw [compareHints, if_neg (mt List.length_eq_zero_iff.mp hcmd)] at hrun
  replace hrun := (if_neg (hcommon ▸ Nat.not_lt_of_le hmany)).symm.trans hrun
  replace hrun := (if_pos hcontains).symm.trans hrun
  obtain ⟨listing', hlisting, hrun⟩ := Option.bind_eq_some_iff.mp hrun
  obtain ⟨r', -, hr⟩ := Option.bind_eq_some_iff.mp hrun
  obtain ⟨-, hr⟩ := Prod.mk.inj (Option.some.inj hr)
  obtain ⟨rfl, -⟩ := Prod.mk.inj hr
  rw [← hcommon, ← hm.possible_eq, ← hm.i_eq]
  exact hlisting

/-- The list shows the candidates without the main command exactly when
the main command is found at no other place before. -/
theorem listsSubCommands_iff {s : CmdLine} (hspace : ' ' ∈ s.cmd) (hmany : 2 ≤ s.offers.length) :
    s.ListsSubCommands ↔ HeadsFound (mainCmd s.cmd) s.offers := by
  obtain ⟨-, -, hspace'⟩ := mainCmd_eq hspace
  obtain ⟨ts, hts, hoffers, hdrop⟩ := offers_eq_map hspace
  have hlists : s.ListsSubCommands
      ↔ eraseMainCmd (mainCmd s.cmd) s.offers.length (listed s.offers) = some (listed ts) := by
    rw [ListsSubCommands, hdrop]
    constructor
    · intro h
      obtain ⟨count, appendStr', hrun⟩ := h [] []
      obtain ⟨_, listing, _, hrun', herase⟩ := compareHints_erased hspace hmany [] []
      rw [hrun] at hrun'
      obtain ⟨-, hr⟩ := Prod.mk.inj (Option.some.inj hrun')
      rw [herase, (Prod.mk.inj hr).1]
    · intro h possible appendStr
      obtain ⟨count, listing, appendStr', hrun, herase⟩ :=
        compareHints_erased hspace hmany possible appendStr
      rw [Option.some.inj (h.symm.trans herase)]
      exact ⟨count, appendStr', hrun⟩
  rw [hoffers, List.length_map] at hmany hlists
  rw [hlists, hoffers]
  by_cases hne : mainCmd s.cmd = []
  · rw [hne, eraseMainCmd_nil, List.map_congr_left fun t _ => List.nil_append t, List.map_id']
    exact iff_of_true rfl (Or.inl rfl)
  · have hrun := eraseFrom_eq_iff hspace' hne ts 0 (z := []) (Z := []) rfl rfl (Or.inl rfl)
    refine hrun.trans ?_
    rw [eq_self, true_and]
    exact headsAt_iff hspace' hne hts hmany

/-- The main command is found again in the rest of the first hint. -/
def offsetHints : List Text := ["set offset".toList, "set port".toList]

theorem listsSubCommands_ports : ' ' ∈ (typed ["port up".toList, "port all".toList]
      "port ".toList).cmd
    ∧ (typed ["port up".toList, "port all".toList] "port ".toList).ListsSubCommands := by
  have hspace : ' ' ∈ (typed ["port up".toList, "port all".toList] "port ".toList).cmd := by
    decide
  refine ⟨hspace, (listsSubCommands_iff hspace (by decide)).mpr (Or.inr ?_)⟩
  decide

theorem not_listsSubCommands_offsetHints : ' ' ∈ (typed offsetHints "set ".toList).cmd
    ∧ 2 ≤ (typed offsetHints "set ".toList).offers.length
    ∧ ¬(typed offsetHints "set ".toList).ListsSubCommands := by
  refine ⟨by decide, by decide, fun h => ?_⟩
  obtain ⟨count, appendStr', hrun⟩ := h [] []
  have hlist : ((typed offsetHints "set ".toList).compareHints [] []).map (·.2.1)
      = some (listed [" offset".toList, " port".toList]) := by
    rw [hrun]
    rfl
  exact absurd hlist (by decide)

end CmdLine

end Yapas
