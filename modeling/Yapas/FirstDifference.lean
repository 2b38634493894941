import Mathlib.Data.List.Infix
import Mathlib.Order.Lattice
import Yapas.SearchTree

/-!
# Comparing by the first difference

Lists compared where they first differ. Unlike in the lexicographic order
a list is not less than those it is a beginning of: the two cannot be
compared (`comparable_differsBelow_iff`). The order is transitive
(`differsBelow_trans`), but to be incomparable is not, since a list can
be a beginning of two that differ (`incomparable_trans_iff`).
-/

namespace Yapas

variable {α : Type} [LinearOrder α] {xs ys zs : List α}

/-- The lists differ, and at the first difference the left one is less. -/
def differsBelow : List α → List α → Bool
  | [], _ => false
  | _ :: _, [] => false
  | x :: xs, y :: ys => if x = y then differsBelow xs ys else decide (x < y)

theorem differsBelow_nil_left (ys : List α) : differsBelow [] ys = false := rfl

theorem differsBelow_nil_right (xs : List α) : differsBelow xs [] = false := by
  cases xs <;> rfl

theorem differsBelow_cons (x y : α) : differsBelow (x :: xs) (y :: ys) = true
    ↔ x < y ∨ x = y ∧ differsBelow xs ys := by
  rw [differsBelow]
  by_cases hxy : x = y
  · rw [if_pos hxy, or_iff_right (hxy ▸ lt_irrefl x), and_iff_right hxy]
  · rw [if_neg hxy, decide_eq_true_iff, or_iff_left fun h => hxy h.1]

theorem differsBelow_trans : ∀ {xs ys zs : List α},
    differsBelow xs ys → differsBelow ys zs → differsBelow xs zs
  | [], _, _, h, _ => Bool.noConfusion h
  | _ :: _, [], _, h, _ => Bool.noConfusion h
  | _ :: _, _ :: _, [], _, h => Bool.noConfusion h
  | x :: xs, y :: ys, z :: zs, hxy, hyz => by
      rw [differsBelow_cons] at hxy hyz ⊢
      rcases hxy with hxy | ⟨rfl, hxy⟩
      · rcases hyz with hyz | ⟨rfl, -⟩
        · exact Or.inl (lt_trans hxy hyz)
        · exact Or.inl hxy
      · rcases hyz with hyz | ⟨rfl, hyz⟩
        · exact Or.inl hyz
        · exact Or.inr ⟨rfl, differsBelow_trans hxy hyz⟩

/-- Two lists can be compared unless one is a beginning of the other. -/
theorem comparable_differsBelow_iff : ∀ {xs ys : List α},
    Comparable differsBelow xs ys ↔ ¬ (xs <+: ys ∨ ys <+: xs)
  | [], ys => by simp [Comparable, differsBelow_nil_left, differsBelow_nil_right]
  | x :: xs, [] => by simp [Comparable, differsBelow_nil_left, differsBelow_nil_right]
  | x :: xs, y :: ys => by
      rw [List.cons_prefix_cons, List.cons_prefix_cons, Comparable, differsBelow_cons,
        differsBelow_cons]
      rcases lt_trichotomy x y with hlt | rfl | hlt
      · simp [hlt, hlt.ne, hlt.ne']
      · have hrest : Comparable differsBelow xs ys ↔ ¬ (xs <+: ys ∨ ys <+: xs) :=
          comparable_differsBelow_iff
        simpa [Comparable] using hrest
      · simp [hlt, hlt.ne, hlt.ne']

/-- To be incomparable is passed on unless the middle one is a beginning
of two that can be compared. -/
theorem incomparable_trans_iff :
    (¬ Comparable differsBelow xs ys → ¬ Comparable differsBelow ys zs →
        ¬ Comparable differsBelow xs zs)
      ↔ ¬ (ys <+: xs ∧ ys <+: zs ∧ ¬ (xs <+: zs ∨ zs <+: xs)) := by
  simp only [comparable_differsBelow_iff, not_not]
  constructor
  · rintro h ⟨hx, hz, hnot⟩
    exact hnot (h (Or.inr hx) (Or.inl hz))
  · intro h hxy hyz
    by_contra hnot
    rcases hxy with hxy | hyx
    · rcases hyz with hyz | hzy
      · exact hnot (Or.inl (hxy.trans hyz))
      · exact hnot (List.prefix_or_prefix_of_prefix hxy hzy)
    · rcases hyz with hyz | hzy
      · exact h ⟨hyx, hyz, hnot⟩
      · exact hnot (Or.inr (hzy.trans hyx))

end Yapas
