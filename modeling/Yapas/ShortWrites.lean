import Mathlib.Data.List.Basic
import Mathlib.Data.List.Infix

/-!
# Short writes

Buffers are handed over one after the other, and a beginning of each gets
through. The length tells whether all of it did (`through_eq_iff`); that
what got through is a beginning of the whole depends on the order
(`through_prefix_iff`): nothing may get through behind a short write.
-/

namespace Yapas

variable {α : Type}

/-- What was handed over. -/
def given (ws : List (List α × Nat)) : List α := ws.flatMap (·.1)

/-- What got through, where each write stores so many at most. -/
def through (ws : List (List α × Nat)) : List α := ws.flatMap fun w => w.1.take w.2

theorem given_cons (w : List α × Nat) (ws : List (List α × Nat)) :
    given (w :: ws) = w.1 ++ given ws := rfl

theorem through_cons (w : List α × Nat) (ws : List (List α × Nat)) :
    through (w :: ws) = w.1.take w.2 ++ through ws := rfl

theorem through_sublist : ∀ ws : List (List α × Nat), (through ws).Sublist (given ws)
  | [] => List.Sublist.refl []
  | w :: ws => (List.take_sublist w.2 w.1).append (through_sublist ws)

theorem length_through_le (ws : List (List α × Nat)) : (through ws).length ≤ (given ws).length :=
  (through_sublist ws).length_le

/-- All got through exactly when no write was short. -/
theorem through_eq_iff : ∀ {ws : List (List α × Nat)},
    through ws = given ws ↔ ∀ w ∈ ws, w.1.length ≤ w.2
  | [] => by simp [through, given]
  | w :: ws => by
      rw [List.forall_mem_cons, ← through_eq_iff, through_cons, given_cons]
      constructor
      · intro h
        have hlen := congrArg List.length h
        have hrest := length_through_le ws
        rw [List.length_append, List.length_append, List.length_take] at hlen
        have hwhole : w.1.length ≤ w.2 := by omega
        rw [List.take_of_length_le hwhole] at h
        exact ⟨hwhole, List.append_cancel_left h⟩
      · rintro ⟨hwhole, hrest⟩
        rw [List.take_of_length_le hwhole, hrest]

/-- Where nothing is handed over twice, what got through is a beginning
of the whole exactly when nothing did behind a short write. -/
theorem through_prefix_iff : ∀ {ws : List (List α × Nat)}, (given ws).Nodup →
    (through ws <+: given ws
      ↔ ws.Pairwise fun w w' => w.1.length ≤ w.2 ∨ w'.1.take w'.2 = [])
  | [], _ => by simp [through, given]
  | w :: ws, hnodup => by
      rw [given_cons] at hnodup
      have hrest := through_prefix_iff (List.nodup_append.mp hnodup).2.1
      rw [List.pairwise_cons, ← hrest, through_cons, given_cons]
      by_cases hwhole : w.1.length ≤ w.2
      · rw [List.take_of_length_le hwhole, List.prefix_append_right_inj]
        exact (and_iff_right fun _ _ => Or.inl hwhole).symm
      have hlt : w.2 < w.1.length := Nat.lt_of_not_le hwhole
      have hsplit : w.1 ++ given ws
          = w.1.take w.2 ++ (w.1[w.2] :: (w.1.drop (w.2 + 1) ++ given ws)) := by
        rw [← List.cons_append, ← List.drop_eq_getElem_cons hlt, ← List.append_assoc,
          List.take_append_drop]
      rw [hsplit, List.prefix_append_right_inj]
      have hnone : (∀ w' ∈ ws, w.1.length ≤ w.2 ∨ w'.1.take w'.2 = []) ↔ through ws = [] := by
        rw [through, List.flatMap_eq_nil_iff]
        exact forall₂_congr fun w' _ => or_iff_right hwhole
      rw [hnone]
      constructor
      · intro h
        cases hthrough : through ws with
        | nil => exact ⟨rfl, List.nil_prefix⟩
        | cons x xs =>
            -- it would be the first one that was held back
            rw [hthrough] at h
            obtain ⟨rfl, -⟩ := List.cons_prefix_cons.mp h
            have hmem : w.1[w.2] ∈ given ws := (through_sublist ws).subset (hthrough ▸ List.mem_cons_self)
            exact absurd rfl ((List.nodup_append.mp hnodup).2.2 _ (List.getElem_mem hlt) _ hmem)
      · rintro ⟨hnil, -⟩
        rw [hnil]
        exact List.nil_prefix

end Yapas
