import Mathlib.Data.List.GetD
import Yapas.Text

/-!
# A terminal line

The line a cursor is on: printable characters overwrite and advance, a
backspace moves left, a newline starts a blank line. Anything else has
no meaning here, and neither has a backspace in the first column.

`Reads t x y` looks at the line from the cursor, with `x` in front of it
and `y` from it on. Behind `y` all is blank, so blanks may be added to
`y` or dropped. `Draws` is a triple: what a text written does to a line
of which only this is known. Its rules say that writing takes text from
`y` to `x`, and that backspaces move it back.
-/

namespace Yapas

/-- The line of the cursor. -/
structure Screen where
  cells : Nat → Char
  col : Nat

namespace Screen

def fresh : Screen := ⟨fun _ => ' ', 0⟩

def put (printable : Char → Bool) (t : Screen) (c : Char) : Option Screen :=
  if c = '\x08' then if t.col = 0 then none else some { t with col := t.col - 1 }
  else if c = '\n' then some fresh
  else if printable c then some ⟨fun i => if i = t.col then c else t.cells i, t.col + 1⟩
  else none

def feed (printable : Char → Bool) (t : Screen) : Text → Option Screen
  | [] => some t
  | c :: s => (t.put printable c).bind fun t => feed printable t s

variable {printable : Char → Bool}

theorem feed_append (t : Screen) (s s' : Text) :
    t.feed printable (s ++ s') = (t.feed printable s).bind fun t => t.feed printable s' := by
  induction s generalizing t with
  | nil => rfl
  | cons c s ih =>
      rw [List.cons_append, feed, feed]
      cases t.put printable c with
      | none => rfl
      | some t => exact ih t

/-! ## Reading a line -/

/-- The line is `x ++ y`, and the cursor stands between the two. -/
structure Reads (t : Screen) (x y : Text) : Prop where
  cells : ∀ i, t.cells i = (x ++ y).getD i ' '
  col : t.col = x.length

theorem reads_fresh : fresh.Reads [] [] := ⟨fun _ => rfl, rfl⟩

theorem getD_append_blanks (s : Text) (n i : Nat) :
    (s ++ List.replicate n ' ').getD i ' ' = s.getD i ' ' := by
  rcases Nat.lt_or_ge i s.length with hi | hi
  · rw [List.getD_append _ _ _ _ hi]
  · rw [List.getD_append_right _ _ _ _ hi, List.getD_eq_default _ _ hi]
    rcases Nat.lt_or_ge (i - s.length) n with hn | hn
    · rw [List.getD_replicate _ hn]
    · rw [List.getD_eq_default _ _ (by rwa [List.length_replicate])]

/-- Blanks at the end cannot be seen. -/
theorem reads_blanks {t : Screen} {x : Text} {n : Nat} (h : t.Reads x (List.replicate n ' ')) :
    t.Reads x [] :=
  ⟨fun i => by rw [h.cells, List.append_nil, getD_append_blanks], h.col⟩

/-- Only the cell under the cursor changes. -/
theorem reads_write {t : Screen} {x y : Text} (h : t.Reads x y) (c : Char) :
    Reads ⟨fun i => if i = t.col then c else t.cells i, t.col + 1⟩ (x ++ [c]) (y.drop 1) := by
  refine ⟨fun i => ?_, ?_⟩
  · show (if i = t.col then c else t.cells i) = _
    rw [h.col, h.cells, List.append_assoc]
    rcases Nat.lt_trichotomy i x.length with hi | rfl | hi
    · rw [if_neg (Nat.ne_of_lt hi), List.getD_append _ _ _ _ hi, List.getD_append _ _ _ _ hi]
    · rw [if_pos rfl, List.getD_append_right _ _ _ _ (Nat.le_refl _), Nat.sub_self]
      rfl
    · obtain ⟨j, rfl⟩ := Nat.exists_eq_add_of_lt hi
      have hle : x.length ≤ x.length + j + 1 := by omega
      have hj : x.length + j + 1 - x.length = j + 1 := by omega
      rw [if_neg (by omega), List.getD_append_right _ _ _ _ hle,
        List.getD_append_right _ _ _ _ hle, hj]
      cases y <;> rfl
  · show t.col + 1 = _
    rw [h.col, List.length_append, List.length_singleton]

/-! ## Drawing -/

/-- On a line that reads `x y`, the text `s` has a meaning, and then it
reads `x' y'`. -/
def Draws (printable : Char → Bool) (x y s x' y' : Text) : Prop :=
  ∀ t : Screen, t.Reads x y → ∃ t', t.feed printable s = some t' ∧ t'.Reads x' y'

section Rules

variable {x y s x' y' : Text}

theorem draws_nil : Draws printable x y [] x y := fun t h => ⟨t, rfl, h⟩

theorem Draws.append {s' x'' y'' : Text} (h : Draws printable x y s x' y')
    (h' : Draws printable x' y' s' x'' y'') : Draws printable x y (s ++ s') x'' y'' := by
  intro t ht
  obtain ⟨t', hfeed, ht'⟩ := h t ht
  rw [feed_append, hfeed, Option.bind_some]
  exact h' t' ht'

theorem Draws.blanks {n : Nat} (h : Draws printable x y s x' (List.replicate n ' ')) :
    Draws printable x y s x' [] := by
  intro t ht
  obtain ⟨t', hfeed, ht'⟩ := h t ht
  exact ⟨t', hfeed, reads_blanks ht'⟩

theorem draws_newline : Draws printable x y ['\n'] [] [] := fun _ _ => ⟨fresh, rfl, reads_fresh⟩

theorem draws_backspace (c : Char) : Draws printable (x ++ [c]) y ['\x08'] x (c :: y) := by
  intro t ht
  have hcol : t.col = x.length + 1 := by
    rw [ht.col, List.length_append, List.length_singleton]
  refine ⟨{ t with col := x.length }, ?_, fun i => ?_, rfl⟩
  · rw [feed, put, if_pos rfl, if_neg (by omega), hcol]
    rfl
  · rw [List.append_cons]
    exact ht.cells i

theorem draws_backspaces : ∀ z : Text,
    Draws printable (x ++ z) y (List.replicate z.length '\x08') x (z ++ y) := by
  intro z
  induction z using List.reverseRecOn generalizing y with
  | nil => exact (List.append_nil x).symm ▸ draws_nil
  | append_singleton z c ih =>
      rw [← List.append_assoc, List.length_append, List.length_singleton, Nat.add_comm,
        List.replicate_add, List.append_assoc z]
      exact (draws_backspace c).append ih

/-- Neither of the two characters that move the cursor is printable. -/
structure Plain (printable : Char → Bool) : Prop where
  backspace : printable '\x08' = false
  newline : printable '\n' = false

theorem draws_put (hp : Plain printable) {c : Char} (hc : printable c = true) :
    Draws printable x y [c] (x ++ [c]) (y.drop 1) := by
  intro t ht
  have hb : c ≠ '\x08' := by
    rintro rfl
    exact Bool.false_ne_true (hp.backspace.symm.trans hc)
  have hn : c ≠ '\n' := by
    rintro rfl
    exact Bool.false_ne_true (hp.newline.symm.trans hc)
  refine ⟨_, ?_, reads_write ht c⟩
  rw [feed, put, if_neg hb, if_neg hn, if_pos hc]
  rfl

theorem draws_text (hp : Plain printable) : ∀ {s x y : Text}, (∀ c ∈ s, printable c = true) →
    Draws printable x y s (x ++ s) (y.drop s.length)
  | [], x, y, _ => (List.append_nil x).symm ▸ draws_nil
  | c :: s, x, y, h => by
      have hrest := draws_text hp (x := x ++ [c]) (y := y.drop 1) fun d hd =>
        h d (List.mem_cons_of_mem c hd)
      rw [List.drop_drop, List.append_assoc, Nat.add_comm] at hrest
      exact (draws_put hp (h c List.mem_cons_self)).append hrest

theorem draws_line (hp : Plain printable) (h : ∀ c ∈ s, printable c = true) :
    Draws printable [] [] s s [] := by
  have htext := draws_text (x := []) (y := []) hp h
  rwa [List.nil_append, List.drop_nil] at htext

end Rules

end Screen

end Yapas
