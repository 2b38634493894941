import Mathlib.Algebra.GroupWithZero.Nat
import Mathlib.Algebra.Order.BigOperators.Group.List
import Mathlib.Algebra.Order.Group.Nat
import Yapas.EditConfig

/-!
# What an edit leaves alone

The new file should be the old one line by line, with the lines of the
key rewritten or left out (`editedLine`). It is where the loop's pieces
are as good as the lines: `DeletesCleanly` and `ReplacesCleanly` say
when.

For the other direction two texts are compared. Deleting only shortens,
so counting characters finds the difference. Replacing does not, but it
writes every piece from its first character on; a lost `0xFF` shows at
its own place, and a piece of a rewritten line that is written once more
shows in the number of newlines.
-/

namespace Yapas

/-- What is to become of a line. -/
def editedLine (key : Text) (ifDel : Bool) (value line : Text) : Text :=
  if isKeyLine key line then
    if ifDel then [] else line.takeWhile (· ≠ '=') ++ "= ".toList ++ value ++ ['\n']
  else line

theorem isKeyLine_iff {key line : Text} :
    isKeyLine key line = true
      ↔ ∃ before after, line = before ++ '=' :: after ∧ '=' ∉ before ∧ trim before = key := by
  unfold isKeyLine
  cases hcut : cut '=' line with
  | none =>
      refine iff_of_false (by simp) ?_
      rintro ⟨before, after, rfl, -, -⟩
      exact cut_eq_none.mp hcut (by simp)
  | some kv =>
      obtain ⟨before, after⟩ := kv
      obtain ⟨rfl, hmem⟩ := cut_eq_some.mp hcut
      constructor
      · intro h
        exact ⟨before, after, rfl, hmem, by simpa using h⟩
      · rintro ⟨before', after', heq, hmem', rfl⟩
        rw [heq, cut_append after' hmem'] at hcut
        obtain ⟨rfl, -⟩ := Prod.mk.inj (Option.some.inj hcut)
        simp

theorem mem_of_isKeyLine {key line : Text} (h : isKeyLine key line = true) : '=' ∈ line := by
  obtain ⟨before, after, rfl, -⟩ := isKeyLine_iff.mp h
  simp

/-- What stands behind the equal sign has no part in the key. -/
theorem isKeyLine_append_of_mem {key body : Text} (h : '=' ∈ body) (tail : Text) :
    isKeyLine key (body ++ tail) = isKeyLine key body := by
  obtain ⟨before, after, rfl, hmem⟩ := List.eq_append_cons_of_mem h
  rw [isKeyLine, isKeyLine, List.append_assoc, List.cons_append, cut_append _ hmem,
    cut_append _ hmem]
  rfl

/-- The piece is treated as a line of the key: with the key before its
equal sign, or with neither. -/
def IsHit (key p : Text) : Prop := isKeyLine key p = true ∨ key = [] ∧ '=' ∉ p

instance (key p : Text) : Decidable (IsHit key p) := inferInstanceAs (Decidable (_ ∨ _))

theorem editedPiece_delete (key value p : Text) :
    editedPiece key true value p = if IsHit key p then [] else p := by
  cases hcut : cut '=' p with
  | none => simp [editedPiece, IsHit, isKeyLine, hcut, cut_eq_none.mp hcut]
  | some kv =>
      have hmem : '=' ∈ p := by
        rw [(cut_eq_some.mp hcut).1]
        simp
      simp [editedPiece, IsHit, isKeyLine, hcut, hmem]

theorem newContent_delete (key : Text) : ∀ (value : Text) (ps : List Text),
    newContent key true value ps = ps.flatMap fun p => if IsHit key p then [] else p
  | value, [] => rfl
  | value, p :: ps => by
      rw [newContent, newContent_delete, editedPiece_delete, List.flatMap_cons]

/-! ## Deleting -/

/-- No `0xFF` outside the lines of the key, none of their pieces left
over, and no line without an equal sign where the key is empty. -/
def DeletesCleanly (key content : Text) : Prop :=
  ∀ line ∈ lines content,
    if isKeyLine key line then ∀ p ∈ line.splitOn eofByte, IsHit key p ∨ p = []
    else eofByte ∉ line ∧ ¬ IsHit key line

/-- What deleting leaves of a line. -/
def leftOf (key line : Text) : Text :=
  (line.splitOn eofByte).flatMap fun p => if IsHit key p then [] else p

theorem leftOf_of_not_mem {key line : Text} (h : eofByte ∉ line) :
    leftOf key line = if IsHit key line then [] else line := by
  rw [leftOf, List.splitOn_eq_singleton h, List.flatMap_singleton]

theorem leftOf_eq_nil {key line : Text} :
    leftOf key line = [] ↔ ∀ p ∈ line.splitOn eofByte, IsHit key p ∨ p = [] := by
  rw [leftOf, List.flatMap_eq_nil_iff]
  constructor
  · intro h p hp
    have hp := h p hp
    split at hp
    · exact Or.inl ‹_›
    · exact Or.inr hp
  · intro h p hp
    split
    · rfl
    · exact (h p hp).resolve_left ‹_›

theorem eofByte_not_mem_leftOf (key line : Text) : eofByte ∉ leftOf key line := by
  intro h
  obtain ⟨p, hp, hmem⟩ := List.mem_flatMap.mp h
  split at hmem
  · cases hmem
  · exact not_mem_of_mem_splitOn hp hmem

/-- Sums of terms in order are equal only term by term. -/
theorem eq_of_sum_eq {α : Type} {f g : α → Nat} {xs : List α} (hle : ∀ x ∈ xs, f x ≤ g x)
    (hsum : (xs.map f).sum = (xs.map g).sum) : ∀ x ∈ xs, f x = g x := by
  intro x hx
  by_contra hne
  have hlt := List.sum_lt_sum f g hle ⟨x, hx, Nat.lt_of_le_of_ne (hle x hx) hne⟩
  omega

/-- A measure of texts that adds up line by line tells the lines apart:
where one text is never larger, equal texts have equal lines. -/
theorem eq_of_flatMap_eq {size : Text → Nat} {f g : Text → Text} {ls : List Text}
    (hsum : ∀ h : Text → Text, size (ls.flatMap h) = (ls.map fun l => size (h l)).sum)
    (heq : ls.flatMap f = ls.flatMap g) (hle : ∀ l ∈ ls, size (f l) ≤ size (g l)) :
    ∀ l ∈ ls, size (f l) = size (g l) :=
  eq_of_sum_eq hle (by rw [← hsum, ← hsum, heq])

theorem editedLine_delete (key value line : Text) :
    editedLine key true value line = if isKeyLine key line then [] else line := by
  unfold editedLine
  split <;> rfl

theorem flatMap_lines {f : Text → Text} (hf : f [] = []) (content : Text) :
    (lines content).flatMap f = (physicalLines content).flatMap f := by
  rw [lines]
  induction physicalLines content with
  | nil => rfl
  | cons l ls ih =>
      by_cases hl : l = []
      · rw [List.filter_cons_of_neg (by simpa using hl), List.flatMap_cons, ih, hl, hf,
          List.nil_append]
      · rw [List.filter_cons_of_pos (by simpa using hl), List.flatMap_cons, List.flatMap_cons, ih]

theorem leftOf_nil (key : Text) : leftOf key [] = [] := by
  rw [leftOf_of_not_mem List.not_mem_nil]
  split <;> rfl

theorem newContent_delete_lines (key value content : Text) :
    newContent key true value (pieces content) = (lines content).flatMap (leftOf key) := by
  rw [newContent_delete, pieces, List.flatMap_assoc, flatMap_lines (leftOf_nil key)]
  rfl

section Leftovers

variable {key value content : Text}

/-- The texts agree, and a line that is none of the key leaves itself or
nothing over. -/
structure LeavesSame (key value content : Text) : Prop where
  same : (lines content).flatMap (editedLine key true value)
    = (lines content).flatMap (leftOf key)
  other : ∀ line ∈ lines content, isKeyLine key line = false →
    leftOf key line = if IsHit key line then [] else line

/-- What is left over of a line of the empty key has an equal sign. -/
theorem leftOf_emptyKey (h : LeavesSame [] value content) :
    ∀ line ∈ lines content, isKeyLine [] line = true → leftOf [] line = [] := by
  have hcount : ∀ line ∈ lines content,
      (editedLine [] true value line).count '=' = (leftOf [] line).count '=' := by
    refine eq_of_flatMap_eq (fun _ => List.count_flatMap) h.same fun line hline => ?_
    rw [editedLine_delete]
    cases hkey : isKeyLine [] line with
    | true => exact Nat.zero_le _
    | false =>
        rw [h.other line hline hkey, if_neg Bool.false_ne_true]
        split
        · rename_i hhit
          have hmem : '=' ∉ line :=
            (hhit.resolve_left (by rw [hkey]; exact Bool.false_ne_true)).2
          rw [List.count_eq_zero_of_not_mem hmem]
          exact Nat.zero_le _
        · exact Nat.le_refl _
  intro line hline hkey
  have hzero := hcount line hline
  rw [editedLine_delete, if_pos hkey, List.count_nil, eq_comm, List.count_eq_zero] at hzero
  refine leftOf_eq_nil.mpr fun p hp => ?_
  by_contra hp'
  rw [not_or] at hp'
  have hmem : '=' ∈ p := by
    by_contra hmem
    exact hp'.1 (Or.inr ⟨rfl, hmem⟩)
  refine hzero (List.mem_flatMap.mpr ⟨p, hp, ?_⟩)
  rwa [if_neg hp'.1]

theorem leftOf_namedKey (hk : key ≠ []) (h : LeavesSame key value content) :
    ∀ line ∈ lines content, isKeyLine key line = true → leftOf key line = [] := by
  have hlen : ∀ line ∈ lines content,
      (editedLine key true value line).length = (leftOf key line).length := by
    refine eq_of_flatMap_eq (fun _ => List.length_flatMap) h.same fun line hline => ?_
    rw [editedLine_delete]
    cases hkey : isKeyLine key line with
    | true => exact Nat.zero_le _
    | false =>
        have hhit : ¬ IsHit key line := by simp [IsHit, hkey, hk]
        rw [h.other line hline hkey, if_neg Bool.false_ne_true, if_neg hhit]
  intro line hline hkey
  have hzero := hlen line hline
  rw [editedLine_delete, if_pos hkey] at hzero
  exact List.length_eq_zero_iff.mp hzero.symm

/-- If the texts agree and only lines of the key leave anything over,
they leave nothing over. -/
theorem leftOf_keyLine (h : LeavesSame key value content) :
    ∀ line ∈ lines content, isKeyLine key line = true → leftOf key line = [] := by
  by_cases hk : key = []
  · subst hk
    exact leftOf_emptyKey h
  · exact leftOf_namedKey hk h

/-- Nothing is missing either. -/
theorem not_isHit_of_same (h : LeavesSame key value content) :
    ∀ line ∈ lines content, isKeyLine key line = false → ¬ IsHit key line := by
  have hlen : ∀ line ∈ lines content,
      (leftOf key line).length = (editedLine key true value line).length := by
    refine eq_of_flatMap_eq (fun _ => List.length_flatMap) h.same.symm fun line hline => ?_
    rw [editedLine_delete]
    cases hkey : isKeyLine key line with
    | true => rw [leftOf_keyLine h line hline hkey, if_pos rfl]
    | false =>
        rw [h.other line hline hkey]
        split <;> simp
  intro line hline hkey hhit
  have hzero := hlen line hline
  rw [h.other line hline hkey, if_pos hhit, editedLine_delete, if_neg (by simp [hkey])] at hzero
  exact (mem_lines.mp hline).2 (List.length_eq_zero_iff.mp hzero.symm)

end Leftovers

/-- Deleting does what it should exactly on files it deletes cleanly
from. -/
theorem newContent_delete_iff (key value content : Text) :
    newContent key true (' ' :: value) (pieces content)
        = (lines content).flatMap (editedLine key true value)
      ↔ DeletesCleanly key content := by
  rw [newContent_delete_lines]
  constructor
  · intro heq
    -- what is written has no `0xFF`
    have hff : ∀ line ∈ lines content, isKeyLine key line = false → eofByte ∉ line := by
      intro line hline hkey hmem
      have hout : eofByte ∈ (lines content).flatMap (leftOf key) := by
        rw [heq]
        refine List.mem_flatMap.mpr ⟨line, hline, ?_⟩
        rw [editedLine_delete, if_neg (by simp [hkey])]
        exact hmem
      obtain ⟨line', -, hmem'⟩ := List.mem_flatMap.mp hout
      exact eofByte_not_mem_leftOf key line' hmem'
    have hleft : ∀ line ∈ lines content, isKeyLine key line = false →
        leftOf key line = if IsHit key line then [] else line :=
      fun line hline hkey => leftOf_of_not_mem (hff line hline hkey)
    have hsame : LeavesSame key value content := ⟨heq.symm, hleft⟩
    intro line hline
    cases hkey : isKeyLine key line with
    | true => exact leftOf_eq_nil.mp (leftOf_keyLine hsame line hline hkey)
    | false => exact ⟨hff line hline hkey, not_isHit_of_same hsame line hline hkey⟩
  · intro h
    refine List.flatMap_congr fun line hline => ?_
    have hline := h line hline
    rw [editedLine_delete]
    split at hline
    · rw [if_pos ‹_›]
      exact leftOf_eq_nil.mpr hline
    · rw [if_neg ‹_›, leftOf_of_not_mem hline.1, if_neg hline.2]

/-! ## Replacing -/

/-- No `0xFF` outside the lines of the key, none in them but at the end
of the file, and no line of an empty key behind a line without an equal
sign. -/
structure ReplacesCleanly (key content : Text) : Prop where
  whole : ∀ line ∈ lines content,
    if isKeyLine key line then
      ∃ body n, line = body ++ List.replicate n eofByte ∧ eofByte ∉ body ∧ '=' ∈ body
    else eofByte ∉ line
  ordered : key = [] →
    (lines content).Pairwise fun line line' => isKeyLine key line' = true → '=' ∈ line

section Replace

variable {key v value : Text}

theorem editedPiece_keyLine {before : Text} (after : Text) (hmem : '=' ∉ before)
    (hkey : trim before = key) :
    editedPiece key false value (before ++ '=' :: after) = before ++ '=' :: value ++ ['\n'] := by
  rw [editedPiece, cut_append after hmem]
  simp [hkey]

theorem editedPiece_other {p : Text} (h : isKeyLine key p = false) :
    editedPiece key false value p = p := by
  unfold editedPiece
  unfold isKeyLine at h
  cases hcut : cut '=' p with
  | none => simp
  | some kv =>
      rw [hcut] at h
      have hne : trim kv.1 ≠ key := by simpa using h
      simp [hne]

theorem editedLine_keyLine {before : Text} (after : Text) (hmem : '=' ∉ before)
    (hkey : trim before = key) :
    editedLine key false v (before ++ '=' :: after) = before ++ '=' :: ' ' :: v ++ ['\n'] := by
  have hline : isKeyLine key (before ++ '=' :: after) = true :=
    isKeyLine_iff.mpr ⟨before, after, rfl, hmem, hkey⟩
  have htake : (before ++ '=' :: after).takeWhile (fun c => decide (c ≠ '=')) = before := by
    rw [List.takeWhile_append_of_pos, List.takeWhile_cons_of_neg (by simp), List.append_nil]
    intro c hc
    have : c ≠ '=' := fun heq => hmem (heq ▸ hc)
    simpa using this
  rw [editedLine, if_pos hline, if_neg Bool.false_ne_true, htake]
  simp

theorem editedLine_other {line : Text} (h : isKeyLine key line = false) :
    editedLine key false v line = line := by
  rw [editedLine, if_neg (by simp [h])]

/-- Whatever is written starts with the first character of a piece. -/
theorem head?_newContent : ∀ {value : Text} {ps : List Text}, (∀ p ∈ ps, eofByte ∉ p) →
    (newContent key false value ps).head? ≠ some eofByte
  | value, [], _ => by simp [newContent]
  | value, p :: ps, h => by
      have hp := h p List.mem_cons_self
      have ih : (newContent key false (valueAfter key value p) ps).head? ≠ some eofByte :=
        head?_newContent fun q hq => h q (List.mem_cons_of_mem p hq)
      rw [newContent]
      cases hkey : isKeyLine key p with
      | true =>
          obtain ⟨before, after, rfl, hmem, htrim⟩ := isKeyLine_iff.mp hkey
          rw [editedPiece_keyLine after hmem htrim]
          cases before with
          | nil => exact fun heq => absurd (Option.some.inj heq) (by decide)
          | cons c before =>
              intro heq
              rw [← Option.some.inj heq] at hp
              exact hp List.mem_cons_self
      | false =>
          rw [editedPiece_other hkey]
          cases p with
          | nil => exact ih
          | cons c p =>
              intro heq
              rw [← Option.some.inj heq] at hp
              exact hp List.mem_cons_self

/-- A line is its first piece, or the first piece and more behind a
`0xFF`. -/
theorem splitOn_cases (line : Text) :
    eofByte ∉ line ∧ line.splitOn eofByte = [line]
      ∨ ∃ p more, line = p ++ eofByte :: more ∧ eofByte ∉ p
        ∧ line.splitOn eofByte = p :: more.splitOn eofByte := by
  cases hcut : cut eofByte line with
  | none =>
      have hmem := cut_eq_none.mp hcut
      exact Or.inl ⟨hmem, List.splitOn_eq_singleton hmem⟩
  | some kv =>
      obtain ⟨p, more⟩ := kv
      obtain ⟨rfl, hmem⟩ := cut_eq_some.mp hcut
      exact Or.inr ⟨p, more, rfl, hmem, List.splitOn_append_cons_self_of_not_mem hmem more⟩

/-- A line whose first piece has not the key keeps the `0xFF` behind it. -/
theorem editedLine_eofByte {p : Text} (h : isKeyLine key p = false) (more : Text) :
    ∃ tail, editedLine key false v (p ++ eofByte :: more) = p ++ eofByte :: tail := by
  by_cases hmem : '=' ∈ p
  · exact ⟨more, editedLine_other ((isKeyLine_append_of_mem hmem _).trans h)⟩
  · unfold editedLine
    split
    · have hp : ∀ c ∈ p, decide (c ≠ '=') = true := fun c hc =>
        decide_eq_true fun heq => hmem (heq ▸ hc)
      rw [if_neg Bool.false_ne_true, List.takeWhile_append_of_pos hp,
        List.takeWhile_cons_of_pos (by decide)]
      exact ⟨_, by simp only [List.append_assoc, List.cons_append]; rfl⟩
    · exact ⟨more, rfl⟩

/-- The same text first: then the line has no `0xFF`, or its first piece
is a line of the key and the value is still there. -/
theorem first_line {line p : Text} {ps qs : List Text} {rest : Text}
    (hsplit : line.splitOn eofByte = p :: ps) (hqs : ∀ q ∈ qs, eofByte ∉ q)
    (hvalue : value = ' ' :: v ∨ value = [])
    (heq : newContent key false value (p :: qs) = editedLine key false v line ++ rest) :
    eofByte ∉ line ∧ isKeyLine key line = false
      ∨ isKeyLine key p = true ∧ isKeyLine key line = true ∧ value = ' ' :: v
        ∧ newContent key false value qs = rest := by
  have hline : eofByte ∉ line ∧ p = line ∨ ∃ more, line = p ++ eofByte :: more := by
    rcases splitOn_cases line with ⟨hmem, h⟩ | ⟨p', more, hmore, -, h⟩
    · rw [h] at hsplit
      exact Or.inl ⟨hmem, ((List.cons.inj hsplit).1).symm⟩
    · rw [h] at hsplit
      rw [(List.cons.inj hsplit).1] at hmore
      exact Or.inr ⟨more, hmore⟩
  rw [newContent] at heq
  cases hkey : isKeyLine key p with
  | true =>
      obtain ⟨before, after, rfl, hmem, htrim⟩ := isKeyLine_iff.mp hkey
      obtain ⟨after', rfl⟩ : ∃ after', line = before ++ '=' :: after' := by
        rcases hline with ⟨-, rfl⟩ | ⟨more, rfl⟩
        · exact ⟨after, rfl⟩
        · exact ⟨after ++ eofByte :: more, by simp⟩
      refine Or.inr ⟨rfl, isKeyLine_iff.mpr ⟨before, after', rfl, hmem, htrim⟩, ?_⟩
      have hstay : valueAfter key value (before ++ '=' :: after) = value :=
        valueAfter_of_mem (by simp) key value
      rw [editedPiece_keyLine after hmem htrim, editedLine_keyLine after' hmem htrim, hstay] at heq
      rcases hvalue with rfl | rfl
      · exact ⟨rfl, by simpa using heq⟩
      · -- the value that is gone leaves the newline where a blank should be
        simp at heq
  | false =>
      rw [editedPiece_other hkey] at heq
      rcases hline with ⟨hmem, rfl⟩ | ⟨more, rfl⟩
      · exact Or.inl ⟨hmem, hkey⟩
      · -- the `0xFF` is missing behind the piece
        obtain ⟨tail, htail⟩ := editedLine_eofByte (v := v) hkey more
        rw [htail, List.append_assoc, List.append_cancel_left_eq, List.cons_append] at heq
        have hhead : (newContent key false (valueAfter key value p) qs).head? ≠ some eofByte :=
          head?_newContent hqs
        refine absurd ?_ hhead
        rw [heq]
        rfl

/-! ## Newlines -/

/-- What is written for the piece has a newline. -/
def endsLine (key p : Text) : Bool := p.contains '\n' || isKeyLine key p

theorem endsLine_of_keyLine {p : Text} (h : isKeyLine key p = true) : endsLine key p = true := by
  rw [endsLine, h, Bool.or_true]

theorem endsLine_other {p : Text} (h : isKeyLine key p = false) :
    endsLine key p = p.contains '\n' := by
  rw [endsLine, h, Bool.or_false]

theorem isKeyLine_of_not_endsLine {p : Text} (h : ¬ endsLine key p = true) :
    isKeyLine key p = false := by
  rw [Bool.not_eq_true, endsLine, Bool.or_eq_false_iff] at h
  exact h.2

/-- The pieces of the key before the value is gone. -/
def fresh (key : Text) : List Text → Nat
  | [] => 0
  | p :: ps =>
      if isKeyLine key p then fresh key ps + 1
      else if key = [] ∧ '=' ∉ p then 0
      else fresh key ps

theorem countP_cons_toNat {α : Type} (q : α → Bool) (x : α) (xs : List α) :
    (x :: xs).countP q = xs.countP q + (q x).toNat := by
  rw [List.countP_cons]
  cases q x <;> rfl

theorem count_editedPiece (p : Text) :
    (endsLine key p).toNat + (if isKeyLine key p then value.count '\n' else 0)
      ≤ (editedPiece key false value p).count '\n' := by
  cases hkey : isKeyLine key p with
  | true =>
      obtain ⟨before, after, rfl, hmem, htrim⟩ := isKeyLine_iff.mp hkey
      rw [editedPiece_keyLine after hmem htrim, endsLine_of_keyLine hkey, if_pos rfl]
      simp
      omega
  | false =>
      rw [editedPiece_other hkey, endsLine_other hkey, if_neg Bool.false_ne_true]
      cases hnl : p.contains '\n' with
      | false => exact Nat.zero_le _
      | true => exact List.count_pos_iff.mpr (List.contains_iff_mem.mp hnl)

theorem count_written_gone : ∀ ps : List Text,
    ps.countP (endsLine key) ≤ (newContent key false [] ps).count '\n'
  | [] => Nat.zero_le _
  | p :: ps => by
      have hp : _ ≤ (editedPiece key false [] p).count '\n' := count_editedPiece p
      have ih := count_written_gone ps
      rw [newContent, valueAfter_nil, List.count_append, countP_cons_toNat]
      omega

/-- Every piece of the key that is written with the value brings its
newlines. -/
theorem count_newContent : ∀ ps : List Text,
    ps.countP (endsLine key) + v.count '\n' * fresh key ps
      ≤ (newContent key false (' ' :: v) ps).count '\n'
  | [] => by simp [fresh]
  | p :: ps => by
      have hp : _ ≤ (editedPiece key false (' ' :: v) p).count '\n' := count_editedPiece p
      have ih := count_newContent ps
      have hv : (' ' :: v).count '\n' = v.count '\n' := List.count_cons_of_ne (by decide)
      rw [newContent, List.count_append, countP_cons_toNat, fresh]
      cases hkey : isKeyLine key p with
      | true =>
          rw [hkey, if_pos rfl, hv] at hp
          rw [if_pos rfl, valueAfter_of_mem (mem_of_isKeyLine hkey), Nat.mul_succ]
          omega
      | false =>
          rw [if_neg Bool.false_ne_true]
          by_cases hgone : key = [] ∧ '=' ∉ p
          · have hrest : _ ≤ (newContent key false [] ps).count '\n' := count_written_gone ps
            rw [if_pos hgone, valueAfter, if_pos hgone]
            omega
          · rw [if_neg hgone, valueAfter, if_neg hgone]
            omega

theorem newline_not_mem_dropLast_cons {c : Char} {s : Text} (hc : c ≠ '\n')
    (h : '\n' ∉ s.dropLast) : '\n' ∉ (c :: s).dropLast := by
  cases s with
  | nil => exact List.not_mem_nil
  | cons d s =>
      rw [List.dropLast_cons_of_ne_nil (List.cons_ne_nil d s), List.mem_cons, not_or]
      exact ⟨Ne.symm hc, h⟩

/-- A line has its newline at the end. -/
theorem newline_not_mem_dropLast : ∀ {content line : Text}, line ∈ physicalLines content →
    '\n' ∉ line.dropLast
  | [], line, h => by
      rw [List.mem_singleton.mp h]
      exact List.not_mem_nil
  | c :: content, line, h => by
      rw [physicalLines] at h
      split at h
      · rcases List.mem_cons.mp h with rfl | h
        · exact List.not_mem_nil
        · exact newline_not_mem_dropLast h
      · rename_i hc
        obtain ⟨l, ls, hl⟩ := List.exists_cons_of_ne_nil (physicalLines_ne_nil content)
        rw [hl, List.modifyHead_cons] at h
        rcases List.mem_cons.mp h with rfl | h
        · have ih : '\n' ∉ l.dropLast :=
            newline_not_mem_dropLast (by rw [hl]; exact List.mem_cons_self)
          exact newline_not_mem_dropLast_cons hc ih
        · exact newline_not_mem_dropLast (by rw [hl]; exact List.mem_cons_of_mem _ h)

/-- A text with a newline at its end only has none, or is a line. -/
theorem newline_at_end {s : Text} (h : '\n' ∉ s.dropLast) :
    '\n' ∉ s ∨ ∃ body, s = body ++ ['\n'] ∧ '\n' ∉ body := by
  rcases List.eq_nil_or_concat s with rfl | ⟨body, c, rfl⟩
  · exact Or.inl List.not_mem_nil
  · rw [List.concat_eq_append] at h ⊢
    rw [List.dropLast_concat] at h
    by_cases hc : c = '\n'
    · exact Or.inr ⟨body, by rw [hc], h⟩
    · refine Or.inl ?_
      rw [List.mem_append, List.mem_singleton, not_or]
      exact ⟨h, Ne.symm hc⟩

theorem newline_not_mem_before {s a : Text} (h : '\n' ∉ (s ++ '=' :: a).dropLast) :
    '\n' ∉ s := by
  rw [List.dropLast_append_of_ne_nil (List.cons_ne_nil _ _), List.mem_append, not_or] at h
  exact h.1

theorem count_editedLine {line : Text} (hline : '\n' ∉ line.dropLast) :
    (editedLine key false v line).count '\n'
      ≤ (endsLine key line).toNat + v.count '\n' * (isKeyLine key line).toNat := by
  cases hkey : isKeyLine key line with
  | true =>
      obtain ⟨before, after, rfl, hmem, htrim⟩ := isKeyLine_iff.mp hkey
      have hbefore := List.count_eq_zero.mpr (newline_not_mem_before hline)
      rw [editedLine_keyLine after hmem htrim, endsLine_of_keyLine hkey]
      have hvalue : ('=' :: ' ' :: v).count '\n' = v.count '\n' := rfl
      simp only [List.count_append, hbefore, hvalue, Bool.toNat_true, Nat.mul_one, Nat.zero_add]
      exact Nat.le_of_eq (Nat.add_comm _ _)
  | false =>
      rw [editedLine_other hkey, endsLine_other hkey, Bool.toNat_false, Nat.mul_zero]
      rcases newline_at_end hline with hnl | ⟨body, rfl, hbody⟩
      · rw [List.count_eq_zero_of_not_mem hnl]
        exact Nat.zero_le _
      · rw [List.count_append, List.count_eq_zero_of_not_mem hbody]
        simp

theorem count_flatMap_editedLine : ∀ {ls : List Text}, (∀ l ∈ ls, '\n' ∉ l.dropLast) →
    (ls.flatMap (editedLine key false v)).count '\n'
      ≤ ls.countP (endsLine key) + v.count '\n' * ls.countP (isKeyLine key)
  | [], _ => Nat.zero_le _
  | l :: ls, h => by
      have hl : (editedLine key false v l).count '\n' ≤ _ :=
        count_editedLine (h l List.mem_cons_self)
      have ih := count_flatMap_editedLine fun l' hl' => h l' (List.mem_cons_of_mem l hl')
      rw [List.flatMap_cons, List.count_append, countP_cons_toNat, countP_cons_toNat, Nat.mul_add]
      omega

theorem splitOn_append_of_not_mem : ∀ {s : Text} (t : Text), eofByte ∉ s →
    (s ++ t).splitOn eofByte = (t.splitOn eofByte).modifyHead (s ++ ·)
  | [], t, _ => by
      rw [List.nil_append]
      exact (modifyHead_nil_append _).symm
  | c :: s, t, h => by
      rw [List.mem_cons, not_or] at h
      rw [List.cons_append, List.splitOn_cons_eq_if_modifyHead,
        if_neg (by simpa using Ne.symm h.1), splitOn_append_of_not_mem t h.2,
        List.modifyHead_modifyHead]
      rfl

theorem isKeyLine_piece {line : Text} (hkey : eofByte ∉ key) (h : isKeyLine key line = true) :
    ∃ p ∈ line.splitOn eofByte, isKeyLine key p = true := by
  obtain ⟨before, after, rfl, hmem, htrim⟩ := isKeyLine_iff.mp h
  have hbefore : eofByte ∉ before ++ ['='] := by
    rw [List.mem_append, not_or]
    refine ⟨fun hff => hkey ?_, by decide⟩
    rw [← htrim]
    exact mem_trim hff (by decide)
  obtain ⟨a, as, has⟩ := List.exists_cons_of_ne_nil (List.splitOn_ne_nil eofByte after)
  refine ⟨before ++ '=' :: a, ?_, isKeyLine_iff.mpr ⟨before, a, rfl, hmem, htrim⟩⟩
  have hsplit := splitOn_append_of_not_mem after hbefore
  rw [has, List.modifyHead_cons, List.append_assoc, List.append_assoc] at hsplit
  rw [show before ++ '=' :: after = before ++ (['='] ++ after) from rfl, hsplit]
  exact List.mem_cons_self

theorem newline_piece : ∀ {line : Text}, '\n' ∈ line → ∃ p ∈ line.splitOn eofByte, '\n' ∈ p
  | [], h => by cases h
  | c :: line, h => by
      obtain ⟨a, as, has⟩ := List.exists_cons_of_ne_nil (List.splitOn_ne_nil eofByte line)
      rw [List.splitOn_cons_eq_if_modifyHead]
      by_cases hc : c = eofByte
      · have hrest : '\n' ∈ line := (List.mem_cons.mp h).resolve_left (by rw [hc]; decide)
        obtain ⟨p, hp, hmem⟩ := newline_piece hrest
        rw [if_pos (by simp [hc])]
        exact ⟨p, List.mem_cons_of_mem _ hp, hmem⟩
      · rw [if_neg (by simpa using hc), has, List.modifyHead_cons]
        rcases List.mem_cons.mp h with rfl | h
        · exact ⟨_, List.mem_cons_self, List.mem_cons_self⟩
        · obtain ⟨p, hp, hmem⟩ := newline_piece h
          rw [has] at hp
          rcases List.mem_cons.mp hp with rfl | hp
          · exact ⟨_, List.mem_cons_self, List.mem_cons_of_mem c hmem⟩
          · exact ⟨p, List.mem_cons_of_mem _ hp, hmem⟩

/-- A line has a piece for every newline it should bring. -/
theorem countP_pieces (hkey : eofByte ∉ key) (content : Text) :
    (physicalLines content).countP (endsLine key) ≤ (pieces content).countP (endsLine key)
      ∧ (physicalLines content).countP (isKeyLine key)
        ≤ (pieces content).countP (isKeyLine key) := by
  have hflat : ∀ (q : Text → Bool), (∀ l, q l = true → ∃ p ∈ l.splitOn eofByte, q p = true) →
      ∀ ls : List Text, ls.countP q ≤ (ls.flatMap (·.splitOn eofByte)).countP q := by
    intro q hq ls
    induction ls with
    | nil => exact Nat.le_refl _
    | cons l ls ih =>
        rw [List.flatMap_cons, List.countP_append, countP_cons_toNat]
        cases hl : q l with
        | false => rw [Bool.toNat_false]; omega
        | true =>
            have hpos := List.countP_pos_iff.mpr (hq l hl)
            rw [Bool.toNat_true]
            omega
  constructor
  · refine hflat _ (fun l hl => ?_) _
    rcases Bool.or_eq_true_iff.mp hl with hl | hl
    · obtain ⟨p, hp, hmem⟩ := newline_piece (List.contains_iff_mem.mp hl)
      exact ⟨p, hp, by simp [endsLine, hmem]⟩
    · obtain ⟨p, hp, hkey⟩ := isKeyLine_piece hkey hl
      exact ⟨p, hp, endsLine_of_keyLine hkey⟩
  · exact hflat _ (fun l hl => isKeyLine_piece hkey hl) _

theorem fresh_eq (hkey : key ≠ []) : ∀ ps : List Text, fresh key ps = ps.countP (isKeyLine key)
  | [] => rfl
  | p :: ps => by
      rw [fresh, fresh_eq hkey ps, countP_cons_toNat]
      cases isKeyLine key p with
      | true => rfl
      | false => simp [hkey]

end Replace

/-! ## Marked lines

Where the key is empty and the value has a newline, newlines alone do
not decide: a piece written without the value may make up for one
written twice. There the lines that begin with a rewritten line are
counted. -/

section Marks

variable {v₀ v₁ : Text}

/-- The text is an equal sign behind blanks, a blank and `v₀`. -/
def isMark (v₀ line : Text) : Bool :=
  (cut '=' line).any fun kv => trim kv.1 == [] && kv.2 == ' ' :: v₀

/-- The marks of a text that goes on with the line `cur`. -/
def marksFrom (v₀ : Text) : Text → Text → Nat
  | _, [] => 0
  | cur, c :: s =>
      if c = '\n' then (isMark v₀ cur).toNat + marksFrom v₀ [] s
      else marksFrom v₀ (cur ++ [c]) s

theorem marksFrom_append : ∀ {cur s : Text} (t : Text), '\n' ∉ s →
    marksFrom v₀ cur (s ++ t) = marksFrom v₀ (cur ++ s) t
  | cur, [], t, _ => by rw [List.nil_append, List.append_nil]
  | cur, c :: s, t, h => by
      rw [List.mem_cons, not_or] at h
      rw [List.cons_append, marksFrom, if_neg (Ne.symm h.1), marksFrom_append t h.2,
        List.append_assoc, List.singleton_append]

theorem marksFrom_line {cur s : Text} (t : Text) (h : '\n' ∉ s) :
    marksFrom v₀ cur (s ++ '\n' :: t) = (isMark v₀ (cur ++ s)).toNat + marksFrom v₀ [] t := by
  rw [marksFrom_append _ h, marksFrom, if_pos rfl]

theorem marksFrom_lines : ∀ (cur s t : Text),
    marksFrom v₀ cur (s ++ '\n' :: t) = marksFrom v₀ cur (s ++ ['\n']) + marksFrom v₀ [] t
  | cur, [], t => by simp [marksFrom]
  | cur, c :: s, t => by
      rw [List.cons_append, List.cons_append, marksFrom, marksFrom]
      split
      · rw [marksFrom_lines [] s t, Nat.add_assoc]
      · exact marksFrom_lines _ s t

theorem trim_eq_nil {s : Text} : trim s = [] ↔ ∀ c ∈ s, isBlank c = true := by
  constructor
  · intro h c hc
    cases hblank : isBlank c with
    | true => rfl
    | false =>
        have hmem := mem_trim hc hblank
        rw [h] at hmem
        cases hmem
  · intro h
    refine List.eq_nil_iff_forall_not_mem.mpr fun c hc => ?_
    have hdrop : s.dropWhile isBlank = [] := List.dropWhile_eq_nil_iff.mpr h
    rw [trim, hdrop, List.rdropWhile_nil] at hc
    cases hc

/-- A line that has begun without a key-less equal sign goes on so. -/
theorem isKeyLine_append {cur p : Text} (hcur : isKeyLine [] cur = false)
    (hp : isKeyLine [] p = false) : isKeyLine [] (cur ++ p) = false := by
  rw [Bool.eq_false_iff] at hcur hp ⊢
  intro h
  obtain ⟨before, after, heq, hmem, htrim⟩ := isKeyLine_iff.mp h
  rcases List.append_eq_append_iff.mp heq with ⟨a, rfl, rfl⟩ | ⟨a, rfl, hcons⟩
  · refine hp (isKeyLine_iff.mpr ⟨a, after, rfl, fun ha => hmem (by simp [ha]), ?_⟩)
    exact trim_eq_nil.mpr fun c hc => trim_eq_nil.mp htrim c (List.mem_append_right _ hc)
  · cases a with
    | nil => exact hp (isKeyLine_iff.mpr ⟨[], after, hcons.symm, List.not_mem_nil, rfl⟩)
    | cons c a =>
        obtain rfl := (List.cons.inj hcons).1
        exact hcur (isKeyLine_iff.mpr ⟨before, a, rfl, hmem, htrim⟩)

theorem isMark_eq_false {line : Text} (h : isKeyLine [] line = false) :
    isMark v₀ line = false := by
  unfold isKeyLine at h
  unfold isMark
  cases hcut : cut '=' line with
  | none => rfl
  | some kv =>
      rw [hcut, Option.any_some] at h
      rw [Option.any_some, h, Bool.false_and]

/-- A piece that is not a line of the empty key, written as it is. -/
theorem marksFrom_other {cur p : Text} (w : Text) (hcur : isKeyLine [] cur = false)
    (hp : isKeyLine [] p = false) (hline : '\n' ∉ p.dropLast) :
    ∃ cur', isKeyLine [] cur' = false ∧ marksFrom v₀ cur (p ++ w) = marksFrom v₀ cur' w := by
  rcases newline_at_end hline with hnl | ⟨body, rfl, hbody⟩
  · exact ⟨cur ++ p, isKeyLine_append hcur hp, marksFrom_append w hnl⟩
  · have hkey : isKeyLine [] body = false := by
      rw [Bool.eq_false_iff] at hp ⊢
      intro h
      exact hp ((isKeyLine_append_of_mem (mem_of_isKeyLine h) _).trans h)
    refine ⟨[], rfl, ?_⟩
    rw [List.append_assoc, List.singleton_append, marksFrom_line w hbody,
      isMark_eq_false (isKeyLine_append hcur hkey), Bool.toNat_false, Nat.zero_add]

theorem isMark_gone {cur before : Text} (hcur : isKeyLine [] cur = false) (hmem : '=' ∉ before) :
    isMark v₀ (cur ++ (before ++ ['='])) = false := by
  unfold isMark
  cases hcut : cut '=' cur with
  | none =>
      have hnot : '=' ∉ cur ++ before := by
        rw [List.mem_append, not_or]
        exact ⟨cut_eq_none.mp hcut, hmem⟩
      rw [← List.append_assoc, cut_append [] hnot]
      simp
  | some kv =>
      obtain ⟨b, after⟩ := kv
      have hb : (trim b == []) = false := by
        unfold isKeyLine at hcur
        rwa [hcut, Option.any_some] at hcur
      obtain ⟨rfl, hnot⟩ := cut_eq_some.mp hcut
      rw [List.append_assoc, List.cons_append, cut_append _ hnot, Option.any_some, hb,
        Bool.false_and]

/-- Without the value no line becomes a mark. -/
theorem marksFrom_gone : ∀ {ps : List Text} {cur : Text}, (∀ p ∈ ps, '\n' ∉ p.dropLast) →
    isKeyLine [] cur = false → marksFrom v₀ cur (newContent [] false [] ps) = 0
  | [], cur, _, _ => rfl
  | p :: ps, cur, h, hcur => by
      have hp := h p List.mem_cons_self
      have hps : ∀ q ∈ ps, '\n' ∉ q.dropLast := fun q hq => h q (List.mem_cons_of_mem p hq)
      rw [newContent, valueAfter_nil]
      cases hkey : isKeyLine [] p with
      | true =>
          obtain ⟨before, after, rfl, hmem, htrim⟩ := isKeyLine_iff.mp hkey
          have hline : '\n' ∉ before ++ ['='] := by
            rw [List.mem_append, not_or]
            exact ⟨newline_not_mem_before hp, by decide⟩
          have hmark : isMark v₀ (cur ++ (before ++ ['='])) = false := isMark_gone hcur hmem
          rw [editedPiece_keyLine after hmem htrim]
          rw [show before ++ '=' :: ([] : Text) ++ ['\n'] ++ newContent [] false [] ps
            = (before ++ ['=']) ++ '\n' :: newContent [] false [] ps by simp,
            marksFrom_line _ hline,
            hmark, Bool.toNat_false, Nat.zero_add]
          exact marksFrom_gone hps rfl
      | false =>
          rw [editedPiece_other hkey]
          obtain ⟨cur', hcur', heq⟩ := marksFrom_other (newContent [] false [] ps) hcur hkey hp
          rw [heq]
          exact marksFrom_gone hps hcur'

/-- Only the pieces written with the value bring marks. -/
theorem marksFrom_newContent (hv₀ : '\n' ∉ v₀) : ∀ {ps : List Text} {cur : Text},
    (∀ p ∈ ps, '\n' ∉ p.dropLast) → isKeyLine [] cur = false →
    marksFrom v₀ cur (newContent [] false (' ' :: (v₀ ++ '\n' :: v₁)) ps)
      ≤ (1 + marksFrom v₀ [] (v₁ ++ ['\n'])) * fresh [] ps
  | [], cur, _, _ => Nat.zero_le _
  | p :: ps, cur, h, hcur => by
      have hp := h p List.mem_cons_self
      have hps : ∀ q ∈ ps, '\n' ∉ q.dropLast := fun q hq => h q (List.mem_cons_of_mem p hq)
      rw [newContent, fresh]
      cases hkey : isKeyLine [] p with
      | true =>
          obtain ⟨before, after, rfl, hmem, htrim⟩ := isKeyLine_iff.mp hkey
          have hline : '\n' ∉ before ++ '=' :: ' ' :: v₀ := by
            simpa [newline_not_mem_before hp] using hv₀
          have hstay : valueAfter [] (' ' :: (v₀ ++ '\n' :: v₁)) (before ++ '=' :: after)
              = ' ' :: (v₀ ++ '\n' :: v₁) :=
            valueAfter_of_mem (by simp) _ _
          have ih : marksFrom v₀ [] (newContent [] false (' ' :: (v₀ ++ '\n' :: v₁)) ps) ≤ _ :=
            marksFrom_newContent hv₀ hps rfl
          have hone := Bool.toNat_le (isMark v₀ (cur ++ (before ++ '=' :: ' ' :: v₀)))
          rw [editedPiece_keyLine after hmem htrim, hstay, if_pos rfl, Nat.mul_succ]
          rw [show before ++ '=' :: (' ' :: (v₀ ++ '\n' :: v₁)) ++ ['\n']
              ++ newContent [] false (' ' :: (v₀ ++ '\n' :: v₁)) ps
            = (before ++ '=' :: ' ' :: v₀) ++ '\n' :: (v₁ ++ '\n' ::
              newContent [] false (' ' :: (v₀ ++ '\n' :: v₁)) ps) by simp,
            marksFrom_line _ hline, marksFrom_lines]
          omega
      | false =>
          rw [if_neg Bool.false_ne_true, editedPiece_other hkey]
          obtain ⟨cur', hcur', heq⟩ := marksFrom_other
            (newContent [] false (valueAfter [] (' ' :: (v₀ ++ '\n' :: v₁)) p) ps) hcur hkey hp
          rw [heq]
          by_cases hgone : ([] : Text) = [] ∧ '=' ∉ p
          · rw [valueAfter, if_pos hgone, marksFrom_gone hps hcur']
            exact Nat.zero_le _
          · rw [valueAfter, if_neg hgone, if_neg hgone]
            exact marksFrom_newContent hv₀ hps hcur'

theorem marksFrom_keyLine (hv₀ : '\n' ∉ v₀) {line : Text} (hline : '\n' ∉ line.dropLast)
    (hkey : isKeyLine [] line = true) (w : Text) :
    marksFrom v₀ [] (editedLine [] false (v₀ ++ '\n' :: v₁) line ++ w)
      = 1 + marksFrom v₀ [] (v₁ ++ ['\n']) + marksFrom v₀ [] w := by
  obtain ⟨before, after, rfl, hmem, htrim⟩ := isKeyLine_iff.mp hkey
  have hnl : '\n' ∉ before ++ '=' :: ' ' :: v₀ := by
    simpa [newline_not_mem_before hline] using hv₀
  have hmark : isMark v₀ (before ++ '=' :: ' ' :: v₀) = true := by
    rw [isMark, cut_append _ hmem]
    simp [htrim]
  rw [editedLine_keyLine after hmem htrim]
  rw [show before ++ '=' :: ' ' :: (v₀ ++ '\n' :: v₁) ++ ['\n'] ++ w
    = (before ++ '=' :: ' ' :: v₀) ++ '\n' :: (v₁ ++ '\n' :: w) by simp,
    marksFrom_line _ hnl, marksFrom_lines, List.nil_append, hmark, Bool.toNat_true, Nat.add_assoc]

/-- Every line of the key should bring its marks. -/
theorem marksFrom_editedLine (hv₀ : '\n' ∉ v₀) (content : Text) :
    (1 + marksFrom v₀ [] (v₁ ++ ['\n'])) * (physicalLines content).countP (isKeyLine [])
      ≤ marksFrom v₀ []
        ((physicalLines content).flatMap (editedLine [] false (v₀ ++ '\n' :: v₁))) := by
  induction content using linesInduction with
  | last body hbody =>
      rw [physicalLines_last hbody, List.flatMap_singleton, countP_cons_toNat]
      cases hkey : isKeyLine [] body with
      | true =>
          have hmarks : marksFrom v₀ [] (editedLine [] false (v₀ ++ '\n' :: v₁) body ++ []) = _ :=
            marksFrom_keyLine hv₀ (fun h => hbody (List.mem_of_mem_dropLast h)) hkey []
          rw [List.append_nil] at hmarks
          simp [hmarks, marksFrom]
      | false => simp
  | line body rest hbody ih =>
      have hline : '\n' ∉ (body ++ ['\n']).dropLast := by rwa [List.dropLast_concat]
      rw [physicalLines_line rest hbody, List.flatMap_cons, countP_cons_toNat, Nat.mul_add]
      cases hkey : isKeyLine [] (body ++ ['\n']) with
      | true =>
          rw [marksFrom_keyLine hv₀ hline hkey, Bool.toNat_true, Nat.mul_one]
          omega
      | false =>
          rw [editedLine_other hkey, List.append_assoc, List.singleton_append,
            marksFrom_line _ hbody, Bool.toNat_false, Nat.mul_zero]
          omega

end Marks

/-! ## Files -/

section Files

variable {key v value : Text}

theorem newline_not_mem_piece : ∀ {content p : Text}, p ∈ pieces content → '\n' ∉ p.dropLast
  | [], p, h => by
      rw [List.mem_singleton.mp h]
      exact List.not_mem_nil
  | c :: content, p, h => by
      by_cases heof : c = eofByte
      · rw [heof, pieces_eofByte] at h
        rcases List.mem_cons.mp h with rfl | h
        · exact List.not_mem_nil
        · exact newline_not_mem_piece h
      · by_cases hnl : c = '\n'
        · rw [hnl, pieces_newline] at h
          rcases List.mem_cons.mp h with rfl | h
          · exact List.not_mem_nil
          · exact newline_not_mem_piece h
        · rw [pieces_other hnl heof] at h
          cases hp : pieces content with
          | nil =>
              rw [hp] at h
              cases h
          | cons a as =>
              rw [hp, List.modifyHead_cons] at h
              rcases List.mem_cons.mp h with rfl | h
              · have ih : '\n' ∉ a.dropLast :=
                  newline_not_mem_piece (by rw [hp]; exact List.mem_cons_self)
                exact newline_not_mem_dropLast_cons hnl ih
              · exact newline_not_mem_piece (by rw [hp]; exact List.mem_cons_of_mem _ h)

/-- Where the texts agree, the value was there for as many pieces as it
is wanted for. -/
theorem fresh_of_eq (hkey : eofByte ∉ key) {more : Text} (rest : Text) (hmore : '\n' ∉ more)
    (heq : newContent key false (' ' :: v) (pieces (more ++ '\n' :: rest))
      = (physicalLines rest).flatMap (editedLine key false v)) :
    v.count '\n' = 0 ∨ (physicalLines rest).countP (isKeyLine key)
      ≤ fresh key (pieces (more ++ '\n' :: rest)) := by
  by_cases hk : key = []
  · subst hk
    cases hcut : cut '\n' v with
    | none => exact Or.inl (List.count_eq_zero.mpr (cut_eq_none.mp hcut))
    | some kv =>
        obtain ⟨v₀, v₁⟩ := kv
        obtain ⟨rfl, hv₀⟩ := cut_eq_some.mp hcut
        have hwritten : marksFrom v₀ [] (newContent [] false (' ' :: (v₀ ++ '\n' :: v₁))
            (pieces (more ++ '\n' :: rest))) ≤ _ :=
          marksFrom_newContent hv₀ (fun p hp => newline_not_mem_piece hp) rfl
        rw [heq] at hwritten
        have hedited : (1 + marksFrom v₀ [] (v₁ ++ ['\n'])) * _ ≤ _ :=
          (marksFrom_editedLine hv₀ rest).trans hwritten
        exact Or.inr (Nat.le_of_mul_le_mul_left hedited (by omega))
  · have hpieces := (countP_pieces hkey (more ++ '\n' :: rest)).2
    rw [physicalLines_line rest hmore, countP_cons_toNat] at hpieces
    rw [fresh_eq hk]
    exact Or.inr (by omega)

/-- A line too many shows. -/
theorem newContent_ne_of_extra (hkey : eofByte ∉ key) {more : Text} (rest : Text)
    (hmore : '\n' ∉ more) :
    newContent key false (' ' :: v) (pieces (more ++ '\n' :: rest))
      ≠ (physicalLines rest).flatMap (editedLine key false v) := by
  intro heq
  have hwritten :
      _ ≤ (newContent key false (' ' :: v) (pieces (more ++ '\n' :: rest))).count '\n' :=
    count_newContent _
  have hedited : ((physicalLines rest).flatMap (editedLine key false v)).count '\n' ≤ _ :=
    count_flatMap_editedLine fun l hl => newline_not_mem_dropLast hl
  have hpieces := (countP_pieces hkey (more ++ '\n' :: rest)).1
  have hend : endsLine key (more ++ ['\n']) = true := by simp [endsLine]
  rw [physicalLines_line rest hmore, countP_cons_toNat, hend, Bool.toNat_true] at hpieces
  rw [heq] at hwritten
  have hmul : v.count '\n' * (physicalLines rest).countP (isKeyLine key)
      ≤ v.count '\n' * fresh key (pieces (more ++ '\n' :: rest)) := by
    rcases fresh_of_eq hkey rest hmore heq with hzero | hle
    · rw [hzero, Nat.zero_mul]
      exact Nat.zero_le _
    · exact Nat.mul_le_mul_left _ hle
  omega

/-- `ReplacesCleanly`, from a line on, with the value there or gone. -/
structure CleanFrom (key value : Text) (ls : List Text) : Prop where
  whole : ∀ line ∈ ls,
    if isKeyLine key line then
      ∃ body n, line = body ++ List.replicate n eofByte ∧ eofByte ∉ body ∧ '=' ∈ body
    else eofByte ∉ line
  gone : value = [] → ∀ line ∈ ls, isKeyLine key line = false
  ordered : key = [] → ls.Pairwise fun line line' => isKeyLine key line' = true → '=' ∈ line

theorem isKeyLine_nil : isKeyLine key [] = false := rfl

theorem physicalLines_eq (content : Text) :
    physicalLines content = lines content ∨ physicalLines content = lines content ++ [[]] := by
  rw [lines]
  induction content using linesInduction with
  | last body hbody =>
      rw [physicalLines_last hbody]
      by_cases hnil : body = []
      · exact Or.inr (by simp [hnil])
      · exact Or.inl (by simp [hnil])
  | line body rest hbody ih =>
      rw [physicalLines_line rest hbody, List.filter_cons_of_pos (by simp)]
      rcases ih with ih | ih
      · exact Or.inl (congrArg _ ih)
      · exact Or.inr (congrArg _ ih)

theorem replacesCleanly_iff {content : Text} :
    ReplacesCleanly key content ↔ CleanFrom key (' ' :: v) (physicalLines content) := by
  constructor
  · rintro ⟨hwhole, hordered⟩
    refine ⟨fun line hline => ?_, fun h => (List.cons_ne_nil _ _ h).elim, fun hk => ?_⟩
    · by_cases hnil : line = []
      · rw [hnil, isKeyLine_nil, if_neg Bool.false_ne_true]
        exact List.not_mem_nil
      · exact hwhole line (mem_lines.mpr ⟨hline, hnil⟩)
    · rcases physicalLines_eq content with heq | heq
      · rw [heq]
        exact hordered hk
      · rw [heq, List.pairwise_append]
        refine ⟨hordered hk, List.pairwise_singleton _ _, fun line _ line' hline' hkey => ?_⟩
        rw [List.mem_singleton.mp hline', isKeyLine_nil] at hkey
        cases hkey
  · rintro ⟨hwhole, -, hordered⟩
    refine ⟨fun line hline => hwhole line (mem_lines.mp hline).1, fun hk => ?_⟩
    exact (hordered hk).filter _

theorem CleanFrom.cons {line : Text} {ls : List Text} (hff : eofByte ∉ line)
    (hkey : isKeyLine key line = false) (h : CleanFrom key (valueAfter key value line) ls) :
    CleanFrom key value (line :: ls) := by
  obtain ⟨hwhole, hgone, hordered⟩ := h
  have hstay : value = [] → valueAfter key value line = [] := by
    rintro rfl
    exact valueAfter_nil key line
  refine ⟨fun line' hline' => ?_, fun hnil line' hline' => ?_, fun hk => ?_⟩
  · rcases List.mem_cons.mp hline' with rfl | hline'
    · rw [hkey, if_neg Bool.false_ne_true]
      exact hff
    · exact hwhole line' hline'
  · rcases List.mem_cons.mp hline' with rfl | hline'
    · exact hkey
    · exact hgone (hstay hnil) line' hline'
  · refine List.pairwise_cons.mpr ⟨fun line' hline' hkey' => ?_, hordered hk⟩
    by_contra hmem
    rw [hgone (if_pos ⟨hk, hmem⟩) line' hline'] at hkey'
    cases hkey'

theorem CleanFrom.cons_key {line body : Text} {n : Nat} {ls : List Text}
    (hline : line = body ++ List.replicate n eofByte) (hff : eofByte ∉ body) (hmem : '=' ∈ body)
    (hkey : isKeyLine key line = true) (h : CleanFrom key (' ' :: v) ls) :
    CleanFrom key (' ' :: v) (line :: ls) := by
  obtain ⟨hwhole, -, hordered⟩ := h
  refine ⟨fun line' hline' => ?_, fun hnil => (List.cons_ne_nil _ _ hnil).elim, fun hk => ?_⟩
  · rcases List.mem_cons.mp hline' with rfl | hline'
    · rw [if_pos hkey]
      exact ⟨body, n, hline, hff, hmem⟩
    · exact hwhole line' hline'
  · refine List.pairwise_cons.mpr ⟨fun line' _ _ => ?_, hordered hk⟩
    rw [hline]
    exact List.mem_append_left _ hmem

/-- Pieces that are written as nothing are empty. -/
theorem eq_nil_of_newContent : ∀ {value : Text} {ps : List Text},
    newContent key false value ps = [] → ∀ p ∈ ps, p = []
  | value, [], _ => by simp
  | value, p :: ps, h => by
      rw [newContent, List.append_eq_nil_iff] at h
      intro q hq
      rcases List.mem_cons.mp hq with rfl | hq
      · cases hkey : isKeyLine key q with
        | true =>
            obtain ⟨before, after, rfl, hmem, htrim⟩ := isKeyLine_iff.mp hkey
            rw [editedPiece_keyLine after hmem htrim] at h
            simp at h
        | false =>
            rw [editedPiece_other hkey] at h
            exact h.1
      · exact eq_nil_of_newContent h.2 q hq

theorem eq_replicate_of_splitOn : ∀ {s : Text}, (∀ p ∈ s.splitOn eofByte, p = []) →
    ∃ n, s = List.replicate n eofByte
  | [], _ => ⟨0, rfl⟩
  | c :: s, h => by
      rw [List.splitOn_cons_eq_if_modifyHead] at h
      by_cases hc : c = eofByte
      · rw [if_pos (by simp [hc])] at h
        obtain ⟨n, rfl⟩ := eq_replicate_of_splitOn fun p hp => h p (List.mem_cons_of_mem _ hp)
        exact ⟨n + 1, by rw [hc, List.replicate_succ]⟩
      · obtain ⟨a, as, has⟩ := List.exists_cons_of_ne_nil (List.splitOn_ne_nil eofByte s)
        rw [if_neg (by simpa using hc), has, List.modifyHead_cons] at h
        exact absurd (h _ List.mem_cons_self) (List.cons_ne_nil _ _)

theorem eofByte_not_mem_key {line : Text} (h : isKeyLine key line = true)
    (hff : eofByte ∉ line) : eofByte ∉ key := by
  obtain ⟨before, after, rfl, -, rfl⟩ := isKeyLine_iff.mp h
  exact fun hmem => hff (List.mem_append_left _ (mem_of_mem_trim hmem))

theorem cleanFrom_nil : CleanFrom key value [] :=
  ⟨by simp, by simp, fun _ => List.Pairwise.nil⟩

/-- The newline of a line stands behind its `0xFF`. -/
theorem newline_behind_eofByte {body p more : Text} (h : body ++ ['\n'] = p ++ eofByte :: more) :
    ∃ m, more = m ++ ['\n'] ∧ body = p ++ eofByte :: m := by
  rcases List.eq_nil_or_concat more with rfl | ⟨m, c, rfl⟩
  · exact absurd (List.cons.inj (List.append_inj' h rfl).2).1 (by decide)
  · rw [List.concat_eq_append, ← List.cons_append, ← List.append_assoc] at h
    obtain ⟨rfl, hc⟩ := List.append_inj' h rfl
    exact ⟨m, by rw [(List.cons.inj hc).1, List.concat_eq_append], rfl⟩

theorem valueAfter_or (hvalue : value = ' ' :: v ∨ key = [] ∧ value = []) (p : Text) :
    valueAfter key value p = ' ' :: v ∨ key = [] ∧ valueAfter key value p = [] := by
  rcases valueAfter_cases key value p with hstay | hgone
  · rwa [hstay]
  · exact Or.inr hgone

/-- Where the texts agree, the file is clean from the line on. -/
theorem cleanFrom_of_eq (content : Text) : ∀ value, value = ' ' :: v ∨ key = [] ∧ value = [] →
    newContent key false value (pieces content)
      = (physicalLines content).flatMap (editedLine key false v) →
    CleanFrom key value (physicalLines content) := by
  induction content using linesInduction with
  | last body hbody =>
      intro value hvalue heq
      obtain ⟨p, ps, hps⟩ := List.exists_cons_of_ne_nil (List.splitOn_ne_nil eofByte body)
      have hpieces : ∀ q ∈ ps, eofByte ∉ q := fun q hq =>
        not_mem_of_mem_splitOn (by rw [hps]; exact List.mem_cons_of_mem p hq)
      rw [pieces_last hbody, physicalLines_last hbody, List.flatMap_singleton, hps,
        ← List.append_nil (editedLine key false v body)] at heq
      rw [physicalLines_last hbody]
      rcases first_line hps hpieces (hvalue.imp_right And.right) heq with
        ⟨hff, hkey⟩ | ⟨hp, hkey, rfl, hrest⟩
      · exact cleanFrom_nil.cons hff hkey
      · rcases splitOn_cases body with ⟨hff, -⟩ | ⟨p', more, hmore, hff, hsplit⟩
        · exact cleanFrom_nil.cons_key (n := 0) (List.append_nil _).symm hff
            (mem_of_isKeyLine hkey) hkey
        · obtain ⟨rfl, rfl⟩ := List.cons.inj (hps.symm.trans hsplit)
          obtain ⟨n, rfl⟩ := eq_replicate_of_splitOn (eq_nil_of_newContent hrest)
          exact cleanFrom_nil.cons_key (n := n + 1) hmore hff (mem_of_isKeyLine hp) hkey
  | line body rest hbody ih =>
      intro value hvalue heq
      obtain ⟨p, ps, hps⟩ := List.exists_cons_of_ne_nil
        (List.splitOn_ne_nil eofByte (body ++ ['\n']))
      have hpieces : ∀ q ∈ ps ++ pieces rest, eofByte ∉ q := by
        intro q hq
        rcases List.mem_append.mp hq with hq | hq
        · exact not_mem_of_mem_splitOn (by rw [hps]; exact List.mem_cons_of_mem p hq)
        · obtain ⟨l, -, hq⟩ := List.mem_flatMap.mp hq
          exact not_mem_of_mem_splitOn hq
      rw [pieces_line rest hbody, physicalLines_line rest hbody, List.flatMap_cons, hps,
        List.cons_append] at heq
      rw [physicalLines_line rest hbody]
      rcases first_line hps hpieces (hvalue.imp_right And.right) heq with
        ⟨hff, hkey⟩ | ⟨hp, hkey, rfl, hrest⟩
      · rw [List.splitOn_eq_singleton hff] at hps
        obtain ⟨rfl, rfl⟩ := List.cons.inj hps
        rw [newContent, editedPiece_other hkey, editedLine_other hkey, List.nil_append,
          List.append_cancel_left_eq] at heq
        exact (ih _ (valueAfter_or hvalue _) heq).cons hff hkey
      · rcases splitOn_cases (body ++ ['\n']) with ⟨hff, hsplit⟩ | ⟨p', more, hmore, hff, hsplit⟩
        · obtain ⟨rfl, rfl⟩ := List.cons.inj (hps.symm.trans hsplit)
          exact (ih _ (Or.inl rfl) hrest).cons_key (n := 0) (List.append_nil _).symm hff
            (mem_of_isKeyLine hkey) hkey
        · -- the rest of the line is written as a line more
          obtain ⟨rfl, rfl⟩ := List.cons.inj (hps.symm.trans hsplit)
          obtain ⟨m, rfl, rfl⟩ := newline_behind_eofByte hmore
          have hm : '\n' ∉ m := fun h => hbody (by simp [h])
          rw [← pieces_line rest hm] at hrest
          exact absurd hrest (newContent_ne_of_extra (eofByte_not_mem_key hp hff) rest hm)

theorem CleanFrom.tail {line : Text} {ls : List Text} (h : CleanFrom key value (line :: ls)) :
    CleanFrom key (valueAfter key value line) ls := by
  obtain ⟨hwhole, hgone, hordered⟩ := h
  refine ⟨fun line' hline' => hwhole line' (List.mem_cons_of_mem _ hline'), ?_, ?_⟩
  · intro hnil line' hline'
    rw [valueAfter] at hnil
    split at hnil
    · rename_i hline
      rw [Bool.eq_false_iff]
      exact fun hkey => hline.2 ((List.pairwise_cons.mp (hordered hline.1)).1 line' hline' hkey)
    · exact hgone hnil line' (List.mem_cons_of_mem _ hline')
  · exact fun hk => (List.pairwise_cons.mp (hordered hk)).2

/-- A line of the key without a `0xFF` is rewritten as it should be. -/
theorem editedPiece_eq_editedLine {line : Text} (h : isKeyLine key line = true) :
    editedPiece key false (' ' :: v) line = editedLine key false v line
      ∧ ∀ tail, editedLine key false v (line ++ tail) = editedLine key false v line := by
  obtain ⟨before, after, rfl, hmem, htrim⟩ := isKeyLine_iff.mp h
  rw [editedPiece_keyLine after hmem htrim, editedLine_keyLine after hmem htrim]
  refine ⟨rfl, fun tail => ?_⟩
  rw [List.append_assoc, List.cons_append, editedLine_keyLine _ hmem htrim]

theorem splitOn_replicate : ∀ n : Nat, ∀ p ∈ (List.replicate n eofByte).splitOn eofByte, p = []
  | 0, p, hp => List.mem_singleton.mp hp
  | n + 1, p, hp => by
      rw [List.replicate_succ, List.splitOn_cons_eq_if_modifyHead,
        if_pos (beq_self_eq_true _)] at hp
      rcases List.mem_cons.mp hp with rfl | hp
      · rfl
      · exact splitOn_replicate n p hp

theorem splitOn_append_replicate {body : Text} (hff : eofByte ∉ body) (n : Nat) :
    ∃ ps, (body ++ List.replicate n eofByte).splitOn eofByte = body :: ps ∧ ∀ p ∈ ps, p = [] := by
  cases n with
  | zero => exact ⟨[], by simpa using List.splitOn_eq_singleton hff, by simp⟩
  | succ n =>
      rw [List.replicate_succ, List.splitOn_append_cons_self_of_not_mem hff]
      exact ⟨_, rfl, splitOn_replicate n⟩

theorem newContent_empty : ∀ {value : Text} {ps : List Text}, (∀ p ∈ ps, p = []) →
    newContent key false value ps = []
  | value, [], _ => rfl
  | value, p :: ps, h => by
      rw [newContent, h p List.mem_cons_self, editedPiece_other isKeyLine_nil, List.nil_append]
      exact newContent_empty fun q hq => h q (List.mem_cons_of_mem p hq)

/-- Where a line of the key is still to come the value is there. -/
theorem CleanFrom.value_eq {value line : Text} {ls : List Text}
    (h : CleanFrom key value (line :: ls))
    (hvalue : value = ' ' :: v ∨ key = [] ∧ value = []) (hkey : isKeyLine key line = true) :
    value = ' ' :: v := by
  refine hvalue.resolve_right ?_
  rintro ⟨-, rfl⟩
  rw [h.gone rfl line List.mem_cons_self] at hkey
  cases hkey

/-- Before a newline there is no `0xFF`, since it would have to be the
last character. -/
theorem CleanFrom.not_mem_newline {value body : Text} {ls : List Text}
    (h : CleanFrom key value ((body ++ ['\n']) :: ls)) : eofByte ∉ body ++ ['\n'] := by
  have hline := h.whole (body ++ ['\n']) List.mem_cons_self
  cases hkey : isKeyLine key (body ++ ['\n']) with
  | false => rwa [hkey, if_neg Bool.false_ne_true] at hline
  | true =>
      rw [hkey, if_pos rfl] at hline
      obtain ⟨b, n, heq, hff, -⟩ := hline
      cases n with
      | zero =>
          rw [heq]
          simpa using hff
      | succ n =>
          rw [List.replicate_succ', ← List.append_assoc] at heq
          exact absurd (List.cons.inj (List.append_inj' heq rfl).2).1 (by decide)

/-- From a clean line on, the texts agree. -/
theorem eq_of_cleanFrom (content : Text) : ∀ value, value = ' ' :: v ∨ key = [] ∧ value = [] →
    CleanFrom key value (physicalLines content) →
    newContent key false value (pieces content)
      = (physicalLines content).flatMap (editedLine key false v) := by
  induction content using linesInduction with
  | last body hbody =>
      intro value hvalue h
      rw [physicalLines_last hbody] at h ⊢
      have hline := h.whole body List.mem_cons_self
      rw [pieces_last hbody, List.flatMap_singleton]
      cases hkey : isKeyLine key body with
      | true =>
          rw [hkey, if_pos rfl] at hline
          obtain rfl := h.value_eq hvalue hkey
          obtain ⟨b, n, rfl, hff, hmem⟩ := hline
          obtain ⟨ps, hps, hempty⟩ := splitOn_append_replicate hff n
          have hb := (isKeyLine_append_of_mem hmem _).symm.trans hkey
          obtain ⟨hpiece, htail⟩ := editedPiece_eq_editedLine (v := v) hb
          rw [hps, newContent, newContent_empty hempty, List.append_nil, hpiece, htail]
      | false =>
          rw [hkey, if_neg Bool.false_ne_true] at hline
          rw [List.splitOn_eq_singleton hline, newContent, editedPiece_other hkey,
            editedLine_other hkey, newContent, List.append_nil]
  | line body rest hbody ih =>
      intro value hvalue h
      rw [physicalLines_line rest hbody] at h ⊢
      have hff := h.not_mem_newline
      have hwritten : editedPiece key false value (body ++ ['\n'])
          = editedLine key false v (body ++ ['\n']) := by
        cases hkey : isKeyLine key (body ++ ['\n']) with
        | false => rw [editedPiece_other hkey, editedLine_other hkey]
        | true =>
            obtain rfl := h.value_eq hvalue hkey
            exact (editedPiece_eq_editedLine hkey).1
      rw [pieces_line rest hbody, List.splitOn_eq_singleton hff, List.singleton_append, newContent,
        hwritten, List.flatMap_cons, ih _ (valueAfter_or hvalue _) h.tail]

end Files

/-- The new file is the old one line by line, with only the lines of the
key rewritten or left out. -/
def TouchesOnly (content keyValue : Text) (ifDel : Bool) (key value : Text) : Prop :=
  ∃ n, configReplace content keyValue ifDel
    = some (n, (lines content).flatMap (editedLine key ifDel value))

theorem configReplace_accepts {keyValue key value : Text}
    (h : getKeyValueByEqualSign keyValue = (0, key, value)) (content : Text) (ifDel : Bool) :
    configReplace content keyValue ifDel
      = some ((pieces content).countP (isKeyLine key),
        newContent key ifDel (' ' :: value) (pieces content)) := by
  obtain ⟨before, after, hcut, rfl, rfl⟩ := cut_of_accepts h
  rw [configReplace_eq, hcut]
  rfl

/-- An edit touches only the lines of its key exactly when the file can
be edited cleanly. -/
theorem touchesOnly_iff {keyValue key value : Text}
    (h : getKeyValueByEqualSign keyValue = (0, key, value)) (content : Text) (ifDel : Bool) :
    TouchesOnly content keyValue ifDel key value
      ↔ if ifDel then DeletesCleanly key content else ReplacesCleanly key content := by
  have hedit : TouchesOnly content keyValue ifDel key value
      ↔ newContent key ifDel (' ' :: value) (pieces content)
        = (lines content).flatMap (editedLine key ifDel value) := by
    rw [TouchesOnly, configReplace_accepts h]
    constructor
    · rintro ⟨n, heq⟩
      exact (Prod.mk.inj (Option.some.inj heq)).2
    · intro heq
      exact ⟨_, by rw [heq]⟩
  rw [hedit]
  cases ifDel with
  | true => exact newContent_delete_iff key value content
  | false =>
      have hnil : editedLine key false value [] = [] := rfl
      rw [flatMap_lines hnil, if_neg Bool.false_ne_true, replacesCleanly_iff (v := value)]
      constructor
      · exact cleanFrom_of_eq content _ (Or.inl rfl)
      · exact eq_of_cleanFrom content _ (Or.inl rfl)

theorem touchesOnly_replaced :
    TouchesOnly "a\nK = 1\nb".toList "K=2".toList false ['K'] ['2']
      ∧ ReplacesCleanly ['K'] "a\nK = 1\nb".toList := by
  have htouches : TouchesOnly "a\nK = 1\nb".toList "K=2".toList false ['K'] ['2'] := ⟨1, rfl⟩
  exact ⟨htouches, (touchesOnly_iff rfl _ false).mp htouches⟩

/-- A byte is lost from a line that has nothing to do with the key. -/
theorem not_touchesOnly_eofByte :
    configReplace "a\xffb\n".toList "K=2".toList false = some (0, "ab\n".toList)
      ∧ ¬ TouchesOnly "a\xffb\n".toList "K=2".toList false ['K'] ['2'] := by
  have hrun : configReplace "a\xffb\n".toList "K=2".toList false = some (0, "ab\n".toList) := rfl
  refine ⟨hrun, ?_⟩
  rintro ⟨n, h⟩
  rw [hrun] at h
  exact absurd (Prod.mk.inj (Option.some.inj h)).2 (by decide)

end Yapas
