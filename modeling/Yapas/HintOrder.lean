import Mathlib.Data.List.Nodup
import Mathlib.Data.List.TakeWhile
import Yapas.LineEditor

/-!
# The order of the hints

`addHints` puts a hint at the end of the vector, unless it is there
already. A command of several words is completed from all the hints, a
command of one word from those in front of the first hint with a space.

So what counts is which hints there are and which of them stand in front
of the first one with a space. Two programs that add the same ones, in
any order and however often, have the same line, the same cursor and the
same history whatever is pressed, and get the same lines
(`readLines_addHints`). Only the candidates that a Tab lists are in the
order of the vector.
-/

namespace Yapas

namespace CmdLine

/-! ## The vector -/

def addHints (hints : List Text) (hint : Text) : List Text :=
  if hint ∈ hints then hints else hints ++ [hint]

section Vector

variable {hints hs hs' : List Text} {t hint : Text}

theorem mem_addHints : t ∈ addHints hints hint ↔ t ∈ hints ∨ t = hint := by
  rw [addHints]
  split
  · rename_i hthere
    exact ⟨Or.inl, fun h => h.elim id fun heq => heq ▸ hthere⟩
  · rw [List.mem_append, List.mem_singleton]

theorem addHints_nodup (h : hints.Nodup) (hint : Text) : (addHints hints hint).Nodup := by
  rw [addHints]
  split
  · exact h
  · rename_i hnew
    refine List.nodup_append.mpr ⟨h, List.nodup_singleton hint, fun t ht u hu => ?_⟩
    rintro rfl
    exact hnew (List.mem_singleton.mp hu ▸ ht)

theorem mem_foldl_addHints : t ∈ hs.foldl addHints hints ↔ t ∈ hints ∨ t ∈ hs := by
  induction hs generalizing hints with
  | nil => simp
  | cons hint hs ih => rw [List.foldl_cons, ih, mem_addHints, List.mem_cons, or_assoc]

theorem foldl_addHints_nodup (h : hints.Nodup) : (hs.foldl addHints hints).Nodup := by
  induction hs generalizing hints with
  | nil => exact h
  | cons hint hs ih => exact ih (addHints_nodup h hint)

/-- A hint that is there already ends nothing. -/
theorem mem_takeWhile_addHints (p : Text → Bool) (rest : List Text) :
    t ∈ (addHints hints hint ++ rest).takeWhile p
      ↔ t ∈ (hints ++ hint :: rest).takeWhile p := by
  rw [addHints]
  split
  · rename_i hthere
    by_cases hall : ∀ u ∈ hints, p u = true
    · rw [List.takeWhile_append_of_pos hall, List.takeWhile_append_of_pos hall,
        List.takeWhile_cons_of_pos (hall hint hthere), List.mem_append, List.mem_append,
        List.mem_cons]
      refine or_congr_right' fun hnot => (or_iff_right ?_).symm
      rintro rfl
      exact hnot hthere
    · have hshort : (hints.takeWhile p).length ≠ hints.length := fun hlen =>
        hall (List.takeWhile_eq_self_iff.mp
          ((List.takeWhile_prefix p).eq_of_length hlen))
      rw [List.takeWhile_append, if_neg hshort, List.takeWhile_append, if_neg hshort]
  · rw [List.append_assoc, List.singleton_append]

theorem mem_takeWhile_foldl_addHints (p : Text → Bool) :
    t ∈ (hs.foldl addHints hints).takeWhile p ↔ t ∈ (hints ++ hs).takeWhile p := by
  induction hs generalizing hints with
  | nil => rw [List.foldl_nil, List.append_nil]
  | cons hint hs ih => rw [List.foldl_cons, ih, mem_takeWhile_addHints]

/-! ## The same hints -/

/-- And the same ones in front of the first with a space. -/
structure SameHints (hs hs' : List Text) : Prop where
  mem : ∀ t, t ∈ hs ↔ t ∈ hs'
  words : ∀ t, t ∈ hs.takeWhile (' ' ∉ ·) ↔ t ∈ hs'.takeWhile (' ' ∉ ·)

theorem SameHints.of_words (hwords : ∀ t ∈ hs, ' ' ∉ t) (hmem : ∀ t, t ∈ hs ↔ t ∈ hs') :
    SameHints hs hs' where
  mem := hmem
  words := fun t => by
    have hall : hs.takeWhile (' ' ∉ ·) = hs :=
      List.takeWhile_eq_self_iff.mpr fun u hu => decide_eq_true (hwords u hu)
    have hall' : hs'.takeWhile (' ' ∉ ·) = hs' :=
      List.takeWhile_eq_self_iff.mpr fun u hu => decide_eq_true (hwords u ((hmem u).mpr hu))
    rw [hall, hall']
    exact hmem t

theorem SameHints.added (h : SameHints hs hs') :
    SameHints (hs.foldl addHints []) (hs'.foldl addHints []) where
  mem := fun t => by
    rw [mem_foldl_addHints, mem_foldl_addHints, h.mem]
  words := fun t => by
    rw [mem_takeWhile_foldl_addHints, mem_takeWhile_foldl_addHints]
    exact h.words t

theorem SameHints.found_perm (h : SameHints hs hs') (hnodup : hs.Nodup) (hnodup' : hs'.Nodup)
    (cmd : Text) : (found cmd hs).Perm (found cmd hs') := by
  rw [found, found]
  refine List.Perm.filter _ ?_
  split
  · exact (List.perm_ext_iff_of_nodup hnodup hnodup').mpr h.mem
  · exact (List.perm_ext_iff_of_nodup (hnodup.sublist (List.takeWhile_sublist _))
      (hnodup'.sublist (List.takeWhile_sublist _))).mpr h.words

end Vector

end CmdLine

/-! ## What Tab makes of them -/

theorem longestPrefix_perm {ts ts' : List Text} (h : ts.Perm ts') :
    longestPrefix ts = longestPrefix ts' := by
  cases ts with
  | nil => rw [h.nil_eq]
  | cons t ts =>
      cases ts' with
      | nil => exact absurd h.symm.nil_eq (List.cons_ne_nil t ts).symm
      | cons t' ts' =>
          have hsame : ∀ q : Text,
              q <+: longestPrefix (t :: ts) ↔ q <+: longestPrefix (t' :: ts') := fun q => by
            rw [prefix_longestPrefix_iff, prefix_longestPrefix_iff]
            exact ⟨fun hq u hu => hq u (h.mem_iff.mpr hu), fun hq u hu => hq u (h.mem_iff.mp hu)⟩
          have hle := (hsame _).mp (List.prefix_refl _)
          have hge := (hsame _).mpr (List.prefix_refl _)
          exact hle.eq_of_length_le hge.length_le

namespace LineEditor

variable {hints hints' : List Text}

theorem complete_perm (h : ∀ cmd, (CmdLine.found cmd hints).Perm (CmdLine.found cmd hints'))
    (e : LineEditor) : e.complete hints = e.complete hints' := by
  rw [complete, complete]
  by_cases htext : e.text = []
  · rw [if_pos htext, if_pos htext]
  · rw [if_neg htext, if_neg htext]
    have hperm := h e.text
    generalize CmdLine.found e.text hints = ts at hperm
    generalize CmdLine.found e.text hints' = ts' at hperm
    cases ts with
    | nil => rw [hperm.nil_eq]
    | cons t ts =>
        cases ts with
        | nil => rw [List.singleton_perm.mp hperm]
        | cons u ts =>
            obtain ⟨t', u', ts', rfl⟩ : ∃ t' u' us, ts' = t' :: u' :: us := by
              cases ts' with
              | nil => exact absurd hperm.length_eq (by simp)
              | cons t' ts' =>
                  cases ts' with
                  | nil => exact absurd hperm.length_eq (by simp)
                  | cons u' ts' => exact ⟨t', u', ts', rfl⟩
            dsimp only
            rw [longestPrefix_perm hperm]

theorem step_perm (h : ∀ cmd, (CmdLine.found cmd hints).Perm (CmdLine.found cmd hints')) :
    step hints = step hints' := by
  funext e k
  rw [step, step, press, press, complete_perm h]

end LineEditor

namespace CmdLine

open LineEditor

/-- The same hints, in any order and however often: the same editor. -/
theorem readLines_addHints {hs hs' : List Text}
    (hhints : ∀ t ∈ hs, t.length < 65535 ∧ '\x00' ∉ t) (hsame : SameHints hs hs')
    (prompt : Text) (lastKey : Int) (keys : List Key) :
    ∃ lines s s', (new prompt (hs.foldl addHints []) lastKey).readLines keys = some (lines, s)
      ∧ (new prompt (hs'.foldl addHints []) lastKey).readLines keys = some (lines, s')
      ∧ s'.cmd = s.cmd ∧ s'.mIndex = s.mIndex ∧ s'.history = s.history := by
  have hadded : ∀ t ∈ hs.foldl addHints [], t.length < 65535 ∧ '\x00' ∉ t := fun t ht =>
    hhints t ((mem_foldl_addHints.mp ht).resolve_left List.not_mem_nil)
  have hadded' : ∀ t ∈ hs'.foldl addHints [], t.length < 65535 ∧ '\x00' ∉ t := fun t ht =>
    hadded t ((hsame.added.mem t).mpr ht)
  obtain ⟨s, hrun, h⟩ := readLines_refines hadded keys (new_refines prompt _ lastKey)
  obtain ⟨s', hrun', h'⟩ := readLines_refines hadded' keys (new_refines prompt _ lastKey)
  have hstep : LineEditor.step (hs.foldl addHints []) = LineEditor.step (hs'.foldl addHints []) :=
    step_perm (hsame.added.found_perm (foldl_addHints_nodup List.nodup_nil)
      (foldl_addHints_nodup List.nodup_nil))
  rw [hstep] at hrun h
  refine ⟨_, s, s', hrun, hrun', ?_, ?_, ?_⟩
  · rw [h.text_eq, h'.text_eq]
  · rw [h.cursor.index, h'.cursor.index]
  · rw [h.history_eq, h'.history_eq]

theorem readLines_addHints_reverse : ∃ lines s s',
    (new testPrompt (testHints.foldl addHints []) 0).readLines testKeys = some (lines, s)
      ∧ (new testPrompt ((testHints.reverse ++ testHints).foldl addHints []) 0).readLines testKeys
        = some (lines, s')
      ∧ s'.cmd = s.cmd ∧ s'.mIndex = s.mIndex ∧ s'.history = s.history :=
  readLines_addHints (by decide)
    (.of_words (by decide) fun t => by rw [List.mem_append, List.mem_reverse, or_self])
    testPrompt 0 testKeys

end CmdLine

end Yapas
