import Yapas.EditConfig
import Yapas.ShortWrites

/-!
# Editing when file operations fail

`configReplace` on the file and its `.tmp`, with operations that fail:
an `fwrite` may store a part of the line only, and `fclose` may lose what
has not been flushed.

Neither of the two is looked at. So a replacement is atomic exactly when
it stops before the `rename`, or nothing that has been written is lost
(`configReplaceFile_atomic_iff`): a disk that fills up puts a truncated
file in the place of the old one.
-/

namespace Yapas

/-- The file and its `.tmp`; `none` does not exist. -/
structure Files where
  origin : Option Text
  replace : Option Text

/-- What fails, how many bytes of its line the `i`-th `fwrite` stores at
most, and how many of those stored `fclose` leaves at most. -/
structure Failures where
  access : Bool
  openOrigin : Bool
  openReplace : Bool
  stored : Nat → Nat
  flushed : Nat
  rename : Bool

/-- A file that is written to: what is stored, and the number of calls. -/
structure OutFile where
  text : Text
  calls : Nat

def OutFile.fwrite (stored : Nat → Nat) (f : OutFile) (buf : Text) : OutFile :=
  ⟨f.text ++ buf.take (stored f.calls), f.calls + 1⟩

/-- What is done at the end of a line, where `editLine` says what there
is to be written. -/
def fwriteLine (stored : Nat → Nat) (key : Text) (ifDel : Bool) (s : Editing × OutFile) :
    Editing × OutFile :=
  let e := editLine key ifDel { s.1 with out := [] }
  (e, if 0 < e.out.length then s.2.fwrite stored e.out else s.2)

/-- One iteration of the loop. -/
def fwriteChar (stored : Nat → Nat) (key : Text) (ifDel : Bool) (s : Editing × OutFile)
    (c : Option Char) : Editing × OutFile :=
  let s := if !isEof c then ({ s.1 with lineStr := s.1.lineStr ++ c.toList }, s.2) else s
  if c = some '\n' ∨ isEof c = true then fwriteLine stored key ifDel s else s

/-- `configReplace`: the return value and the files. -/
def configReplaceFile (fail : Failures) (fs : Files) (keyValue : Text) (ifDel : Bool) :
    Int × Files :=
  match fs.origin with
  | none => (-1, fs)
  | some content =>
      if fail.access ∨ fail.openOrigin ∨ fail.openReplace then (-1, fs)
      else
        let fs := { fs with replace := some [] }
        let (rc, key, value) := getKeyValueByEqualSign keyValue
        if rc ≠ 0 then (-1, fs)
        else
          let s := (content.map some ++ [none]).foldl (fwriteChar fail.stored key ifDel)
            (⟨[], ' ' :: value, 0, []⟩, ⟨[], 0⟩)
          let text := s.2.text.take fail.flushed
          if fail.rename then (-1, { fs with replace := some text })
          else (s.1.timen, { origin := some text, replace := none })

/-! ## The writes -/

/-- What is handed to `fwrite` for the pieces, from the value on. -/
def writtenLines (key : Text) (ifDel : Bool) : Text → List Text → List Text
  | _, [] => []
  | value, p :: ps =>
      (if editedPiece key ifDel value p = [] then [] else [editedPiece key ifDel value p])
        ++ writtenLines key ifDel (valueAfter key value p) ps

theorem flatten_writtenLines (key : Text) (ifDel : Bool) : ∀ (value : Text) (ps : List Text),
    (writtenLines key ifDel value ps).flatten = newContent key ifDel value ps
  | _, [] => rfl
  | value, p :: ps => by
      rw [writtenLines, newContent, List.flatten_append, flatten_writtenLines]
      split
      · rename_i hnil
        rw [hnil]
        rfl
      · rw [List.flatten_singleton]

section Loop

variable (stored : Nat → Nat) (key : Text) (ifDel : Bool)

/-- `fwriteLine` on a line. -/
def fwritePiece (s : Editing × OutFile) (line : Text) : Editing × OutFile :=
  fwriteLine stored key ifDel ({ s.1 with lineStr := line }, s.2)

/-- The state between two lines, and the line. -/
def linePart (s : Editing × OutFile) : (Editing × OutFile) × Text :=
  (({ s.1 with lineStr := [] }, s.2), s.1.lineStr)

theorem fwriteLine_eq (s : Editing × OutFile) :
    fwriteLine stored key ifDel s
      = (⟨[], valueAfter key s.1.value s.1.lineStr,
          s.1.timen + (isKeyLine key s.1.lineStr).toNat,
          editedPiece key ifDel s.1.value s.1.lineStr⟩,
        if editedPiece key ifDel s.1.value s.1.lineStr = [] then s.2
        else s.2.fwrite stored (editedPiece key ifDel s.1.value s.1.lineStr)) := by
  rw [fwriteLine, editLine_eq, List.nil_append]
  by_cases hnil : editedPiece key ifDel s.1.value s.1.lineStr = []
  · simp [hnil]
  · have hpos := List.length_pos_iff.mpr hnil
    simp [hnil, hpos]

theorem readChar_linePart (s : Editing × OutFile) (c : Option Char) :
    readChar (fwritePiece stored key ifDel) (linePart s) c
      = linePart (fwriteChar stored key ifDel s c) := by
  have hpart : ∀ s, linePart (fwriteLine stored key ifDel s)
      = (fwriteLine stored key ifDel s, []) := fun s => by
    rw [linePart, fwriteLine_eq]
  rw [readChar, fwriteChar]
  split <;> rename_i hend
  · rw [hpart]
    cases isEof c <;> rfl
  · cases isEof c <;> rfl

theorem foldl_fwritePiece : ∀ (ps : List Text) (s : Editing × OutFile),
    (ps.foldl (fwritePiece stored key ifDel) s).1.timen = s.1.timen + ps.countP (isKeyLine key)
      ∧ (ps.foldl (fwritePiece stored key ifDel) s).2
        = (writtenLines key ifDel s.1.value ps).foldl (OutFile.fwrite stored) s.2
  | [], s => ⟨rfl, rfl⟩
  | p :: ps, s => by
      obtain ⟨htimen, hstream⟩ := foldl_fwritePiece ps (fwritePiece stored key ifDel s p)
      rw [List.foldl_cons, htimen, hstream, fwritePiece, fwriteLine_eq]
      constructor
      · rw [List.countP_cons]
        cases isKeyLine key p with
        | false => rfl
        | true => exact Nat.add_right_comm _ _ _
      · rw [writtenLines, List.foldl_append]
        show List.foldl _ (if editedPiece key ifDel s.1.value p = [] then s.2 else _) _ = _
        split <;> rfl

theorem foldl_fwriteChar (content value : Text) :
    ∃ s, (content.map some ++ [none]).foldl (fwriteChar stored key ifDel)
        (⟨[], value, 0, []⟩, ⟨[], 0⟩) = s
      ∧ s.1.timen = (pieces content).countP (isKeyLine key)
      ∧ s.2 = (writtenLines key ifDel value (pieces content)).foldl
        (OutFile.fwrite stored) ⟨[], 0⟩ := by
  refine ⟨_, rfl, ?_⟩
  obtain ⟨htimen, hstream⟩ := foldl_fwritePiece stored key ifDel (pieces content)
    (⟨[], value, 0, []⟩, ⟨[], 0⟩)
  have hloop := foldl_of_readChar (fwritePiece stored key ifDel)
    (readChar_linePart stored key ifDel) content (s := (⟨[], value, 0, []⟩, ⟨[], 0⟩)) rfl
  have htimen' := congrArg (·.1.timen) hloop
  have hstream' := congrArg (·.2) hloop
  exact ⟨htimen'.trans (htimen.trans (Nat.zero_add _)), hstream'.trans hstream⟩

end Loop

/-! ## What is stored -/

/-- The lines, each with how much of it is stored. -/
def storedLines (stored : Nat → Nat) (i : Nat) (ls : List Text) : List (Text × Nat) :=
  (ls.zipIdx i).map fun l => (l.1, stored l.2)

theorem given_storedLines (stored : Nat → Nat) : ∀ (i : Nat) (ls : List Text),
    given (storedLines stored i ls) = ls.flatten
  | _, [] => rfl
  | i, l :: ls => by
      rw [List.flatten_cons, ← given_storedLines stored (i + 1) ls]
      rfl

theorem foldl_fwrite (stored : Nat → Nat) : ∀ (ls : List Text) (f : OutFile),
    (ls.foldl (OutFile.fwrite stored) f).text = f.text ++ through (storedLines stored f.calls ls)
  | [], f => (List.append_nil _).symm
  | l :: ls, f => by
      rw [List.foldl_cons, foldl_fwrite stored ls, OutFile.fwrite, List.append_assoc]
      rfl

/-- Every line is stored, and nothing is lost at the end. -/
def LosesNothing (fail : Failures) (ls : List Text) : Prop :=
  (∀ i line, ls[i]? = some line → line.length ≤ fail.stored i)
    ∧ ls.flatten.length ≤ fail.flushed

theorem losesNothing_iff (fail : Failures) (ls : List Text) :
    (ls.foldl (OutFile.fwrite fail.stored) ⟨[], 0⟩).text.take fail.flushed = ls.flatten
      ↔ LosesNothing fail ls := by
  have hstored : (∀ i line, ls[i]? = some line → line.length ≤ fail.stored i)
      ↔ ∀ w ∈ storedLines fail.stored 0 ls, w.1.length ≤ w.2 := by
    rw [storedLines, List.forall_mem_map]
    exact ⟨fun h l hl => h l.2 l.1 (List.mem_zipIdx_iff_getElem?.mp hl),
      fun h i line hline => h (line, i) (List.mem_zipIdx_iff_getElem?.mpr hline)⟩
  have htext : (ls.foldl (OutFile.fwrite fail.stored) ⟨[], 0⟩).text
      = through (storedLines fail.stored 0 ls) := foldl_fwrite fail.stored ls ⟨[], 0⟩
  have hle := length_through_le (storedLines fail.stored 0 ls)
  rw [htext, LosesNothing, hstored, ← through_eq_iff]
  rw [given_storedLines] at hle ⊢
  constructor
  · intro h
    have hlen := congrArg List.length h
    rw [List.length_take] at hlen
    rw [List.take_of_length_le (by omega)] at h
    exact ⟨h, by omega⟩
  · rintro ⟨hall, hflushed⟩
    rw [hall, List.take_of_length_le hflushed]

/-! ## All or nothing -/

/-- Nothing is changed and `-1` is returned, or the file has the whole new
content and the number of lines is returned. -/
def Atomic (fs : Files) (keyValue : Text) (ifDel : Bool) (r : Int × Files) : Prop :=
  r.1 = -1 ∧ r.2.origin = fs.origin
    ∨ ∃ content timen text, fs.origin = some content
      ∧ configReplace content keyValue ifDel = some (timen, text)
      ∧ r.1 = timen ∧ r.2.origin = some text

/-- What is to be written for the file. -/
def linesWritten (content keyValue : Text) (ifDel : Bool) : List Text :=
  (cut '=' keyValue).elim [] fun kv =>
    writtenLines (trim kv.1) ifDel (' ' :: trim kv.2) (pieces content)

/-- Nothing has been opened, or the argument has no equal sign. -/
theorem configReplaceFile_stops {fail : Failures} {fs : Files} {keyValue : Text} (ifDel : Bool)
    (h : fs.origin = none ∨ (fail.access ∨ fail.openOrigin ∨ fail.openReplace)
      ∨ '=' ∉ keyValue) :
    ∃ replace, configReplaceFile fail fs keyValue ifDel
      = (-1, { fs with replace := replace }) := by
  obtain ⟨origin, replace⟩ := fs
  cases origin with
  | none => exact ⟨replace, rfl⟩
  | some content =>
      rw [configReplaceFile]
      by_cases hopen : fail.access ∨ fail.openOrigin ∨ fail.openReplace
      · exact ⟨replace, if_pos hopen⟩
      · replace h := h.resolve_left (Option.some_ne_none content)
        have hmem : '=' ∉ keyValue := h.resolve_left hopen
        refine ⟨some [], (if_neg hopen).trans ?_⟩
        rw [getKeyValueByEqualSign, cut_eq_none.mpr hmem]
        rfl

/-- The lines are written, and the file is put in its place. -/
theorem configReplaceFile_eq {fail : Failures} {content keyValue : Text} {replace : Option Text}
    (ifDel : Bool) (hopen : ¬(fail.access ∨ fail.openOrigin ∨ fail.openReplace))
    (hmem : '=' ∈ keyValue) :
    ∃ timen text, configReplace content keyValue ifDel
        = some (timen, (linesWritten content keyValue ifDel).flatten)
      ∧ text = ((linesWritten content keyValue ifDel).foldl (OutFile.fwrite fail.stored)
        ⟨[], 0⟩).text.take fail.flushed
      ∧ configReplaceFile fail ⟨some content, replace⟩ keyValue ifDel
        = if fail.rename then (-1, ⟨some content, some text⟩)
          else ((timen : Int), ⟨some text, none⟩) := by
  obtain ⟨before, after, hcut⟩ : ∃ before after, cut '=' keyValue = some (before, after) := by
    obtain ⟨before, after, rfl, hbefore⟩ := List.eq_append_cons_of_mem hmem
    exact ⟨before, after, cut_append after hbefore⟩
  obtain ⟨s, hloop, htimen, hstream⟩ := foldl_fwriteChar fail.stored (trim before) ifDel content
    (' ' :: trim after)
  refine ⟨(pieces content).countP (isKeyLine (trim before)), _, ?_, rfl, ?_⟩
  · rw [configReplace_eq, linesWritten, hcut, Option.map_some, Option.elim_some,
      flatten_writtenLines]
  · rw [configReplaceFile]
    refine (if_neg hopen).trans ?_
    rw [getKeyValueByEqualSign, hcut]
    show (if fail.rename then _ else _) = _
    rw [hloop, linesWritten, hcut, Option.elim_some, ← hstream, ← htimen]

/-- A replacement is all or nothing exactly when it stops before the file
is put in its place, or no byte that is written is lost. -/
theorem configReplaceFile_atomic_iff (fail : Failures) (fs : Files) (keyValue : Text)
    (ifDel : Bool) :
    Atomic fs keyValue ifDel (configReplaceFile fail fs keyValue ifDel)
      ↔ ∀ content, fs.origin = some content →
        (fail.access ∨ fail.openOrigin ∨ fail.openReplace) ∨ '=' ∉ keyValue ∨ fail.rename
          ∨ LosesNothing fail (linesWritten content keyValue ifDel) := by
  by_cases hstop : fs.origin = none ∨ (fail.access ∨ fail.openOrigin ∨ fail.openReplace)
      ∨ '=' ∉ keyValue
  · obtain ⟨replace, hrun⟩ := configReplaceFile_stops ifDel hstop
    rw [hrun]
    refine iff_of_true (Or.inl ⟨rfl, rfl⟩) fun content horigin => ?_
    rcases hstop with hnone | hopen | hmem
    · rw [hnone] at horigin
      cases horigin
    · exact Or.inl hopen
    · exact Or.inr (Or.inl hmem)
  obtain ⟨hnone, hopen, hmem⟩ : fs.origin ≠ none
      ∧ ¬(fail.access ∨ fail.openOrigin ∨ fail.openReplace) ∧ '=' ∈ keyValue := by
    rw [not_or, not_or, not_not] at hstop
    exact hstop
  obtain ⟨origin, replace⟩ := fs
  obtain ⟨content, rfl⟩ := Option.ne_none_iff_exists'.mp hnone
  obtain ⟨timen, text, hcontent, htext, hrun⟩ := configReplaceFile_eq ifDel hopen hmem
  simp only [Option.some.injEq, forall_eq']
  rw [hrun, or_iff_right hopen, or_iff_right (not_not_intro hmem), ← losesNothing_iff, ← htext]
  by_cases hrename : fail.rename = true
  · rw [if_pos hrename]
    exact iff_of_true (Or.inl ⟨rfl, rfl⟩) (Or.inl hrename)
  · rw [if_neg hrename, or_iff_right hrename]
    constructor
    · rintro (⟨hret, -⟩ | ⟨content', timen', text', horigin, hcontent', -, hnew⟩)
      · exact absurd hret (by omega)
      · obtain rfl := Option.some.inj horigin
        rw [hcontent] at hcontent'
        rw [(Prod.mk.inj (Option.some.inj hcontent')).2]
        exact Option.some.inj hnew
    · intro h
      exact Or.inr ⟨content, timen, _, rfl, hcontent, rfl, congrArg some h⟩

/-- The disk has room for two bytes of the line only. -/
theorem not_atomic_diskFull :
    ¬Atomic ⟨some "a=1\n".toList, none⟩ "a=2".toList false
      (configReplaceFile ⟨false, false, false, fun _ => 2, 100, false⟩
        ⟨some "a=1\n".toList, none⟩ "a=2".toList false) := by
  rintro (⟨hret, -⟩ | ⟨content, timen, text, horigin, hcontent, -, hnew⟩)
  · exact absurd hret (by decide)
  · obtain rfl := Option.some.inj horigin
    obtain ⟨-, rfl⟩ := Prod.mk.inj (Option.some.inj hcontent)
    exact absurd hnew (by decide)

end Yapas
