import Mathlib.Data.List.DropRight
import Yapas.Text

/-!
# Editing a configuration file

`configReplace`, on the content of the file: it is read byte by byte,
and a line is worked on when its newline or the end of the file comes.
A byte is the character of its number. Opening, closing and renaming the
files have no part in the content and are left out.

The loop keeps what `fgetc` returns in a `char`, where the byte `0xFF`
is `EOF`. So the loop does not see lines but `pieces`, cut at these
bytes too, and what it does with them is said by `newContent`: a function
of the pieces and of the value, which is gone once the value of a piece
without an equal sign has been asked for.
-/

namespace Yapas

/-- The byte that equals `EOF` as a `char`. -/
def eofByte : Char := '\xff'

def isBlank (c : Char) : Bool := c == ' ' || c == '\t' || c == '\n' || c == '\r'

/-- `Trim`. -/
def trim (s : Text) : Text := (s.dropWhile isBlank).rdropWhile isBlank

theorem mem_of_mem_trim {c : Char} {s : Text} (h : c ∈ trim s) : c ∈ s :=
  (List.dropWhile_suffix isBlank).subset ((List.rdropWhile_prefix isBlank _).subset h)

theorem mem_trim {c : Char} {s : Text} (h : c ∈ s) (hc : isBlank c = false) : c ∈ trim s := by
  have hleft : c ∈ s.dropWhile isBlank := by
    rw [← List.takeWhile_append_dropWhile (p := isBlank) (l := s)] at h
    rcases List.mem_append.mp h with h | h
    · rw [List.mem_takeWhile_imp h] at hc
      cases hc
    · exact h
  rw [← List.rdropWhile_append_rtakeWhile (p := isBlank) (l := s.dropWhile isBlank)] at hleft
  rcases List.mem_append.mp hleft with h | h
  · exact h
  · rw [List.mem_rtakeWhile_imp h] at hc
    cases hc

/-- The return value, and the key and the value. -/
def getKeyValueByEqualSign (str : Text) : Int × Text × Text :=
  match cut '=' str with
  | none => (-1, [], [])
  | some (key, value) => (0, trim key, trim value)

/-- The return value, and what becomes of the two references. -/
def replaceValueAfterEqualSign (str value : Text) : Int × Text × Text :=
  match cut '=' str with
  | none => (-1, str, [])
  | some (key, _) => (0, key ++ '=' :: value, value)

/-- The variables of the loop, and what has been written. -/
structure Editing where
  lineStr : Text
  value : Text
  timen : Nat
  out : Text

/-- What is done at the end of a line. -/
def editLine (key : Text) (ifDel : Bool) (s : Editing) : Editing :=
  let (_, keyInfile, _) := getKeyValueByEqualSign s.lineStr
  let s :=
    if keyInfile = key then
      let (rc, lineStr, value) := replaceValueAfterEqualSign s.lineStr s.value
      let s :=
        if rc = 0 then
          { s with lineStr := lineStr ++ ['\n'], value := value, timen := s.timen + 1 }
        else { s with lineStr := lineStr, value := value }
      if ifDel then { s with lineStr := [] } else s
    else s
  { s with lineStr := [], out := s.out ++ s.lineStr }

/-- `EOF == c`, for what `fgetc` returned. -/
def isEof : Option Char → Bool
  | none => true
  | some c => c == eofByte

/-- One iteration of the loop. -/
def editChar (key : Text) (ifDel : Bool) (s : Editing) (c : Option Char) : Editing :=
  let s := if !isEof c then { s with lineStr := s.lineStr ++ c.toList } else s
  if c = some '\n' ∨ isEof c = true then editLine key ifDel s else s

/-- `configReplace`: the return value and the new content, `none` for
`-1`. -/
def configReplace (content keyValue : Text) (ifDel : Bool) : Option (Nat × Text) :=
  let (rc, key, value) := getKeyValueByEqualSign keyValue
  if rc ≠ 0 then none
  else
    let s := (content.map some ++ [none]).foldl (editChar key ifDel) ⟨[], ' ' :: value, 0, []⟩
    some (s.timen, s.out)

/-! ## One piece -/

/-- The line has an equal sign, and the key before it. -/
def isKeyLine (key line : Text) : Bool := (cut '=' line).any fun kv => trim kv.1 == key

/-- What is written for a piece. -/
def editedPiece (key : Text) (ifDel : Bool) (value p : Text) : Text :=
  match cut '=' p with
  | none => if key = [] ∧ ifDel = true then [] else p
  | some (before, _) =>
      if trim before = key then
        if ifDel then [] else before ++ '=' :: value ++ ['\n']
      else p

/-- The value as a piece leaves it. -/
def valueAfter (key value p : Text) : Text := if key = [] ∧ '=' ∉ p then [] else value

theorem cut_of_accepts {keyValue key value : Text}
    (h : getKeyValueByEqualSign keyValue = (0, key, value)) :
    ∃ before after, cut '=' keyValue = some (before, after) ∧ trim before = key
      ∧ trim after = value := by
  unfold getKeyValueByEqualSign at h
  cases hcut : cut '=' keyValue with
  | none =>
      rw [hcut] at h
      exact absurd (Prod.mk.inj h).1 (by decide)
  | some kv =>
      rw [hcut] at h
      obtain ⟨hkey, hvalue⟩ := Prod.mk.inj (Prod.mk.inj h).2
      exact ⟨kv.1, kv.2, rfl, hkey, hvalue⟩

/-- The value stays, or the key is empty and it is gone. -/
theorem valueAfter_cases (key value p : Text) :
    valueAfter key value p = value ∨ key = [] ∧ valueAfter key value p = [] := by
  unfold valueAfter
  split
  · exact Or.inr ⟨(‹_ ∧ _›).1, rfl⟩
  · exact Or.inl rfl

theorem valueAfter_nil (key p : Text) : valueAfter key [] p = [] := ite_self _

theorem valueAfter_of_mem {p : Text} (h : '=' ∈ p) (key value : Text) :
    valueAfter key value p = value :=
  if_neg fun hgone => hgone.2 h

theorem editLine_eq (key : Text) (ifDel : Bool) (s : Editing) :
    editLine key ifDel s = ⟨[], valueAfter key s.value s.lineStr,
      s.timen + (isKeyLine key s.lineStr).toNat,
      s.out ++ editedPiece key ifDel s.value s.lineStr⟩ := by
  unfold editLine getKeyValueByEqualSign replaceValueAfterEqualSign editedPiece isKeyLine valueAfter
  cases hcut : cut '=' s.lineStr with
  | none =>
      have hmem := cut_eq_none.mp hcut
      by_cases hkey : key = []
      · cases ifDel <;> simp [hkey, hmem]
      · simp [hkey, Ne.symm hkey]
  | some kv =>
      obtain ⟨before, after⟩ := kv
      have hmem : '=' ∈ s.lineStr := by
        rw [(cut_eq_some.mp hcut).1]
        simp
      by_cases hkey : trim before = key
      · cases ifDel <;> simp [hkey, hmem]
      · simp [hkey, hmem]

/-! ## The pieces -/

/-- The text up to and with each newline, and what follows the last. -/
def physicalLines : Text → List Text
  | [] => [[]]
  | c :: s =>
      if c = '\n' then [c] :: physicalLines s else (physicalLines s).modifyHead (c :: ·)

/-- What the loop takes for lines. -/
def pieces (s : Text) : List Text := (physicalLines s).flatMap (·.splitOn eofByte)

theorem physicalLines_ne_nil : ∀ s : Text, physicalLines s ≠ []
  | [] => List.cons_ne_nil _ _
  | c :: s => by
      rw [physicalLines]
      split
      · exact List.cons_ne_nil _ _
      · rw [Ne, List.modifyHead_eq_nil_iff]
        exact physicalLines_ne_nil s

theorem pieces_nil : pieces [] = [[]] := rfl

theorem pieces_newline (s : Text) : pieces ('\n' :: s) = ['\n'] :: pieces s := by
  rw [pieces, physicalLines, if_pos rfl, List.flatMap_cons]
  rfl

theorem pieces_eofByte (s : Text) : pieces (eofByte :: s) = [] :: pieces s := by
  obtain ⟨l, ls, hl⟩ := List.exists_cons_of_ne_nil (physicalLines_ne_nil s)
  rw [pieces, physicalLines, if_neg (by decide), pieces, hl, List.modifyHead_cons,
    List.flatMap_cons, List.flatMap_cons, List.splitOn_cons_eq_if_modifyHead,
    if_pos (beq_self_eq_true _), List.cons_append]

theorem pieces_other {c : Char} (hnl : c ≠ '\n') (heof : c ≠ eofByte) (s : Text) :
    pieces (c :: s) = (pieces s).modifyHead (c :: ·) := by
  obtain ⟨l, ls, hl⟩ := List.exists_cons_of_ne_nil (physicalLines_ne_nil s)
  obtain ⟨p, ps, hp⟩ := List.exists_cons_of_ne_nil (List.splitOn_ne_nil eofByte l)
  rw [pieces, physicalLines, if_neg hnl, pieces, hl, List.modifyHead_cons,
    List.flatMap_cons, List.flatMap_cons, List.splitOn_cons_eq_if_modifyHead,
    if_neg (by simpa using heof), hp]
  rfl

/-- What is written for the pieces, from the value on. -/
def newContent (key : Text) (ifDel : Bool) : Text → List Text → Text
  | _, [] => []
  | value, p :: ps =>
      editedPiece key ifDel value p ++ newContent key ifDel (valueAfter key value p) ps

theorem modifyHead_nil_append (ps : List Text) : ps.modifyHead ([] ++ ·) = ps := by
  cases ps <;> rfl

section Loop

variable {σ : Type} (work : σ → Text → σ)

/-- A loop over the bytes that works on a line when it is complete. -/
def readChar (s : σ × Text) (c : Option Char) : σ × Text :=
  let lineStr := if !isEof c then s.2 ++ c.toList else s.2
  if c = some '\n' ∨ isEof c = true then (work s.1 lineStr, []) else (s.1, lineStr)

/-- The loop works on the pieces, one after the other; the first is what
has been read of it before. -/
theorem foldl_readChar : ∀ (content : Text) (s : σ) (lineStr : Text),
    (content.map some ++ [none]).foldl (readChar work) (s, lineStr)
      = (((pieces content).modifyHead (lineStr ++ ·)).foldl work s, [])
  | [], s, lineStr => by
      simp [pieces_nil, readChar, isEof]
  | c :: content, s, lineStr => by
      rw [List.map_cons, List.cons_append, List.foldl_cons]
      by_cases heof : c = eofByte
      · have hstep : readChar work (s, lineStr) (some c) = (work s lineStr, []) := by
          simp [readChar, isEof, heof]
        rw [hstep, foldl_readChar content, modifyHead_nil_append, heof, pieces_eofByte,
          List.modifyHead_cons, List.append_nil, List.foldl_cons]
      have heof' : isEof (some c) = false := by simpa [isEof] using heof
      by_cases hnl : c = '\n'
      · have hstep : readChar work (s, lineStr) (some c) = (work s (lineStr ++ ['\n']), []) := by
          subst hnl
          simp [readChar, heof']
        rw [hstep, foldl_readChar content, modifyHead_nil_append, hnl, pieces_newline,
          List.modifyHead_cons, List.foldl_cons]
      · have hstep : readChar work (s, lineStr) (some c) = (s, lineStr ++ [c]) := by
          simp [readChar, heof', hnl]
        rw [hstep, foldl_readChar content, pieces_other hnl heof, List.modifyHead_modifyHead]
        simp [Function.comp_def]

/-- What is such a loop once the line is taken out of its state. -/
theorem foldl_of_readChar {τ : Type} {step : τ → Option Char → τ} {apart : τ → σ × Text}
    (h : ∀ s c, readChar work (apart s) c = apart (step s c)) (content : Text) {s : τ}
    (hs : (apart s).2 = []) :
    (apart ((content.map some ++ [none]).foldl step s)).1
      = (pieces content).foldl work (apart s).1 := by
  have hpair : apart s = ((apart s).1, []) := by rw [← hs]
  have hloop := foldl_readChar work content (apart s).1 []
  rw [← hpair, modifyHead_nil_append, List.foldl_hom apart h] at hloop
  rw [hloop]

end Loop

/-- `editLine` on a line. -/
def editPiece (key : Text) (ifDel : Bool) (s : Editing) (line : Text) : Editing :=
  editLine key ifDel { s with lineStr := line }

/-- The state between two lines, and the line. -/
def apart (s : Editing) : Editing × Text := ({ s with lineStr := [] }, s.lineStr)

theorem readChar_apart (key : Text) (ifDel : Bool) (s : Editing) (c : Option Char) :
    readChar (editPiece key ifDel) (apart s) c = apart (editChar key ifDel s c) := by
  have happart : ∀ s, apart (editLine key ifDel s) = (editLine key ifDel s, []) := fun s => by
    rw [apart, editLine_eq]
  rw [readChar, editChar]
  split <;> rename_i hend
  · rw [happart]
    cases isEof c <;> rfl
  · cases isEof c <;> rfl

/-- What the loop does with the pieces from its state `s` on. -/
theorem foldl_editPiece (key : Text) (ifDel : Bool) : ∀ (ps : List Text) (s : Editing),
    (ps.foldl (editPiece key ifDel) s).timen = s.timen + ps.countP (isKeyLine key)
      ∧ (ps.foldl (editPiece key ifDel) s).out = s.out ++ newContent key ifDel s.value ps
  | [], s => ⟨rfl, (List.append_nil _).symm⟩
  | p :: ps, s => by
      obtain ⟨htimen, hout⟩ := foldl_editPiece key ifDel ps (editPiece key ifDel s p)
      rw [List.foldl_cons, htimen, hout, editPiece, editLine_eq]
      constructor
      · rw [List.countP_cons]
        cases isKeyLine key p with
        | false => rfl
        | true => exact Nat.add_right_comm _ _ _
      · rw [newContent, List.append_assoc]

theorem foldl_editChar (key : Text) (ifDel : Bool) (content value : Text) :
    ∃ s, (content.map some ++ [none]).foldl (editChar key ifDel) ⟨[], value, 0, []⟩ = s
      ∧ s.timen = (pieces content).countP (isKeyLine key)
      ∧ s.out = newContent key ifDel value (pieces content) := by
  refine ⟨_, rfl, ?_⟩
  obtain ⟨htimen, hout⟩ := foldl_editPiece key ifDel (pieces content) ⟨[], value, 0, []⟩
  have hloop := foldl_of_readChar (editPiece key ifDel) (readChar_apart key ifDel) content
    (s := ⟨[], value, 0, []⟩) rfl
  have htimen' := congrArg Editing.timen hloop
  have hout' := congrArg Editing.out hloop
  exact ⟨htimen'.trans (htimen.trans (Nat.zero_add _)), hout'.trans hout⟩

theorem configReplace_eq (content keyValue : Text) (ifDel : Bool) :
    configReplace content keyValue ifDel = (cut '=' keyValue).map fun kv =>
      ((pieces content).countP (isKeyLine (trim kv.1)),
        newContent (trim kv.1) ifDel (' ' :: trim kv.2) (pieces content)) := by
  unfold configReplace getKeyValueByEqualSign
  cases hcut : cut '=' keyValue with
  | none => rfl
  | some kv =>
      obtain ⟨key, value⟩ := kv
      obtain ⟨s, hloop, htimen, hout⟩ :=
        foldl_editChar (trim key) ifDel content (' ' :: trim value)
      show some (_, _) = some (_, _)
      rw [hloop, htimen, hout]

/-! ## Lines -/

/-- The lines of a file; the last one may lack its newline. -/
def lines (s : Text) : List Text := (physicalLines s).filter (· ≠ [])

theorem physicalLines_last : ∀ {body : Text}, '\n' ∉ body → physicalLines body = [body]
  | [], _ => rfl
  | c :: body, h => by
      rw [List.mem_cons, not_or] at h
      rw [physicalLines, if_neg (Ne.symm h.1), physicalLines_last h.2, List.modifyHead_cons]

theorem physicalLines_line : ∀ {body : Text} (rest : Text), '\n' ∉ body →
    physicalLines (body ++ '\n' :: rest) = (body ++ ['\n']) :: physicalLines rest
  | [], rest, _ => by rw [List.nil_append, physicalLines, if_pos rfl, List.nil_append]
  | c :: body, rest, h => by
      rw [List.mem_cons, not_or] at h
      rw [List.cons_append, physicalLines, if_neg (Ne.symm h.1), physicalLines_line rest h.2,
        List.modifyHead_cons, List.cons_append]

/-- Line by line through a file. -/
theorem linesInduction {motive : Text → Prop} (last : ∀ body, '\n' ∉ body → motive body)
    (line : ∀ body rest, '\n' ∉ body → motive rest → motive (body ++ '\n' :: rest))
    (content : Text) : motive content := by
  induction hlen : content.length using Nat.strongRecOn generalizing content with
  | ind n ih =>
      cases hcut : cut '\n' content with
      | none => exact last content (cut_eq_none.mp hcut)
      | some kv =>
          obtain ⟨body, rest⟩ := kv
          obtain ⟨rfl, hbody⟩ := cut_eq_some.mp hcut
          refine line body rest hbody (ih rest.length ?_ rest rfl)
          rw [← hlen, List.length_append, List.length_cons]
          omega

theorem pieces_last {body : Text} (h : '\n' ∉ body) : pieces body = body.splitOn eofByte := by
  rw [pieces, physicalLines_last h, List.flatMap_singleton]

theorem pieces_line {body : Text} (rest : Text) (h : '\n' ∉ body) :
    pieces (body ++ '\n' :: rest) = (body ++ ['\n']).splitOn eofByte ++ pieces rest := by
  rw [pieces, physicalLines_line rest h, List.flatMap_cons, pieces]

theorem mem_lines {content line : Text} :
    line ∈ lines content ↔ line ∈ physicalLines content ∧ line ≠ [] := by
  rw [lines, List.mem_filter, decide_eq_true_eq]

theorem not_mem_of_mem_splitOn {c : Char} : ∀ {s p : Text}, p ∈ s.splitOn c → c ∉ p
  | [], p, h => by
      rw [List.splitOn_nil, List.mem_singleton] at h
      rw [h]
      exact List.not_mem_nil
  | x :: s, p, h => by
      rw [List.splitOn_cons_eq_if_modifyHead] at h
      split at h
      · rcases List.mem_cons.mp h with rfl | h
        · exact List.not_mem_nil
        · exact not_mem_of_mem_splitOn h
      · rename_i hx
        obtain ⟨q, qs, hq⟩ := List.exists_cons_of_ne_nil (List.splitOn_ne_nil c s)
        rw [hq, List.modifyHead_cons] at h
        rcases List.mem_cons.mp h with rfl | h
        · rw [List.mem_cons, not_or]
          refine ⟨fun heq => hx (by simp [heq]), not_mem_of_mem_splitOn (s := s) ?_⟩
          rw [hq]
          exact List.mem_cons_self
        · refine not_mem_of_mem_splitOn (s := s) ?_
          rw [hq]
          exact List.mem_cons_of_mem _ h

end Yapas
