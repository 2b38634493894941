import Yapas.EditFrame

/-!
# What a replacement leaves to be read

The new file is cut into lines again when it is read, and its lines are
put together from the loop's pieces: a piece that is written without a
newline runs into the next one (`assembled`). So the file reads back,
and a second run leaves it alone, when the lines of the new file that
have the key are as many as the pieces that had it and are each as the
loop would write them. `ReplacesStably` says this of the pieces of the
old file.

For a key that is not empty this is seen line by line. For the empty
key the value matters too: it is gone behind a piece without an equal
sign, and behind such a line on the second run.
-/

namespace Yapas

/-! ## Trimming -/

theorem dropWhile_append_of_neg {p : Char → Bool} {s t : Text} (h : ¬ ∀ c ∈ s, p c = true) :
    (s ++ t).dropWhile p = s.dropWhile p ++ t := by
  have hne : (s.dropWhile p).isEmpty = false := by
    rw [Bool.eq_false_iff]
    intro hempty
    refine h fun c hc => ?_
    rw [← List.takeWhile_append_dropWhile (p := p) (l := s), List.isEmpty_iff.mp hempty,
      List.append_nil] at hc
    exact List.mem_takeWhile_imp hc
  rw [List.dropWhile_append, hne, if_neg Bool.false_ne_true]

theorem trim_append_left {s t : Text} (h : ∀ c ∈ s, isBlank c = true) :
    trim (s ++ t) = trim t := by
  rw [trim, List.dropWhile_append_of_pos h, trim]

theorem rdropWhile_append_blank {s t : Text} (h : ∀ c ∈ t, isBlank c = true) :
    (s ++ t).rdropWhile isBlank = s.rdropWhile isBlank := by
  rw [List.rdropWhile, List.rdropWhile, List.reverse_append,
    List.dropWhile_append_of_pos fun c hc => h c (List.mem_reverse.mp hc)]

theorem trim_append_right {s t : Text} (h : ∀ c ∈ t, isBlank c = true) :
    trim (s ++ t) = trim s := by
  by_cases hs : ∀ c ∈ s, isBlank c = true
  · rw [trim_append_left hs, trim_eq_nil.mpr h, trim_eq_nil.mpr hs]
  · rw [trim, dropWhile_append_of_neg hs, rdropWhile_append_blank h, trim]

theorem trim_trim (s : Text) : trim (trim s) = trim s := by
  have hleft : (trim s).dropWhile isBlank = trim s := by
    cases hcases : s.dropWhile isBlank with
    | nil => rw [trim, hcases]; rfl
    | cons c t =>
        have hc : isBlank c = false := by
          have hhead := List.head?_dropWhile_not isBlank s
          rw [hcases] at hhead
          simpa using hhead
        obtain ⟨u, hu⟩ := List.rdropWhile_prefix isBlank (c :: t)
        rw [trim, hcases]
        cases hr : (c :: t).rdropWhile isBlank with
        | nil => rfl
        | cons d r =>
            rw [hr] at hu
            obtain rfl := (List.cons.inj hu).1
            rw [List.dropWhile_cons_of_neg (by simp [hc])]
  rw [trim, hleft]
  exact List.rdropWhile_idempotent isBlank _

theorem countP_trim (s : Text) :
    (trim s).countP (fun c => !isBlank c) = s.countP (fun c => !isBlank c) := by
  have hleft : (s.dropWhile isBlank).countP (fun c => !isBlank c)
      = s.countP (fun c => !isBlank c) := by
    have hzero : (s.takeWhile isBlank).countP (fun c => !isBlank c) = 0 :=
      List.countP_eq_zero.mpr fun c hc => by simp [List.mem_takeWhile_imp hc]
    conv => rhs; rw [← List.takeWhile_append_dropWhile (p := isBlank) (l := s)]
    rw [List.countP_append, hzero, Nat.zero_add]
  have hright : (s.dropWhile isBlank).countP (fun c => !isBlank c)
      = (trim s).countP (fun c => !isBlank c) := by
    have hzero : ((s.dropWhile isBlank).rtakeWhile isBlank).countP (fun c => !isBlank c) = 0 :=
      List.countP_eq_zero.mpr fun c hc => by simp [List.mem_rtakeWhile_imp hc]
    conv => lhs; rw [← List.rdropWhile_append_rtakeWhile (p := isBlank) (l := s.dropWhile isBlank)]
    rw [List.countP_append, hzero, Nat.add_zero, trim]
  rw [← hleft, hright]

/-- What runs into a text changes nothing only when it is blank. -/
theorem trim_append_eq_iff {s t : Text} :
    trim (s ++ t) = trim t ↔ ∀ c ∈ s, isBlank c = true := by
  constructor
  · intro h
    have hcount := congrArg (List.countP fun c => !isBlank c) h
    rw [countP_trim, countP_trim, List.countP_append] at hcount
    have hzero : s.countP (fun c => !isBlank c) = 0 := by omega
    intro c hc
    simpa using List.countP_eq_zero.mp hzero c hc
  · exact trim_append_left

theorem equalSign_not_mem_blank {s : Text} (h : ∀ c ∈ s, isBlank c = true) : '=' ∉ s :=
  fun hmem => Bool.false_ne_true (h '=' hmem)

section Lines

variable {key v value : Text}

/-! ## The lines of a text -/

/-- Without a `0xFF` the loop sees the lines. -/
theorem pieces_eq_physicalLines {s : Text} (h : eofByte ∉ s) : pieces s = physicalLines s := by
  induction s using linesInduction with
  | last body hbody =>
      rw [pieces_last hbody, physicalLines_last hbody, List.splitOn_eq_singleton h]
  | line body rest hbody ih =>
      rw [List.mem_append, List.mem_cons, not_or, not_or] at h
      have hline : eofByte ∉ body ++ ['\n'] := by
        rw [List.mem_append, List.mem_singleton, not_or]
        exact ⟨h.1, h.2.1⟩
      rw [pieces_line rest hbody, physicalLines_line rest hbody, List.splitOn_eq_singleton hline,
        ih h.2.2, List.singleton_append]

theorem eofByte_not_mem_piece {content p : Text} (h : p ∈ pieces content) : eofByte ∉ p := by
  obtain ⟨l, -, hp⟩ := List.mem_flatMap.mp h
  exact not_mem_of_mem_splitOn hp

/-- The lines that have the key as the loop leaves them, the value being
the one at their place. -/
def Steady (key : Text) : Text → List Text → Prop
  | _, [] => True
  | value, l :: ls => (isKeyLine key l = true → editedPiece key false value l = l)
      ∧ Steady key (valueAfter key value l) ls

theorem not_mem_valueAfter {c : Char} (p : Text) (h : c ∉ value) :
    c ∉ valueAfter key value p := by
  rcases valueAfter_cases key value p with hstay | ⟨-, hgone⟩
  · rwa [hstay]
  · rw [hgone]
    exact List.not_mem_nil

/-- The first newline ends the first line. -/
theorem newline_append_inj {s t s' t' : Text} (hs : '\n' ∉ s) (hs' : '\n' ∉ s')
    (h : s ++ '\n' :: t = s' ++ '\n' :: t') : s = s' ∧ t = t' := by
  have hcut := cut_append t hs
  rw [h, cut_append t' hs'] at hcut
  exact Prod.mk.inj (Option.some.inj hcut.symm)

/-- A run over lines leaves the text alone when it leaves each line
alone. -/
theorem newContent_eq_iff_steady (s : Text) : ∀ value, '\n' ∉ value →
    (newContent key false value (physicalLines s) = s ↔ Steady key value (physicalLines s)) := by
  induction s using linesInduction with
  | last body hbody =>
      intro value hvalue
      rw [physicalLines_last hbody, newContent, newContent, List.append_nil, Steady, Steady,
        and_true]
      constructor
      · exact fun h _ => h
      · intro h
        cases hkey : isKeyLine key body with
        | true => exact h hkey
        | false => exact editedPiece_other hkey
  | line body rest hbody ih =>
      intro value hvalue
      have hvalue' : '\n' ∉ valueAfter key value (body ++ ['\n']) :=
        not_mem_valueAfter _ hvalue
      have hrest := ih _ hvalue'
      rw [physicalLines_line rest hbody, newContent, Steady, ← hrest]
      cases hkey : isKeyLine key (body ++ ['\n']) with
      | false =>
          rw [editedPiece_other hkey, List.append_assoc, List.singleton_append]
          simp
      | true =>
          obtain ⟨before, after, heq, hmem, htrim⟩ := isKeyLine_iff.mp hkey
          have hbefore : '\n' ∉ before :=
            newline_not_mem_before (a := after) (by rwa [← heq, List.dropLast_concat])
          have hline : '\n' ∉ before ++ '=' :: value := by
            rw [List.mem_append, List.mem_cons, not_or, not_or]
            exact ⟨hbefore, by decide, hvalue⟩
          have hsplit : body ++ '\n' :: rest = body ++ ['\n'] ++ rest := by simp
          rw [heq, editedPiece_keyLine after hmem htrim, ← heq, hsplit]
          constructor
          · intro h
            have hnl : before ++ '=' :: value ++ '\n' :: newContent key false
                (valueAfter key value (body ++ ['\n'])) (physicalLines rest)
                = body ++ '\n' :: rest := by
              rw [hsplit, ← h]
              simp
            obtain ⟨rfl, hrest⟩ := newline_append_inj hline hbody hnl
            exact ⟨fun _ => rfl, hrest⟩
          · rintro ⟨hkeep, hrest⟩
            rw [hkeep rfl, hrest]

/-! ## The lines of the new text -/

/-- The lines of what is written for pieces, `cur` being written before
on the same line. -/
def outLines (key : Text) : Text → Text → List Text → List Text
  | _, cur, [] => [cur]
  | value, cur, p :: ps =>
      if endsLine key p then
        (cur ++ editedPiece key false value p) :: outLines key (valueAfter key value p) [] ps
      else outLines key (valueAfter key value p) (cur ++ p) ps

theorem physicalLines_newContent : ∀ {ps : List Text} {cur value : Text},
    (∀ p ∈ ps, '\n' ∉ p.dropLast) → '\n' ∉ cur → '\n' ∉ value →
    physicalLines (cur ++ newContent key false value ps) = outLines key value cur ps
  | [], cur, value, _, hcur, _ => by
      rw [newContent, List.append_nil, outLines, physicalLines_last hcur]
  | p :: ps, cur, value, hps, hcur, hvalue => by
      have hp := hps p List.mem_cons_self
      have hvalue' : '\n' ∉ valueAfter key value p := not_mem_valueAfter p hvalue
      have hps' : ∀ q ∈ ps, '\n' ∉ q.dropLast := fun q hq => hps q (List.mem_cons_of_mem p hq)
      have ih : physicalLines ([] ++ newContent key false (valueAfter key value p) ps)
          = outLines key (valueAfter key value p) [] ps :=
        physicalLines_newContent hps' List.not_mem_nil hvalue'
      rw [List.nil_append] at ih
      rw [newContent, outLines]
      cases hkey : isKeyLine key p with
      | true =>
          have hends := endsLine_of_keyLine hkey
          obtain ⟨before, after, rfl, hmem, htrim⟩ := isKeyLine_iff.mp hkey
          have hline : '\n' ∉ cur ++ (before ++ '=' :: value) := by
            simp only [List.mem_append, List.mem_cons, not_or]
            exact ⟨hcur, newline_not_mem_before hp, by decide, hvalue⟩
          rw [if_pos hends, editedPiece_keyLine after hmem htrim, ← ih, ← List.append_assoc cur,
            ← List.append_assoc cur, List.append_assoc _ ['\n'], List.singleton_append,
            physicalLines_line _ hline]
      | false =>
          rw [editedPiece_other hkey, endsLine_other hkey]
          rcases newline_at_end hp with hnl | ⟨body, rfl, hbody⟩
          · have hcur' : '\n' ∉ cur ++ p := by
              rw [List.mem_append, not_or]
              exact ⟨hcur, hnl⟩
            rw [if_neg (by simpa using hnl), ← List.append_assoc]
            exact physicalLines_newContent hps' hcur' hvalue'
          · have hline : '\n' ∉ cur ++ body := by
              rw [List.mem_append, not_or]
              exact ⟨hcur, hbody⟩
            rw [if_pos (by simp), ← ih, ← List.append_assoc cur, ← List.append_assoc cur,
              List.append_assoc _ ['\n'], List.singleton_append, physicalLines_line _ hline]

/-- A line as it is put together: what has run into its last piece, and
this piece. -/
def assembled (key : Text) : Text → List Text → List (Text × Text)
  | cur, [] => [(cur, [])]
  | cur, p :: ps =>
      if endsLine key p then (cur, p) :: assembled key [] ps else assembled key (cur ++ p) ps

theorem assembled_ne_nil : ∀ (cur : Text) (ps : List Text), assembled key cur ps ≠ []
  | _, [] => List.cons_ne_nil _ _
  | cur, p :: ps => by
      rw [assembled]
      split
      · exact List.cons_ne_nil _ _
      · exact assembled_ne_nil _ ps

/-- Every piece that has the key ends a line. -/
theorem countP_assembled : ∀ (cur : Text) (ps : List Text),
    (assembled key cur ps).countP (fun l => isKeyLine key l.2) = ps.countP (isKeyLine key)
  | cur, [] => rfl
  | cur, p :: ps => by
      rw [assembled, countP_cons_toNat]
      split
      · rw [countP_cons_toNat, countP_assembled [] ps]
      · rename_i hends
        have hkey := isKeyLine_of_not_endsLine hends
        rw [countP_assembled _ ps, hkey, Bool.toNat_false, Nat.add_zero]

/-- A rewritten piece keeps its key when what has run into it is blank;
otherwise that may be a line of the key itself. -/
theorem isKeyLine_runIn {cur before w : Text} (hmem : '=' ∉ before) (htrim : trim before = key) :
    isKeyLine key (cur ++ (before ++ '=' :: w ++ ['\n']))
      = (cur.all isBlank || isKeyLine key cur) := by
  by_cases hcur : '=' ∈ cur
  · have hnot : cur.all isBlank = false := by
      rw [Bool.eq_false_iff]
      exact fun hall => equalSign_not_mem_blank (List.all_eq_true.mp hall) hcur
    rw [hnot, Bool.false_or, isKeyLine_append_of_mem hcur]
  · have hline : '=' ∉ cur ++ before := by
      rw [List.mem_append, not_or]
      exact ⟨hcur, hmem⟩
    have hnot : isKeyLine key cur = false := by
      rw [isKeyLine, cut_eq_none.mpr hcur]
      rfl
    have hassoc : cur ++ (before ++ '=' :: w ++ ['\n'])
        = cur ++ before ++ '=' :: (w ++ ['\n']) := by simp
    rw [hnot, Bool.or_false, hassoc, isKeyLine, cut_append _ hline, ← htrim]
    cases hall : cur.all isBlank with
    | true =>
        have htrim' := trim_append_left (t := before) (List.all_eq_true.mp hall)
        simp [htrim']
    | false =>
        have hne : trim (cur ++ before) ≠ trim before := by
          intro heq
          rw [List.all_eq_true.mpr (trim_append_eq_iff.mp heq)] at hall
          cases hall
        simp [hne]

/-- A piece that has the key and comes to stand behind other text. -/
def isLost (key : Text) (l : Text × Text) : Bool := isKeyLine key l.2 && !l.1.all isBlank

/-- A line that gets the key from what has run into it. -/
def isFound (key : Text) (l : Text × Text) : Bool :=
  !isKeyLine key l.2 && isKeyLine key (l.1 ++ l.2)

/-- Of the lines of a text, `n` have the key, each is read as the value,
and the loop leaves them alone, `value` being its variable. -/
def ReadsLines (key v value : Text) (ls : List Text) (n : Nat) : Prop :=
  ls.countP (isKeyLine key) = n
    ∧ (∀ l ∈ ls, isKeyLine key l = true → getKeyValueByEqualSign l = (0, key, v))
    ∧ Steady key value ls

theorem getKeyValueByEqualSign_keyLine {before : Text} (after : Text) (hmem : '=' ∉ before)
    (htrim : trim before = key) :
    getKeyValueByEqualSign (before ++ '=' :: after) = (0, key, v) ↔ trim after = v := by
  rw [getKeyValueByEqualSign, cut_append _ hmem]
  simp [htrim]

/-- The value as it is written is read as it was given. -/
theorem trim_written (hv : trim v = v) : trim (' ' :: v ++ ['\n']) = v := by
  have hblank : ∀ b, isBlank b = true → ∀ c ∈ [b], isBlank c = true := by
    intro b hb c hc
    rw [List.mem_singleton.mp hc]
    exact hb
  have hspace : trim ([' '] ++ v ++ ['\n']) = trim v := by
    rw [trim_append_right (hblank '\n' rfl), trim_append_left (hblank ' ' rfl)]
  exact hspace.trans hv

theorem countP_add_eq {α : Type} {f g h k : α → Bool} {xs : List α}
    (heq : ∀ x ∈ xs, (f x).toNat + (g x).toNat = (h x).toNat + (k x).toNat) :
    xs.countP f + xs.countP g = xs.countP h + xs.countP k := by
  induction xs with
  | nil => rfl
  | cons x xs ih =>
      have hx := heq x List.mem_cons_self
      have ih := ih fun y hy => heq y (List.mem_cons_of_mem x hy)
      simp only [countP_cons_toNat]
      omega

/-! ## A key that is not empty -/

section Named

theorem valueAfter_of_ne (hkey : key ≠ []) (value p : Text) : valueAfter key value p = value :=
  if_neg fun h => hkey h.1

theorem steady_iff (hkey : key ≠ []) : ∀ {ls : List Text},
    Steady key value ls ↔ ∀ l ∈ ls, isKeyLine key l = true → editedPiece key false value l = l
  | [] => by simp [Steady]
  | l :: ls => by rw [Steady, valueAfter_of_ne hkey, steady_iff hkey, List.forall_mem_cons]

theorem outLines_eq_map (hkey : key ≠ []) : ∀ (cur : Text) (ps : List Text),
    outLines key value cur ps
      = (assembled key cur ps).map fun l => l.1 ++ editedPiece key false value l.2
  | cur, [] => by
      rw [outLines, assembled, List.map_singleton, editedPiece_other isKeyLine_nil,
        List.append_nil]
  | cur, p :: ps => by
      rw [outLines, assembled, valueAfter_of_ne hkey]
      split
      · rw [outLines_eq_map hkey [] ps, List.map_cons]
      · rw [outLines_eq_map hkey _ ps]

/-- What the loop leaves alone is written as it would write it. -/
theorem editedPiece_eq_self_iff {l : Text} (h : isKeyLine key l = true) :
    editedPiece key false value l = l
      ↔ ∃ before, '=' ∉ before ∧ l = before ++ '=' :: value ++ ['\n'] := by
  obtain ⟨before, after, rfl, hmem, htrim⟩ := isKeyLine_iff.mp h
  rw [editedPiece_keyLine after hmem htrim]
  constructor
  · exact fun heq => ⟨before, hmem, heq.symm⟩
  · rintro ⟨before', hmem', heq⟩
    have hcut := cut_append after hmem
    rw [heq, List.append_assoc, List.cons_append, cut_append _ hmem'] at hcut
    obtain ⟨rfl, -⟩ := Prod.mk.inj (Option.some.inj hcut)
    exact heq.symm

/-- A line of the key cannot have run into a rewritten piece: the piece
would belong to its value. -/
theorem editedPiece_ne_of_runIn {cur w : Text} (before : Text) (h : isKeyLine key cur = true)
    (hle : value.length ≤ w.length) :
    editedPiece key false value (cur ++ (before ++ '=' :: w ++ ['\n']))
      ≠ cur ++ (before ++ '=' :: w ++ ['\n']) := by
  obtain ⟨b, a, rfl, hb, htrim⟩ := isKeyLine_iff.mp h
  rw [List.append_assoc, List.cons_append, editedPiece_keyLine _ hb htrim]
  intro heq
  have hlen := congrArg List.length heq
  simp only [List.length_append, List.length_cons] at hlen
  omega

/-- A line with the key stands, and is read, as it was written: what has
run into a rewritten piece is blank, and another such line says the same
already. -/
def Ready (key v : Text) (l : Text × Text) : Prop :=
  (isKeyLine key l.2 = true → isKeyLine key l.1 = false)
    ∧ (isFound key l = true → ∃ before, '=' ∉ before
      ∧ l.1 ++ l.2 = before ++ '=' :: ' ' :: v ++ ['\n'])

theorem editedPiece_line_iff (l : Text × Text) :
    (isKeyLine key (l.1 ++ editedPiece key false (' ' :: v) l.2) = true →
        editedPiece key false (' ' :: v) (l.1 ++ editedPiece key false (' ' :: v) l.2)
          = l.1 ++ editedPiece key false (' ' :: v) l.2)
      ↔ Ready key v l := by
  obtain ⟨cur, p⟩ := l
  cases hkey : isKeyLine key p with
  | false =>
      have hfound : isFound key (cur, p) = isKeyLine key (cur ++ p) := by
        rw [isFound, hkey, Bool.not_false, Bool.true_and]
      rw [editedPiece_other hkey, Ready, hfound]
      constructor
      · intro h
        refine ⟨fun hp => absurd (hkey.symm.trans hp) Bool.false_ne_true, fun hline => ?_⟩
        exact (editedPiece_eq_self_iff hline).mp (h hline)
      · rintro ⟨-, h⟩ hline
        exact (editedPiece_eq_self_iff hline).mpr (h hline)
  | true =>
      have hfound : isFound key (cur, p) = false := by
        rw [isFound, hkey, Bool.not_true, Bool.false_and]
      obtain ⟨before, after, rfl, hmem, htrim⟩ := isKeyLine_iff.mp hkey
      rw [editedPiece_keyLine after hmem htrim, Ready, hfound, isKeyLine_runIn hmem htrim]
      constructor
      · intro h
        refine ⟨fun _ => ?_, fun hnot => absurd hnot Bool.false_ne_true⟩
        rw [Bool.eq_false_iff]
        intro hcur
        exact editedPiece_ne_of_runIn before hcur (Nat.le_refl _) (h (by rw [hcur, Bool.or_true]))
      · rintro ⟨hcur, -⟩ hline
        rw [hcur hkey, Bool.or_false] at hline
        have hblank : '=' ∉ cur := equalSign_not_mem_blank (List.all_eq_true.mp hline)
        have hline' : isKeyLine key (cur ++ (before ++ '=' :: (' ' :: v) ++ ['\n'])) = true := by
          rw [isKeyLine_runIn hmem htrim, hline, Bool.true_or]
        refine (editedPiece_eq_self_iff hline').mpr ⟨cur ++ before, ?_, by simp⟩
        rw [List.mem_append, not_or]
        exact ⟨hblank, hmem⟩

theorem countP_lines (ls : List (Text × Text)) (h : ∀ l ∈ ls, Ready key v l) :
    (ls.map fun l => l.1 ++ editedPiece key false (' ' :: v) l.2).countP (isKeyLine key)
        + ls.countP (isLost key)
      = ls.countP (fun l => isKeyLine key l.2) + ls.countP (isFound key) := by
  rw [List.countP_map]
  refine countP_add_eq fun l hl => ?_
  obtain ⟨hcur, -⟩ := h l hl
  obtain ⟨cur, p⟩ := l
  rw [Function.comp_apply, isLost, isFound]
  cases hkey : isKeyLine key p with
  | false =>
      rw [editedPiece_other hkey, Bool.false_and, Bool.not_false, Bool.true_and, Nat.add_comm]
  | true =>
      obtain ⟨before, after, rfl, hmem, htrim⟩ := isKeyLine_iff.mp hkey
      rw [editedPiece_keyLine after hmem htrim, isKeyLine_runIn hmem htrim, hcur hkey]
      cases cur.all isBlank <;> rfl

theorem readsLines_iff_of_ne (hkey : key ≠ []) (hv : trim v = v) (ps : List Text) :
    ReadsLines key v (' ' :: v) (outLines key (' ' :: v) [] ps) (ps.countP (isKeyLine key))
      ↔ (assembled key [] ps).countP (isLost key) = (assembled key [] ps).countP (isFound key)
        ∧ ∀ l ∈ assembled key [] ps, Ready key v l := by
  have hsteady : Steady key (' ' :: v) (outLines key (' ' :: v) [] ps)
      ↔ ∀ l ∈ assembled key [] ps, Ready key v l := by
    rw [steady_iff hkey, outLines_eq_map hkey, List.forall_mem_map]
    exact forall₂_congr fun l _ => editedPiece_line_iff l
  have hcount : (∀ l ∈ assembled key [] ps, Ready key v l) →
      ((outLines key (' ' :: v) [] ps).countP (isKeyLine key) = ps.countP (isKeyLine key)
        ↔ (assembled key [] ps).countP (isLost key)
          = (assembled key [] ps).countP (isFound key)) := by
    intro h
    have hcount := countP_lines _ h
    rw [outLines_eq_map hkey, ← countP_assembled [] ps]
    omega
  constructor
  · rintro ⟨hn, -, hst⟩
    exact ⟨(hcount (hsteady.mp hst)).mp hn, hsteady.mp hst⟩
  · rintro ⟨hn, hready⟩
    have hst := hsteady.mpr hready
    refine ⟨(hcount hready).mpr hn, fun l hl hline => ?_, hst⟩
    obtain ⟨before, hmem, heq⟩ := (editedPiece_eq_self_iff hline).mp
      ((steady_iff hkey).mp hst l hl hline)
    obtain ⟨b, a, rfl, hb, htrim⟩ := isKeyLine_iff.mp hline
    rw [List.append_assoc, List.cons_append] at heq
    have hcut := cut_append a hb
    rw [heq, cut_append _ hmem] at hcut
    obtain ⟨rfl, -⟩ := Prod.mk.inj (Option.some.inj hcut)
    rw [heq, getKeyValueByEqualSign_keyLine _ hmem htrim]
    exact trim_written hv

end Named

/-! ## The empty key -/

section Unnamed

/-- The value, or what is left when it is gone. -/
def valueOf (v : Text) (gone : Bool) : Text := if gone then [] else ' ' :: v

theorem valueAfter_valueOf (gone : Bool) (p : Text) :
    valueAfter [] (valueOf v gone) p = valueOf v (gone || !p.contains '=') := by
  by_cases hmem : '=' ∈ p
  · rw [valueAfter_of_mem hmem]
    simp [hmem]
  · rw [valueAfter, if_pos ⟨rfl, hmem⟩]
    simp [hmem, valueOf]

/-- Where the value is gone when a piece is rewritten, it is empty, and
is gone as well when the line is rewritten again. -/
def GoneAgrees (v : Text) (gone gone' : Bool) (cur : Text) (ps : List Text) : Prop :=
  ∀ before p after, ps = before ++ p :: after → isKeyLine [] p = true →
    (gone = true ∨ ∃ q ∈ before, '=' ∉ q) →
    v = [] ∧ (gone' = true ∨ ∃ l ∈ (assembled [] cur before).dropLast, '=' ∉ l.1 ++ l.2)

theorem goneAgrees_nil (gone gone' : Bool) (cur : Text) : GoneAgrees v gone gone' cur [] := by
  intro before p after h
  cases before <;> cases h

/-- One piece less: where behind it the value is gone to both runs as it
was, with `gone₁` and `gone₁'` for the piece, in front of it. -/
theorem goneAgrees_step {gone gone₁ gone' gone₁' : Bool} {cur cur₁ p : Text}
    (hgone : ∀ before : List Text, (gone = true ∨ ∃ q ∈ p :: before, '=' ∉ q)
      ↔ (gone₁ = true ∨ ∃ q ∈ before, '=' ∉ q))
    (hgone' : ∀ before : List Text,
      (gone' = true ∨ ∃ l ∈ (assembled [] cur (p :: before)).dropLast, '=' ∉ l.1 ++ l.2)
        ↔ (gone₁' = true ∨ ∃ l ∈ (assembled [] cur₁ before).dropLast, '=' ∉ l.1 ++ l.2))
    (ps : List Text) :
    GoneAgrees v gone gone' cur (p :: ps)
      ↔ (isKeyLine [] p = true → gone = true → v = [] ∧ gone' = true)
        ∧ GoneAgrees v gone₁ gone₁' cur₁ ps := by
  constructor
  · intro h
    refine ⟨fun hkey hg => ?_, fun before q after heq hkey hg => ?_⟩
    · obtain ⟨hv, hg' | ⟨l, hl, -⟩⟩ := h [] p ps rfl hkey (Or.inl hg)
      · exact ⟨hv, hg'⟩
      · cases hl
    · obtain ⟨hv, hg'⟩ := h (p :: before) q after (by rw [heq]; rfl) hkey ((hgone before).mpr hg)
      exact ⟨hv, (hgone' before).mp hg'⟩
  · rintro ⟨hfirst, hrest⟩ before q after heq hkey hg
    cases before with
    | nil =>
        obtain ⟨rfl, rfl⟩ := List.cons.inj heq
        rcases hg with hg | ⟨l, hl, -⟩
        · obtain ⟨hv, hg'⟩ := hfirst hkey hg
          exact ⟨hv, Or.inl hg'⟩
        · cases hl
    | cons p' before =>
        obtain ⟨rfl, htail⟩ := List.cons.inj heq
        obtain ⟨hv, hg'⟩ := hrest before q after htail hkey ((hgone before).mp hg)
        exact ⟨hv, (hgone' before).mpr hg'⟩

theorem goneAgrees_cons (gone gone' : Bool) (cur p : Text) (ps : List Text) :
    GoneAgrees v gone gone' cur (p :: ps)
      ↔ (isKeyLine [] p = true → gone = true → v = [] ∧ gone' = true)
        ∧ if endsLine [] p then
            GoneAgrees v (gone || !p.contains '=') (gone' || !(cur ++ p).contains '=') [] ps
          else GoneAgrees v (gone || !p.contains '=') gone' (cur ++ p) ps := by
  have hgone : ∀ before : List Text,
      (gone = true ∨ ∃ q ∈ p :: before, '=' ∉ q)
        ↔ ((gone || !p.contains '=') = true ∨ ∃ q ∈ before, '=' ∉ q) := by
    intro before
    simp [or_assoc]
  split
  · rename_i hends
    refine goneAgrees_step hgone (fun before => ?_) ps
    rw [assembled, if_pos hends, List.dropLast_cons_of_ne_nil (assembled_ne_nil _ _)]
    simp [or_assoc]
  · rename_i hends
    refine goneAgrees_step hgone (fun before => ?_) ps
    rw [assembled, if_neg hends]

/-- No line gets the empty key from what has run into it. -/
theorem countP_outLines_le : ∀ {ps : List Text} {value cur : Text}, isKeyLine [] cur = false →
    (outLines [] value cur ps).countP (isKeyLine []) ≤ ps.countP (isKeyLine [])
  | [], value, cur, hcur => by
      rw [outLines, countP_cons_toNat, hcur]
      exact Nat.le_refl _
  | p :: ps, value, cur, hcur => by
      rw [outLines, countP_cons_toNat (isKeyLine []) p ps]
      cases hkey : isKeyLine [] p with
      | true =>
          have ih : (outLines [] (valueAfter [] value p) [] ps).countP (isKeyLine [])
              ≤ ps.countP (isKeyLine []) := countP_outLines_le rfl
          have hone := Bool.toNat_le (isKeyLine [] (cur ++ editedPiece [] false value p))
          rw [endsLine_of_keyLine hkey, if_pos rfl, countP_cons_toNat, Bool.toNat_true]
          omega
      | false =>
          have hline := isKeyLine_append hcur hkey
          rw [editedPiece_other hkey, endsLine_other hkey, Bool.toNat_false]
          split
          · rw [countP_cons_toNat, hline]
            exact countP_outLines_le rfl
          · exact countP_outLines_le hline

/-- No piece that has the key runs behind other text. -/
def RunsClear (ls : List (Text × Text)) : Prop :=
  ∀ l ∈ ls, isKeyLine [] l.2 = true → l.1.all isBlank = true

/-- The value a line is written with is the one it is read with and
rewritten with. -/
theorem written_iff (hv : trim v = v) {gone gone' : Bool} (hle : gone' = true → gone = true)
    {before : Text} (hmem : '=' ∉ before) (htrim : trim before = []) :
    getKeyValueByEqualSign (before ++ '=' :: valueOf v gone ++ ['\n']) = (0, [], v)
        ∧ editedPiece [] false (valueOf v gone') (before ++ '=' :: valueOf v gone ++ ['\n'])
          = before ++ '=' :: valueOf v gone ++ ['\n']
      ↔ (gone = true → v = [] ∧ gone' = true) := by
  rw [List.append_assoc, List.cons_append, getKeyValueByEqualSign_keyLine _ hmem htrim,
    editedPiece_keyLine _ hmem htrim]
  cases gone with
  | false =>
      have hgone' : gone' = false := by
        cases gone' with
        | false => rfl
        | true => exact absurd (hle rfl) Bool.false_ne_true
      rw [hgone']
      simpa [valueOf] using trim_written hv
  | true =>
      have hblank : trim ['\n'] = [] := rfl
      cases gone' with
      | true => simp [valueOf, hblank, eq_comm]
      | false => simp [valueOf]

theorem runsClear_cons {cur p : Text} {ls : List (Text × Text)} :
    RunsClear ((cur, p) :: ls) ↔ (isKeyLine [] p = true → cur.all isBlank = true) ∧ RunsClear ls :=
  List.forall_mem_cons

theorem contains_append {c : Char} {s t : Text} (h : t.contains c = true) :
    (s ++ t).contains c = true :=
  List.contains_iff_mem.mpr (List.mem_append_right s (List.contains_iff_mem.mp h))

/-- One more line, when it is one that was rewritten. -/
theorem readsLines_cons_keyLine (hv : trim v = v) {gone gone' : Bool}
    (hle : gone' = true → gone = true) {cur before : Text} {ls : List Text} {n : Nat}
    (hcur : isKeyLine [] cur = false) (hmem : '=' ∉ before) (htrim : trim before = [])
    (hn : ls.countP (isKeyLine []) ≤ n) :
    ReadsLines [] v (valueOf v gone')
        ((cur ++ (before ++ '=' :: valueOf v gone ++ ['\n'])) :: ls) (n + 1)
      ↔ cur.all isBlank = true ∧ (gone = true → v = [] ∧ gone' = true)
        ∧ ReadsLines [] v (valueOf v gone') ls n := by
  have hline : isKeyLine [] (cur ++ (before ++ '=' :: valueOf v gone ++ ['\n']))
      = cur.all isBlank := by
    rw [isKeyLine_runIn hmem htrim, hcur, Bool.or_false]
  have hvalue : valueAfter [] (valueOf v gone')
      (cur ++ (before ++ '=' :: valueOf v gone ++ ['\n'])) = valueOf v gone' :=
    valueAfter_of_mem (by simp) _ _
  have hwritten : cur.all isBlank = true →
      (getKeyValueByEqualSign (cur ++ (before ++ '=' :: valueOf v gone ++ ['\n'])) = (0, [], v)
          ∧ editedPiece [] false (valueOf v gone')
              (cur ++ (before ++ '=' :: valueOf v gone ++ ['\n']))
            = cur ++ (before ++ '=' :: valueOf v gone ++ ['\n'])
        ↔ (gone = true → v = [] ∧ gone' = true)) := by
    intro hblank
    have hblank := List.all_eq_true.mp hblank
    have hmem' : '=' ∉ cur ++ before := by
      rw [List.mem_append, not_or]
      exact ⟨equalSign_not_mem_blank hblank, hmem⟩
    have htrim' : trim (cur ++ before) = [] := (trim_append_left hblank).trans htrim
    rw [← written_iff hv hle hmem' htrim', List.append_assoc cur, List.append_assoc cur]
  rw [ReadsLines, Steady, countP_cons_toNat, hline, hvalue, List.forall_mem_cons, hline]
  constructor
  · rintro ⟨hcount, ⟨hread, hreads⟩, hfixed, hsteady⟩
    cases hblank : cur.all isBlank with
    | false =>
        rw [hblank, Bool.toNat_false] at hcount
        omega
    | true =>
        rw [hblank, Bool.toNat_true] at hcount
        exact ⟨rfl, (hwritten hblank).mp ⟨hread hblank, hfixed hblank⟩,
          Nat.succ.inj hcount, hreads, hsteady⟩
  · rintro ⟨hblank, hgone, hcount, hreads, hsteady⟩
    obtain ⟨hread, hfixed⟩ := (hwritten hblank).mpr hgone
    exact ⟨by rw [hcount, hblank]; rfl, ⟨fun _ => hread, hreads⟩, fun _ => hfixed, hsteady⟩

/-- One more line, when it has not the key. -/
theorem readsLines_cons_other {gone' : Bool} {line : Text} {ls : List Text} {n : Nat}
    (hline : isKeyLine [] line = false) :
    ReadsLines [] v (valueOf v gone') (line :: ls) n
      ↔ ReadsLines [] v (valueOf v (gone' || !line.contains '=')) ls n := by
  rw [ReadsLines, ReadsLines, Steady, countP_cons_toNat, hline, valueAfter_valueOf,
    List.forall_mem_cons, hline]
  simp

theorem readsLines_iff_unnamed (hv : trim v = v) : ∀ {ps : List Text} {cur : Text}
    {gone gone' : Bool}, isKeyLine [] cur = false → (gone' = true → gone = true) →
    (ReadsLines [] v (valueOf v gone') (outLines [] (valueOf v gone) cur ps)
        (ps.countP (isKeyLine []))
      ↔ RunsClear (assembled [] cur ps) ∧ GoneAgrees v gone gone' cur ps)
  | [], cur, gone, gone', hcur, _ => by
      rw [outLines, readsLines_cons_other hcur]
      refine iff_of_true ⟨rfl, ?_, trivial⟩ ⟨?_, goneAgrees_nil _ _ _⟩
      · intro l hl
        cases hl
      · intro l hl hkey
        rw [List.mem_singleton.mp hl] at hkey
        cases hkey
  | p :: ps, cur, gone, gone', hcur, hle => by
      rw [goneAgrees_cons, outLines, assembled, valueAfter_valueOf,
        countP_cons_toNat (isKeyLine []) p ps]
      cases hkey : isKeyLine [] p with
      | true =>
          have hends := endsLine_of_keyLine hkey
          have hcontains : p.contains '=' = true :=
            List.contains_iff_mem.mpr (mem_of_isKeyLine hkey)
          have ih : ReadsLines [] v (valueOf v gone') (outLines [] (valueOf v gone) [] ps)
              (ps.countP (isKeyLine [])) ↔ RunsClear (assembled [] [] ps)
                ∧ GoneAgrees v gone gone' [] ps := readsLines_iff_unnamed hv rfl hle
          obtain ⟨before, after, rfl, hmem, htrim⟩ := isKeyLine_iff.mp hkey
          rw [if_pos hends, if_pos hends, if_pos hends, hcontains, contains_append hcontains,
            Bool.not_true, Bool.or_false, Bool.or_false, editedPiece_keyLine after hmem htrim,
            Bool.toNat_true, readsLines_cons_keyLine hv hle hcur hmem htrim
              (countP_outLines_le rfl), ih, runsClear_cons, hkey]
          tauto
      | false =>
          have hline := isKeyLine_append hcur hkey
          rw [editedPiece_other hkey, Bool.toNat_false, Nat.add_zero]
          split
          · have hle' : (gone' || !(cur ++ p).contains '=') = true →
                (gone || !p.contains '=') = true := by
              intro h
              rcases Bool.or_eq_true_iff.mp h with h | h
              · rw [hle h, Bool.true_or]
              · cases hp : p.contains '=' with
                | false => exact Bool.or_true gone
                | true =>
                    rw [contains_append hp] at h
                    cases h
            rw [readsLines_cons_other hline, readsLines_iff_unnamed hv rfl hle', runsClear_cons,
              hkey]
            simp
          · have hle' : gone' = true → (gone || !p.contains '=') = true :=
              fun h => by rw [hle h, Bool.true_or]
            rw [readsLines_iff_unnamed hv hline hle']
            simp

end Unnamed

/-! ## Files -/

/-- The condition on the file: the value has no `0xFF` when it is used,
as many pieces that have the key run behind other text as lines get it
so, all lines that have it are as they would be written, and the empty
key's value is gone where it does no harm. -/
structure ReplacesStably (key v content : Text) : Prop where
  clean : (∃ p ∈ pieces content, isKeyLine key p = true) → eofByte ∉ v
  balanced : (assembled key [] (pieces content)).countP (isLost key)
    = (assembled key [] (pieces content)).countP (isFound key)
  ready : ∀ l ∈ assembled key [] (pieces content), Ready key v l
  gone : key = [] → GoneAgrees v false false [] (pieces content)

theorem assembled_unnamed : ∀ {ps : List Text} {cur : Text}, isKeyLine [] cur = false →
    ∀ l ∈ assembled [] cur ps, isKeyLine [] l.1 = false ∧ isFound [] l = false
  | [], cur, hcur, l, hl => by
      rw [List.mem_singleton.mp hl, isFound, List.append_nil, hcur]
      exact ⟨rfl, rfl⟩
  | p :: ps, cur, hcur, l, hl => by
      rw [assembled] at hl
      split at hl
      · rcases List.mem_cons.mp hl with rfl | hl
        · refine ⟨hcur, ?_⟩
          cases hkey : isKeyLine [] p with
          | true => rw [isFound, hkey, Bool.not_true, Bool.false_and]
          | false => rw [isFound, isKeyLine_append hcur hkey, Bool.and_false]
        · exact assembled_unnamed rfl l hl
      · rename_i hends
        have hkey := isKeyLine_of_not_endsLine hends
        exact assembled_unnamed (isKeyLine_append hcur hkey) l hl

/-- For the empty key no line is found, so none may be lost. -/
theorem runsClear_iff (v : Text) (ps : List Text) : RunsClear (assembled [] [] ps)
    ↔ (assembled [] [] ps).countP (isLost []) = (assembled [] [] ps).countP (isFound [])
      ∧ ∀ l ∈ assembled [] [] ps, Ready [] v l := by
  have hnone : ∀ l ∈ assembled [] [] ps, isKeyLine [] l.1 = false ∧ isFound [] l = false :=
    assembled_unnamed rfl
  have hfound : (assembled [] [] ps).countP (isFound []) = 0 :=
    List.countP_eq_zero.mpr fun l hl => by rw [(hnone l hl).2]; exact Bool.false_ne_true
  have hready : ∀ l ∈ assembled [] [] ps, Ready [] v l := by
    intro l hl
    refine ⟨fun _ => (hnone l hl).1, fun h => ?_⟩
    rw [(hnone l hl).2] at h
    cases h
  rw [hfound, List.countP_eq_zero]
  constructor
  · intro h
    refine ⟨fun l hl hlost => ?_, hready⟩
    rw [isLost, Bool.and_eq_true] at hlost
    rw [h l hl hlost.1] at hlost
    exact Bool.false_ne_true hlost.2
  · rintro ⟨h, -⟩ l hl hkey
    cases hblank : l.1.all isBlank with
    | true => rfl
    | false => exact absurd (by rw [isLost, hkey, hblank]; rfl) (h l hl)

theorem readsLines_iff (hv : trim v = v) (content : Text) :
    ReadsLines key v (' ' :: v) (outLines key (' ' :: v) [] (pieces content))
        ((pieces content).countP (isKeyLine key))
      ↔ (assembled key [] (pieces content)).countP (isLost key)
          = (assembled key [] (pieces content)).countP (isFound key)
        ∧ (∀ l ∈ assembled key [] (pieces content), Ready key v l)
        ∧ (key = [] → GoneAgrees v false false [] (pieces content)) := by
  by_cases hkey : key = []
  · subst hkey
    have hiff : ReadsLines [] v (valueOf v false)
        (outLines [] (valueOf v false) [] (pieces content))
        ((pieces content).countP (isKeyLine []))
          ↔ RunsClear (assembled [] [] (pieces content))
            ∧ GoneAgrees v false false [] (pieces content) := readsLines_iff_unnamed hv rfl id
    rw [show ' ' :: v = valueOf v false from rfl, hiff, runsClear_iff v, and_assoc]
    simp
  · rw [readsLines_iff_of_ne hkey hv]
    simp [hkey]

/-! ## A file without a `0xFF` -/

theorem physicalLines_eq_concat (s : Text) :
    ∃ ls last, physicalLines s = ls ++ [last] ∧ ∀ l ∈ ls, '\n' ∈ l := by
  induction s using linesInduction with
  | last body hbody =>
      refine ⟨[], body, physicalLines_last hbody, fun l hl => ?_⟩
      cases hl
  | line body rest hbody ih =>
      obtain ⟨ls, last, heq, hends⟩ := ih
      refine ⟨(body ++ ['\n']) :: ls, last, ?_, fun l hl => ?_⟩
      · rw [physicalLines_line rest hbody, heq, List.cons_append]
      · rcases List.mem_cons.mp hl with rfl | hl
        · simp
        · exact hends l hl

theorem assembled_lines {ls : List Text} (ps : List Text) (h : ∀ l ∈ ls, '\n' ∈ l) :
    assembled key [] (ls ++ ps) = ls.map (Prod.mk []) ++ assembled key [] ps := by
  induction ls with
  | nil => rfl
  | cons l ls ih =>
      have hends : endsLine key l = true := by
        rw [endsLine, List.contains_iff_mem.mpr (h l List.mem_cons_self), Bool.true_or]
      rw [List.cons_append, assembled, if_pos hends,
        ih fun l' hl' => h l' (List.mem_cons_of_mem l hl'), List.map_cons, List.cons_append]

/-- Only the last line of a file can run into nothing. -/
theorem assembled_physicalLines (s : Text) : ∀ l ∈ assembled key [] (physicalLines s),
    l.1 = [] ∨ l.2 = [] ∧ isKeyLine key l.1 = false := by
  obtain ⟨ls, last, heq, hends⟩ := physicalLines_eq_concat s
  intro l hl
  rw [heq, assembled_lines [last] hends, List.mem_append, assembled] at hl
  rcases hl with hl | hl
  · obtain ⟨line, -, rfl⟩ := List.mem_map.mp hl
    exact Or.inl rfl
  · split at hl
    · rcases List.mem_cons.mp hl with rfl | hl
      · exact Or.inl rfl
      · rw [List.mem_singleton.mp hl]
        exact Or.inl rfl
    · rename_i hlast
      rw [List.mem_singleton.mp hl]
      exact Or.inr ⟨rfl, isKeyLine_of_not_endsLine hlast⟩

theorem goneAgrees_physicalLines (v s : Text) : GoneAgrees v false false [] (physicalLines s)
    ↔ v = [] ∨ (physicalLines s).Pairwise fun l l' => isKeyLine [] l' = true → '=' ∈ l := by
  obtain ⟨ls, last, heq, hends⟩ := physicalLines_eq_concat s
  constructor
  · intro h
    rw [or_iff_not_imp_left, List.pairwise_iff_forall_sublist]
    intro hv a b hab hkey
    by_contra hmem
    obtain ⟨before, rest, hsplit, ha, hb⟩ := List.cons_sublist_iff.mp hab
    obtain ⟨mid, after, rfl⟩ := List.append_of_mem (List.singleton_sublist.mp hb)
    refine hv (h (before ++ mid) b after (by rw [hsplit]; simp) hkey (Or.inr ⟨a, ?_, hmem⟩)).1
    exact List.mem_append_left _ ha
  · intro h before p after hsplit hkey hg
    rcases hg with hg | ⟨q, hq, hmem⟩
    · cases hg
    · have hv : v = [] := by
        refine h.resolve_right fun hpair => hmem ?_
        rw [hsplit, List.pairwise_append] at hpair
        exact hpair.2.2 q hq p List.mem_cons_self hkey
      -- the lines before `p` are whole lines
      have hbefore : ∀ l ∈ before, '\n' ∈ l := by
        intro l hl
        rw [heq] at hsplit
        rcases List.append_eq_append_iff.mp hsplit with ⟨a, rfl, ha⟩ | ⟨a, rfl, -⟩
        · cases a with
          | nil => exact hends l (by simpa using hl)
          | cons x a => simp at ha
        · exact hends l (List.mem_append_left _ hl)
      have hlines : assembled [] [] before = before.map (Prod.mk []) ++ [([], [])] := by
        have hmap : assembled [] [] (before ++ [])
            = before.map (Prod.mk []) ++ assembled [] [] [] := assembled_lines [] hbefore
        rwa [List.append_nil] at hmap
      refine ⟨hv, Or.inr ⟨([], q), ?_, hmem⟩⟩
      rw [hlines, List.dropLast_concat]
      exact List.mem_map_of_mem hq

/-- Without a `0xFF` in the file only the value and, for the empty key,
the lines without an equal sign matter. -/
theorem replacesStably_iff_of_clean {content : Text} (hff : eofByte ∉ content) :
    ReplacesStably key v content
      ↔ ((∃ l ∈ physicalLines content, isKeyLine key l = true) → eofByte ∉ v)
        ∧ (key = [] → v = [] ∨ (physicalLines content).Pairwise
          fun l l' => isKeyLine [] l' = true → '=' ∈ l) := by
  have hlines : ∀ l ∈ assembled key [] (physicalLines content),
      l.1 = [] ∨ l.2 = [] ∧ isKeyLine key l.1 = false := assembled_physicalLines content
  have hpieces := pieces_eq_physicalLines hff
  have hlost : ∀ l ∈ assembled key [] (pieces content), isLost key l = false := by
    intro l hl
    rw [hpieces] at hl
    rcases hlines l hl with h | ⟨h, -⟩
    · rw [isLost, h]
      exact Bool.and_false _
    · rw [isLost, h, isKeyLine_nil, Bool.false_and]
  have hfound : ∀ l ∈ assembled key [] (pieces content), isFound key l = false := by
    intro l hl
    rw [hpieces] at hl
    rcases hlines l hl with h | ⟨h, hkey⟩
    · rw [isFound, h, List.nil_append, Bool.not_and_self]
    · rw [isFound, h, List.append_nil, hkey, Bool.and_false]
  rw [← hpieces]
  constructor
  · intro h
    refine ⟨h.clean, fun hkey => ?_⟩
    rw [hpieces, ← goneAgrees_physicalLines, ← hpieces]
    exact h.gone hkey
  · rintro ⟨hclean, hgone⟩
    refine ⟨hclean, ?_, fun l hl => ⟨fun hkey => ?_, fun h => ?_⟩, fun hkey => ?_⟩
    · rw [List.countP_eq_zero.mpr fun l hl => by rw [hlost l hl]; exact Bool.false_ne_true,
        List.countP_eq_zero.mpr fun l hl => by rw [hfound l hl]; exact Bool.false_ne_true]
    · rw [hpieces] at hl
      rcases hlines l hl with h | ⟨h, hnot⟩
      · rw [h]
        rfl
      · exact hnot
    · rw [hfound l hl] at h
      cases h
    · rw [hpieces, goneAgrees_physicalLines, ← hpieces]
      exact hgone hkey

/-! ## Reading back -/

/-- The new file reads back: as many of its lines have the key as were
rewritten, each is read as the value, and the same replacement changes
nothing more. -/
def ReadsBack (content keyValue key value : Text) : Prop :=
  ∀ n out, configReplace content keyValue false = some (n, out) →
    (lines out).countP (isKeyLine key) = n
      ∧ (∀ line ∈ lines out, isKeyLine key line = true →
          getKeyValueByEqualSign line = (0, key, value))
      ∧ configReplace out keyValue false = some (n, out)

theorem value_of_accepts {keyValue : Text}
    (h : getKeyValueByEqualSign keyValue = (0, key, value)) :
    trim value = value ∧ value ⊆ keyValue := by
  obtain ⟨before, after, hcut, -, rfl⟩ := cut_of_accepts h
  refine ⟨trim_trim after, fun c hc => ?_⟩
  rw [(cut_eq_some.mp hcut).1]
  exact List.mem_append_right _ (List.mem_cons_of_mem _ (mem_of_mem_trim hc))

theorem countP_lines_eq (s : Text) :
    (lines s).countP (isKeyLine key) = (physicalLines s).countP (isKeyLine key) := by
  rcases physicalLines_eq s with h | h
  · rw [h]
  · rw [h, List.countP_append, List.countP_singleton, isKeyLine_nil, if_neg Bool.false_ne_true,
      Nat.add_zero]

theorem forall_mem_lines {p : Text → Prop} (s : Text) :
    (∀ l ∈ lines s, isKeyLine key l = true → p l)
      ↔ ∀ l ∈ physicalLines s, isKeyLine key l = true → p l := by
  constructor
  · intro h l hl hkey
    refine h l (mem_lines.mpr ⟨hl, fun hnil => ?_⟩) hkey
    rw [hnil, isKeyLine_nil] at hkey
    cases hkey
  · exact fun h l hl => h l (mem_lines.mp hl).1

/-- On a new text without a `0xFF` the second run is a run over its
lines. -/
theorem readsBack_iff_readsLines {content keyValue : Text}
    (h : getKeyValueByEqualSign keyValue = (0, key, v)) (hnl : '\n' ∉ v)
    (hff : eofByte ∉ newContent key false (' ' :: v) (pieces content)) :
    ReadsBack content keyValue key v
      ↔ ReadsLines key v (' ' :: v) (outLines key (' ' :: v) [] (pieces content))
        ((pieces content).countP (isKeyLine key)) := by
  have hnl' : '\n' ∉ ' ' :: v := by
    rw [List.mem_cons, not_or]
    exact ⟨by decide, hnl⟩
  have hlines : physicalLines (newContent key false (' ' :: v) (pieces content))
      = outLines key (' ' :: v) [] (pieces content) :=
    physicalLines_newContent (fun p hp => newline_not_mem_piece hp) List.not_mem_nil hnl'
  have hsteady : newContent key false (' ' :: v) (physicalLines
        (newContent key false (' ' :: v) (pieces content)))
        = newContent key false (' ' :: v) (pieces content)
      ↔ Steady key (' ' :: v) (physicalLines
        (newContent key false (' ' :: v) (pieces content))) :=
    newContent_eq_iff_steady _ _ hnl'
  rw [ReadsBack, configReplace_accepts h, ReadsLines, ← hlines, ← hsteady]
  constructor
  · intro hback
    obtain ⟨hcount, hreads, hrun⟩ := hback _ _ rfl
    rw [configReplace_accepts h, pieces_eq_physicalLines hff] at hrun
    rw [countP_lines_eq] at hcount
    exact ⟨hcount, (forall_mem_lines _).mp hreads, (Prod.mk.inj (Option.some.inj hrun)).2⟩
  · rintro ⟨hcount, hreads, hrun⟩ n out heq
    obtain ⟨rfl, rfl⟩ := Prod.mk.inj (Option.some.inj heq)
    rw [countP_lines_eq, configReplace_accepts h, pieces_eq_physicalLines hff, hcount, hrun]
    exact ⟨rfl, (forall_mem_lines _).mpr hreads, rfl⟩

theorem eofByte_not_mem_newContent : ∀ {ps : List Text} {value : Text}, (∀ p ∈ ps, eofByte ∉ p) →
    ((∃ p ∈ ps, isKeyLine key p = true) → eofByte ∉ value) →
    eofByte ∉ newContent key false value ps
  | [], _, _, _ => List.not_mem_nil
  | p :: ps, value, hps, hvalue => by
      have hp := hps p List.mem_cons_self
      have hvalue' : (∃ q ∈ ps, isKeyLine key q = true) → eofByte ∉ valueAfter key value p :=
        fun ⟨q, hq, hkey⟩ => not_mem_valueAfter p (hvalue ⟨q, List.mem_cons_of_mem p hq, hkey⟩)
      rw [newContent, List.mem_append, not_or]
      refine ⟨?_, eofByte_not_mem_newContent (fun q hq => hps q (List.mem_cons_of_mem p hq))
        hvalue'⟩
      cases hkey : isKeyLine key p with
      | false =>
          rw [editedPiece_other hkey]
          exact hp
      | true =>
          have hv := hvalue ⟨p, List.mem_cons_self, hkey⟩
          obtain ⟨before, after, rfl, hmem, htrim⟩ := isKeyLine_iff.mp hkey
          rw [editedPiece_keyLine after hmem htrim]
          simp only [List.mem_append, List.mem_cons, not_or] at hp ⊢
          exact ⟨⟨hp.1, by decide, hv⟩, by decide, List.not_mem_nil⟩

/-! ## A value with a `0xFF` -/

theorem flatMap_physicalLines (s : Text) : (physicalLines s).flatMap (fun l => l) = s := by
  induction s using linesInduction with
  | last body hbody => rw [physicalLines_last hbody, List.flatMap_singleton]
  | line body rest hbody ih =>
      rw [physicalLines_line rest hbody, List.flatMap_cons, ih, List.append_assoc,
        List.singleton_append]

/-- The line's newline is in one of its pieces. -/
theorem count_newline_le {l : Text} (h : '\n' ∉ l.dropLast) :
    l.count '\n' ≤ (l.splitOn eofByte).countP (endsLine key) := by
  rcases newline_at_end h with hnl | ⟨body, rfl, hbody⟩
  · rw [List.count_eq_zero_of_not_mem hnl]
    exact Nat.zero_le _
  · obtain ⟨p, hp, hmem⟩ := newline_piece (List.mem_append_right body (List.mem_singleton_self _))
    have hpos : 0 < ((body ++ ['\n']).splitOn eofByte).countP (endsLine key) :=
      List.countP_pos_iff.mpr ⟨p, hp, by simp [endsLine, hmem]⟩
    rw [List.count_append, List.count_eq_zero_of_not_mem hbody, Nat.zero_add]
    exact hpos

/-- A line of the key with a `0xFF` in its value falls into more. -/
theorem count_newline_lt {l : Text} (hnl : '\n' ∉ l.dropLast) (hkey : eofByte ∉ key)
    (hline : isKeyLine key l = true) (hread : getKeyValueByEqualSign l = (0, key, v))
    (hff : eofByte ∈ v) : l.count '\n' < (l.splitOn eofByte).countP (endsLine key) := by
  obtain ⟨before, after, rfl, hmem, htrim⟩ := isKeyLine_iff.mp hline
  rw [getKeyValueByEqualSign_keyLine after hmem htrim] at hread
  have hafter : eofByte ∈ after := mem_of_mem_trim (hread ▸ hff)
  obtain ⟨a, more, rfl, ha⟩ := List.eq_append_cons_of_mem hafter
  have hfirst : eofByte ∉ before ++ '=' :: a := by
    rw [List.mem_append, List.mem_cons, not_or, not_or]
    refine ⟨fun h => hkey ?_, by decide, ha⟩
    rw [← htrim]
    exact mem_trim h (by decide)
  have hassoc : before ++ '=' :: (a ++ eofByte :: more)
      = (before ++ '=' :: a) ++ eofByte :: more := by simp
  have hends : endsLine key (before ++ '=' :: a) = true :=
    endsLine_of_keyLine (isKeyLine_iff.mpr ⟨before, a, rfl, hmem, htrim⟩)
  rw [hassoc] at hnl ⊢
  rw [List.dropLast_append_of_ne_nil (List.cons_ne_nil _ _), List.mem_append, not_or] at hnl
  have hmore : '\n' ∉ more.dropLast := by
    cases more with
    | nil => exact List.not_mem_nil
    | cons c more =>
        rw [List.dropLast_cons_of_ne_nil (List.cons_ne_nil _ _), List.mem_cons, not_or] at hnl
        exact hnl.2.2
  have hle : more.count '\n' ≤ (more.splitOn eofByte).countP (endsLine key) :=
    count_newline_le hmore
  have hcons : (eofByte :: more).count '\n' = more.count '\n' :=
    List.count_cons_of_ne (by decide)
  rw [List.splitOn_append_cons_self_of_not_mem hfirst, countP_cons_toNat, hends,
    List.count_append, List.count_eq_zero.mpr hnl.1, hcons, Bool.toNat_true]
  omega

theorem not_readsBack_of_eofByte {content keyValue : Text}
    (h : getKeyValueByEqualSign keyValue = (0, key, v)) (hff : eofByte ∈ v)
    (hused : ∃ p ∈ pieces content, isKeyLine key p = true) :
    ¬ ReadsBack content keyValue key v := by
  intro hback
  have hkey : eofByte ∉ key := by
    obtain ⟨p, hp, hline⟩ := hused
    exact eofByte_not_mem_key hline (eofByte_not_mem_piece hp)
  obtain ⟨hcount, hreads, hrun⟩ := hback _ _ (configReplace_accepts h content false)
  generalize newContent key false (' ' :: v) (pieces content) = out at hcount hreads hrun
  have hpos : 0 < (lines out).countP (isKeyLine key) := by
    rw [hcount]
    exact List.countP_pos_iff.mpr hused
  obtain ⟨l, hl, hline⟩ := List.countP_pos_iff.mp hpos
  rw [configReplace_accepts h] at hrun
  have hsame : newContent key false (' ' :: v) (pieces out) = out :=
    (Prod.mk.inj (Option.some.inj hrun)).2
  -- the second run writes a newline for every piece that ends a line
  have hnewlines : (pieces out).countP (endsLine key) + v.count '\n' * fresh key (pieces out)
      ≤ (newContent key false (' ' :: v) (pieces out)).count '\n' := count_newContent (pieces out)
  rw [hsame] at hnewlines
  have hlt : out.count '\n' < (pieces out).countP (endsLine key) := by
    have hlines := List.count_flatMap (l := physicalLines out) (f := fun l => l) (x := '\n')
    rw [flatMap_physicalLines] at hlines
    rw [hlines, pieces, List.countP_flatMap]
    refine List.sum_lt_sum _ _ (fun l' hl' => count_newline_le (newline_not_mem_dropLast hl'))
      ⟨l, (mem_lines.mp hl).1, ?_⟩
    exact count_newline_lt (newline_not_mem_dropLast (mem_lines.mp hl).1) hkey hline
      (hreads l hl hline) hff
  omega

/-- A replacement reads back and is stable exactly when the file lets
it. -/
theorem readsBack_iff {keyValue : Text} (h : getKeyValueByEqualSign keyValue = (0, key, v))
    (hnl : '\n' ∉ keyValue) (content : Text) :
    ReadsBack content keyValue key v ↔ ReplacesStably key v content := by
  obtain ⟨hv, hsub⟩ := value_of_accepts h
  by_cases hclean : (∃ p ∈ pieces content, isKeyLine key p = true) → eofByte ∉ v
  · have hff : eofByte ∉ newContent key false (' ' :: v) (pieces content) := by
      refine eofByte_not_mem_newContent (fun p hp => eofByte_not_mem_piece hp) fun hused => ?_
      rw [List.mem_cons, not_or]
      exact ⟨by decide, hclean hused⟩
    rw [readsBack_iff_readsLines h (fun hmem => hnl (hsub hmem)) hff, readsLines_iff hv]
    constructor
    · rintro ⟨hbalanced, hready, hgone⟩
      exact ⟨hclean, hbalanced, hready, hgone⟩
    · rintro ⟨-, hbalanced, hready, hgone⟩
      exact ⟨hbalanced, hready, hgone⟩
  · refine iff_of_false ?_ fun hstable => hclean hstable.clean
    rw [Classical.not_imp, not_not] at hclean
    exact not_readsBack_of_eofByte h hclean.2 hclean.1

end Lines

theorem readsBack_replaced :
    ReadsBack "a\nK = 1\nb".toList "K=2".toList ['K'] ['2']
      ∧ ReplacesStably ['K'] ['2'] "a\nK = 1\nb".toList := by
  have hback : ReadsBack "a\nK = 1\nb".toList "K=2".toList ['K'] ['2'] := by
    intro n out h
    have hrun : configReplace "a\nK = 1\nb".toList "K=2".toList false
        = some (1, "a\nK = 2\nb".toList) := rfl
    obtain ⟨rfl, rfl⟩ := Prod.mk.inj (Option.some.inj (hrun.symm.trans h))
    exact ⟨rfl, by decide, rfl⟩
  exact ⟨hback, (readsBack_iff rfl (by decide) _).mp hback⟩

/-- A line without an equal sign takes the value away from the lines of
the empty key behind it. -/
theorem not_readsBack_valueGone :
    configReplace "x\n=1\n".toList "=v".toList false = some (1, "x\n=\n".toList)
      ∧ configReplace "K=1\n".toList "K=a\xffb".toList false
        = some (1, "K= a\xffb\n".toList)
      ∧ configReplace "K= a\xffb\n".toList "K=a\xffb".toList false
        = some (1, "K= a\xffb\nb\n".toList)
      ∧ ¬ ReadsBack "x\n=1\n".toList "=v".toList [] ['v'] := by
  have hrun : configReplace "x\n=1\n".toList "=v".toList false
      = some (1, "x\n=\n".toList) := rfl
  refine ⟨hrun, rfl, rfl, fun hback => ?_⟩
  obtain ⟨-, hreads, -⟩ := hback _ _ hrun
  exact absurd (hreads "=\n".toList (by decide) (by decide)) (by decide)

end Yapas
