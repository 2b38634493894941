import Yapas.Completion

/-!
# The editor stays inside its buffers

No operation of the editor leaves a string or the history, whatever keys
are pressed.

A line is seen from its cursor (`AtCursor`): what is in front of it and
what is behind it. Every key has one equation in these terms, and what a
key does to the line and writes on the terminal is one of the cases of
`Effect`.
-/

namespace Yapas

/-! ## Strings -/

/-- The longest beginnings and ends that are passed over lie inside. -/
theorem findLastNotOf_lt {chars s : Text} {n : Nat} (h : findLastNotOf chars s = some n) :
    n < s.length := by
  obtain ⟨i, hi, rfl⟩ := Option.map_eq_some_iff.mp h
  obtain ⟨hlt, -⟩ := List.findIdx?_eq_some_iff_getElem.mp hi
  rw [List.length_reverse] at hlt
  omega

theorem erase_eq {s : Text} {pos : Int} (len : Option Nat) (h : 0 ≤ pos ∧ pos ≤ s.length) :
    ∃ s', erase s pos len = some s' ∧ s' ⊆ s := by
  refine ⟨_, if_pos h, fun c hc => ?_⟩
  rcases List.mem_append.mp hc with hc | hc
  · exact List.mem_of_mem_take hc
  · cases len with
    | none => cases hc
    | some n => exact List.mem_of_mem_drop hc

/-! ## What can be printed -/

def Printable (s : Text) : Prop := ∀ c ∈ s, isPrint c = true

theorem Printable.of_subset {s t : Text} (h : Printable t) (hst : s ⊆ t) : Printable s :=
  fun c hc => h c (hst hc)

theorem Printable.append {s t : Text} (hs : Printable s) (ht : Printable t) :
    Printable (s ++ t) :=
  fun c hc => (List.mem_append.mp hc).elim (hs c) (ht c)

theorem printable_nil : Printable [] := fun _ hc => absurd hc List.not_mem_nil

theorem printable_singleton {c : Char} (h : isPrint c = true) : Printable [c] :=
  fun d hd => by rwa [List.mem_singleton.mp hd]

namespace CmdLine

/-! ## Hints -/

/-- What the list of the candidates is made of. -/
def Listing (s : Text) : Prop := ∀ c ∈ s, isPrint c = true ∨ c = '\n'

theorem listed_listing {common : List Text} (h : ∀ t ∈ common, Printable t) :
    Listing (listed common) := by
  intro c hc
  obtain ⟨t, ht, hc⟩ := List.mem_flatMap.mp hc
  rcases List.mem_append.mp hc with hc | hc
  · have hspace : Printable [' '] := printable_singleton rfl
    exact Or.inl ((h t.1 (List.fst_mem_of_mem_zipIdx ht)).append hspace c hc)
  · split at hc
    · exact Or.inr (List.mem_singleton.mp hc)
    · cases hc

theorem listed_singleton (t : Text) : listed [t] = t ++ [' '] := by
  simp [listed]

/-- The return value, and what `compareHints` leaves in its arguments. -/
structure Compared (count : Nat) (possible appendStr : Text) : Prop where
  listing : Listing possible
  append : Printable appendStr
  single : count = 1 → Printable possible

theorem compareHints_spec {s : CmdLine} (hhints : ∀ t ∈ s.hints, Printable t) :
    ∃ count possible appendStr, s.compareHints [] [] = some (count, possible, appendStr)
      ∧ Compared count possible appendStr := by
  by_cases hempty : s.cmd = []
  · refine ⟨0, [], [], if_pos (List.length_eq_zero_iff.mpr hempty),
      fun _ hc => (List.not_mem_nil hc).elim, printable_nil, fun h => absurd h (by omega)⟩
  obtain ⟨listing, r, hrun, hc⟩ := compareHints_completed hempty [] []
  have hprint : ∀ t ∈ s.matching.common, Printable t := fun t ht =>
    hhints t (continues_of_candidate ht).1
  refine ⟨_, listing, r, hrun, fun c hmem => listed_listing hprint c (hc.listing_subset hmem),
    ?_, fun hone => ?_⟩
  · by_cases hlt : s.matching.common.length < 2
    · rw [hc.few hlt]
      exact printable_nil
    · have hmany : 2 ≤ s.matching.common.length := Nat.le_of_not_lt hlt
      obtain ⟨t, ht⟩ := List.exists_mem_of_length_pos (Nat.lt_of_lt_of_le Nat.zero_lt_two hmany)
      refine (hprint t ht).of_subset fun c hmem => ?_
      exact ((hc.many hmany).shared t ht).subset (List.mem_append_right _ hmem)
  · obtain ⟨t, ht⟩ := List.length_eq_one_iff.mp hone
    rw [hc.listing_eq (Or.inl (by omega)), ht, listed_singleton]
    exact (hprint t (ht ▸ List.mem_singleton_self t)).append (printable_singleton rfl)

/-! ## The line around the cursor -/

/-- The cursor stands between `a` and `b`. -/
structure AtCursor (s : CmdLine) (a b : Text) : Prop where
  cmd : s.cmd = a ++ b
  index : s.mIndex = a.length

section Cursor

variable {s : CmdLine} {a b : Text}

theorem AtCursor.behind (h : s.AtCursor a b) : (s.cmd.length : Int) - s.mIndex = b.length := by
  rw [h.cmd, h.index, List.length_append]
  omega

theorem AtCursor.inside (h : s.AtCursor a b) : 0 ≤ s.mIndex ∧ s.mIndex ≤ s.cmd.length := by
  rw [h.cmd, h.index, List.length_append]
  omega

theorem AtCursor.last (text : Text) (h : s.cmd = text) (hi : s.mIndex = text.length) :
    s.AtCursor text [] :=
  ⟨by rw [h, List.append_nil], hi⟩

theorem exists_atCursor (h : 0 ≤ s.mIndex ∧ s.mIndex ≤ s.cmd.length) :
    ∃ a b, s.AtCursor a b := by
  obtain ⟨n, hn⟩ := Int.eq_ofNat_of_zero_le h.1
  refine ⟨s.cmd.take n, s.cmd.drop n, (List.take_append_drop n s.cmd).symm, ?_⟩
  rw [hn, List.length_take_of_le (by omega)]

/-- What `clearLine` writes with `n` characters in front of the cursor
and `r` from it on. -/
def cleared (n r : Nat) : Text :=
  List.replicate r ' ' ++ List.replicate r '\x08' ++ (List.replicate n '\x08'
    ++ List.replicate n ' ' ++ List.replicate n '\x08')

/-- What is written to put the line from `a b` to `a' b'`. -/
def redrawn (a b a' b' : Text) : Text :=
  cleared a.length b.length ++ (a' ++ b') ++ List.replicate b'.length '\x08'

theorem left_eq (s : CmdLine) (n : Nat) :
    s.left n = some (s.writeLine (List.replicate n '\x08')) := by
  rw [left, if_neg (by omega), Int.toNat_natCast]

theorem space_eq (s : CmdLine) (n : Nat) :
    s.space n = some (s.writeLine (List.replicate n ' ')) := by
  rw [space, if_neg (by omega), Int.toNat_natCast]

theorem writeLine_writeLine (s : CmdLine) (x y : Text) :
    (s.writeLine x).writeLine y = s.writeLine (x ++ y) := by
  rw [writeLine, writeLine, writeLine, List.append_assoc]

theorem clearLine_eq (h : s.AtCursor a b) :
    s.clearLine = some (s.writeLine (cleared a.length b.length)) := by
  have hi : ∀ x, (s.writeLine x).mIndex = a.length := fun _ => h.index
  simp only [clearLine, backSpace, h.behind, space_eq, left_eq, Option.bind_eq_bind,
    Option.bind_some, writeLine_writeLine, hi]
  rw [cleared]
  simp only [List.append_assoc]

theorem showLine_eq (h : s.AtCursor a b) (text : Text) :
    s.showLine text = some { s with
      cmd := text, mIndex := text.length, out := s.out ++ redrawn a b text [] } := by
  rw [showLine, clearLine_eq h, Option.bind_eq_bind, Option.bind_some, writeLine_writeLine,
    redrawn, List.append_nil, List.length_nil, List.replicate_zero, List.append_nil]
  rfl

theorem substr_eq (h : s.AtCursor a b) : substr s.cmd s.mIndex = some b := by
  rw [substr, if_pos h.inside, h.cmd, h.index, Int.toNat_natCast, List.drop_left]

theorem insertChar_eq (h : s.AtCursor a b) (c : Char) :
    insertChar s.cmd s.mIndex c = some (a ++ c :: b) := by
  rw [insertChar, if_pos h.inside, h.cmd, h.index, Int.toNat_natCast, List.drop_left,
    List.take_left]

theorem printKey_eq (h : s.AtCursor a b) (c : Char) :
    s.printKey c = some { s with
      cmd := a ++ c :: b, cmdBuffer := a ++ c :: b, mIndex := a.length + 1
      out := s.out ++ redrawn a b (a ++ [c]) b } := by
  rw [printKey, clearLine_eq h, Option.bind_eq_bind, Option.bind_some]
  show (substr s.cmd s.mIndex).bind _ = _
  rw [substr_eq h, Option.bind_some]
  show (insertChar s.cmd s.mIndex c).bind _ = _
  rw [insertChar_eq h, Option.bind_some]
  simp [left_eq, writeLine, redrawn, h.index]

theorem backspaceKey_eq {c : Char} (h : s.AtCursor (a ++ [c]) b) :
    s.backspaceKey = some { s with
      cmd := a ++ b, mIndex := a.length
      out := s.out ++ redrawn (a ++ [c]) b a b } := by
  have hindex : s.mIndex = a.length + 1 := by
    rw [h.index, List.length_append]
    rfl
  rw [backspaceKey, if_pos (by omega), clearLine_eq h, Option.bind_eq_bind, Option.bind_some]
  show (substr s.cmd s.mIndex).bind _ = _
  rw [substr_eq h, Option.bind_some]
  show (erase s.cmd (s.mIndex - 1) (some 1)).bind _ = _
  have herase : erase s.cmd (s.mIndex - 1) (some 1) = some (a ++ b) := by
    rw [hindex, Int.add_sub_cancel, h.cmd]
    exact erase_append a [c] b
  rw [herase, Option.bind_some]
  simp [left_eq, writeLine, redrawn, hindex]

theorem leftKey_eq {c : Char} (h : s.AtCursor (a ++ [c]) b) :
    s.leftKey = { s with mIndex := a.length, out := s.out ++ ['\x08'] } := by
  have hindex : s.mIndex = a.length + 1 := by
    rw [h.index, List.length_append]
    rfl
  rw [leftKey, hindex, Int.add_sub_cancel]
  rfl

theorem rightKey_eq {c : Char} (h : s.AtCursor a (c :: b)) :
    s.rightKey = some { s with mIndex := a.length + 1, out := s.out ++ [c] } := by
  have hchar : charAt s.cmd s.mIndex.toNat = some c := by
    rw [h.cmd, h.index, Int.toNat_natCast, charAt, if_neg (by simp)]
    simp
  rw [rightKey, hchar, h.index]
  rfl

end Cursor

/-! ## What a key does -/

/-- Every position that the next key may use lies inside its buffer. -/
structure InBuffers (s : CmdLine) : Prop where
  index : 0 ≤ s.mIndex ∧ s.mIndex ≤ s.cmd.length
  history_ne : s.history ≠ []
  curr : 0 ≤ s.curr ∧ s.curr ≤ s.history.length

/-- What every key keeps. -/
structure Sound (s : CmdLine) : Prop extends InBuffers s where
  hints : ∀ t ∈ s.hints, Printable t
  cmd : Printable s.cmd
  cmdBuffer : Printable s.cmdBuffer
  history : ∀ t ∈ s.history, Printable t

/-- A key takes the line `a b` to `a' b'` writing `w`, and the caller is
handed `res`. -/
inductive Effect (prompt : Text) : (a b a' b' w res : Text) → Prop
  | none (a b : Text) : Effect prompt a b a b [] []
  | redraw (a b : Text) {a' b' : Text} (h : Printable (a' ++ b')) :
      Effect prompt a b a' b' (redrawn a b a' b') []
  | left (a b : Text) (c : Char) : Effect prompt (a ++ [c]) b a (c :: b) ['\x08'] []
  | right (a b : Text) {c : Char} (h : isPrint c = true) :
      Effect prompt a (c :: b) (a ++ [c]) b [c] []
  | anew (a b : Text) {above a' : Text} (habove : Listing above) (h : Printable a') :
      Effect prompt a b a' [] (above ++ '\n' :: prompt ++ a') []
  | enter (a b : Text) {res : Text} (h : res ≠ []) : Effect prompt a b [] [] ['\n'] res

/-- The outcome of a key, which stays sound and shows what it does. -/
structure Keeps (s : CmdLine) (a b : Text) (s' : CmdLine) (res : Text) : Prop where
  sound : s'.Sound
  prompt : s'.prompt = s.prompt
  effect : ∃ a' b' w, s'.AtCursor a' b' ∧ s'.out = s.out ++ w ∧ Effect s.prompt a b a' b' w res

section Keys

variable {s : CmdLine} {a b : Text}

/-- Another line, and another place in the history. -/
theorem Sound.line (hs : s.Sound) {curr mIndex lastKey : Int} {cmd out : Text}
    (hcurr : 0 ≤ curr ∧ curr ≤ s.history.length) (hcmd : Printable cmd)
    (hindex : 0 ≤ mIndex ∧ mIndex ≤ cmd.length) :
    Sound { s with curr := curr, cmd := cmd, mIndex := mIndex, lastKey := lastKey, out := out } :=
  ⟨⟨hindex, hs.history_ne, hcurr⟩, hs.hints, hcmd, hs.cmdBuffer, hs.history⟩

theorem keeps_self (hs : s.Sound) (h : s.AtCursor a b) : Keeps s a b s [] :=
  ⟨hs, rfl, a, b, [], h, (List.append_nil _).symm, Effect.none a b⟩

/-- The line is replaced by `text`. -/
theorem keeps_shown (hs : s.Sound) {text : Text} {curr lastKey : Int} (htext : Printable text)
    (hcurr : 0 ≤ curr ∧ curr ≤ s.history.length) :
    Keeps s a b { s with
      curr := curr, cmd := text, mIndex := text.length, lastKey := lastKey
      out := s.out ++ redrawn a b text [] } [] where
  sound := hs.line hcurr htext ⟨Int.natCast_nonneg _, Int.le_refl _⟩
  prompt := rfl
  effect := ⟨text, [], _, AtCursor.last text rfl rfl, rfl,
    Effect.redraw a b (htext.append printable_nil)⟩

/-- The command is what is left of the line without the blanks around it. -/
theorem trim_eq (cmd : Text) : ∃ part text, erase cmd 0 (findFirstNotOf [' '] cmd) = some part
    ∧ erase part ((findLastNotOf [' ', '\t', '\n', '\r'] part).elim 0 (· + 1)) none = some text
    ∧ text ⊆ cmd := by
  have hzero : (0 : Int) ≤ 0 ∧ (0 : Int) ≤ cmd.length := ⟨Int.le_refl 0, Int.natCast_nonneg _⟩
  obtain ⟨part, hpart, hsub⟩ := erase_eq (findFirstNotOf [' '] cmd) hzero
  have hpos : (0 : Int) ≤ (findLastNotOf [' ', '\t', '\n', '\r'] part).elim (0 : Int) (· + 1) ∧
      (findLastNotOf [' ', '\t', '\n', '\r'] part).elim (0 : Int) (· + 1) ≤ part.length := by
    cases hn : findLastNotOf [' ', '\t', '\n', '\r'] part with
    | none => exact ⟨Int.le_refl 0, Int.natCast_nonneg _⟩
    | some n =>
        have hlt := findLastNotOf_lt hn
        show (0 : Int) ≤ n + 1 ∧ (n + 1 : Int) ≤ part.length
        omega
  obtain ⟨text, htext, hsub'⟩ := erase_eq none hpos
  exact ⟨part, text, hpart, htext, List.Subset.trans hsub' hsub⟩

/-- The line is taken, and recorded unless it is blank or the last one
again. -/
theorem enterKey_eq (hs : s.InBuffers) : ∃ text ⊆ s.cmd,
    (text = [] ∧ s.enterKey = some ({ s with
        cmd := [], cmdBuffer := [], mIndex := 0, out := s.out ++ '\n' :: s.prompt }, []))
    ∨ (text ≠ [] ∧ ∃ history, (history = s.history ∨ history = s.history ++ [text])
      ∧ s.enterKey = some ({ s with
          history := history, curr := history.length
          cmd := [], cmdBuffer := [], mIndex := 0, out := s.out ++ ['\n'] }, text)) := by
  obtain ⟨part, text, hpart, htext, hsub⟩ := trim_eq s.cmd
  refine ⟨text, hsub, ?_⟩
  rw [enterKey]
  simp only [writeLine, Option.bind_eq_bind]
  rw [hpart, Option.bind_some, htext, Option.bind_some]
  by_cases hnil : text = []
  · refine Or.inl ⟨hnil, ?_⟩
    rw [if_pos hnil, Option.bind_some, hnil]
    simp
  · refine Or.inr ⟨hnil, if s.history.getLast hs.history_ne ≠ text then s.history ++ [text]
      else s.history, ?_, ?_⟩
    · split
      · exact Or.inr rfl
      · exact Or.inl rfl
    · rw [if_neg hnil, List.getLast?_eq_some_getLast hs.history_ne]
      rfl

theorem enterKey_keeps (hs : s.Sound) : ∃ s' res, s.enterKey = some (s', res) ∧
    Keeps s a b s' res := by
  obtain ⟨text, hsub, ⟨hnil, henter⟩ | ⟨hne, history, hhistory, henter⟩⟩ :=
    enterKey_eq hs.toInBuffers
  · refine ⟨_, _, henter, ?_, rfl, [], [], '\n' :: s.prompt ++ [], ⟨rfl, rfl⟩, ?_, ?_⟩
    · exact ⟨⟨⟨Int.le_refl 0, Int.le_refl 0⟩, hs.history_ne, hs.curr⟩, hs.hints, printable_nil,
        printable_nil, hs.history⟩
    · rw [List.append_nil]
    · exact Effect.anew a b (fun _ hc => (List.not_mem_nil hc).elim) printable_nil
  · have hclean : Printable text := hs.cmd.of_subset hsub
    obtain ⟨hne', hprint⟩ : history ≠ [] ∧ ∀ t ∈ history, Printable t := by
      rcases hhistory with rfl | rfl
      · exact ⟨hs.history_ne, hs.history⟩
      · exact ⟨List.concat_ne_nil _ _,
          List.forall_mem_append.mpr ⟨hs.history, List.forall_mem_singleton.mpr hclean⟩⟩
    refine ⟨_, _, henter, ?_, rfl, [], [], ['\n'], ⟨rfl, rfl⟩, rfl, Effect.enter a b hne⟩
    exact ⟨⟨⟨Int.le_refl 0, Int.le_refl 0⟩, hne', Int.natCast_nonneg _, Int.le_refl _⟩, hs.hints,
      printable_nil, printable_nil, hprint⟩

theorem printKey_keeps (hs : s.Sound) (h : s.AtCursor a b) {c : Char} (hc : isPrint c = true) :
    ∃ s', s.printKey c = some s' ∧ Keeps s a b s' [] := by
  have hcmd : Printable (a ++ c :: b) := by
    have hab := h.cmd ▸ hs.cmd
    intro d hd
    rcases List.mem_append.mp hd with hd | hd
    · exact hab d (List.mem_append_left b hd)
    · rcases List.mem_cons.mp hd with rfl | hd
      · exact hc
      · exact hab d (List.mem_append_right a hd)
  have hassoc : a ++ c :: b = a ++ [c] ++ b := List.append_cons a c b
  have hlen : ((a ++ [c]).length : Int) = a.length + 1 := by
    rw [List.length_append]
    rfl
  refine ⟨_, printKey_eq h c, ⟨⟨?_, hs.history_ne, hs.curr⟩, hs.hints, hcmd, hcmd, hs.history⟩,
    rfl, a ++ [c], b, _, ⟨hassoc, hlen.symm⟩, rfl, Effect.redraw a b (hassoc ▸ hcmd)⟩
  show (0 : Int) ≤ a.length + 1 ∧ (a.length + 1 : Int) ≤ (a ++ c :: b).length
  rw [List.length_append, List.length_cons]
  omega

theorem backspaceKey_keeps (hs : s.Sound) (h : s.AtCursor a b) :
    ∃ s', s.backspaceKey = some s' ∧ Keeps s a b s' [] := by
  rcases List.eq_nil_or_concat a with rfl | ⟨a, c, rfl⟩
  · refine ⟨s, if_neg ?_, keeps_self hs h⟩
    rw [h.index]
    exact Int.lt_irrefl 0
  · rw [List.concat_eq_append] at h ⊢
    have hcmd : Printable (a ++ b) := hs.cmd.of_subset fun d hd => by
      rw [h.cmd]
      rcases List.mem_append.mp hd with hd | hd
      · exact List.mem_append_left b (List.mem_append_left [c] hd)
      · exact List.mem_append_right _ hd
    have hindex : (0 : Int) ≤ a.length ∧ (a.length : Int) ≤ (a ++ b).length := by
      rw [List.length_append]
      omega
    exact ⟨_, backspaceKey_eq h, hs.line hs.curr hcmd hindex, rfl, a, b, _, ⟨rfl, rfl⟩, rfl,
      Effect.redraw _ b hcmd⟩

/-- The iterator points to the `n`-th line of the history, which is shown. -/
def recalled (s : CmdLine) (a b : Text) (n : Nat) (text : Text) : CmdLine :=
  { s with curr := n, cmd := text, mIndex := text.length, out := s.out ++ redrawn a b text [] }

theorem deref_eq {n : Nat} (h : n < s.history.length) :
    ∃ text, s.history[n]? = some text ∧ { s with curr := n }.deref = some text := by
  refine ⟨s.history[n], List.getElem?_eq_getElem h, ?_⟩
  rw [deref, if_neg (Int.not_lt.mpr (Int.natCast_nonneg n)), Int.toNat_natCast]
  exact List.getElem?_eq_getElem h

/-- The line is replaced by the one that the iterator points to. -/
theorem showDeref_eq (h : s.AtCursor a b) {n : Nat} (hn : n < s.history.length) :
    ∃ text, s.history[n]? = some text
      ∧ ({ s with curr := n }.deref).bind { s with curr := n }.showLine
        = some (s.recalled a b n text) := by
  obtain ⟨text, htext, hderef⟩ := deref_eq hn
  have hcursor : { s with curr := n }.AtCursor a b := ⟨h.cmd, h.index⟩
  refine ⟨text, htext, ?_⟩
  rw [hderef, Option.bind_some, showLine_eq hcursor]
  rfl

/-- A line of the history is shown, and the iterator is not at the end. -/
theorem upKey_eq (hs : s.InBuffers) (h : s.AtCursor a b) :
    ∃ n text, s.history[n]? = some text ∧ s.upKey = some (s.recalled a b n text) := by
  obtain ⟨n, hn⟩ := Int.eq_ofNat_of_zero_le hs.curr.1
  have hle : n ≤ s.history.length := by
    have := hs.curr.2
    omega
  have hpos := List.length_pos_iff.mpr hs.history_ne
  rw [upKey, hn]
  split
  · rename_i hbegin
    obtain ⟨text, htext, hshow⟩ := showDeref_eq h hpos
    refine ⟨0, text, htext, ?_⟩
    rw [← hshow, ← (Int.natCast_eq_zero.mp hbegin : n = 0), ← hn]
    rfl
  · rename_i hbegin
    have hprev : (n : Int) - 1 = (n - 1 : Nat) := by omega
    rw [hprev]
    obtain ⟨text, htext, hderef⟩ := deref_eq (show n - 1 < s.history.length by omega)
    have hgoal : ∀ m < s.history.length, ∃ k text, s.history[k]? = some text
        ∧ ({ s with curr := m }.deref).bind { s with curr := m }.showLine
          = some (s.recalled a b k text) := fun m hm => ⟨m, showDeref_eq h hm⟩
    show ∃ (k : Nat) (text' : Text), s.history[k]? = some text'
      ∧ Option.bind (deref { s with curr := (n - 1 : Nat) }) _ = _
    rw [hderef, Option.bind_some]
    split
    · rename_i hsame
      have hbegin' : ((n - 1 : Nat) : Int) ≠ 0 := hsame.2
      have hprev' : ((n - 1 : Nat) : Int) - 1 = (n - 2 : Nat) := by omega
      rw [hprev']
      exact hgoal (n - 2) (by omega)
    · exact hgoal (n - 1) (by omega)

theorem downKey_end (h : s.curr = s.history.length) : s.downKey = some s := if_pos h

/-- Behind the last line of the history stands the line that has been
typed, if there is one. -/
theorem downKey_last (h : s.AtCursor a b) (hlast : s.curr = s.history.length - 1) :
    s.downKey = some (if s.cmdBuffer = [] then { s with curr := s.history.length }
      else { s with
        curr := s.history.length, cmd := s.cmdBuffer, mIndex := s.cmdBuffer.length
        out := s.out ++ redrawn a b s.cmdBuffer [] }) := by
  have hnext : s.curr + 1 = s.history.length := by omega
  rw [downKey, if_neg (by omega), if_pos hlast]
  by_cases hnil : s.cmdBuffer = []
  · refine (if_neg (not_not_intro (List.length_eq_zero_iff.mpr hnil))).trans ?_
    rw [if_pos hnil, ← hnext]
    rfl
  · refine (if_pos (mt List.length_eq_zero_iff.mp hnil)).trans ?_
    rw [if_neg hnil, showLine_eq h, ← hnext]
    rfl

theorem downKey_inside (h : s.AtCursor a b) {n : Nat} (hcurr : s.curr = n)
    (hn : n + 1 < s.history.length) :
    ∃ text, s.history[n + 1]? = some text
      ∧ s.downKey = some (s.recalled a b (n + 1) text) := by
  obtain ⟨text, htext, hshow⟩ := showDeref_eq h hn
  refine ⟨text, htext, ?_⟩
  rw [downKey, if_neg (by omega), if_neg (by omega), hcurr]
  exact hshow

theorem recalled_keeps (hs : s.Sound) {n : Nat} {text : Text} (h : s.history[n]? = some text) :
    Keeps s a b (s.recalled a b n text) [] := by
  obtain ⟨hn, -⟩ := List.getElem?_eq_some_iff.mp h
  exact keeps_shown hs (hs.history text (List.mem_of_getElem? h))
    ⟨Int.natCast_nonneg n, Int.ofNat_le.mpr (Nat.le_of_lt hn)⟩

theorem upKey_keeps (hs : s.Sound) (h : s.AtCursor a b) :
    ∃ s', s.upKey = some s' ∧ Keeps s a b s' [] := by
  obtain ⟨n, text, htext, hup⟩ := upKey_eq hs.toInBuffers h
  exact ⟨_, hup, recalled_keeps hs htext⟩

theorem downKey_keeps (hs : s.Sound) (h : s.AtCursor a b) :
    ∃ s', s.downKey = some s' ∧ Keeps s a b s' [] := by
  obtain ⟨n, hn⟩ := Int.eq_ofNat_of_zero_le hs.curr.1
  have hle := hs.curr.2
  have hend : (0 : Int) ≤ s.history.length ∧ (s.history.length : Int) ≤ s.history.length :=
    ⟨Int.natCast_nonneg _, Int.le_refl _⟩
  by_cases hcurr : s.curr = s.history.length
  · exact ⟨s, downKey_end hcurr, keeps_self hs h⟩
  by_cases hlast : s.curr = s.history.length - 1
  · refine ⟨_, downKey_last h hlast, ?_⟩
    split
    · exact ⟨hs.line hend hs.cmd hs.index, rfl, a, b, [], ⟨h.cmd, h.index⟩,
        (List.append_nil _).symm, Effect.none a b⟩
    · exact keeps_shown hs hs.cmdBuffer hend
  · obtain ⟨text, htext, hdown⟩ := downKey_inside h hn (by omega)
    exact ⟨_, hdown, recalled_keeps hs htext⟩

theorem leftKey_keeps (hs : s.Sound) (h : s.AtCursor a b) (hpos : 0 < s.mIndex) :
    Keeps s a b s.leftKey [] := by
  rcases List.eq_nil_or_concat a with rfl | ⟨a, c, rfl⟩
  · rw [h.index] at hpos
    exact absurd hpos (Int.lt_irrefl 0)
  · rw [List.concat_eq_append] at h ⊢
    have hcmd : s.cmd = a ++ c :: b := by rw [h.cmd, ← List.append_cons]
    have hindex : (0 : Int) ≤ a.length ∧ (a.length : Int) ≤ s.cmd.length := by
      rw [hcmd, List.length_append]
      omega
    rw [leftKey_eq h]
    exact ⟨hs.line hs.curr hs.cmd hindex, rfl, a, c :: b, _, ⟨hcmd, rfl⟩, rfl, Effect.left a b c⟩

theorem rightKey_keeps (hs : s.Sound) (h : s.AtCursor a b) (hlt : s.mIndex < s.cmd.length) :
    ∃ s', s.rightKey = some s' ∧ Keeps s a b s' [] := by
  cases b with
  | nil =>
      rw [h.index, h.cmd, List.append_nil] at hlt
      exact absurd hlt (Int.lt_irrefl _)
  | cons c b =>
      have hc : isPrint c = true := hs.cmd c (by rw [h.cmd]; simp)
      have hcmd : s.cmd = a ++ [c] ++ b := by rw [h.cmd, List.append_cons]
      have hlen : ((a ++ [c]).length : Int) = a.length + 1 := by
        rw [List.length_append]
        rfl
      have hindex : (0 : Int) ≤ a.length + 1 ∧ (a.length + 1 : Int) ≤ s.cmd.length := by
        rw [h.cmd, List.length_append, List.length_cons]
        omega
      exact ⟨_, rightKey_eq h, hs.line hs.curr hs.cmd hindex, rfl, a ++ [c], b, _,
        ⟨hcmd, hlen.symm⟩, rfl, Effect.right a b hc⟩

theorem escapeKey_keeps (hs : s.Sound) (h : s.AtCursor a b) (b0 b1 : Char) :
    ∃ s', s.escapeKey b0 b1 = some s' ∧ Keeps s a b s' [] := by
  rw [escapeKey]
  split
  · exact upKey_keeps hs h
  split
  · exact downKey_keeps hs h
  split
  · rename_i hleft
    exact ⟨_, rfl, leftKey_keeps hs h hleft.2.2⟩
  split
  · rename_i hright
    exact rightKey_keeps hs h hright.2.2.2
  · exact ⟨s, rfl, keeps_self hs h⟩

theorem tabKey_listing {count : Nat} {possible appendStr : Text}
    (hcompare : s.compareHints [] [] = some (count, possible, appendStr))
    (h : 1 < count ∧ s.lastKey = charInt '\t') :
    s.tabKey = some { s with
      cmd := s.cmd ++ appendStr, mIndex := (s.cmd ++ appendStr).length
      out := s.out ++ ('\n' :: possible ++ '\n' :: s.prompt ++ (s.cmd ++ appendStr)) } := by
  rw [tabKey, hcompare, Option.bind_eq_bind, Option.bind_some]
  refine (if_pos h).trans ?_
  simp [writeLine]

theorem tabKey_single {possible appendStr : Text}
    (hcompare : s.compareHints [] [] = some (1, possible, appendStr)) (h : s.AtCursor a b) :
    s.tabKey = some { s with
      cmd := possible, mIndex := possible.length, lastKey := 0
      out := s.out ++ redrawn a b possible [] } := by
  rw [tabKey, hcompare, Option.bind_eq_bind, Option.bind_some]
  refine (if_neg fun h => absurd h.1 (Nat.lt_irrefl 1)).trans ?_
  rw [if_pos rfl, clearLine_eq h, Option.bind_eq_bind, Option.bind_some, writeLine_writeLine]
  simp [writeLine, redrawn]

theorem tabKey_idle {count : Nat} {possible appendStr : Text}
    (hcompare : s.compareHints [] [] = some (count, possible, appendStr))
    (h : ¬(1 < count ∧ s.lastKey = charInt '\t')) (hone : count ≠ 1) : s.tabKey = some s := by
  rw [tabKey, hcompare, Option.bind_eq_bind, Option.bind_some]
  exact (if_neg h).trans (if_neg hone)

theorem tabKey_keeps (hs : s.Sound) (h : s.AtCursor a b) :
    ∃ s', s.tabKey = some s' ∧ Keeps s a b s' [] := by
  obtain ⟨count, possible, appendStr, hcompare, hc⟩ := compareHints_spec hs.hints
  by_cases hlist : 1 < count ∧ s.lastKey = charInt '\t'
  · have hcmd : Printable (s.cmd ++ appendStr) := hs.cmd.append hc.append
    have habove : Listing ('\n' :: possible) := fun c hmem =>
      (List.mem_cons.mp hmem).elim Or.inr (hc.listing c)
    exact ⟨_, tabKey_listing hcompare hlist,
      hs.line hs.curr hcmd ⟨Int.natCast_nonneg _, Int.le_refl _⟩, rfl, s.cmd ++ appendStr, [], _,
      AtCursor.last _ rfl rfl, rfl, Effect.anew a b habove hcmd⟩
  by_cases hone : count = 1
  · subst hone
    exact ⟨_, tabKey_single hcompare h, keeps_shown hs (hc.single rfl) hs.curr⟩
  · exact ⟨s, tabKey_idle hcompare hlist hone, keeps_self hs h⟩

/-- `last_key` is all that is left to be set. -/
theorem keeps_lastKey {s' : CmdLine} {res : Text} (h : Keeps s a b s' res) (lastKey : Int) :
    Keeps s a b { s' with lastKey := lastKey } res := by
  obtain ⟨hs, hprompt, a', b', w, hcursor, hout, heffect⟩ := h
  exact ⟨hs.line hs.curr hs.cmd hs.index, hprompt, a', b', w, ⟨hcursor.cmd, hcursor.index⟩, hout,
    heffect⟩

/-- What is done for the key read. -/
def press (s : CmdLine) (k : Key) : Option (CmdLine × Text) :=
  if k.c = '\n' then s.enterKey
  else if k.c = '\t' then s.tabKey.map (·, [])
  else if k.c = '\x7f' ∨ k.c = '\x08' then s.backspaceKey.map (·, [])
  else if k.c = '\x1b' then (s.escapeKey k.b0 k.b1).map (·, [])
  else if isPrint k.c then (s.printKey k.c).map (·, [])
  else some (s, [])

theorem readLine_eq (s : CmdLine) (k : Key) :
    s.readLine k = (s.press k).map fun r => ({ r.1 with lastKey := charInt k.c }, r.2) := by
  have hmap : ∀ o : Option (CmdLine × Text),
      (o.bind fun r => some ({ r.1 with lastKey := charInt k.c }, r.2))
        = o.map fun r => ({ r.1 with lastKey := charInt k.c }, r.2) := by
    rintro (_ | _) <;> rfl
  rw [readLine, press]
  split_ifs <;> exact hmap _

theorem press_keeps (hs : s.Sound) (h : s.AtCursor a b) (k : Key) :
    ∃ s' res, s.press k = some (s', res) ∧ Keeps s a b s' res := by
  have hsilent : ∀ o : Option CmdLine, (∃ s', o = some s' ∧ Keeps s a b s' []) →
      ∃ s' res, o.map (·, []) = some (s', res) ∧ Keeps s a b s' res := by
    rintro o ⟨s', rfl, hk⟩
    exact ⟨s', [], rfl, hk⟩
  rw [press]
  split
  · exact enterKey_keeps hs
  split
  · exact hsilent _ (tabKey_keeps hs h)
  split
  · exact hsilent _ (backspaceKey_keeps hs h)
  split
  · exact hsilent _ (escapeKey_keeps hs h k.b0 k.b1)
  split
  · rename_i hprint
    exact hsilent _ (printKey_keeps hs h hprint)
  · exact ⟨s, [], rfl, keeps_self hs h⟩

/-- The step: a key finds every position it uses. -/
theorem readLine_keeps (hs : s.Sound) (h : s.AtCursor a b) (k : Key) :
    ∃ s' res, s.readLine k = some (s', res) ∧ Keeps s a b s' res := by
  obtain ⟨s', res, hpress, hkeeps⟩ := press_keeps hs h k
  rw [readLine_eq, hpress]
  exact ⟨_, res, rfl, keeps_lastKey hkeeps _⟩

end Keys

/-! ## Runs -/

/-- The keys pressed one after the other. -/
def pressed (s : CmdLine) : List Key → Option CmdLine
  | [] => some s
  | k :: keys => (s.readLine k).bind fun r => pressed r.1 keys

theorem new_sound {hints : List Text} (h : ∀ t ∈ hints, Printable t) (prompt : Text)
    (lastKey : Int) : (new prompt hints lastKey).Sound where
  index := ⟨Int.le_refl 0, Int.le_refl 0⟩
  history_ne := List.cons_ne_nil _ _
  curr := ⟨Int.one_nonneg, Int.le_refl 1⟩
  hints := h
  cmd := printable_nil
  cmdBuffer := printable_nil
  history := fun t ht => by
    have hall : "help".toList.all isPrint = true := rfl
    rw [List.mem_singleton.mp ht]
    exact List.all_eq_true.mp hall

theorem pressed_sound {s : CmdLine} (hs : s.Sound) : ∀ keys : List Key,
    ∃ s', s.pressed keys = some s' ∧ s'.Sound := by
  intro keys
  induction keys generalizing s with
  | nil => exact ⟨s, rfl, hs⟩
  | cons k keys ih =>
      obtain ⟨a, b, hcursor⟩ := exists_atCursor hs.index
      obtain ⟨s', res, hread, hkeeps⟩ := readLine_keeps hs hcursor k
      rw [pressed, hread, Option.bind_some]
      exact ih hkeeps.sound

/-- Whatever keys are pressed, no string and no container is left. -/
theorem pressed_inBuffers {hints : List Text} (h : ∀ t ∈ hints, Printable t) (prompt : Text)
    (lastKey : Int) (keys : List Key) :
    ∃ s, (new prompt hints lastKey).pressed keys = some s ∧ s.InBuffers := by
  obtain ⟨s, hrun, hs⟩ := pressed_sound (new_sound h prompt lastKey) keys
  exact ⟨s, hrun, hs.toInBuffers⟩

/-- An `e` is completed, the cursor goes back one place, and an `x` is
put there. -/
def testKeys : List Key :=
  [⟨'e', ' ', ' '⟩, ⟨'\t', ' ', ' '⟩, ⟨'\x1b', '[', 'D'⟩, ⟨'x', ' ', ' '⟩]

theorem testHints_printable : ∀ t ∈ testHints, Printable t := by
  have hall : testHints.all (·.all isPrint) = true := rfl
  exact fun t ht => List.all_eq_true.mp (List.all_eq_true.mp hall t ht)

theorem testPrompt_printable : Printable testPrompt := by
  have hall : testPrompt.all isPrint = true := rfl
  exact List.all_eq_true.mp hall

theorem pressed_inBuffers_testHints : (∀ t ∈ testHints, Printable t) ∧
    ∃ s, (new testPrompt testHints 0).pressed testKeys = some s ∧ s.InBuffers :=
  ⟨testHints_printable, pressed_inBuffers testHints_printable testPrompt 0 testKeys⟩

example : ((new testPrompt testHints 0).pressed testKeys).map cmd = some "envx ".toList := rfl

end CmdLine

end Yapas
