import Yapas.Editor
import Yapas.Session
import Yapas.Zipper

/-!
# What the command line is for

An editor for command lines, without strings, positions and a terminal:
a line with a cursor, what has been typed of it, and the lines entered
before. `LineEditor` says what every key does to these; nothing in it can
fail.

`CmdLine` implements it: whatever is pressed, what `readLine` returns is
what this editor hands out (`entered_session`). A completion is as long
as the loop in `compareHints` lets it be, so the hints are to be shorter
than 65535 and free of NUL.
-/

namespace Yapas

/-! ## The editor -/

/-- Without the blanks in front of it and behind it. -/
def trimmed (line : Text) : Text :=
  (line.dropWhile (· = ' ')).rdropWhile ([' ', '\t', '\n', '\r'].contains ·)

/-- A line entered twice in a row is recorded once. -/
def remember (history : List Text) (line : Text) : List Text :=
  if history.getLast? = some line then history else history ++ [line]

/-- `kept` is the line as it was typed last; `place` is where the line
shown stands among those entered before, the end for a new line. `tabbed`
says that the last key was Tab. -/
structure LineEditor where
  line : Zipper Char
  kept : Text
  history : List Text
  place : Nat
  tabbed : Bool
  place_le : place ≤ history.length

namespace LineEditor

variable (e : LineEditor)

def start (tabbed : Bool) : LineEditor where
  line := .empty
  kept := []
  history := ["help".toList]
  place := 1
  tabbed := tabbed
  place_le := Nat.le_refl ["help".toList].length

def text : Text := e.line.toList

/-- The line is taken, and the next one is empty. -/
def enter : Text × LineEditor :=
  let line := trimmed e.text
  (line, if line = [] then { e with line := .empty, kept := [] } else
    { e with
      line := .empty
      kept := []
      history := remember e.history line
      place := (remember e.history line).length
      place_le := Nat.le_refl _ })

/-- A line entered before is shown. -/
def goTo (n : Nat) : LineEditor :=
  if h : n < e.history.length then
    { e with line := .ofList (e.history.get ⟨n, h⟩), place := n, place_le := Nat.le_of_lt h }
  else e

/-- The line above the one shown, and the next but one where that is no
other. -/
def above : Nat :=
  if 0 < e.place ∧ e.history[e.place - 1]? = some e.text then e.place - 2 else e.place - 1

/-- The line below; below the last one is the line as it was typed. -/
def down : LineEditor :=
  if e.place + 1 = e.history.length then
    { e with
      line := if e.kept = [] then e.line else .ofList e.kept
      place := e.history.length
      place_le := Nat.le_refl _ }
  else e.goTo (e.place + 1)

def arrow (b0 b1 : Char) : LineEditor :=
  if b0 = '[' ∧ b1 = 'A' then e.goTo e.above
  else if b0 = '[' ∧ b1 = 'B' then e.down
  else if b0 = '[' ∧ b1 = 'D' then { e with line := e.line.left }
  else if b0 = '[' ∧ b1 = 'C' then { e with line := e.line.right }
  else e

def typeChar (c : Char) : LineEditor :=
  { e with line := e.line.insert c, kept := (e.line.insert c).toList }

/-- The only candidate, or what several share once Tab is pressed
again. -/
def complete (hints : List Text) : LineEditor :=
  match if e.text = [] then [] else CmdLine.found e.text hints with
  | [] => e
  | [t] => { e with line := .ofList (t ++ [' ']) }
  | ts => if e.tabbed then { e with line := .ofList (longestPrefix ts) } else e

def press (hints : List Text) (k : Key) : Text × LineEditor :=
  if k.c = '\n' then e.enter
  else ([], if k.c = '\t' then e.complete hints
    else if k.c = '\x7f' ∨ k.c = '\x08' then { e with line := e.line.delete }
    else if k.c = '\x1b' then e.arrow k.b0 k.b1
    else if isPrint k.c then e.typeChar k.c
    else e)

def isTab (k : Key) : Bool := charInt k.c = charInt '\t'

/-- What is handed out, nothing where a line is blank or goes on. -/
def step (hints : List Text) (e : LineEditor) (k : Key) : Text × LineEditor :=
  ((e.press hints k).1, { (e.press hints k).2 with tabbed := isTab k })

end LineEditor

namespace CmdLine

open LineEditor

/-! ## The line that is taken -/

theorem dropWhile_contains {chars s : Text} : s.dropWhile (chars.contains ·)
    = (findFirstNotOf chars s).elim [] fun n => s.drop n := by
  rw [findFirstNotOf, List.dropWhile_eq_drop_findIdx_not]
  cases hn : s.findIdx? fun c => !chars.contains c with
  | none =>
      rw [List.findIdx?_eq_none_iff_findIdx_eq.mp hn, List.drop_length]
      rfl
  | some n =>
      rw [(List.findIdx?_eq_some_iff_findIdx_eq.mp hn).2]
      rfl

theorem erase_first (chars s : Text) :
    erase s 0 (findFirstNotOf chars s) = some (s.dropWhile (chars.contains ·)) := by
  rw [erase, if_pos ⟨Int.le_refl 0, Int.natCast_nonneg _⟩, dropWhile_contains]
  simp

theorem erase_last (chars s : Text) :
    erase s ((findLastNotOf chars s).elim 0 (· + 1)) none
      = some (s.rdropWhile (chars.contains ·)) := by
  rw [List.rdropWhile, dropWhile_contains, findLastNotOf]
  cases hn : findFirstNotOf chars s.reverse with
  | none =>
      rw [erase, if_pos ⟨Int.le_refl 0, Int.natCast_nonneg _⟩]
      rfl
  | some n =>
      have hlt := (List.findIdx?_eq_some_iff_findIdx_eq.mp hn).1
      rw [List.length_reverse] at hlt
      have hpos : ((s.length - 1 - n : Nat) : Int) + 1 = (s.length - n : Nat) := by omega
      show erase s (((s.length - 1 - n : Nat) : Int) + 1) none = some (s.reverse.drop n).reverse
      rw [hpos, erase, if_pos ⟨Int.natCast_nonneg _, by omega⟩, Int.toNat_natCast,
        List.drop_reverse, List.reverse_reverse]
      exact congrArg some (List.append_nil _)

theorem enterKey_trimmed {s : CmdLine} (hne : s.history ≠ []) : s.enterKey
    = some (if trimmed s.cmd = [] then ({ s with
        cmd := [], cmdBuffer := [], mIndex := 0, out := s.out ++ '\n' :: s.prompt }, [])
      else ({ s with
        history := remember s.history (trimmed s.cmd)
        curr := (remember s.history (trimmed s.cmd)).length
        cmd := [], cmdBuffer := [], mIndex := 0, out := s.out ++ ['\n'] }, trimmed s.cmd)) := by
  have hblank : ∀ s : Text, s.dropWhile ([' '].contains ·) = s.dropWhile (· = ' ') := by
    intro s
    congr 1
    funext c
    simp
  rw [enterKey]
  simp only [writeLine, Option.bind_eq_bind]
  rw [erase_first, Option.bind_some, erase_last, Option.bind_some, hblank, ← trimmed]
  by_cases hnil : trimmed s.cmd = []
  · rw [if_pos hnil, if_pos hnil, Option.bind_some, hnil]
    simp
  · rw [if_neg hnil, if_neg hnil, List.getLast?_eq_some_getLast hne]
    simp only [Option.bind_some, remember, List.getLast?_eq_some_getLast hne, Option.some.injEq,
      ne_eq, ite_not]
    rfl

/-! ## The lines entered before -/

theorem upKey_above {s : CmdLine} {a b : Text} (h : s.AtCursor a b) {n : Nat} (hcurr : s.curr = n)
    (hle : n ≤ s.history.length) (hne : s.history ≠ []) {m : Nat}
    (hm : m = if 0 < n ∧ s.history[n - 1]? = some s.cmd then n - 2 else n - 1) :
    ∃ text, s.history[m]? = some text ∧ s.upKey = some (s.recalled a b m text) := by
  have hpos := List.length_pos_iff.mpr hne
  rw [upKey, hcurr]
  split
  · rename_i hbegin
    obtain rfl : n = 0 := Int.natCast_eq_zero.mp hbegin
    rw [if_neg fun h => Nat.lt_irrefl 0 h.1, Nat.zero_sub] at hm
    subst hm
    obtain ⟨text, htext, hshow⟩ := showDeref_eq h hpos
    refine ⟨text, htext, ?_⟩
    rw [← hshow, ← hcurr]
    rfl
  · rename_i hbegin
    have hprev : (n : Int) - 1 = (n - 1 : Nat) := by omega
    rw [hprev]
    obtain ⟨text, htext, hderef⟩ := deref_eq (show n - 1 < s.history.length by omega)
    have hshown : ∀ m < s.history.length, ∃ text, s.history[m]? = some text
        ∧ ({ s with curr := m }.deref).bind { s with curr := m }.showLine
          = some (s.recalled a b m text) := fun m => showDeref_eq h
    show ∃ text' : Text, s.history[m]? = some text'
      ∧ Option.bind (deref { s with curr := (n - 1 : Nat) }) _ = _
    rw [hderef, Option.bind_some]
    have hiff : s.history[n - 1]? = some s.cmd ↔ text = s.cmd := by rw [htext, Option.some.injEq]
    split
    · rename_i hsame
      have hbegin' : ((n - 1 : Nat) : Int) ≠ 0 := hsame.2
      rw [if_pos ⟨by omega, hiff.mpr hsame.1⟩] at hm
      have hprev' : ((n - 1 : Nat) : Int) - 1 = (n - 2 : Nat) := by omega
      rw [hprev', ← hm]
      exact hshown m (by omega)
    · rename_i hother
      have hm' : m = n - 1 := by
        split at hm
        · rename_i hsame
          have hzero : ((n - 1 : Nat) : Int) = 0 :=
            by_contra fun hn => hother ⟨hiff.mp hsame.2, hn⟩
          omega
        · exact hm
      rw [← hm']
      exact hshown m (by omega)

/-! ## The two editors side by side -/

/-- The command line is at the same point as the editor, whatever the
last key was. -/
structure Holds (hints : List Text) (s : CmdLine) (e : LineEditor) : Prop where
  cursor : s.AtCursor e.line.before.reverse e.line.behind
  cmdBuffer_eq : s.cmdBuffer = e.kept
  history_eq : s.history = e.history
  curr : s.curr = e.place
  history_ne : s.history ≠ []
  hints_eq : s.hints = hints

section Keys

variable {hints : List Text} {s : CmdLine} {e : LineEditor}

theorem Holds.text_eq (h : Holds hints s e) : s.cmd = e.text := h.cursor.cmd

theorem Holds.curr_le (h : Holds hints s e) : e.place ≤ s.history.length :=
  h.history_eq ▸ e.place_le

/-- The whole line has been replaced, and the cursor is at its end. -/
theorem AtCursor.ofList {s : CmdLine} {text : Text} (h : s.cmd = text)
    (hi : s.mIndex = text.length) :
    s.AtCursor (Zipper.ofList text).before.reverse (Zipper.ofList text).behind := by
  rw [Zipper.ofList, List.reverse_reverse]
  exact AtCursor.last text h hi

theorem remember_ne {history : List Text} (hne : history ≠ []) (line : Text) :
    remember history line ≠ [] := by
  rw [remember]
  split
  · exact hne
  · exact List.concat_ne_nil _ _

theorem Holds.enter (h : Holds hints s e) :
    ∃ s', s.enterKey = some (s', e.enter.1) ∧ Holds hints s' e.enter.2 := by
  rw [enterKey_trimmed h.history_ne, LineEditor.enter, h.text_eq]
  by_cases hnil : trimmed e.text = []
  · rw [if_pos hnil, if_pos hnil, hnil]
    exact ⟨_, rfl, ⟨rfl, rfl⟩, rfl, h.history_eq, h.curr, h.history_ne, h.hints_eq⟩
  · rw [if_neg hnil, if_neg hnil]
    refine ⟨_, rfl, ⟨rfl, rfl⟩, rfl, ?_, ?_, remember_ne h.history_ne _, h.hints_eq⟩
    · show remember s.history _ = remember e.history _
      rw [h.history_eq]
    · show ((remember s.history _).length : Int) = (remember e.history _).length
      rw [h.history_eq]

theorem Holds.typeChar (h : Holds hints s e) (c : Char) :
    ∃ s', s.printKey c = some s' ∧ Holds hints s' (e.typeChar c) := by
  refine ⟨_, printKey_eq h.cursor c, ⟨?_, ?_⟩, ?_, h.history_eq, h.curr, h.history_ne, h.hints_eq⟩
  · show e.line.before.reverse ++ c :: e.line.behind = (c :: e.line.before).reverse ++ e.line.behind
    rw [List.reverse_cons, List.append_assoc, List.singleton_append]
  · show (e.line.before.reverse.length : Int) + 1 = (c :: e.line.before).reverse.length
    rw [List.length_reverse, List.length_reverse, List.length_cons]
    rfl
  · exact (Zipper.toList_insert e.line c).symm

theorem Holds.delete (h : Holds hints s e) :
    ∃ s', s.backspaceKey = some s' ∧ Holds hints s' { e with line := e.line.delete } := by
  obtain ⟨⟨before, behind⟩, kept, history, place, tabbed, hle⟩ := e
  cases before with
  | nil =>
      refine ⟨s, if_neg ?_, h.cursor, h.cmdBuffer_eq, h.history_eq, h.curr, h.history_ne,
        h.hints_eq⟩
      rw [h.cursor.index]
      exact Int.lt_irrefl 0
  | cons c before =>
      have hcursor := h.cursor
      rw [List.reverse_cons] at hcursor
      exact ⟨_, backspaceKey_eq hcursor, ⟨rfl, rfl⟩, h.cmdBuffer_eq, h.history_eq, h.curr,
        h.history_ne, h.hints_eq⟩

theorem Holds.left (h : Holds hints s e) (hpos : 0 < s.mIndex) :
    Holds hints s.leftKey { e with line := e.line.left } := by
  obtain ⟨⟨before, behind⟩, kept, history, place, tabbed, hle⟩ := e
  cases before with
  | nil =>
      rw [h.cursor.index] at hpos
      exact absurd hpos (Int.lt_irrefl 0)
  | cons c before =>
      have hcursor := h.cursor
      rw [List.reverse_cons] at hcursor
      rw [leftKey_eq hcursor]
      refine ⟨⟨?_, rfl⟩, h.cmdBuffer_eq, h.history_eq, h.curr, h.history_ne, h.hints_eq⟩
      rw [hcursor.cmd, List.append_assoc, List.singleton_append]
      rfl

theorem Holds.left_first (h : Holds hints s e) (hzero : ¬ 0 < s.mIndex) :
    e.line.left = e.line := by
  obtain ⟨⟨before, behind⟩, kept, history, place, tabbed, hle⟩ := e
  cases before with
  | nil => rfl
  | cons c before =>
      have hindex := h.cursor.index
      rw [List.length_reverse, List.length_cons] at hindex
      omega

theorem Holds.right (h : Holds hints s e) (hlt : s.mIndex < s.cmd.length) :
    ∃ s', s.rightKey = some s' ∧ Holds hints s' { e with line := e.line.right } := by
  obtain ⟨⟨before, behind⟩, kept, history, place, tabbed, hle⟩ := e
  cases behind with
  | nil =>
      rw [h.cursor.index, h.cursor.cmd, List.append_nil] at hlt
      exact absurd hlt (Int.lt_irrefl _)
  | cons c behind =>
      refine ⟨_, rightKey_eq h.cursor, ⟨?_, ?_⟩, h.cmdBuffer_eq, h.history_eq, h.curr,
        h.history_ne, h.hints_eq⟩
      · show s.cmd = (c :: before).reverse ++ behind
        rw [List.reverse_cons, List.append_assoc, List.singleton_append]
        exact h.cursor.cmd
      · show (before.reverse.length : Int) + 1 = (c :: before).reverse.length
        rw [List.length_reverse, List.length_reverse, List.length_cons]
        rfl

theorem Holds.right_last (h : Holds hints s e) (hend : ¬ s.mIndex < s.cmd.length) :
    e.line.right = e.line := by
  obtain ⟨⟨before, behind⟩, kept, history, place, tabbed, hle⟩ := e
  cases behind with
  | nil => rfl
  | cons c behind =>
      have hindex := h.cursor.index
      rw [h.cursor.cmd, List.length_append, List.length_cons] at hend
      omega

/-- The `n`-th line of the history is recalled. -/
theorem Holds.recalled (h : Holds hints s e) {a b : Text} {n : Nat} {text : Text}
    (htext : s.history[n]? = some text) : Holds hints (s.recalled a b n text) (e.goTo n) := by
  rw [h.history_eq] at htext
  obtain ⟨hn, hget⟩ := List.getElem?_eq_some_iff.mp htext
  rw [LineEditor.goTo, dif_pos hn]
  exact ⟨AtCursor.ofList hget.symm (hget ▸ rfl), h.cmdBuffer_eq, h.history_eq, rfl, h.history_ne,
    h.hints_eq⟩

theorem Holds.up (h : Holds hints s e) :
    ∃ s', s.upKey = some s' ∧ Holds hints s' (e.goTo e.above) := by
  have hm : e.above = if 0 < e.place ∧ s.history[e.place - 1]? = some s.cmd then e.place - 2
      else e.place - 1 := by
    rw [LineEditor.above, h.history_eq, h.text_eq]
  obtain ⟨text, htext, hup⟩ := upKey_above h.cursor h.curr h.curr_le h.history_ne hm
  exact ⟨_, hup, h.recalled htext⟩

theorem Holds.down (h : Holds hints s e) :
    ∃ s', s.downKey = some s' ∧ Holds hints s' e.down := by
  have hle := h.curr_le
  have hlen : s.history.length = e.history.length := by rw [h.history_eq]
  rw [LineEditor.down]
  by_cases hend : e.place = e.history.length
  · rw [if_neg (by omega), LineEditor.goTo, dif_neg (by omega)]
    exact ⟨s, downKey_end (by rw [h.curr, hend, hlen]), h⟩
  by_cases hlast : e.place + 1 = e.history.length
  · have hcurr : s.curr = s.history.length - 1 := by
      rw [h.curr]
      omega
    rw [if_pos hlast]
    refine ⟨_, downKey_last h.cursor hcurr, ?_⟩
    rw [h.cmdBuffer_eq]
    by_cases hkept : e.kept = []
    · rw [if_pos hkept]
      refine ⟨?_, rfl, h.history_eq, ?_, h.history_ne, h.hints_eq⟩
      · rw [if_pos hkept]
        exact ⟨h.cursor.cmd, h.cursor.index⟩
      · exact Int.natCast_inj.mpr hlen
    · rw [if_neg hkept]
      refine ⟨?_, rfl, h.history_eq, ?_, h.history_ne, h.hints_eq⟩
      · rw [if_neg hkept]
        exact AtCursor.ofList rfl rfl
      · exact Int.natCast_inj.mpr hlen
  · obtain ⟨text, htext, hdown⟩ := downKey_inside h.cursor h.curr (by omega)
    rw [if_neg hlast]
    exact ⟨_, hdown, h.recalled htext⟩

/-- Several candidates, which share the line and what is added to it. -/
theorem longestPrefix_of_shared {r : Text} (hmany : 2 ≤ s.matching.common.length)
    (hshared : SharedBehind s.matching.common (s.matching.lenMin - s.cmd.length) s.cmd r)
    (hcandidate : ∀ t ∈ s.matching.common, t.length < 65535 ∧ '\x00' ∉ t) :
    s.cmd ++ r = longestPrefix s.matching.common := by
  have hmin := s.matching_matched.le_lenMin_iff
  generalize s.matching.common = common at *
  cases common with
  | nil => cases hmany
  | cons t ts =>
      have hprefix := prefix_longestPrefix_iff.mpr hshared.shared
      have hlongest := prefix_longestPrefix_iff.mp (List.prefix_refl (longestPrefix (t :: ts)))
      refine hprefix.eq_of_length_le
        (hshared.longest (fun u hu => (hcandidate u hu).2) _ hlongest ?_)
      have hle : (longestPrefix (t :: ts)).length ≤ s.matching.lenMin := by
        refine (hmin _).mpr ⟨?_, fun u hu => (hlongest u hu).length_le⟩
        have hshort := (hcandidate t List.mem_cons_self).1
        exact Nat.le_of_lt (Nat.lt_of_le_of_lt (hlongest t List.mem_cons_self).length_le hshort)
      omega

theorem Holds.complete (h : Holds hints s e)
    (hhints : ∀ t ∈ hints, t.length < 65535 ∧ '\x00' ∉ t)
    (htab : s.lastKey = charInt '\t' ↔ e.tabbed = true) :
    ∃ s', s.tabKey = some s' ∧ Holds hints s' (e.complete hints) := by
  rw [LineEditor.complete, ← h.text_eq]
  by_cases hempty : s.cmd = []
  · have hcompare : s.compareHints [] [] = some (0, [], []) :=
      if_pos (List.length_eq_zero_iff.mpr hempty)
    rw [if_pos hempty]
    exact ⟨s, tabKey_idle hcompare (fun h => Nat.not_lt_zero 1 h.1) Nat.zero_ne_one, h⟩
  have hfound : found s.cmd hints = s.matching.common := by
    rw [s.matching_matched.common_eq, h.hints_eq]
  rw [if_neg hempty, hfound]
  obtain ⟨listing, r, hcompare, hc⟩ := compareHints_completed hempty [] []
  have hlisting := hc.listing_eq
  have hmany := hc.many
  have hlongest := longestPrefix_of_shared (s := s) (r := r)
  have hcandidate : ∀ t ∈ s.matching.common, t.length < 65535 ∧ '\x00' ∉ t := fun t ht =>
    hhints t (h.hints_eq ▸ (continues_of_candidate ht).1)
  generalize s.matching.common = common at *
  match common with
  | [] => exact ⟨s, tabKey_idle hcompare (fun h => Nat.not_lt_zero 1 h.1) Nat.zero_ne_one, h⟩
  | [t] =>
      rw [hlisting (Or.inl Nat.one_lt_two), listed_singleton] at hcompare
      exact ⟨_, tabKey_single hcompare h.cursor, AtCursor.ofList rfl rfl, h.cmdBuffer_eq,
        h.history_eq, h.curr, h.history_ne, h.hints_eq⟩
  | t :: u :: ts =>
      have hlen : 2 ≤ (t :: u :: ts).length := Nat.le_add_left 2 ts.length
      dsimp only
      by_cases htabbed : e.tabbed = true
      · rw [if_pos htabbed]
        refine ⟨_, tabKey_listing hcompare ⟨hlen, htab.mpr htabbed⟩, ?_, h.cmdBuffer_eq,
          h.history_eq, h.curr, h.history_ne, h.hints_eq⟩
        rw [List.nil_append]
        exact AtCursor.ofList (hlongest hlen (hmany hlen) hcandidate)
          (by rw [hlongest hlen (hmany hlen) hcandidate])
      · rw [if_neg htabbed]
        refine ⟨s, tabKey_idle hcompare (fun hlist => htabbed (htab.mp hlist.2)) ?_, h⟩
        exact Nat.ne_of_gt hlen

theorem Holds.arrow (h : Holds hints s e) (b0 b1 : Char) :
    ∃ s', s.escapeKey b0 b1 = some s' ∧ Holds hints s' (e.arrow b0 b1) := by
  have hpos := List.length_pos_iff.mpr h.history_ne
  have hindex : 0 ≤ s.mIndex := by
    rw [h.cursor.index]
    exact Int.natCast_nonneg _
  rw [escapeKey, LineEditor.arrow]
  by_cases hup : b0 = '[' ∧ b1 = 'A'
  · rw [if_pos ⟨hup.1, hup.2, hpos⟩, if_pos hup]
    exact h.up
  rw [if_neg fun hk => hup ⟨hk.1, hk.2.1⟩, if_neg hup]
  by_cases hdown : b0 = '[' ∧ b1 = 'B'
  · rw [if_pos ⟨hdown.1, hdown.2, hpos⟩, if_pos hdown]
    exact h.down
  rw [if_neg fun hk => hdown ⟨hk.1, hk.2.1⟩, if_neg hdown]
  by_cases hleft : b0 = '[' ∧ b1 = 'D'
  · have hright : ¬(b0 = '[' ∧ b1 = 'C' ∧ 0 ≤ s.mIndex ∧ s.mIndex < s.cmd.length) := by
      rintro ⟨-, rfl, -⟩
      exact absurd hleft.2 (by decide)
    rw [if_neg hright, if_pos hleft]
    by_cases hfirst : 0 < s.mIndex
    · rw [if_pos ⟨hleft.1, hleft.2, hfirst⟩]
      exact ⟨_, rfl, h.left hfirst⟩
    · rw [if_neg fun hk => hfirst hk.2.2, h.left_first hfirst]
      exact ⟨s, rfl, h⟩
  rw [if_neg fun hk => hleft ⟨hk.1, hk.2.1⟩, if_neg hleft]
  by_cases hright : b0 = '[' ∧ b1 = 'C'
  · rw [if_pos hright]
    by_cases hlast : s.mIndex < s.cmd.length
    · rw [if_pos ⟨hright.1, hright.2, hindex, hlast⟩]
      exact h.right hlast
    · rw [if_neg fun hk => hlast hk.2.2.2, h.right_last hlast]
      exact ⟨s, rfl, h⟩
  · rw [if_neg fun hk => hright ⟨hk.1, hk.2.1⟩, if_neg hright]
    exact ⟨s, rfl, h⟩

theorem Holds.press (h : Holds hints s e)
    (hhints : ∀ t ∈ hints, t.length < 65535 ∧ '\x00' ∉ t)
    (htab : s.lastKey = charInt '\t' ↔ e.tabbed = true) (k : Key) :
    ∃ s', s.press k = some (s', (e.press hints k).1) ∧ Holds hints s' (e.press hints k).2 := by
  have hsilent : ∀ {o : Option CmdLine} {e' : LineEditor}, (∃ s', o = some s' ∧ Holds hints s' e') →
      ∃ s', o.map (·, ([] : Text)) = some (s', []) ∧ Holds hints s' e' := by
    rintro o e' ⟨s', rfl, hs'⟩
    exact ⟨s', rfl, hs'⟩
  rw [CmdLine.press, LineEditor.press]
  split
  · exact h.enter
  split
  · exact hsilent (h.complete hhints htab)
  split
  · exact hsilent h.delete
  split
  · exact hsilent (h.arrow k.b0 k.b1)
  split
  · exact hsilent (h.typeChar k.c)
  · exact ⟨s, rfl, h⟩

/-- `last_key` says whether the last key was Tab. -/
structure Refines (hints : List Text) (s : CmdLine) (e : LineEditor) : Prop
    extends Holds hints s e where
  lastKey : s.lastKey = charInt '\t' ↔ e.tabbed = true

theorem readLine_refines (h : Refines hints s e)
    (hhints : ∀ t ∈ hints, t.length < 65535 ∧ '\x00' ∉ t) (k : Key) :
    ∃ s', s.readLine k = some (s', (e.step hints k).1) ∧ Refines hints s' (e.step hints k).2 := by
  obtain ⟨s', hpress, hs'⟩ := h.toHolds.press hhints h.lastKey k
  rw [readLine_eq, hpress]
  exact ⟨_, rfl, ⟨⟨hs'.cursor.cmd, hs'.cursor.index⟩, hs'.cmdBuffer_eq, hs'.history_eq, hs'.curr,
    hs'.history_ne, hs'.hints_eq⟩, decide_eq_true_iff.symm⟩

end Keys

/-! ## Runs -/

/-- What `readLine` returns to one key after the other. -/
def readLines (s : CmdLine) : List Key → Option (List Text × CmdLine)
  | [] => some ([], s)
  | k :: keys => do
      let (s, res) ← s.readLine k
      let (lines, s) ← readLines s keys
      return (res :: lines, s)

theorem readLines_cons {s s₁ s₂ : CmdLine} {k : Key} {keys : List Key} {res : Text}
    {lines : List Text} (hread : s.readLine k = some (s₁, res))
    (hlines : s₁.readLines keys = some (lines, s₂)) :
    s.readLines (k :: keys) = some (res :: lines, s₂) := by
  rw [readLines, hread, Option.bind_eq_bind, Option.bind_some]
  show (readLines s₁ keys).bind _ = _
  rw [hlines, Option.bind_some]
  rfl

theorem readLines_refines {hints : List Text}
    (hhints : ∀ t ∈ hints, t.length < 65535 ∧ '\x00' ∉ t) : ∀ {s : CmdLine} {e : LineEditor}
    (keys : List Key), Refines hints s e →
    ∃ s', s.readLines keys = some ((session (LineEditor.step hints) e keys).1, s')
      ∧ Refines hints s' (session (LineEditor.step hints) e keys).2
  | s, _, [], h => ⟨s, rfl, h⟩
  | _, _, k :: keys, h => by
      obtain ⟨s₁, hread, h₁⟩ := readLine_refines h hhints k
      obtain ⟨s₂, hlines, h₂⟩ := readLines_refines hhints keys h₁
      exact ⟨s₂, readLines_cons hread hlines, h₂⟩

theorem new_refines (prompt : Text) (hints : List Text) (lastKey : Int) :
    Refines hints (new prompt hints lastKey) (start (lastKey = charInt '\t')) where
  cursor := ⟨rfl, rfl⟩
  cmdBuffer_eq := rfl
  history_eq := rfl
  curr := rfl
  history_ne := List.cons_ne_nil _ _
  hints_eq := rfl
  lastKey := decide_eq_true_iff.symm

/-- Whatever is pressed, no key fails, and what is handed out, shown and
remembered is what the editor says. -/
theorem readLines_session {hints : List Text}
    (hhints : ∀ t ∈ hints, t.length < 65535 ∧ '\x00' ∉ t) (prompt : Text) (lastKey : Int)
    (keys : List Key) :
    ∃ s, (new prompt hints lastKey).readLines keys
        = some ((session (LineEditor.step hints) (start (lastKey = charInt '\t')) keys).1, s)
      ∧ s.cmd = (session (LineEditor.step hints) (start (lastKey = charInt '\t')) keys).2.text
      ∧ s.history
        = (session (LineEditor.step hints) (start (lastKey = charInt '\t')) keys).2.history := by
  obtain ⟨s, hrun, hs⟩ := readLines_refines hhints keys (new_refines prompt hints lastKey)
  exact ⟨s, hrun, hs.text_eq, hs.history_eq⟩

theorem readLines_session_testHints : (∀ t ∈ testHints, t.length < 65535 ∧ '\x00' ∉ t)
    ∧ ∃ s, (new testPrompt testHints 0).readLines testKeys
        = some ((session (LineEditor.step testHints) (start false) testKeys).1, s)
      ∧ s.cmd = (session (LineEditor.step testHints) (start false) testKeys).2.text
      ∧ s.history = (session (LineEditor.step testHints) (start false) testKeys).2.history := by
  have hhints : ∀ t ∈ testHints, t.length < 65535 ∧ '\x00' ∉ t := by decide
  exact ⟨hhints, readLines_session hhints testPrompt 0 testKeys⟩

end CmdLine

end Yapas
