import Mathlib.Data.List.Chain
import Yapas.Browsing
import Yapas.LineEditor

/-!
# The lines entered before

The history is made of the lines handed out, without the blank ones, a
line that was entered twice in a row once (`readLines_history`). So no
line of it is like the one in front of it, and the arrow keys go through
it one by one: nothing is passed over (`browsed_lines`).
-/

namespace Yapas

/-! ## What is recorded -/

theorem dropWhile_prefix {α : Type} {p : α → Bool} {s t : List α} (h : t <+: s.dropWhile p) :
    t.dropWhile p = t := by
  cases t with
  | nil => rfl
  | cons c t =>
      obtain ⟨rest, hrest⟩ := h
      refine List.dropWhile_cons_of_neg fun hc => ?_
      have hidem := List.dropWhile_idempotent p s
      rw [← hrest, List.cons_append, List.dropWhile_cons_of_pos hc] at hidem
      have hle := (List.dropWhile_suffix p : (t ++ rest).dropWhile p <:+ t ++ rest).length_le
      rw [hidem, List.length_cons] at hle
      omega

theorem trimmed_trimmed (line : Text) : trimmed (trimmed line) = trimmed line := by
  have hfirst : (trimmed line).dropWhile (· = ' ') = trimmed line :=
    dropWhile_prefix (List.rdropWhile_prefix _ _)
  rw [trimmed, hfirst]
  exact List.rdropWhile_idempotent _ _

/-- What the history is after these lines have been handed out. -/
def recorded (lines : List Text) : List Text :=
  (lines.filter (· ≠ [])).foldl remember ["help".toList]

theorem recorded_concat (lines : List Text) {line : Text} (h : line ≠ []) :
    recorded (lines ++ [line]) = remember (recorded lines) line := by
  rw [recorded, List.filter_append, List.filter_cons_of_pos (by simpa using h), List.foldl_append]
  rfl

/-- No line is blank, and none is like the one in front of it. -/
structure Browsable (history : List Text) : Prop where
  not_blank : [] ∉ history
  differ : history.IsChain (· ≠ ·)

theorem Browsable.remember {history : List Text} (h : Browsable history) {line : Text}
    (hline : line ≠ []) : Browsable (remember history line) := by
  rw [Yapas.remember]
  split
  · exact h
  · rename_i hlast
    refine ⟨fun hmem => ?_, List.isChain_append.mpr ⟨h.differ, List.isChain_singleton line, ?_⟩⟩
    · rcases List.mem_append.mp hmem with hmem | hmem
      · exact h.not_blank hmem
      · exact hline (List.mem_singleton.mp hmem).symm
    · intro last hlast' first hfirst hsame
      obtain rfl := Option.some.inj hfirst
      exact hlast (hsame ▸ hlast')

theorem recorded_browsable (lines : List Text) : Browsable (recorded lines) := by
  have hfold : ∀ (lines history : List Text), Browsable history → [] ∉ lines →
      Browsable (lines.foldl remember history) := by
    intro lines
    induction lines with
    | nil => exact fun _ h _ => h
    | cons line lines ih =>
        intro history h hmem
        have hline : line ≠ [] := fun hnil => hmem (hnil ▸ List.mem_cons_self)
        exact ih _ (h.remember hline) fun hlines => hmem (List.mem_cons_of_mem _ hlines)
  refine hfold _ _ ⟨?_, List.isChain_singleton _⟩ fun hmem => ?_
  · decide
  · exact of_decide_eq_true (List.mem_filter.mp hmem).2 rfl

namespace CmdLine

/-! ## Which keys record -/

section Keys

variable {s s' : CmdLine} {a b : Text}

theorem tabKey_history (h : s.AtCursor a b) (hrun : s.tabKey = some s') :
    s'.history = s.history := by
  obtain ⟨⟨count, possible, appendStr⟩, hcompare, -⟩ := Option.bind_eq_some_iff.mp hrun
  by_cases hlist : 1 < count ∧ s.lastKey = charInt '\t'
  · obtain rfl := Option.some.inj ((tabKey_listing hcompare hlist).symm.trans hrun)
    rfl
  by_cases hone : count = 1
  · subst hone
    obtain rfl := Option.some.inj ((tabKey_single hcompare h).symm.trans hrun)
    rfl
  · obtain rfl := Option.some.inj ((tabKey_idle hcompare hlist hone).symm.trans hrun)
    rfl

theorem backspaceKey_history (h : s.AtCursor a b) (hrun : s.backspaceKey = some s') :
    s'.history = s.history := by
  rcases List.eq_nil_or_concat a with rfl | ⟨a, c, rfl⟩
  · have hzero : ¬ 0 < s.mIndex := by
      rw [h.index]
      exact Int.lt_irrefl 0
    obtain rfl := Option.some.inj ((if_neg hzero).symm.trans hrun)
    rfl
  · rw [List.concat_eq_append] at h
    obtain rfl := Option.some.inj ((backspaceKey_eq h).symm.trans hrun)
    rfl

theorem downKey_history (hs : s.InBuffers) (h : s.AtCursor a b) (hrun : s.downKey = some s') :
    s'.history = s.history := by
  obtain ⟨n, hn⟩ := Int.eq_ofNat_of_zero_le hs.curr.1
  have hle := hs.curr.2
  by_cases hcurr : s.curr = s.history.length
  · obtain rfl := Option.some.inj ((downKey_end hcurr).symm.trans hrun)
    rfl
  by_cases hlast : s.curr = s.history.length - 1
  · obtain rfl := Option.some.inj ((downKey_last h hlast).symm.trans hrun)
    split <;> rfl
  · obtain ⟨text, -, hdown⟩ := downKey_inside h hn (by omega)
    obtain rfl := Option.some.inj (hdown.symm.trans hrun)
    rfl

theorem escapeKey_history (hs : s.InBuffers) (h : s.AtCursor a b) {b0 b1 : Char}
    (hrun : s.escapeKey b0 b1 = some s') : s'.history = s.history := by
  rw [escapeKey] at hrun
  split at hrun
  · obtain ⟨n, text, -, hup⟩ := upKey_eq hs h
    obtain rfl := Option.some.inj (hup.symm.trans hrun)
    rfl
  split at hrun
  · exact downKey_history hs h hrun
  split at hrun
  · obtain rfl := Option.some.inj hrun
    rfl
  split at hrun
  · obtain ⟨c, -, hright⟩ := Option.bind_eq_some_iff.mp hrun
    obtain rfl := Option.some.inj hright
    rfl
  · obtain rfl := Option.some.inj hrun
    rfl

/-- The line that is handed out is recorded, and the iterator is behind
it; nothing else is. -/
structure Records (s s' : CmdLine) (res : Text) : Prop where
  history_eq : s'.history = if res = [] then s.history else remember s.history res
  trimmed_eq : trimmed res = res
  fresh : res ≠ [] → s'.AtEnd ∧ s'.cmd = []

theorem press_records (hs : s.InBuffers) {k : Key} {res : Text}
    (hrun : s.press k = some (s', res)) : Records s s' res := by
  obtain ⟨a, b, h⟩ := exists_atCursor hs.index
  have hsilent : ∀ {o : Option CmdLine}, o.map (·, ([] : Text)) = some (s', res) →
      (o = some s' → s'.history = s.history) → Records s s' res := by
    rintro (_ | s₁) hmap hkeep
    · cases hmap
    · obtain ⟨rfl, rfl⟩ := Prod.mk.inj (Option.some.inj hmap)
      exact ⟨(hkeep rfl).trans (if_pos rfl).symm, rfl, fun hres => absurd rfl hres⟩
  rw [press] at hrun
  split at hrun
  · rw [enterKey_trimmed hs.history_ne] at hrun
    split at hrun
    · obtain ⟨rfl, rfl⟩ := Prod.mk.inj (Option.some.inj hrun)
      exact ⟨(if_pos rfl).symm, rfl, fun hres => absurd rfl hres⟩
    · rename_i hne
      obtain ⟨rfl, rfl⟩ := Prod.mk.inj (Option.some.inj hrun)
      exact ⟨(if_neg hne).symm, trimmed_trimmed s.cmd, fun _ => ⟨rfl, rfl⟩⟩
  split at hrun
  · exact hsilent hrun (tabKey_history h)
  split at hrun
  · exact hsilent hrun (backspaceKey_history h)
  split at hrun
  · exact hsilent hrun (escapeKey_history hs h)
  split at hrun
  · refine hsilent hrun fun hprint => ?_
    obtain rfl := Option.some.inj ((printKey_eq h k.c).symm.trans hprint)
    rfl
  · obtain ⟨rfl, rfl⟩ := Prod.mk.inj (Option.some.inj hrun)
    exact ⟨(if_pos rfl).symm, rfl, fun hres => absurd rfl hres⟩

theorem readLine_records (hs : s.InBuffers) (k : Key) : ∃ s' res,
    s.readLine k = some (s', res) ∧ s'.InBuffers ∧ Records s s' res := by
  obtain ⟨s', res, hpress, hs'⟩ := press_inBuffers hs k
  have hrec := press_records hs hpress
  rw [readLine_eq, hpress]
  exact ⟨_, res, rfl, ⟨hs'.index, hs'.history_ne, hs'.curr⟩, hrec.history_eq, hrec.trimmed_eq,
    hrec.fresh⟩

end Keys

/-! ## Runs -/

theorem readLines_records : ∀ {s : CmdLine} (keys : List Key), s.InBuffers →
    ∃ lines s', s.readLines keys = some (lines, s') ∧ s'.InBuffers
      ∧ s'.history = (lines.filter (· ≠ [])).foldl remember s.history
      ∧ ∀ line ∈ lines, trimmed line = line
  | s, [], hs => ⟨[], s, rfl, hs, rfl, fun _ h => absurd h List.not_mem_nil⟩
  | s, k :: keys, hs => by
      obtain ⟨s₁, res, hread, hs₁, hrec⟩ := readLine_records hs k
      obtain ⟨lines, s₂, hlines, hs₂, hhistory, htrimmed⟩ := readLines_records keys hs₁
      refine ⟨res :: lines, s₂, readLines_cons hread hlines, hs₂, ?_,
        List.forall_mem_cons.mpr ⟨hrec.trimmed_eq, htrimmed⟩⟩
      rw [hhistory, hrec.history_eq]
      by_cases hres : res = []
      · rw [if_pos hres, List.filter_cons_of_neg (by simpa using hres)]
      · rw [if_neg hres, List.filter_cons_of_pos (by simpa using hres), List.foldl_cons]

/-- Whatever is pressed, the history is what has been handed out: no line
twice in a row, and none with a blank at either end. -/
theorem readLines_history (prompt : Text) (hints : List Text) (lastKey : Int) (keys : List Key) :
    ∃ lines s, (new prompt hints lastKey).readLines keys = some (lines, s)
      ∧ s.history = recorded lines ∧ Browsable s.history
      ∧ ∀ line ∈ lines, trimmed line = line := by
  obtain ⟨lines, s, hrun, -, hhistory, htrimmed⟩ :=
    readLines_records keys (new_inBuffers prompt hints lastKey)
  have hrecorded : s.history = recorded lines := hhistory
  exact ⟨lines, s, hrun, hrecorded, hrecorded ▸ recorded_browsable lines, htrimmed⟩

/-! ## Browsing -/

section Browse

variable {s : CmdLine} {history : List Text} {kept : Text} {n : Nat}

/-- Up goes to the line above, which is another one. -/
theorem Browsing.up (h : Browsing history kept n s) (hrec : Browsable history) :
    ∃ s', s.pressed [upPress] = some s' ∧ Browsing history kept (n - 1) s' := by
  have hn := h.lt
  have hother : ¬(0 < n ∧ s.history[n - 1]? = some s.cmd) := by
    rintro ⟨hpos, hsame⟩
    obtain ⟨i, rfl⟩ := Nat.exists_eq_add_of_lt hpos
    have hchain := List.isChain_iff_getElem.mp hrec.differ i (by omega)
    have hshown := h.shown
    rw [h.history_eq, ← hshown] at hsame
    rw [Nat.zero_add, Nat.add_sub_cancel, List.getElem?_eq_getElem (by omega),
      List.getElem?_eq_getElem (by omega)] at hsame
    exact hchain (Option.some.inj hsame)
  obtain ⟨text, htext, hup⟩ := upKey_above h.atCursor h.curr (h.history_eq ▸ Nat.le_of_lt hn)
    h.inBuffers.history_ne (if_neg hother).symm
  rw [h.history_eq] at htext
  exact ⟨_, pressed_up h.inBuffers hup, h.history_eq, h.cmdBuffer_eq, rfl, htext, rfl⟩

theorem Browsing.ups (h : Browsing history kept n s) (hrec : Browsable history) : ∀ k,
    ∃ s', s.pressed (List.replicate k upPress) = some s' ∧ Browsing history kept (n - k) s' := by
  intro k
  induction k with
  | zero => exact ⟨s, rfl, h⟩
  | succ k ih =>
      obtain ⟨s₁, hrun, h₁⟩ := ih
      obtain ⟨s₂, hup, h₂⟩ := h₁.up hrec
      refine ⟨s₂, ?_, h₂⟩
      rw [List.replicate_succ', pressed_append, hrun]
      exact hup

/-- From a new line Up goes to the last one. -/
theorem first_up (hs : s.InBuffers) (hrec : Browsable s.history) (hend : s.AtEnd)
    (hcmd : s.cmd = []) : ∃ s', s.pressed [upPress] = some s'
      ∧ Browsing s.history s.cmdBuffer (s.history.length - 1) s' := by
  obtain ⟨a, b, hcursor⟩ := exists_atCursor hs.index
  have hother : ¬(0 < s.history.length ∧ s.history[s.history.length - 1]? = some s.cmd) := by
    rintro ⟨-, hsame⟩
    rw [hcmd] at hsame
    exact hrec.not_blank (List.mem_of_getElem? hsame)
  obtain ⟨text, htext, hup⟩ := upKey_above hcursor hend (Nat.le_refl _) hs.history_ne
    (if_neg hother).symm
  exact ⟨_, pressed_up hs hup, rfl, rfl, rfl, htext, rfl⟩

end Browse

/-- A line has just been handed out: then `k` times Up and `m` times Down
show the line that stands there in the history, for a history without
gaps. -/
theorem browsed_lines {prompt : Text} {hints : List Text} {lastKey : Int} {keys : List Key}
    {lines : List Text} {s s' : CmdLine} {key : Key} {line : Text}
    (hrun : (new prompt hints lastKey).readLines keys = some (lines, s))
    (hkey : s.readLine key = some (s', line)) (hline : line ≠ []) {k m : Nat} (hk : 1 ≤ k)
    (hm : (recorded (lines ++ [line])).length - k + m < (recorded (lines ++ [line])).length) :
    ∃ s'', s'.browsed k m = some s'' ∧ some s''.cmd
      = (recorded (lines ++ [line]))[(recorded (lines ++ [line])).length - k + m]? := by
  obtain ⟨_, _, hrun', hs, hhistory, -⟩ :=
    readLines_records keys (new_inBuffers prompt hints lastKey)
  obtain ⟨rfl, rfl⟩ := Prod.mk.inj (Option.some.inj (hrun.symm.trans hrun'))
  obtain ⟨_, _, hkey', hs', hrec⟩ := readLine_records hs key
  obtain ⟨rfl, rfl⟩ := Prod.mk.inj (Option.some.inj (hkey.symm.trans hkey'))
  have hrecorded : s'.history = recorded (lines ++ [line]) := by
    rw [hrec.history_eq, if_neg hline, hhistory, recorded_concat lines hline]
    rfl
  rw [← hrecorded] at hm ⊢
  have hdistinct : Browsable s'.history := hrecorded ▸ recorded_browsable _
  obtain ⟨hend, hcmd⟩ := hrec.fresh hline
  obtain ⟨k, rfl⟩ := Nat.exists_eq_add_of_le' hk
  obtain ⟨s₁, hup, h₁⟩ := first_up hs' hdistinct hend hcmd
  obtain ⟨s₂, hups, h₂⟩ := h₁.ups hdistinct k
  rw [Nat.sub_sub, Nat.add_comm 1 k] at h₂
  obtain ⟨s₃, hdowns, h₃⟩ := h₂.downs m hm
  refine ⟨s₃, ?_, h₃.shown.symm⟩
  rw [browsed, pressed_append, List.replicate_succ, ← List.singleton_append, pressed_append, hup,
    Option.bind_some, hups, Option.bind_some, hdowns]

theorem browsed_lines_ls : ∃ s s' s'', (new testPrompt testHints 0).readLines
      [⟨'l', ' ', ' '⟩, ⟨'s', ' ', ' '⟩] = some ([[], []], s)
    ∧ s.readLine ⟨'\n', ' ', ' '⟩ = some (s', "ls".toList)
    ∧ s'.browsed 2 1 = some s'' ∧ some s''.cmd = (recorded [[], [], "ls".toList])[1]? := by
  obtain ⟨s, s', hrun, hkey⟩ : ∃ s s', (new testPrompt testHints 0).readLines
      [⟨'l', ' ', ' '⟩, ⟨'s', ' ', ' '⟩] = some ([[], []], s)
      ∧ s.readLine ⟨'\n', ' ', ' '⟩ = some (s', "ls".toList) := ⟨_, _, rfl, rfl⟩
  have hm : (recorded [[], [], "ls".toList]).length - 2 + 1
      < (recorded [[], [], "ls".toList]).length := by decide
  obtain ⟨s'', hbrowsed, hshown⟩ := browsed_lines hrun hkey (List.cons_ne_nil _ _)
    (Nat.le_succ 1) hm
  exact ⟨s, s', s'', hrun, hkey, hbrowsed, hshown⟩

end CmdLine

end Yapas
