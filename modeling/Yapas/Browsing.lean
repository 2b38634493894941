import Yapas.Editor

/-!
# Going through the history

Up and down take the line to those of the history, and at the end of the
history it is to be what it was before. It is kept in `cmd_buffer`, which
only a printable key writes and Enter clears: what a completion or a
backspace makes of the line is not kept, and an empty line is never
brought back, since an empty `cmd_buffer` leaves the last line of the
history where it is (`givesBack_iff`).

The hints may be of any kind here, so that the keys are shown to stay
inside the buffers without a look at what they print.
-/

namespace Yapas

namespace CmdLine

/-! ## Inside the buffers, whatever the hints are -/

section Keys

variable {s : CmdLine} {a b : Text}

/-- Another line, with the cursor inside. -/
theorem InBuffers.line (hs : s.InBuffers) {cmd cmdBuffer out : Text} {mIndex lastKey : Int}
    (hindex : 0 ≤ mIndex ∧ mIndex ≤ cmd.length) :
    InBuffers { s with
      cmd := cmd, cmdBuffer := cmdBuffer, mIndex := mIndex, lastKey := lastKey, out := out } :=
  ⟨hindex, hs.history_ne, hs.curr⟩

theorem recalled_inBuffers (hs : s.InBuffers) {n : Nat} {text : Text}
    (h : s.history[n]? = some text) : (s.recalled a b n text).InBuffers := by
  obtain ⟨hn, -⟩ := List.getElem?_eq_some_iff.mp h
  exact ⟨⟨Int.natCast_nonneg _, Int.le_refl _⟩, hs.history_ne, Int.natCast_nonneg n,
    Int.ofNat_le.mpr (Nat.le_of_lt hn)⟩

theorem enterKey_inBuffers (hs : s.InBuffers) :
    ∃ s' res, s.enterKey = some (s', res) ∧ s'.InBuffers := by
  obtain ⟨text, -, ⟨-, henter⟩ | ⟨-, history, hhistory, henter⟩⟩ := enterKey_eq hs
  · exact ⟨_, _, henter, hs.line ⟨Int.le_refl 0, Int.le_refl 0⟩⟩
  · refine ⟨_, _, henter, ⟨Int.le_refl 0, Int.le_refl 0⟩, ?_, Int.natCast_nonneg _, Int.le_refl _⟩
    rcases hhistory with rfl | rfl
    · exact hs.history_ne
    · exact List.concat_ne_nil _ _

theorem tabKey_inBuffers (hs : s.InBuffers) (h : s.AtCursor a b) :
    ∃ s', s.tabKey = some s' ∧ s'.InBuffers := by
  obtain ⟨count, possible, appendStr, hcompare⟩ :
      ∃ count possible appendStr, s.compareHints [] [] = some (count, possible, appendStr) := by
    by_cases hempty : s.cmd = []
    · exact ⟨0, [], [], if_pos (List.length_eq_zero_iff.mpr hempty)⟩
    · obtain ⟨listing, r, hrun, -⟩ := compareHints_completed hempty [] []
      exact ⟨_, _, _, hrun⟩
  by_cases hlist : 1 < count ∧ s.lastKey = charInt '\t'
  · exact ⟨_, tabKey_listing hcompare hlist, hs.line ⟨Int.natCast_nonneg _, Int.le_refl _⟩⟩
  by_cases hone : count = 1
  · subst hone
    exact ⟨_, tabKey_single hcompare h, hs.line ⟨Int.natCast_nonneg _, Int.le_refl _⟩⟩
  · exact ⟨s, tabKey_idle hcompare hlist hone, hs⟩

theorem backspaceKey_inBuffers (hs : s.InBuffers) (h : s.AtCursor a b) :
    ∃ s', s.backspaceKey = some s' ∧ s'.InBuffers := by
  rcases List.eq_nil_or_concat a with rfl | ⟨a, c, rfl⟩
  · refine ⟨s, if_neg ?_, hs⟩
    rw [h.index]
    exact Int.lt_irrefl 0
  · rw [List.concat_eq_append] at h
    refine ⟨_, backspaceKey_eq h, hs.line ?_⟩
    rw [List.length_append]
    omega

theorem downKey_inBuffers (hs : s.InBuffers) (h : s.AtCursor a b) :
    ∃ s', s.downKey = some s' ∧ s'.InBuffers := by
  obtain ⟨n, hn⟩ := Int.eq_ofNat_of_zero_le hs.curr.1
  have hle := hs.curr.2
  by_cases hcurr : s.curr = s.history.length
  · exact ⟨s, downKey_end hcurr, hs⟩
  by_cases hlast : s.curr = s.history.length - 1
  · refine ⟨_, downKey_last h hlast, ?_⟩
    split
    · exact ⟨hs.index, hs.history_ne, Int.natCast_nonneg _, Int.le_refl _⟩
    · exact ⟨⟨Int.natCast_nonneg _, Int.le_refl _⟩, hs.history_ne, Int.natCast_nonneg _,
        Int.le_refl _⟩
  · obtain ⟨text, htext, hdown⟩ := downKey_inside h hn (by omega)
    exact ⟨_, hdown, recalled_inBuffers hs htext⟩

theorem escapeKey_inBuffers (hs : s.InBuffers) (h : s.AtCursor a b) (b0 b1 : Char) :
    ∃ s', s.escapeKey b0 b1 = some s' ∧ s'.InBuffers := by
  have hindex := hs.index
  rw [escapeKey]
  split
  · obtain ⟨n, text, htext, hup⟩ := upKey_eq hs h
    exact ⟨_, hup, recalled_inBuffers hs htext⟩
  split
  · exact downKey_inBuffers hs h
  split
  · rename_i hleft
    refine ⟨_, rfl, hs.line ?_⟩
    show 0 ≤ s.mIndex - 1 ∧ s.mIndex - 1 ≤ s.cmd.length
    omega
  split
  · rename_i hright
    cases b with
    | nil =>
        rw [h.index, h.cmd, List.append_nil] at hright
        exact absurd hright.2.2.2 (Int.lt_irrefl _)
    | cons c b =>
        refine ⟨_, rightKey_eq h, hs.line ?_⟩
        rw [h.cmd, List.length_append, List.length_cons]
        omega
  · exact ⟨s, rfl, hs⟩

theorem press_inBuffers (hs : s.InBuffers) (k : Key) :
    ∃ s' res, s.press k = some (s', res) ∧ s'.InBuffers := by
  obtain ⟨a, b, h⟩ := exists_atCursor hs.index
  have hsilent : ∀ o : Option CmdLine, (∃ s', o = some s' ∧ s'.InBuffers) →
      ∃ s' res, o.map (·, ([] : Text)) = some (s', res) ∧ s'.InBuffers := by
    rintro o ⟨s', rfl, hs'⟩
    exact ⟨s', [], rfl, hs'⟩
  rw [press]
  split
  · exact enterKey_inBuffers hs
  split
  · exact hsilent _ (tabKey_inBuffers hs h)
  split
  · exact hsilent _ (backspaceKey_inBuffers hs h)
  split
  · exact hsilent _ (escapeKey_inBuffers hs h k.b0 k.b1)
  split
  · refine hsilent _ ⟨_, printKey_eq h k.c, hs.line ?_⟩
    rw [List.length_append, List.length_cons]
    omega
  · exact ⟨s, [], rfl, hs⟩

end Keys

/-- Every state that key presses lead to. -/
theorem pressed_reaches {s : CmdLine} (hs : s.InBuffers) : ∀ keys : List Key,
    ∃ s', s.pressed keys = some s' ∧ s'.InBuffers := by
  intro keys
  induction keys generalizing s with
  | nil => exact ⟨s, rfl, hs⟩
  | cons k keys ih =>
      obtain ⟨s', res, hpress, hs'⟩ := press_inBuffers hs k
      rw [pressed, readLine_eq, hpress]
      exact ih (hs'.line hs'.index)

theorem new_inBuffers (prompt : Text) (hints : List Text) (lastKey : Int) :
    (new prompt hints lastKey).InBuffers where
  index := ⟨Int.le_refl 0, Int.le_refl 0⟩
  history_ne := List.cons_ne_nil _ _
  curr := ⟨Int.one_nonneg, Int.le_refl 1⟩

/-! ## One line up or down -/

def upPress : Key := ⟨'\x1b', '[', 'A'⟩

def downPress : Key := ⟨'\x1b', '[', 'B'⟩

theorem pressed_append (s : CmdLine) (keys keys' : List Key) :
    s.pressed (keys ++ keys') = (s.pressed keys).bind fun s' => s'.pressed keys' := by
  induction keys generalizing s with
  | nil => rfl
  | cons k keys ih =>
      rw [List.cons_append, pressed, pressed, Option.bind_assoc]
      exact congrArg _ (funext fun r => ih r.1)

theorem pressed_up {s s' : CmdLine} (hs : s.InBuffers) (h : s.upKey = some s') :
    s.pressed [upPress] = some { s' with lastKey := charInt '\x1b' } := by
  have hpos := List.length_pos_iff.mpr hs.history_ne
  have hpress : s.press upPress = s.upKey.map (·, []) := by
    rw [← (if_pos ⟨rfl, rfl, hpos⟩ : s.escapeKey '[' 'A' = s.upKey)]
    rfl
  rw [pressed, readLine_eq, hpress, h]
  rfl

theorem pressed_down {s s' : CmdLine} (hs : s.InBuffers) (h : s.downKey = some s') :
    s.pressed [downPress] = some { s' with lastKey := charInt '\x1b' } := by
  have hpos := List.length_pos_iff.mpr hs.history_ne
  have hpress : s.press downPress = s.downKey.map (·, []) := by
    have hnot : ¬('[' = '[' ∧ 'B' = 'A' ∧ 0 < s.history.length) := fun h => absurd h.2.1 (by decide)
    have hescape : s.escapeKey '[' 'B' = s.downKey := by
      rw [escapeKey, if_neg hnot, if_pos ⟨rfl, rfl, hpos⟩]
    rw [← hescape]
    rfl
  rw [pressed, readLine_eq, hpress, h]
  rfl

/-- The `n`-th line of the history is shown. -/
structure Browsing (history : List Text) (cmdBuffer : Text) (n : Nat) (s : CmdLine) : Prop where
  history_eq : s.history = history
  cmdBuffer_eq : s.cmdBuffer = cmdBuffer
  curr : s.curr = n
  shown : history[n]? = some s.cmd
  index : s.mIndex = s.cmd.length

section Browsing

variable {history : List Text} {cmdBuffer : Text} {n : Nat} {s : CmdLine}

theorem Browsing.lt (h : Browsing history cmdBuffer n s) : n < history.length :=
  (List.getElem?_eq_some_iff.mp h.shown).1

theorem Browsing.inBuffers (h : Browsing history cmdBuffer n s) : s.InBuffers where
  index := by
    rw [h.index]
    exact ⟨Int.natCast_nonneg _, Int.le_refl _⟩
  history_ne := by
    rw [h.history_eq]
    exact List.ne_nil_of_length_pos (Nat.zero_lt_of_lt h.lt)
  curr := by
    rw [h.curr, h.history_eq]
    exact ⟨Int.natCast_nonneg n, Int.ofNat_le.mpr (Nat.le_of_lt h.lt)⟩

theorem Browsing.atCursor (h : Browsing history cmdBuffer n s) : s.AtCursor s.cmd [] :=
  AtCursor.last s.cmd rfl h.index

/-- Up goes to a line of the history from everywhere. -/
theorem up_browsing (hs : s.InBuffers) : ∃ s' n, s.pressed [upPress] = some s'
    ∧ Browsing s.history s.cmdBuffer n s' := by
  obtain ⟨a, b, hcursor⟩ := exists_atCursor hs.index
  obtain ⟨n, text, htext, hup⟩ := upKey_eq hs hcursor
  exact ⟨_, n, pressed_up hs hup, rfl, rfl, rfl, htext, rfl⟩

theorem ups_browsing (k : Nat) (hs : s.InBuffers) :
    ∃ s' n, s.pressed (List.replicate (k + 1) upPress) = some s'
      ∧ Browsing s.history s.cmdBuffer n s' := by
  induction k with
  | zero => exact up_browsing hs
  | succ k ih =>
      obtain ⟨s₁, n₁, hrun₁, h₁⟩ := ih
      obtain ⟨s₂, n₂, hrun₂, h₂⟩ := up_browsing h₁.inBuffers
      rw [h₁.history_eq, h₁.cmdBuffer_eq] at h₂
      refine ⟨s₂, n₂, ?_, h₂⟩
      rw [List.replicate_succ', pressed_append, hrun₁, Option.bind_some, hrun₂]

theorem Browsing.down (h : Browsing history cmdBuffer n s) (hn : n + 1 < history.length) :
    ∃ s', s.pressed [downPress] = some s' ∧ Browsing history cmdBuffer (n + 1) s' := by
  obtain ⟨text, htext, hdown⟩ := downKey_inside h.atCursor h.curr (h.history_eq ▸ hn)
  rw [h.history_eq] at htext
  exact ⟨_, pressed_down h.inBuffers hdown, h.history_eq, h.cmdBuffer_eq, rfl, htext, rfl⟩

theorem Browsing.downs (h : Browsing history cmdBuffer n s) : ∀ m, n + m < history.length →
    ∃ s', s.pressed (List.replicate m downPress) = some s'
      ∧ Browsing history cmdBuffer (n + m) s' := by
  intro m
  induction m with
  | zero => exact fun _ => ⟨s, rfl, h⟩
  | succ m ih =>
      intro hlt
      obtain ⟨s₁, hrun₁, h₁⟩ := ih (by omega)
      obtain ⟨s₂, hrun₂, h₂⟩ := h₁.down hlt
      refine ⟨s₂, ?_, h₂⟩
      rw [List.replicate_succ', pressed_append, hrun₁, Option.bind_some, hrun₂]

/-- The iterator is `history.end()`. -/
def AtEnd (s : CmdLine) : Prop := s.curr = s.history.length

instance (s : CmdLine) : Decidable s.AtEnd := inferInstanceAs (Decidable (_ = _))

/-- What is in the line behind the last one of the history. -/
theorem Browsing.back (h : Browsing history cmdBuffer n s) (hn : n + 1 = history.length) :
    ∃ s', s.pressed [downPress] = some s' ∧ s'.AtEnd
      ∧ (if cmdBuffer = [] then history.getLast? else some cmdBuffer) = some s'.cmd := by
  have hlast : s.curr = s.history.length - 1 := by
    rw [h.curr, h.history_eq]
    omega
  refine ⟨_, pressed_down h.inBuffers (downKey_last h.atCursor hlast), ?_⟩
  rw [h.cmdBuffer_eq]
  by_cases hnil : cmdBuffer = []
  · rw [if_pos hnil, if_pos hnil]
    refine ⟨rfl, ?_⟩
    rw [List.getLast?_eq_getElem?, ← hn]
    exact h.shown
  · rw [if_neg hnil, if_neg hnil]
    exact ⟨rfl, rfl⟩

end Browsing

/-! ## Back at the end -/

/-- Up `k` times and down `m` times. -/
def browsed (s : CmdLine) (k m : Nat) : Option CmdLine :=
  s.pressed (List.replicate k upPress ++ List.replicate m downPress)

/-- The first time down that the iterator is at the end again. -/
structure Back (s : CmdLine) (k m : Nat) (s' : CmdLine) : Prop where
  run : s.browsed k m = some s'
  atEnd : s'.AtEnd
  first : ∀ m' < m, ∀ s'', s.browsed k m' = some s'' → ¬s''.AtEnd

theorem Back.unique {s s₁ s₂ : CmdLine} {k m₁ m₂ : Nat} (h₁ : s.Back k m₁ s₁)
    (h₂ : s.Back k m₂ s₂) : s₁ = s₂ := by
  rcases Nat.lt_trichotomy m₁ m₂ with hlt | rfl | hlt
  · exact absurd h₁.atEnd (h₂.first m₁ hlt s₁ h₁.run)
  · exact Option.some.inj (h₁.run.symm.trans h₂.run)
  · exact absurd h₂.atEnd (h₁.first m₂ hlt s₂ h₂.run)

/-- However far up it goes, the way down leads back, and to the kept line
or the last one of the history. -/
theorem back_saved {s : CmdLine} (hs : s.InBuffers) {k : Nat} (hk : 1 ≤ k) :
    ∃ m s', s.Back k m s'
      ∧ (if s.cmdBuffer = [] then s.history.getLast? else some s.cmdBuffer) = some s'.cmd := by
  obtain ⟨k, rfl⟩ := Nat.exists_eq_add_of_le' hk
  obtain ⟨s₁, n, hups, h₁⟩ := ups_browsing k hs
  have hlt := h₁.lt
  have hbrowsed : ∀ m, s.browsed (k + 1) m = s₁.pressed (List.replicate m downPress) := fun m => by
    rw [browsed, pressed_append, hups, Option.bind_some]
  obtain ⟨s₂, hdowns, h₂⟩ := h₁.downs (s.history.length - 1 - n) (by omega)
  obtain ⟨s₃, hback, hend, hcmd⟩ := h₂.back (by omega)
  refine ⟨s.history.length - n, s₃, ⟨?_, hend, fun m hm s'' hrun => ?_⟩, hcmd⟩
  · rw [hbrowsed, show s.history.length - n = s.history.length - 1 - n + 1 by omega,
      List.replicate_succ', pressed_append, hdowns, Option.bind_some, hback]
  · obtain ⟨s', hrun', h'⟩ := h₁.downs m (by omega)
    rw [hbrowsed, hrun'] at hrun
    obtain rfl := Option.some.inj hrun
    rw [AtEnd, h'.curr, h'.history_eq]
    omega

/-- Going through the history gives the line back. -/
def GivesBack (s : CmdLine) : Prop := ∀ k, 1 ≤ k → ∃ m s', s.Back k m s' ∧ s'.cmd = s.cmd

/-- The line comes back exactly when it is the one that was kept, or none
was kept and it is the last one of the history: at the end of the history
and in every other state. -/
theorem givesBack_iff {prompt : Text} {hints : List Text} {lastKey : Int} {keys : List Key}
    {s : CmdLine} (hrun : (new prompt hints lastKey).pressed keys = some s) :
    s.GivesBack ↔ s.cmdBuffer ≠ [] ∧ s.cmd = s.cmdBuffer
      ∨ s.cmdBuffer = [] ∧ s.history.getLast? = some s.cmd := by
  have hs : s.InBuffers := by
    obtain ⟨s', hrun', hs'⟩ := pressed_reaches (new_inBuffers prompt hints lastKey) keys
    rwa [Option.some.inj (hrun.symm.trans hrun')]
  have hsaved : s.GivesBack
      ↔ (if s.cmdBuffer = [] then s.history.getLast? else some s.cmdBuffer) = some s.cmd := by
    constructor
    · intro h
      obtain ⟨m, s', hback, hcmd⟩ := h 1 (Nat.le_refl 1)
      obtain ⟨m', s'', hback', hcmd'⟩ := back_saved hs (Nat.le_refl 1)
      rw [← hcmd, hback.unique hback', hcmd']
    · intro h k hk
      obtain ⟨m, s', hback, hcmd⟩ := back_saved hs hk
      exact ⟨m, s', hback, Option.some.inj (hcmd.symm.trans h)⟩
  rw [hsaved]
  by_cases hnil : s.cmdBuffer = []
  · rw [if_pos hnil, and_iff_right hnil, or_iff_right fun h => h.1 hnil]
  · rw [if_neg hnil, and_iff_right hnil, or_iff_left fun h => hnil h.1, Option.some_inj, eq_comm]

/-- A typed line comes back. -/
theorem givesBack_typed : ∃ s, (new testPrompt testHints 0).pressed [⟨'l', ' ', ' '⟩] = some s
    ∧ s.AtEnd ∧ s.GivesBack := by
  obtain ⟨s, hrun, hend, hcmd⟩ : ∃ s,
      (new testPrompt testHints 0).pressed [⟨'l', ' ', ' '⟩] = some s
        ∧ s.AtEnd ∧ s.cmdBuffer ≠ [] ∧ s.cmd = s.cmdBuffer :=
    ⟨_, rfl, rfl, List.cons_ne_nil _ _, rfl⟩
  exact ⟨s, hrun, hend, (givesBack_iff hrun).mpr (Or.inl hcmd)⟩

/-- What a backspace leaves of it does not: `ls` is there again instead
of `l`. -/
theorem not_givesBack_erased : ∃ s,
    (new testPrompt testHints 0).pressed [⟨'l', ' ', ' '⟩, ⟨'s', ' ', ' '⟩, ⟨'\x7f', ' ', ' '⟩]
      = some s ∧ s.AtEnd ∧ s.cmd = ['l'] ∧ s.cmdBuffer = ['l', 's'] ∧ ¬s.GivesBack := by
  obtain ⟨s, hrun, hend, hcmd, hbuffer, s₁, hbrowsed, hend₁, hcmd₁, hfirst⟩ : ∃ s,
      (new testPrompt testHints 0).pressed
        [⟨'l', ' ', ' '⟩, ⟨'s', ' ', ' '⟩, ⟨'\x7f', ' ', ' '⟩] = some s
      ∧ s.AtEnd ∧ s.cmd = ['l'] ∧ s.cmdBuffer = ['l', 's'] ∧ ∃ s₁, s.browsed 1 1 = some s₁
        ∧ s₁.AtEnd ∧ s₁.cmd = ['l', 's'] ∧ ∃ s₂, s.browsed 1 0 = some s₂ ∧ ¬s₂.AtEnd :=
    ⟨_, rfl, rfl, rfl, rfl, _, rfl, rfl, rfl, _, rfl, by decide⟩
  refine ⟨s, hrun, hend, hcmd, hbuffer, fun h => ?_⟩
  obtain ⟨m, s', hback, hcmd'⟩ := h 1 (Nat.le_refl 1)
  obtain ⟨s₂, hbrowsed₂, hnotEnd⟩ := hfirst
  have hback₁ : s.Back 1 1 s₁ := by
    refine ⟨hbrowsed, hend₁, fun m' hm' s'' hrun' => ?_⟩
    obtain rfl := Nat.lt_one_iff.mp hm'
    rwa [Option.some.inj (hrun'.symm.trans hbrowsed₂)]
  rw [hback.unique hback₁, hcmd₁, hcmd] at hcmd'
  exact absurd hcmd' (by decide)

end CmdLine

end Yapas
