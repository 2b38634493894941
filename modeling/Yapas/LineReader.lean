import Mathlib.Data.List.TakeWhile
import Yapas.Browsing
import Yapas.Display
import Yapas.Readline
import Yapas.Session

/-!
# The editor of `readline.cc`

The `CmdLine` of `readline.cc` edits at the end of the line only, and its
iterator goes back behind every line shown: it stands on the line that
the next Up will show. It is not set before the first command.

`LineReader` says what the editor is for, with the terminal line: the
line may have no prompt in front of it, since a command is not followed
by one. Whatever is pressed, `readLine` and the loop that calls it hand
out, record and show what `LineReader` does (`rounds_session`).
-/

namespace Yapas

open Screen (Draws draws_newline draws_text draws_line)
open CmdLine (upPress downPress)

namespace Readline

/-! ## The state -/

/-- `curr` is the distance from `history.begin()`, once it is set. -/
structure CmdLine where
  history : List Text
  curr : Option Int
  hints : Tree Text
  prompt : Text
  cmd : Text
  out : Text

namespace CmdLine

/-- The constructor and `init`. -/
def new (prompt : Text) (hints : Tree Text) : CmdLine where
  history := []
  curr := none
  hints := hints
  prompt := prompt
  cmd := []
  out := prompt

def writeLine (s : CmdLine) (buf : Text) : CmdLine := { s with out := s.out ++ buf }

def backSpace (s : CmdLine) (n : Nat) : CmdLine :=
  ((s.writeLine (List.replicate n '\x08')).writeLine (List.replicate n ' ')).writeLine
    (List.replicate n '\x08')

def clearLine (s : CmdLine) : CmdLine := s.backSpace s.cmd.length

/-- The line is replaced by `text`. -/
def showLine (s : CmdLine) (text : Text) : CmdLine :=
  { s.clearLine.writeLine text with cmd := text }

def enterKey (s : CmdLine) : CmdLine × Text :=
  let s := s.writeLine ['\n']
  let res := s.cmd
  let s :=
    if s.cmd = [] then s.writeLine s.prompt
    else
      let history := s.history ++ [s.cmd]
      { s with history := history, curr := some (history.length - 1) }
  ({ s with cmd := [] }, res)

def tabKey (s : CmdLine) : CmdLine :=
  match s.hints.find hintCompare s.cmd none with
  | none => s
  | some hint => s.showLine hint

def backspaceKey (s : CmdLine) : CmdLine :=
  if s.cmd ≠ [] then { s with cmd := s.cmd.dropLast }.backSpace 1 else s

/-- `*curr`. -/
def deref (s : CmdLine) (curr : Int) : Option Text :=
  if curr < 0 then none else s.history[curr.toNat]?

def upKey (s : CmdLine) : Option CmdLine := do
  let curr ← s.curr
  let s := s.showLine (← s.deref curr)
  if curr = 0 then return s else return { s with curr := some (curr - 1) }

def downKey (s : CmdLine) : Option CmdLine := do
  let curr ← s.curr
  if curr = s.history.length - 1 then return s
  else
    let text ← s.deref (curr + 1)
    return { s with curr := some (curr + 1) }.showLine text

def escapeKey (s : CmdLine) (b0 b1 : Char) : Option CmdLine :=
  if b0 = '[' ∧ b1 = 'A' ∧ 0 < s.history.length then s.upKey
  else if b0 = '[' ∧ b1 = 'B' ∧ 0 < s.history.length then s.downKey
  else some s

def printKey (s : CmdLine) (c : Char) : CmdLine :=
  { s.writeLine [c] with cmd := s.cmd ++ [c] }

/-- The new state and what is returned. -/
def readLine (s : CmdLine) (k : Key) : Option (CmdLine × Text) :=
  if k.c = '\n' then some s.enterKey
  else if k.c = '\t' then some (s.tabKey, [])
  else if k.c = '\x7f' ∨ k.c = '\x08' then some (s.backspaceKey, [])
  else if k.c = '\x1b' then (s.escapeKey k.b0 k.b1).map (·, [])
  else if isPrint k.c then some (s.printKey k.c, [])
  else some (s, [])

/-- One round of the loop of `main`, which prints a command again. -/
def round (s : CmdLine) (k : Key) : Option (CmdLine × Text) :=
  (s.readLine k).map fun r =>
    (if r.2 = [] then r.1 else r.1.writeLine (cStr r.2 ++ [' ', '\n']), r.2)

/-- What is returned to one key after the other. -/
def rounds (s : CmdLine) : List Key → Option (List Text × CmdLine)
  | [] => some ([], s)
  | k :: keys => do
      let (s, res) ← s.round k
      let (lines, s) ← rounds s keys
      return (res :: lines, s)

end CmdLine

end Readline

/-! ## What it is for -/

/-- `heading` is what the terminal shows in front of the line; `place`
is where the line stands that Up shows next. -/
structure LineReader where
  heading : Text
  line : Text
  entered : List Text
  place : Nat

namespace LineReader

variable (e : LineReader)

def start (prompt : Text) : LineReader := ⟨prompt, [], [], 0⟩

def enter (prompt : Text) : LineReader :=
  if e.line = [] then { e with heading := prompt }
  else ⟨[], [], e.entered ++ [e.line], e.entered.length⟩

def up : LineReader :=
  match e.entered[e.place]? with
  | none => e
  | some line => { e with line := line, place := e.place - 1 }

def down : LineReader :=
  match e.entered[e.place + 1]? with
  | none => e
  | some line => { e with line := line, place := e.place + 1 }

/-- `complete` is what Tab makes of a line. -/
def step (prompt : Text) (complete : Text → Text) (e : LineReader) (k : Key) :
    Text × LineReader :=
  if k.c = '\n' then (e.line, e.enter prompt)
  else if k.c = '\t' then ([], { e with line := complete e.line })
  else if k.c = '\x7f' ∨ k.c = '\x08' then ([], { e with line := e.line.dropLast })
  else if k.c = '\x1b' then
    ([], if k.b0 = '[' ∧ k.b1 = 'A' then e.up else if k.b0 = '[' ∧ k.b1 = 'B' then e.down else e)
  else if isPrint k.c then ([], { e with line := e.line ++ [k.c] })
  else ([], e)

def run (prompt : Text) (complete : Text → Text) (keys : List Key) : List Text × LineReader :=
  session (step prompt complete) (start prompt) keys

/-! ## Browsing -/

section Browse

variable {prompt : Text} {complete : Text → Text} {e : LineReader}

theorem step_entered (e : LineReader) (k : Key) : (step prompt complete e k).2.entered
    = e.entered ++ [(step prompt complete e k).1].filter (· ≠ []) := by
  have hsilent : ∀ e' : LineReader, e'.entered = e.entered →
      e'.entered = e.entered ++ [([] : Text)].filter (· ≠ []) := fun e' h => by simpa using h
  rw [step]
  split
  · rw [enter]
    split
    · rename_i hnil
      simp [hnil]
    · rename_i hnil
      simp [hnil]
  split
  · exact hsilent _ rfl
  split
  · exact hsilent _ rfl
  split
  · refine hsilent _ ?_
    dsimp only
    split
    · rw [up]
      split <;> rfl
    split
    · rw [down]
      split <;> rfl
    · rfl
  split
  · exact hsilent _ rfl
  · exact hsilent e rfl

theorem entered_session (e : LineReader) (keys : List Key) :
    (session (step prompt complete) e keys).2.entered
      = e.entered ++ (session (step prompt complete) e keys).1.filter (· ≠ []) := by
  induction keys generalizing e with
  | nil => exact (List.append_nil _).symm
  | cons k keys ih =>
      rw [session_cons, ih, step_entered, List.append_assoc, ← List.filter_append]
      rfl

theorem step_place {k : Key} (hline : (step prompt complete e k).1 ≠ []) :
    (step prompt complete e k).2.place + 1 = (step prompt complete e k).2.entered.length := by
  by_cases hc : k.c = '\n'
  · rw [step, if_pos hc] at hline ⊢
    show (e.enter prompt).place + 1 = (e.enter prompt).entered.length
    rw [enter, if_neg hline, List.length_append]
    rfl
  · refine absurd ?_ hline
    rw [step, if_neg hc]
    split_ifs <;> rfl

/-- Behind a command the iterator is on the last line. -/
theorem place_of_entered {keys : List Key} {line : Text}
    (hlast : (session (step prompt complete) e keys).1.getLast? = some line) (hline : line ≠ []) :
    (session (step prompt complete) e keys).2.place + 1
      = (session (step prompt complete) e keys).2.entered.length := by
  induction keys generalizing e with
  | nil => cases hlast
  | cons k keys ih =>
      cases keys with
      | nil =>
          have hres : (step prompt complete e k).1 = line := Option.some.inj hlast
          exact step_place (hres ▸ hline)
      | cons k' keys =>
          rw [session_cons, session_cons, List.getLast?_cons_cons] at hlast
          exact ih hlast

theorem step_up (e : LineReader) : (step prompt complete e upPress).2 = e.up := rfl

theorem step_down (e : LineReader) : (step prompt complete e downPress).2 = e.down := rfl

theorem up_eq (h : e.place < e.entered.length) : ∃ line, e.entered[e.place]? = some line
    ∧ e.up = { e with line := line, place := e.place - 1 } := by
  refine ⟨e.entered.get ⟨e.place, h⟩, List.getElem?_eq_getElem h, ?_⟩
  rw [up, List.getElem?_eq_getElem h]
  rfl

/-- The line shown is the one the iterator stands on, as it is behind any
Down. -/
def OnPlace (e : LineReader) : Prop := e.entered[e.place]? = some e.line

theorem OnPlace.down (h : e.OnPlace) : e.down.OnPlace
    ∧ e.down.entered = e.entered
    ∧ e.down.place = min (e.entered.length - 1) (e.place + 1) := by
  obtain ⟨hlt, -⟩ := List.getElem?_eq_some_iff.mp h
  rw [LineReader.down]
  cases hnext : e.entered[e.place + 1]? with
  | none =>
      have hle := List.getElem?_eq_none_iff.mp hnext
      exact ⟨h, rfl, show e.place = _ by omega⟩
  | some line =>
      obtain ⟨hlt', -⟩ := List.getElem?_eq_some_iff.mp hnext
      exact ⟨hnext, rfl, show e.place + 1 = _ by omega⟩

/-- Up shows the line of the iterator and goes on. -/
theorem session_ups (prompt : Text) (complete : Text → Text) (h : e.place < e.entered.length)
    (k : Nat) :
    ∃ line, e.entered[e.place - k]? = some line
      ∧ (session (step prompt complete) e (List.replicate (k + 1) upPress)).2
        = { e with line := line, place := e.place - (k + 1) } := by
  induction k generalizing e with
  | zero => exact up_eq h
  | succ k ih =>
      obtain ⟨line, -, hup⟩ := up_eq h
      have hlt : e.up.place < e.up.entered.length := by
        rw [hup]
        exact Nat.lt_of_le_of_lt (Nat.sub_le _ _) h
      obtain ⟨line', hline', hups⟩ := ih hlt
      rw [hup] at hline' hups
      refine ⟨line', ?_, ?_⟩
      · rw [← hline', Nat.sub_sub, Nat.add_comm 1 k]
      · rw [List.replicate_succ, session_cons, step_up, hup, hups, Nat.sub_sub,
          Nat.add_comm 1 (k + 1)]

theorem session_downs (h : e.OnPlace) (m : Nat) :
    (session (step prompt complete) e (List.replicate m downPress)).2.OnPlace
      ∧ (session (step prompt complete) e (List.replicate m downPress)).2.entered = e.entered
      ∧ (session (step prompt complete) e (List.replicate m downPress)).2.place
        = min (e.entered.length - 1) (e.place + m) := by
  induction m generalizing e with
  | zero =>
      obtain ⟨hlt, -⟩ := List.getElem?_eq_some_iff.mp h
      exact ⟨h, rfl, show e.place = _ by omega⟩
  | succ m ih =>
      obtain ⟨hon, hentered, hplace⟩ := h.down
      rw [List.replicate_succ, session_cons, step_down]
      obtain ⟨hon', hentered', hplace'⟩ := ih hon
      refine ⟨hon', hentered'.trans hentered, ?_⟩
      rw [hplace', hplace, hentered]
      omega

theorem browsed (h : e.place + 1 = e.entered.length) (k m : Nat) :
    some (session (step prompt complete) e
        (List.replicate (k + 1) upPress ++ List.replicate (m + 1) downPress)).2.line
      = e.entered[min (e.entered.length - 1) (e.entered.length - 1 - (k + 1) + (m + 1))]? := by
  obtain ⟨line, hline, hups⟩ :=
    session_ups prompt complete (Nat.lt_of_succ_le (Nat.le_of_eq h)) k
  have hplace : e.place = e.entered.length - 1 := by omega
  -- Down leaves the iterator on the line shown, where there is one below
  have hfirst : ∀ e' : LineReader, e'.entered = e.entered → e'.place = e.place - (k + 1) →
      e'.line = line → e'.down.OnPlace ∧ e'.down.entered = e.entered
        ∧ e'.down.place = min (e.entered.length - 1) (e.place - (k + 1) + 1) := by
    intro e' hentered hplace' hline'
    rw [LineReader.down, hentered, hplace']
    cases hnext : e.entered[e.place - (k + 1) + 1]? with
    | none =>
        have hle := List.getElem?_eq_none_iff.mp hnext
        refine ⟨?_, hentered, show e'.place = _ by omega⟩
        rw [OnPlace, hentered, hplace', hline', ← hline]
        congr 1
        omega
    | some next =>
        obtain ⟨hlt, -⟩ := List.getElem?_eq_some_iff.mp hnext
        exact ⟨hnext, rfl, show e.place - (k + 1) + 1 = _ by omega⟩
  obtain ⟨hon, hentered, hdown⟩ :=
    hfirst { e with line := line, place := e.place - (k + 1) } rfl rfl rfl
  rw [session_snd_append, hups, List.replicate_succ, session_cons, step_down]
  obtain ⟨hon', hentered', hdowns⟩ := session_downs hon m
  rw [← hon', hentered', hdowns, hdown, hentered, hplace]
  congr 1
  omega

end Browse

end LineReader

namespace Readline

namespace CmdLine

/-! ## What is drawn -/

theorem cStr_printable {text : Text} (h : Printable text) : cStr text = text := by
  refine List.takeWhile_eq_self_iff.mpr fun c hc => decide_eq_true ?_
  rintro rfl
  exact Bool.false_ne_true (h _ hc)

theorem backSpace_out (s : CmdLine) (n : Nat) :
    s.backSpace n = s.writeLine (Yapas.CmdLine.cleared n 0) := by
  simp [backSpace, writeLine, Yapas.CmdLine.cleared]

theorem draws_erased (x z : Text) :
    Draws isPrint (x ++ z) [] (Yapas.CmdLine.cleared z.length 0) x [] :=
  Yapas.CmdLine.draws_cleared x z []

theorem draws_more (x : Text) {text : Text} (h : Printable text) :
    Draws isPrint x [] text (x ++ text) [] := by
  have htext := draws_text (x := x) (y := []) plain_isPrint h
  rwa [List.drop_nil] at htext

/-! ## The two editors side by side -/

structure Holds (prompt : Text) (hints : Tree Text) (s : CmdLine) (e : LineReader) : Prop where
  hints_eq : s.hints = hints
  prompt_eq : s.prompt = prompt
  cmd_eq : s.cmd = e.line
  history_eq : s.history = e.entered
  curr : e.entered ≠ [] → s.curr = some (e.place : Int) ∧ e.place < e.entered.length
  line : Printable e.line
  entered : ∀ line ∈ e.entered, Printable line
  drawn : Draws isPrint [] [] s.out (e.heading ++ e.line) []

section Keys

variable {prompt : Text} {hints : Tree Text} {s : CmdLine} {e : LineReader}

theorem showLine_eq (s : CmdLine) (text : Text) : s.showLine text = { s with
    cmd := text, out := s.out ++ Yapas.CmdLine.cleared s.cmd.length 0 ++ text } := by
  rw [showLine, clearLine, backSpace_out]
  rfl

theorem Holds.redrawn (h : Holds prompt hints s e) {text : Text} (htext : Printable text) :
    Draws isPrint [] [] (s.out ++ Yapas.CmdLine.cleared s.cmd.length 0 ++ text)
      (e.heading ++ text) [] := by
  rw [h.cmd_eq]
  exact (h.drawn.append (draws_erased e.heading e.line)).append (draws_more e.heading htext)

theorem enterKey_blank (h : s.cmd = []) :
    s.enterKey = ({ s with cmd := [], out := s.out ++ ['\n'] ++ s.prompt }, []) := by
  simp [enterKey, writeLine, h]

theorem enterKey_command (h : s.cmd ≠ []) : s.enterKey = ({ s with
    history := s.history ++ [s.cmd], curr := some (s.history.length : Int)
    cmd := [], out := s.out ++ ['\n'] }, s.cmd) := by
  simp [enterKey, writeLine, h]

/-- Enter, and what `main` prints. -/
theorem Holds.enter (h : Holds prompt hints s e) (hp : Printable prompt) :
    Holds prompt hints (if s.enterKey.2 = [] then s.enterKey.1
      else s.enterKey.1.writeLine (cStr s.enterKey.2 ++ [' ', '\n'])) (e.enter prompt) := by
  have hnewline : Draws isPrint [] [] (s.out ++ ['\n']) [] [] := h.drawn.append draws_newline
  rw [LineReader.enter]
  by_cases hnil : e.line = []
  · have hprompt : Draws isPrint [] [] (s.out ++ ['\n'] ++ s.prompt) (prompt ++ e.line) [] := by
      rw [hnil, List.append_nil, h.prompt_eq]
      exact hnewline.append (draws_line plain_isPrint hp)
    rw [enterKey_blank (h.cmd_eq.trans hnil), if_pos rfl, if_pos hnil]
    exact ⟨h.hints_eq, h.prompt_eq, hnil.symm, h.history_eq, h.curr, h.line, h.entered, hprompt⟩
  · have hcmd : s.cmd ≠ [] := fun hcmd => hnil (h.cmd_eq.symm.trans hcmd)
    have hecho : Draws isPrint [] [] (s.out ++ ['\n'] ++ (cStr s.cmd ++ [' ', '\n'])) [] [] := by
      have htext := draws_more [] (h.line.append (printable_singleton (rfl : isPrint ' ' = true)))
      have hline := hnewline.append (htext.append draws_newline)
      rw [List.append_assoc e.line] at hline
      rw [h.cmd_eq, cStr_printable h.line]
      exact hline
    rw [enterKey_command hcmd, if_neg hcmd, if_neg hnil]
    refine ⟨h.hints_eq, h.prompt_eq, rfl, ?_, fun _ => ⟨?_, ?_⟩, printable_nil, ?_, hecho⟩
    · show s.history ++ [s.cmd] = _
      rw [h.history_eq, h.cmd_eq]
    · show some (s.history.length : Int) = _
      rw [h.history_eq]
    · rw [List.length_append]
      exact Nat.lt_succ_self _
    · exact List.forall_mem_append.mpr ⟨h.entered, List.forall_mem_singleton.mpr h.line⟩

theorem Holds.tab (h : Holds prompt hints s e) (hhints : ∀ hint ∈ hints.toList, Printable hint) :
    Holds prompt hints s.tabKey { e with line := tabLookup hints e.line } := by
  rw [tabKey, tabLookup, h.hints_eq, h.cmd_eq]
  cases hfind : hints.find hintCompare e.line none with
  | none => exact h
  | some hint =>
      have hprint : Printable hint := by
        rcases Tree.find_mem hfind with hmem | hnone
        · exact hhints hint hmem
        · cases hnone
      dsimp only
      rw [showLine_eq]
      exact ⟨h.hints_eq, h.prompt_eq, rfl, h.history_eq, h.curr, hprint, h.entered,
        h.redrawn hprint⟩

theorem Holds.erase (h : Holds prompt hints s e) :
    Holds prompt hints s.backspaceKey { e with line := e.line.dropLast } := by
  rw [backspaceKey, h.cmd_eq]
  rcases List.eq_nil_or_concat e.line with hnil | ⟨line, c, hline⟩
  · rw [if_neg (not_not_intro hnil)]
    refine ⟨h.hints_eq, h.prompt_eq, ?_, h.history_eq, h.curr, ?_, h.entered, ?_⟩
    · rw [h.cmd_eq, hnil, List.dropLast_nil]
    · rw [hnil]
      exact printable_nil
    · have hdrawn := h.drawn
      rwa [hnil] at hdrawn ⊢
  · rw [List.concat_eq_append] at hline
    have hne : e.line ≠ [] := by
      rw [hline]
      exact List.concat_ne_nil _ _
    rw [if_pos hne, backSpace_out]
    refine ⟨h.hints_eq, h.prompt_eq, rfl, h.history_eq, h.curr, ?_, h.entered, ?_⟩
    · exact h.line.of_subset (List.dropLast_subset _)
    · have hdrawn := h.drawn
      rw [hline, ← List.append_assoc] at hdrawn
      rw [hline, List.dropLast_concat]
      exact hdrawn.append (draws_erased _ [c])

theorem Holds.printChar (h : Holds prompt hints s e) {c : Char} (hc : isPrint c = true) :
    Holds prompt hints (s.printKey c) { e with line := e.line ++ [c] } := by
  refine ⟨h.hints_eq, h.prompt_eq, ?_, h.history_eq, h.curr,
    h.line.append (printable_singleton hc), h.entered, ?_⟩
  · show s.cmd ++ [c] = _
    rw [h.cmd_eq]
  · rw [← List.append_assoc]
    exact h.drawn.append (draws_more _ (printable_singleton hc))

theorem deref_eq {n : Nat} {text : Text} (s : CmdLine) (h : s.history[n]? = some text) :
    s.deref n = some text := by
  rw [deref, if_neg (by omega), Int.toNat_natCast]
  exact h

theorem Holds.up (h : Holds prompt hints s e) (hne : e.entered ≠ []) :
    ∃ s', s.upKey = some s' ∧ Holds prompt hints s' e.up := by
  obtain ⟨hcurr, hlt⟩ := h.curr hne
  have hget : e.entered[e.place]? = some (e.entered.get ⟨e.place, hlt⟩) :=
    List.getElem?_eq_getElem hlt
  generalize e.entered.get ⟨e.place, hlt⟩ = text at hget
  have hderef : s.deref e.place = some text := deref_eq s (h.history_eq ▸ hget)
  have htext : Printable text := h.entered text (List.mem_of_getElem? hget)
  rw [upKey, hcurr, LineReader.up, hget, Option.bind_eq_bind, Option.bind_some]
  show ∃ s', (s.deref e.place).bind _ = some s' ∧ _
  rw [hderef, Option.bind_some, showLine_eq]
  by_cases hzero : (e.place : Int) = 0
  · refine ⟨_, if_pos hzero, h.hints_eq, h.prompt_eq, rfl, h.history_eq, fun _ => ⟨?_, ?_⟩, htext,
      h.entered, h.redrawn htext⟩
    · show s.curr = some ((e.place - 1 : Nat) : Int)
      rw [hcurr]
      congr 1
      omega
    · exact Nat.lt_of_le_of_lt (Nat.sub_le _ _) hlt
  · refine ⟨_, if_neg hzero, h.hints_eq, h.prompt_eq, rfl, h.history_eq, fun _ => ⟨?_, ?_⟩, htext,
      h.entered, h.redrawn htext⟩
    · show some ((e.place : Int) - 1) = some ((e.place - 1 : Nat) : Int)
      congr 1
      omega
    · exact Nat.lt_of_le_of_lt (Nat.sub_le _ _) hlt

theorem Holds.down (h : Holds prompt hints s e) (hne : e.entered ≠ []) :
    ∃ s', s.downKey = some s' ∧ Holds prompt hints s' e.down := by
  obtain ⟨hcurr, hlt⟩ := h.curr hne
  have hlen : s.history.length = e.entered.length := by rw [h.history_eq]
  rw [downKey, hcurr, LineReader.down, Option.bind_eq_bind, Option.bind_some]
  by_cases hlast : e.place + 1 = e.entered.length
  · rw [List.getElem?_eq_none (Nat.le_of_eq hlast.symm)]
    exact ⟨s, if_pos (by omega), h⟩
  · have hlt' : e.place + 1 < e.entered.length := by omega
    have hget : e.entered[e.place + 1]? = some (e.entered.get ⟨e.place + 1, hlt'⟩) :=
      List.getElem?_eq_getElem hlt'
    generalize e.entered.get ⟨e.place + 1, hlt'⟩ = text at hget
    have hderef : s.deref ((e.place : Int) + 1) = some text :=
      deref_eq s (h.history_eq ▸ hget)
    have htext : Printable text := h.entered text (List.mem_of_getElem? hget)
    rw [if_neg (by omega), hget]
    show ∃ s', (s.deref ((e.place : Int) + 1)).bind _ = some s' ∧ _
    rw [hderef, Option.bind_some, showLine_eq]
    exact ⟨_, rfl, h.hints_eq, h.prompt_eq, rfl, h.history_eq, fun _ => ⟨rfl, hlt'⟩, htext,
      h.entered, h.redrawn htext⟩

theorem Holds.escape (h : Holds prompt hints s e) (b0 b1 : Char) :
    ∃ s', s.escapeKey b0 b1 = some s' ∧ Holds prompt hints s'
      (if b0 = '[' ∧ b1 = 'A' then e.up else if b0 = '[' ∧ b1 = 'B' then e.down else e) := by
  rw [escapeKey, h.history_eq]
  by_cases hne : e.entered = []
  · have hup : e.up = e := by rw [LineReader.up, hne]; rfl
    have hdown : e.down = e := by rw [LineReader.down, hne]; rfl
    have hzero : ¬0 < e.entered.length := by rw [hne]; exact Nat.lt_irrefl 0
    rw [if_neg fun hk => hzero hk.2.2, if_neg fun hk => hzero hk.2.2, hup, hdown, ite_self,
      ite_self]
    exact ⟨s, rfl, h⟩
  have hpos := List.length_pos_iff.mpr hne
  by_cases hup : b0 = '[' ∧ b1 = 'A'
  · rw [if_pos ⟨hup.1, hup.2, hpos⟩, if_pos hup]
    exact h.up hne
  rw [if_neg fun hk => hup ⟨hk.1, hk.2.1⟩, if_neg hup]
  by_cases hdown : b0 = '[' ∧ b1 = 'B'
  · rw [if_pos ⟨hdown.1, hdown.2, hpos⟩, if_pos hdown]
    exact h.down hne
  · rw [if_neg fun hk => hdown ⟨hk.1, hk.2.1⟩, if_neg hdown]
    exact ⟨s, rfl, h⟩

/-- One round. -/
theorem round_holds (h : Holds prompt hints s e) (hp : Printable prompt)
    (hhints : ∀ hint ∈ hints.toList, Printable hint) (k : Key) :
    ∃ s', s.round k = some (s', (e.step prompt (tabLookup hints) k).1)
      ∧ Holds prompt hints s' (e.step prompt (tabLookup hints) k).2 := by
  have hsilent : ∀ {o : Option CmdLine} {e' : LineReader},
      (∃ s', o = some s' ∧ Holds prompt hints s' e') →
      ∃ s', (o.map (·, ([] : Text))).map (fun r => (if r.2 = [] then r.1
        else r.1.writeLine (cStr r.2 ++ [' ', '\n']), r.2)) = some (s', [])
        ∧ Holds prompt hints s' e' := by
    rintro o e' ⟨s', rfl, hs'⟩
    exact ⟨s', rfl, hs'⟩
  rw [round, readLine, LineReader.step]
  split
  · refine ⟨_, ?_, h.enter hp⟩
    rw [← h.cmd_eq]
    rfl
  split
  · exact hsilent ⟨_, rfl, h.tab hhints⟩
  split
  · exact hsilent ⟨_, rfl, h.erase⟩
  split
  · exact hsilent (h.escape k.b0 k.b1)
  split
  · rename_i hprint
    exact hsilent ⟨_, rfl, h.printChar hprint⟩
  · exact hsilent ⟨_, rfl, h⟩

end Keys

/-! ## Runs -/

theorem rounds_holds {prompt : Text} {hints : Tree Text} (hp : Printable prompt)
    (hhints : ∀ hint ∈ hints.toList, Printable hint) : ∀ {s : CmdLine} {e : LineReader}
    (keys : List Key), Holds prompt hints s e →
    ∃ s', s.rounds keys
        = some ((session (LineReader.step prompt (tabLookup hints)) e keys).1, s')
      ∧ Holds prompt hints s' (session (LineReader.step prompt (tabLookup hints)) e keys).2
  | s, _, [], h => ⟨s, rfl, h⟩
  | _, _, k :: keys, h => by
      obtain ⟨s₁, hround, h₁⟩ := round_holds h hp hhints k
      obtain ⟨s₂, hlines, h₂⟩ := rounds_holds hp hhints keys h₁
      refine ⟨s₂, ?_, h₂⟩
      rw [rounds, hround, Option.bind_eq_bind, Option.bind_some]
      show (rounds s₁ keys).bind _ = _
      rw [hlines, Option.bind_some]
      rfl

theorem new_holds {prompt : Text} (hp : Printable prompt) (hints : Tree Text) :
    Holds prompt hints (new prompt hints) (LineReader.start prompt) where
  hints_eq := rfl
  prompt_eq := rfl
  cmd_eq := rfl
  history_eq := rfl
  curr := fun hne => absurd rfl hne
  line := printable_nil
  entered := fun _ h => absurd h List.not_mem_nil
  drawn := by
    show Draws isPrint [] [] prompt (prompt ++ []) []
    rw [List.append_nil]
    exact draws_line plain_isPrint hp

/-- The command line is at the same point as the editor, and so is the
terminal, whose cursor stands behind the line. -/
structure Agrees (s : CmdLine) (t : Screen) (e : LineReader) : Prop where
  cmd : s.cmd = e.line
  history : s.history = e.entered
  terminal : Screen.fresh.feed isPrint s.out = some t
  cells : ∀ i, t.cells i = (e.heading ++ e.line).getD i ' '
  col : t.col = (e.heading ++ e.line).length

theorem hints_printable {balance : Balance Text} {hs : List Text}
    (h : ∀ hint ∈ hs, Printable hint) : ∀ hint ∈ (Readline.hints balance hs).toList,
      Printable hint :=
  fun hint hmem => h hint (build_subset balance hmem)

/-- Whatever is pressed, no round fails, and what is handed out, recorded
and shown is what the editor says. -/
theorem rounds_session (balance : Balance Text) {hs : List Text}
    (hhints : ∀ hint ∈ hs, Printable hint) {prompt : Text} (hp : Printable prompt)
    (keys : List Key) :
    ∃ s t, (new prompt (Readline.hints balance hs)).rounds keys
        = some ((LineReader.run prompt (tabLookup (Readline.hints balance hs)) keys).1, s)
      ∧ Agrees s t (LineReader.run prompt (tabLookup (Readline.hints balance hs)) keys).2 := by
  obtain ⟨s, hrun, h⟩ := rounds_holds hp (hints_printable hhints) keys
    (new_holds hp (Readline.hints balance hs))
  obtain ⟨t, hfeed, ht⟩ := h.drawn Screen.fresh Screen.reads_fresh
  have hcells := ht.cells
  rw [List.append_nil] at hcells
  exact ⟨s, t, hrun, h.cmd_eq, h.history_eq, hfeed, hcells, ht.col⟩

/-- The hints and the prompt of `main`, and the keys of `ls` and Enter. -/
def mainHints : List Text := ["help".toList, "ls".toList]

def mainPrompt : Text := "> ".toList

def mainKeys : List Key := [⟨'l', ' ', ' '⟩, ⟨'s', ' ', ' '⟩, ⟨'\n', ' ', ' '⟩]

theorem mainHints_printable : ∀ hint ∈ mainHints, Printable hint := by
  have hall : mainHints.all (·.all isPrint) = true := rfl
  exact fun t ht => List.all_eq_true.mp (List.all_eq_true.mp hall t ht)

theorem mainPrompt_printable : Printable mainPrompt := by
  have hall : mainPrompt.all isPrint = true := rfl
  exact List.all_eq_true.mp hall

theorem rounds_session_main : (∀ hint ∈ mainHints, Printable hint) ∧ Printable mainPrompt
    ∧ ∃ s t, (new mainPrompt (Readline.hints ⟨id, fun _ => rfl⟩ mainHints)).rounds mainKeys
        = some ((LineReader.run mainPrompt
          (tabLookup (Readline.hints ⟨id, fun _ => rfl⟩ mainHints)) mainKeys).1, s)
      ∧ Agrees s t (LineReader.run mainPrompt
          (tabLookup (Readline.hints ⟨id, fun _ => rfl⟩ mainHints)) mainKeys).2 :=
  ⟨mainHints_printable, mainPrompt_printable,
    rounds_session _ mainHints_printable mainPrompt_printable mainKeys⟩

/-- Behind a command, any number of times Up, and then of times Down. The
first Down shows the line again that is shown already, unless that is the
first of several. -/
theorem rounds_browsed (balance : Balance Text) {hs : List Text}
    (hhints : ∀ hint ∈ hs, Printable hint) {prompt : Text} (hp : Printable prompt)
    {keys : List Key} {lines : List Text} {s : CmdLine}
    (hrun : (new prompt (Readline.hints balance hs)).rounds keys = some (lines, s))
    {line : Text} (hlast : lines.getLast? = some line) (hline : line ≠ []) (k m : Nat) :
    s.history = lines.filter (· ≠ [])
      ∧ (∃ lines' s', s.rounds (List.replicate (k + 1) upPress) = some (lines', s')
        ∧ some s'.cmd = s.history[s.history.length - 1 - k]?)
      ∧ ∃ lines' s', s.rounds (List.replicate (k + 1) upPress
          ++ List.replicate (m + 1) downPress) = some (lines', s')
        ∧ some s'.cmd = s.history[min (s.history.length - 1) (s.history.length - 1 - (k + 1)
          + (m + 1))]? := by
  obtain ⟨_, hrun', h⟩ := rounds_holds hp (hints_printable hhints) keys
    (new_holds hp (Readline.hints balance hs))
  obtain ⟨rfl, rfl⟩ := Prod.mk.inj (Option.some.inj (hrun.symm.trans hrun'))
  have hplace := LineReader.place_of_entered hlast hline
  refine ⟨h.history_eq.trans (LineReader.entered_session _ _), ?_, ?_⟩
  · obtain ⟨s', hups, h'⟩ := rounds_holds hp (hints_printable hhints)
      (List.replicate (k + 1) upPress) h
    obtain ⟨line', hline', hsession⟩ := LineReader.session_ups prompt
      (tabLookup (Readline.hints balance hs)) (Nat.lt_of_succ_le (Nat.le_of_eq hplace)) k
    refine ⟨_, s', hups, ?_⟩
    rw [h'.cmd_eq, hsession, h.history_eq, ← hplace]
    exact hline'.symm
  · obtain ⟨s', hbrowse, h'⟩ := rounds_holds hp (hints_printable hhints)
      (List.replicate (k + 1) upPress ++ List.replicate (m + 1) downPress) h
    refine ⟨_, s', hbrowse, ?_⟩
    rw [h'.cmd_eq, h.history_eq]
    exact LineReader.browsed hplace k m

/-- The keys of three commands. -/
def commandKeys : List Key :=
  ("ls\npwd\ncd\n".toList).map fun c => ⟨c, ' ', ' '⟩

/-- Three times Up and then twice Down: to the first command, and from
there to the last one. -/
theorem rounds_browsed_main : ∃ lines s s₁ s₂ lines₁ lines₂,
    (new mainPrompt (Readline.hints ⟨id, fun _ => rfl⟩ mainHints)).rounds commandKeys
        = some (lines, s)
      ∧ s.history = ["ls".toList, "pwd".toList, "cd".toList]
      ∧ s.rounds (List.replicate 3 upPress) = some (lines₁, s₁) ∧ s₁.cmd = "ls".toList
      ∧ s.rounds (List.replicate 3 upPress ++ List.replicate 2 downPress) = some (lines₂, s₂)
      ∧ s₂.cmd = "cd".toList := by
  obtain ⟨lines, s, hrun, hlast, hcommands⟩ : ∃ lines s,
      (new mainPrompt (Readline.hints ⟨id, fun _ => rfl⟩ mainHints)).rounds commandKeys
        = some (lines, s) ∧ lines.getLast? = some "cd".toList
      ∧ lines.filter (· ≠ []) = ["ls".toList, "pwd".toList, "cd".toList] := ⟨_, _, rfl, rfl, rfl⟩
  obtain ⟨hhistory, ⟨lines₁, s₁, hups, hcmd₁⟩, lines₂, s₂, hbrowse, hcmd₂⟩ := rounds_browsed
    ⟨id, fun _ => rfl⟩ mainHints_printable mainPrompt_printable hrun hlast (List.cons_ne_nil _ _) 2 1
  rw [hcommands] at hhistory
  rw [hhistory] at hcmd₁ hcmd₂
  exact ⟨lines, s, s₁, s₂, lines₁, lines₂, hrun, hhistory, hups, Option.some.inj hcmd₁, hbrowse,
    Option.some.inj hcmd₂⟩

end CmdLine

end Readline

end Yapas
