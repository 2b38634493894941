import Yapas.Text

/-!
# The command line

`CmdLine`, an editor for one line with hints and a history. `readLine`
handles one key press: it reads a byte, and two more behind an escape.

What a `std::string` operation throws, and what reads outside a
container, gives no state. An `int` that is used as a position stays an
`int`: a negative one would be a position behind every end. No size is
beyond the range of an `int`. `curr` is the distance of the iterator
from `history.begin()`, and `out` is what has been written to `out_fd`.
-/

namespace Yapas

/-! ## Strings -/

/-- `isprint`. -/
def isPrint (c : Char) : Bool := 0x20 ≤ c.toNat && c.toNat ≤ 0x7e

/-- `find(pat)`. -/
def findText (pat : Text) : Text → Option Nat
  | [] => if pat = [] then some 0 else none
  | c :: s => if pat.isPrefixOf (c :: s) then some 0 else (findText pat s).map (· + 1)

/-- `find_first_not_of(chars)`. -/
def findFirstNotOf (chars s : Text) : Option Nat := s.findIdx? fun c => !chars.contains c

/-- `find_last_not_of(chars)`. -/
def findLastNotOf (chars s : Text) : Option Nat :=
  (findFirstNotOf chars s.reverse).map fun i => s.length - 1 - i

/-- `substr(pos)`. -/
def substr (s : Text) (pos : Int) : Option Text :=
  if 0 ≤ pos ∧ pos ≤ s.length then some (s.drop pos.toNat) else none

/-- `erase(pos, len)`, to the end where `len` is `npos`. -/
def erase (s : Text) (pos : Int) (len : Option Nat) : Option Text :=
  if 0 ≤ pos ∧ pos ≤ s.length then
    some (s.take pos.toNat ++ len.elim [] fun n => s.drop (pos.toNat + n))
  else none

/-- `insert(pos, 1, c)`. -/
def insertChar (s : Text) (pos : Int) (c : Char) : Option Text :=
  if 0 ≤ pos ∧ pos ≤ s.length then some (s.take pos.toNat ++ c :: s.drop pos.toNat) else none

/-- `operator[]`, which may look at the NUL behind the text. -/
def charAt (s : Text) (i : Nat) : Option Char := if i = s.length then some '\x00' else s[i]?

/-- A `char`, which is signed, as an `int`. -/
def charInt (c : Char) : Int := if c.toNat < 128 then c.toNat else c.toNat - 256

/-- What a function that is passed `c_str()` sees. -/
def cStr (s : Text) : Text := s.takeWhile (· ≠ '\x00')

/-! ## The state -/

structure CmdLine where
  history : List Text
  curr : Int
  hints : List Text
  prompt : Text
  cmd : Text
  cmdBuffer : Text
  mIndex : Int
  lastKey : Int
  out : Text

/-- A key press: the byte read, and the two bytes that are read if it is
an escape. -/
structure Key where
  c : Char
  b0 : Char
  b1 : Char

namespace CmdLine

/-- The constructor and `init`. `last_key` is left as it is found. -/
def new (prompt : Text) (hints : List Text) (lastKey : Int) : CmdLine where
  history := ["help".toList]
  curr := 1
  hints := hints
  prompt := prompt
  cmd := []
  cmdBuffer := []
  mIndex := 0
  lastKey := lastKey
  out := prompt

/-- `writeLine`. -/
def writeLine (s : CmdLine) (buf : Text) : CmdLine := { s with out := s.out ++ buf }

def left (s : CmdLine) (n : Int) : Option CmdLine :=
  if n < 0 then none else some (s.writeLine (List.replicate n.toNat '\x08'))

def space (s : CmdLine) (n : Int) : Option CmdLine :=
  if n < 0 then none else some (s.writeLine (List.replicate n.toNat ' '))

def backSpace (s : CmdLine) (n : Int) : Option CmdLine := do
  let s ← s.left n
  let s ← s.space n
  s.left n

def clearLine (s : CmdLine) : Option CmdLine := do
  let r : Int := s.cmd.length - s.mIndex
  let s ← s.space r
  let s ← s.left r
  s.backSpace s.mIndex

/-! ## Hints -/

/-- The variables of the loop over the hints. -/
structure Matching where
  haveSpace : Bool
  common : List Text
  possible : Text
  i : Nat
  lenMin : Nat

/-- One iteration of the loop over the hints. -/
def matchHint (cmd : Text) (willSubCmd : Bool) (m : Matching) (hint : Text) : Matching :=
  let m := if hint.contains ' ' then { m with haveSpace := true } else m
  if cmd.length < hint.length ∧ hint.take cmd.length = cmd
      ∧ (willSubCmd = true ∨ willSubCmd = false ∧ m.haveSpace = false) then
    { m with
      common := m.common ++ [hint]
      possible := m.possible ++ hint ++ [' '] ++ (if (m.i + 1) % 4 = 0 then ['\n'] else [])
      i := m.i + 1
      lenMin := min hint.length m.lenMin }
  else m

/-- The loop that takes the main command out of the list, `n` times. -/
def eraseMainCmd (mainCmd : Text) : Nat → Text → Option Text
  | 0, possible => some possible
  | n + 1, possible => do
      let n' : Int := ((findText (cStr mainCmd) possible).map Int.ofNat).getD (-1)
      let possible ← erase possible n' (some mainCmd.length)
      eraseMainCmd mainCmd n possible

/-- The loop over the candidates at one position: the character they
share, or NUL. -/
def sameChar (x : Char) (i : Nat) : List Text → Option Char
  | [] => some x
  | hint :: common => do
      let xx ← charAt hint i
      if xx ≠ x then some '\x00' else sameChar x i common

/-- The loop over the positions, of which `n` are left. -/
def commonStr (common : List Text) : Nat → Nat → Option Text
  | 0, _ => some []
  | n + 1, i => do
      let x ← charAt (← common.head?) i
      let x ← sameChar x i common
      if x ≠ '\x00' then return x :: (← commonStr common n (i + 1)) else some []

/-- The return value, `*possible` and `*append_str`. -/
def compareHints (s : CmdLine) (possible appendStr : Text) : Option (Nat × Text × Text) :=
  if s.cmd.length = 0 then some (0, possible, appendStr)
  else do
    let willSubCmd := s.cmd.contains ' '
    let m := s.hints.foldl (matchHint s.cmd willSubCmd) ⟨false, [], [], 0, 65535⟩
    if m.common.length < 2 then return (m.common.length, m.possible, appendStr)
    let possible ←
      if willSubCmd then eraseMainCmd (s.cmd.takeWhile (· ≠ ' ')) m.i m.possible
      else some m.possible
    let common ← commonStr m.common (m.lenMin - s.cmd.length) s.cmd.length
    return (m.common.length, possible, appendStr ++ common)

/-! ## Keys -/

def enterKey (s : CmdLine) : Option (CmdLine × Text) := do
  let s := s.writeLine ['\n']
  let cmd ← erase s.cmd 0 (findFirstNotOf [' '] s.cmd)
  let cmd ← erase cmd ((findLastNotOf [' ', '\t', '\n', '\r'] cmd).elim 0 (· + 1)) none
  let s ←
    if cmd = [] then some (s.writeLine s.prompt)
    else do
      let last ← s.history.getLast?
      let history := if last ≠ cmd then s.history ++ [cmd] else s.history
      some { s with history := history, curr := history.length }
  return ({ s with cmd := [], cmdBuffer := [], mIndex := 0 }, cmd)

def tabKey (s : CmdLine) : Option CmdLine := do
  let (count, possibleCmd, appendStr) ← s.compareHints [] []
  if 1 < count ∧ s.lastKey = charInt '\t' then
    let s := s.writeLine (['\n'] ++ possibleCmd ++ ['\n'])
    let s := s.writeLine s.prompt
    let cmd := s.cmd ++ appendStr
    return { s with cmd := cmd, mIndex := cmd.length }.writeLine cmd
  else if count = 1 then
    let s ← s.clearLine
    let s := s.writeLine possibleCmd
    return { s with cmd := possibleCmd, mIndex := possibleCmd.length, lastKey := 0 }
  else return s

def backspaceKey (s : CmdLine) : Option CmdLine :=
  if 0 < s.mIndex then do
    let s ← s.clearLine
    let lastPart ← substr s.cmd s.mIndex
    let mIndex := s.mIndex - 1
    let cmd ← erase s.cmd mIndex (some 1)
    let s := { s with cmd := cmd, mIndex := mIndex }.writeLine cmd
    s.left lastPart.length
  else some s

/-- `*curr`. -/
def deref (s : CmdLine) : Option Text := if s.curr < 0 then none else s.history[s.curr.toNat]?

/-- The line is replaced by `text`. -/
def showLine (s : CmdLine) (text : Text) : Option CmdLine := do
  let s ← s.clearLine
  let s := s.writeLine text
  return { s with cmd := text, mIndex := text.length }

def upKey (s : CmdLine) : Option CmdLine := do
  let s ←
    if s.curr = 0 then some s
    else do
      let s := { s with curr := s.curr - 1 }
      if (← s.deref) = s.cmd ∧ s.curr ≠ 0 then some { s with curr := s.curr - 1 } else some s
  s.showLine (← s.deref)

def downKey (s : CmdLine) : Option CmdLine :=
  if s.curr = s.history.length then some s
  else if s.curr = s.history.length - 1 then do
    let s ← if s.cmdBuffer.length ≠ 0 then s.showLine s.cmdBuffer else some s
    return { s with curr := s.curr + 1 }
  else do
    let s := { s with curr := s.curr + 1 }
    s.showLine (← s.deref)

def leftKey (s : CmdLine) : CmdLine := { s.writeLine ['\x08'] with mIndex := s.mIndex - 1 }

def rightKey (s : CmdLine) : Option CmdLine := do
  let b ← charAt s.cmd s.mIndex.toNat
  return { s.writeLine [b] with mIndex := s.mIndex + 1 }

def escapeKey (s : CmdLine) (b0 b1 : Char) : Option CmdLine :=
  if b0 = '[' ∧ b1 = 'A' ∧ 0 < s.history.length then s.upKey
  else if b0 = '[' ∧ b1 = 'B' ∧ 0 < s.history.length then s.downKey
  else if b0 = '[' ∧ b1 = 'D' ∧ 0 < s.mIndex then some s.leftKey
  else if b0 = '[' ∧ b1 = 'C' ∧ 0 ≤ s.mIndex ∧ s.mIndex < s.cmd.length then s.rightKey
  else some s

def printKey (s : CmdLine) (c : Char) : Option CmdLine := do
  let s ← s.clearLine
  let lastPart ← substr s.cmd s.mIndex
  let cmd ← insertChar s.cmd s.mIndex c
  let s := { s with cmd := cmd, cmdBuffer := cmd }.writeLine cmd
  let s ← s.left lastPart.length
  return { s with mIndex := s.mIndex + 1 }

/-- The new state and what is returned. -/
def readLine (s : CmdLine) (k : Key) : Option (CmdLine × Text) := do
  let (s, res) ←
    if k.c = '\n' then s.enterKey
    else if k.c = '\t' then s.tabKey.map (·, [])
    else if k.c = '\x7f' ∨ k.c = '\x08' then s.backspaceKey.map (·, [])
    else if k.c = '\x1b' then (s.escapeKey k.b0 k.b1).map (·, [])
    else if isPrint k.c then (s.printKey k.c).map (·, [])
    else some (s, [])
  return ({ s with lastKey := charInt k.c }, res)

end CmdLine

end Yapas
