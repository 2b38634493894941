import Mathlib.Data.Option.Basic
import Yapas.Text
import Yapas.Word

/-!
# The rule file

`Config` and its parsers: a file of lines `port,PROTOCOL:ACTION;...`
becomes a table from (port, protocol) keys to action lists. Definitions
follow `config.cpp` function by function; `none` is where the source
logs and returns false. Reading stops at the first rejected line, so a
table exists only for a file that is accepted as a whole.

The table itself cannot hold a key twice: `Rules.insert` asks for the
proof that the overlap check has just found.
-/

namespace Yapas

/-! ## Protocols and actions -/

/-- `protocol_type`. -/
inductive Protocol
  | http
  | sip
  | rtp
  | rtsp
  | unknown
  deriving DecidableEq, Repr

def Protocol.code : Protocol → UInt8
  | .http => 0
  | .sip => 1
  | .rtp => 2
  | .rtsp => 3
  | .unknown => 4

def Protocol.name : Protocol → Text
  | .http => ['H', 'T', 'T', 'P']
  | .sip => ['S', 'I', 'P']
  | .rtp => ['R', 'T', 'P']
  | .rtsp => ['R', 'T', 'S', 'P']
  | .unknown => ['U', 'N', 'K', 'N', 'O', 'W', 'N']

/-- `protocol_map`. -/
def protocolMap : List (Text × Protocol) :=
  [.http, .sip, .rtp, .rtsp, .unknown].map fun p => (p.name, p)

/-- An action with its data; the words are in network byte order. -/
inductive Action
  | drop
  | pushVlan (vlanTag : UInt32)
  | pushMpls (mplsLabel : UInt32)
  | output (portId : UInt8)
  deriving DecidableEq, Repr

/-- `action_priority`. -/
def Action.priority : Action → Nat
  | .drop => 0
  | .pushVlan _ => 1
  | .pushMpls _ => 1
  | .output _ => 2

def Action.isPush : Action → Bool
  | .pushVlan _ => true
  | .pushMpls _ => true
  | _ => false

/-! ## Numbers -/

/-- `ParseInt`: the whole text must be consumed. -/
def parseInt (s : Text) : Option Nat :=
  match stoul s with
  | none => none
  | some (v, endPos) => if endPos = s.length then some v else none

theorem parseInt_decimal {n : Nat} (h : n < 2 ^ 64) : parseInt (decimal n) = some n := by
  rw [parseInt, stoul_decimal h]
  exact if_pos rfl

/-- `PortIdIsValid`; `nbPorts` is `rte_eth_dev_count()`. -/
def portIdIsValid (nbPorts : UInt8) (portId : Nat) : Bool :=
  0 < portId && portId ≤ nbPorts.toNat

/-! ## The parsers -/

/-- `ParsePortAndProtocol`. -/
def parsePortAndProtocol (nbPorts : UInt8) (str : Text) : Option UInt16 := do
  let (portS, protocolS) ← cut ',' str
  let portId ← parseInt portS
  guard (portIdIsValid nbPorts portId)
  let protocol ← protocolMap.lookup protocolS
  return (UInt8.ofNat (portId - 1)).toUInt16 ||| protocol.code.toUInt16 <<< 8

/-- `ParseVlanData`: TPID, PCP, CFI and VID. Each number is narrowed to
the field's type before its check. -/
def parseVlanData (str : Text) : Option (UInt16 × UInt8 × UInt8 × UInt16) := do
  let (tpidS, str) ← cut ',' str
  let tpid := UInt16.ofNat (← parseInt tpidS)
  guard (tpid = 0x8100 ∨ tpid = 0x88a8)
  let (pcpS, str) ← cut ',' str
  let pcp := UInt8.ofNat (← parseInt pcpS)
  guard (pcp ≤ 7)
  let (cfiS, vidS) ← cut ',' str
  let cfi := UInt8.ofNat (← parseInt cfiS)
  guard (cfi ≤ 1)
  let vid := UInt16.ofNat (← parseInt vidS)
  guard (¬(vid = 0 ∨ 4094 < vid))
  return (tpid, pcp, cfi, vid)

/-- `ParseMplsData`: label, EXP, bottom of stack and TTL. The label and
the TTL are narrowed and not checked. -/
def parseMplsData (str : Text) : Option (UInt32 × UInt8 × UInt8 × UInt8) := do
  let (labelS, str) ← cut ',' str
  let label := UInt32.ofNat (← parseInt labelS)
  let (expS, str) ← cut ',' str
  let exp := UInt8.ofNat (← parseInt expS)
  guard (exp ≤ 7)
  let (bosS, ttlS) ← cut ',' str
  let bos := UInt8.ofNat (← parseInt bosS)
  guard (bos ≤ 1)
  let ttl := UInt8.ofNat (← parseInt ttlS)
  return (label, exp, bos, ttl)

def vlanTag (tpid : UInt16) (pcp cfi : UInt8) (vid : UInt16) : UInt32 :=
  vid.toUInt32 ||| cfi.toUInt32 <<< 12 ||| pcp.toUInt32 <<< 13 ||| tpid.toUInt32 <<< 16

def mplsLabel (label : UInt32) (exp bos ttl : UInt8) : UInt32 :=
  ttl.toUInt32 ||| bos.toUInt32 <<< 8 ||| exp.toUInt32 <<< 9 ||| label <<< 12

def dropPrefix : Text := ['D', 'R', 'O', 'P']

def pushVlanPrefix : Text := ['P', 'U', 'S', 'H', '-', 'V', 'L', 'A', 'N', '(']

def pushMplsPrefix : Text := ['P', 'U', 'S', 'H', '-', 'M', 'P', 'L', 'S', '(']

def outputPrefix : Text := ['O', 'U', 'T', 'P', 'U', 'T', '(']

/-- The text between an action's keyword and its closing parenthesis. -/
def arguments (keyword actionS : Text) : Option Text :=
  if actionS.take keyword.length ≠ keyword ∨ actionS.getLast? ≠ some ')' then none
  else some ((actionS.drop keyword.length).take (actionS.length - keyword.length - 1))

/-- The body of the loop of `ParseActions`: one action's text. -/
def parseAction (nbPorts : UInt8) (actionS : Text) : Option Action :=
  if contains dropPrefix actionS then
    some .drop
  else if contains pushVlanPrefix actionS then do
    let (tpid, pcp, cfi, vid) ← parseVlanData (← arguments pushVlanPrefix actionS)
    return .pushVlan (Word.bswap (vlanTag tpid pcp cfi vid))
  else if contains pushMplsPrefix actionS then do
    let (label, exp, bos, ttl) ← parseMplsData (← arguments pushMplsPrefix actionS)
    return .pushMpls (Word.bswap (mplsLabel label exp bos ttl))
  else if contains outputPrefix actionS then do
    let portId ← parseInt (← arguments outputPrefix actionS)
    guard (portIdIsValid nbPorts portId)
    return .output (UInt8.ofNat (portId - 1))
  else
    none

/-- The loop of `ParseActions`. It ends at a DROP or behind the last
semicolon; `fuel` bounds the iterations, each of which shortens the
text. -/
def parseActionsLoop (nbPorts : UInt8) : Nat → Text → Option (List Action)
  | 0, _ => none
  | fuel + 1, str =>
      match cut ';' str with
      | none => some []
      | some (actionS, rest) =>
          match parseAction nbPorts actionS with
          | none => none
          | some .drop => some [.drop]
          | some action => (parseActionsLoop nbPorts fuel rest).map (action :: ·)

/-- The scan of the priorities. -/
def checkOrder (lastPriority : Nat) : List Action → Bool
  | [] => true
  | a :: actions =>
      if a.priority < lastPriority then false else checkOrder a.priority actions

/-- `ParseActions`. -/
def parseActions (nbPorts : UInt8) (str : Text) : Option (List Action) :=
  match parseActionsLoop nbPorts (str.length + 1) str with
  | none => none
  | some [] => none
  | some (a :: actions) =>
      if checkOrder a.priority actions then some (a :: actions) else none

/-! ## The table -/

/-- `rules_`: at most one action list for each key. -/
structure Rules where
  entries : List (UInt16 × List Action)
  nodup : (entries.map Prod.fst).Nodup

namespace Rules

def empty : Rules := ⟨[], List.nodup_nil⟩

def find (rules : Rules) (key : UInt16) : Option (List Action) :=
  rules.entries.lookup key

theorem find_eq_none {rules : Rules} {key : UInt16} :
    rules.find key = none ↔ key ∉ rules.entries.map Prod.fst := by
  rw [find, List.lookup_eq_none_iff, List.mem_map]
  constructor
  · rintro h ⟨p, hp, rfl⟩
    simpa using h p hp
  · intro h p hp
    simpa using fun heq => h ⟨p, hp, heq.symm⟩

def insert (rules : Rules) (key : UInt16) (actions : List Action)
    (h : rules.find key = none) : Rules where
  entries := (key, actions) :: rules.entries
  nodup := List.nodup_cons.mpr ⟨find_eq_none.mp h, rules.nodup⟩

end Rules

/-- `GetActions`. -/
def getActions (rules : Rules) (key : UInt16) : Option (List Action) :=
  rules.find key

/-- One line: its key, and the text of its actions. -/
def parseLine (nbPorts : UInt8) (line : Text) : Option (UInt16 × Text) := do
  let (left, right) ← cut ':' (line.filter (· != ' '))
  let key ← parsePortAndProtocol nbPorts left
  return (key, right)

/-- The loop of `Config::Initialize` over the lines. -/
def initializeLines (nbPorts : UInt8) : List Text → Rules → Option Rules
  | [], rules => some rules
  | line :: lines, rules =>
      match parseLine nbPorts line with
      | none => none
      | some (key, right) =>
          if h : rules.find key = none then
            match parseActions nbPorts right with
            | none => none
            | some actions => initializeLines nbPorts lines (rules.insert key actions h)
          else none

/-- `Config::Initialize` on the contents of the file, `none` when it
cannot be opened. -/
def configInitialize (nbPorts : UInt8) (file : Option Text) : Option Rules :=
  match file with
  | none => none
  | some contents => initializeLines nbPorts (getlines contents) Rules.empty

end Yapas
