import Yapas.Config
import Yapas.Mbuf

/-!
# The detectors

`SearchHttp`, `SearchSip`, `SearchRtp` and `SearchRtsp`, and
`PacketAnalyzer::Analyze`, which returns the first protocol one of them
claims. The three text detectors are one search with their own
constants: a minimum length, a version that starts a response, and a
table of methods that start a request. What they compare behind a
method differs: the HTTP detector looks for the version behind the
URI, the other two for the scheme at its front.

Every detector reads the buffer from the end of the headers on, one
byte at a time and no further than its first mismatch. The search for
the space behind an HTTP URI has no bound of its own.
-/

namespace Yapas

/-- The bytes of an ASCII text. -/
def ascii (s : String) : List UInt8 := s.toList.map fun c => UInt8.ofNat c.toNat

def space : UInt8 := 32

/-! ## Comparing -/

/-- A loop over a constant that leaves at the first difference. -/
def startsWith : List UInt8 → Nat → Reader Bool
  | [], _ => pure true
  | c :: cs, off => do
      let b ← Reader.byte off
      if b ≠ c then pure false else startsWith cs (off + 1)

/-- The loop over the two spellings of a scheme. -/
def startsWithEither : List UInt8 → List UInt8 → Nat → Reader Bool
  | u :: up, l :: lo, off => do
      let b ← Reader.byte off
      if b ≠ u ∧ b ≠ l then pure false else startsWithEither up lo (off + 1)
  | _, _, _ => pure true

/-- `while (*data++ != ' ');`, and where it ends. Each iteration moves on
by one byte, so a fuel above the buffer's length is never used up. -/
def skipToSpace : Nat → Nat → Reader Nat
  | 0, _ => Reader.fail
  | fuel + 1, off => do
      let b ← Reader.byte off
      if b ≠ space then skipToSpace fuel (off + 1) else pure (off + 1)

/-- The method and the space behind it, then the rest of the check. -/
def searchMethod (rest : Nat → Reader Bool) (off : Nat) (method : List UInt8) : Reader Bool := do
  if ← startsWith method off then
    let b ← Reader.byte (off + method.length)
    if b ≠ space then pure false else rest (off + method.length + 1)
  else pure false

/-- The chain of method tests. -/
def searchMethods (search : List UInt8 → Reader Bool) : List (List UInt8) → Reader Bool
  | [] => pure false
  | method :: methods => do
      if ← search method then pure true else searchMethods search methods

/-- The common body of the three text detectors. -/
def searchText (minLen : Nat) (version : List UInt8) (methods : List (List UInt8))
    (search : Nat → List UInt8 → Reader Bool) (protocol : Protocol) (m : Mbuf) :
    Reader Protocol :=
  if m.payloadLen < minLen then pure .unknown
  else do
    if ← startsWith version m.headersLen then pure protocol
    else if ← searchMethods (search m.headersLen) methods then pure protocol
    else pure .unknown

/-! ## HTTP -/

def httpVersion : List UInt8 := ascii "HTTP/1.1"

def httpMethods : List (List UInt8) :=
  [ascii "OPTIONS", ascii "GET", ascii "HEAD", ascii "POST", ascii "PUT", ascii "DELETE",
    ascii "TRACE", ascii "CONNECT"]

/-- Behind the method come the URI, a space and the version. -/
def httpRest (fuel : Nat) (off : Nat) : Reader Bool := do
  let off ← skipToSpace fuel off
  startsWith httpVersion off

def searchHttpMethod (fuel : Nat) : Nat → List UInt8 → Reader Bool :=
  searchMethod (httpRest fuel)

def searchHttp (m : Mbuf) : Reader Protocol :=
  searchText 15 httpVersion httpMethods (searchHttpMethod (m.room.length + 1)) .http m

/-! ## SIP -/

def sipVersion : List UInt8 := ascii "SIP/2.0"

def sipPrefixUp : List UInt8 := ascii "SIP:"

def sipPrefixLo : List UInt8 := ascii "sip:"

def sipMethods : List (List UInt8) :=
  [ascii "INVITE", ascii "ACK", ascii "BYE", ascii "CANCEL", ascii "OPTIONS", ascii "REGISTER",
    ascii "PRACK", ascii "SUBSCRIBE", ascii "NOTIFY", ascii "PUBLISH", ascii "INFO",
    ascii "REFER", ascii "MESSAGE", ascii "UPDATE"]

def searchSipMethod : Nat → List UInt8 → Reader Bool :=
  searchMethod (startsWithEither sipPrefixUp sipPrefixLo)

def searchSip (m : Mbuf) : Reader Protocol :=
  searchText 14 sipVersion sipMethods searchSipMethod .sip m

/-! ## RTSP -/

def rtspVersion : List UInt8 := ascii "RTSP/1.0"

def rtspPrefixUp : List UInt8 := ascii "RTSP://"

def rtspPrefixLo : List UInt8 := ascii "rtsp://"

def rtspMethods : List (List UInt8) :=
  [ascii "DESCRIBE", ascii "OPTIONS", ascii "PLAY", ascii "PAUSE", ascii "RECORD",
    ascii "REDIRECT", ascii "SETUP", ascii "ANNOUNCE", ascii "GET_PARAMETER",
    ascii "SET_PARAMETER", ascii "TEARDOWN"]

def searchRtspMethod : Nat → List UInt8 → Reader Bool :=
  searchMethod (startsWithEither rtspPrefixUp rtspPrefixLo)

def searchRtsp (m : Mbuf) : Reader Protocol :=
  searchText 15 rtspVersion rtspMethods searchRtspMethod .rtsp m

/-! ## RTP -/

/-- `rtp_min_len` behind the fixed header and the CSRC list. -/
def rtpHeaderLen (first : UInt8) : Nat := 12 + 4 * (first &&& 0x0f).toNat

/-- The part of `SearchRtp` for a header extension. Its length in bytes
is kept in sixteen bits. -/
def rtpExtension (off payloadLen minLen : Nat) : Reader Protocol :=
  if payloadLen < minLen + 4 then pure .unknown
  else do
    let words ← Reader.be16 (off + minLen + 2)
    let extensionLen := 4 * words % 2 ^ 16
    if payloadLen < minLen + 4 + extensionLen then pure .unknown else pure .rtp

def searchRtp (m : Mbuf) : Reader Protocol :=
  let off := m.headersLen
  if m.payloadLen < 12 then pure .unknown
  else do
    let first ← Reader.byte off
    if first &&& 0x80 = 0 then pure .unknown
    else
      let s0 ← Reader.byte (off + 8)
      let s1 ← Reader.byte (off + 9)
      let s2 ← Reader.byte (off + 10)
      let s3 ← Reader.byte (off + 11)
      if s0 = 0 ∧ s1 = 0 ∧ s2 = 0 ∧ s3 = 0 then pure .unknown
      else
        let second ← Reader.byte (off + 1)
        let payloadType := second &&& 0x7f
        if (34 < payloadType ∧ payloadType < 96) ∨ 127 < payloadType then pure .unknown
        else if m.payloadLen < rtpHeaderLen first then pure .unknown
        else if first &&& 0x10 ≠ 0 then rtpExtension off m.payloadLen (rtpHeaderLen first)
        else pure .rtp

/-! ## Analyze -/

/-- The loop of `Analyze`. -/
def analyzeLoop (m : Mbuf) : List (Mbuf → Reader Protocol) → Protocol → Reader Protocol
  | [], ret => pure ret
  | search :: methods, ret =>
      if ret = .unknown then do analyzeLoop m methods (← search m) else pure ret

def analyze (m : Mbuf) : Reader Protocol :=
  analyzeLoop m [searchHttp, searchSip, searchRtp, searchRtsp] .unknown

/-- `Analyze` on the mbuf's own buffer; `none` when it leaves it. -/
def Mbuf.analyze (m : Mbuf) : Option Protocol := (Yapas.analyze m).result m.room

end Yapas
