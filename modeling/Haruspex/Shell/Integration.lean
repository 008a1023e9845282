import Haruspex.Rust.Text
import Haruspex.Rust.Utf8

/-! The parser of shell markers and the ring of output behind it (`shell/integration.rs`). -/
namespace Haruspex.Shell
open Rust
set_option autoImplicit false

/-! ## Markers -/

inductive MarkerKind where
  | promptStart
  | commandStart
  | outputStart
  | outputEnd
  deriving DecidableEq

structure Marker where
  kind : MarkerKind
  /-- Where the ESC is that started the sequence. -/
  seqStart : ℕ
  /-- Where the byte after its terminator is. -/
  seqEnd : ℕ
  exitCode : Option ℤ
  cwd : Option String
  commandLine : Option String
  deriving DecidableEq

inductive ParserState where
  | normal
  | escSeen (seqStart : ℕ)
  | oscPayload (seqStart : ℕ) (buf : List UInt8)
  | oscEsc (seqStart : ℕ) (buf : List UInt8)
  deriving DecidableEq

def maxOscPayload : ℕ := 4096

structure Integration where
  /-- Recent output, oldest first. -/
  output : List UInt8
  outputCapacity : ℕ
  /-- Where the first byte of `output` is. -/
  outputFirstOffset : ℕ
  totalOffset : ℕ
  markers : List Marker
  markerCapacity : ℕ
  outputEndTotal : ℕ
  markerTotal : ℕ
  currentCwd : Option String
  state : ParserState
  deriving DecidableEq

/-- Decoders from other libraries. -/
structure Codecs where
  base64 : String → Option (List UInt8)
  urlDecode : String → Option String

/-! ## Text -/

/-- `splitn(2, c)`, with nothing for a part that is not there. -/
def splitTwo (c : Char) (s : String) : String × String :=
  (String.ofList (s.toList.takeWhile (fun x => x ≠ c)),
    String.ofList ((s.toList.dropWhile (fun x => x ≠ c)).drop 1))

/-- `parse::<i32>().ok()` -/
def parseI32 (s : String) : Option ℤ :=
  let digits (sign : ℤ) (cs : List Char) : Option ℤ :=
    if cs ≠ [] ∧ cs.all Char.isDigit then
      some (sign * (cs.foldl (fun n c => n * 10 + (c.toNat - '0'.toNat)) 0 : ℕ))
    else none
  let parsed := match s.toList with
    | '+' :: cs => digits 1 cs
    | '-' :: cs => digits (-1) cs
    | cs => digits 1 cs
  parsed.filter (fun n => -2147483648 ≤ n ∧ n ≤ 2147483647)

/-- The command line the first attribute that has one reports. -/
def decodeClAttribute (codecs : Codecs) (data : String) : Option String :=
  go ((data.toList.splitOn ';').map String.ofList)
where
  go : List String → Option String
    | [] => none
    | attr :: attrs =>
      match stripPrefix attr "cl=" with
      | some b64 => (codecs.base64 b64).map fromUtf8Lossy
      | none =>
        match stripPrefix attr "cmdline_url=" with
        | some enc => codecs.urlDecode enc
        | none => go attrs

/-- A path of a Windows drive gets its own slashes back. -/
def normalizeCwd (path : String) : String :=
  match path.toList with
  | '/' :: drive :: ':' :: rest =>
    if drive.isAlpha then
      String.ofList ((drive :: ':' :: rest).map (fun c => if c = '/' then '\\' else c))
    else path
  | _ => path

namespace Integration

def withCapacity (outputCapacity markerCapacity : ℕ) : Integration :=
  ⟨[], outputCapacity, 0, 0, [], markerCapacity, 0, 0, none, .normal⟩

def defaultOutputCapacity : ℕ := 2 ^ 20

def defaultMarkerCapacity : ℕ := 256

def new : Integration := withCapacity defaultOutputCapacity defaultMarkerCapacity

/-! ## Sequences that end -/

def u64Max : ℕ := 2 ^ 64 - 1

/-- `saturating_add(1)` -/
def saturatingSucc (n : ℕ) : ℕ := if n < u64Max then n + 1 else n

def pushMarker (s : Integration) (marker : Marker) : Integration :=
  let kept := if s.markers.length = s.markerCapacity then s.markers.tail else s.markers
  { s with
    markerTotal := saturatingSucc s.markerTotal
    outputEndTotal :=
      if marker.kind = .outputEnd then saturatingSucc s.outputEndTotal else s.outputEndTotal
    markers := kept ++ [marker] }

def markerKind (kind : String) : Option MarkerKind :=
  if kind = "A" then some .promptStart
  else if kind = "B" then some .commandStart
  else if kind = "C" then some .outputStart
  else if kind = "D" then some .outputEnd
  else none

def handle133 (codecs : Codecs) (s : Integration) (rest : String) (seqStart seqEnd : ℕ) :
    Integration :=
  let (kind, data) := splitTwo ';' rest
  match markerKind kind with
  | none => s
  | some kind => s.pushMarker {
      kind := kind
      seqStart := seqStart
      seqEnd := seqEnd
      exitCode := if kind = .outputEnd then parseI32 data else none
      cwd := s.currentCwd
      commandLine := if kind = .outputStart then decodeClAttribute codecs data else none }

def handle7 (s : Integration) (rest : String) : Integration :=
  match stripPrefix rest "file://" with
  | none => s
  | some afterScheme =>
    let path := afterScheme.toList.dropWhile (fun c => c ≠ '/')
    if path = [] then s else { s with currentCwd := some (normalizeCwd (String.ofList path)) }

def handleOsc (codecs : Codecs) (s : Integration) (payload : List UInt8) (seqStart seqEnd : ℕ) :
    Integration :=
  match fromUtf8 payload with
  | none => s
  | some text =>
    let (code, rest) := splitTwo ';' text
    if code = "133" then s.handle133 codecs rest seqStart seqEnd
    else if code = "7" then s.handle7 rest
    else s

/-! ## Bytes -/

def bel : UInt8 := 0x07

def esc : UInt8 := 0x1B

def feed (codecs : Codecs) (s : Integration) (b : UInt8) (absOffset : ℕ) : Integration :=
  match s.state with
  | .normal => if b = esc then { s with state := .escSeen absOffset } else s
  | .escSeen seqStart =>
    if b = 0x5D then { s with state := .oscPayload seqStart [] }  -- `]`
    else { s with state := .normal }
  | .oscPayload seqStart buf =>
    if b = bel then { s.handleOsc codecs buf seqStart (absOffset + 1) with state := .normal }
    else if b = esc then { s with state := .oscEsc seqStart buf }
    else if buf.length < maxOscPayload then
      { s with state := .oscPayload seqStart (buf ++ [b]) }
    else { s with state := .normal }
  | .oscEsc seqStart buf =>
    if b = 0x5C then  -- `\`
      { s.handleOsc codecs buf seqStart (absOffset + 1) with state := .normal }
    else { s with state := .normal }

/-- Bytes fed one after another, the first of them at an offset. -/
def feedAll (codecs : Codecs) (s : Integration) (absOffset : ℕ) : List UInt8 → Integration
  | [] => s
  | b :: bytes => feedAll codecs (s.feed codecs b absOffset) (absOffset + 1) bytes

def pushOutput (s : Integration) (b : UInt8) : Integration :=
  if s.output.length = s.outputCapacity then
    { s with output := s.output.tail ++ [b], outputFirstOffset := s.outputFirstOffset + 1 }
  else { s with output := s.output ++ [b] }

def appendOutput (s : Integration) (chunk : List UInt8) : Integration := chunk.foldl pushOutput s

def ingest (codecs : Codecs) (s : Integration) (chunk : List UInt8) : Integration :=
  let s := (feedAll codecs s s.totalOffset chunk).appendOutput chunk
  { s with totalOffset := s.totalOffset + chunk.length }

end Integration

end Haruspex.Shell
