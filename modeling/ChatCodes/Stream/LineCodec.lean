import ChatCodes.Converter
import ChatCodes.Text.Utf8

/-!
# Converting a stream line by line

Bytes gather in a buffer until a line is complete.  Each line is converted on its
own, so a style never reaches the next line.  A line that is too long is an
error, given once; the bytes that still belong to it are dropped as they arrive.
A line that is not UTF-8 is an error too, and costs only itself.

The buffer is cut where the codec has searched up to and where it finds the end of
a line.  A cut behind the end of the buffer is refused.
-/

namespace ChatCodes

open Utf8 (Bytes)

def maxLineLength : Nat := 8192

def lineFeed : UInt8 := 10

def carriageReturn : UInt8 := 13

/--
The first `searched` bytes of the buffer are known to hold no line feed.  While
`isDiscarding`, the buffer continues a line that was already given up.
-/
structure LineCodec where
  converter : Converter
  searched : Nat := 0
  isDiscarding : Bool := false

namespace LineCodec

structure Outcome where
  result : Except Error (Option Text)
  codec : LineCodec
  buffer : Bytes
  events : List Event

/-- A cut behind the end of a buffer. -/
structure OffBuffer where
  offset : Nat
  deriving DecidableEq, Repr

abbrev Bounded := Except OffBuffer

/-- The first `offset` bytes of a buffer, and the rest. -/
def cut (buffer : Bytes) (offset : Nat) : Bounded (Bytes × Bytes) :=
  if offset ≤ buffer.length then .ok (buffer.take offset, buffer.drop offset)
  else .error ⟨offset⟩

/-- The line without one carriage return at its end. -/
def dropReturn (line : Bytes) : Bytes :=
  if line.getLast? = some carriageReturn then line.dropLast else line

/-- Where the first line feed of the buffer stands, looking only at unsearched bytes. -/
def lineEnd? (codec : LineCodec) (buffer : Bytes) : Bounded (Option Nat) := do
  let (_, unsearched) ← cut buffer codec.searched
  return (unsearched.idxOf? lineFeed).map (codec.searched + ·)

def deliver (codec : LineCodec) (line rest : Bytes) : Outcome :=
  match Utf8.decode (dropReturn line) with
  | .ok text =>
      ⟨.ok (some (codec.converter.convert text)), codec, rest,
        codec.converter.events text⟩
  | .error position => ⟨.error (.invalidUtf8 position), codec, rest, []⟩

def giveUp (codec : LineCodec) (length : Nat) (rest : Bytes) : Outcome :=
  ⟨.error (.lineTooLong length maxLineLength), codec, rest,
    [.discardedLine length]⟩

def takeLine (codec : LineCodec) (buffer : Bytes) : Bounded Outcome := do
  match ← codec.lineEnd? buffer with
  | some stop =>
      let next := { codec with searched := 0 }
      -- The line leaves the buffer with its line feed, also if it is too long.
      let (front, rest) ← cut buffer (stop + 1)
      if stop > maxLineLength then return next.giveUp stop rest
      let (line, _) ← cut front stop
      return next.deliver line rest
  | none =>
      if buffer.length > maxLineLength then
        let (_, rest) ← cut buffer buffer.length
        return { codec with searched := 0, isDiscarding := true }.giveUp
          buffer.length rest
      return ⟨.ok none, { codec with searched := buffer.length }, buffer, []⟩

/-- Drops what belongs to a line given up, then takes the next line. -/
def skipLine (codec : LineCodec) (buffer : Bytes) : Bounded Outcome := do
  match ← codec.lineEnd? buffer with
  | some stop =>
      let (_, rest) ← cut buffer (stop + 1)
      { codec with searched := 0, isDiscarding := false }.takeLine rest
  | none =>
      let (_, rest) ← cut buffer buffer.length
      return ⟨.ok none, { codec with searched := 0 }, rest, []⟩

def boundedDecode (codec : LineCodec) (buffer : Bytes) : Bounded Outcome := do
  let outcome ←
    if codec.isDiscarding then codec.skipLine buffer else codec.takeLine buffer
  return { outcome with events := .entered .decode :: outcome.events }

/--
The next line, if it is complete.  No cut is refused unless the buffer has lost
bytes that were searched; then all is left as it is.
-/
def decode (codec : LineCodec) (buffer : Bytes) : Outcome :=
  match codec.boundedDecode buffer with
  | .ok outcome => outcome
  | .error _ => ⟨.ok none, codec, buffer, [.entered .decode]⟩

/--
The next line at the end of the stream, where the last one needs no line feed.
What is left then is taken or dropped as a whole.
-/
def decodeEnd (codec : LineCodec) (buffer : Bytes) : Outcome :=
  let outcome := codec.decode buffer
  match outcome.result with
  | .error _ | .ok (some _) => outcome
  | .ok none =>
      let next := { outcome.codec with searched := 0, isDiscarding := false }
      if outcome.codec.isDiscarding || outcome.buffer.isEmpty then
        { outcome with codec := next, buffer := [] }
      else
        let last := next.deliver outcome.buffer []
        { last with events := outcome.events ++ last.events }

def encode (codec : LineCodec) (text : Text) (destination : Bytes) :
    Bytes × List Event :=
  (destination ++ Utf8.encode (codec.converter.convert text),
    .entered .encode :: codec.converter.events text)

end LineCodec

end ChatCodes
