import ChatCodes.Marker
import ChatCodes.Text.Basic

/-!
# Events

What an operation reports beside its result: a code that is not one, a refused
marker, a discarded line, and the beginning of decoding or encoding.
-/

namespace ChatCodes

inductive Operation where
  | decode
  | encode
  deriving DecidableEq, Repr

def Operation.name : Operation → String
  | .decode => "decode"
  | .encode => "encode"

inductive Level where
  | trace
  | debug
  | info
  | warn
  deriving DecidableEq, Repr

def Level.name : Level → String
  | .trace => "TRACE"
  | .debug => "DEBUG"
  | .info => "INFO"
  | .warn => "WARN"

inductive Event where
  | passedThrough (literal : Text)
  | rejectedMarker (marker : Char) (fault : Marker.Fault)
  | discardedLine (length : Nat)
  | entered (operation : Operation)
  deriving DecidableEq, Repr

namespace Event

def level : Event → Level
  | .passedThrough _ => .trace
  | .rejectedMarker _ _ => .debug
  | .discardedLine _ => .warn
  | .entered _ => .info

/-- The wording of an event.  An operation that begins is named, not worded. -/
def message? : Event → Option String
  | .passedThrough _ => some "Passing through unrecognized legacy code"
  | .rejectedMarker _ _ => some "Rejected converter configuration"
  | .discardedLine _ => some "Discarding over-long line"
  | .entered _ => none

end Event

end ChatCodes
