import ChatCodes.Marker
import ChatCodes.Text.Quoted

/-!
# Errors

Conversion itself never fails.  What can fail is choosing a marker, reading a
color, and reading lines from a stream of bytes.
-/

namespace ChatCodes

inductive Error where
  | io (cause : Text)
  | invalidMarker (marker : Char) (fault : Marker.Fault)
  | invalidHexColor (text : Text)
  | lineTooLong (length limit : Nat)
  | invalidUtf8 (position : Nat)
  deriving DecidableEq, Repr

namespace Error

def message : Error → String
  | .io cause => "I/O error: " ++ String.ofList cause
  | .invalidMarker marker fault =>
      "Invalid code marker " ++ String.ofList (Text.quoted marker) ++
        ": " ++ fault.reason
  | .invalidHexColor text =>
      "Invalid hex color '" ++ String.ofList text ++ "'"
  | .lineTooLong length limit =>
      "Line too long: " ++ toString length ++
        " bytes (maximum allowed: " ++ toString limit ++ ")"
  | .invalidUtf8 position =>
      "Invalid UTF-8 sequence at position " ++ toString position

def isConfiguration : Error → Bool
  | .invalidMarker _ _ => true
  | _ => false

def isStream : Error → Bool
  | .io _ | .lineTooLong _ _ | .invalidUtf8 _ => true
  | _ => false

end Error

end ChatCodes
