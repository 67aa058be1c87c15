import ChatCodes.Token.Scan

/-!
# Stripping

Stripping removes the codes of a text and keeps everything else.  A text without
the marker is handed back as it is.
-/

namespace ChatCodes

inductive Stripped where
  | unchanged (text : Text)
  | rebuilt (text : Text)
  deriving DecidableEq, Repr

namespace Stripped

def text : Stripped → Text
  | .unchanged text => text
  | .rebuilt text => text

def isUnchanged : Stripped → Bool
  | .unchanged _ => true
  | .rebuilt _ => false

end Stripped

namespace Dialect

def withoutCodes (dialect : Dialect) (text : Text) : Text :=
  (Token.scan dialect text).flatMap Token.text

def strip (dialect : Dialect) (text : Text) : Stripped :=
  if dialect.marker ∈ text then .rebuilt (dialect.withoutCodes text)
  else .unchanged text

/-- Whether or not the marker occurs, what is left are the literals. -/
theorem text_strip (dialect : Dialect) (text : Text) :
    (dialect.strip text).text = dialect.withoutCodes text := by
  unfold strip
  split
  · rfl
  · next hmarker =>
      cases text with
      | nil => simp [Stripped.text, withoutCodes]
      | cons first rest =>
          simp [Stripped.text, withoutCodes,
            Token.scan_of_not_mem hmarker, Token.text]

end Dialect

/-- Removes the codes of the plain dialect with the given marker, whatever it is. -/
def stripCodes (marker : Char) (text : Text) : Stripped :=
  ({ marker } : Dialect).strip text

end ChatCodes
