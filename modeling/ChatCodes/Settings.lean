import ChatCodes.Dialect
import ChatCodes.Error
import ChatCodes.Event

/-!
# Settings

A dialect together with the choice whether markup characters in the text are
escaped.  Any marker can be set; `validate` refuses those with a fault.
-/

namespace ChatCodes

structure Settings extends Dialect where
  escaping : Bool := false
  deriving DecidableEq, Repr

namespace Settings

def ampersand : Settings := {}

def sectionSign : Settings := { marker := Marker.sectionSign }

def extended : Settings := { hexColors := true, escaping := true }

def validate (settings : Settings) : Except Error Unit :=
  match Marker.fault? settings.marker with
  | some fault => .error (.invalidMarker settings.marker fault)
  | none => .ok ()

/-- What is reported each time the settings are refused. -/
def rejection? (settings : Settings) : Option Event :=
  (Marker.fault? settings.marker).map (.rejectedMarker settings.marker)

theorem validate_eq_ok_iff {settings : Settings} :
    settings.validate = .ok () ↔ Marker.fault? settings.marker = none := by
  unfold validate
  split <;> simp_all

end Settings

end ChatCodes
