import ChatCodes.Markup.Writer
import ChatCodes.Settings
import ChatCodes.Strip

/-!
# Converters

A converter has settings whose marker is accepted.  It turns coded text into
markup, into spans, or into text without codes, and keeps nothing between calls.
-/

namespace ChatCodes

open Markup

structure Converter where
  settings : Settings
  accepted : Marker.fault? settings.marker = none

namespace Converter

def ampersand : Converter := ⟨.ampersand, Marker.fault?_ampersand⟩

def ofSettings (settings : Settings) : Except Error Converter :=
  match h : Marker.fault? settings.marker with
  | some fault => .error (.invalidMarker settings.marker fault)
  | none => .ok ⟨settings, h⟩

def dialect (converter : Converter) : Dialect := converter.settings.toDialect

def spans (converter : Converter) (text : Text) : List Span :=
  converter.dialect.spans text

def strip (converter : Converter) (text : Text) : Stripped :=
  converter.dialect.strip text

def convert (converter : Converter) (text : Text) : Text :=
  render converter.settings.escaping (converter.dialect.literals text)

/-! ## Events -/

/-- A literal that starts with the marker is a code that was passed through. -/
def passedThrough? (marker : Char) (literal : Span) : Option Event :=
  if literal.text.head? = some marker then
    some (.passedThrough literal.text)
  else none

def events (converter : Converter) (text : Text) : List Event :=
  (converter.dialect.literals text).filterMap
    (passedThrough? converter.settings.marker)

/-! ## Conversion into a sink -/

structure Conversion where
  sink : Sink
  isComplete : Bool
  events : List Event
  deriving DecidableEq, Repr

/--
Writes literals until the sink is full.  Each is reported before it is written;
those behind the one that does not fit are never taken.
-/
def writeLiterals (marker : Char) (writer : Writer) :
    List Span → Writer.Step × List Event
  | [] => (.ok writer, [])
  | literal :: rest =>
      let reported := (passedThrough? marker literal).toList
      match writer.writeSpan literal with
      | .error full => (.error full, reported)
      | .ok next =>
          let (step, later) := writeLiterals marker next rest
          (step, reported ++ later)

def convertInto (converter : Converter) (text : Text) (sink : Sink) : Conversion :=
  let (step, events) :=
    writeLiterals converter.settings.marker
      { sink, escaping := converter.settings.escaping }
      (converter.dialect.literals text)
  match step >>= Writer.finish with
  | .ok writer => ⟨writer.sink, true, events⟩
  | .error writer => ⟨writer.sink, false, events⟩

theorem ofSettings_eq_ok {settings : Settings}
    (h : Marker.fault? settings.marker = none) :
    ofSettings settings = .ok ⟨settings, h⟩ := by
  unfold ofSettings
  split <;> simp_all

theorem ofSettings_settings (converter : Converter) :
    ofSettings converter.settings = .ok converter :=
  ofSettings_eq_ok converter.accepted

end Converter

def convert (text : Text) : Text := Converter.ampersand.convert text

def convertWithMarker (marker : Char) (text : Text) : Except Error Text := do
  let converter ← Converter.ofSettings { marker }
  return converter.convert text

end ChatCodes
