import ChatCodes.Color.Named

/-!
# The nearest named color

Colors are compared by hue, saturation and value, each a number from 0 to 1 in
single precision.  The hue runs in a circle, so two hues are at most half a turn
apart, and a difference of hue weighs three times as much as one of saturation
or value.  Of several colors at the same distance the first in code order wins.
-/

namespace ChatCodes

structure Hsv where
  hue : Float32
  saturation : Float32
  value : Float32

namespace Hsv

def ofRgb (color : Rgb) : Hsv :=
  let red := color.red.toFloat32 / 255.0
  let green := color.green.toFloat32 / 255.0
  let blue := color.blue.toFloat32 / 255.0
  let largest := max (max red green) blue
  let smallest := min (min red green) blue
  let delta := largest - smallest
  let saturation := if largest == 0.0 then 0.0 else delta / largest
  if delta == 0.0 then ⟨0.0, saturation, largest⟩
  else
    let sextant :=
      if red == largest then (green - blue) / delta
      else if green == largest then 2.0 + (blue - red) / delta
      else 4.0 + (red - green) / delta
    let degrees := sextant * 60.0
    let turned := if degrees < 0.0 then degrees + 360.0 else degrees
    ⟨turned / 360.0, saturation, largest⟩

/-- The sum of the squared differences, with the hue around the circle and tripled. -/
def distance (a b : Hsv) : Float32 :=
  let apart := (a.hue - b.hue).abs
  let hue := 3.0 * min apart (1.0 - apart)
  let saturation := a.saturation - b.saturation
  let value := a.value - b.value
  hue * hue + saturation * saturation + value * value

end Hsv

namespace NamedColor

/-- The first of the named colors at the least distance. -/
def nearest (color : Rgb) : NamedColor :=
  let distanceTo (candidate : NamedColor) : Float32 :=
    (Hsv.ofRgb color).distance (Hsv.ofRgb candidate.rgb)
  all.foldl (fun best candidate =>
    if distanceTo candidate < distanceTo best then candidate else best) .black

def nearestToText? (text : Text) : Option NamedColor :=
  (Rgb.ofText? text).map nearest

end NamedColor

end ChatCodes
