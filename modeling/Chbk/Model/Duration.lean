import Mathlib
import Chbk.Model.Text

/-!
# Durations on the command line

`parse_duration_minutes` of `main.rs`: a number with a unit suffix, in minutes,
with the wrapping arithmetic of a release build. Which characters are
alphabetic is a parameter (`char::is_alphabetic`).
-/

namespace Chbk

/-- The text of the number, and the unit. A capital `M` comes first. -/
def splitUnit (isAlphabetic : Char → Bool) (s : String) : Except AnyError (String × Char) :=
  match stripSuffix? s "M" with
  | some stripped => .ok (stripped, 'M')
  | none =>
    match s.toList.getLast?.filter isAlphabetic with
    | some unit => .ok (String.ofList s.toList.dropLast, unit)
    | none => .error ["Duration must have unit suffix (m/h/d/w/M): " ++ s]

/-- The number and the unit of a trimmed text. -/
def readDuration (isAlphabetic : Char → Bool) (s : String) : Except AnyError (UInt64 × Char) := do
  if s = "" then throw ["Empty duration string"]
  let (numStr, unit) ← splitUnit isAlphabetic s
  match parseUnsigned (2 ^ 64) numStr with
  | .ok num => return (UInt64.ofNat num, unit)
  | .error e => throw ["Invalid number in duration: " ++ s, e]

/-- The number in minutes; products wrap around. -/
def inMinutes (num : UInt64) : Char → Except AnyError UInt64
  | 'm' => .ok num
  | 'h' => .ok (num * 60)
  | 'd' => .ok (num * 60 * 24)
  | 'w' => .ok (num * 60 * 24 * 7)
  | 'M' => .ok (num * 60 * 24 * 30)
  | unit => .error ["Invalid unit '" ++ String.ofList [unit]
      ++ "'. Use m (minutes), h (hours), d (days), w (weeks), M (months)"]

def parseDurationMinutes (isAlphabetic : Char → Bool) (s : String) : Except AnyError UInt64 := do
  let (num, unit) ← readDuration isAlphabetic (trim s)
  inMinutes num unit

example : [" 24h ", "3M", "18446744073709551615h", "1x", "-1h"].map
    (fun s => (parseDurationMinutes Char.isAlpha s).toOption) =
    [some 1440, some 129600, some 18446744073709551556, none, none] := by decide +kernel

end Chbk
