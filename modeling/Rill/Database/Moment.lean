import Rill.Text.Bytes

/-!
# Moments

A moment in time with the offset of a zone, and its text: the date and the time of day in that zone,
then the offset, or `Z` where it is nothing.
-/

namespace Rill

/-- A moment. -/
structure Moment where
  /-- The seconds since the start of 1970, in universal time. -/
  seconds : Int
  /-- The offset of the zone in seconds. -/
  offset : Int := 0
  deriving DecidableEq, Repr, Inhabited

namespace Moment

/-- The year, the month and the day of a day that is counted from the start of 1970. Years are taken
to begin in March, so that a leap day is the last day of its year, and 400 years have 146097
days. -/
def civil (day : Int) : Int × Int × Int :=
  let z := day + 719468
  let era := z.fdiv 146097
  let doe := z.fmod 146097
  let yoe := (doe - doe / 1460 + doe / 36524 - doe / 146096) / 365
  let doy := doe - (365 * yoe + yoe / 4 - yoe / 100)
  let mp := (5 * doy + 2) / 153
  let d := doy - (153 * mp + 2) / 5 + 1
  let m := if mp < 10 then mp + 3 else mp - 9
  (yoe + era * 400 + if m ≤ 2 then 1 else 0, m, d)

/-- A number with at least so many digits. -/
def digits (width : Nat) (n : Int) : Bytes :=
  (if n < 0 then text "-" else []) ++ Bytes.padLeft 0x30 width (Bytes.ofNat n.natAbs)

/-- The text of the offset. -/
def zone (offset : Int) : Bytes :=
  if offset = 0 then text "Z"
  else
    let minutes := offset.tdiv 60
    (if minutes < 0 then text "-" else text "+") ++ digits 2 (minutes.natAbs / 60) ++ text ":" ++
      digits 2 (minutes.natAbs % 60)

/-- The text of a moment. -/
def render (t : Moment) : Bytes :=
  let s := t.seconds + t.offset
  let (year, month, day) := civil (s.fdiv 86400)
  let time := s.fmod 86400
  digits 4 year ++ text "-" ++ digits 2 month ++ text "-" ++ digits 2 day ++ text "T" ++
    digits 2 (time / 3600) ++ text ":" ++ digits 2 (time / 60 % 60) ++ text ":" ++
      digits 2 (time % 60) ++
    zone t.offset

end Moment

end Rill
