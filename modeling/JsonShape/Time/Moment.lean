import JsonShape.Time.Calendar
import JsonShape.Text.Blank

/-! Moments: an instant to the nanosecond together with the zone it is shown in, and their text
forms. -/
namespace JsonShape.Time
open Text

/-- The zone a moment is shown in: universal time, or an offset east of it in seconds. -/
inductive Zone where
  | utc
  | fixed (offset : Int)
  deriving DecidableEq

def Zone.offset : Zone → Int
  | .utc => 0
  | .fixed offset => offset

/-- Seconds are counted in universal time from the start of the first of March of the year
zero. -/
structure Moment where
  second : Int
  nano : Nat
  zone : Zone
  deriving DecidableEq

structure Clock where
  date : Date
  hour : Nat
  minute : Nat
  second : Nat
  nano : Nat

def Clock.seconds (c : Clock) : Int :=
  c.date.number * 86400 + (c.hour * 3600 + c.minute * 60 + c.second : Nat)

def Moment.ofClock (c : Clock) (zone : Zone) : Moment := ⟨c.seconds - zone.offset, c.nano, zone⟩

def Moment.clock (t : Moment) : Clock :=
  let seconds := t.second + t.zone.offset
  let day := seconds.fdiv 86400
  let rest := (seconds - day * 86400).toNat
  ⟨Date.ofNumber day, rest / 3600, rest / 60 % 60, rest % 60, t.nano⟩

def Moment.toUtc (t : Moment) : Moment := { t with zone := .utc }

def Zone.isShared : Zone → Bool
  | .utc => true
  | .fixed offset => offset % 3600 == 0 && -43200 ≤ offset && offset ≤ 50400

def Moment.identical (a b : Moment) : Bool := a == b && a.zone.isShared

def padded (width : Nat) (n : Int) : List Char :=
  let digits := Nat.toDigits 10 n.natAbs
  let body := List.replicate (width - digits.length) '0' ++ digits
  if n < 0 then '-' :: body else body

def Date.text (d : Date) : List Char :=
  padded 4 d.year ++ '-' :: padded 2 d.month ++ '-' :: padded 2 d.day

def Clock.timeText (c : Clock) : List Char :=
  let fraction := ((padded 9 c.nano).reverse.dropWhile (· == '0')).reverse
  padded 2 c.hour ++ ':' :: padded 2 c.minute ++ ':' :: padded 2 c.second ++
    (if fraction.isEmpty then [] else '.' :: fraction)

def offsetText (between : List Char) (offset : Int) : List Char :=
  let minutes := offset.natAbs / 60
  (if offset < 0 then '-' else '+') :: padded 2 (minutes / 60 : Nat) ++ between ++ padded 2
  (minutes % 60 : Nat)

def Moment.rfc3339 (t : Moment) : String :=
  let c := t.clock
  let zone := if t.zone.offset == 0 then ['Z'] else offsetText [':'] t.zone.offset
  String.ofList (c.date.text ++ 'T' :: c.timeText ++ zone)

def Moment.dateText (t : Moment) : String := String.ofList t.clock.date.text

def Moment.display (t : Moment) : String :=
  let c := t.clock
  let offset := offsetText [] t.zone.offset
  let name := if t.zone.offset == 0 then "UTC".toList else offset
  String.ofList (c.date.text ++ ' ' :: c.timeText ++ ' ' :: offset ++ ' ' :: name)

def takeTwo? (required : Bool) : List Char → Option (Nat × List Char)
  | a :: b :: rest =>
    if !isDigit a then none
    else if isDigit b then some (natOfDigits [a, b], rest)
    else if required then none
    else some (natOfDigits [a], b :: rest)
  | [a] => if isDigit a && !required then some (natOfDigits [a], []) else none
  | [] => none

def takeChar? (expected : Char) : List Char → Option (List Char)
  | c :: rest => if c == expected then some rest else none
  | [] => none

def takeDate? (cs : List Char) : Option (Date × List Char) := do
  let year := cs.take 4
  if year.length != 4 || !year.all isDigit then none
  else
    let cs ← takeChar? '-' (cs.drop 4)
    let (month, cs) ← takeTwo? true cs
    let cs ← takeChar? '-' cs
    let (day, cs) ← takeTwo? true cs
    let y : Int := natOfDigits year
    if month == 0 || month > 12 || day == 0 || day > daysInMonth y month then none
    else some (⟨y, month, day⟩, cs)

def takeFraction : List Char → Nat × List Char
  | mark :: d :: rest =>
    if (mark == '.' || mark == ',') && isDigit d then
      let digits := (d :: rest).takeWhile isDigit
      let kept := digits.take 9
      (natOfDigits kept * Nat.pow 10 (9 - kept.length), (d :: rest).dropWhile isDigit)
    else (0, mark :: d :: rest)
  | cs => (0, cs)

def readZone? : List Char → Option Zone
  | ['Z'] => some .utc
  | sign :: cs => do
    let (hours, cs) ← takeTwo? true cs
    let cs ← takeChar? ':' cs
    let (minutes, cs) ← takeTwo? true cs
    if !cs.isEmpty || hours > 24 || minutes > 60 then none
    else
      let offset : Int := (hours * 60 + minutes) * 60
      if sign == '+' then some (.fixed offset)
      else if sign == '-' then some (.fixed (-offset))
      else none
  | [] => none

def Moment.ofRfc3339? (text : String) : Option Moment := do
  let (date, cs) ← takeDate? text.toList
  let cs ← takeChar? 'T' cs
  let (hour, cs) ← takeTwo? false cs
  let cs ← takeChar? ':' cs
  let (minute, cs) ← takeTwo? true cs
  let cs ← takeChar? ':' cs
  let (second, cs) ← takeTwo? true cs
  let (nano, cs) := takeFraction cs
  let zone ← readZone? cs
  if hour ≥ 24 || minute ≥ 60 || second ≥ 60 then none
  else some (Moment.ofClock ⟨date, hour, minute, second, nano⟩ zone)

def Moment.ofDateText? (text : String) : Option Moment := do
  let (date, rest) ← takeDate? text.toList
  if rest.isEmpty then some (Moment.ofClock ⟨date, 0, 0, 0, 0⟩ .utc) else none

end JsonShape.Time
