/-!
# Dates and times

A plain text may be a date, or a date and a time of day. Days and months, hours, minutes and seconds
may have one digit or two, the year has four.
-/

namespace StackFlow.Yaml

/-- A date and a time of day. -/
structure Timestamp where
  year : Nat
  month : Nat
  day : Nat
  hour : Nat
  minute : Nat
  second : Nat
  /-- The digits of a part of a second. -/
  part : List Char
  /-- The distance from universal time in minutes. -/
  zone : Int
  deriving DecidableEq

namespace Timestamp

/-- One digit or two at the begin of a text. -/
def number? : List Char → Option (Nat × List Char)
  | a :: b :: rest =>
    if a.isDigit && b.isDigit then some (10 * (a.toNat - 48) + (b.toNat - 48), rest)
    else if a.isDigit then some (a.toNat - 48, b :: rest)
    else none
  | [a] => if a.isDigit then some (a.toNat - 48, []) else none
  | [] => none

/-- The text behind a character. -/
def after? (c : Char) : List Char → Option (List Char)
  | d :: rest => if c == d then some rest else none
  | [] => none

/-- Whether a year has a day more in February. -/
def isLeap (year : Nat) : Bool := year % 4 == 0 && (year % 100 != 0 || year % 400 == 0)

/-- The number of days of a month. -/
def daysIn (year month : Nat) : Nat :=
  if month == 2 then (if isLeap year then 29 else 28)
  else if month == 4 || month == 6 || month == 9 || month == 11 then 30
  else 31

/-- A date: year, month and day, and the text behind it. -/
def date? (cs : List Char) : Option (Nat × Nat × Nat × List Char) := do
  let digits := cs.takeWhile Char.isDigit
  if digits.length ≠ 4 then none
  else
    let year := digits.foldl (fun n d => 10 * n + (d.toNat - 48)) 0
    let (month, cs) ← number? (← after? '-' (cs.drop 4))
    let (day, cs) ← number? (← after? '-' cs)
    if month = 0 || 12 < month || day = 0 || daysIn year month < day then none
    else return (year, month, day, cs)

/-- A time of day: hour, minute, second and the digits of a part of a second, and the text behind
it. -/
def clock? (cs : List Char) : Option (Nat × Nat × Nat × List Char × List Char) := do
  let (hour, cs) ← number? cs
  let (minute, cs) ← number? (← after? ':' cs)
  let (second, cs) ← number? (← after? ':' cs)
  if 24 ≤ hour || 60 ≤ minute || 60 ≤ second then none
  else
    match cs with
    | '.' :: d :: rest | ',' :: d :: rest =>
      if d.isDigit then
        return (hour, minute, second, (d :: rest).takeWhile Char.isDigit,
          (d :: rest).dropWhile Char.isDigit)
      else return (hour, minute, second, [], cs)
    | _ => return (hour, minute, second, [], cs)

/-- A distance from universal time that ends a text. -/
def zone? : List Char → Option Int
  | ['Z'] => some 0
  | [s, a, b, ':', c, d] =>
    if [a, b, c, d].all Char.isDigit && (s == '+' || s == '-') then
      let hours := 10 * (a.toNat - 48) + (b.toNat - 48)
      let minutes := 10 * (c.toNat - 48) + (d.toNat - 48)
      if 24 < hours || 60 < minutes then none
      else some (if s == '-' then -(60 * hours + minutes : Nat) else (60 * hours + minutes : Nat))
    else none
  | _ => none

/-- Reads a timestamp: a date; a date, spaces and a time of day; or a date, the letter T, a time of
day and a distance from universal time. -/
def ofText? (cs : List Char) : Option Timestamp := do
  let (year, month, day, cs) ← date? cs
  match cs with
  | [] => return ⟨year, month, day, 0, 0, 0, [], 0⟩
  | 'T' :: cs | 't' :: cs =>
    let (hour, minute, second, part, cs) ← clock? cs
    return ⟨year, month, day, hour, minute, second, part, ← zone? cs⟩
  | ' ' :: cs =>
    let (hour, minute, second, part, cs) ← clock? (cs.dropWhile (· == ' '))
    if cs.isEmpty then return ⟨year, month, day, hour, minute, second, part, 0⟩ else none
  | _ => none

end Timestamp

end StackFlow.Yaml
