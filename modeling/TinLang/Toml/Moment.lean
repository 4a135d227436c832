import TinLang.Toml.Number

/-!
# Moments of TOML

A moment is a date, a time of day, or both with an optional offset from universal time. Numbers
have a fixed count of digits, the day exists in its month, and seconds and their fraction may be
left out.
-/
namespace TinLang.Toml.Moment

/-- A number of exactly so many digits at the front of a text, and the text after it. -/
def digits? (count : Nat) (text : Text) : Option (Nat × Text) := do
  let digits := text.take count
  guard (digits.length = count && digits.all isDigit)
  return (← Numeral.ofDigits? 10 digits, text.drop count)

/-- The text after a mark. -/
def mark? (mark : Char) (text : Text) : Option Text := Text.dropLeading? [Text.byte mark] text

/-- The year has a leap day. -/
def isLeapYear (year : Nat) : Bool := year % 4 == 0 && (year % 100 != 0 || year % 400 == 0)

/-- How many days a month has. -/
def daysIn (year month : Nat) : Nat :=
  match month with
  | 2 => if isLeapYear year then 29 else 28
  | 4 => 30
  | 6 => 30
  | 9 => 30
  | 11 => 30
  | _ => 31

/-- The text after a date. -/
def afterDate? (text : Text) : Option Text := do
  let (year, text) ← digits? 4 text
  let text ← mark? '-' text
  let (month, text) ← digits? 2 text
  let text ← mark? '-' text
  let (day, text) ← digits? 2 text
  guard (1 ≤ month ∧ month ≤ 12 ∧ 1 ≤ day ∧ day ≤ daysIn year month)
  return text

/-- The text after a fraction of a second, if there is one. -/
def afterFraction (text : Text) : Text :=
  match mark? '.' text with
  | some fraction =>
    let digits := fraction.takeWhile isDigit
    if digits.isEmpty then text else fraction.drop digits.length
  | none => text

/-- The text after a time of day. -/
def afterTime? (text : Text) : Option Text := do
  let (hour, text) ← digits? 2 text
  let text ← mark? ':' text
  let (minute, text) ← digits? 2 text
  guard (hour < 24 ∧ minute < 60)
  match mark? ':' text with
  | none => return text
  | some text =>
    let (second, text) ← digits? 2 text
    guard (second < 60)
    return afterFraction text

/-- The text after an offset from universal time. -/
def afterOffset? (text : Text) : Option Text :=
  match mark? 'Z' text with
  | some text => some text
  | none => do
    guard ((text.head?.map isSign).getD false)
    let (hours, text) ← digits? 2 (text.drop 1)
    let text ← mark? ':' text
    let (minutes, text) ← digits? 2 text
    guard (hours ≤ 24 ∧ minutes ≤ 60)
    return text

/-- A text without the blanks around it. -/
def trimmed (text : Text) : Text :=
  Text.trimEnd (Text.byte ' ') (text.dropWhile (· == Text.byte ' '))

/-- The marks of a moment in capitals; a blank before the time is a mark too. -/
def capital (byte : UInt8) : UInt8 :=
  if byte = Text.byte 'z' then Text.byte 'Z'
  else if byte = Text.byte 't' ∨ byte = Text.byte ' ' then Text.byte 'T'
  else byte

/-- The text is all of a moment. -/
def isMoment (text : Text) : Bool :=
  let text := (trimmed text).map capital
  match afterDate? text with
  | none => afterTime? text == some []
  | some [] => true
  | some rest =>
    match mark? 'T' rest >>= afterTime? with
    | none => false
    | some [] => true
    | some rest => afterOffset? rest == some []

end TinLang.Toml.Moment
