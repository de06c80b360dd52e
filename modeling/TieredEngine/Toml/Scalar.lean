import TieredEngine.Number.Reading
import TieredEngine.Text.Quoted

/-!
Numbers of a configuration document. The document keeps a number as it is written; its value is
looked for only when a setting takes it. Single underscores may stand between digits. Whole numbers
are decimal, or have a mark for one of three other bases, and fit sixty-four bits.
-/
namespace TieredEngine.Toml
open TieredEngine

inductive Base where
  | binary | octal | decimal | hexadecimal
  deriving DecidableEq, Repr

namespace Base

def size : Base → Nat
  | binary => 2
  | octal => 8
  | decimal => 10
  | hexadecimal => 16

def name : Base → String
  | binary => "binary"
  | octal => "octal"
  | decimal => "decimal"
  | hexadecimal => "hexadecimal"

/-- The base that a letter after a leading zero stands for. -/
def ofMark? : Char → Option Base
  | 'x' => some hexadecimal
  | 'o' => some octal
  | 'b' => some binary
  | _ => none

/-- Digits of the base, and underscores. -/
def isDigit (b : Base) (c : Char) : Bool :=
  c == '_' || (Text.digitValue? c).any (· < b.size)

end Base

/-- Why a number has no value. -/
inductive NumberError where
  | underscoreFirst | underscoreLast | underscoresTogether
  | underscoreBeforeExponent | underscoreAfterExponent
  | underscoreBeforePoint | underscoreAfterPoint
  | leadingZero | leadingZeroes
  | pointFirst | pointLast | points | pointAfterNoDigit | pointBeforeNoDigit
  | whole (base : Base) (digits : String) (cause : Text.NumeralError)
  | fraction (digits : String) (cause : Text.NumeralError)
  deriving DecidableEq, Repr

def NumberError.message : NumberError → String
  | underscoreFirst => "number cannot start with underscore"
  | underscoreLast => "number cannot end with underscore"
  | underscoresTogether => "number must have at least one digit between underscores"
  | underscoreBeforeExponent => "cannot have underscore before exponent"
  | underscoreAfterExponent => "cannot have underscore after exponent"
  | underscoreBeforePoint => "cannot have underscore before decimal point"
  | underscoreAfterPoint => "cannot have underscore after decimal point"
  | leadingZero => "leading zero not allowed on decimal number"
  | leadingZeroes => "float integer part cannot have leading zeroes"
  | pointFirst => "float cannot start with a dot"
  | pointLast => "float cannot end with a dot"
  | points => "float can have at most one decimal point"
  | pointAfterNoDigit => "float decimal point must be preceded by a digit"
  | pointBeforeNoDigit => "float decimal point must be followed by a digit"
  | whole base digits cause =>
    s!"couldn't parse {base.name} number: strconv.ParseInt: parsing " ++ Text.quoted digits ++
      ": " ++ cause.message
  | fraction digits cause =>
    "unable to parse float: strconv.ParseFloat: parsing " ++ Text.quoted digits ++ ": " ++
      cause.message

/-- A number without its sign. -/
def unsigned : List Char → List Char
  | '+' :: r => r
  | '-' :: r => r
  | s => s

def withoutUnderscores (s : List Char) : List Char := s.filter (· != '_')

/-- Whether two underscores stand side by side. -/
def underscoresMeet : List Char → Bool
  | '_' :: '_' :: _ => true
  | _ :: r => underscoresMeet r
  | [] => false

/-- Digits of a whole number without its underscores. -/
def wholeDigits (s : List Char) : Except NumberError (List Char) :=
  let digits := unsigned s
  if digits.head? == some '_' then .error .underscoreFirst
  else if digits.getLast? == some '_' then .error .underscoreLast
  else if underscoresMeet s then .error .underscoresTogether
  else .ok (withoutUnderscores s)

def wholeOfBase (base : Base) (digits : List Char) : Except NumberError Int :=
  (Text.signedDigits base.size 64 digits).mapError (.whole base (String.ofList digits))

/-- Value of a whole number. -/
def wholeValue (s : List Char) : Except NumberError Int := do
  match s with
  | '0' :: mark :: first :: more =>
    if let some base := Base.ofMark? mark then
      return ← wholeOfBase base (← wholeDigits (first :: more))
  | _ => pure ()
  let digits ← wholeDigits s
  match unsigned digits with
  | '0' :: _ :: _ => .error .leadingZero
  | _ => wholeOfBase .decimal digits

/-- What the underscores of a fraction do wrong first; `before` says whether a digit was seen since
the last underscore or sign, and `last` is the character before. -/
def fractionUnderscores (before : Bool) (last : Option Char) : List Char → Except NumberError Unit
  | [] => .ok ()
  | c :: r =>
    let next := r.head?
    if c == '_' then
      if !before then .error .underscoresTogether
      else if next == some 'e' || next == some 'E' then .error .underscoreBeforeExponent
      else fractionUnderscores false (some c) r
    else if c == '+' || c == '-' then fractionUnderscores false (some c) r
    else if c == 'e' || c == 'E' then
      if next == some '_' then .error .underscoreAfterExponent
      else fractionUnderscores before (some c) r
    else if c == '.' then
      if next == some '_' then .error .underscoreAfterPoint
      else if last == some '_' then .error .underscoreBeforePoint
      else fractionUnderscores before (some c) r
    else fractionUnderscores true (some c) r

/-- Checks that a number has at most one point, and that digits stand on both sides of it. -/
def fractionPoint (seen : Bool) (last : Option Char) : List Char → Except NumberError Unit
  | [] => .ok ()
  | c :: r =>
    if c != '.' then fractionPoint seen (some c) r
    else if seen then .error .points
    else if !last.any Char.isDigit then .error .pointAfterNoDigit
    else if !r.head?.any Char.isDigit then .error .pointBeforeNoDigit
    else fractionPoint true (some c) r

/-- Whether a number with a fraction or an exponent has a value. -/
def checkFraction (s : List Char) : Except NumberError Unit := do
  if s = "+nan".toList || s = "-nan".toList then return ()
  if s.head? == some '_' then throw .underscoreFirst
  if s.getLast? == some '_' then throw .underscoreLast
  if s.contains '_' then fractionUnderscores false none s
  let digits := withoutUnderscores s
  if digits.head? == some '.' then throw .pointFirst
  if digits.getLast? == some '.' then throw .pointLast
  fractionPoint false none digits
  match unsigned digits with
  | '0' :: c :: _ => if c.isDigit then throw .leadingZeroes
  | _ => pure ()
  match Number.readLiteral digits with
  | .ok _ => return ()
  | .error cause => throw (.fraction (String.ofList digits) cause)

end TieredEngine.Toml

/-!
Dates and times of a configuration document. The document keeps one as it is written, together with
what it looks like: a day, a time of the day, or both, with a zone or without. Whether it exists is
asked only when a setting takes it.
-/
namespace TieredEngine.Toml

/-- What a date looks like. -/
inductive DateForm where
  | day | time | dayAndTime | instant
  deriving DecidableEq, Repr

/-- Why there is no such date. -/
inductive DateError where
  | dayFormat | timeFormat | dayAndTimeFormat
  | notDigit | impossible | separator
  | hour | minute | second | colonAfterHour | colonAfterMinute | fraction
  | zoneFormat | zoneSign | zoneColon | zoneHours | zoneMinutes
  | afterTime | afterDayAndTime | afterZone
  deriving DecidableEq, Repr

def DateError.message : DateError → String
  | dayFormat => "dates are expected to have the format YYYY-MM-DD"
  | timeFormat => "times are expected to have the format HH:MM:SS[.NNNNNN]"
  | dayAndTimeFormat =>
    "local datetimes are expected to have the format YYYY-MM-DDTHH:MM:SS[.NNNNNNNNN]"
  | notDigit => "expected digit (0-9)"
  | impossible => "impossible date"
  | separator => "datetime separator is expected to be T or a space"
  | hour => "hour cannot be greater 23"
  | minute => "minutes cannot be greater 59"
  | second => "seconds cannot be greater 60"
  | colonAfterHour => "expecting colon between hours and minutes"
  | colonAfterMinute => "expecting colon between minutes and seconds"
  | fraction => "need at least one digit after fraction point"
  | zoneFormat => "invalid date-time timezone"
  | zoneSign => "invalid timezone offset character"
  | zoneColon => "expected a : separator"
  | zoneHours => "invalid timezone offset hours"
  | zoneMinutes => "invalid timezone offset minutes"
  | afterTime => "extra characters at the end of a local time"
  | afterDayAndTime => "extra characters at the end of a local date time"
  | afterZone => "extra bytes at the end of the timezone"

/-- What the characters of a date tell about its form. -/
structure DateMarks where
  hasDay : Bool := false
  hasTime : Bool := false
  hasZone : Bool := false

namespace DateMarks

/-- Adds a character that stands at a position. A dash belongs to a zone from the ninth position
on. -/
def add (m : DateMarks) (position : Nat) (c : Char) : DateMarks where
  hasDay := m.hasDay || c == '-'
  hasTime := m.hasTime || ['T', 't', ':', '.', ' '].contains c
  hasZone := m.hasZone || ['+', 'Z', 'z'].contains c || (c == '-' && 8 ≤ position)

def form (m : DateMarks) : DateForm :=
  if !m.hasTime then .day
  else if !m.hasDay then .time
  else if m.hasZone then .instant
  else .dayAndTime

end DateMarks

/-- Characters of dates and times. -/
def isDateChar (c : Char) : Bool :=
  c.isDigit || ['-', 'T', 't', ':', '.', '+', 'Z', 'z'].contains c

/-- A date begins with four digits and a dash, a time with two digits and a colon. -/
def startsDate : List Char → Bool
  | a :: b :: c :: rest =>
    a.isDigit && b.isDigit &&
      (c == ':' || (c.isDigit &&
        match rest with
        | d :: e :: _ => d.isDigit && e == '-'
        | _ => false))
  | _ => false

/-- Takes the characters of a date off a text. One blank may stand before a digit; that digit and
the character after it are taken with the blank, whatever they are. -/
def takeDate (position : Nat) (spaced : Bool) : List Char → List Char × DateMarks × List Char
  | ' ' :: d :: r =>
    if spaced || !d.isDigit then ([], {}, ' ' :: d :: r)
    else match r with
    | [] => ([' ', d], DateMarks.add {} position ' ', [])
    | x :: r =>
      let (token, marks, rest) := takeDate (position + 3) true r
      (' ' :: d :: x :: token, marks.add position ' ', rest)
  | c :: r =>
    if isDateChar c then
      let (token, marks, rest) := takeDate (position + 1) spaced r
      (c :: token, marks.add position c, rest)
    else ([], {}, c :: r)
  | [] => ([], {}, [])

/-- Days of a month. -/
def daysIn (year month : Nat) : Nat :=
  if month = 2 then if (year % 4 = 0 && year % 100 ≠ 0) || year % 400 = 0 then 29 else 28
  else if [4, 6, 9, 11].contains month then 30
  else 31

/-- Value of decimal digits. -/
def digitsValue (s : List Char) : Except DateError Nat :=
  s.foldlM (fun n c => if c.isDigit then .ok (n * 10 + (c.toNat - 48)) else .error .notDigit) 0

/-- Checks a day that fills the whole text. -/
def checkDay (s : List Char) : Except DateError Unit := do
  if s.length ≠ 10 || s[4]? != some '-' || s[7]? != some '-' then throw .dayFormat
  let year ← digitsValue (s.take 4)
  let month ← digitsValue ((s.drop 5).take 2)
  let day ← digitsValue (s.drop 8)
  if month < 1 || 12 < month || day < 1 || daysIn year month < day then throw .impossible

/-- Checks a time and gives what stands after it. A minute may have a sixty-first second. -/
def checkTime (s : List Char) : Except DateError (List Char) := do
  if s.length < 8 then throw .timeFormat
  let hour ← digitsValue (s.take 2)
  if 23 < hour then throw .hour
  if s[2]? != some ':' then throw .colonAfterHour
  let minute ← digitsValue ((s.drop 3).take 2)
  if 59 < minute then throw .minute
  if s[5]? != some ':' then throw .colonAfterMinute
  let second ← digitsValue ((s.drop 6).take 2)
  if 60 < second then throw .second
  match s.drop 8 with
  | '.' :: r =>
    if !r.head?.any Char.isDigit then throw .fraction
    return r.dropWhile Char.isDigit
  | r => return r

/-- Checks a day and a time and gives what stands after them. -/
def checkDayAndTime (s : List Char) : Except DateError (List Char) := do
  if s.length < 11 then throw .dayAndTimeFormat
  checkDay (s.take 10)
  match s.drop 10 with
  | c :: r => if ['T', 't', ' '].contains c then checkTime r else throw .separator
  | [] => throw .dayAndTimeFormat

/-- Checks a zone: a letter for none, or hours and minutes with a sign. -/
def checkZone : List Char → Except DateError Unit
  | 'Z' :: r => if r.isEmpty then .ok () else .error .afterZone
  | 'z' :: r => if r.isEmpty then .ok () else .error .afterZone
  | s => do
    if s.length ≠ 6 then throw .zoneFormat
    if s.head? != some '+' && s.head? != some '-' then throw .zoneSign
    if s[3]? != some ':' then throw .zoneColon
    let hours ← digitsValue ((s.drop 1).take 2)
    if 23 < hours then throw .zoneHours
    let minutes ← digitsValue (s.drop 4)
    if 59 < minutes then throw .zoneMinutes

/-- Checks a date of a form. -/
def DateForm.check (form : DateForm) (s : List Char) : Except DateError Unit := do
  match form with
  | .day => checkDay s
  | .time => if !(← checkTime s).isEmpty then throw .afterTime
  | .dayAndTime => if !(← checkDayAndTime s).isEmpty then throw .afterDayAndTime
  | .instant => checkZone (← checkDayAndTime s)

end TieredEngine.Toml
