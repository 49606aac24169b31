import TransparencyLog.Text.Blank

/-!
# Points in time

A stored head carries the time it was last confirmed, as a text: date, time of day and offset from
universal time. Reading is lenient about leading zeros and about blanks around the parts, but every
part must be in its range.

* `Moment.isMoment`.
-/

namespace TransparencyLog.Moment

/-- Takes something from the front of the text. -/
abbrev Reading (α : Type) := StateT (List Char) Option α

def blanks : Reading Unit := modify (List.dropWhile Blank.isBlank)

def oneOf (choices : List Char) : Reading Char := do
  match ← get with
  | c :: rest => if choices.contains c then set rest; return c else failure
  | [] => failure

/-- The number of at least one and at most `most` digits. -/
def number (most : Nat) : Reading Nat := do
  let digits := ((← get).take most).takeWhile Char.isDigit
  if digits.isEmpty then failure
  modify (List.drop digits.length)
  return digits.foldl (fun n c => 10 * n + (c.toNat - 48)) 0

/-- A part of a date or time: a number after optional blanks, in a range. -/
def part (low high : Nat) : Reading Nat := do
  blanks
  let n ← number 2
  if low ≤ n ∧ n ≤ high then return n else failure

/-- A mark between two parts, after optional blanks. -/
def mark (c : Char) : Reading Unit := do
  blanks
  discard (oneOf [c])

/-- The largest year, before or after the first one. -/
def maxYear : Nat := 262142

/-- A year: up to four digits, or any number of them after a sign. -/
def year : Reading Int := do
  blanks
  let source ← get
  match source with
  | '-' :: rest => do
    set rest
    let n ← number rest.length
    if n ≤ maxYear then return -(n : Int) else failure
  | '+' :: rest => do
    set rest
    let n ← number rest.length
    if n ≤ maxYear then return n else failure
  | _ => return (← number 4 : Nat)

def daysIn (year : Int) (month : Nat) : Nat :=
  if month = 2 then
    if year % 4 = 0 && (year % 100 ≠ 0 || year % 400 = 0) then 29 else 28
  else if month = 4 || month = 6 || month = 9 || month = 11 then 30
  else 31

def date : Reading Unit := do
  let y ← year
  mark '-'
  let m ← part 1 12
  mark '-'
  discard (part 1 (daysIn y m))

/-- A fraction of a second, if there is one. -/
def fraction : Reading Unit := do
  match ← get with
  | '.' :: rest => do
    set rest
    discard (number rest.length)
  | _ => return

def time : Reading Unit := do
  discard (part 0 23)
  mark ':'
  discard (part 0 59)
  mark ':'
  discard (part 0 60)
  fraction

def twoDigits : Reading Nat := do
  match ← get with
  | a :: b :: rest =>
    if a.isDigit && b.isDigit then
      set rest
      return 10 * (a.toNat - 48) + (b.toNat - 48)
    else failure
  | _ => failure

/-- An offset from universal time, of less than a day. -/
def offset : Reading Unit := do
  let source ← get
  if (source.take 3).map Char.toUpper = ['U', 'T', 'C'] then set (source.drop 3)
  else
    match ← oneOf ['Z', 'z', '+', '-', '\u2212'] with
    | 'Z' => return
    | 'z' => return
    | _ => do
      let hours ← twoDigits
      modify (List.dropWhile fun c => c == ':' || Blank.isBlank c)
      let minutes ← twoDigits
      if hours ≤ 23 ∧ minutes ≤ 59 then return else failure

def moment : Reading Unit := do
  date
  discard (oneOf ['T', 't', ' '])
  time
  blanks
  offset
  blanks

/-- Whether a text is a point in time. -/
def isMoment (text : String) : Bool :=
  match moment text.toList with
  | some ((), []) => true
  | _ => false

end TransparencyLog.Moment
