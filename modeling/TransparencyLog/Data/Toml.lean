import TransparencyLog.Data.Basic

/-!
# TOML

The format of configuration files. A document is read line by line into a tree of named items,
which then stands for a table of data. Numbers with fractions, and dates and times, are checked
for their form and kept as text.

A table may be begun by one header only, an item may be set once only, and a dotted key may add to
no table but one that dotted keys began.

* `Toml.value`: one value;
* `Toml.Items`, `Toml.setValue?`, `Toml.openTable?`, `Toml.addTable?`: the tree;
* `Toml.parse?`: a document.
-/

namespace TransparencyLog.Toml

/-- Takes something from the front of the text. -/
abbrev Reading (α : Type) := StateT (List Char) Option α

/-! ## Characters and lines -/

def tryText (text : String) : Reading Bool := do
  let source ← get
  if text.toList.isPrefixOf source then
    set (source.drop text.length)
    return true
  else return false

def expect (text : String) : Reading Unit := do
  if !(← tryText text) then failure

/-- Takes the characters at the front that satisfy a test. -/
def takeWhile (p : Char → Bool) : Reading (List Char) := do
  let source ← get
  set (source.dropWhile p)
  return source.takeWhile p

/-- A space or tab. -/
def isBlank (c : Char) : Bool := c == ' ' || c == '\t'

def blanks : Reading Unit := discard (takeWhile isBlank)

/-- A character that a line may hold as it is. -/
def isPlain (c : Char) : Bool := c == '\t' || (32 ≤ c.toNat && c.toNat ≠ 127)

/-- Takes the end of a line if it comes next. -/
def tryNewline : Reading Bool := do
  if ← tryText "\n" then return true
  tryText "\r\n"

/-- Takes a comment if one comes next. -/
def comment : Reading Unit := do
  if ← tryText "#" then discard (takeWhile isPlain)

/-- Takes what may stand after the last item of a line, and the line's end. -/
def lineEnd : Reading Unit := do
  blanks
  comment
  if !(← get).isEmpty && !(← tryNewline) then failure

/-- Skips blanks, comments and ends of lines; the first argument bounds the number of lines. -/
def space : Nat → Reading Unit
  | 0 => failure
  | fuel + 1 => do
    blanks
    comment
    if ← tryNewline then space fuel

/-! ## Strings -/

def hexValue? (c : Char) : Option Nat :=
  if '0' ≤ c ∧ c ≤ '9' then some (c.toNat - 48)
  else if 'a' ≤ c ∧ c ≤ 'f' then some (c.toNat - 87)
  else if 'A' ≤ c ∧ c ≤ 'F' then some (c.toNat - 55)
  else none

/-- The character whose number the next hexadecimal digits write. -/
def hexChar (count : Nat) : Reading Char := do
  let digits := (← get).take count
  if digits.length < count then failure
  modify (List.drop count)
  let values ← (digits.mapM hexValue? : Option (List Nat))
  let n := values.foldl (fun n v => 16 * n + v) 0
  if h : n.isValidChar then return Char.ofNatAux n h else failure

/-- The character that an escape stands for. -/
def escape : Reading Char := do
  match ← get with
  | c :: rest => do
    set rest
    match c with
    | 'b' => return '\x08'
    | 't' => return '\t'
    | 'n' => return '\n'
    | 'f' => return '\x0c'
    | 'r' => return '\r'
    | '"' => return '"'
    | '\\' => return '\\'
    | 'u' => hexChar 4
    | 'U' => hexChar 8
    | _ => failure
  | [] => failure

/-- The rest of a string on one line. The first argument of this and the following readers bounds
their steps. -/
def basic : Nat → List Char → Reading String
  | 0, _ => failure
  | fuel + 1, out => do
    if ← tryText "\"" then return String.ofList out.reverse
    if ← tryText "\\" then return ← basic fuel ((← escape) :: out)
    match ← get with
    | c :: rest => if isPlain c then set rest; basic fuel (c :: out) else failure
    | [] => failure

/-- The rest of a string on one line without escapes. -/
def literal : Reading String := do
  let content ← takeWhile fun c => isPlain c && c != '\''
  expect "'"
  return String.ofList content

/-- Whether an escape at the front skips the end of the line. -/
def escapesLine (source : List Char) : Bool :=
  match source.dropWhile isBlank with
  | '\n' :: _ => true
  | '\r' :: '\n' :: _ => true
  | _ => false

/-- Skips blanks and ends of lines. -/
def trimLines : Reading Unit :=
  discard (takeWhile fun c => isBlank c || c == '\n' || c == '\r')

/-- Takes a run of quotes inside or at the end of a string over several lines: three end it, up to
two more belong to it. Gives the quotes that belong to it and whether it ends. -/
def quotes (quote : Char) : Reading (List Char × Bool) := do
  let count := ((← get).takeWhile (· == quote)).length
  if count < 3 then
    modify (List.drop count)
    return (List.replicate count quote, false)
  else
    let extra := min (count - 3) 2
    modify (List.drop (extra + 3))
    return (List.replicate extra quote, true)

/-- The rest of a string over several lines. -/
def multiline (quote : Char) (escapes : Bool) : Nat → List Char → Reading String
  | 0, _ => failure
  | fuel + 1, out => do
    match ← get with
    | [] => failure
    | c :: rest =>
      if c = quote then
        let (inner, ended) ← quotes quote
        if ended then return String.ofList (inner ++ out).reverse
        multiline quote escapes fuel (inner ++ out)
      else if c = '\\' && escapes then
        set rest
        if escapesLine rest then
          trimLines
          multiline quote escapes fuel out
        else multiline quote escapes fuel ((← escape) :: out)
      else if ← tryNewline then multiline quote escapes fuel ('\n' :: out)
      else if isPlain c then
        set rest
        multiline quote escapes fuel (c :: out)
      else failure

/-! ## Keys -/

/-- A character of a bare key. -/
def isKeyPart (c : Char) : Bool := c.isAlphanum || c == '_' || c == '-'

def keyPart : Reading String := do
  if ← tryText "\"" then return ← basic ((← get).length + 1) []
  if ← tryText "'" then return ← literal
  let name ← takeWhile isKeyPart
  if name.isEmpty then failure
  return String.ofList name

/-- A key: parts with points between them. -/
def key : Nat → Reading (List String)
  | 0 => failure
  | fuel + 1 => do
    blanks
    let first ← keyPart
    blanks
    if ← tryText "." then return first :: (← key fuel)
    return [first]

/-! ## Numbers, dates and times -/

/-- Digits of a base with single underscores between them, as a number. -/
def digitsNumber? (base : Nat) (digits : List Char) : Option Nat :=
  let rec go (n : Nat) (afterDigit : Bool) : List Char → Option Nat
    | [] => if afterDigit then some n else none
    | '_' :: rest => if afterDigit then go n false rest else none
    | c :: rest => do
      let v ← hexValue? c
      if v < base then go (base * n + v) true rest else none
  go 0 false digits

/-- The digits of a decimal number: no leading zero. -/
def decimal? (digits : List Char) : Option Nat :=
  match digits with
  | '0' :: _ :: _ => none
  | _ => digitsNumber? 10 digits

/-- An integer of 64 bits. -/
def integer? (word : List Char) : Option Int := do
  let n : Int ← match word with
    | '0' :: 'x' :: digits => (digitsNumber? 16 digits).map Int.ofNat
    | '0' :: 'o' :: digits => (digitsNumber? 8 digits).map Int.ofNat
    | '0' :: 'b' :: digits => (digitsNumber? 2 digits).map Int.ofNat
    | '-' :: digits => (decimal? digits).map fun n => -(n : Int)
    | '+' :: digits => (decimal? digits).map Int.ofNat
    | digits => (decimal? digits).map Int.ofNat
  if Int64.minValue.toInt ≤ n ∧ n ≤ Int64.maxValue.toInt then some n else none

def unsigned (word : List Char) : List Char :=
  match word with
  | '-' :: rest => rest
  | '+' :: rest => rest
  | rest => rest

/-- The form of a number with a fraction or an exponent, or of no finite number. -/
def isFraction (word : List Char) : Bool :=
  let body := unsigned word
  let isExponent (c : Char) : Bool := c == 'e' || c == 'E'
  let mantissa := body.takeWhile fun c => !isExponent c
  let exponent := body.dropWhile fun c => !isExponent c
  let whole := mantissa.takeWhile (· != '.')
  let fraction := mantissa.dropWhile (· != '.')
  let exponentOk := exponent.isEmpty || (digitsNumber? 10 (unsigned (exponent.drop 1))).isSome
  let fractionOk := fraction.isEmpty || (digitsNumber? 10 (fraction.drop 1)).isSome
  body == "inf".toList || body == "nan".toList ||
    ((decimal? whole).isSome && exponentOk && fractionOk && !(exponent.isEmpty && fraction.isEmpty))

/-- The number written by exactly so many digits. -/
def fixed? (count : Nat) (digits : List Char) : Option Nat :=
  if digits.length = count && digits.all Char.isDigit then digitsNumber? 10 digits else none

/-- Whether a number lies in a range. -/
def within (low high : Nat) (n : Option Nat) : Bool := n.any fun n => low ≤ n && n ≤ high

def daysIn (year month : Nat) : Nat :=
  if month = 2 then
    if year % 4 = 0 && (year % 100 ≠ 0 || year % 400 = 0) then 29 else 28
  else if month = 4 || month = 6 || month = 9 || month = 11 then 30
  else 31

/-- A date as year, month and day. -/
def isDate (s : List Char) : Bool :=
  match fixed? 4 (s.take 4), fixed? 2 ((s.drop 5).take 2), fixed? 2 (s.drop 8) with
  | some year, some month, some day =>
    s[4]? == some '-' && s[7]? == some '-' && 1 ≤ month && month ≤ 12 && 1 ≤ day &&
      day ≤ daysIn year month
  | _, _, _ => false

/-- A time of day, with or without a fraction of a second. -/
def isTime (s : List Char) : Bool :=
  let fraction := s.drop 8
  within 0 23 (fixed? 2 (s.take 2)) && s[2]? == some ':' &&
    within 0 59 (fixed? 2 ((s.drop 3).take 2)) && s[5]? == some ':' &&
    within 0 60 (fixed? 2 ((s.drop 6).take 2)) &&
    (fraction.isEmpty ||
      (fraction.head? == some '.' && fraction.length > 1 && (fraction.drop 1).all Char.isDigit))

/-- A time of day with or without an offset. -/
def isOffsetTime (s : List Char) : Bool :=
  let time := s.takeWhile fun c => c.isDigit || c == ':' || c == '.'
  let offset := s.dropWhile fun c => c.isDigit || c == ':' || c == '.'
  isTime time &&
    match offset with
    | [] => true
    | ['Z'] => true
    | ['z'] => true
    | sign :: rest =>
      (sign == '+' || sign == '-') && rest.length == 5 && rest[2]? == some ':' &&
        within 0 23 (fixed? 2 (rest.take 2)) && within 0 59 (fixed? 2 (rest.drop 3))

/-- A date, a time, or both. -/
def isMoment (s : List Char) : Bool :=
  isDate s || isTime s ||
    (isDate (s.take 10) && (s[10]? == some 'T' || s[10]? == some 't' || s[10]? == some ' ') &&
      isOffsetTime (s.drop 11))

/-- The value of a bare word. -/
def wordValue? (word : List Char) : Option Data :=
  if word = "true".toList then some (.bool true)
  else if word = "false".toList then some (.bool false)
  else match integer? word with
    | some n => some (.integer n)
    | none => if isFraction word || isMoment word then some (.other (String.ofList word)) else none

/-- A character of a bare word. -/
def isWordPart (c : Char) : Bool :=
  c.isAlphanum || c == '_' || c == '+' || c == '-' || c == '.' || c == ':'

/-- A bare word; a date may be followed by a blank and a time. -/
def word : Reading Data := do
  let first ← takeWhile isWordPart
  let whole ← do
    match ← get with
    | ' ' :: c :: rest =>
      if isDate first && c.isDigit then do
        set (c :: rest)
        pure (first ++ ' ' :: (← takeWhile isWordPart))
      else pure first
    | _ => pure first
  (wordValue? whole : Option Data)

/-! ## Trees of items -/

/-- How a table came to be. -/
inductive Origin
  | header
  | implied
  | dotted
deriving DecidableEq, Repr

/-- What a name stands for: a finished value, a table, or a list of tables, the latest last. -/
inductive Item
  | value (d : Data)
  | table (origin : Origin) (items : List (String × Item))
  | tables (earlier : List Item) (latest : List (String × Item))

/-- Named items in order. -/
abbrev Items := List (String × Item)

/-- Sets the item of a name, in its place or at the end. -/
def Items.put (name : String) (item : Item) : Items → Items
  | [] => [(name, item)]
  | (n, i) :: rest => if n = name then (n, item) :: rest else (n, i) :: Items.put name item rest

/-- Changes the items at a path that headers opened. -/
def changeAt? (f : Items → Option Items) : List String → Items → Option Items
  | [], items => f items
  | name :: path, items =>
    match items.lookup name with
    | some (.table origin inner) => do
      return items.put name (.table origin (← changeAt? f path inner))
    | some (.tables earlier latest) => do
      return items.put name (.tables earlier (← changeAt? f path latest))
    | _ => none

/-- Changes the items at the path of a header, making the tables on the way. -/
def enterAt? (f : Items → Option Items) : List String → Items → Option Items
  | [], items => f items
  | name :: path, items =>
    match items.lookup name with
    | none => do return items.put name (.table .implied (← enterAt? f path []))
    | some (.table origin inner) => do
      return items.put name (.table origin (← enterAt? f path inner))
    | some (.tables earlier latest) => do
      return items.put name (.tables earlier (← enterAt? f path latest))
    | some (.value _) => none

/-- Sets a value under a dotted key. -/
def setValue? (d : Data) : List String → Items → Option Items
  | [], _ => none
  | [name], items => if (items.lookup name).isSome then none else some (items.put name (.value d))
  | name :: path, items =>
    match items.lookup name with
    | none => do return items.put name (.table .dotted (← setValue? d path []))
    | some (.table .dotted inner) => do
      return items.put name (.table .dotted (← setValue? d path inner))
    | _ => none

/-- Begins a table under a header. -/
def openTable? (path : List String) (items : Items) : Option Items := do
  let name ← path.getLast?
  let start (items : Items) : Option Items :=
    match items.lookup name with
    | none => some (items.put name (.table .header []))
    | some (.table .implied inner) => some (items.put name (.table .header inner))
    | _ => none
  enterAt? start path.dropLast items

/-- Begins one more table of a list under a header. -/
def addTable? (path : List String) (items : Items) : Option Items := do
  let name ← path.getLast?
  let start (items : Items) : Option Items :=
    match items.lookup name with
    | none => some (items.put name (.tables [] []))
    | some (.tables earlier latest) =>
      some (items.put name (.tables (earlier ++ [.table .header latest]) []))
    | _ => none
  enterAt? start path.dropLast items

mutual

def Item.data : Item → Data
  | .value d => d
  | .table _ items => .table (itemsData items)
  | .tables earlier latest => .list (tablesData earlier ++ [.table (itemsData latest)])

def itemsData : List (String × Item) → List (Option String × Data)
  | [] => []
  | (name, item) :: rest => (some name, item.data) :: itemsData rest

def tablesData : List Item → List Data
  | [] => []
  | item :: rest => item.data :: tablesData rest

end

/-! ## Values -/

mutual

/-- A value. The first argument of this and the following readers bounds the depth. -/
def value : Nat → Reading Data
  | 0 => failure
  | fuel + 1 => do
    let bound := (← get).length + 1
    if ← tryText "\"\"\"" then
      discard tryNewline
      return .text (← multiline '"' true bound [])
    if ← tryText "\"" then return .text (← basic bound [])
    if ← tryText "'''" then
      discard tryNewline
      return .text (← multiline '\'' false bound [])
    if ← tryText "'" then return .text (← literal)
    if ← tryText "[" then return .list (← items fuel)
    if ← tryText "\x7b" then
      blanks
      if ← tryText "\x7d" then return .table []
      return .table (itemsData (← fields fuel []))
    word

/-- Values between commas up to a closing bracket. -/
def items : Nat → Reading (List Data)
  | 0 => failure
  | fuel + 1 => do
    space ((← get).length + 1)
    if ← tryText "]" then return []
    let first ← value fuel
    space ((← get).length + 1)
    if ← tryText "]" then return [first]
    expect ","
    return first :: (← items fuel)

/-- Fields between commas up to a closing brace, all on one line. -/
def fields : Nat → Items → Reading Items
  | 0, _ => failure
  | fuel + 1, done => do
    let path ← key ((← get).length + 1)
    expect "="
    blanks
    let d ← value fuel
    let done ← (setValue? d path done : Option Items)
    blanks
    if ← tryText "\x7d" then return done
    expect ","
    fields fuel done

end

/-! ## Documents -/

/-- A document being read: its items, and the path of the table that lines add to. -/
structure Document where
  items : Items := []
  path : List String := []

def line (doc : Document) : Reading Document := do
  let bound := (← get).length + 1
  blanks
  match ← get with
  | [] => return doc
  | '#' :: _ => lineEnd; return doc
  | '\n' :: _ => lineEnd; return doc
  | '\r' :: _ => lineEnd; return doc
  | '[' :: '[' :: rest => do
    set rest
    let path ← key bound
    expect "]]"
    lineEnd
    return ⟨← (addTable? path doc.items : Option Items), path⟩
  | '[' :: rest => do
    set rest
    let path ← key bound
    expect "]"
    lineEnd
    return ⟨← (openTable? path doc.items : Option Items), path⟩
  | _ => do
    let path ← key bound
    expect "="
    blanks
    let d ← value bound
    lineEnd
    return { doc with items := ← (changeAt? (setValue? d path) doc.path doc.items : Option Items) }

/-- All lines; the first argument bounds their number. -/
def lines : Nat → Document → Reading Document
  | 0, _ => failure
  | fuel + 1, doc => do
    if (← get).isEmpty then return doc
    lines fuel (← line doc)

/-- The table that a document stands for. A byte order mark in front is passed over. -/
def parse? (text : String) : Option Data := do
  let source := match text.toList with
    | '\uFEFF' :: rest => rest
    | source => source
  let (doc, _) ← lines (source.length + 1) {} source
  return .table (itemsData doc.items)

end TransparencyLog.Toml
