/-
# Numbers, truth values and points in time

A value that is not quoted and not in brackets is one run of characters, and is read as a whole: first as a
truth value, then as a point in time, then as a number. Underscores may group the digits of a number. They
stand between two digits.
-/
import ComponentLens.Toml.Value

namespace ComponentLens.Toml

/-! ## 1. Digits -/

/-- A decimal digit. -/
def isDigit (c : Char) : Bool := '0' ≤ c && c ≤ '9'

/-- The value of a digit, in any base up to sixteen. -/
def digitValue (c : Char) : Nat :=
  if isDigit c then c.toNat - '0'.toNat
  else if 'a' ≤ c && c ≤ 'f' then c.toNat - 'a'.toNat + 10
  else if 'A' ≤ c && c ≤ 'F' then c.toNat - 'A'.toNat + 10
  else 16

/-- Whether a character is a digit of a base. -/
def isDigitOf (base : Nat) (c : Char) : Bool := digitValue c < base

/-- The digits of a run that holds digits and, between them, single underscores. -/
def ungroup? (base : Nat) : List Char → Option (List Char)
  | [] => none
  | [c] => if isDigitOf base c then some [c] else none
  | c :: '_' :: cs => if isDigitOf base c then (ungroup? base cs).map (c :: ·) else none
  | c :: cs => if isDigitOf base c then (ungroup? base cs).map (c :: ·) else none

/-- The number that digits stand for. -/
def numberOf (base : Nat) (digits : List Char) : Nat :=
  digits.foldl (fun n c => n * base + digitValue c) 0

/-- A sign and what follows it: whether the sign is a minus, none counting as plus. -/
def splitSign : List Char → Bool × List Char
  | '-' :: cs => (true, cs)
  | '+' :: cs => (false, cs)
  | cs => (false, cs)

/-- The digits of a whole number, which has no zero in front. -/
def wholeDigits? (cs : List Char) : Option (List Char) :=
  match ungroup? 10 cs with
  | some ('0' :: _ :: _) => none
  | digits => digits

/-! ## 2. Whole numbers -/

/-- A whole number of 64 bits, signed. -/
def fitted? (n : Int) : Option Int := 
  if Int64.minValue.toInt ≤ n ∧ n ≤ Int64.maxValue.toInt then some n else none

/-- A whole number: decimal with an optional sign, or in another base with a mark in front. -/
def integer? (cs : List Char) : Option Int :=
  match cs with
  | '0' :: 'x' :: cs => (ungroup? 16 cs).bind fun digits => fitted? (numberOf 16 digits)
  | '0' :: 'o' :: cs => (ungroup? 8 cs).bind fun digits => fitted? (numberOf 8 digits)
  | '0' :: 'b' :: cs => (ungroup? 2 cs).bind fun digits => fitted? (numberOf 2 digits)
  | _ =>
    let (negative, cs) := splitSign cs
    (wholeDigits? cs).bind fun digits =>
      fitted? (if negative then -(numberOf 10 digits : Int) else numberOf 10 digits)

/-! ## 3. Numbers with a fraction or an exponent -/

/-- An exponent: a sign, and digits that may start with zeros. -/
def exponent? (cs : List Char) : Option Int :=
  let (negative, cs) := splitSign cs
  (ungroup? 10 cs).map fun digits =>
    if negative then -(numberOf 10 digits : Int) else numberOf 10 digits

/-- The digits of a fraction, and an exponent. -/
def fraction? (cs : List Char) : Option (List Char × Int) :=
  let isPart (c : Char) : Bool := !(c == 'e' || c == 'E')
  (ungroup? 10 (cs.takeWhile isPart)).bind fun digits =>
    match cs.dropWhile isPart with
    | [] => some (digits, 0)
    | _ :: cs => (exponent? cs).map (digits, ·)

/-- Whether `digits * 10 ^ exponent` is rounded to infinity in 64-bit floating point: whether it is at least
the largest finite value and a half of the last place. A number with more than 310 digits in front of the
point is, one with fewer than 300 is not, and only between them the powers are worked out. -/
def overflows (digits : List Char) (exponent : Int) : Bool :=
  let digits := digits.dropWhile (· == '0')
  let places := digits.length + exponent
  if digits.isEmpty || places < 300 then false
  else if 310 < places then true
  else
    (Nat.pow 2 1024 - Nat.pow 2 970) * Nat.pow 10 (-exponent).toNat ≤
      numberOf 10 digits * Nat.pow 10 exponent.toNat

/-- Whether the run is a number with a fraction or an exponent, or one of the two values that are no numbers.
A positive number too large for 64-bit floating point is refused. -/
def isDecimal (cs : List Char) : Bool :=
  let (negative, cs) := splitSign cs
  if cs == "inf".toList || cs == "nan".toList then true
  else
    let isWhole (c : Char) : Bool := isDigit c || c == '_'
    match wholeDigits? (cs.takeWhile isWhole), cs.dropWhile isWhole with
    | some whole, '.' :: cs =>
      (fraction? cs).any fun (digits, exponent) =>
        negative || !overflows (whole ++ digits) (exponent - digits.length)
    | some whole, mark :: cs =>
      (mark == 'e' || mark == 'E') &&
        (exponent? cs).any fun exponent => negative || !overflows whole exponent
    | _, _ => false

/-! ## 4. Points in time -/

/-- A number of decimal digits alone. -/
def plainNumber? (cs : List Char) : Option Nat :=
  if !cs.isEmpty && cs.all isDigit then some (numberOf 10 cs) else none

/-- The number of days in a month. -/
def daysIn (year month : Nat) : Nat :=
  match month with
  | 2 => if year % 4 == 0 && (year % 100 != 0 || year % 400 == 0) then 29 else 28
  | 4 | 6 | 9 | 11 => 30
  | _ => 31

/-- Whether the run is a day of the calendar. -/
def isDate : List Char → Bool
  | [a, b, c, d, '-', e, f, '-', g, h] =>
    match plainNumber? [a, b, c, d], plainNumber? [e, f], plainNumber? [g, h] with
    | some year, some month, some day =>
      1 ≤ month && month ≤ 12 && 1 ≤ day && day ≤ daysIn year month
    | _, _, _ => false
  | _ => false

/-- What follows an hour and a minute. -/
def afterMinutes? : List Char → Option (List Char)
  | a :: b :: ':' :: c :: d :: rest =>
    match plainNumber? [a, b], plainNumber? [c, d] with
    | some hour, some minute => if hour ≤ 23 && minute ≤ 59 then some rest else none
    | _, _ => none
  | _ => none

/-- What follows a time of day. A minute may have a leap second. -/
def afterTime? (cs : List Char) : Option (List Char) :=
  match afterMinutes? cs with
  | some (':' :: a :: b :: rest) =>
    if (plainNumber? [a, b]).any (· ≤ 60) then
      match rest with
      | '.' :: fraction =>
        if fraction.head?.any isDigit then some (fraction.dropWhile isDigit) else none
      | _ => some rest
    else none
  | _ => none

/-- Whether the run is a distance from universal time. -/
def isOffset : List Char → Bool
  | ['Z'] | ['z'] => true
  | '+' :: cs | '-' :: cs => afterMinutes? cs == some []
  | _ => false

/-- Whether the run is a day, a time of day, or both; only both can have an offset. -/
def isTime (cs : List Char) : Bool :=
  isDate cs || afterTime? cs == some [] ||
    isDate (cs.take 10) &&
      match cs.drop 10 with
      | mark :: cs =>
        (mark == 'T' || mark == 't' || mark == ' ') &&
          (afterTime? cs).any fun rest => rest.isEmpty || isOffset rest
      | [] => false

/-! ## 5. Runs -/

/-- Whether a character ends a run. -/
def endsRun (c : Char) : Bool :=
  c == ' ' || c == '\t' || c == '\n' || c == '\r' || c == '#' || c == ',' || c == ']' || c == '\x7d'

/-- The run at the front and what follows it. A day and a time of day may be parted by a space. -/
def splitRun (cs : List Char) : List Char × List Char :=
  let run := cs.takeWhile (!endsRun ·)
  match isDate run, cs.dropWhile (!endsRun ·) with
  | true, ' ' :: c :: rest =>
    if isDigit c then
      (run ++ ' ' :: (c :: rest).takeWhile (!endsRun ·), (c :: rest).dropWhile (!endsRun ·))
    else (run, ' ' :: c :: rest)
  | _, rest => (run, rest)

/-- A run loses nothing. -/
theorem splitRun_append (cs : List Char) : (splitRun cs).1 ++ (splitRun cs).2 = cs := by
  have whole := List.takeWhile_append_dropWhile (p := fun c => !endsRun c) (l := cs)
  simp only [splitRun]
  split
  · next c rest _ h =>
    rw [h] at whole
    split
    · conv => rhs; rw [← whole]
      simp [List.takeWhile_append_dropWhile]
    · exact whole
  · exact whole

/-- The value of a run. -/
def scalar? (run : List Char) : Option Value :=
  if run == "true".toList then some (.boolean true)
  else if run == "false".toList then some (.boolean false)
  else if isTime run then some (.time (String.ofList run))
  else if isDecimal run then some (.decimal (String.ofList run))
  else (integer? run).map .integer

end ComponentLens.Toml
