import Covenant.Toml.Text
import Covenant.Toml.Value

namespace Covenant.Toml.Scan

-- Digits after the first, each of which an underscore may precede.
def moreDigits (p : Char → Bool) : List Char → List Char × List Char
  | [] => ([], [])
  | '_' :: d :: rest =>
      if p d then
        let (digits, rest) := moreDigits p rest
        (d :: digits, rest)
      else ([], '_' :: d :: rest)
  | c :: rest =>
      if p c then
        let (digits, rest) := moreDigits p rest
        (c :: digits, rest)
      else ([], c :: rest)

def digits (p : Char → Bool) : Scan (List Char) := do
  let first ← one p
  let rest ← fun cs => some (moreDigits p cs)
  return first :: rest

def natOf (base : Nat) (digits : List Char) : Nat :=
  digits.foldl (fun n c => base * n + (hexDigit? c).getD 0) 0

-- Whether there is a minus sign.
def sign : Scan Bool := do
  match ← attempt (one fun c => c == '+' || c == '-') with
  | some c => return c == '-'
  | none => return false

-- No number but zero starts with a zero.
def decimal : Scan (List Char) := do
  match ← attempt (char '0') with
  | some () => return ['0']
  | none => digits Char.isDigit

def integerIn (n : Int) : Scan Toml :=
  if -9223372036854775808 ≤ n ∧ n ≤ 9223372036854775807 then return .integer n else failure

def based (lead : String) (base : Nat) : Scan Toml := do
  text lead
  let ds ← digits fun c => ((hexDigit? c).map (decide <| · < base)).getD false
  integerIn (natOf base ds)

def decimalInteger : Scan Toml := do
  let negative ← sign
  let n := natOf 10 (← decimal)
  integerIn (if negative then -n else n)

def integer : Scan Toml := based "0x" 16 <|> based "0o" 8 <|> based "0b" 2 <|> decimalInteger

def fraction : Scan (List Char) := do
  char '.'
  digits Char.isDigit

def exponent : Scan Int := do
  let _ ← one fun c => c == 'e' || c == 'E'
  let negative ← sign
  let n := natOf 10 (← digits Char.isDigit)
  return if negative then -n else n

-- The least number that is rounded to infinity: half a step above the largest double.
def overflowBound : Nat := Nat.pow 2 1024 - Nat.pow 2 970

-- Whether m · 10^k is too large for a double.
def overflows (m : Nat) (k : Int) : Bool :=
  if m = 0 then false
  else
    let magnitude := (toString m).length + k
    if magnitude < 309 then false
    else if 309 < magnitude then true
    else if 0 ≤ k then overflowBound ≤ m * Nat.pow 10 k.toNat
    else overflowBound * Nat.pow 10 (-k).toNat ≤ m

-- A float has a fraction or an exponent. One that is too large is refused, unless it is negative.
def finiteFloat : Scan Unit := do
  let negative ← sign
  let whole ← decimal
  let (frac, exp) ←
    (do let frac ← fraction; return (frac, (← attempt exponent).getD 0)) <|>
    (do return ([], ← exponent))
  if !negative && overflows (natOf 10 (whole ++ frac)) (exp - frac.length) then failure

def specialFloat : Scan Unit := do
  let _ ← sign
  text "inf" <|> text "nan"

def float : Scan Toml := do
  return .float (← spelling (finiteFloat <|> specialFloat))

-- A number with exactly so many digits.
def fixed : Nat → Nat → Scan Nat
  | 0, n => return n
  | count + 1, n => do
      let c ← one Char.isDigit
      fixed count (10 * n + (c.toNat - '0'.toNat))

def fixedIn (count low high : Nat) : Scan Nat := do
  let n ← fixed count 0
  if low ≤ n ∧ n ≤ high then return n else failure

def daysIn (year month : Nat) : Nat :=
  if month = 2 then
    if year % 4 = 0 ∧ (year % 100 ≠ 0 ∨ year % 400 = 0) then 29 else 28
  else if month ∈ [4, 6, 9, 11] then 30
  else 31

def date : Scan Unit := do
  let year ← fixed 4 0
  char '-'
  let month ← fixedIn 2 1 12
  char '-'
  let _ ← fixedIn 2 1 (daysIn year month)

def secondFraction : Scan Unit := do
  char '.'
  let _ ← one Char.isDigit
  let _ ← span Char.isDigit

def time : Scan Unit := do
  let _ ← fixedIn 2 0 23
  char ':'
  let _ ← fixedIn 2 0 59
  char ':'
  let _ ← fixedIn 2 0 60
  let _ ← attempt secondFraction

def zone : Scan Unit :=
  (do let _ ← one fun c => c == 'Z' || c == 'z') <|> do
    let _ ← one fun c => c == '+' || c == '-'
    let _ ← fixedIn 2 0 23
    char ':'
    let _ ← fixedIn 2 0 59

def clock : Scan Unit := do
  let _ ← one fun c => c == 'T' || c == 't' || c == ' '
  time
  let _ ← attempt zone

def dateAndClock : Scan Unit := do
  date
  let _ ← attempt clock

-- A day, a time of day, or both and then perhaps a zone.
def datetime : Scan Toml := do
  return .datetime (← spelling (dateAndClock <|> time))

def boolean : Scan Toml :=
  (do text "true"; return .boolean true) <|> (do text "false"; return .boolean false)

def scalar : Scan Toml :=
  (do return .string (← string)) <|> boolean <|> datetime <|> float <|> integer

end Covenant.Toml.Scan
