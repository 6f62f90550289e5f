import Covenant.Json.Tree

namespace Covenant.Json.Number

def isDigit (c : Char) : Bool := '0' ≤ c && c ≤ '9'

def digitValue (c : Char) : Nat := c.toNat - 48

def natOfDigits (ds : List Char) : Nat := ds.foldl (fun n c => 10 * n + digitValue c) 0

-- A natural number rounded to 53 significant bits, halves to the even neighbour.
def roundToDouble (n : Nat) : Nat :=
  let shift := n.log2 + 1 - 53
  let unit := Nat.pow 2 shift
  let low := n % unit
  let up := unit < 2 * low || (2 * low == unit && n / unit % 2 == 1)
  (n / unit + (if up then 1 else 0)) * unit

-- The smallest magnitude that rounds to infinity.
def infinityBound : Nat := Nat.pow 2 1024 - Nat.pow 2 970

-- Digits are gathered while they fit 64 bits.
def gather (significand digit : Nat) : Option Nat :=
  let next := 10 * significand + digit
  if next < 0x10000000000000000 then some next else none

-- The gathered digits of the whole part, and how many more there are.
def gatherWhole (significand : Nat) : List Char → Nat × Nat
  | [] => (significand, 0)
  | c :: cs =>
      match gather significand (digitValue c) with
      | some next => gatherWhole next cs
      | none => (significand, cs.length + 1)

-- The gathered digits of the fraction, and how many of them there are.
def gatherFraction (significand count : Nat) : List Char → Nat × Nat
  | [] => (significand, count)
  | c :: cs =>
      match gather significand (digitValue c) with
      | some next => gatherFraction next (count + 1) cs
      | none => (significand, count)

-- A magnitude is in range when the gathered digits times the power of ten are a finite double.
def inRange (whole fraction : List Char) (exponent : Int) : Bool :=
  let (head, dropped) := gatherWhole 0 whole
  let (significand, count) := gatherFraction head 0 fraction
  let power : Int := dropped - count + exponent
  if significand = 0 ∨ power < 0 then true
  else if 308 < power then false
  else roundToDouble significand * roundToDouble (Nat.pow 10 power.toNat) < infinityBound

-- What follows the digits: the value, or what goes wrong when it is read and when it is skipped.
inductive Scan
  | int (n : Int)
  | float
  | outOfRange
  | flawed (onRead onSkip : Fault)

-- A digit is due. At the end of the text a reader wants more and a skipper objects.
def due (rest : List Char) : Scan :=
  match rest with
  | [] => .flawed .truncated .malformed
  | _ => .flawed .malformed .malformed

def wholeNumber (negative : Bool) (whole : List Char) : Scan :=
  let n := natOfDigits whole
  if negative then
    if 0 < n ∧ n ≤ 0x8000000000000000 then .int (-n)
    else if inRange whole [] 0 then .float else .outOfRange
  else if n < 0x10000000000000000 then .int n
  else if inRange whole [] 0 then .float else .outOfRange

def exponentPart (whole fraction : List Char) (rest : List Char) : Scan × List Char :=
  let (negative, rest) := match rest with
    | '+' :: rest => (false, rest)
    | '-' :: rest => (true, rest)
    | rest => (false, rest)
  let ds := rest.takeWhile isDigit
  let rest := rest.dropWhile isDigit
  if ds.isEmpty then (due rest, [])
  else
    let n : Int := natOfDigits ds
    (if inRange whole fraction (if negative then -n else n) then .float else .outOfRange, rest)

def startsExponent (c : Char) : Bool := c = 'e' || c = 'E'

def afterWhole (negative : Bool) (whole : List Char) (rest : List Char) : Scan × List Char :=
  match rest with
  | '.' :: rest =>
      let fraction := rest.takeWhile isDigit
      let rest := rest.dropWhile isDigit
      if fraction.isEmpty then (due rest, [])
      else match rest with
        | c :: more =>
            if startsExponent c then exponentPart whole fraction more
            else (if inRange whole fraction 0 then .float else .outOfRange, rest)
        | [] => (if inRange whole fraction 0 then .float else .outOfRange, [])
  | c :: more =>
      if startsExponent c then exponentPart whole [] more else (wholeNumber negative whole, rest)
  | [] => (wholeNumber negative whole, [])

-- A number after its sign. A leading zero stands alone.
def scan (negative : Bool) (text : List Char) : Scan × List Char :=
  match text with
  | [] => (.flawed .truncated .malformed, [])
  | c :: rest =>
      if !isDigit c then (.flawed .malformed .malformed, [])
      else if c = '0' then
        match rest with
        | d :: _ =>
            if isDigit d then (.flawed .malformed .malformed, []) else afterWhole negative [c] rest
        | [] => afterWhole negative [c] []
      else afterWhole negative (c :: rest.takeWhile isDigit) (rest.dropWhile isDigit)

end Covenant.Json.Number
