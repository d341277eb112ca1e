import ApiModel.Toml.Value

/-!
Strings, numbers and dates of TOML. Strings are read from the text behind their opening quotes; the
other scalars are recognised in a word that was cut out of the text.
-/

namespace ApiModel.Toml

def isPlain (c : Char) : Bool := c = '\t' || (0x20 ≤ c.toNat && c.toNat ≠ 0x7F)

/-- A text that was read, and what follows it. -/
abbrev Reading := Option (List Char × List Char)

def Reading.cons (c : Char) (reading : Reading) : Reading :=
  reading.map fun (text, rest) => (c :: text, rest)

def hexValue (c : Char) : Option Nat :=
  if '0' ≤ c ∧ c ≤ '9' then some (c.toNat - '0'.toNat)
  else if 'a' ≤ c ∧ c ≤ 'f' then some (c.toNat - 'a'.toNat + 10)
  else if 'A' ≤ c ∧ c ≤ 'F' then some (c.toNat - 'A'.toNat + 10)
  else none

def codePoint? (digits : List Char) : Option Char := do
  let values ← digits.mapM hexValue
  let n := values.foldl (fun n d => 16 * n + d) 0
  if n < 0x110000 ∧ ¬ (0xD800 ≤ n ∧ n < 0xE000) then some (Char.ofNat n) else none

def escaped? : Char → Option Char
  | 'b' => some '\x08'
  | 't' => some '\t'
  | 'n' => some '\n'
  | 'f' => some '\x0c'
  | 'r' => some '\r'
  | '"' => some '"'
  | '\\' => some '\\'
  | _ => none

def basicString : List Char → Reading
  | [] => none
  | '"' :: cs => some ([], cs)
  | '\\' :: 'u' :: a :: b :: c :: d :: cs => do
    Reading.cons (← codePoint? [a, b, c, d]) (basicString cs)
  | '\\' :: 'U' :: a :: b :: c :: d :: e :: f :: g :: h :: cs => do
    Reading.cons (← codePoint? [a, b, c, d, e, f, g, h]) (basicString cs)
  | '\\' :: e :: cs => do Reading.cons (← escaped? e) (basicString cs)
  | c :: cs => if isPlain c && c ≠ '\\' then Reading.cons c (basicString cs) else none

def literalString : List Char → Reading
  | [] => none
  | '\'' :: cs => some ([], cs)
  | c :: cs => if isPlain c then Reading.cons c (literalString cs) else none

/-- What stands before the last three of up to five quotes, and what follows them. -/
def closingQuotes (quote : Char) (cs : List Char) : List Char × List Char :=
  match cs with
  | c :: d :: rest =>
    if c = quote then if d = quote then ([quote, quote], rest) else ([quote], d :: rest)
    else ([], cs)
  | [c] => if c = quote then ([quote], []) else ([], cs)
  | [] => ([], [])

/-- A backslash joins lines here: only spaces and tabs stand before the end of the line. -/
def joinsLines (cs : List Char) : Bool :=
  match cs.dropWhile fun c => c = ' ' || c = '\t' with
  | '\n' :: _ => true
  | '\r' :: '\n' :: _ => true
  | _ => false

/-- A string in three double quotes; `joining` tells that a backslash joins the lines here. -/
def basicLines (joining : Bool) : List Char → Reading
  | [] => none
  | '"' :: '"' :: '"' :: cs => some (closingQuotes '"' cs)
  | '\\' :: 'u' :: a :: b :: c :: d :: cs => do
    Reading.cons (← codePoint? [a, b, c, d]) (basicLines false cs)
  | '\\' :: 'U' :: a :: b :: c :: d :: e :: f :: g :: h :: cs => do
    Reading.cons (← codePoint? [a, b, c, d, e, f, g, h]) (basicLines false cs)
  | '\\' :: e :: cs =>
    match escaped? e with
    | some c => Reading.cons c (basicLines false cs)
    | none => if joinsLines (e :: cs) then basicLines true cs else none
  | '\r' :: '\n' :: cs =>
    if joining then basicLines true cs else Reading.cons '\n' (basicLines false cs)
  | c :: cs =>
    if joining && (c = ' ' || c = '\t' || c = '\n') then basicLines true cs
    else if (isPlain c || c = '\n') && c ≠ '\\' then Reading.cons c (basicLines false cs)
    else none

def literalLines : List Char → Reading
  | [] => none
  | '\'' :: '\'' :: '\'' :: cs => some (closingQuotes '\'' cs)
  | '\r' :: '\n' :: cs => Reading.cons '\n' (literalLines cs)
  | c :: cs => if isPlain c || c = '\n' then Reading.cons c (literalLines cs) else none

def dropLineEnd : List Char → List Char
  | '\n' :: cs => cs
  | '\r' :: '\n' :: cs => cs
  | cs => cs

def isDigits (isDigit : Char → Bool) : List Char → Bool
  | [] => false
  | [c] => isDigit c
  | c :: '_' :: cs => isDigit c && isDigits isDigit cs
  | c :: cs => isDigit c && isDigits isDigit cs

def digitsValue (base : Nat) (digits : List Char) : Nat :=
  digits.foldl (fun n c => match hexValue c with | some d => base * n + d | none => n) 0

def isWhole (cs : List Char) : Bool :=
  isDigits Char.isDigit cs && (cs.head? ≠ some '0' || cs = ['0'])

def cutSign : List Char → Bool × List Char
  | '-' :: cs => (true, cs)
  | '+' :: cs => (false, cs)
  | cs => (false, cs)

def integer? (word : List Char) : Option Int :=
  let based (base : Nat) (isDigit : Char → Bool) (digits : List Char) : Option Int :=
    if isDigits isDigit digits && digitsValue base digits < Nat.pow 2 63 then
      some (digitsValue base digits)
    else none
  match word with
  | '0' :: 'x' :: cs => based 16 (fun c => (hexValue c).isSome) cs
  | '0' :: 'o' :: cs => based 8 (fun c => '0' ≤ c && c ≤ '7') cs
  | '0' :: 'b' :: cs => based 2 (fun c => c = '0' || c = '1') cs
  | word =>
    let (negative, digits) := cutSign word
    let n := digitsValue 10 digits
    if !isWhole digits then none
    else if negative then if n ≤ Nat.pow 2 63 then some (-n) else none
    else if n < Nat.pow 2 63 then some n else none

/-- The number `mantissa · 10 ^ exponent` is not finite in 64 bits when rounded. -/
def isTooLarge (mantissa : Nat) (exponent : Int) : Bool :=
  let limit := Nat.pow 2 1024 - Nat.pow 2 970
  let magnitude : Int := (Nat.toDigits 10 mantissa).length + exponent
  if mantissa = 0 || magnitude < 300 then false
  else if 320 < magnitude then true
  else if 0 ≤ exponent then limit ≤ mantissa * Nat.pow 10 exponent.toNat
  else limit * Nat.pow 10 (-exponent).toNat ≤ mantissa

def isFloat (word : List Char) : Bool :=
  let (negative, cs) := cutSign word
  if cs = "inf".toList || cs = "nan".toList then true
  else
    let (mantissa, power) := cs.span fun c => c ≠ 'e' && c ≠ 'E'
    let (whole, fraction) := mantissa.span (· ≠ '.')
    let (negativePower, powerDigits) := cutSign power.tail
    let fractionDigits := fraction.tail
    let shift : Int := digitsValue 10 powerDigits
    let exponent := (if negativePower then -shift else shift) -
      (fractionDigits.filter Char.isDigit).length
    isWhole whole && (fraction = [] || isDigits Char.isDigit fractionDigits) &&
      (power = [] || isDigits Char.isDigit powerDigits) && (fraction ≠ [] || power ≠ []) &&
      (negative || !isTooLarge (digitsValue 10 (whole ++ fractionDigits)) exponent)

def twoDigits? (a b : Char) : Option Nat :=
  if a.isDigit && b.isDigit then some (digitsValue 10 [a, b]) else none

def daysOfMonth (year month : Nat) : Nat :=
  if month = 2 then if year % 4 = 0 && (year % 100 ≠ 0 || year % 400 = 0) then 29 else 28
  else if month = 4 || month = 6 || month = 9 || month = 11 then 30
  else 31

def dropDate? : List Char → Option (List Char)
  | a :: b :: c :: d :: '-' :: e :: f :: '-' :: g :: h :: cs => do
    let century ← twoDigits? a b
    let month ← twoDigits? e f
    let day ← twoDigits? g h
    let year := 100 * century + (← twoDigits? c d)
    if 1 ≤ month ∧ month ≤ 12 ∧ 1 ≤ day ∧ day ≤ daysOfMonth year month then some cs else none
  | _ => none

def dropTime? : List Char → Option (List Char)
  | a :: b :: ':' :: c :: d :: ':' :: e :: f :: cs => do
    let hour ← twoDigits? a b
    let minute ← twoDigits? c d
    let second ← twoDigits? e f
    if 24 ≤ hour ∨ 60 ≤ minute ∨ 60 < second then none
    else
      match cs with
      | '.' :: d :: cs => if d.isDigit then some (cs.dropWhile Char.isDigit) else none
      | cs => some cs
  | _ => none

def isOffset : List Char → Bool
  | ['Z'] => true
  | ['z'] => true
  | [sign, a, b, ':', c, d] =>
    (sign = '+' || sign = '-') && (twoDigits? a b).any (· < 24) && (twoDigits? c d).any (· < 60)
  | _ => false

def isMoment (word : List Char) : Bool :=
  match dropDate? word with
  | some [] => true
  | some (mark :: cs) =>
    (mark = 'T' || mark = 't' || mark = ' ') &&
      (dropTime? cs).any fun rest => rest = [] || isOffset rest
  | none => dropTime? word = some []

def scalar? (word : List Char) : Option Value :=
  if word = "true".toList then some (.boolean true)
  else if word = "false".toList then some (.boolean false)
  else
    match integer? word with
    | some n => some (.integer n)
    | none =>
      if isFloat word then some (.float (String.ofList word))
      else if isMoment word then some (.moment (String.ofList word))
      else none

end ApiModel.Toml
