import ApiModel.Text.Printable

/-!
Quoted forms of texts and characters, as error messages show them. Control characters with a short
escape use it, the delimiter and the backslash are escaped, and whatever cannot be seen on its own
is written as its hexadecimal code point.
-/

namespace ApiModel.Text.Quoted

/-- `\u{…}` with the code point in lower-case hexadecimal digits. -/
def codePoint (c : Char) : List Char :=
  ['\\', 'u', '\x7b'] ++ Nat.toDigits 16 c.toNat ++ ['\x7d']

/-- The form of one character inside a text delimited by `delimiter`. -/
def escape (delimiter c : Char) : List Char :=
  match c with
  | '\x00' => ['\\', '0']
  | '\t' => ['\\', 't']
  | '\r' => ['\\', 'r']
  | '\n' => ['\\', 'n']
  | '\\' => ['\\', '\\']
  | c =>
    if c = delimiter then ['\\', c]
    else if isExtendingMark c || !isPrintable c then codePoint c
    else [c]

def string (text : String) : String :=
  String.ofList (['"'] ++ text.toList.flatMap (escape '"') ++ ['"'])

def char (c : Char) : String :=
  String.ofList (['\''] ++ escape '\'' c ++ ['\''])

end ApiModel.Text.Quoted
