import ExactAlgebra.Text.Printable

/-!
# Quoted text

In a message a piece of input stands between quotation marks, written so that every character can be
told from its neighbours. Single quotation marks are used, or double ones when the text holds a
single quotation mark and no double one. A backslash, and the mark in use, has a backslash in front;
line feed, carriage return and tab are `\n`, `\r` and `\t`; any other character that is not
printable is its code point in hexadecimal, `\x` with two digits, `\u` with four or `\U` with eight,
whichever is the shortest that holds it.
-/

namespace ExactAlgebra.Text

/-- The single quotation mark. -/
def singleMark : Char := Char.ofNat 0x27

/-- The double quotation mark. -/
def doubleMark : Char := Char.ofNat 0x22

/-- The mark that quotes a text: the double one where only the single one occurs inside. -/
def quotationMark (cs : List Char) : Char :=
  if singleMark ∈ cs ∧ doubleMark ∉ cs then doubleMark else singleMark

/-- A number in hexadecimal, with zeros in front up to the given width. -/
def hexadecimal (width n : Nat) : List Char :=
  let digits := Nat.toDigits 16 n
  List.replicate (width - digits.length) '0' ++ digits

/-- How a character is written between marks `mark`. -/
def escape (mark c : Char) : List Char :=
  if c = mark ∨ c = '\\' then ['\\', c]
  else if c = '\n' then ['\\', 'n']
  else if c = '\r' then ['\\', 'r']
  else if c = '\t' then ['\\', 't']
  else if isPrintable c then [c]
  else if c.toNat < 0x100 then '\\' :: 'x' :: hexadecimal 2 c.toNat
  else if c.toNat < 0x10000 then '\\' :: 'u' :: hexadecimal 4 c.toNat
  else '\\' :: 'U' :: hexadecimal 8 c.toNat

/-- A text between quotation marks. -/
def quoted (s : String) : String :=
  let mark := quotationMark s.toList
  String.ofList (mark :: s.toList.flatMap (escape mark) ++ [mark])

end ExactAlgebra.Text
