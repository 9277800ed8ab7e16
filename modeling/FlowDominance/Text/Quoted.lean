import FlowDominance.Text.Printable

/-!
# Quoted text

A text is quoted between single quotes, or between double quotes if that saves escaping: it holds a
single quote and no double quote.  Inside, the backslash and the delimiter get a backslash, and a
character without visible form is written by its code.
-/

namespace FlowDominance.Text

def hexDigits (width n : Nat) : List Char :=
  let digits := Nat.toDigits 16 n
  List.replicate (width - digits.length) '0' ++ digits

/-- Two, four or eight digits, the fewest that hold the code. -/
def escapedCode (c : Char) : List Char :=
  if c.toNat < 0x100 then '\\' :: 'x' :: hexDigits 2 c.toNat
  else if c.toNat < 0x10000 then '\\' :: 'u' :: hexDigits 4 c.toNat
  else '\\' :: 'U' :: hexDigits 8 c.toNat

def quotedChar (delimiter c : Char) : List Char :=
  if c = '\\' || c = delimiter then ['\\', c]
  else if c = '\n' then ['\\', 'n']
  else if c = '\r' then ['\\', 'r']
  else if c = '\t' then ['\\', 't']
  else if isPrintable c then [c]
  else escapedCode c

def delimiterFor (s : List Char) : Char :=
  if s.contains '\x27' && !s.contains '\x22' then '\x22' else '\x27'

def quotedChars (s : List Char) : List Char :=
  let delimiter := delimiterFor s
  delimiter :: (s.flatMap (quotedChar delimiter) ++ [delimiter])

def quoted (s : String) : String := String.ofList (quotedChars s.toList)

end FlowDominance.Text
