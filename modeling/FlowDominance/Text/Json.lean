import FlowDominance.Text.Quoted

/-!
# Structured data as text

Data written with one item per line, two blanks of indentation per level and nothing but printable
ASCII: any other character is written by its UTF-16 code units.
-/

namespace FlowDominance.Text

inductive Json where
  | null
  | number (n : Nat)
  | text (s : String)
  | list (items : List Json)
  | record (fields : List (String × Json))

namespace Json

def unit (n : Nat) : List Char := '\\' :: 'u' :: hexDigits 4 n

/-- One code unit, or a pair of them beyond the first 65536 characters. -/
def units (c : Char) : List Char :=
  if c.toNat < 0x10000 then unit c.toNat
  else
    let n := c.toNat - 0x10000
    unit (0xd800 + n / 0x400) ++ unit (0xdc00 + n % 0x400)

def escapedChar (c : Char) : List Char :=
  if c = '\x22' then ['\\', '\x22']
  else if c = '\\' then ['\\', '\\']
  else if c = '\n' then ['\\', 'n']
  else if c = '\r' then ['\\', 'r']
  else if c = '\t' then ['\\', 't']
  else if c = '\x08' then ['\\', 'b']
  else if c = '\x0c' then ['\\', 'f']
  else if 0x20 ≤ c.toNat && c.toNat < 0x7f then [c]
  else units c

def textChars (s : String) : List Char := '\x22' :: (s.toList.flatMap escapedChar ++ ['\x22'])

def newline (level : Nat) : List Char := '\n' :: List.replicate (2 * level) ' '

def bracketed (level : Nat) (opening closing : Char) : List (List Char) → List Char
  | [] => [opening, closing]
  | items =>
      opening :: (newline (level + 1)
        ++ List.intercalate (',' :: newline (level + 1)) items ++ newline level ++ [closing])

mutual

def chars (level : Nat) : Json → List Char
  | .null => "null".toList
  | .number n => Nat.toDigits 10 n
  | .text s => textChars s
  | .list items => bracketed level '[' ']' (itemChars (level + 1) items)
  | .record fields => bracketed level '\x7b' '\x7d' (fieldChars (level + 1) fields)

def itemChars (level : Nat) : List Json → List (List Char)
  | [] => []
  | item :: rest => chars level item :: itemChars level rest

def fieldChars (level : Nat) : List (String × Json) → List (List Char)
  | [] => []
  | (name, value) :: rest =>
      (textChars name ++ [':', ' '] ++ chars level value) :: fieldChars level rest

end

def render (data : Json) : String := String.ofList (chars 0 data)

end Json

end FlowDominance.Text
