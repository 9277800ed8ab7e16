/-!
# Quoted fields of a drawing

A field stands between double quotes.  Newlines, tabs and double quotes are escaped; every other
character, the backslash among them, stands for itself.
-/

namespace FlowDominance.Dot

def escapedChar (c : Char) : List Char :=
  if c = '\n' then ['\\', 'n']
  else if c = '\t' then ['\\', 't']
  else if c = '\x22' then ['\\', '\x22']
  else [c]

def escapedChars (s : List Char) : List Char := s.flatMap escapedChar

def escape (s : String) : String := String.ofList (escapedChars s.toList)

def field (s : String) : List Char := '\x22' :: (escapedChars s.toList ++ ['\x22'])

end FlowDominance.Dot
