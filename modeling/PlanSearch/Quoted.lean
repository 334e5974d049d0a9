import PlanSearch.Quoted.Hidden

/-!
# Quoted text

Text in double quotes. A quote or a backslash inside is marked by a backslash, the usual control
characters have short marks, and every other character without a glyph of its own is written by its
code point.
-/

namespace PlanSearch.Quoted

/-- A character inside quotes. -/
def char (c : Char) : List Char :=
  if c = '"' then ['\\', '"']
  else if c = '\\' then ['\\', '\\']
  else if c = '\n' then ['\\', 'n']
  else if c = '\r' then ['\\', 'r']
  else if c = '\t' then ['\\', 't']
  else if c = Char.ofNat 0 then ['\\', '0']
  else if isHidden c then
    '\\' :: 'u' :: Char.ofNat 0x7B :: (Nat.toDigits 16 c.toNat ++ [Char.ofNat 0x7D])
  else [c]

/-- Text in quotes. -/
def text (s : String) : String := String.ofList ('"' :: (s.toList.flatMap char ++ ['"']))

end PlanSearch.Quoted
