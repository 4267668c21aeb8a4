import Routine.Text.Unprintable

/-! # Text between quotes

A text is shown between double quotes so that it stands on one line and its ends are seen. Quotes
and backslashes have a backslash in front, the usual control characters their letter, and any other
character that is not shown as it is its code point. -/

namespace Routine.Text

/-- The characters a character is shown as. -/
def quotedChar (c : Char) : List Char :=
  if c = '"' then ['\\', '"']
  else if c = '\\' then ['\\', '\\']
  else if c = '\n' then ['\\', 'n']
  else if c = '\r' then ['\\', 'r']
  else if c = '\t' then ['\\', 't']
  else if c = '\x00' then ['\\', '0']
  else if isUnprintable c then
    '\\' :: 'u' :: '\x7b' :: (Nat.toDigits 16 c.toNat ++ ['\x7d'])
  else [c]

/-- A text between double quotes. -/
def quoted (s : String) : String :=
  String.ofList ('"' :: (s.toList.flatMap quotedChar ++ ['"']))

end Routine.Text
