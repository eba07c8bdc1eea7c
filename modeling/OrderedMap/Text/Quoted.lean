import OrderedMap.Text.Unprintable

/-!
Quoted texts. A text stands between double quotes. Quote, backslash and the usual control
characters have a short escape; other characters that would not be seen are shown by their number
in hexadecimal.
-/
namespace OrderedMap
namespace Quoted

/-- The number of a character in braces, in lower-case hexadecimal without leading zeros. -/
def byNumber (c : Char) : List Char :=
  ['\x5c', 'u', '\x7b'] ++ Nat.toDigits 16 c.toNat ++ ['\x7d']

def escape (c : Char) : List Char :=
  if c = '\x00' then ['\x5c', '0']
  else if c = '\t' then ['\x5c', 't']
  else if c = '\n' then ['\x5c', 'n']
  else if c = '\x0d' then ['\x5c', 'r']
  else if c = '\x22' then ['\x5c', '\x22']
  else if c = '\x5c' then ['\x5c', '\x5c']
  else if isUnprintable c then byNumber c
  else [c]

end Quoted

/-- A text as it is quoted. -/
def quote (s : String) : String :=
  String.ofList ('\x22' :: s.toList.flatMap Quoted.escape ++ ['\x22'])

end OrderedMap
