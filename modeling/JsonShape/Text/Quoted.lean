import JsonShape.Text.Blank
import JsonShape.Text.Graphic

/-! Text between double quotes: a quote and a backslash are escaped, and every character that
is not graphic is written by a short name or by its code. -/
namespace JsonShape.Text.Quoted

def shortName? (n : Nat) : Option Char :=
  if n == 7 then some 'a'
  else if n == 8 then some 'b'
  else if n == 9 then some 't'
  else if n == 10 then some 'n'
  else if n == 11 then some 'v'
  else if n == 12 then some 'f'
  else if n == 13 then some 'r'
  else none

def escapeChar (c : Char) : List Char :=
  let n := c.toNat
  if c == '\"' || c == '\\' then ['\\', c]
  else if isGraphic c then [c]
  else
    match shortName? n with
    | some name => ['\\', name]
    | none =>
      if n < 0x20 || n == 0x7F then '\\' :: 'x' :: hex 2 n
      else if n < 0x10000 then '\\' :: 'u' :: hex 4 n
      else '\\' :: 'U' :: hex 8 n

def quote (s : String) : String :=
  String.ofList ('\"' :: s.toList.flatMap escapeChar ++ ['\"'])

end JsonShape.Text.Quoted
