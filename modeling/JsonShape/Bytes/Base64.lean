import JsonShape.Text.Blank

/-! Base 64 with padding: three bytes are four characters. Line breaks inside the text are
skipped, and unused bits of the last character are not looked at. -/
namespace JsonShape.Bytes.Base64
open Text

def digit (n : Nat) : Char :=
  if n < 26 then Char.ofNat (65 + n)
  else if n < 52 then Char.ofNat (71 + n)
  else if n < 62 then Char.ofNat (n - 4)
  else if n == 62 then '+'
  else '/'

def value? (c : Char) : Option Nat :=
  if isUpper c then some (c.toNat - 65)
  else if isLower c then some (c.toNat - 71)
  else if isDigit c then some (c.toNat + 4)
  else if c == '+' then some 62
  else if c == '/' then some 63
  else none

def encodeBytes : List UInt8 → List Char
  | [] => []
  | [a] =>
    let n := a.toNat * 65536
    [digit (n / 262144 % 64), digit (n / 4096 % 64), '=', '=']
  | [a, b] =>
    let n := a.toNat * 65536 + b.toNat * 256
    [digit (n / 262144 % 64), digit (n / 4096 % 64), digit (n / 64 % 64), '=']
  | a :: b :: c :: rest =>
    let n := a.toNat * 65536 + b.toNat * 256 + c.toNat
    digit (n / 262144 % 64) :: digit (n / 4096 % 64) :: digit (n / 64 % 64) :: digit (n % 64) ::
    encodeBytes rest

def encode (bytes : List UInt8) : String := String.ofList (encodeBytes bytes)

def decodeChars? : List Char → Option (List UInt8)
  | [] => some []
  | [a, b, '=', '='] => do
    let n := (← value? a) * 262144 + (← value? b) * 4096
    some [UInt8.ofNat (n / 65536)]
  | [a, b, c, '='] => do
    let n := (← value? a) * 262144 + (← value? b) * 4096 + (← value? c) * 64
    some [UInt8.ofNat (n / 65536), UInt8.ofNat (n / 256 % 256)]
  | a :: b :: c :: d :: rest => do
    let n := (← value? a) * 262144 + (← value? b) * 4096 + (← value? c) * 64 + (← value? d)
    let bytes ← decodeChars? rest
    some (UInt8.ofNat (n / 65536) :: UInt8.ofNat (n / 256 % 256) :: UInt8.ofNat (n % 256) :: bytes)
  | _ => none

def decode? (text : String) : Option (List UInt8) :=
  decodeChars? (text.toList.filter fun c => c != '\n' && c != '\r')

end JsonShape.Bytes.Base64
