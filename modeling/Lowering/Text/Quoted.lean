import Lowering.Text.Printable
/-!
# Lowering.Text.Quoted

Text in double quotes, as messages show string constants. Quotes, backslashes, line feeds, carriage returns, tabs and
the null character have escapes of two characters; every other character without a visible shape of its own is
written by its code point.
-/

namespace Lowering.Quoted

/-- The hexadecimal digits of a code point, without leading zeros. -/
def codePoint (c : Char) : List Char :=
  Nat.toDigits 16 c.toNat

def encodeChar (c : Char) : List Char :=
  match c with
  | '\x00' => ['\\', '0']
  | '\t' => ['\\', 't']
  | '\r' => ['\\', 'r']
  | '\n' => ['\\', 'n']
  | '\\' => ['\\', '\\']
  | '"' => ['\\', '"']
  | c => if Printable.isPrintable c then [c] else ['\\', 'u', '\x7b'] ++ codePoint c ++ ['\x7d']

def encode (text : String) : String :=
  String.ofList ('"' :: text.toList.flatMap encodeChar ++ ['"'])

end Lowering.Quoted
