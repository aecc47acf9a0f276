import Cotangent.Text.Unprinted

/-!
Text in double quotes. A quote, a backslash and the blanks with a short form are written with a
backslash; characters that do not print, among them the marks that join the character before them,
are written by their number. Everything else stands for itself.
-/

namespace Cotangent.Text

/-- One character inside quotes. -/
def quotedChar (c : Char) : List Char :=
  match c with
  | '"' => ['\\', '"']
  | '\\' => ['\\', '\\']
  | '\n' => ['\\', 'n']
  | '\r' => ['\\', 'r']
  | '\t' => ['\\', 't']
  | '\x00' => ['\\', '0']
  | c =>
    if isUnprinted c then '\\' :: 'u' :: '\x7b' :: (Nat.toDigits 16 c.toNat ++ ['\x7d']) else [c]

/-- A text in quotes. -/
def quoted (s : String) : String := String.ofList ('"' :: (s.toList.flatMap quotedChar ++ ['"']))

end Cotangent.Text
