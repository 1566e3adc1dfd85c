import RecordDefinitions.Text.Unshown

/-!
# Quotation in messages

A string as a message quotes it: quotes and backslashes are escaped, and
characters that would not show are given by name or by number.
-/

namespace RecordDefinitions.Text

/-- One character inside a quotation. -/
def quotedChar (c : Char) : List Char :=
  match c with
  | '"' => ['\\', '"']
  | '\\' => ['\\', '\\']
  | '\t' => ['\\', 't']
  | '\r' => ['\\', 'r']
  | '\n' => ['\\', 'n']
  | c =>
    if c.toNat = 0 then ['\\', '0']
    else if isUnshown c then
      '\\' :: 'u' :: Char.ofNat 0x7B :: Nat.toDigits 16 c.toNat ++ [Char.ofNat 0x7D]
    else [c]

/-- A string between quotes. -/
def quotation (s : String) : String :=
  "\"" ++ String.ofList (s.toList.flatMap quotedChar) ++ "\""

end RecordDefinitions.Text
