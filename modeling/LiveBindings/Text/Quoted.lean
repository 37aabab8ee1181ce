import LiveBindings.Text.Property

/-!
# Quoted text

The diagnostic form of a text: in double quotes, with a backslash before quotes and backslashes, short escapes for the
common controls, and a hexadecimal escape for every other character that would not show on its own.
-/

namespace LiveBindings.Text

/-- A natural number in lower-case base sixteen. -/
def hexText (n : Nat) : String := String.ofList (Nat.toDigits 16 n)

/-- Whether a character is written as a hexadecimal escape: it is unprintable or extends the character before it. -/
def needsHex (c : Char) : Bool :=
  if c.toNat < 0x7F then c.toNat < 0x20
  else inRanges graphemeExtend c.toNat || inRanges unprintable c.toNat

/-- One character of a quoted text. -/
def quoteChar (c : Char) : String :=
  if c = '\t' then "\\t"
  else if c = '\r' then "\\r"
  else if c = '\n' then "\\n"
  else if c = '\x00' then "\\0"
  else if c = '\\' then "\\\\"
  else if c = '"' then "\\\""
  else if needsHex c then "\\u\x7b" ++ hexText c.toNat ++ "\x7d"
  else String.singleton c

/-- The diagnostic form of a text. -/
def quoted (s : String) : String := "\"" ++ String.join (s.toList.map quoteChar) ++ "\""

end LiveBindings.Text
