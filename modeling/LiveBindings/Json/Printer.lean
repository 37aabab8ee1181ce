import LiveBindings.Json
import LiveBindings.Text.Quoted

/-!
# JSON text

The compact text of a JSON value: no blanks, members in the order in which they are kept, and only quotes, backslashes
and control characters escaped.
-/

namespace LiveBindings

namespace JsonNumber

def render : JsonNumber → List Char
  | natural n => Nat.toDigits 10 n
  | negative n => '-' :: Nat.toDigits 10 n
  | float x => if x.isFinite then x.jsonText.toList else "null".toList

end JsonNumber

namespace Json

/-- The digits of a control character's escape. -/
def controlEscape (n : Nat) : List Char :=
  ['\\', 'u', '0', '0', Nat.digitChar (n / 16), Nat.digitChar (n % 16)]

/-- One character of a JSON text. -/
def escapeChar (c : Char) : List Char :=
  if c = '"' then ['\\', '"']
  else if c = '\\' then ['\\', '\\']
  else if c.toNat < 0x20 then
    if c.toNat = 0x8 then ['\\', 'b']
    else if c.toNat = 0x9 then ['\\', 't']
    else if c.toNat = 0xA then ['\\', 'n']
    else if c.toNat = 0xC then ['\\', 'f']
    else if c.toNat = 0xD then ['\\', 'r']
    else controlEscape c.toNat
  else [c]

/-- A text in quotes. -/
def renderText (s : String) : List Char := '"' :: (s.toList.flatMap escapeChar ++ ['"'])

mutual

/-- The compact text of a value, as characters. -/
def render : Json → List Char
  | null => "null".toList
  | bool true => "true".toList
  | bool false => "false".toList
  | number n => n.render
  | text s => renderText s
  | array [] => ['[', ']']
  | array (v :: vs) => '[' :: (render v ++ renderItems vs)
  | object [] => ['{', '}']
  | object ((k, v) :: ms) => '{' :: (renderText k ++ ':' :: (render v ++ renderMembers ms))

/-- The items after the first, and the closing bracket. -/
def renderItems : List Json → List Char
  | [] => [']']
  | v :: vs => ',' :: (render v ++ renderItems vs)

/-- The members after the first, and the closing brace. -/
def renderMembers : List (String × Json) → List Char
  | [] => ['}']
  | (k, v) :: ms => ',' :: (renderText k ++ ':' :: (render v ++ renderMembers ms))

end

end Json

end LiveBindings
