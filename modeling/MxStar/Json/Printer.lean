import MxStar.Json.Basic

/-!
Writing JSON text.

The text is compact. Inside strings only the quote, the backslash and the controls below the blank
are escaped. Each writer takes the characters that follow, so that writing is linear in the output.
-/
namespace MxStar.Json

def hexDigit (n : Nat) : Char := Nat.digitChar n

def escapeChar (c : Char) : List Char :=
  if c == '"' then ['\\', '"']
  else if c == '\\' then ['\\', '\\']
  else if c.toNat < 0x20 then
    if c == '\x08' then ['\\', 'b']
    else if c == '\t' then ['\\', 't']
    else if c == '\n' then ['\\', 'n']
    else if c == '\x0c' then ['\\', 'f']
    else if c == '\r' then ['\\', 'r']
    else ['\\', 'u', '0', '0', hexDigit (c.toNat / 16), hexDigit (c.toNat % 16)]
  else [c]

def writeString (s : String) (k : List Char) : List Char :=
  '"' :: (s.toList.flatMap escapeChar ++ '"' :: k)

mutual

def write : Json → List Char → List Char
  | .null, k => 'n' :: 'u' :: 'l' :: 'l' :: k
  | .bool true, k => 't' :: 'r' :: 'u' :: 'e' :: k
  | .bool false, k => 'f' :: 'a' :: 'l' :: 's' :: 'e' :: k
  | .int i, k => (toString i).toList ++ k
  | .real text, k => text.toList ++ k
  | .str s, k => writeString s k
  | .unreadable, k => '"' :: '\\' :: 'u' :: 'd' :: '8' :: '0' :: '0' :: '"' :: k
  | .arr [], k => '[' :: ']' :: k
  | .arr (j :: js), k => '[' :: write j (writeItems js k)
  | .obj [], k => '\x7b' :: '\x7d' :: k
  | .obj ((name, j) :: ms), k => '\x7b' :: writeString name (':' :: write j (writeMembers ms k))

/-- The items after the first and the closing bracket, before `k`. -/
def writeItems : List Json → List Char → List Char
  | [], k => ']' :: k
  | j :: js, k => ',' :: write j (writeItems js k)

/-- The members after the first and the closing brace, before `k`. -/
def writeMembers : List (String × Json) → List Char → List Char
  | [], k => '\x7d' :: k
  | (name, j) :: ms, k => ',' :: writeString name (':' :: write j (writeMembers ms k))

end

def render (j : Json) : String := String.ofList (write j [])

end MxStar.Json
