/-!
White space and the tokens between it.

The blanks are the characters with the Unicode property White_Space. Tokens are the maximal runs of
other characters, in order; blanks at either end and runs of several blanks leave no empty token.
-/
namespace MxStar.Text

def isBlank (c : Char) : Bool :=
  let n := c.toNat
  (0x9 ≤ n && n ≤ 0xd) || n == 0x20 || n == 0x85 || n == 0xa0 || n == 0x1680 ||
    (0x2000 ≤ n && n ≤ 0x200a) || n == 0x2028 || n == 0x2029 || n == 0x202f || n == 0x205f ||
    n == 0x3000

/-- The tokens of `cs`, given the reversed characters of a token already begun. -/
def tokensFrom (begun : List Char) : List Char → List String
  | [] => if begun.isEmpty then [] else [String.ofList begun.reverse]
  | c :: cs =>
    if isBlank c then
      if begun.isEmpty then tokensFrom [] cs
      else String.ofList begun.reverse :: tokensFrom [] cs
    else tokensFrom (c :: begun) cs

def tokens (s : String) : List String := tokensFrom [] s.toList

end MxStar.Text
