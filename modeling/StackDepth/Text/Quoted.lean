import StackDepth.Text.Hidden
import StackDepth.Text.Numeral

/-!
# Quoted text

Text between quotes, with escapes for the quote, the backslash, the common control characters, and
every other character that would not be seen.
-/

namespace StackDepth.Text

/-- `c` by its code point. -/
def escapeCode (c : Char) : String := "\\u\x7b" ++ hex c.toNat ++ "\x7d"

/-- `c` as it stands inside `quote`s. The other kind of quote needs no escape. -/
def escapeChar (quote c : Char) : String :=
  if c == quote || c == '\\' then "\\" ++ c.toString
  else
    match c.toNat with
    | 0 => "\\0"
    | 9 => "\\t"
    | 10 => "\\n"
    | 13 => "\\r"
    | _ => if isHidden c then escapeCode c else c.toString

def quotedWith (quote : Char) (cs : List Char) : String :=
  quote.toString ++ String.join (cs.map (escapeChar quote)) ++ quote.toString

/-- `s` between double quotes. -/
def quoted (s : String) : String := quotedWith '"' s.toList

end StackDepth.Text
