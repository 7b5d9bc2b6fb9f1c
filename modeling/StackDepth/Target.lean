import StackDepth.Text.Reader

/-!
# Targets

The architecture whose instruction forms a listing is read with, and the names it goes by: its own,
and the spellings that object-file tools print for it.
-/

namespace StackDepth

inductive Target where
  | arm
  | aarch64
  | x86
  | x86_64
  deriving DecidableEq, Repr

namespace Target

def all : List Target := [arm, aarch64, x86, x86_64]

def name : Target → String
  | arm => "arm"
  | aarch64 => "aarch64"
  | x86 => "x86"
  | x86_64 => "x86_64"

/-- The other spellings of a target. -/
def aliases : Target → List String
  | arm => ["armv7", "armv6", "thumb", "elf32_littlearm"]
  | aarch64 => ["arm64", "elf64_littleaarch64"]
  | x86 => ["80386", "i386", "i686", "elf32_i386"]
  | x86_64 => ["amd64", "elf64_x86_64"]

/-- The word that decides: the last one, in lower case, with `_` for `-`. Only ASCII letters have
    to be lowered, since no letter outside ASCII lowers to one that an accepted word holds. -/
def keyword (s : String) : List Char :=
  (Text.lastWord s.toList).map fun c => if c == '-' then '_' else c.toLower

/-- The target named by the last word of `s`. A word that no list holds still names `x86_64` if it
    has `86_64` in it, and `x86` if it ends in `86`. -/
def ofName? (s : String) : Option Target :=
  let word := keyword s
  match all.find? fun t => (t.name :: t.aliases).any (·.toList == word) with
  | some t => some t
  | none =>
    if Text.occurs "86_64".toList word then some x86_64
    else if "86".toList.isSuffixOf word then some x86
    else none

end Target

end StackDepth
