import StackDepth.Text.Column
import StackDepth.Listing.Line

/-!
# The log

What a run has to say while it goes on. An event is what happened; its text is written in one place.
-/

namespace StackDepth

inductive Level where
  | warn
  | info
  | debug
  deriving DecidableEq, Repr

namespace Level

def rank : Level → Nat
  | warn => 0
  | info => 1
  | debug => 2

def text : Level → String
  | warn => "WARN"
  | info => "INFO"
  | debug => "DEBUG"

end Level

inductive Event where
  /-- A decrement of a size that no frame has. -/
  | decrementRefused (line : String)
  /-- An instruction was counted; `size` if it takes bytes of the stack. -/
  | counted (line : Line) (size : Option Nat) (text : String)
  | sectionStarted (name : String)
  | functionStarted (name : String)
  | listingRead (lines functions : Nat)
  /-- A callee that was never labelled is dropped, and with it a call of `caller`. -/
  | innerCall (caller : String) (address : Nat) (name : String)
  | dynamicIn (name : String)
  | dynamicFound
  | pointerCallIn (name : String)
  | pointerCallFound
  /-- The chain of calls whose last function closes a cycle. -/
  | cyclePath (names : List String)
  | cycle (names : List String)
  | cycleFound
  deriving DecidableEq, Repr

namespace Event

def level : Event → Level
  | decrementRefused _ | counted _ _ _ | sectionStarted _ | functionStarted _ | innerCall _ _ _
  | cyclePath _ => .debug
  | listingRead _ _ => .info
  | dynamicIn _ | dynamicFound | pointerCallIn _ | pointerCallFound | cycle _ | cycleFound => .warn

def chain (names : List String) : String := " -> ".intercalate names

def text : Event → String
  | decrementRefused line => "ignore stack decrement of unreasonable size: " ++ line
  | counted line size text =>
    Text.alignLeft 16 line.kind ++ " " ++ Text.alignLeft 9 line.impact.text ++ " " ++
      Text.alignRight 6 ((size.map Text.decimal).getD "") ++ "  " ++ text
  | sectionStarted name => "Disassembly of section " ++ name ++ ":"
  | functionStarted name => name ++ ":"
  | listingRead lines functions =>
    "Parsed " ++ Text.decimal lines ++ " lines, found " ++ Text.decimal functions ++ " functions"
  | innerCall caller address name =>
    "Ignore inner call in " ++ caller ++ " to " ++ Text.hexAddress address ++ " (" ++ name ++ ")"
  | dynamicIn name => "Dynamic stack operation in " ++ name
  | dynamicFound => "Found dynamic stack operations"
  | pointerCallIn name => "Function pointer call in " ++ name
  | pointerCallFound => "Found function pointers"
  | cyclePath names => "Cycle in call path: " ++ chain names
  | cycle names => "Cycle in call graph: " ++ chain names
  | cycleFound => "Found cycles in call graph"

/-- Whether the event is shown to one who asks for `least` or what is more severe. -/
def isShown (least : Level) (e : Event) : Bool := e.level.rank ≤ least.rank

end Event

end StackDepth
