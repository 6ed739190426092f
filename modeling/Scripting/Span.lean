/-! Locations in source text. -/
namespace Scripting

/-- The characters and the line that a piece of source text covers. -/
structure Span where
  start : Nat := 0
  stop : Nat := 0
  line : Nat := 0
  deriving DecidableEq, Repr, Inhabited

namespace Span

def text (s : Span) : String := s!"{s.line}:{s.start}..{s.stop}"

/-- The form in which log entries give a location that may be missing. -/
def logText : Option Span → String
  | none => "None"
  | some s => s!"Some(Span \x7b start: {s.start}, end: {s.stop}, line: {s.line} \x7d)"

end Span
end Scripting
