/-!
# Source positions

A span names a stretch of one source file. The file is an index into the program's list of
source files; `line` is `0` when the front end had no line to report, and such a span counts as
unknown.
-/

namespace Unwind

/-- A stretch `lo`–`hi` of source file number `file`, with the line it starts on. -/
structure Span where
  file : UInt64 := 0
  lo : UInt32 := 0
  hi : UInt32 := 0
  line : UInt32 := 0
deriving DecidableEq

namespace Span

/-- A span is known when it carries a line. -/
def isKnown (s : Span) : Bool := 0 < s.line

/-- The span as error messages show it; the line only appears when it is known. -/
def text (s : Span) : String :=
  let range := s!"{s.file.toNat}:{s.lo.toNat}-{s.hi.toNat}"
  if s.isKnown then s!"Span({range} line {s.line.toNat})" else s!"Span({range})"

end Span

/-- A source file of the program, known by its path. -/
structure SourceFile where
  path : String
deriving DecidableEq

end Unwind
