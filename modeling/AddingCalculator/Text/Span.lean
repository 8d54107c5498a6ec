namespace AddingCalculator

/-- Lines and columns count from one, columns in characters. The offset counts the bytes of the text in UTF-8. -/
structure Position where
  line : Nat := 1
  column : Nat := 1
  offset : Nat := 0
  deriving DecidableEq

namespace Position

def advance (p : Position) (c : Char) : Position :=
  if c = '\n' then ⟨p.line + 1, 1, p.offset + c.utf8Size⟩
  else ⟨p.line, p.column + 1, p.offset + c.utf8Size⟩

def after (p : Position) (cs : List Char) : Position :=
  cs.foldl advance p

end Position

structure Span where
  line : Nat
  column : Nat
  start : Nat
  stop : Nat
  deriving DecidableEq

namespace Span

def origin : Span := ⟨1, 1, 0, 0⟩

def covering (p : Position) (cs : List Char) : Span :=
  ⟨p.line, p.column, p.offset, (p.after cs).offset⟩

def emptyAt (p : Position) : Span :=
  covering p []

end Span

end AddingCalculator
