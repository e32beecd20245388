/-! Places in a source text. -/

namespace QLisp

/-- A place in a source text. -/
structure Position where
  /-- The number of bytes before it. -/
  offset : Nat
  /-- The line it is on, counted from one. -/
  line : Nat
  /-- One more than the number of characters before it on its line. -/
  column : Nat
  deriving DecidableEq, Repr, Inhabited

namespace Position

/-- The beginning of a text. -/
def start : Position := ⟨0, 1, 1⟩

/-- The place right after a character. -/
def after (p : Position) (c : Char) : Position :=
  -- A newline ends its line, and any other character takes one column.
  if c = '\n' then ⟨p.offset + c.utf8Size, p.line + 1, 1⟩
  else ⟨p.offset + c.utf8Size, p.line, p.column + 1⟩

/-- A place as messages give it, by line and column. -/
def render (p : Position) : String :=
  toString p.line ++ ":" ++ toString p.column

end Position
end QLisp
