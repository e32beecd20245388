import QLisp.Text.Ranges

/-! White space: the characters that separate tokens and make a line blank. -/

namespace QLisp.Text

/-- The Unicode white space code points. -/
def spaceRanges : Ranges :=
  [(0x9, 0xD), (0x20, 0x20), (0x85, 0x85), (0xA0, 0xA0), (0x1680, 0x1680), (0x2000, 0x200A),
    (0x2028, 0x2029), (0x202F, 0x202F), (0x205F, 0x205F), (0x3000, 0x3000)]

/-- Whether a character is white space. -/
def isSpace (c : Char) : Bool :=
  spaceRanges.contains c.toNat

end QLisp.Text
