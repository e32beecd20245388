import QLisp.Value.Basic

/-! Giving forms their meaning as values. -/

namespace QLisp

/-- The operations that reserved names are read as. -/
abbrev Vocabulary := List Primitive

/-- The operation that a vocabulary gives a name. -/
def Vocabulary.meaning? (known : Vocabulary) (name : String) : Option Primitive :=
  List.find? (·.name == name) known

/-- The value of an atom; a reserved name outside the vocabulary is a plain symbol. -/
def Atom.toValue (known : Vocabulary) : Atom → Value
  | .number _ value => .number value
  | .string contents => .string (Text.encode contents)
  | .symbol name => .symbol name
  | .bool value => .bool value
  | .reserved name =>
    match Vocabulary.meaning? known name with
    | some p => .primitive p
    | none => .symbol name
  | .malformed message => .error (.malformedSource (Text.encode message))
  | .unknown _ line column =>
    .error (.malformedSource (Text.encode
      (toString line ++ ":" ++ toString column ++ ": unknown node unknown")))

namespace Form

mutual

/-- The value of a form. -/
def toValue (known : Vocabulary) : Form → Value
  | .atom _ leaf => leaf.toValue known
  | .list _ kind children => .list kind (toValues known children)

/-- The value of each form of a list. -/
def toValues (known : Vocabulary) : List Form → List Value
  | [] => []
  | form :: rest => form.toValue known :: toValues known rest

end

end Form
end QLisp
