import QLisp.Value.Basic

/-!
Matching the arguments of a call with the formals of a function.

Formals are filled from the left. Fewer arguments than formals leave a function of the remaining
ones, and the marker `&` makes the name after it stand for all further arguments.
-/

namespace QLisp

/-- The formal that collects the remaining arguments under the name after it. -/
def variadicMarker : String := "&"

/-- How the arguments of a call fit the formals. The argument type is left open. -/
inductive Matched (α : Type) where
  /-- Every formal has its argument; a variadic name has the list of the remaining ones. -/
  | full (bound : List (String × α)) (rest : Option (String × List α))
  /-- Some formals still wait for arguments. -/
  | short (bound : List (String × α)) (waiting : List Value)
  /-- There are more arguments than formals; the bound ones are those that fitted. -/
  | excess (bound : List (String × α))
  /-- The variadic marker is not followed by exactly one name. -/
  | malformed (bound : List (String × α))

namespace Matched

/-- Puts a bound argument in front of a match. -/
def cons {α : Type} (binding : String × α) : Matched α → Matched α
  | .full bound rest => .full (binding :: bound) rest
  | .short bound waiting => .short (binding :: bound) waiting
  | .excess bound => .excess (binding :: bound)
  | .malformed bound => .malformed (binding :: bound)

/-- The arguments bound one by one, with their names. -/
def bound {α : Type} : Matched α → List (String × α)
  | .full bound _ => bound
  | .short bound _ => bound
  | .excess bound => bound
  | .malformed bound => bound

end Matched

/-- Matches arguments with formals. -/
def matchFormals {α : Type} : List Value → List α → Matched α
  | [], [] => .full [] none
  | [], _ :: _ => .excess []
  | formal :: formals, arguments =>
    if formal.symbolName = variadicMarker then
      -- The marker takes whatever arguments are left, even none.
      match formals with
      | [rest] => .full [] (some (rest.symbolName, arguments))
      | _ => .malformed []
    else match arguments with
      | [] => .short [] (formal :: formals)
      | argument :: arguments => (matchFormals formals arguments).cons (formal.symbolName, argument)

end QLisp
