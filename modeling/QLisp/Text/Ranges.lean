/-! Character classes given as ascending tables of code point ranges. -/

namespace QLisp.Text

/-- An ascending table of disjoint code point ranges, each with its first and last member. -/
abbrev Ranges := List (Nat × Nat)

/-- Whether a code point lies in one of the ranges. -/
def Ranges.contains : Ranges → Nat → Bool
  | [], _ => false
  | (first, last) :: later, point =>
    -- The table ascends, so a point below this range lies in no later one.
    if point < first then false
    else if point ≤ last then true
    else Ranges.contains later point

/-- The ranges ascend and are disjoint, so that a search may stop at the first range above a point. -/
def Ranges.Ascending : Ranges → Prop
  | [] => True
  | [(first, last)] => first ≤ last
  | (first, last) :: (next, bound) :: later =>
    first ≤ last ∧ last < next ∧ Ranges.Ascending ((next, bound) :: later)

end QLisp.Text
