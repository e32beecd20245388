import QLisp.Eval.Formals

/-! Laws of matching: formals never look at the arguments, only at how many there are. -/

namespace QLisp

namespace Matched

variable {α β : Type}

/-- The same match with the arguments changed. -/
def map (f : α → β) : Matched α → Matched β
  | .full bound rest =>
    .full (bound.map fun (name, a) => (name, f a)) (rest.map fun (name, as) => (name, as.map f))
  | .short bound waiting => .short (bound.map fun (name, a) => (name, f a)) waiting
  | .excess bound => .excess (bound.map fun (name, a) => (name, f a))
  | .malformed bound => .malformed (bound.map fun (name, a) => (name, f a))

/-- Changing the arguments of a match changes the bound ones. -/
theorem bound_map (f : α → β) (matched : Matched α) :
    (matched.map f).bound = matched.bound.map fun (name, a) => (name, f a) := by
  cases matched <;> rfl

/-- A bound argument in front is changed like the others. -/
theorem map_cons (f : α → β) (name : String) (a : α) (matched : Matched α) :
    (matched.cons (name, a)).map f = (matched.map f).cons (name, f a) := by
  cases matched <;> rfl

/-- A bound argument in front comes before the others. -/
theorem bound_cons (binding : String × α) (matched : Matched α) :
    (matched.cons binding).bound = binding :: matched.bound := by
  cases matched <;> rfl

/-- With a bound argument in front every formal has an argument when it had one before. -/
theorem cons_eq_full {binding : String × α} {matched : Matched α} {bound : List (String × α)}
    {rest : Option (String × List α)} (same : matched.cons binding = .full bound rest) :
    ∃ others, matched = .full others rest ∧ bound = binding :: others := by
  cases matched <;> cases same
  exact ⟨_, rfl, rfl⟩

/-- With a bound argument in front the formals wait that did so before. -/
theorem cons_eq_short {binding : String × α} {matched : Matched α} {bound : List (String × α)}
    {waiting : List Value} (same : matched.cons binding = .short bound waiting) :
    ∃ others, matched = .short others waiting ∧ bound = binding :: others := by
  cases matched <;> cases same
  exact ⟨_, rfl, rfl⟩

/-- Puts bound arguments in front of a match. -/
def prepend (bindings : List (String × α)) (matched : Matched α) : Matched α :=
  bindings.foldr cons matched

/-- Bound arguments in front come before the others. -/
theorem bound_prepend (bindings : List (String × α)) (matched : Matched α) :
    (matched.prepend bindings).bound = bindings ++ matched.bound := by
  induction bindings with
  | nil => rfl
  | cons b rest ih => exact (bound_cons b (matched.prepend rest)).trans (congrArg (b :: ·) ih)

end Matched

variable {α β : Type}

section

variable {formal : Value}

/-- The marker takes all arguments that are left for the name after it. -/
theorem matchFormals_marker (marker : formal.symbolName = variadicMarker) (formals : List Value)
    (arguments : List α) : matchFormals (formal :: formals) arguments =
      match formals with
      | [rest] => .full [] (some (rest.symbolName, arguments))
      | _ => .malformed [] :=
  if_pos marker

/-- Without arguments a formal waits, with those after it. -/
theorem matchFormals_waiting (other : formal.symbolName ≠ variadicMarker) (formals : List Value) :
    (matchFormals (formal :: formals) [] : Matched α) = .short [] (formal :: formals) :=
  if_neg other

/-- A formal takes the first argument. -/
theorem matchFormals_taking (other : formal.symbolName ≠ variadicMarker) (formals : List Value)
    (a : α) (arguments : List α) : matchFormals (formal :: formals) (a :: arguments) =
      (matchFormals formals arguments).cons (formal.symbolName, a) :=
  if_neg other

end

/--
Induction on how formals are matched.

No formal is left, or the first one is the marker, finds no argument, or takes the first argument and
leaves the others to the formals after it.
-/
theorem matchFormals_induction {motive : List Value → List α → Prop}
    (filled : ∀ arguments, motive [] arguments)
    (marker : ∀ formal formals arguments, formal.symbolName = variadicMarker →
      motive (formal :: formals) arguments)
    (waiting : ∀ formal formals, formal.symbolName ≠ variadicMarker → motive (formal :: formals) [])
    (taking : ∀ formal formals a arguments, formal.symbolName ≠ variadicMarker →
      motive formals arguments → motive (formal :: formals) (a :: arguments))
    (formals : List Value) (arguments : List α) : motive formals arguments := by
  induction formals generalizing arguments with
  | nil => exact filled arguments
  | cons formal formals ih =>
    by_cases same : formal.symbolName = variadicMarker
    · exact marker formal formals arguments same
    · cases arguments with
      | nil => exact waiting formal formals same
      | cons a arguments => exact taking formal formals a arguments same (ih arguments)

/-- Matching commutes with any change of the arguments. -/
theorem matchFormals_map (f : α → β) (formals : List Value) (arguments : List α) :
    matchFormals formals (arguments.map f) = (matchFormals formals arguments).map f := by
  induction formals, arguments using matchFormals_induction with
  | filled arguments => cases arguments <;> rfl
  -- At the marker the names are all there are, whatever the arguments.
  | marker formal formals arguments marker =>
    rw [matchFormals_marker marker, matchFormals_marker marker]
    rcases formals with _ | ⟨_, _ | _⟩ <;> rfl
  | waiting formal formals other =>
    rw [List.map_nil, matchFormals_waiting other, matchFormals_waiting other]
    rfl
  | taking formal formals a arguments other ih =>
    rw [List.map_cons, matchFormals_taking other, matchFormals_taking other, ih, Matched.map_cons]

/-- The bound arguments are the first ones, in order. -/
theorem bound_matchFormals (formals : List Value) (arguments : List α) :
    (matchFormals formals arguments).bound.map (·.2) =
      arguments.take (matchFormals formals arguments).bound.length := by
  -- Both sides follow the formals; only what is bound to them depends on the arguments.
  induction formals, arguments using matchFormals_induction with
  | filled arguments => cases arguments <;> rfl
  -- The marker takes none of the arguments for the names before it.
  | marker formal formals arguments marker =>
    rw [matchFormals_marker marker]
    rcases formals with _ | ⟨_, _ | _⟩ <;> rfl
  | waiting formal formals other =>
    rw [matchFormals_waiting other]
    rfl
  | taking formal formals a arguments other ih =>
    rw [matchFormals_taking other, Matched.bound_cons, List.map_cons, ih, List.length_cons,
      List.take_succ_cons]

/-- The names that are bound stand for the first arguments, in order. -/
theorem bound_eq_zip (formals : List Value) (arguments : List α) :
    (matchFormals formals arguments).bound =
      ((matchFormals formals arguments).bound.map (·.1)).zip arguments := by
  induction formals, arguments using matchFormals_induction with
  | filled arguments => cases arguments <;> rfl
  | marker formal formals arguments marker =>
    rw [matchFormals_marker marker]
    rcases formals with _ | ⟨_, _ | _⟩ <;> rfl
  | waiting formal formals other =>
    rw [matchFormals_waiting other]
    rfl
  | taking formal formals a arguments other ih =>
    rw [matchFormals_taking other, Matched.bound_cons, List.map_cons, List.zip_cons_cons, ← ih]

/-- A bound argument is one of the arguments. -/
theorem mem_of_mem_bound {formals : List Value} {arguments : List α} {name : String} {a : α}
    (member : (name, a) ∈ (matchFormals formals arguments).bound) : a ∈ arguments := by
  have inside := List.mem_map_of_mem (f := (·.2)) member
  rw [bound_matchFormals] at inside
  exact List.mem_of_mem_take inside

/-- No more arguments are bound than there are. -/
theorem length_bound_le (formals : List Value) (arguments : List α) :
    (matchFormals formals arguments).bound.length ≤ arguments.length := by
  -- The bound arguments are a prefix of the arguments.
  have length := congrArg List.length (bound_matchFormals formals arguments)
  rw [List.length_map, List.length_take] at length
  omega

/-- A variadic name has the arguments that are not bound one by one. -/
theorem rest_matchFormals {formals : List Value} {arguments : List α} {bound : List (String × α)}
    {name : String} {values : List α}
    (found : matchFormals formals arguments = .full bound (some (name, values))) :
    values = arguments.drop bound.length := by
  induction formals, arguments using matchFormals_induction generalizing bound with
  | filled arguments => cases arguments <;> cases found
  -- The marker has one name after it, which takes all that is left.
  | marker formal formals arguments marker =>
    rw [matchFormals_marker marker] at found
    rcases formals with _ | ⟨_, _ | _⟩ <;> cases found
    rfl
  | waiting formal formals other =>
    rw [matchFormals_waiting other] at found
    cases found
  -- A formal before the marker takes an argument, so that many fewer are left.
  | taking formal formals a arguments other ih =>
    rw [matchFormals_taking other] at found
    obtain ⟨others, inner, rfl⟩ := Matched.cons_eq_full found
    exact ih inner

/-- A variadic name has arguments only. -/
theorem rest_subset {formals : List Value} {arguments : List α} {bound : List (String × α)}
    {name : String} {values : List α}
    (found : matchFormals formals arguments = .full bound (some (name, values))) :
    values ⊆ arguments := by
  rw [rest_matchFormals found]
  exact List.drop_subset _ _

/-- The formals that still wait are the last ones. -/
theorem waiting_suffix {formals : List Value} {arguments : List α} {bound : List (String × α)}
    {waiting : List Value} (found : matchFormals formals arguments = .short bound waiting) :
    waiting <:+ formals := by
  -- Formals are given up from the front only, so those that wait are the last ones.
  induction formals, arguments using matchFormals_induction generalizing bound with
  | filled arguments => cases arguments <;> cases found
  -- A marker leaves nothing waiting.
  | marker formal formals arguments marker =>
    rw [matchFormals_marker marker] at found
    rcases formals with _ | ⟨_, _ | _⟩ <;> cases found
  | waiting formal formals other =>
    rw [matchFormals_waiting other] at found
    cases found
    exact List.suffix_rfl
  | taking formal formals a arguments other ih =>
    rw [matchFormals_taking other] at found
    obtain ⟨_, inner, _⟩ := Matched.cons_eq_short found
    exact (ih inner).trans (List.suffix_cons formal formals)

/--
Arguments may be matched in two goes.

If the first ones leave formals waiting, then matching all of them is matching the others with those.
-/
theorem matchFormals_append {formals waiting : List Value} {arguments : List α}
    {bound : List (String × α)} (found : matchFormals formals arguments = .short bound waiting)
    (more : List α) :
    matchFormals formals (arguments ++ more) = (matchFormals waiting more).prepend bound := by
  induction formals, arguments using matchFormals_induction generalizing bound with
  | filled arguments => cases arguments <;> cases found
  -- With a marker everything is bound, so no formal waits.
  | marker formal formals arguments marker =>
    rw [matchFormals_marker marker] at found
    rcases formals with _ | ⟨_, _ | _⟩ <;> cases found
  | waiting formal formals other =>
    rw [matchFormals_waiting other] at found
    cases found
    rfl
  -- The first argument is taken in both ways, so the others are compared.
  | taking formal formals a arguments other ih =>
    rw [matchFormals_taking other] at found
    obtain ⟨_, inner, rfl⟩ := Matched.cons_eq_short found
    rw [List.cons_append, matchFormals_taking other, ih inner]
    rfl

/-- A name that an argument is bound to is that of a formal. -/
theorem name_of_mem_bound {formals : List Value} {arguments : List α} {name : String} {a : α}
    (member : (name, a) ∈ (matchFormals formals arguments).bound) :
    ∃ formal ∈ formals, formal.symbolName = name := by
  induction formals, arguments using matchFormals_induction with
  | filled arguments => cases arguments <;> cases member
  -- Behind the marker no name is bound in this way.
  | marker formal formals arguments marker =>
    rw [matchFormals_marker marker] at member
    rcases formals with _ | ⟨_, _ | _⟩ <;> cases member
  | waiting formal formals other =>
    rw [matchFormals_waiting other] at member
    cases member
  -- A name is bound by this formal, or by one after it.
  | taking formal formals argument arguments other ih =>
    rw [matchFormals_taking other, Matched.bound_cons] at member
    rcases List.mem_cons.mp member with same | later
    · cases same
      exact ⟨formal, List.mem_cons_self, rfl⟩
    · obtain ⟨found, inside, named⟩ := ih later
      exact ⟨found, List.mem_cons_of_mem _ inside, named⟩

/-- A variadic name is that of a formal. -/
theorem name_of_rest {formals : List Value} {arguments : List α} {name : String}
    {bound : List (String × α)} {values : List α}
    (found : matchFormals formals arguments = .full bound (some (name, values))) :
    ∃ formal ∈ formals, formal.symbolName = name := by
  induction formals, arguments using matchFormals_induction generalizing bound with
  | filled arguments => cases arguments <;> cases found
  -- The marker has one name after it, and that is the one.
  | marker formal formals arguments marker =>
    rw [matchFormals_marker marker] at found
    rcases formals with _ | ⟨last, _ | _⟩ <;> cases found
    exact ⟨last, by simp, rfl⟩
  | waiting formal formals other =>
    rw [matchFormals_waiting other] at found
    cases found
  -- The formal takes an argument, so the marker is among the others.
  | taking formal formals a arguments other ih =>
    rw [matchFormals_taking other] at found
    obtain ⟨_, inner, _⟩ := Matched.cons_eq_full found
    obtain ⟨known, inside, named⟩ := ih inner
    exact ⟨known, List.mem_cons_of_mem _ inside, named⟩

/-- Formals wait when there are fewer arguments than formals before the first marker. -/
theorem matchFormals_fewer {names : List String} {arguments : List α}
    (fewer : arguments.length < names.idxOf variadicMarker) :
    ∃ bound, matchFormals (names.map .symbol) arguments =
      .short bound ((names.drop arguments.length).map .symbol) := by
  -- By induction on the formals, each of which takes an argument until there are none.
  induction names generalizing arguments with
  | nil => simp at fewer
  | cons name names ih =>
    rw [List.idxOf_cons] at fewer
    by_cases marker : name = variadicMarker
    -- At the marker there would have to be fewer arguments than none.
    · simp [marker] at fewer
    · simp only [beq_eq_false_iff_ne.mpr marker, cond_false] at fewer
      have other : (Value.symbol name).symbolName ≠ variadicMarker := marker
      cases arguments with
      | nil => exact ⟨[], matchFormals_waiting other _⟩
      | cons a rest =>
        -- Behind this formal there are still fewer arguments than formals before the marker.
        obtain ⟨bound, inner⟩ := ih (Nat.lt_of_succ_lt_succ fewer)
        refine ⟨(name, a) :: bound, ?_⟩
        rw [List.map_cons, matchFormals_taking other, inner]
        rfl

/-- Formals without the marker are filled one by one, as far as both lists reach. -/
theorem matchFormals_unmarked {names : List String} (absent : variadicMarker ∉ names)
    (arguments : List α) :
    matchFormals (names.map .symbol) arguments =
      if names.length < arguments.length then .excess (names.zip arguments)
      else if arguments.length < names.length then
        .short (names.zip arguments) ((names.drop arguments.length).map .symbol)
      else .full (names.zip arguments) none := by
  -- A name that is not the marker takes the next argument, and the others are matched alike.
  induction names generalizing arguments with
  | nil => cases arguments <;> rfl
  | cons name names ih =>
    obtain ⟨other, absent⟩ := List.ne_and_not_mem_of_not_mem_cons absent
    have unmarked : (Value.symbol name).symbolName ≠ variadicMarker := other.symm
    cases arguments with
    | nil => exact matchFormals_waiting unmarked _
    | cons a rest =>
      rw [List.map_cons, matchFormals_taking unmarked, ih absent rest]
      -- With one formal and one argument less the three cases are the same.
      simp only [List.length_cons, Nat.add_lt_add_iff_right]
      split
      · rfl
      · split <;> rfl

/--
Formals up to the first marker are filled one by one, as far as both lists reach.

Once they are filled the marker takes the arguments that are left for the name after it, even none.
-/
theorem matchFormals_marked {before : List String} (absent : variadicMarker ∉ before)
    (after : List String) (arguments : List α) :
    matchFormals ((before ++ variadicMarker :: after).map .symbol) arguments =
      if arguments.length < before.length then .short (before.zip arguments)
        (((before ++ variadicMarker :: after).drop arguments.length).map .symbol)
      else match after with
        | [rest] => .full (before.zip arguments) (some (rest, arguments.drop before.length))
        | _ => .malformed (before.zip arguments) := by
  -- By induction on the formals before the marker; behind it everything has been decided.
  induction before generalizing arguments with
  -- The marker comes first: it binds the name after it, if that is the only one.
  | nil =>
    rw [List.nil_append, List.map_cons, matchFormals_marker rfl]
    rcases after with _ | ⟨rest, _ | _⟩ <;> rfl
  | cons name before ih =>
    obtain ⟨other, absent⟩ := List.ne_and_not_mem_of_not_mem_cons absent
    have unmarked : (Value.symbol name).symbolName ≠ variadicMarker := other.symm
    cases arguments with
    | nil => exact matchFormals_waiting unmarked _
    | cons a rest =>
      rw [List.cons_append, List.map_cons, matchFormals_taking unmarked, ih absent rest]
      -- Before the marker a formal takes an argument, on which the cases do not depend.
      simp only [List.length_cons, Nat.add_lt_add_iff_right]
      split
      · rfl
      · rcases after with _ | ⟨last, _ | _⟩ <;> rfl

end QLisp
