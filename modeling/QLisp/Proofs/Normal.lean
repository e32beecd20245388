import QLisp.Proofs.Formals
import QLisp.Proofs.Functions
import QLisp.Proofs.Scope

/-!
Normal forms: the values that evaluation gives.

A value is normal when evaluating it gives it back. A list may hold anything, and what it holds may
be evaluated later, so more is said of values inside out: a value is regular when every function in
it has names for formals and a quoted body, and nothing in it is a bare tag.
-/

namespace QLisp

namespace Value

/-- Whether a value is a quoted list of symbols. -/
def isNames : Value → Bool
  | .list .qexpr items => items.all (·.kind = .symbol)
  | _ => false

/-- Whether a value is a quoted list. -/
def isQuoted : Value → Bool
  | .list .qexpr _ => true
  | _ => false

/-- Whether a value is in normal form. -/
def isNormal : Value → Bool
  | .number _ | .string _ | .bool _ | .builtin _ => true
  | .list .qexpr _ => true
  | .list .sexpr items => items.isEmpty
  | .lambda formals body _ => formals.isNames && body.isQuoted
  | .symbol _ | .error _ | .bare _ => false

/-- Whether there are values, and all are normal. -/
def areArguments (values : List Value) : Bool :=
  !values.isEmpty && values.all isNormal

mutual

/-- Every function in a value is well formed, and nothing in it is a bare tag. -/
def Regular : Value → Prop
  | .lambda formals body _ => formals.isNames ∧ body.isQuoted ∧ body.Regular
  | .list _ items => RegularAll items
  | .bare _ => False
  | _ => True

/-- Each of some values is regular. -/
def RegularAll : List Value → Prop
  | [] => True
  | v :: rest => v.Regular ∧ RegularAll rest

end

/-- Values are regular together when each is. -/
theorem regularAll_iff {values : List Value} : RegularAll values ↔ ∀ v ∈ values, v.Regular := by
  induction values with
  | nil => simp [RegularAll]
  | cons v rest ih => simp [RegularAll, ih]

/-- A list is regular when its elements are. -/
theorem regular_list {kind : ListKind} {items : List Value} :
    (Value.list kind items).Regular ↔ ∀ v ∈ items, v.Regular :=
  regularAll_iff

/-- The elements of a regular value are regular. -/
theorem Regular.items {v : Value} (regular : v.Regular) : ∀ t ∈ v.items, t.Regular := by
  cases v with
  | list kind items => exact regular_list.mp regular
  | _ => simp [Value.items]

/-- A regular value is regular when it is unquoted. -/
theorem Regular.unquote {v : Value} (regular : v.Regular) : v.unquote.Regular := by
  unfold Value.unquote
  split
  · exact regular_list.mpr regular.items
  · exact regular

/-- A value that evaluation may leave: regular, and normal or an error. -/
structure Settled (v : Value) : Prop where
  /-- Everything in the value is regular. -/
  regular : v.Regular
  /-- The value is normal or an error. -/
  final : v.isNormal ∨ v.isError

/-- An error is settled. -/
theorem settled_error (failure : Failure) : (Value.error failure).Settled :=
  ⟨trivial, .inr rfl⟩

/-- The empty list in round brackets is settled. -/
theorem settled_unit : Value.unit.Settled :=
  ⟨trivial, .inl rfl⟩

/-- A regular function is settled. -/
theorem Regular.lambda {formals body : Value} {scope : Option ScopeId}
    (regular : (Value.lambda formals body scope).Regular) :
    (Value.lambda formals body scope).Settled :=
  ⟨regular, .inl (by simp [isNormal, regular.1, regular.2.1])⟩

/-- A quoted list is one of some elements. -/
theorem eq_of_isQuoted {v : Value} (quoted : v.isQuoted) : ∃ items, v = .qexpr items := by
  unfold isQuoted at quoted
  split at quoted
  · exact ⟨_, rfl⟩
  · cases quoted

mutual

/-- Functions in a regular value have quoted bodies, besides what else holds of them. -/
theorem Regular.obeys {rule : FunctionRule} {v : Value} (regular : v.Regular) (obeys : v.Obeys rule) :
    v.Obeys fun formals body captured =>
      (∃ items, body = .qexpr items) ∧ rule formals body captured := by
  -- A function holds its formals and its body, and only the body may hold functions.
  cases v with
  | lambda formals body captured =>
    obtain ⟨names, quoted, bodied⟩ := regular
    obtain ⟨own, formal, inside⟩ := obeys
    -- The formals are symbols, so there is no function in them.
    refine ⟨⟨eq_of_isQuoted quoted, own⟩, ?_, bodied.obeys inside⟩
    unfold isNames at names
    split at names
    · refine obeyAll_iff.mpr fun t member => ?_
      have symbol := List.all_eq_true.mp names t member
      cases t <;> simp_all [kind, Obeys]
    · cases names
  | list kind items => exact RegularAll.obey regular obeys
  | _ => trivial

/-- The same of lists of regular values. -/
theorem RegularAll.obey {rule : FunctionRule} {values : List Value} (regular : RegularAll values)
    (obey : ObeyAll rule values) : ObeyAll (fun formals body captured =>
      (∃ items, body = .qexpr items) ∧ rule formals body captured) values := by
  cases values with
  | nil => trivial
  | cons v rest => exact ⟨regular.1.obeys obey.1, RegularAll.obey regular.2 obey.2⟩

end

/-- A quoted list of symbols with fewer of its elements is one. -/
theorem isNames_withItems {v : Value} (names : v.isNames) {items : List Value}
    (fewer : items ⊆ v.items) : (v.withItems items).isNames := by
  -- The brackets stay, and each element that is left was a symbol before.
  cases v with
  | list kind all =>
    cases kind with
    | sexpr => cases names
    | qexpr =>
      have each := List.all_eq_true.mp names
      exact List.all_eq_true.mpr fun t member => each t (fewer member)
  | _ => cases names

end Value

/-- An atom is read as a regular value. -/
theorem Atom.regular_toValue (words : Vocabulary) (leaf : Atom) : (leaf.toValue words).Regular := by
  cases leaf with
  | reserved name =>
    simp only [Atom.toValue]
    split <;> trivial
  | _ => trivial

mutual

/-- A form is read as a regular value. -/
theorem Form.regular_toValue (words : Vocabulary) (form : Form) : (form.toValue words).Regular := by
  cases form with
  | atom position leaf => exact leaf.regular_toValue words
  | list position kind children => exact Form.regularAll_toValues words children

/-- Forms are read as regular values. -/
theorem Form.regularAll_toValues (words : Vocabulary) (forms : List Form) :
    Value.RegularAll (Form.toValues words forms) := by
  cases forms with
  | nil => trivial
  | cons form rest => exact ⟨form.regular_toValue words, Form.regularAll_toValues words rest⟩

end

/-- The definitions of the library are regular. -/
theorem Library.regular_expression : ∀ v ∈ Library.expressions, v.Regular := by
  intro v member
  obtain ⟨text, _, inside⟩ := List.mem_flatMap.mp member
  split at inside
  · exact Value.regularAll_iff.mp (Form.regularAll_toValues _ _) v inside
  · simp at inside

/-- A computation in two parts succeeds when both do. -/
theorem bind_ok {α β ε : Type} {result : Except ε α} {next : α → Except ε β} {b : β}
    (done : (result >>= next) = .ok b) : ∃ a, result = .ok a ∧ next a = .ok b := by
  cases result with
  | error e => cases done
  | ok a => exact ⟨a, rfl, done⟩

/-- What succeeds for some values succeeds for each, and each result is that of one of them. -/
theorem mapM_ok {α β ε : Type} {f : α → Except ε β} {items : List α} {results : List β}
    (done : items.mapM f = .ok results) :
    (∀ a ∈ items, ∃ b, f a = .ok b) ∧ ∀ b ∈ results, ∃ a ∈ items, f a = .ok b := by
  -- The induction is on the values; a success is one of the first and one of the others.
  induction items generalizing results with
  | nil =>
    cases done
    simp
  | cons a rest ih =>
    rw [List.mapM_cons] at done
    obtain ⟨b, first, done⟩ := bind_ok done
    obtain ⟨bs, others, done⟩ := bind_ok done
    cases done
    obtain ⟨every, back⟩ := ih others
    -- Every element has a result, and every result is that of an element.
    constructor
    · rintro a' (_ | ⟨_, member⟩)
      · exact ⟨b, first⟩
      · exact every a' member
    · rintro b' (_ | ⟨_, member⟩)
      · exact ⟨a, by simp, first⟩
      · obtain ⟨a', inside, given⟩ := back b' member
        exact ⟨a', by simp [inside], given⟩

/-! Operations whose result depends on the arguments alone. -/

namespace Value

/-- What an operation may give that looks at nothing but its arguments. -/
inductive MadeOf (arguments : List Value) : Value → Prop where
  | number (x : Number) : MadeOf arguments (.number x)
  | bool (b : Bool) : MadeOf arguments (.bool b)
  | error (failure : Failure) : MadeOf arguments (.error failure)
  /-- A quoted list of arguments and of elements of arguments. -/
  | list {items : List Value}
      (parts : ∀ t ∈ items, t ∈ arguments ∨ ∃ a ∈ arguments, t ∈ a.items) :
      MadeOf arguments (.qexpr items)

variable {α : Type} {arguments : List Value} {result : Except Failure α}

/-- What comes after another result is made of the arguments unless there is a failure first. -/
theorem madeOf_bind {next : α → Except Failure Value}
    (made : ∀ a, result = .ok a → MadeOf arguments (ofExcept (next a))) :
    MadeOf arguments (ofExcept (result >>= next)) := by
  cases result with
  | ok a => exact made a rfl
  | error failure => exact .error failure

/-- A result that is changed is made of the arguments when every changed one is. -/
theorem madeOf_map {f : α → Value} (made : ∀ a, result = .ok a → MadeOf arguments (f a)) :
    MadeOf arguments (ofExcept (result.map f)) := by
  cases result with
  | ok a => exact made a rfl
  | error failure => exact .error failure

/-- What is made of regular values is settled. -/
theorem MadeOf.settled {v : Value} (made : MadeOf arguments v)
    (regular : ∀ t ∈ arguments, t.Regular) : v.Settled := by
  -- What is neither a list nor a scalar is a failure.
  cases made with
  | number x => exact ⟨trivial, .inl rfl⟩
  | bool b => exact ⟨trivial, .inl rfl⟩
  | error failure => exact settled_error failure
  | list parts =>
    refine ⟨regular_list.mpr fun t member => ?_, .inl rfl⟩
    rcases parts t member with here | ⟨a, here, inside⟩
    · exact regular t here
    · exact (regular a here).items t inside

end Value

namespace Primitive

variable {p : Primitive} {arguments : List Value} {v : Value}

/-- The only argument is among the arguments. -/
theorem mem_of_onOne (found : p.onOne .ok arguments = .ok v) : v ∈ arguments := by
  rcases arguments with _ | ⟨a, _ | ⟨b, rest⟩⟩ <;> cases found
  simp

/-- What has symbol names is a quoted list of symbols. -/
theorem isNames_of_symbolNames {names : List String} (found : p.symbolNames v = .ok names) :
    v.isNames := by
  -- A name was found for every element, and only symbols have one.
  unfold symbolNames at found
  split at found
  · refine List.all_eq_true.mpr fun t member => ?_
    obtain ⟨name, given⟩ := (mapM_ok found).1 t member
    cases t <;> first | rfl | cases given
  · cases found

/-- What has quoted items is a quoted list of them. -/
theorem eq_of_quotedItems {items : List Value} (found : p.quotedItems v = .ok items) :
    v = .qexpr items := by
  unfold quotedItems at found
  split at found <;> cases found
  rfl

/-- Names are bound to some of the arguments. -/
theorem mem_of_bindings {bindings : List (String × Value)}
    (found : p.bindings arguments = .ok bindings) : ∀ b ∈ bindings, b.2 ∈ arguments := by
  -- The first argument gives the names, and the others are what they are bound to.
  rintro ⟨name, t⟩ member
  cases arguments with
  | nil => cases found
  | cons first values =>
    obtain ⟨names, _, found⟩ := bind_ok found
    split at found
    · cases found
      exact List.mem_cons_of_mem _ (List.of_mem_zip member).2
    · cases found

/-- A function that is made has names for formals and a quoted body, both among the arguments. -/
theorem functionParts_ok {formals body : Value}
    (found : p.functionParts arguments = .ok (formals, body)) :
    formals.isNames ∧ body.isQuoted ∧ formals ∈ arguments ∧ body ∈ arguments := by
  -- Any number of arguments but two is refused, and so is anything but two quoted lists.
  rcases arguments with _ | ⟨a, _ | ⟨b, _ | ⟨c, rest⟩⟩⟩
  · cases found
  · cases found
  · obtain ⟨_, names, found⟩ := bind_ok found
    obtain ⟨_, quoted, found⟩ := bind_ok found
    cases found
    refine ⟨isNames_of_symbolNames names, ?_, by simp, by simp⟩
    rw [eq_of_quotedItems quoted]
    rfl
  · cases found

/-- With two quoted lists for branches, the condition alone tells which is taken. -/
theorem branch_qexpr (p : Primitive) (v : Value) (first second : List Value) :
    p.branch [v, .qexpr first, .qexpr second] =
      (p.condition v).map fun holds => if holds then first else second := by
  rw [branch]
  cases p.condition v <;> rfl

/-- The branch that is taken has the elements of an argument. -/
theorem branch_ok {items : List Value} (found : p.branch arguments = .ok items) :
    .qexpr items ∈ arguments := by
  -- Both branches have to be quoted lists, also the one that is not taken.
  rcases arguments with _ | ⟨a, _ | ⟨b, _ | ⟨c, _ | ⟨d, rest⟩⟩⟩⟩
  · cases found
  · cases found
  · cases found
  -- The condition is evaluated, and both branches are checked before one is taken.
  · obtain ⟨chosen, _, found⟩ := bind_ok found
    obtain ⟨_, first, found⟩ := bind_ok found
    obtain ⟨_, second, found⟩ := bind_ok found
    cases found
    rw [eq_of_quotedItems first, eq_of_quotedItems second]
    cases chosen <;> simp
  · cases found

/-- A clause has a condition and a result that are elements of its value. -/
theorem clause_ok {condition result : Value} (found : p.clause v = .ok (condition, result)) :
    condition ∈ v.items ∧ result ∈ v.items := by
  unfold clause at found
  split at found <;> cases found
  simp [Value.items]

/-- An operation on two arguments gives what it does on each two, or fails. -/
theorem madeOf_onTwo {f : Value → Value → Except Failure Value}
    (made : ∀ a b, a ∈ arguments → b ∈ arguments →
      Value.MadeOf arguments (Value.ofExcept (f a b))) :
    Value.MadeOf arguments (Value.ofExcept (p.onTwo f arguments)) := by
  rcases arguments with _ | ⟨a, _ | ⟨b, _ | ⟨c, rest⟩⟩⟩
  · exact .error _
  · exact .error _
  · exact made a b (by simp) (by simp)
  · exact .error _

/-- An operation on one argument gives what it does on each one, or fails. -/
theorem madeOf_onOne {f : Value → Except Failure Value}
    (made : ∀ a ∈ arguments, Value.MadeOf arguments (Value.ofExcept (f a))) :
    Value.MadeOf arguments (Value.ofExcept (p.onOne f arguments)) := by
  rcases arguments with _ | ⟨a, _ | ⟨b, rest⟩⟩
  · exact .error _
  · exact made a (by simp)
  · exact .error _

/-- Arithmetic gives a number, or fails. -/
theorem madeOf_arithmetic (p : Primitive) (arguments : List Value) :
    Value.MadeOf arguments (Value.ofExcept (p.arithmetic arguments)) := by
  refine Value.madeOf_bind fun _ _ => Value.madeOf_bind fun operands _ => ?_
  split
  · exact .number _
  · exact Value.madeOf_bind fun x _ => .number x
  · exact .number _

/-- An operation that makes no list gives a number or a truth value, or fails. -/
theorem madeOf_scalar {f : List Value → Except Failure Value} (found : p.scalar? = some f)
    (arguments : List Value) : Value.MadeOf arguments (Value.ofExcept (f arguments)) := by
  -- Truth values and orders are no function, whatever the arguments.
  have truth : ∀ (join : List Bool → Bool),
      Value.MadeOf arguments (Value.ofExcept (p.connective join arguments)) :=
    fun join => Value.madeOf_bind fun _ _ => Value.madeOf_bind fun _ _ => .bool _
  have order : Value.MadeOf arguments (Value.ofExcept (p.onTwo (fun a b =>
      (p.comparison a b).map fun o => .bool (p.holds o)) arguments)) :=
    madeOf_onTwo fun _ _ _ _ => Value.madeOf_map fun _ _ => .bool _
  -- Each operation is one of a few kinds, and the kind tells what it gives.
  cases p <;> simp only [scalar?, Option.some.injEq, reduceCtorEq] at found <;> subst found
  case equal | unequal => exact madeOf_onTwo fun _ _ _ _ => .bool _
  case greater | less | greaterEq | lessEq => exact order
  case not => exact madeOf_onOne fun _ _ => Value.madeOf_map fun _ _ => .bool _
  case and | or => exact truth _
  case error =>
    refine madeOf_onOne fun a _ => ?_
    split <;> exact .error _
  all_goals exact madeOf_arithmetic _ arguments

/-- The elements of a quoted list that is not empty are those of the value. -/
theorem items_of_nonEmptyItems {items : List Value} (found : p.nonEmptyItems v = .ok items) :
    v.items = items := by
  unfold nonEmptyItems at found
  split at found <;> cases found
  rfl

/-- An operation on lists gives a quoted list of what it is given, or fails. -/
theorem madeOf_listing {f : List Value → Except Failure Value} (found : p.listing? = some f)
    (arguments : List Value) : Value.MadeOf arguments (Value.ofExcept (f arguments)) := by
  -- A part of a list is taken from it, and a concatenation from all of the arguments.
  have part : ∀ g : List Value → List Value, (∀ items, g items ⊆ items) →
      Value.MadeOf arguments (Value.ofExcept (p.onItems g arguments)) := fun g fewer =>
    madeOf_onOne fun a member => Value.madeOf_map fun items given =>
      .list fun t inside => .inr ⟨a, member, items_of_nonEmptyItems given ▸ fewer items inside⟩
  cases p <;> simp only [listing?, Option.some.injEq, reduceCtorEq] at found <;> subst found
  case list => exact .list fun t member => .inl member
  case head => exact part _ fun items => List.take_subset 1 items
  case tail => exact part _ fun items => List.drop_subset 1 items
  -- Every element of a concatenation is one of some argument.
  case join =>
    refine Value.madeOf_bind fun _ _ => Value.madeOf_bind fun lists given => .list fun t member => ?_
    obtain ⟨items, inside, there⟩ := List.mem_flatten.mp member
    obtain ⟨a, here, taken⟩ := (mapM_ok given).2 items inside
    exact .inr ⟨a, here, items_of_nonEmptyItems taken ▸ there⟩
  -- An element is put in front of a list only.
  case cons =>
    -- The element is in front, and what follows are those of the list.
    refine madeOf_onTwo fun a b here there => ?_
    unfold putInFront
    split
    · refine .list fun t member => ?_
      rcases List.mem_cons.mp member with rfl | inside
      · exact .inl here
      · exact .inr ⟨_, there, inside⟩
    · exact .error _

/-- An operation that depends on its arguments alone gives what is made of them. -/
theorem madeOf_plain {f : List Value → Except Failure Value}
    (found : p.scalar?.or p.listing? = some f) (arguments : List Value) :
    Value.MadeOf arguments (Value.ofExcept (f arguments)) := by
  rcases Option.or_eq_some_iff.mp found with scalar | ⟨_, listing⟩
  · exact madeOf_scalar scalar arguments
  · exact madeOf_listing listing arguments

/-- An operation that depends on the arguments alone settles regular ones. -/
theorem settled_plain {f : List Value → Except Failure Value}
    (found : p.scalar?.or p.listing? = some f) (regular : ∀ t ∈ arguments, t.Regular) :
    (Value.ofExcept (f arguments)).Settled :=
  (madeOf_plain found arguments).settled regular

end Primitive
end QLisp
