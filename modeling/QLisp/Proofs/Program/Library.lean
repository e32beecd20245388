import Mathlib.Data.List.Forall2
import QLisp.Proofs.Form.Reading
import QLisp.Proofs.Value.Identical
import QLisp.Program.Library

/-!
The expressions of the library.

The text of the library defines the empty list, a condition that holds and the function `fun`, and then
functions with the help of `fun`, and other names for some of them.
-/

namespace QLisp

namespace Library

/-- A function of the library: its name, its formals and its body. -/
structure Function where
  /-- The name that it is bound to. -/
  name : String
  /-- The names of its formals. -/
  formals : List String
  /-- The elements of its body. -/
  body : List Value

namespace Function

/-- The function as a value, with the scope that it captured. -/
def closure (f : Function) (scope : ScopeId) : Value :=
  .lambda (.qexpr (f.formals.map .symbol)) (.qexpr f.body) (some scope)

/-- A function is no error. -/
@[simp] theorem isError_closure (f : Function) (scope : ScopeId) : (f.closure scope).isError = false :=
  rfl

/-- The expression that defines the function. -/
def definition (f : Function) : Value :=
  .sexpr [.symbol "fun", .qexpr ((f.name :: f.formals).map .symbol), .qexpr f.body]

end Function

/-- The definition of a name. -/
def define (name : String) (v : Value) : Value :=
  .sexpr [.primitive .define, .qexpr [.symbol name], v]

/-- The function that defines functions. -/
def definer : Function :=
  ⟨"fun", ["__sig", "__body"], [.primitive .define, .sexpr [.primitive .head, .symbol "__sig"],
    .sexpr [.primitive .lambda, .sexpr [.primitive .tail, .symbol "__sig"], .symbol "__body"]]⟩

/-- The conditional on a list being empty. -/
def onEmpty (name : String) (empty other : List Value) : List Value :=
  [.primitive .cond, .sexpr [.primitive .equal, .symbol name, .symbol "nil"], .qexpr empty, .qexpr other]

/-- A list without its first element, as an expression. -/
def tailOf (name : String) : Value :=
  .sexpr [.primitive .tail, .symbol name]

/-- The expression for a number less by one. -/
def lessOne (v : Value) : Value :=
  .sexpr [.primitive .sub, v, .number (.ofInt 1)]

/-- The conditional on a count being used up or a list being empty. -/
def onDone (done other : List Value) : List Value :=
  [.primitive .cond, .sexpr [.primitive .or, .sexpr [.primitive .lessEq, .symbol "n", .number (.ofInt 0)],
    .sexpr [.primitive .equal, .symbol "l", .symbol "nil"]], .qexpr done, .qexpr other]

/-- A call of a function on the elements of a list as arguments. -/
def unpack : Function :=
  ⟨"unpack", ["f", "l"], [.primitive .eval, .sexpr [.primitive .cons, .symbol "f", .symbol "l"]]⟩

/-- The first element of a list, or its value if it is an expression. -/
def fst : Function :=
  ⟨"fst", ["l"], [.primitive .eval, .sexpr [.primitive .head, .symbol "l"]]⟩

/-- The second element of a list, or its value. -/
def snd : Function :=
  ⟨"snd", ["l"], [.primitive .eval, .sexpr [.primitive .head, tailOf "l"]]⟩

/-- The third element of a list, or its value. -/
def trd : Function :=
  ⟨"trd", ["l"], [.primitive .eval, .sexpr [.primitive .head, .sexpr [.primitive .tail, tailOf "l"]]]⟩

/-- Two lists in one, either of which may be empty. -/
def append : Function :=
  ⟨"append", ["a", "b"], onEmpty "a" [.symbol "b"]
    (onEmpty "b" [.symbol "a"] [.primitive .join, .symbol "a", .symbol "b"])⟩

/-- The number of elements of a list. -/
def len : Function :=
  ⟨"len", ["l"], onEmpty "l" [.number (.ofInt 0)]
    [.primitive .add, .number (.ofInt 1), .sexpr [.symbol "len", tailOf "l"]]⟩

/-- The element of a list after as many others as a number counts, or its value. -/
def nth : Function :=
  ⟨"nth", ["n", "l"], [.primitive .cond, .sexpr [.primitive .equal, .symbol "n", .number (.ofInt 0)],
    .qexpr [.symbol "fst", .symbol "l"], .qexpr [.symbol "nth", lessOne (.symbol "n"), tailOf "l"]]⟩

/-- The last element of a list, or its value. -/
def last : Function :=
  ⟨"last", ["l"], [.symbol "nth", lessOne (.sexpr [.symbol "len", .symbol "l"]), .symbol "l"]⟩

/-- The first elements of a list, as many as a number counts. -/
def take : Function :=
  ⟨"take", ["n", "l"], onDone [.symbol "nil"] [.symbol "append", .sexpr [.primitive .head, .symbol "l"],
    .sexpr [.symbol "take", lessOne (.symbol "n"), tailOf "l"]]⟩

/-- The other elements of a list. -/
def drop : Function :=
  ⟨"drop", ["n", "l"], onDone [.symbol "l"] [.symbol "drop", lessOne (.symbol "n"), tailOf "l"]⟩

/-- The first elements of a list and the others. -/
def split : Function :=
  ⟨"split", ["n", "l"], [.primitive .list, .sexpr [.symbol "take", .symbol "n", .symbol "l"],
    .sexpr [.symbol "drop", .symbol "n", .symbol "l"]]⟩

/-- Whether a value is an element of a list. -/
def elem : Function :=
  ⟨"elem", ["x", "l"], onEmpty "l" [.bool false]
    [.primitive .cond, .sexpr [.primitive .equal, .sexpr [.primitive .list, .symbol "x"],
      .sexpr [.primitive .head, .symbol "l"]], .qexpr [.bool true],
      .qexpr [.symbol "elem", .symbol "x", tailOf "l"]]⟩

/-- A call of a function, in the body of another one, with the first element of a list after others. -/
def onFirst (others : List Value) : Value :=
  .sexpr (.symbol "f" :: others ++ [.sexpr [.symbol "fst", .symbol "l"]])

/-- A function that joins something for the first element of a list to what it gives for the others. -/
def walk (name : String) (joint item : Value) : Function :=
  ⟨name, ["f", "l"], onEmpty "l" [.symbol "nil"]
    [joint, item, .sexpr [.symbol name, .symbol "f", tailOf "l"]]⟩

/-- The results of a function for the elements of a list. -/
def map : Function :=
  walk "map" (.primitive .cons) (onFirst [])

/-- The elements of a list for which a function holds. -/
def filter : Function :=
  walk "filter" (.symbol "append") (.sexpr [.primitive .cond, onFirst [],
    .qexpr [.primitive .head, .symbol "l"], .qexpr [.symbol "nil"]])

/-- What combining a value with the elements of a list from the left gives. -/
def foldl : Function :=
  ⟨"foldl", ["f", "z", "l"], onEmpty "l" [.symbol "z"]
    [.symbol "foldl", .symbol "f", onFirst [.symbol "z"], tailOf "l"]⟩

/-- A list the other way round. -/
def reverse : Function :=
  ⟨"reverse", ["l"], onEmpty "l" [.symbol "nil"]
    [.symbol "append", .sexpr [.symbol "reverse", tailOf "l"], .sexpr [.primitive .head, .symbol "l"]]⟩

/-- A function, or another name for one. -/
inductive Entry where
  /-- A function that is defined. -/
  | function (f : Function)
  /-- A name for what another name means. -/
  | synonym (name other : String)

namespace Entry

/-- The name that is bound. -/
def name : Entry → String
  | .function f => f.name
  | .synonym name _ => name

/-- The expression that binds the name. -/
def expression : Entry → Value
  | .function f => f.definition
  | .synonym name other => define name (.symbol other)

end Entry

/-- What is defined with the help of `fun`, in order. -/
def entries : List Entry := [
  .function unpack,
  .function ⟨"pack", ["f", "&", "xs"], [.symbol "f", .symbol "xs"]⟩,
  .synonym "curry" "unpack",
  .synonym "uncurry" "pack",
  .function ⟨"flip", ["f", "a", "b"], [.symbol "f", .symbol "b", .symbol "a"]⟩,
  .function ⟨"comp", ["f", "g", "x"], [.symbol "f", .sexpr [.symbol "g", .symbol "x"]]⟩,
  .function fst,
  .function snd,
  .function trd,
  .function append,
  .function len,
  .function nth,
  .function last,
  .function take,
  .function drop,
  .function split,
  .function elem,
  .function map,
  .function filter,
  .function foldl,
  .function ⟨"sum", ["l"], [.symbol "foldl", .primitive .add, .number (.ofInt 0), .symbol "l"]⟩,
  .function ⟨"product", ["l"], [.symbol "foldl", .primitive .mul, .number (.ofInt 1), .symbol "l"]⟩,
  .function reverse]

/-- What is defined first: the empty list, a condition that holds, and `fun` itself. -/
def basics : List Value :=
  [define "nil" (.qexpr []), define "otherwise" (.bool true),
    define definer.name (.sexpr [.primitive .lambda, .qexpr (definer.formals.map .symbol),
      .qexpr definer.body])]

/-- The names that the library binds. -/
def names : List String :=
  "nil" :: "otherwise" :: definer.name :: entries.map Entry.name

/-- The library binds the name of each of its functions. -/
theorem name_mem_names {f : Function} (member : .function f ∈ entries) : f.name ∈ names := by
  have inside : f.name ∈ entries.map Entry.name := List.mem_map.mpr ⟨_, member, rfl⟩
  simp [names, inside]

/-- The expressions that a text is read as, or none if it cannot be read. -/
def readings : Except ParseError (List Form) → List Value
  | .ok forms => Form.toValues Primitive.all forms
  | .error _ => []

/-- Texts that are each read as one expression are read as these. -/
theorem flatMap_readings {read : String → Except ParseError (List Form)} {texts : List String}
    {values : List Value}
    (each : List.Forall₂ (fun text v => Value.identicalAll (readings (read text)) [v]) texts values) :
    texts.flatMap (fun text => readings (read text)) = values := by
  induction each with
  | nil => rfl
  | cons same _ ih => rw [List.flatMap_cons, Value.eq_of_identicalAll same, ih, List.singleton_append]

/-- The texts of the library are read as its definitions. -/
theorem expressions_eq : expressions = basics ++ entries.map Entry.expression := by
  have read : expressions = definitions.flatMap fun text => readings (Form.parse (Text.encode text)) :=
    rfl
  simp only [Form.parse_encode] at read
  rw [read]
  refine flatMap_readings ?_
  -- One text is read at a time, as reading all of them at once takes a lot of memory.
  simp only [definitions, basics, entries, List.cons_append, List.nil_append, List.map_cons,
    List.map_nil, List.forall₂_cons, List.forall₂_nil_left_iff]
  and_intros <;> decide +kernel

end Library
end QLisp
