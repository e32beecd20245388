import QLisp.Eval.Reduce

/-! The library: the functions written in the language itself that every program starts with. -/

namespace QLisp.Library

/--
The definitions of the library, in the order in which they are evaluated.

Functions made by `fun` close over the scope of its call, so its own formals have names that a
program is unlikely to use.
-/
def definitions : List String := [
  "(def {nil} {})",
  "(def {otherwise} true)",
  "(def \x7bfun\x7d (\\ \x7b__sig __body\x7d \x7bdef (head __sig) (\\ (tail __sig) __body)\x7d))",
  "(fun {unpack f l} {eval (cons f l)})",
  "(fun {pack f & xs} {f xs})",
  "(def {curry} unpack)",
  "(def {uncurry} pack)",
  "(fun {flip f a b} {f b a})",
  "(fun {comp f g x} {f (g x)})",
  "(fun {fst l} {eval (head l)})",
  "(fun {snd l} {eval (head (tail l))})",
  "(fun {trd l} {eval (head (tail (tail l)))})",
  "(fun {append a b} {if (== a nil) {b} {if (== b nil) {a} {join a b}}})",
  "(fun {len l} {if (== l nil) {0} {+ 1 (len (tail l))}})",
  "(fun {nth n l} {if (== n 0) {fst l} {nth (- n 1) (tail l)}})",
  "(fun {last l} {nth (- (len l) 1) l})",
  "(fun {take n l} {if (or (<= n 0) (== l nil)) {nil} {append (head l) (take (- n 1) (tail l))}})",
  "(fun {drop n l} {if (or (<= n 0) (== l nil)) {l} {drop (- n 1) (tail l)}})",
  "(fun {split n l} {list (take n l) (drop n l)})",
  "(fun {elem x l}
    {if (== l nil) {false} {if (== (list x) (head l)) {true} {elem x (tail l)}}})",
  "(fun {map f l} {if (== l nil) {nil} {cons (f (fst l)) (map f (tail l))}})",
  "(fun {filter f l}
    {if (== l nil) {nil} {append (if (f (fst l)) {head l} {nil}) (filter f (tail l))}})",
  "(fun {foldl f z l} {if (== l nil) {z} {foldl f (f z (fst l)) (tail l)}})",
  "(fun {sum l} {foldl + 0 l})",
  "(fun {product l} {foldl * 1 l})",
  "(fun {reverse l} {if (== l nil) {nil} {append (reverse (tail l)) (head l)}})"]

/-- The definitions as expressions. -/
def expressions : List Value :=
  definitions.flatMap fun text =>
    match Form.parse (Text.encode text) with
    | .ok forms => Form.toValues Primitive.all forms
    | .error _ => []

end QLisp.Library

namespace QLisp.World

/-- A world in which the primitive operations are bound to their names. -/
def withPrimitives (files : Files) : World Value :=
  let w := initial files
  let bindings := Primitive.all.map fun p => (p.name, Value.primitive p)
  { w with scopes := w.scopes.bindAll Scopes.global bindings }

/-- The world that a program starts in, with the primitive operations and the library bound. -/
def standard (files : Files) : World Value :=
  Run.after (Run.each Run.evaluate Scopes.global Library.expressions) (withPrimitives files)

end QLisp.World
