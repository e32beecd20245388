import Mathlib.Data.List.Forall2
import QLisp.Eval.Apply

/-!
Values that are alike.

Two values are alike when they are the same but for the failures inside them, which are related in
some way. A program can see a failure in two ways only: it can print it, and it can compare it with
another one. What is printed for alike values are alike texts. Comparing alike values gives the same
when the relation is one to one.
-/

namespace QLisp

/-- A relation between failures. -/
abbrev FailureRel := Failure → Failure → Prop

/-- A relation between failures that no evaluation can tell from being the same. -/
structure FailureRel.Faithful (rel : FailureRel) : Prop where
  /-- Failures are the same when those related to them are, and only then. -/
  exact {e e' f f' : Failure} : rel e e' → rel f f' → (e = f ↔ e' = f')
  /-- Failures that are not about source text are related to themselves. -/
  evaluation {e : Failure} : e.kind ≠ .malformedSource → rel e e
  /-- So are failures to load a file. -/
  loading (path : Text.Bytes) (complaint : String) :
    rel (.malformedSource (Text.encode "load " ++ path ++ Text.encode (": " ++ complaint)))
      (.malformedSource (Text.encode "load " ++ path ++ Text.encode (": " ++ complaint)))

mutual

/-- Two values are the same but for failures that are related. -/
inductive Value.Alike (rel : FailureRel) : Value → Value → Prop where
  | number (x : Number) : Alike rel (.number x) (.number x)
  | symbol (name : String) : Alike rel (.symbol name) (.symbol name)
  | string (bytes : Text.Bytes) : Alike rel (.string bytes) (.string bytes)
  | bool (b : Bool) : Alike rel (.bool b) (.bool b)
  | builtin (operation : Builtin) : Alike rel (.builtin operation) (.builtin operation)
  | bare (tag : Bare) : Alike rel (.bare tag) (.bare tag)
  | lambda {formals formals' body body' : Value} (formal : Alike rel formals formals')
      (bodied : Alike rel body body') (scope : Option ScopeId) :
      Alike rel (.lambda formals body scope) (.lambda formals' body' scope)
  | list (kind : ListKind) {items items' : List Value} (inside : AlikeAll rel items items') :
      Alike rel (.list kind items) (.list kind items')
  | error {e e' : Failure} (related : rel e e') : Alike rel (.error e) (.error e')

/-- The values of two lists are alike one by one. -/
inductive Value.AlikeAll (rel : FailureRel) : List Value → List Value → Prop where
  | nil : AlikeAll rel [] []
  | cons {v v' : Value} {rest rest' : List Value} (head : Alike rel v v')
      (tail : AlikeAll rel rest rest') : AlikeAll rel (v :: rest) (v' :: rest')

end

/-- Two texts are the same but for messages of failures that are related. -/
inductive Text.Alike (rel : FailureRel) : Bytes → Bytes → Prop where
  /-- No text. -/
  | nil : Alike rel [] []
  /-- The same byte, and then texts that are alike. -/
  | byte (b : UInt8) {bytes bytes' : Bytes} (rest : Alike rel bytes bytes') :
      Alike rel (b :: bytes) (b :: bytes')
  /-- Messages of related failures, and then texts that are alike. -/
  | message {e e' : Failure} {bytes bytes' : Bytes} (related : rel e e')
      (rest : Alike rel bytes bytes') :
      Alike rel (e.message ++ bytes) (e'.message ++ bytes')

variable {rel rel' : FailureRel}

/-! ### Texts -/

namespace Text.Alike

variable {bytes bytes' others others' : Bytes}

/-- The same bytes may come before texts that are alike. -/
theorem prepend (front : Bytes) (rest : Alike rel bytes bytes') :
    Alike rel (front ++ bytes) (front ++ bytes') := by
  induction front with
  | nil => exact rest
  | cons b front ih => exact .byte b ih

/-- Every text is like itself. -/
theorem refl (bytes : Bytes) : Alike rel bytes bytes := by
  have whole : Alike rel (bytes ++ []) (bytes ++ []) := prepend bytes .nil
  rwa [List.append_nil] at whole

/-- Texts that are alike may follow one another. -/
theorem append (first : Alike rel bytes bytes') (second : Alike rel others others') :
    Alike rel (bytes ++ others) (bytes' ++ others') := by
  induction first with
  | nil => exact second
  | byte b rest ih => exact .byte b ih
  | message related rest ih =>
    rw [List.append_assoc, List.append_assoc]
    exact .message related ih

/-- Texts are alike when less is asked of the failures. -/
theorem mono (alike : Alike rel bytes bytes') (weaker : ∀ e e', rel e e' → rel' e e') :
    Alike rel' bytes bytes' := by
  induction alike with
  | nil => exact .nil
  | byte b rest ih => exact .byte b ih
  | message related rest ih => exact .message (weaker _ _ related) ih

/-- Texts that are alike may be written in order, with the same text between any two. -/
theorem intercalate (between : Bytes) {texts texts' : List Bytes}
    (alike : List.Forall₂ (Alike rel) texts texts') :
    Alike rel (between.intercalate texts) (between.intercalate texts') := by
  -- By induction on the texts; the separator stands before every one but the first.
  induction alike with
  | nil => exact .refl _
  | cons head tail ih =>
    cases tail with
    | nil => simpa using head
    | cons second others =>
      simp only [List.intercalate_cons_cons]
      exact (head.append (.refl _)).append ih

/-- Texts that are alike may be written in order. -/
theorem flatten {texts texts' : List Bytes} (alike : List.Forall₂ (Alike rel) texts texts') :
    Alike rel texts.flatten texts'.flatten := by
  induction alike with
  | nil => exact .refl _
  | cons head tail ih =>
    rw [List.flatten_cons, List.flatten_cons]
    exact head.append ih

/-- Texts are the same when the messages in them are of the same failures. -/
theorem eq (alike : Alike Eq bytes bytes') : bytes = bytes' := by
  induction alike with
  | nil => rfl
  | byte b rest ih => rw [ih]
  | message related rest ih => rw [related, ih]

end Text.Alike

/-! ### Values -/

namespace Value

variable {v v' : Value} {values values' : List Value}

/-- Lists are alike when their values are so one by one. -/
theorem alikeAll_iff : AlikeAll rel values values' ↔ List.Forall₂ (Alike rel) values values' := by
  constructor
  · intro alike
    induction values generalizing values' with
    | nil =>
      cases alike
      exact .nil
    | cons v rest ih =>
      cases alike with
      | cons head tail => exact .cons head (ih tail)
  · intro alike
    induction alike with
    | nil => exact .nil
    | cons head tail ih => exact .cons head ih

mutual

/-- Values are alike when less is asked of the failures. -/
theorem Alike.mono {v v' : Value} (alike : Alike rel v v') (weaker : ∀ e e', rel e e' → rel' e e') :
    Alike rel' v v' := by
  cases alike with
  | number x => exact .number x
  | symbol name => exact .symbol name
  | string bytes => exact .string bytes
  | bool b => exact .bool b
  | builtin operation => exact .builtin operation
  | bare tag => exact .bare tag
  | lambda formal bodied scope => exact .lambda (formal.mono weaker) (bodied.mono weaker) scope
  | list kind inside => exact .list kind (inside.mono weaker)
  | error related => exact .error (weaker _ _ related)

/-- Lists of values are alike when less is asked of the failures. -/
theorem AlikeAll.mono {values values' : List Value} (alike : AlikeAll rel values values')
    (weaker : ∀ e e', rel e e' → rel' e e') : AlikeAll rel' values values' := by
  cases alike with
  | nil => exact .nil
  | cons head tail => exact .cons (head.mono weaker) (tail.mono weaker)

end

/-! ### Failures inside values -/

mutual

/-- The failures inside a value. -/
def failures : Value → List Failure
  | .lambda formals body _ => formals.failures ++ body.failures
  | .list _ items => failuresAll items
  | .error e => [e]
  | _ => []

/-- The failures inside values. -/
def failuresAll : List Value → List Failure
  | [] => []
  | v :: rest => v.failures ++ failuresAll rest

end

mutual

/-- A value is like itself when the failures inside it are related to themselves. -/
theorem alike_self (v : Value) (related : ∀ e ∈ v.failures, rel e e) : Alike rel v v := by
  cases v with
  | number x => exact .number x
  | symbol name => exact .symbol name
  | string bytes => exact .string bytes
  | bool b => exact .bool b
  | builtin operation => exact .builtin operation
  | bare tag => exact .bare tag
  | lambda formals body scope =>
    simp only [failures, List.forall_mem_append] at related
    exact .lambda (alike_self formals related.1) (alike_self body related.2) scope
  | list kind items => exact .list kind (alikeAll_self items related)
  | error e => exact .error (related e (by simp [failures]))

/-- Values are like themselves when the failures inside them are related to themselves. -/
theorem alikeAll_self (values : List Value) (related : ∀ e ∈ failuresAll values, rel e e) :
    AlikeAll rel values values := by
  cases values with
  | nil => exact .nil
  | cons v rest =>
    simp only [failuresAll, List.forall_mem_append] at related
    exact .cons (alike_self v related.1) (alikeAll_self rest related.2)

end

mutual

/-- The failures inside a value that is like itself are related to themselves. -/
theorem Alike.failures_self {v : Value} (alike : Alike rel v v) : ∀ e ∈ v.failures, rel e e := by
  cases alike with
  | lambda formal bodied scope =>
    exact List.forall_mem_append.mpr ⟨formal.failures_self, bodied.failures_self⟩
  | list kind inside => exact inside.failures_self
  | error related => simpa [failures] using related
  | _ => simp [failures]

/-- The failures inside values that are like themselves are related to themselves. -/
theorem AlikeAll.failures_self {values : List Value} (alike : AlikeAll rel values values) :
    ∀ e ∈ failuresAll values, rel e e := by
  cases alike with
  | nil => simp [failuresAll]
  | cons head tail =>
    exact List.forall_mem_append.mpr ⟨head.failures_self, tail.failures_self⟩

end

/-- Strings hold no failures. -/
theorem failuresAll_strings (texts : List Text.Bytes) : failuresAll (texts.map .string) = [] := by
  induction texts with
  | nil => rfl
  | cons text rest ih => exact ih

end Value
end QLisp
