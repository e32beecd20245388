import Mathlib.Logic.Relation
import QLisp.Proofs.Functions
import QLisp.Proofs.Value.Alike

/-!
Related values.

Two values are related when they are the same but for the failures inside them and the scopes that
functions captured, which are related in some way. What a captured scope is can be seen only in what
a name means there, so operations on values cannot tell related values apart.
-/

namespace QLisp

/-- A relation between the scopes of two worlds. -/
abbrev ScopeRel := ScopeId → ScopeId → Prop

mutual

/-- Two values are the same but for failures and captured scopes that are related. -/
inductive Value.Related (rel : FailureRel) (link : ScopeRel) : Value → Value → Prop where
  | number (x : Number) : Related rel link (.number x) (.number x)
  | symbol (name : String) : Related rel link (.symbol name) (.symbol name)
  | string (bytes : Text.Bytes) : Related rel link (.string bytes) (.string bytes)
  | bool (b : Bool) : Related rel link (.bool b) (.bool b)
  | builtin (operation : Builtin) : Related rel link (.builtin operation) (.builtin operation)
  | bare (tag : Bare) : Related rel link (.bare tag) (.bare tag)
  | lambda {formals formals' body body' : Value} {scope scope' : ScopeId}
      (formal : Related rel link formals formals') (bodied : Related rel link body body')
      (captured : link scope scope') :
      Related rel link (.lambda formals body (some scope)) (.lambda formals' body' (some scope'))
  | list (kind : ListKind) {items items' : List Value} (inside : RelatedAll rel link items items') :
      Related rel link (.list kind items) (.list kind items')
  | error {e e' : Failure} (related : rel e e') : Related rel link (.error e) (.error e')

/-- The values of two lists are related one by one. -/
inductive Value.RelatedAll (rel : FailureRel) (link : ScopeRel) :
    List Value → List Value → Prop where
  | nil : RelatedAll rel link [] []
  | cons {v v' : Value} {rest rest' : List Value} (head : Related rel link v v')
      (tail : RelatedAll rel link rest rest') : RelatedAll rel link (v :: rest) (v' :: rest')

end

/-- The rule that a function captured a scope, and a known one. -/
def FunctionRule.closes (known : ScopeId → Prop) : FunctionRule :=
  fun _ _ captured => ∃ s, captured = some s ∧ known s

variable {rel rel' : FailureRel} {link link' : ScopeRel}

namespace Value

variable {v v' : Value} {values values' : List Value}

/-- Lists of values are related when their values are so one by one. -/
theorem relatedAll_iff :
    RelatedAll rel link values values' ↔ List.Forall₂ (Related rel link) values values' := by
  constructor
  · intro alike
    induction values generalizing values' with
    | nil =>
      cases alike
      exact .nil
    | cons v rest ih =>
      cases alike with
      | cons head tail => exact .cons head (ih tail)
  -- Conversely the relation of lists is built element by element.
  · intro alike
    induction alike with
    | nil => exact .nil
    | cons head tail ih => exact .cons head ih

namespace Related

/-- Related values are of the same kind. -/
theorem kind (alike : Related rel link v v') : v.kind = v'.kind := by
  cases alike <;> rfl

/-- Only an error is related to an error. -/
theorem isError (alike : Related rel link v v') : v.isError = v'.isError := by
  rw [Value.isError, Value.isError, alike.kind]

/-- Related conditions select the same branch. -/
theorem isTruthy (alike : Related rel link v v') : v.isTruthy = v'.isTruthy := by
  cases alike <;> rfl

/-- Related symbols have the same name. -/
theorem symbolName (alike : Related rel link v v') : v.symbolName = v'.symbolName := by
  cases alike <;> rfl

/-- A list is related to one with related elements. -/
theorem listed (kind : ListKind) (alike : List.Forall₂ (Related rel link) values values') :
    Related rel link (.list kind values) (.list kind values') :=
  .list kind (relatedAll_iff.mpr alike)

/-- The elements of related lists are related. -/
theorem items (alike : Related rel link v v') : List.Forall₂ (Related rel link) v.items v'.items := by
  cases alike with
  | list kind inside => exact relatedAll_iff.mp inside
  | _ => exact .nil

/-- Related lists may get other related elements. -/
theorem withItems (alike : Related rel link v v') (inside : List.Forall₂ (Related rel link) values values') :
    Related rel link (v.withItems values) (v'.withItems values') := by
  -- Only lists have elements; everything else stays what it is.
  cases alike with
  | list kind _ => exact listed kind inside
  | number x => exact .number x
  | symbol name => exact .symbol name
  | string bytes => exact .string bytes
  | bool b => exact .bool b
  | builtin operation => exact .builtin operation
  | bare tag => exact .bare tag
  | lambda formal bodied captured => exact .lambda formal bodied captured
  | error related => exact .error related

/-- Related values are so without their quotes. -/
theorem unquote (alike : Related rel link v v') : Related rel link v.unquote v'.unquote := by
  have whole := alike
  cases alike with
  | list kind inside =>
    cases kind with
    | sexpr => exact whole
    | qexpr => exact .list .sexpr inside
  | _ => exact whole

end Related

mutual

/-- Related values compare the same. -/
theorem Related.same {v v' u u' : Value} (faithful : rel.Faithful) (left : Related rel link v v')
    (right : Related rel link u u') : v.same u = v'.same u' := by
  -- Only failures are compared by what the relation changes; scopes are not compared at all.
  cases left with
  | lambda formal bodied captured =>
    cases right with
    | lambda formal' bodied' captured' =>
      rw [Value.same, Value.same, formal.same faithful formal', bodied.same faithful bodied']
    | _ => rfl
  | list kind inside =>
    cases right with
    | list kind' inside' => rw [Value.same, Value.same, inside.same faithful inside']
    | _ => rfl
  | error related =>
    cases right with
    | error related' =>
      have exact := faithful.exact related related'
      simp only [Value.same, beq_eq_beq, exact]
    | _ => rfl
  | _ => cases right <;> rfl

/-- Lists of related values compare the same. -/
theorem RelatedAll.same {values values' others others' : List Value} (faithful : rel.Faithful)
    (left : RelatedAll rel link values values') (right : RelatedAll rel link others others') :
    sameAll values others = sameAll values' others' := by
  cases left with
  | nil => cases right <;> rfl
  | cons head tail =>
    cases right with
    | nil => rfl
    | cons head' tail' =>
      rw [sameAll, sameAll, head.same faithful head', tail.same faithful tail']

end

mutual

/-- Related values are printed as texts that are alike. -/
theorem Related.spell {v v' : Value} (alike : Related rel link v v') {rest rest' : Text.Bytes}
    (after : Text.Alike rel rest rest') : Text.Alike rel (v.spell rest) (v'.spell rest') := by
  -- A failure is printed as its message, and other values as texts that do not depend on it.
  cases alike with
  | number x => exact after.prepend _
  | symbol name => exact after.prepend _
  | string bytes => exact after.prepend _
  | bool b => exact after.prepend _
  | builtin operation => exact after.prepend _
  | bare tag => exact after.prepend _
  | lambda formal bodied captured =>
    have body := bodied.spell (after.prepend (Text.encode ")"))
    exact (formal.spell (body.prepend _)).prepend _
  | list kind inside => exact (inside.spell (after.prepend _)).prepend _
  | error related =>
    have message := (Text.Alike.message related after).prepend (Text.encode "Error: ")
    rwa [← List.append_assoc, ← List.append_assoc] at message

/-- Lists of related values are printed as texts that are alike. -/
theorem RelatedAll.spell {values values' : List Value} (alike : RelatedAll rel link values values')
    {rest rest' : Text.Bytes} (after : Text.Alike rel rest rest') :
    Text.Alike rel (spellAll values rest) (spellAll values' rest') := by
  cases alike with
  | nil => exact after
  | cons head tail =>
    cases tail with
    | nil => exact head.spell after
    | cons second others => exact head.spell (((RelatedAll.cons second others).spell after).prepend _)

end

namespace Related

/-- Related values are written as texts that are alike. -/
theorem render (alike : Related rel link v v') : Text.Alike rel v.render v'.render :=
  alike.spell .nil

/-- Related values are displayed as texts that are alike. -/
theorem display (alike : Related rel link v v') : Text.Alike rel v.display v'.display := by
  have rendered := alike.render
  cases alike with
  | string bytes => exact .refl _
  | _ => exact rendered

end Related

mutual

/-- Values are related when less is asked of failures and scopes. -/
theorem Related.mono {v v' : Value} (alike : Related rel link v v')
    (weaker : ∀ e e', rel e e' → rel' e e') (wider : ∀ s s', link s s' → link' s s') :
    Related rel' link' v v' := by
  cases alike with
  | number x => exact .number x
  | symbol name => exact .symbol name
  | string bytes => exact .string bytes
  | bool b => exact .bool b
  | builtin operation => exact .builtin operation
  | bare tag => exact .bare tag
  | lambda formal bodied captured =>
    exact .lambda (formal.mono weaker wider) (bodied.mono weaker wider) (wider _ _ captured)
  | list kind inside => exact .list kind (inside.mono weaker wider)
  | error related => exact .error (weaker _ _ related)

/-- Lists of values are related when less is asked of failures and scopes. -/
theorem RelatedAll.mono {values values' : List Value} (alike : RelatedAll rel link values values')
    (weaker : ∀ e e', rel e e' → rel' e e') (wider : ∀ s s', link s s' → link' s s') :
    RelatedAll rel' link' values values' := by
  cases alike with
  | nil => exact .nil
  | cons head tail => exact .cons (head.mono weaker wider) (tail.mono weaker wider)

end

/-- Values are related when scopes are known to be in more cases. -/
theorem Related.widen (alike : Related rel link v v') (wider : ∀ s s', link s s' → link' s s') :
    Related rel link' v v' :=
  alike.mono (fun _ _ => id) wider

mutual

/-- Values are related to what values are related to that they are related to. -/
theorem Related.trans {v v' v'' : Value} (first : Related rel link v v')
    (second : Related rel' link' v' v'') :
    Related (Relation.Comp rel rel') (Relation.Comp link link') v v'' := by
  cases first with
  -- Two functions are related through a third, part by part.
  | lambda formal bodied captured =>
    cases second with
    | lambda formal' bodied' captured' =>
      exact .lambda (formal.trans formal') (bodied.trans bodied') ⟨_, captured, captured'⟩
  | list kind inside =>
    cases second with
    | list _ inside' => exact .list kind (inside.trans inside')
  | error failed =>
    cases second with
    | error failed' => exact .error ⟨_, failed, failed'⟩
  | _ =>
    -- What holds neither failures nor scopes is the same each time.
    cases second
    constructor

/-- Lists of values are related in two steps like values. -/
theorem RelatedAll.trans {values values' values'' : List Value} (first : RelatedAll rel link values values')
    (second : RelatedAll rel' link' values' values'') :
    RelatedAll (Relation.Comp rel rel') (Relation.Comp link link') values values'' := by
  cases first with
  | nil =>
    cases second
    exact .nil
  | cons head tail =>
    cases second with
    | cons head' tail' => exact .cons (head.trans head') (tail.trans tail')

end

/-! ### Values that captured the same scopes -/

mutual

/-- Functions in related values captured scopes that are related to some. -/
theorem Related.closes {v v' : Value} (alike : Related rel link v v') :
    v.Obeys (.closes fun s => ∃ s', link s s') := by
  cases alike with
  | lambda formal bodied captured => exact ⟨⟨_, rfl, _, captured⟩, formal.closes, bodied.closes⟩
  | list kind inside => exact inside.close
  | _ => trivial

/-- Functions in lists of related values captured scopes that are related to some. -/
theorem RelatedAll.close {values values' : List Value} (alike : RelatedAll rel link values values') :
    ObeyAll (.closes fun s => ∃ s', link s s') values := by
  cases alike with
  | nil => trivial
  | cons head tail => exact ⟨head.closes, tail.close⟩

end

mutual

/-- Values that are alike are related when what they captured is related to itself. -/
theorem Alike.related {v v' : Value} (alike : Alike rel v v') (obeys : v.Obeys (.closes fun s => link s s)) :
    Related rel link v v' := by
  cases alike with
  | number x => exact .number x
  | symbol name => exact .symbol name
  | string bytes => exact .string bytes
  | bool b => exact .bool b
  | builtin operation => exact .builtin operation
  | bare tag => exact .bare tag
  | lambda formal bodied scope =>
    -- The scope of a function is related to itself, as it obeys.
    obtain ⟨⟨s, rfl, linked⟩, formalObeys, bodyObeys⟩ := obeys
    exact .lambda (formal.related formalObeys) (bodied.related bodyObeys) linked
  | list kind inside => exact .list kind (inside.related obeys)
  | error related => exact .error related

/-- Lists of values that are alike are related when what they captured is related to itself. -/
theorem AlikeAll.related {values values' : List Value} (alike : AlikeAll rel values values')
    (obey : ObeyAll (.closes fun s => link s s) values) : RelatedAll rel link values values' := by
  cases alike with
  | nil => exact .nil
  | cons head tail => exact .cons (head.related obey.1) (tail.related obey.2)

end

mutual

/-- Related values are alike when only the same scopes are related. -/
theorem Related.alike {v v' : Value} (related : Related rel link v v')
    (same : ∀ s s', link s s' → s = s') : Alike rel v v' := by
  cases related with
  | number x => exact .number x
  | symbol name => exact .symbol name
  | string bytes => exact .string bytes
  | bool b => exact .bool b
  | builtin operation => exact .builtin operation
  | bare tag => exact .bare tag
  | lambda formal bodied captured =>
    obtain rfl := same _ _ captured
    exact .lambda (formal.alike same) (bodied.alike same) _
  | list kind inside => exact .list kind (inside.alike same)
  | error failed => exact .error failed

/-- Lists of related values are alike when only the same scopes are related. -/
theorem RelatedAll.alike {values values' : List Value} (related : RelatedAll rel link values values')
    (same : ∀ s s', link s s' → s = s') : AlikeAll rel values values' := by
  cases related with
  | nil => exact .nil
  | cons head tail => exact .cons (head.alike same) (tail.alike same)

end

mutual

/-- Related values are equal when the scopes that one of them captured are related to themselves alone. -/
theorem Related.eq {own : ScopeId → Prop} {v v' : Value} (related : Related Eq link v v')
    (closed : v'.Obeys (.closes own)) (same : ∀ s s', link s s' → own s' → s = s') : v = v' := by
  -- Only functions capture a scope, and parts of functions and lists are equal by the same
  -- argument.
  cases related with
  | lambda formal bodied captured =>
    obtain ⟨⟨s, itself, there⟩, formals, body⟩ := closed
    cases itself
    rw [formal.eq formals same, bodied.eq body same, same _ _ captured there]
  | list kind inside => rw [inside.eq closed same]
  | error failed => rw [failed]
  | _ => rfl

/-- Lists of related values are equal under the same condition. -/
theorem RelatedAll.eq {own : ScopeId → Prop} {values values' : List Value}
    (related : RelatedAll Eq link values values') (closed : ObeyAll (.closes own) values')
    (same : ∀ s s', link s s' → own s' → s = s') : values = values' := by
  cases related with
  | nil => rfl
  | cons head tail => rw [head.eq closed.1 same, tail.eq closed.2 same]

end

end Value
end QLisp
