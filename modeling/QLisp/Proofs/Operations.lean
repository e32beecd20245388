import QLisp.Proofs.Formals
import QLisp.Proofs.Value.Related

/-!
Operations on related values.

A primitive operation looks at the kinds of its arguments and at how many there are, and at what
numbers, strings and symbols say. So on related arguments it either fails for the same reason,
or has related results.
-/

/-! ### Related options -/

namespace Option.Rel

variable {α β : Type} {r r' : α → β → Prop} {a : Option α} {b : Option β}

/-- Options are related when less is asked of what they hold. -/
theorem imp (related : Option.Rel r a b) (weaker : ∀ a b, r a b → r' a b) : Option.Rel r' a b := by
  cases related with
  | none => exact .none
  | some inside => exact .some (weaker _ _ inside)

/-- Nothing is related to nothing alone. -/
theorem none_left (related : Option.Rel r .none b) : b = .none := by
  cases related
  rfl

/-- What is there is related to something that is there. -/
theorem some_left {a : α} (related : Option.Rel r (.some a) b) :
    ∃ b', b = .some b' ∧ r a b' := by
  cases related with
  | some inside => exact ⟨_, rfl, inside⟩

end Option.Rel

namespace QLisp

variable {α β γ δ : Type}

/-- Two outcomes are the same failure, one that is not about source text, or results that are related. -/
def Agree (good : α → β → Prop) : Except Failure α → Except Failure β → Prop
  | .ok a, .ok b => good a b
  | .error e, .error e' => e = e' ∧ e.kind ≠ .malformedSource
  | _, _ => False

namespace Agree

variable {good : α → β → Prop} {fine : γ → δ → Prop} {r : Except Failure α} {r' : Except Failure β}

/-- Outcomes that agree are related results, or one failure that is not about source text. -/
theorem outcomes (agree : Agree good r r') : (∃ a b, r = .ok a ∧ r' = .ok b ∧ good a b) ∨
    ∃ e, r = .error e ∧ r' = .error e ∧ e.kind ≠ .malformedSource := by
  cases r <;> cases r'
  case ok.ok a b => exact .inl ⟨a, b, rfl, rfl, agree⟩
  case error.error e e' =>
    obtain ⟨rfl, own⟩ := agree
    exact .inr ⟨e, rfl, rfl, own⟩
  all_goals exact agree.elim

/-- What goes on after outcomes that agree agrees when it does for related results. -/
theorem bind (first : Agree good r r') {next : α → Except Failure γ} {next' : β → Except Failure δ}
    (second : ∀ a b, good a b → Agree fine (next a) (next' b)) :
    Agree fine (r >>= next) (r' >>= next') := by
  rcases first.outcomes with ⟨a, b, rfl, rfl, related⟩ | ⟨e, rfl, rfl, own⟩
  · exact second a b related
  · exact ⟨rfl, own⟩

/-- Results may be changed on both sides. -/
theorem map (first : Agree good r r') {f : α → γ} {f' : β → δ}
    (second : ∀ a b, good a b → fine (f a) (f' b)) : Agree fine (r.map f) (r'.map f') := by
  rcases first.outcomes with ⟨a, b, rfl, rfl, related⟩ | ⟨e, rfl, rfl, own⟩
  · exact second a b related
  · exact ⟨rfl, own⟩

/-- What is done in order agrees when it does for each of the related elements. -/
theorem mapM {rel : γ → δ → Prop} {items : List γ} {items' : List δ}
    (related : List.Forall₂ rel items items') {f : γ → Except Failure α} {f' : δ → Except Failure β}
    (each : ∀ a b, rel a b → Agree good (f a) (f' b)) :
    Agree (List.Forall₂ good) (items.mapM f) (items'.mapM f') := by
  induction related with
  | nil => exact List.Forall₂.nil
  | cons head tail ih =>
    rw [List.mapM_cons, List.mapM_cons]
    exact (each _ _ head).bind fun a b first => ih.bind fun others others' rest => .cons first rest

/-- Results that have to be the same are so in order. -/
theorem mapM_same {rel : γ → δ → Prop} {items : List γ} {items' : List δ}
    (related : List.Forall₂ rel items items') {f : γ → Except Failure α} {f' : δ → Except Failure α}
    (each : ∀ a b, rel a b → Agree (· = ·) (f a) (f' b)) :
    Agree (· = ·) (items.mapM f) (items'.mapM f') := by
  have agree := mapM related each
  rwa [List.forall₂_eq_eq_eq] at agree

end Agree

/-! ### Checks of arguments -/

/-- Requiring an argument gives the same. -/
theorem agree_expectSome (caller : String) (got : Nat) :
    Agree (fun _ _ => True) (expectSome caller got) (expectSome caller got) := by
  unfold expectSome
  split
  · exact ⟨rfl, nofun⟩
  · trivial

namespace Primitive

open Value (Related)

variable {rel : FailureRel} {link : ScopeRel} {p : Primitive} {v v' u u' : Value} {values values' : List Value}

/-- The symbols of related lists have the same names. -/
theorem agree_symbolNames (p : Primitive) (alike : Related rel link v v') :
    Agree (· = ·) (p.symbolNames v) (p.symbolNames v') := by
  -- Values of one kind are refused or taken together, and only quoted lists are taken.
  have all := alike.items
  cases alike with
  | list kind inside =>
    cases kind with
    | sexpr => exact ⟨rfl, nofun⟩
    | qexpr =>
      -- The names are read one after another, and a related element has the same name.
      refine Agree.mapM_same all fun t t' alike => ?_
      cases alike with
      | symbol name => exact (rfl : name = name)
      | _ => exact ⟨rfl, nofun⟩
  | _ => exact ⟨rfl, nofun⟩

/-- The elements of related quoted lists are related. -/
theorem agree_quotedItems (p : Primitive) (alike : Related rel link v v') :
    Agree (List.Forall₂ (Related rel link)) (p.quotedItems v) (p.quotedItems v') := by
  have all := alike.items
  cases alike with
  | list kind inside =>
    cases kind with
    | sexpr => exact ⟨rfl, nofun⟩
    | qexpr => exact all
  | _ => exact ⟨rfl, nofun⟩

/-- Related quoted lists are both empty, or neither is. -/
theorem agree_nonEmptyItems (p : Primitive) (alike : Related rel link v v') :
    Agree (List.Forall₂ (Related rel link)) (p.nonEmptyItems v) (p.nonEmptyItems v') := by
  -- Related lists are as long, so both are refused when they have no elements.
  have all := alike.items
  cases alike with
  | list kind inside =>
    cases kind with
    | sexpr => exact ⟨rfl, nofun⟩
    | qexpr =>
      cases inside with
      | nil => exact ⟨rfl, nofun⟩
      | cons head tail => exact all
  | _ => exact ⟨rfl, nofun⟩

/-- Related conditions have the same truth. -/
theorem agree_condition (p : Primitive) (alike : Related rel link v v') :
    Agree (· = ·) (p.condition v) (p.condition v') := by
  unfold condition expectCondition
  rw [alike.kind, alike.isTruthy]
  split
  · exact (rfl : v'.isTruthy = v'.isTruthy)
  · exact ⟨rfl, nofun⟩

/-- Related operands are the same number. -/
theorem agree_operand (p : Primitive) (alike : Related rel link v v') :
    Agree (· = ·) (p.operand v) (p.operand v') := by
  cases alike with
  | number x => exact (rfl : x = x)
  | _ => exact ⟨rfl, nofun⟩

/-- Related values are in the same order. -/
theorem agree_comparison (p : Primitive) (left : Related rel link v v') (right : Related rel link u u') :
    Agree (· = ·) (p.comparison v u) (p.comparison v' u') := by
  -- Lists are compared by their lengths, which are the same for related ones.
  have size := left.items.length_eq
  have size' := right.items.length_eq
  cases left with
  -- Numbers are related only where they are equal, so their order is the same.
  | number x =>
    cases right with
    | number y => exact (rfl : x.order y = x.order y)
    | _ => exact ⟨rfl, nofun⟩
  | string text =>
    cases right with
    | string text' => exact (rfl : compare text text' = compare text text')
    | _ => exact ⟨rfl, nofun⟩
  | list kind inside =>
    cases right with
    | list kind' inside' =>
      cases kind <;> cases kind'
      case qexpr.qexpr =>
        -- Only quoted lists are compared; any other list is no operand.
        simp only [Value.items] at size size'
        simp only [comparison, size, size', Agree]
      all_goals exact ⟨rfl, nofun⟩
    | _ => cases kind <;> exact ⟨rfl, nofun⟩
  | _ => cases right <;> exact ⟨rfl, nofun⟩

/-! ### Arguments taken apart -/

/-- An operation on one argument agrees when it does on related arguments. -/
theorem agree_onOne {good : Value → Value → Prop} (p : Primitive) {f f' : Value → Except Failure Value}
    (each : ∀ v v', Related rel link v v' → Agree good (f v) (f' v'))
    (arguments : List.Forall₂ (Related rel link) values values') :
    Agree good (p.onOne f values) (p.onOne f' values') := by
  -- With a wrong number of arguments the failure gives that number, which is the same.
  have count := arguments.length_eq
  cases arguments with
  | nil => exact ⟨rfl, nofun⟩
  | cons head tail =>
    cases tail with
    | nil => exact each _ _ head
    | cons second others =>
      simp only [List.length_cons] at count
      simp only [onOne, List.length_cons, count]
      exact ⟨rfl, nofun⟩

/-- The only arguments are related. -/
theorem agree_only (p : Primitive) (arguments : List.Forall₂ (Related rel link) values values') :
    Agree (Related rel link) (p.onOne .ok values) (p.onOne .ok values') := by
  apply agree_onOne p _ arguments
  exact fun v v' alike => alike

/-- An operation on two arguments agrees when it does on related arguments. -/
theorem agree_onTwo {good : Value → Value → Prop} (p : Primitive)
    {f f' : Value → Value → Except Failure Value}
    (each : ∀ v v' u u', Related rel link v v' → Related rel link u u' → Agree good (f v u) (f' v' u'))
    (arguments : List.Forall₂ (Related rel link) values values') :
    Agree good (p.onTwo f values) (p.onTwo f' values') := by
  -- The same for operations on two arguments: only the number of them is told.
  have count := arguments.length_eq
  cases arguments with
  | nil => exact ⟨rfl, nofun⟩
  | cons head tail =>
    cases tail with
    | nil => exact ⟨rfl, nofun⟩
    | cons second others =>
      cases others with
      -- With exactly two arguments the operation is done, as it was assumed of it.
      | nil => exact each _ _ _ _ head second
      | cons third others =>
        -- The message tells how many there are, which is the same number.
        simp only [List.length_cons] at count
        simp only [onTwo, List.length_cons, count]
        exact ⟨rfl, nofun⟩

/-- The same names are bound, to related values. -/
def BindingRelated (rel : FailureRel) (link : ScopeRel) (b b' : String × Value) : Prop :=
  b.1 = b'.1 ∧ Related rel link b.2 b'.2

/-- Names put together with related values are bound so. -/
theorem bindingRelated_zip (names : List String) (alike : List.Forall₂ (Related rel link) values values') :
    List.Forall₂ (BindingRelated rel link) (names.zip values) (names.zip values') := by
  induction alike generalizing names with
  | nil => simp
  | cons head tail ih =>
    cases names with
    | nil => exact .nil
    | cons name names => exact .cons ⟨rfl, head⟩ (ih names)

/-- Related arguments bind the same names to related values. -/
theorem agree_bindings (p : Primitive) (arguments : List.Forall₂ (Related rel link) values values') :
    Agree (List.Forall₂ (BindingRelated rel link)) (p.bindings values) (p.bindings values') := by
  cases arguments with
  | nil => exact ⟨rfl, nofun⟩
  | cons head tail =>
    -- The names have to be as many as the values on both sides or on neither.
    refine (agree_symbolNames p head).bind fun names names' same => ?_
    subst same
    rw [tail.length_eq]
    split
    · exact bindingRelated_zip names tail
    · exact ⟨rfl, nofun⟩

/-- Related arguments make functions of related parts. -/
theorem agree_functionParts (p : Primitive) (arguments : List.Forall₂ (Related rel link) values values') :
    Agree (fun parts parts' => Related rel link parts.1 parts'.1 ∧ Related rel link parts.2 parts'.2)
      (p.functionParts values) (p.functionParts values') := by
  have count := arguments.length_eq
  cases arguments with
  | nil => exact ⟨rfl, nofun⟩
  | cons formals tail =>
    cases tail with
    | nil => exact ⟨rfl, nofun⟩
    | cons body others =>
      cases others with
      | nil =>
        -- The formals are read before the body, so a bad formal is blamed first.
        refine (agree_symbolNames p formals).bind fun _ _ _ => ?_
        exact (agree_quotedItems p body).bind fun _ _ _ => ⟨formals, body⟩
      -- A third argument is one too many, whatever it is.
      | cons third others =>
        simp only [List.length_cons] at count
        simp only [functionParts, List.length_cons, count]
        exact ⟨rfl, nofun⟩

/-- Related arguments select related branches. -/
theorem agree_branch (p : Primitive) (arguments : List.Forall₂ (Related rel link) values values') :
    Agree (List.Forall₂ (Related rel link)) (p.branch values) (p.branch values') := by
  have count := arguments.length_eq
  rcases arguments with _ | ⟨test, _ | ⟨first, _ | ⟨second, _ | ⟨fourth, others⟩⟩⟩⟩
  case cons.cons.cons.nil =>
    -- The conditions have the same truth, so the same branch is taken.
    refine (agree_condition p test).bind fun chosen chosen' same => ?_
    subst same
    -- Both branches are read before one is taken, so a bad one is blamed in either case.
    refine (agree_quotedItems p first).bind fun _ _ one => ?_
    refine (agree_quotedItems p second).bind fun _ _ other => ?_
    cases chosen with
    | true => exact one
    | false => exact other
  case cons.cons.cons.cons =>
    -- A fourth argument is one too many, as the message says with the same number.
    simp only [List.length_cons] at count
    simp only [branch, List.length_cons, count]
    exact ⟨rfl, nofun⟩
  all_goals exact ⟨rfl, nofun⟩

/-- Related clauses have related conditions and results. -/
theorem agree_clause (p : Primitive) (alike : Related rel link v v') :
    Agree (fun parts parts' => Related rel link parts.1 parts'.1 ∧ Related rel link parts.2 parts'.2)
      (p.clause v) (p.clause v') := by
  have all := alike.items
  have count := all.length_eq
  cases alike with
  -- An evaluated list is no clause.
  | list kind inside =>
    cases kind with
    | sexpr => exact ⟨rfl, nofun⟩
    | qexpr =>
      -- A clause is a list of two elements, a condition and a result.
      simp only [Value.items] at all count
      rcases all with _ | ⟨condition, _ | ⟨result, _ | ⟨third, others⟩⟩⟩
      case cons.cons.nil => exact ⟨condition, result⟩
      case cons.cons.cons =>
        -- Any other length is refused, and the message tells it.
        simp only [List.length_cons] at count
        simp only [clause, List.length_cons, count]
        exact ⟨rfl, nofun⟩
      all_goals exact ⟨rfl, nofun⟩
  | _ => exact ⟨rfl, nofun⟩

/-- Related arguments name the same path. -/
theorem agree_path (p : Primitive) (arguments : List.Forall₂ (Related rel link) values values') :
    Agree (· = ·) (p.path values) (p.path values') := by
  have count := arguments.length_eq
  -- Exactly one argument is expected.
  rcases arguments with _ | ⟨head, _ | ⟨second, others⟩⟩
  case nil => exact ⟨rfl, nofun⟩
  -- A path is a text, which is related to itself only.
  case cons.nil =>
    cases head with
    | string text => exact (rfl : text = text)
    | _ => exact ⟨rfl, nofun⟩
  case cons.cons =>
    -- What is refused is the number of arguments, not what they are.
    simp only [List.length_cons] at count
    simp only [path, List.length_cons, count]
    exact ⟨rfl, nofun⟩

/-! ### Results -/

/-- Combining numbers fails, if at all, for a reason that is not about source text. -/
theorem agree_foldlM_combine (p : Primitive) (numbers : List Number) (x : Number) :
    Agree (· = ·) (numbers.foldlM p.combine x) (numbers.foldlM p.combine x) := by
  -- Division and remainder may be refused, and the others never are.
  have once : ∀ x y, Agree (· = ·) (p.combine x y) (p.combine x y) := by
    intro x y
    unfold combine
    split
    case h_4 | h_5 =>
      split
      · exact ⟨rfl, nofun⟩
      · exact rfl
    all_goals exact rfl
  -- By induction on the numbers; a failure ends the combination at once.
  induction numbers generalizing x with
  | nil => exact rfl
  | cons y rest ih =>
    rw [List.foldlM_cons]
    -- The first result is the same on both sides, and so the rest begins alike.
    refine (once x y).bind fun a b same => ?_
    subst same
    exact ih a

/-- Arithmetic on related arguments gives the same number. -/
theorem agree_arithmetic (p : Primitive) (arguments : List.Forall₂ (Related rel link) values values') :
    Agree (Related rel link) (p.arithmetic values) (p.arithmetic values') := by
  rw [arithmetic, arithmetic, arguments.length_eq]
  refine (agree_expectSome _ _).bind fun _ _ _ => ?_
  refine (Agree.mapM_same arguments fun _ _ => agree_operand p).bind fun numbers _ same => ?_
  subst same
  -- The operands are the same numbers, so what is done with them is.
  split
  · exact .number _
  · refine (agree_foldlM_combine p _ _).bind fun x y same => ?_
    subst same
    exact .number x
  · exact .number _

/-- Related conditions are joined to the same truth. -/
theorem agree_connective (p : Primitive) (join : List Bool → Bool)
    (arguments : List.Forall₂ (Related rel link) values values') :
    Agree (Related rel link) (p.connective join values) (p.connective join values') := by
  rw [connective, connective, arguments.length_eq]
  refine (agree_expectSome _ _).bind fun _ _ _ => ?_
  refine (Agree.mapM_same arguments fun _ _ => agree_condition p).bind fun truths _ same => ?_
  subst same
  exact .bool _

/-- An operation that makes no list agrees on related arguments. -/
theorem agree_scalar (faithful : rel.Faithful) {f : List Value → Except Failure Value}
    (found : p.scalar? = some f) (arguments : List.Forall₂ (Related rel link) values values') :
    Agree (Related rel link) (f values) (f values') := by
  -- All comparisons are made in the same way, and only tell of the outcome.
  have ordered : ∀ q : Primitive, Agree (Related rel link)
      (q.onTwo (fun a b => (q.comparison a b).map fun o => .bool (q.holds o)) values)
      (q.onTwo (fun a b => (q.comparison a b).map fun o => .bool (q.holds o)) values') := fun q =>
    agree_onTwo q (fun v v' u u' left right => (agree_comparison q left right).map
      fun a b same => same ▸ .bool _) arguments
  -- Each operation is reduced to the way in which it takes its arguments.
  cases p <;> simp only [scalar?, Option.some.injEq, reduceCtorEq] at found <;> subst found
  case equal =>
    -- Related values are the same as others in the same cases, which needs the relation to be faithful.
    refine agree_onTwo _ (fun v v' u u' left right => ?_) arguments
    rw [left.same faithful right]
    exact .bool _
  case unequal =>
    refine agree_onTwo _ (fun v v' u u' left right => ?_) arguments
    rw [left.same faithful right]
    exact .bool _
  -- A negation depends on the truth of its argument alone.
  case not =>
    exact agree_onOne _ (fun v v' alike => (agree_condition _ alike).map
      fun a b same => same ▸ .bool _) arguments
  case and | or => exact agree_connective _ _ arguments
  case error =>
    refine agree_onOne _ (fun v v' alike => ?_) arguments
    -- An error is raised with a text, and the one that is raised tells no name.
    cases alike with
    | string text => exact .error (faithful.evaluation nofun)
    | _ => exact ⟨rfl, nofun⟩
  case greater | less | greaterEq | lessEq => exact ordered _
  all_goals exact agree_arithmetic _ arguments

/-- An operation on lists agrees on related arguments. -/
theorem agree_listing {f : List Value → Except Failure Value} (found : p.listing? = some f)
    (arguments : List.Forall₂ (Related rel link) values values') :
    Agree (Related rel link) (f values) (f values') := by
  -- Each operation is reduced to what it does with the elements.
  cases p <;> simp only [listing?, Option.some.injEq, reduceCtorEq] at found <;> subst found
  case list => exact .listed .qexpr arguments
  -- The head is a list of the first element, not the element itself.
  case head =>
    exact agree_onOne _ (fun v v' alike => (agree_nonEmptyItems _ alike).map
      fun a b inside => .listed .qexpr (List.forall₂_take 1 inside)) arguments
  case tail =>
    exact agree_onOne _ (fun v v' alike => (agree_nonEmptyItems _ alike).map
      fun a b inside => .listed .qexpr (List.forall₂_drop 1 inside)) arguments
  case join =>
    -- Nothing is joined unless all arguments are quoted lists that are not empty.
    rw [concatenate, concatenate, arguments.length_eq]
    refine (agree_expectSome _ _).bind fun _ _ _ => ?_
    refine (Agree.mapM arguments fun _ _ => agree_nonEmptyItems _).bind fun _ _ lists => ?_
    exact .listed .qexpr (List.rel_flatten lists)
  -- The list keeps all its elements, and the first argument is put before them.
  case cons =>
    refine agree_onTwo _ (fun v v' u u' first list => ?_) arguments
    -- The second argument has to be a quoted list; the first is anything.
    have all := list.items
    cases list with
    | list kind inside =>
      cases kind with
      | sexpr => exact ⟨rfl, nofun⟩
      | qexpr => exact .listed .qexpr (.cons first all)
    | _ => exact ⟨rfl, nofun⟩

/-- An operation that depends on its arguments alone agrees on related arguments. -/
theorem agree_plain (faithful : rel.Faithful) {f : List Value → Except Failure Value}
    (found : p.scalar?.or p.listing? = some f)
    (arguments : List.Forall₂ (Related rel link) values values') :
    Agree (Related rel link) (f values) (f values') := by
  rcases Option.or_eq_some_iff.mp found with scalar | ⟨_, listing⟩
  · exact agree_scalar faithful scalar arguments
  · exact agree_listing listing arguments

end Primitive

/-- Outcomes that agree are related values, a failure being a value too. -/
theorem Agree.related {rel : FailureRel} {link : ScopeRel} (faithful : rel.Faithful)
    {r r' : Except Failure Value} (agree : Agree (Value.Related rel link) r r') :
    Value.Related rel link (Value.ofExcept r) (Value.ofExcept r') := by
  rcases agree.outcomes with ⟨v, v', rfl, rfl, related⟩ | ⟨e, rfl, rfl, own⟩
  · exact related
  · exact .error (faithful.evaluation own)

/-! ### Formals -/

/-- The same formals have arguments, which are related, and the same formals wait. -/
inductive MatchedRelated (rel : FailureRel) (link : ScopeRel) : Matched Value → Matched Value → Prop where
  | full {bound bound' : List (String × Value)} {rest rest' : Option (String × List Value)}
      (arguments : List.Forall₂ (Primitive.BindingRelated rel link) bound bound')
      (others : Option.Rel (fun r r' => r.1 = r'.1 ∧ List.Forall₂ (Value.Related rel link) r.2 r'.2)
        rest rest') : MatchedRelated rel link (.full bound rest) (.full bound' rest')
  | short {bound bound' : List (String × Value)} {waiting waiting' : List Value}
      (arguments : List.Forall₂ (Primitive.BindingRelated rel link) bound bound')
      (formals : List.Forall₂ (Value.Related rel link) waiting waiting') :
      MatchedRelated rel link (.short bound waiting) (.short bound' waiting')
  | excess {bound bound' : List (String × Value)}
      (arguments : List.Forall₂ (Primitive.BindingRelated rel link) bound bound') :
      MatchedRelated rel link (.excess bound) (.excess bound')
  | malformed {bound bound' : List (String × Value)}
      (arguments : List.Forall₂ (Primitive.BindingRelated rel link) bound bound') :
      MatchedRelated rel link (.malformed bound) (.malformed bound')

namespace MatchedRelated

variable {rel : FailureRel} {link : ScopeRel} {matched matched' : Matched Value}

/-- The same formals are bound, to related arguments. -/
theorem bound (alike : MatchedRelated rel link matched matched') :
    List.Forall₂ (Primitive.BindingRelated rel link) matched.bound matched'.bound := by
  cases alike <;> assumption

/-- One more argument may be bound in front. -/
theorem cons (alike : MatchedRelated rel link matched matched') {b b' : String × Value}
    (binding : Primitive.BindingRelated rel link b b') :
    MatchedRelated rel link (matched.cons b) (matched'.cons b') := by
  cases alike with
  | full arguments others => exact .full (.cons binding arguments) others
  | short arguments formals => exact .short (.cons binding arguments) formals
  | excess arguments => exact .excess (.cons binding arguments)
  | malformed arguments => exact .malformed (.cons binding arguments)

end MatchedRelated

/-- Related formals are matched with related arguments in the same way. -/
theorem matchFormals_related {rel : FailureRel} {link : ScopeRel}
    {formals formals' arguments arguments' : List Value}
    (named : List.Forall₂ (Value.Related rel link) formals formals')
    (given : List.Forall₂ (Value.Related rel link) arguments arguments') :
    MatchedRelated rel link (matchFormals formals arguments) (matchFormals formals' arguments') := by
  -- By induction on the formals; each takes at most one argument.
  induction named generalizing arguments arguments' with
  | nil =>
    cases given with
    -- Neither side has an argument left, or both have one too many.
    | nil => exact .full .nil .none
    | cons head tail => exact .excess .nil
  | @cons formal formal' rest rest' head tail ih =>
    simp only [matchFormals, head.symbolName]
    -- The marker is at the same place on both sides, for the names are the same.
    by_cases marker : formal'.symbolName = variadicMarker
    · rw [if_pos marker, if_pos marker]
      -- After the marker one name has to follow, and it takes all the arguments.
      rcases tail with _ | ⟨name, _ | ⟨second, others⟩⟩
      · exact .malformed .nil
      · exact .full .nil (.some ⟨name.symbolName, given⟩)
      · exact .malformed .nil
    · rw [if_neg marker, if_neg marker]
      cases given with
      -- The formals that have no argument wait for one.
      | nil => exact .short .nil (.cons head tail)
      | cons argument others => exact (ih others).cons ⟨rfl, argument⟩

end QLisp
