import QLisp.Proofs.Rooted

/-!
What evaluation writes.

Names are bound in the scope of the evaluation, in the global one, and in scopes made since. So a call,
whose scope is new, writes in no scope that there was but the global one.
-/

namespace QLisp

/-- Names may have been written in some scopes and in scopes made since, and in no other. -/
def Scopes.Spares (may : ScopeId → Prop) (before after : Scopes Value) : Prop :=
  ∃ writes, Written writes before after ∧
    ∀ write ∈ writes, may write.1 ∨ ¬ before.Made write.1

namespace Scopes.Spares

variable {may : ScopeId → Prop} {scopes others further : Scopes Value} {s : ScopeId}

/-- Nothing is written in no step. -/
theorem refl (may : ScopeId → Prop) (scopes : Scopes Value) : scopes.Spares may scopes :=
  ⟨[], .nil scopes, by simp⟩

/-- No scope is lost. -/
theorem within (spares : Spares may scopes others) : scopes.Within others := by
  obtain ⟨writes, written, _⟩ := spares
  have kept : ∀ id, scopes.Made id → others.Made id := fun _ => written.made
  refine Nat.le_of_not_lt fun fewer => ?_
  exact Nat.lt_irrefl _ (kept ⟨others.made.size⟩ fewer)

/-- What is written in two stretches is written in one, also in scopes that the first has made. -/
theorem trans (first : Spares may scopes others)
    (second : Spares (fun s => may s ∨ ¬ scopes.Made s) others further) : Spares may scopes further := by
  have more := first.within
  obtain ⟨writes, written, allowed⟩ := first
  obtain ⟨writes', written', allowed'⟩ := second
  refine ⟨writes' ++ writes, written.trans written', fun write member => ?_⟩
  -- What the second stretch writes may be new to the first one, and then it is new altogether.
  rcases List.mem_append.mp member with later | early
  · rcases allowed' write later with inside | new
    · exact inside
    · exact .inr fun made => new (Nat.lt_of_lt_of_le made more)
  · exact allowed write early

/-- More may be written than is. -/
theorem mono {may' : ScopeId → Prop} (spares : Spares may' scopes others)
    (more : ∀ s, scopes.Made s → may' s → may s) : Spares may scopes others := by
  obtain ⟨writes, written, allowed⟩ := spares
  refine ⟨writes, written, fun write member => ?_⟩
  by_cases made : scopes.Made write.1
  · exact .inl (more _ made ((allowed write member).resolve_right fun new => new made))
  · exact .inr made

/-- A scope is made without writing. -/
theorem extend (may : ScopeId → Prop) (scopes : Scopes Value) (parent : Option ScopeId) :
    scopes.Spares may (scopes.extend parent) :=
  ⟨[], (Written.nil scopes).extend parent, by simp⟩

/-- Names are bound in a scope where that is allowed. -/
theorem bindAll (spares : Spares may scopes others) (allowed : may s ∨ ¬ scopes.Made s)
    (bindings : List (String × Value)) : Spares may scopes (others.bindAll s bindings) := by
  -- By induction on the bindings, each of which is one more write to the scope.
  induction bindings generalizing others with
  | nil => exact spares
  | cons b rest ih =>
    obtain ⟨writes, written, inside⟩ := spares
    refine ih ⟨(s, b.1) :: writes, written.bind s b.1 b.2, fun write member => ?_⟩
    rcases List.mem_cons.mp member with rfl | early
    · exact allowed
    · exact inside write early

/-- The scopes that there were have their parents. -/
theorem parent? (spares : Spares may scopes others) (made : scopes.Made s) :
    others.parent? s = scopes.parent? s := by
  obtain ⟨writes, written, _⟩ := spares
  exact written.parent? made

/-- Where nothing may be written, names are bound as they were. -/
theorem local? (spares : Spares may scopes others) (made : scopes.Made s) (spared : ¬ may s)
    (name : String) : others.local? s name = scopes.local? s name := by
  obtain ⟨writes, written, allowed⟩ := spares
  refine written.local? fun member => ?_
  rcases allowed _ member with allowed | new
  · exact spared allowed
  · exact new made

end Scopes.Spares

/-- What holds functions with scopes among some scopes holds such with scopes among more. -/
theorem Value.Obeys.within {scopes others : Scopes Value} {v : Value}
    (obeys : v.Obeys (.closes scopes.Made)) (within : scopes.Within others) :
    v.Obeys (.closes others.Made) := by
  refine obeys.mono ?_
  rintro _ _ _ ⟨s, rfl, made⟩
  exact ⟨s, rfl, Nat.lt_of_lt_of_le made within⟩

/-- The elements of a value hold no other functions than it does. -/
theorem Value.Obeys.items {rule : FunctionRule} {v : Value} (obeys : v.Obeys rule) :
    ∀ t ∈ v.items, t.Obeys rule := by
  cases v with
  | list kind items => exact Value.obeyAll_iff.mp obeys
  | _ => simp [Value.items]

/-- What is made of values holds no other functions than they do. -/
theorem Value.MadeOf.obeys {rule : FunctionRule} {arguments : List Value} {v : Value}
    (made : MadeOf arguments v) (obey : ∀ t ∈ arguments, t.Obeys rule) : v.Obeys rule := by
  cases made with
  | list parts =>
    refine Value.obeyAll_iff.mpr fun t member => ?_
    rcases parts t member with here | ⟨a, here, inside⟩
    · exact obey t here
    · exact (obey a here).items t inside
  | _ => trivial

namespace World.Rooted

variable {w : World Value} {s : ScopeId}

/-- A scope corresponds to itself. -/
theorem linked (_ : w.Rooted) (made : w.scopes.Made s) :
    (Comparison.upTo Eq .eq w).link w.scopes s s :=
  ⟨rfl, made⟩

/-- Every chain ends in the global scope. -/
theorem root (rooted : w.Rooted) (made : w.scopes.Made s) : w.scopes.root s = Scopes.global :=
  (rooted.refl.root (rooted.linked made)).1

/-- A new scope below another one leaves a world rooted. -/
theorem extend (rooted : w.Rooted) (made : w.scopes.Made s) :
    World.Rooted { w with scopes := w.scopes.extend (some s) } :=
  (rooted.refl.extend (rooted.linked made)).rooted

/-- Names that are bound in any scope leave a world rooted. -/
theorem bound (rooted : w.Rooted) (made : w.scopes.Made s) {bindings : List (String × Value)}
    (closed : ∀ b ∈ bindings, b.2.Obeys (.closes w.scopes.Made)) :
    World.Rooted { w with scopes := w.scopes.bindAll s bindings } := by
  refine (rooted.refl.bindAll (rooted.linked made) (List.forall₂_same.mpr fun b member => ⟨rfl, ?_⟩)).rooted
  exact values (fun _ _ => rfl) (Nat.le_refl _) (closed b member) fun _ _ => rfl

end World.Rooted

namespace Run

variable {α β : Type} {w : World Value} {ev : Evaluator} {scope : ScopeId} {may : ScopeId → Prop}

/-- A run writes in some scopes and in new ones only, in a world that stays rooted. -/
structure Frames (may : ScopeId → Prop) (w : World Value) (run : Run α)
    (good : Scopes Value → α → Prop) : Prop where
  /-- The world is rooted after the run. -/
  rooted : (run w).2.Rooted
  /-- Names are written where that is allowed. -/
  spares : w.scopes.Spares may (run w).2.scopes
  /-- The result is good. -/
  good : good (run w).2.scopes (run w).1

/-- The values that hold no functions with scopes that have not been made. -/
abbrev Closed (scopes : Scopes Value) (v : Value) : Prop :=
  v.Obeys (.closes scopes.Made)

/-- A result that needs no work writes nothing. -/
theorem frames_pure (rooted : w.Rooted) {a : α} {good : Scopes Value → α → Prop}
    (fine : good w.scopes a) : Frames may w (pure a) good :=
  ⟨rooted, .refl may _, fine⟩

/-- A run that leaves the scopes alone writes nothing. -/
theorem frames_same (rooted : w.Rooted) {run : Run α} (same : (run w).2.scopes = w.scopes) :
    Frames may w run fun _ _ => True :=
  ⟨rooted.congr same, by rw [same]; exact .refl may _, trivial⟩

/-- Printing writes no name. -/
theorem frames_write (rooted : w.Rooted) (bytes : Text.Bytes) :
    Frames may w (write bytes) fun _ _ => True :=
  frames_same rooted rfl

/-- More may be written than is. -/
theorem Frames.mono {may' : ScopeId → Prop} {run : Run α} {good : Scopes Value → α → Prop}
    (frames : Frames may' w run good) (more : ∀ s, w.scopes.Made s → may' s → may s) :
    Frames may w run good :=
  { frames with spares := frames.spares.mono more }

/-- A run that goes on after another one writes where both do, and in scopes that the first has made. -/
theorem Frames.bindFresh {run : Run α} {next : α → Run β} {good : Scopes Value → α → Prop}
    {fine : Scopes Value → β → Prop} (first : Frames may w run good)
    (second : ∀ a w', w'.Rooted → w.scopes.Within w'.scopes → good w'.scopes a →
      Frames (fun s => may s ∨ ¬ w.scopes.Made s) w' (next a) fine) :
    Frames may w (run >>= next) fine := by
  have later := second (run w).1 (run w).2 first.rooted first.spares.within first.good
  exact ⟨later.rooted, first.spares.trans later.spares, later.good⟩

/-- A run that goes on after another one writes where both do. -/
theorem Frames.bind {run : Run α} {next : α → Run β} {good : Scopes Value → α → Prop}
    {fine : Scopes Value → β → Prop} (first : Frames may w run good)
    (second : ∀ a w', w'.Rooted → w.scopes.Within w'.scopes → good w'.scopes a →
      Frames may w' (next a) fine) : Frames may w (run >>= next) fine :=
  first.bindFresh fun a w' rooted within fine => (second a w' rooted within fine).mono fun _ _ => .inl

/-- Ending with a failure or going on writes where going on does. -/
theorem frames_orFail (rooted : w.Rooted) {result : Except Failure α} {next : α → Run Value}
    (safe : ∀ a, result = .ok a → Frames may w (next a) Closed) :
    Frames may w (orFail result next) Closed := by
  cases result with
  | ok a => exact safe a rfl
  | error failure => exact frames_pure rooted trivial

/-- Looking a name up writes nothing. -/
theorem frames_lookup (rooted : w.Rooted) (scope : ScopeId) (name : String) :
    Frames may w (lookup scope name) Closed := by
  -- A name that is found is bound in some scope of the chain.
  refine ⟨rooted, .refl may _, ?_⟩
  show ((w.scopes.lookup? scope name).getD (.error (.unbound name))).Obeys _
  cases found : w.scopes.lookup? scope name with
  | none => trivial
  | some v =>
    obtain ⟨id, _, bound⟩ := List.exists_of_findSome?_eq_some found
    exact rooted.captured id name v bound

/-- Binding names writes in one scope. -/
theorem frames_bindAll (rooted : w.Rooted) {id : ScopeId} (made : w.scopes.Made id) (allowed : may id)
    {bindings : List (String × Value)} (closed : ∀ b ∈ bindings, Closed w.scopes b.2) :
    Frames may w (bindAll id bindings) fun _ _ => True :=
  ⟨rooted.bound made closed, (Scopes.Spares.refl may _).bindAll (.inl allowed) bindings, trivial⟩

/-- Making a scope with names bound in it writes in no other. -/
theorem frames_enter (rooted : w.Rooted) {parent : ScopeId} (made : w.scopes.Made parent)
    {bindings : List (String × Value)} (closed : ∀ b ∈ bindings, Closed w.scopes b.2) :
    Frames may w (enter (some parent) bindings) fun scopes id =>
      scopes.Made id ∧ ¬ w.scopes.Made id := by
  have there := Scopes.made_extend_next w.scopes (some parent)
  refine ⟨(rooted.extend made).bound there fun b member => ?_, ?_, ?_, Scopes.not_made_next _⟩
  · exact (closed b member).within (Scopes.Spares.extend may _ _).within
  · exact (Scopes.Spares.extend may _ _).bindAll (.inr (Scopes.not_made_next _)) bindings
  · show w.scopes.next.index < ((w.scopes.extend _).bindAll _ _).made.size
    rw [Scopes.size_bindAll]
    exact there

/-- The outermost scope is the global one. -/
theorem frames_root (rooted : w.Rooted) (made : w.scopes.Made scope) :
    Frames may w (root scope) fun _ id => id = Scopes.global :=
  ⟨rooted, .refl may _, rooted.root made⟩

/-- The scopes that an evaluation writes in: its own and the global one. -/
def Own (scope s : ScopeId) : Prop :=
  s = scope ∨ s = Scopes.global

/-- An evaluator writes in its own scope, in the global one and in new ones only. -/
def Framing (ev : Evaluator) : Prop :=
  ∀ ⦃w scope v⦄, World.Rooted w → w.scopes.Made scope → Closed w.scopes v →
    Frames (Own scope) w (ev scope v) Closed

/-- An evaluation in a new scope writes in the global one and in new ones only. -/
theorem Framing.fresh (framing : Framing ev) {start : Scopes Value} (rooted : w.Rooted)
    (made : w.scopes.Made scope) (new : ¬ start.Made scope) {v : Value} (closed : Closed w.scopes v) :
    Frames (fun s => s = Scopes.global ∨ ¬ start.Made s) w (ev scope v) Closed := by
  refine (framing rooted made closed).mono ?_
  rintro s _ (rfl | rfl)
  · exact .inr new
  · exact .inl rfl

/-- Evaluating expressions in order writes where evaluating one does. -/
theorem frames_each (framing : Framing ev) (rooted : w.Rooted) (made : w.scopes.Made scope)
    {expressions : List Value} (closed : ∀ v ∈ expressions, Closed w.scopes v) :
    Frames (Own scope) w (each ev scope expressions) fun scopes values =>
      ∀ v ∈ values, Closed scopes v := by
  -- The induction is on the expressions; each leaves a rooted world to the next.
  induction expressions generalizing w with
  | nil => exact frames_pure rooted (by simp)
  | cons t rest ih =>
    rw [each, List.mapM_cons]
    refine (framing rooted made (closed t (by simp))).bind fun v w' rooted' within fine => ?_
    refine (ih rooted' (Nat.lt_of_lt_of_le made within) fun v member =>
      (closed v (by simp [member])).within within).bind fun values w'' rooted'' within' all => ?_
    exact frames_pure rooted'' (by simpa using ⟨fine.within within', all⟩)

/-- Evaluating clauses in order writes where evaluating does. -/
theorem frames_select (framing : Framing ev) (rooted : w.Rooted) (made : w.scopes.Made scope)
    {clauses : List (Value × Value)} (closed : ∀ c ∈ clauses, Closed w.scopes c.1 ∧ Closed w.scopes c.2) :
    Frames (Own scope) w (select ev scope clauses) Closed := by
  -- The induction is on the clauses; a condition that fails ends the selection at once.
  induction clauses generalizing w with
  | nil => exact frames_pure rooted trivial
  | cons clause rest ih =>
    obtain ⟨tested, given⟩ := closed _ List.mem_cons_self
    -- The condition is evaluated first; its result tells whether the clause is taken.
    refine (framing rooted made tested).bind fun test w' rooted' within fine => ?_
    have made' := Nat.lt_of_lt_of_le made within
    by_cases failed : test.isError
    · rw [if_pos failed]
      exact frames_pure rooted' fine
    · rw [if_neg failed]
      refine frames_orFail rooted' fun chosen _ => ?_
      cases chosen with
      | true => exact framing rooted' made' (given.within within)
      -- The other clauses are tried in the world that the condition has left.
      | false =>
        refine ih rooted' made' fun c member => ?_
        have inside := closed c (List.mem_cons_of_mem _ member)
        exact ⟨inside.1.within within, inside.2.within within⟩

/-- Evaluating the forms of a file writes where evaluating does. -/
theorem frames_load (framing : Framing ev) (rooted : w.Rooted) (made : w.scopes.Made scope)
    (path : Text.Bytes) : Frames (Own scope) w (load ev scope path) Closed := by
  have opened : Frames (Own scope) w (readFile path) fun _ _ => True := frames_same rooted rfl
  refine opened.bind fun contents w' rooted' within _ => ?_
  -- A file that cannot be opened or parsed leaves everything as it is.
  cases contents with
  | error fault => exact frames_pure rooted' trivial
  | ok bytes =>
    simp only
    cases Form.parse (withoutInterpreterLine bytes) with
    | error e => exact frames_pure rooted' trivial
    | ok forms =>
      -- What is read holds no functions.
      refine (frames_each framing rooted' (Nat.lt_of_lt_of_le made within) fun v member =>
        Form.obeys_of_mem_toValues member).bind fun results w'' rooted'' _ _ => ?_
      exact (frames_write rooted'' _).bind fun _ _ rooted _ _ => frames_pure rooted trivial

/-- A primitive operation writes where evaluating does. -/
theorem frames_applyPrimitive (framing : Framing ev) (rooted : w.Rooted) (made : w.scopes.Made scope)
    (p : Primitive) {arguments : List Value} (closed : ∀ v ∈ arguments, Closed w.scopes v) :
    Frames (Own scope) w (applyPrimitive ev scope p arguments) Closed := by
  -- What evaluates, binds or prints is looked at by itself; the others depend on the
  -- arguments alone.
  have bound : ∀ {bindings}, p.bindings arguments = .ok bindings →
      ∀ b ∈ bindings, Closed w.scopes b.2 := fun given b member =>
    closed b.2 (Primitive.mem_of_bindings given b member)
  have plain : ∀ {f}, p.scalar?.or p.listing? = some f →
      Frames (Own scope) w (pure (.ofExcept (f arguments))) Closed :=
    fun found => frames_pure rooted ((Primitive.madeOf_plain found arguments).obeys closed)
  -- A quoted list and the same list in brackets hold the same functions.
  have whole : ∀ {items : List Value}, Closed w.scopes (.qexpr items) → Closed w.scopes (.sexpr items) :=
    fun obeys => Value.obeyAll_iff.mpr (Value.obeyAll_iff.mp obeys)
  -- Each operation is followed through what it evaluates and binds.
  cases p
  case eval =>
    refine frames_orFail rooted fun v given => framing rooted made ?_
    have obeys := closed v (Primitive.mem_of_onOne given)
    unfold Value.unquote
    split
    · exact whole obeys
    · exact obeys
  -- A definition binds in the outermost scope, which is the global one.
  case define =>
    refine frames_orFail rooted fun bindings given => (frames_root rooted made).bind ?_
    rintro id w' rooted' within rfl
    refine (frames_bindAll rooted' rooted'.global (.inr rfl) fun b member =>
      (bound given b member).within within).bind fun _ _ rooted _ _ => frames_pure rooted trivial
  -- An assignment binds in the scope of the call itself.
  case assign =>
    refine frames_orFail rooted fun bindings given => ?_
    exact (frames_bindAll rooted made (.inl rfl) (bound given)).bind fun _ _ rooted _ _ =>
      frames_pure rooted trivial
  -- The scope that a function captures is the one of the call, which has been made.
  case lambda =>
    refine frames_orFail rooted fun parts given => frames_pure rooted ?_
    obtain ⟨_, _, formals, body⟩ := Primitive.functionParts_ok given
    exact ⟨⟨scope, rfl, made⟩, closed _ formals, closed _ body⟩
  case cond =>
    refine frames_orFail rooted fun items given => framing rooted made ?_
    exact whole (closed _ (Primitive.branch_ok given))
  case print =>
    exact (frames_write rooted _).bind fun _ _ rooted _ _ => frames_pure rooted trivial
  -- A file is evaluated in the outermost scope of the call.
  case load =>
    refine frames_orFail rooted fun path _ => (frames_root rooted made).bind ?_
    rintro id w' rooted' _ rfl
    refine (frames_load framing rooted' rooted'.global path).mono ?_
    rintro s _ (rfl | rfl) <;> exact .inr rfl
  -- The result is the last argument, or the empty list when there is none.
  case sequence =>
    refine frames_pure rooted ?_
    rcases List.eq_nil_or_concat arguments with rfl | ⟨front, last, rfl⟩
    · trivial
    · rw [List.concat_eq_append, List.getLastD_concat]
      exact closed last (by simp)
  case block =>
    refine frames_orFail rooted fun body given => frames_orFail rooted fun items quoted => ?_
    -- The scope of the block is new, so the body may write in it.
    refine (frames_enter rooted made (by simp)).bindFresh fun own w' rooted' within new => ?_
    have obeys := closed body (Primitive.mem_of_onOne given)
    rw [Primitive.eq_of_quotedItems quoted] at obeys
    refine (framing.fresh rooted' new.1 new.2 ((whole obeys).within within)).mono ?_
    exact fun s _ => .imp_left .inr
  -- Conditions and results are elements of the arguments.
  case select =>
    refine frames_orFail rooted fun clauses given =>
      frames_select framing rooted made fun clause member => ?_
    obtain ⟨v, inside, found⟩ := (mapM_ok given).2 clause member
    obtain ⟨condition, result⟩ := Primitive.clause_ok found
    exact ⟨(closed v inside).items _ condition, (closed v inside).items _ result⟩
  all_goals exact plain rfl

/-- Applying a function writes in the global scope and in new ones only. -/
theorem frames_applyLambda (framing : Framing ev) (rooted : w.Rooted) {formals body : Value}
    {captured : Option ScopeId} (function : Closed w.scopes (.lambda formals body captured))
    {arguments : List Value} (closed : ∀ v ∈ arguments, Closed w.scopes v) :
    Frames (· = Scopes.global) w (applyLambda ev formals body captured arguments) Closed := by
  -- The function captured a scope that has been made; its formals and its body are closed, too.
  obtain ⟨⟨s, rfl, made⟩, formal, bodied⟩ := function
  have bound : ∀ b ∈ (matchFormals formals.items arguments).bound, Closed w.scopes b.2 :=
    fun b member => closed b.2 (mem_of_mem_bound member)
  -- The scope of the call is new, so the body writes in no scope that there was but the global one.
  rw [applyLambda]
  refine (frames_enter rooted made bound).bindFresh fun own w' rooted' within new => ?_
  cases found : matchFormals formals.items arguments with
  | full bound rest =>
    refine (frames_bindAll rooted' new.1 (.inr new.2) fun b member => ?_).bind
      fun _ w'' rooted'' within' _ => ?_
    · -- A variadic name is bound to a quoted list of the arguments that are left.
      obtain ⟨⟨name, values⟩, inside, rfl⟩ := List.mem_map.mp member
      rw [Option.mem_toList.mp inside] at found
      exact Value.obeyAll_iff.mpr fun v here => (closed v (rest_subset found here)).within within
    · refine framing.fresh rooted'' (Nat.lt_of_lt_of_le new.1 within') new.2 ?_
      exact Value.obeyAll_iff.mpr fun v member => ((bodied.items v member).within within).within within'
  | short bound waiting =>
    -- The arguments so far are bound in the new scope, which the partial function captures.
    refine frames_pure rooted' ⟨⟨own, rfl, new.1⟩, ?_, bodied.within within⟩
    exact (formal.within within).withItems (waiting_suffix found).subset
  | excess bound => exact frames_pure rooted' trivial
  | malformed bound => exact frames_pure rooted' trivial

/-- Applying an operator writes where evaluating does. -/
theorem frames_call (framing : Framing ev) (rooted : w.Rooted) (made : w.scopes.Made scope)
    {operator : Value} (operating : Closed w.scopes operator) {arguments : List Value}
    (closed : ∀ v ∈ arguments, Closed w.scopes v) :
    Frames (Own scope) w (call ev scope operator arguments) Closed := by
  -- Anything but an operation or a function is refused.
  cases operator with
  | builtin operation =>
    cases operation with
    | primitive p => exact frames_applyPrimitive framing rooted made p closed
    | foreign identity name => exact frames_pure rooted trivial
  | lambda formals body captured =>
    exact (frames_applyLambda framing rooted operating closed).mono fun _ _ => .inr
  | _ => exact frames_pure rooted trivial

/-- Reducing a list writes where evaluating does. -/
theorem frames_reduce (framing : Framing ev) (rooted : w.Rooted) (made : w.scopes.Made scope)
    {items : List Value} (closed : ∀ v ∈ items, Closed w.scopes v) :
    Frames (Own scope) w (reduce ev scope items) Closed := by
  -- The elements are evaluated first, and one of the values may be an error.
  refine (frames_each framing rooted made closed).bind fun values w' rooted' within fine => ?_
  have made' := Nat.lt_of_lt_of_le made within
  cases found : values.find? (·.isError) with
  | some failed => exact frames_pure rooted' (fine failed (List.mem_of_find?_eq_some found))
  | none =>
    rcases values with _ | ⟨v, _ | ⟨argument, rest⟩⟩
    · exact frames_pure rooted' trivial
    · exact framing rooted' made' (fine v (by simp))
    · exact frames_call framing rooted' made' (fine v (by simp)) fun t member =>
        fine t (List.mem_cons_of_mem _ member)

/-- Evaluating an expression writes where reducing a list does. -/
theorem frames_evalWith {reduce : List Value → Run Value} (rooted : w.Rooted) {v : Value}
    (closed : Closed w.scopes v)
    (reduces : ∀ items, (∀ t ∈ items, Closed w.scopes t) → Frames may w (reduce items) Closed) :
    Frames may w (evalWith reduce scope v) Closed := by
  -- Only symbols and lists in round brackets do not stand for themselves.
  cases v with
  | symbol name => exact frames_lookup rooted scope name
  | list kind items =>
    cases kind with
    | sexpr => exact reduces items (Value.obeyAll_iff.mp closed)
    | qexpr => exact frames_pure rooted closed
  | _ => exact frames_pure rooted closed

/-- Evaluation writes in its own scope, in the global one and in new ones only. -/
theorem framing_eval (room : Nat) : Framing (eval room) := by
  -- The induction is on the reductions that may still be entered.
  induction room with
  | zero =>
    intro w scope v rooted made closed
    exact frames_evalWith rooted closed fun _ _ => ⟨rooted, .refl _ _, trivial⟩
  | succ room ih =>
    intro w scope v rooted made closed
    exact frames_evalWith rooted closed fun items fine => frames_reduce ih rooted made fine

/-- Evaluation with no reduction in progress writes in its own scope and the global one. -/
theorem framing_evaluate : Framing evaluate := by
  intro w scope v rooted made closed
  have inner : Frames (Own scope) w (eval w.limit scope v) Closed :=
    framing_eval w.limit rooted made closed
  exact ⟨inner.rooted, inner.spares, inner.good⟩

/-- Expressions at the top level write in the global scope and in new ones only. -/
theorem frames_top (rooted : w.Rooted) {expressions : List Value}
    (closed : ∀ v ∈ expressions, Closed w.scopes v) :
    Frames (· = Scopes.global) w (each evaluate Scopes.global expressions) fun scopes values =>
      ∀ v ∈ values, Closed scopes v :=
  (frames_each framing_evaluate rooted rooted.global closed).mono fun _ _ => Or.rec id id

/-- A source writes in the global scope and in new ones only. -/
theorem frames_evaluateSource (rooted : w.Rooted) (source : Source) :
    Frames (· = Scopes.global) w (evaluateSource source) fun _ _ => True := by
  -- Reading leaves the scopes as they are, and what is read holds no functions.
  rw [evaluateSource_eq]
  have reads : Frames (· = Scopes.global) w (readSource source) fun scopes result =>
      ∀ expressions, result = .ok expressions → ∀ v ∈ expressions, Closed scopes v := by
    obtain ⟨scopes, _⟩ := readSource_spelled source w
    refine { frames_same rooted scopes with good := fun expressions read => ?_ }
    obtain ⟨forms, rfl⟩ := (readSource_forms source w).2 expressions read
    exact fun v member => Form.obeys_of_mem_toValues member
  -- The expressions are evaluated in the global scope, whatever the source is.
  refine reads.bind fun read w' rooted' _ closed => ?_
  cases read with
  | error e => exact frames_pure rooted' trivial
  | ok expressions =>
    exact (frames_top rooted' (closed expressions rfl)).bind fun _ _ rooted _ _ =>
      frames_pure rooted trivial

end Run

namespace World.Rooted

variable {w : World Value}

/-- A request writes in the global scope and in new ones only. -/
theorem spares_perform (rooted : w.Rooted) (request : Request) :
    w.scopes.Spares (· = Scopes.global) (Run.after request.perform w).scopes := by
  cases request with
  | arguments list =>
    have spares := Scopes.Spares.refl (· = Scopes.global) w.scopes
    exact spares.bindAll (s := Scopes.global) (.inl rfl) [("argv", .qexpr (list.map .string))]
  | limit setting => exact .refl _ _
  | evaluate source => exact (Run.frames_evaluateSource rooted source).spares

/-- Any requests write in the global scope and in new ones only. -/
theorem spares_session (requests : List Request) : ∀ {w : World Value}, w.Rooted →
    w.scopes.Spares (· = Scopes.global) (Run.after (requests.forM Request.perform) w).scopes := by
  -- The induction is on the requests.
  induction requests with
  | nil => exact fun _ => .refl _ _
  | cons request rest ih =>
    exact fun rooted => (rooted.spares_perform request).trans
      ((ih (rooted.perform request)).mono fun _ _ => .inl)

end World.Rooted
end QLisp
