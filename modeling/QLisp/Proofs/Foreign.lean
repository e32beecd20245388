import QLisp.Proofs.Brackets
import QLisp.Proofs.Program.Library

/-!
Failures that a session does not hear of.

Evaluation makes no diagnostic of its own: all of them come from the text of a source or of a file that
is loaded. So a diagnostic that none of these texts has is not found inside any binding either.
-/

namespace QLisp

variable {files : Files} {bytes : Text.Bytes} {e : Failure}

/-! ### Diagnostics are complaints about a place -/

/-- A failure is a complaint about a place in a text. -/
def Failure.Places (e : Failure) : Prop :=
  ∃ place complaint, e = diagnostic place complaint

namespace Grammar

variable {place : Position} {chars : List Char} {atom : Atom} {forms : List Form}

/-- The failures in what a token means are complaints about its place. -/
theorem Means.places (means : Means place chars atom) :
    ∀ e ∈ (atom.toValue Primitive.all).failures, e.Places := by
  cases means with
  | noNumber | noSymbol => exact fun e member => ⟨place, _, List.mem_singleton.mp member⟩
  | reserved p =>
    have known : Vocabulary.meaning? Primitive.all p.name = some p := p.ofName?_name
    simp [Atom.toValue, known, Value.primitive, Value.failures]
  | _ => simp [Atom.toValue, Value.failures]

/-- The failures in what a string means are complaints about its place. -/
theorem Literal.places (literal : Literal place chars atom) :
    ∀ e ∈ (atom.toValue Primitive.all).failures, e.Places := by
  cases literal with
  | string quotes => simp [Atom.toValue, Value.failures]
  | malformed quotes => exact fun e member => ⟨place, _, List.mem_singleton.mp member⟩

/-- The failures in what characters spell are complaints about places. -/
theorem Spells.places (spells : Spells place chars forms) :
    ∀ e ∈ Value.failuresAll (Form.toValues Primitive.all forms), e.Places := by
  -- By induction on the grammar.
  induction spells with
  | nil => exact nofun
  | space blank later ih => exact ih
  | comment line later ih => exact ih
  | token nonempty inside ends means later ih => exact List.forall_mem_append.mpr ⟨means.places, ih⟩
  | string literal later ih => exact List.forall_mem_append.mpr ⟨literal.places, ih⟩
  | list nested later ihNested ih => exact List.forall_mem_append.mpr ⟨ihNested, ih⟩

end Grammar

/-- The diagnostics of a text are complaints about places. -/
theorem Text.places_of_mem_diagnostics (member : e ∈ Text.diagnostics bytes) : e.Places := by
  cases read : Form.parse bytes with
  | error failed => simp [Text.diagnostics, read] at member
  | ok forms =>
    rw [Text.diagnostics, read] at member
    -- What is read is what the grammar spells.
    obtain ⟨text, rfl⟩ := Form.exists_text_of_parse read
    obtain ⟨body, last, _, spells, _⟩ := Form.parse_encode_iff.mp read
    exact spells.places e member

/-! ### What a session has not heard of -/

/-- Failures are the same, and no diagnostic of a text. -/
def Failure.SameForeign (bytes : Text.Bytes) : FailureRel := fun e e' => e = e' ∧ e.Foreign bytes

/-- A failure that is no complaint about a place is no diagnostic of a text. -/
theorem Failure.foreign_of_not_places (other : ¬ e.Places) : e.Foreign bytes :=
  ⟨fun member => other (Text.places_of_mem_diagnostics member),
    fun member => other (Text.places_of_mem_diagnostics member)⟩

/-- Evaluation makes no diagnostic of a text. -/
theorem Failure.faithful_sameForeign : (SameForeign bytes).Faithful where
  exact same same' := by rw [same.1, same'.1]
  evaluation {e} other := by
    refine ⟨rfl, foreign_of_not_places ?_⟩
    rintro ⟨place, complaint, rfl⟩
    exact other rfl
  loading path complaint := by
    refine ⟨rfl, foreign_of_not_places ?_⟩
    rintro ⟨place, said, same⟩
    exact loading_ne_diagnostic path complaint place said same

/-- The expressions of the library hold no failures. -/
theorem Library.failures_expression : ∀ v ∈ Library.expressions, v.failures = [] := by
  have none : (Library.basics ++ Library.entries.map Library.Entry.expression).all
    (fun v => v.failures.isEmpty) = true := by decide +kernel
  rw [Library.expressions_eq]
  exact fun v member => List.isEmpty_iff.mp (List.all_eq_true.mp none v member)

/-- The world with the operations bound corresponds to itself, whatever failures correspond. -/
theorem World.related_withPrimitives {rel : FailureRel} (faithful : rel.Faithful)
    (steady : files.Steady rel) :
    (World.withPrimitives files).Related (.upTo rel faithful (World.initial files))
      (World.withPrimitives files) := by
  -- Nothing is bound at first, and then the operations are, which hold no failures.
  have fresh : (World.initial files).Related (.upTo rel faithful (World.initial files))
      (World.initial files) :=
    (World.rooted_initial files).related (fun s name v found => by simp [World.initial] at found) steady
  have linked : (Comparison.upTo rel faithful (World.initial files)).link
    (World.initial files).scopes Scopes.global Scopes.global := ⟨rfl, fresh.global⟩
  refine fresh.bindAll linked (List.forall₂_same.mpr fun b member => ⟨rfl, ?_⟩)
  obtain ⟨p, _, rfl⟩ := List.mem_map.mp member
  exact .builtin _

/-- The world that a program starts in corresponds to itself, whatever failures correspond. -/
theorem World.related_standard {rel : FailureRel} (faithful : rel.Faithful)
    (steady : files.Steady rel) :
    (World.standard files).Related (.upTo rel faithful (World.initial files))
      (World.standard files) := by
  -- The library is evaluated like a source without failures.
  refine (World.related_withPrimitives faithful steady).each
    (fun v member _ => Library.obeys_expression v member) fun v member e inside => ?_
  rw [Library.failures_expression v member] at inside
  exact absurd inside List.not_mem_nil

/--
What no source and no file tells of is not found inside any binding.

When the diagnostics of a text are neither among the failures of the requests nor among those of a
file, they are not inside what the scopes bind after the requests.
-/
theorem World.foreign_session {requests : List Request}
    (loaded : ∀ path contents, files path = .ok contents →
      ∀ e ∈ Text.diagnostics (withoutInterpreterLine contents), e.Foreign bytes)
    (brought : ∀ request ∈ requests, ∀ e ∈ request.failures files, e.Foreign bytes) (id : ScopeId)
    (name : String) (v : Value)
    (found : (Run.after (requests.forM Request.perform) (World.standard files)).scopes.local? id name =
      some v) : ∀ e ∈ v.failures, e.Foreign bytes := by
  have own : ∀ request ∈ requests, ∀ e ∈ request.failures files, Failure.SameForeign bytes e e :=
    fun request member e inside => ⟨rfl, brought request member e inside⟩
  have steady : files.Steady (Failure.SameForeign bytes) :=
    Files.steady_of_diagnostics fun path contents found e member =>
      ⟨rfl, loaded path contents found e member⟩
  -- The library and the operations hold no failure, so the world corresponds to itself at first.
  have start := World.related_standard Failure.faithful_sameForeign steady
  have related := start.session own
  -- What is bound corresponds to itself, so the failures inside it do.
  have values := related.bound_self (s := id) (fun _ _ => rfl) name
  rw [found] at values
  cases values with
  | some same =>
    have alike : v.Alike (Failure.SameForeign bytes) v := same.alike fun _ _ linked => linked.1
    exact fun e member => (alike.failures_self e member).2

end QLisp
