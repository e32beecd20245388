import QLisp.Proofs.Form.Cursor
import QLisp.Proofs.Form.Unclosed

/-!
Reading by descent goes forward.

No function that reads by descent comes with a measure. That each of them ends is proved here, by
induction on the characters that are left: a form takes some of them, because it is only begun at a
character that is neither white space nor the beginning of a comment. What such a reading comes to is
what the reader that goes character by character comes to, errors included.
-/

namespace QLisp.Cursor

open Grammar

variable {here : Cursor} {c : Char} {chars first rest : List Char} {form : Form} {kind : ListKind}
  {start : Position} {stop : Stop} {e : ParseError}

/-! ### What is begun -/

/-- The place of a form that is to be read. -/
def Call.formPlace? : Call → Option Position
  | .form place => some place
  | .atom _ => none

/-- The places of the forms that some calls begin, in the order of the calls. -/
def formPlaces (calls : List Call) : List Position :=
  calls.reverse.filterMap Call.formPlace?

/-- Later calls stand in front of earlier ones. -/
theorem formPlaces_append (later earlier : List Call) :
    formPlaces (later ++ earlier) = formPlaces earlier ++ formPlaces later := by
  rw [formPlaces, List.reverse_append, List.filterMap_append]
  rfl

/-- Where the forms begin that are in some forms and those that follow. -/
theorem nodesAll_append (forms others : List Form) :
    Form.nodesAll (forms ++ others) = Form.nodesAll forms ++ Form.nodesAll others := by
  induction forms with
  | nil => rfl
  | cons form forms ih => rw [List.cons_append, Form.nodesAll, ih, Form.nodesAll, List.append_assoc]

/-- When the next form has been read, the calls have begun it and all that is in it. -/
theorem places_further {before : List Form} {earlier calls : List Call}
    (places : form.nodes.map Form.position = here.place :: formPlaces earlier) :
    (Form.nodesAll (form :: before).reverse).map Form.position ++ formPlaces calls =
      (Form.nodesAll before.reverse).map Form.position ++
        formPlaces (calls ++ earlier ++ [.form here.place]) := by
  have first : formPlaces [.form here.place] = [here.place] := rfl
  rw [List.reverse_cons, nodesAll_append, List.map_append, Form.nodesAll, Form.nodesAll,
    List.append_nil, formPlaces_append, formPlaces_append, places, first]
  simp

/-- A form of which some has been read. -/
structure Entry where
  /-- Where it begins, and after that where the forms begin that have been read of it. -/
  begun : List Position
  /-- How far the text has been read, given what has been opened and read outside of the form. -/
  scan : List OpenList → List Form → Scan

/--
How reading a form ends before the characters that are left: past some of them, the calls having begun
all that is in the form, or with the error that concludes the text.
-/
def Yields (here : Cursor) (chars : List Char) (entry : Entry) (calls : List Call) :
    Except Stop (Form × Cursor) → Prop
  | .ok (form, next) => (∃ first rest, chars = first ++ rest ∧ first ≠ [] ∧ next = here.past first ∧
      ∀ opened forms, (entry.scan opened forms).conclude ⟨chars, here.whole⟩ =
        (⟨next.place, opened, form :: forms, .gap⟩ : Scan).conclude ⟨rest, here.whole⟩) ∧
      form.nodes.map Form.position = entry.begun ++ formPlaces calls
  | .error stop => ∃ e, stop = .fault e ∧
      ∀ opened forms, (entry.scan opened forms).conclude ⟨chars, here.whole⟩ = .error e

variable {entry later : Entry} {calls more : List Call} {result : Except Stop (Form × Cursor)}

/-- A form that is read on from a later cursor is read from an earlier one. -/
theorem Yields.prepend (first : List Char) (yields : (here.past first).Yields rest later calls result)
    (same : ∀ opened forms, (entry.scan opened forms).conclude ⟨first ++ rest, here.whole⟩ =
      (later.scan opened forms).conclude ⟨rest, here.whole⟩)
    (begun : later.begun ++ formPlaces calls = entry.begun ++ formPlaces more) :
    here.Yields (first ++ rest) entry more result := by
  cases result with
  -- An error is the same error when it is found later.
  | error stop =>
    obtain ⟨e, known, stuck⟩ := yields
    exact ⟨e, known, fun opened forms => (same opened forms).trans (stuck opened forms)⟩
  | ok found =>
    -- What the later cursor reads comes after what has been read already.
    obtain ⟨⟨second, left, rfl, some, next, concluded⟩, places⟩ := yields
    refine ⟨⟨first ++ second, left, (List.append_assoc _ _ _).symm, by simp [some], ?_, ?_⟩, ?_⟩
    · rw [next, past_append]
    · exact fun opened forms => (same opened forms).trans (concluded opened forms)
    · exact places.trans begun

/-- A form that its first character ends is read past it. -/
theorem Yields.single (took : ∀ opened forms, (entry.scan opened forms).step c =
      .ok ⟨(here.past [c]).place, opened, form :: forms, .gap⟩)
    (begun : form.nodes.map Form.position = entry.begun) :
    here.Yields (c :: rest) entry [] (.ok (form, here.past [c])) := by
  refine ⟨⟨[c], rest, rfl, by simp, rfl, fun opened forms => ?_⟩, ?_⟩
  · exact Scan.conclude_cons (took opened forms)
  · rw [begun]
    exact (List.append_nil _).symm

/-- Where a whole text ends nothing is read if the text may not end there. -/
theorem Yields.ended (whole : here.whole)
    (stuck : ∀ opened forms, (entry.scan opened forms).finish = .error e) :
    here.Yields [] entry calls (.error (.fault e)) := by
  refine ⟨e, rfl, fun opened forms => ?_⟩
  rw [whole]
  exact stuck opened forms

/-- Where a byte comes that belongs to no character nothing is read. -/
theorem Yields.byte (malformed : here.whole = false)
    (place : ∀ opened forms, (entry.scan opened forms).position = here.place) :
    here.Yields [] entry calls (.error (.fault here.byteError)) := by
  refine ⟨_, rfl, fun opened forms => ?_⟩
  rw [malformed, Scan.conclude_byte, Scan.stopAtByte, place]
  rfl

/-! ### Strings -/

/-- A string of which some has been read: its characters so far and its first unknown escape. -/
def quoted (here : Cursor) (start : Position) (seen : List Char) (unknown : Option Char) : Entry where
  begun := [start]
  scan opened forms := ⟨here.place, opened, forms, .string start seen unknown⟩

/-- A string of which some has been read, up to a backslash. -/
def escaped (here : Cursor) (start : Position) (seen : List Char) (unknown : Option Char) : Entry where
  begun := [start]
  scan opened forms := ⟨here.place, opened, forms, .escape start seen unknown⟩

/-- A string is read past its closing quotation mark, or to the end of the text. -/
theorem readString_ends (before : here.Before chars) (start : Position) (seen : List Char)
    (unknown : Option Char) : ∃ result, here.readString start seen unknown = some result ∧
      here.Yields chars (here.quoted start seen unknown) [] result := by
  -- By induction on how many characters are left, since an escape takes two.
  induction size : chars.length using Nat.strongRecOn generalizing here chars seen unknown with
  | ind count ih =>
    subst size
    rw [readString]
    cases chars with
    -- No character is left inside the string.
    | nil =>
      cases whole : here.whole with
      | true =>
        rw [before.readChar_end whole]
        exact ⟨_, rfl, Yields.ended whole fun _ _ => rfl⟩
      | false =>
        rw [before.readChar_byte whole]
        exact ⟨_, rfl, Yields.byte whole fun _ _ => rfl⟩
    | cons c more =>
      rw [before.readChar_cons]
      -- A quotation mark ends the string, and a backslash takes the next character with it.
      have later : (here.past [c]).Before more := before.next
      by_cases quote : c = '"'
      · subst quote
        exact ⟨_, rfl, Yields.single (fun _ _ => rfl) rfl⟩
      by_cases slash : c = '\\'
      · subst slash
        -- What comes after the backslash is read as an escape.
        have enter {result}
            (yields : (here.past ['\\']).Yields more ((here.past ['\\']).escaped start seen unknown)
              [] result) : here.Yields ('\\' :: more) (here.quoted start seen unknown) [] result :=
          Yields.prepend ['\\'] yields (fun _ _ => Scan.conclude_cons rfl) rfl
        -- The text ends after the backslash, or goes on with the character that is escaped.
        cases more with
        | nil =>
          cases whole : here.whole with
          | true =>
            simp only [later.readChar_end whole]
            exact ⟨_, rfl, enter (Yields.ended whole fun _ _ => rfl)⟩
          | false =>
            simp only [later.readChar_byte whole]
            exact ⟨_, rfl, enter (Yields.byte whole fun _ _ => rfl)⟩
        | cons d more =>
          -- The escape has two characters, so what is left is shorter.
          have after : ((here.past ['\\']).past [d]).Before more := later.next
          have shorter : more.length < ('\\' :: d :: more).length := by
            rw [List.length_cons, List.length_cons]
            omega
          simp only [later.readChar_cons]
          -- An escape that is unknown is only noted; the string goes on after it in either case.
          cases known : Token.unescape? d with
          | some meant =>
            obtain ⟨result, read, yields⟩ := ih _ shorter after (meant :: seen) unknown rfl
            exact ⟨result, read, enter (Yields.prepend [d] yields
              (fun _ _ => Scan.conclude_cons (Scan.step_escape known)) rfl)⟩
          | none =>
            obtain ⟨result, read, yields⟩ := ih _ shorter after seen (unknown.or (some d)) rfl
            exact ⟨result, read, enter (Yields.prepend [d] yields
              (fun _ _ => Scan.conclude_cons (Scan.step_unknown known)) rfl)⟩
      · -- The character stands for itself.
        obtain ⟨result, read, yields⟩ := ih _ (Nat.lt_succ_self _) later (c :: seen) unknown rfl
        refine ⟨result, ?_, Yields.prepend [c] yields
          (fun _ _ => Scan.conclude_cons (Scan.step_plain quote slash)) rfl⟩
        simp only [quote, slash, if_false]
        exact read

/-! ### Calls -/

/-- What holds where a call is made. -/
def Call.Fits (source : Text.Bytes) : Call → Prop
  | .form place => ∃ c rest, (⟨source, place⟩ : Cursor).Before (c :: rest) ∧
      Text.isSpace c = false ∧ c ≠ ';'
  | .atom place => ∃ c rest, (⟨source, place⟩ : Cursor).Before (c :: rest) ∧
      Token.isDelimiter c = false

/-- Reading by descent ends, with calls that fit and a result that is to be expected after them. -/
def Descent.Ends {α : Type} (source : Text.Bytes) (descent : Descent α)
    (expected : List Call → Except Stop α → Prop) : Prop :=
  ∀ earlier, ∃ result calls, descent.run.run earlier = some (result, calls ++ earlier) ∧
    (∀ call ∈ calls, call.Fits source) ∧ expected calls result

namespace Descent

variable {α β : Type} {source : Text.Bytes} {expected : List Call → Except Stop α → Prop}
  {wanted : List Call → Except Stop β → Prop} {descent : Descent α} {further : α → Descent β}

/-- A result is given without calls. -/
theorem ends_pure {a : α} (fine : expected [] (.ok a)) :
    Ends source (pure a : Descent α) expected :=
  fun _ => ⟨.ok a, [], rfl, nofun, fine⟩

/-- Reading is given up without calls. -/
theorem ends_throw {stop : Stop} (fine : expected [] (.error stop)) :
    Ends source (throw stop : Descent α) expected :=
  fun _ => ⟨.error stop, [], rfl, nofun, fine⟩

/-- What ends without calls ends. -/
theorem ends_loop {result : Except Stop α} (fine : expected [] result) :
    Ends source (.loop (some result)) expected :=
  fun _ => ⟨result, [], rfl, nofun, fine⟩

/-- Reading goes on from what has been read. -/
theorem Ends.bind (ends : Ends source descent expected)
    (ok : ∀ a calls, expected calls (.ok a) →
      Ends source (further a) fun more => wanted (more ++ calls))
    (error : ∀ stop calls, expected calls (.error stop) → wanted calls (.error stop)) :
    Ends source (descent >>= further) wanted := by
  intro earlier
  obtain ⟨result, calls, ran, fit, fine⟩ := ends earlier
  -- Calls that have been made stay made, whether or not anything follows.
  cases result with
  | error stop =>
    refine ⟨.error stop, calls, ?_, fit, error stop calls fine⟩
    rw [ExceptT.run_bind, StateT.run_bind, ran]
    rfl
  | ok a =>
    -- What the second part calls comes after the calls of the first.
    obtain ⟨result, more, later, fit', fine'⟩ := ok a calls fine (calls ++ earlier)
    refine ⟨result, more ++ calls, ?_, ?_, fine'⟩
    · rw [ExceptT.run_bind, StateT.run_bind, ran, List.append_assoc]
      exact later
    · intro call member
      rcases List.mem_append.mp member with new | old
      · exact fit' call new
      · exact fit call old

/-- A call that fits is recorded before what it begins. -/
theorem ends_record {call : Call} {begins : Descent β} (fits : call.Fits source)
    (ends : Ends source begins fun calls => wanted (calls ++ [call])) :
    Ends source (record call >>= fun _ => begins) wanted := by
  have recorded : Ends source (record call) fun calls result => calls = [call] ∧ result = .ok () :=
    fun _ => ⟨.ok (), [call], rfl, by simpa using fits, rfl, rfl⟩
  apply recorded.bind
  · rintro _ _ ⟨rfl, _⟩
    exact ends
  · rintro _ _ ⟨_, ⟨⟩⟩

/-- A result that is expected after some calls may be described otherwise. -/
theorem Ends.mono {wider : List Call → Except Stop α → Prop} (ends : Ends source descent expected)
    (wide : ∀ calls result, expected calls result → wider calls result) :
    Ends source descent wider := by
  intro earlier
  obtain ⟨result, calls, ran, fit, fine⟩ := ends earlier
  exact ⟨result, calls, ran, fit, wide calls result fine⟩

/-- What has been read without calls is gone on from. -/
theorem loop_ok_bind {a : α} : loop (some (.ok a)) >>= further = further a :=
  rfl

/-- What is wrong in reading without calls is passed on. -/
theorem loop_error_bind {stop : Stop} :
    loop (some (.error stop)) >>= further = (throw stop : Descent β) :=
  rfl

end Descent

/-! ### Forms -/

/-- A form of which nothing has been read. -/
def gap (here : Cursor) : Entry where
  begun := [here.place]
  scan opened forms := ⟨here.place, opened, forms, .gap⟩

/-- A list of which some has been read, given its kind, its place and the forms in it so far. -/
def inside (here : Cursor) (kind : ListKind) (start : Position) (before : List Form) : Entry where
  begun := start :: (Form.nodesAll before.reverse).map Form.position
  scan opened forms := ⟨here.place, ⟨start, kind, forms⟩ :: opened, before, .gap⟩

/-- The reader compares with two characters to tell whether a bracket closes a list. -/
theorem closer_iff : (c = ')' || c = '\x7d' : Bool) = true ↔ ∃ kind : ListKind, c = kind.closer := by
  simp only [Bool.or_eq_true, decide_eq_true_eq]
  constructor
  · rintro (rfl | rfl)
    · exact ⟨.sexpr, rfl⟩
    · exact ⟨.qexpr, rfl⟩
  · rintro ⟨kind, rfl⟩
    cases kind <;> simp [ListKind.closer]

/-- A token that begins with no delimiter has that character at least. -/
theorem readToken_word (before : here.Before (c :: rest)) (inner : Token.isDelimiter c = false) :
    ∃ word left, c :: rest = word ++ left ∧ word ≠ [] ∧
      here.readToken [] = some (word, here.past word) ∧
      (∀ d ∈ word, ¬ Token.isDelimiter d) ∧ EndsToken left := by
  obtain ⟨word, left, chars, token, inside, ends⟩ := readToken_ends before []
  refine ⟨word, left, chars, ?_, token, inside, ends⟩
  -- Otherwise the first character would be what ends the token.
  rintro rfl
  rw [List.nil_append] at chars
  rw [← chars, endsToken_cons, inner] at ends
  cases ends

/-- A token that begins with no delimiter is read as the atom that it means. -/
theorem readAtom_ends (before : here.Before (c :: rest)) (inner : Token.isDelimiter c = false) :
    ∃ found, here.readAtom = some found ∧
      here.Yields (c :: rest) here.gap [.atom here.place] (.ok found) := by
  -- The word goes up to the next delimiter, and is classified whatever is in it.
  obtain ⟨word, left, chars, some, token, inside, ends⟩ := readToken_word before inner
  refine ⟨(.atom here.place (Token.classify here.place word), here.past word), ?_,
    ⟨word, left, chars, some, rfl, ?_⟩, rfl⟩
  · rw [readAtom, token]
    rfl
  · intro opened forms
    rw [chars, gap, Scan.conclude_append (Scan.run_word some inside), ← Scan.conclude_endToken ends]
    simp only [Scan.endToken, Scan.push, List.reverse_reverse, past]

/-- A form is read to its end if lists are that begin where it does. -/
theorem readForm_ends (before : here.Before (c :: rest)) (solid : Text.isSpace c = false)
    (code : c ≠ ';') (proper : ∀ kind : ListKind, c ≠ kind.closer)
    (lists : ∀ kind, Descent.Ends here.source ((here.past [c]).readList kind here.place [])
      ((here.past [c]).Yields rest ((here.past [c]).inside kind here.place []))) :
    Descent.Ends here.source here.readForm (here.Yields (c :: rest) here.gap) := by
  have later : (here.past [c]).Before rest := before.next
  rw [readForm, before.readChar_cons]
  -- The first character tells which kind of form this is.
  -- A bracket opens a list, whose first character it is.
  by_cases round : c = '('
  · subst round
    exact (lists .sexpr).mono fun _ _ yields =>
      Yields.prepend ['('] yields (fun _ _ => Scan.conclude_cons rfl) rfl
  by_cases curly : c = '\x7b'
  · subst curly
    exact (lists .qexpr).mono fun _ _ yields =>
      Yields.prepend ['\x7b'] yields (fun _ _ => Scan.conclude_cons rfl) rfl
  -- A quotation mark begins a string, which calls nothing.
  by_cases quote : c = '"'
  · subst quote
    obtain ⟨result, read, yields⟩ := readString_ends later here.place [] none
    simp only [read]
    exact Descent.ends_loop
      (Yields.prepend ['"'] yields (fun _ _ => Scan.conclude_cons rfl) rfl)
  · -- None of the characters that delimit tokens is left.
    have closers : (c = ')' || c = '\x7d' : Bool) = false := by
      rw [Bool.eq_false_iff, ne_eq, closer_iff]
      rintro ⟨kind, same⟩
      exact proper kind same
    have inner : Token.isDelimiter c = false := by
      simp only [Bool.or_eq_false_iff] at closers
      simp [Token.isDelimiter, *]
    -- So the character begins an atom, and the call that reads it is recorded.
    obtain ⟨found, atom, yields⟩ := readAtom_ends before inner
    have fits : (Call.atom here.place).Fits here.source := ⟨c, rest, before, inner⟩
    simp only [round, curly, closers, quote, atom, if_false, Bool.false_eq_true]
    exact Descent.ends_record fits (Descent.ends_loop yields)

/-- After layout and a form fewer characters are left. -/
theorem length_left_lt {layout left : List Char} (some : first ≠ []) (same : chars = first ++ left) :
    left.length < (layout ++ chars).length := by
  have positive := List.length_pos_iff.mpr some
  rw [same, List.length_append, List.length_append]
  omega

/-- The rest of a list is read past its bracket, or to the end of the text. -/
theorem readList_ends (before : here.Before chars) (kind : ListKind) (start : Position)
    (children : List Form) : Descent.Ends here.source (here.readList kind start children)
      (here.Yields chars (here.inside kind start children)) := by
  -- By induction on how many characters are left; a child takes at least one of them.
  induction size : chars.length using Nat.strongRecOn generalizing here chars kind start children with
  | ind count ih =>
    subst size
    -- White space and comments before a child are skipped first.
    obtain ⟨layout, rest, rfl, ends⟩ := skipLayout_ends before
    have there : (here.past layout).Before rest := before.past
    have cleared {calls result} (yields : (here.past layout).Yields rest
        ((here.past layout).inside kind start children) calls result) :
        -- What comes before a form changes nothing but the places.
        here.Yields (layout ++ rest) (here.inside kind start children) calls result :=
      yields.prepend layout (fun _ _ => ends.clears _ _) rfl
    rw [readList]
    -- A byte in the layout that is no part of a character ends the reading.
    rcases ends.outcome with ⟨rfl, malformed, skipped⟩ | ⟨ended, skipped⟩
    · rw [skipped, Descent.loop_error_bind]
      exact Descent.ends_throw (cleared (Yields.byte malformed fun _ _ => rfl))
    rw [skipped, Descent.loop_ok_bind]
    -- There is no form without a character, so a text that ends here leaves the list open.
    cases rest with
    | nil =>
      rw [there.readChar_end (ended rfl)]
      exact Descent.ends_throw (cleared (Yields.ended (ended rfl) fun _ _ => rfl))
    | cons c more =>
      rw [there.readChar_cons]
      obtain ⟨solid, code⟩ := ends.begins c rfl
      -- A closing bracket of the same kind ends the list.
      by_cases closes : c = kind.closer
      · subst closes
        simp only [if_true]
        exact Descent.ends_pure (cleared (Yields.single
          (fun _ forms => Scan.step_close ⟨start, kind, forms⟩) rfl))
      -- A closing bracket is that of this list, or of another kind, which is an error.
      cases other : (c = ')' || c = '\x7d' : Bool) with
      | true =>
        obtain ⟨second, rfl⟩ := closer_iff.mp other
        simp only [closes, other, if_true, if_false]
        have unlike : kind ≠ second := fun same => closes (congrArg ListKind.closer same.symm)
        exact Descent.ends_throw (cleared ⟨_, rfl, fun opened forms =>
          Scan.conclude_cons_error (Scan.step_mismatch ⟨start, kind, forms⟩ unlike)⟩)
      | false =>
        have proper : ∀ kind : ListKind, c ≠ kind.closer := by
          intro second same
          rw [closer_iff.mpr ⟨second, same⟩] at other
          cases other
        have shorter : more.length < (layout ++ c :: more).length := by
          rw [List.length_append, List.length_cons]
          omega
        -- A list that is a child begins after this one, so there is less of the text left for it.
        have child := readForm_ends there solid code proper fun second =>
          ih _ shorter there.next second _ [] rfl
        -- The call for the child is recorded, and it starts at a character that begins a form.
        have fits : (Call.form (here.past layout).place).Fits here.source :=
          ⟨c, more, there, solid, code⟩
        simp only [closes, other, if_false, Bool.false_eq_true]
        refine Descent.ends_record fits (child.bind ?_ ?_)
        · -- The rest of the list is read after the child.
          rintro ⟨form, next⟩ earlier ⟨⟨first, left, same, some, rfl, concluded⟩, places⟩
          have fewer : left.length < (layout ++ c :: more).length := length_left_lt some same
          rw [same] at there concluded cleared ⊢
          have rest := ih _ fewer there.past kind start (form :: children) rfl
          refine rest.mono fun calls result yields => cleared (yields.prepend first ?_ ?_)
          · exact fun _ _ => concluded _ _
          · exact congrArg (start :: ·) (places_further places)
        -- An error in the child ends the reading of the list as well.
        · rintro stop _ ⟨e, rfl, stuck⟩
          exact cleared ⟨e, rfl, fun _ _ => stuck _ _⟩

/-- A form that no closing bracket begins is read to its end. -/
theorem form_ends (before : here.Before (c :: rest)) (solid : Text.isSpace c = false) (code : c ≠ ';')
    (proper : ∀ kind : ListKind, c ≠ kind.closer) :
    Descent.Ends here.source here.readForm (here.Yields (c :: rest) here.gap) :=
  readForm_ends before solid code proper fun kind => readList_ends before.next kind here.place []

/-- No form begins with a closing bracket. -/
theorem readForm_closer (before : here.Before (kind.closer :: rest)) :
    here.readForm = throw (.fault ⟨here.place, .unexpectedCloser kind.closer⟩) := by
  rw [readForm, before.readChar_cons]
  cases kind <;> rfl

/--
The rest of a text is read to its end, as the reader that goes character by character concludes it, and
its forms are those that the calls begin.
-/
theorem readForms_ends (before : here.Before chars) (forms : List Form) :
    Descent.Ends here.source (here.readForms forms) fun calls result =>
      result = ((here.gap.scan [] forms).conclude ⟨chars, here.whole⟩).mapError .fault ∧
      ∀ all, result = .ok all → (Form.nodesAll all).map Form.position =
        (Form.nodesAll forms.reverse).map Form.position ++ formPlaces calls := by
  -- By induction on how many characters are left; a form takes at least one of them.
  induction size : chars.length using Nat.strongRecOn generalizing here chars forms with
  | ind count ih =>
    subst size
    -- White space and comments before a form are skipped first.
    obtain ⟨layout, rest, rfl, ends⟩ := skipLayout_ends before
    have there : (here.past layout).Before rest := before.past
    have cleared : (here.gap.scan [] forms).conclude ⟨layout ++ rest, here.whole⟩ =
        ((here.past layout).gap.scan [] forms).conclude ⟨rest, here.whole⟩ := ends.clears [] forms
    rw [readForms, cleared]
    rcases ends.outcome with ⟨rfl, malformed, skipped⟩ | ⟨ended, skipped⟩
    · rw [skipped, Descent.loop_error_bind, malformed, Scan.conclude_byte]
      exact Descent.ends_throw ⟨rfl, nofun⟩
    rw [skipped, Descent.loop_ok_bind]
    cases rest with
    | nil =>
      rw [if_pos (there.ended (ended rfl)), ended rfl]
      -- The forms are those that were read before, in the order of the text.
      refine Descent.ends_pure ⟨rfl, ?_⟩
      rintro all ⟨⟩
      exact (List.append_nil _).symm
    -- A character is left that begins a form, so there is a call for it.
    | cons c more =>
      have left : (here.past layout).atEnd = false := there.atEnd (.inl (by simp))
      obtain ⟨solid, code⟩ := ends.begins c rfl
      have fits : (Call.form (here.past layout).place).Fits here.source :=
        ⟨c, more, there, solid, code⟩
      simp only [left, if_false, Bool.false_eq_true]
      refine Descent.ends_record fits ?_
      -- A closing bracket closes nothing here; anything else begins a form.
      by_cases closes : ∃ kind : ListKind, c = kind.closer
      · obtain ⟨kind, rfl⟩ := closes
        rw [readForm_closer there, gap, Scan.conclude_cons_error (Scan.step_unexpected kind)]
        exact Descent.ends_throw ⟨rfl, nofun⟩
      · refine (form_ends there solid code fun kind same => closes ⟨kind, same⟩).bind ?_ ?_
        · -- The rest of the text is read after the form.
          rintro ⟨form, next⟩ earlier ⟨⟨first, left, same, some, rfl, concluded⟩, places⟩
          -- The form ends before the text does, and less of it is left after the form.
          have fewer : left.length < (layout ++ c :: more).length := length_left_lt some same
          rw [same] at there concluded ⊢
          refine (ih _ fewer there.past (form :: forms) rfl).mono fun calls result ⟨outcome, begun⟩ => ?_
          refine ⟨?_, fun all read => ?_⟩
          · rw [outcome]
            exact congrArg (Except.mapError Stop.fault) (concluded [] forms).symm
          · rw [begun all read]
            exact places_further places
        -- An error in the form ends the reading of the text.
        · rintro stop _ ⟨e, rfl, stuck⟩
          exact ⟨congrArg (Except.mapError Stop.fault) (stuck [] forms).symm, nofun⟩

/--
Reading by descent comes to what reading character by character comes to, and what it reads are the forms
that it begins.
-/
theorem parse_eq (source : Text.Bytes) : ∃ calls, (∀ call ∈ calls, call.Fits source) ∧
    parse source = some ((Form.parse source).mapError .fault, calls) ∧
    ∀ forms, (Form.parse source).mapError Stop.fault = .ok forms →
      (Form.nodesAll forms).map Form.position = formPlaces calls := by
  obtain ⟨result, calls, ran, fit, rfl, begun⟩ := readForms_ends (before_start source) [] []
  rw [List.append_nil] at ran
  exact ⟨calls, fit, ran, begun⟩

/-- A byte that ends a comment without a newline is found when the list around the comment is read on. -/
example : ∃ calls, parse (Text.encode "(a ;b" ++ [0xFF]) =
    some (.error (.fault ⟨⟨5, 1, 6⟩, .invalidByte 5⟩), calls) := by
  obtain ⟨calls, _, parsed, _⟩ := parse_eq (Text.encode "(a ;b" ++ [0xFF])
  exact ⟨calls, parsed⟩

end QLisp.Cursor
