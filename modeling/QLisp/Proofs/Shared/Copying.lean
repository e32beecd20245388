import QLisp.Proofs.Shared.Equality
import QLisp.Proofs.Shared.Within

/-!
A copy has nothing in common with what it was made from.

A copy of a value that is not part of itself stands for the same value, in fresh containers each of
which is reached along one path. Commands change no container that cannot be reached from the
registers that they name, so what is done to either of the two does not show in the other.
-/

namespace QLisp.Shared

namespace Heap

variable {h h' : Heap} {v w : Handle} {c : CellId}

/-- A container can be come by from a handle, also by way of slots that hold no element now. -/
inductive Reaches (h : Heap) (v : Handle) : CellId → Prop where
  /-- A container that the handle names. -/
  | named {c : CellId} (member : c ∈ v.cells) : Reaches h v c
  /-- A container that is named in a slot of one that can be come by. -/
  | slot {c c' : CellId} {w : Handle} (outer : Reaches h v c) (held : w ∈ (h.container c).slots)
      (member : c' ∈ w.cells) : Reaches h v c'

/-- What can be come by from what a handle comes by, the handle comes by as well. -/
theorem Reaches.trans (named : ∀ c ∈ w.cells, h.Reaches v c) (reaches : h.Reaches w c) :
    h.Reaches v c := by
  induction reaches with
  | named member => exact named _ member
  | slot _ held member outer => exact .slot outer held member

/-- Every container on the way down from a handle can be come by. -/
theorem LeadsTo.reaches {path : List Turn} (leads : h.LeadsTo v path c) : h.Reaches v c := by
  -- By induction on the path; each turn goes into a part of the handle that is reached.
  induction path generalizing v with
  -- A list leads to its own container.
  | nil =>
    obtain ⟨kind, here⟩ := leads
    cases here
    exact .named (List.mem_singleton_self c)
  | cons turn path ih =>
    cases v with
    | lambda formals body scope =>
      rcases leadsTo_lambda.mp leads with ⟨_, same, inner⟩ | ⟨_, same, inner⟩ <;> cases same
      · exact (ih inner).trans fun c member => .named (List.mem_append_left _ member)
      · exact (ih inner).trans fun c member => .named (List.mem_append_right _ member)
    | list kind id =>
      -- An element is held in the container of the list, which is come by first.
      rcases leadsTo_list.mp leads with ⟨same, _⟩ | ⟨_, part, _, same, found, inner⟩ <;> cases same
      have held := Container.mem_slots_of_mem_items (List.mem_of_getElem? found)
      exact (ih inner).trans fun c member => .slot (.named (List.mem_singleton_self id)) held member
    | _ => simp [LeadsTo, follow?, part?] at leads

/-- Where containers are kept, no more can be come by from a handle on made ones than before. -/
theorem Reaches.of_keeps (kept : h.Keeps h') (made : ∀ c, h.Reaches v c → h.Made c)
    (reaches : h'.Reaches v c) : h.Reaches v c := by
  induction reaches with
  | named member => exact .named member
  | slot _ held member outer =>
    rw [kept.container _ (made _ outer)] at held
    exact .slot outer held member

/-- Where containers are kept, a handle on made ones leads nowhere else than before. -/
theorem LeadsTo.of_keeps {path : List Turn} (kept : h.Keeps h')
    (made : ∀ path c, h.LeadsTo v path c → h.Made c) (leads : h'.LeadsTo v path c) :
    h.LeadsTo v path c := by
  -- By induction on the path; what is entered has been made, so it holds what it held.
  induction path generalizing v with
  -- A container that exists before is what it was, so nothing further is followed.
  | nil => exact leads
  | cons turn path ih =>
    cases v with
    | lambda formals body scope =>
      rcases leadsTo_lambda.mp leads with ⟨_, same, inner⟩ | ⟨_, same, inner⟩ <;> cases same
      · refine leadsTo_lambda.mpr (.inl ⟨path, rfl, ih (fun path c inner => ?_) inner⟩)
        exact made (.formals :: path) c (leadsTo_lambda.mpr (.inl ⟨path, rfl, inner⟩))
      · refine leadsTo_lambda.mpr (.inr ⟨path, rfl, ih (fun path c inner => ?_) inner⟩)
        exact made (.body :: path) c (leadsTo_lambda.mpr (.inr ⟨path, rfl, inner⟩))
    | list kind id =>
      -- The elements of the list are what they were.
      rcases leadsTo_list.mp leads with ⟨same, _⟩ | ⟨index, part, _, same, found, inner⟩ <;> cases same
      have there : h.Made id := made [] id ⟨kind, rfl⟩
      rw [items, kept.container id there] at found
      refine leadsTo_list.mpr (.inr ⟨index, part, path, rfl, found, ih (fun path c inner => ?_) inner⟩)
      exact made (.item index :: path) c
        (leadsTo_list.mpr (.inr ⟨index, part, path, rfl, found, inner⟩))
    | _ => simp [LeadsTo, follow?, part?] at leads

/--
A handle in a later heap is a copy of a handle: it stands for the same value, in containers of its own.

The containers are those on the way down through the elements of lists and the formals and bodies of
functions. Functions have no storage but that of their parts.
-/
structure Copied (h : Heap) (v : Handle) (h' : Heap) (w : Handle) : Prop where
  /-- Every way down from the copy ends. -/
  ends : h'.ends w
  /-- The copy stands for the value that was copied. -/
  view : h'.view w = h.view v
  /-- Every container that the copy leads to has been made since. -/
  fresh (path : List Turn) (c : CellId) : h'.LeadsTo w path c → h'.Made c ∧ ¬ h.Made c
  /-- No container is reached from the copy along two paths. -/
  once (path path' : List Turn) (c : CellId) :
    h'.LeadsTo w path c → h'.LeadsTo w path' c → path = path'
  /-- The containers that were there have not been changed. -/
  kept : h.Keeps h'

end Heap

variable {h : Heap} {kept : CellId → Prop} {known : ScopeId → Prop} {v : Handle} {c : CellId}

/-- No container that is kept apart can be come by from a handle outside. -/
theorem Apart.reaches (apart : Apart kept known h) (out : Outside kept known h v)
    (reaches : h.Reaches v c) : h.Made c ∧ ¬ kept c := by
  induction reaches with
  | named member => exact out.cells _ member
  | slot _ held member outer => exact (apart.slots _ outer.1 outer.2 _ held).cells _ member

/-- From a value that has been placed, only containers made for it can be come by. -/
theorem Heap.reaches_place (t : Value) (reaches : (h.place t).2.Reaches (h.place t).1 c) :
    (h.place t).2.Made c ∧ ¬ h.Made c := by
  -- Whatever was there before is kept apart from what is placed.
  have apart : Apart h.Made (fun _ => True) h :=
    ⟨fun _ made => made, fun _ made free => absurd made free⟩
  have captures : t.Obeys (.captures fun _ => True) := t.obeys_of_all fun _ _ _ _ _ => trivial
  obtain ⟨next, out⟩ := apart.place t captures
  exact next.apart.reaches out reaches

/-- A value that is not part of itself is copied. -/
theorem ListOp.copy_copied (acyclic : h.Acyclic v) :
    copy v h = .ok (h.place (h.view v)).1 (h.place (h.view v)).2 ∧
      h.Copied v (h.place (h.view v)).2 (h.place (h.view v)).1 := by
  -- What is placed stands on fresh containers without repetition.
  obtain ⟨_, ids, holds, distinct, fresh⟩ := exists_placed h (h.view v)
  refine ⟨(copy_run v h).trans (if_pos acyclic.ends), ?_⟩
  exact {
    ends := holds.ends distinct fun c member => (fresh c member).2
    view := Heap.view_place h (h.view v)
    fresh := fun path c leads => (fresh c (holds.mem_of_leadsTo leads)).symm
    once := fun path path' c leads leads' => holds.path_unique distinct leads leads'
    kept := h.keeps_place (h.view v) }

/-- Where some containers are left alone, one heap comes from the other by editing none of them. -/
theorem Edits.of_frozen {h' : Heap} (size : h.containers.size ≤ h'.containers.size)
    (frozen : ∀ c, kept c → h'.container c = h.container c) :
    ∃ ids, Edits ids h h' ∧ ∀ c, kept c → c ∉ ids := by
  -- The containers that may have been edited are listed: all that had been made and are not kept.
  classical
  refine ⟨((List.range h.containers.size).map CellId.mk).filter fun c => ¬ kept c,
    ⟨size, fun c made outside => frozen c ?_⟩, fun c held member => ?_⟩
  · -- A container that has been made is kept or listed.
    by_contra free
    refine outside (List.mem_filter.mpr ⟨List.mem_map.mpr ⟨c.index, ?_, rfl⟩, by simpa using free⟩)
    exact List.mem_range.mpr made
  · have free := (List.mem_filter.mp member).2
    simp [held] at free

namespace Host

variable {host : Host} {mine : String → Prop}

/-- A container that cannot be come by from given registers. -/
def Beyond (mine : String → Prop) (host : Host) (c : CellId) : Prop :=
  host.machine.heap.Made c ∧
    ∀ name, mine name → ¬ host.machine.heap.Reaches (host.register name) c

/-- What is kept apart from all registers is beyond given ones. -/
theorem Secure.beyond_of_kept (secure : host.Secure kept) (held : kept c) : host.Beyond mine c :=
  ⟨secure.isolated.apart.made c held, fun name _ reaches =>
    (secure.isolated.apart.reaches (secure.registers name) reaches).2 held⟩

/-- What is not beyond given registers can be come by from one of them. -/
theorem exists_reaches {c : CellId} (made : host.machine.heap.Made c) (near : ¬ host.Beyond mine c) :
    ∃ name, mine name ∧ host.machine.heap.Reaches (host.register name) c := by
  by_contra unreached
  exact near ⟨made, fun name own reaches => unreached ⟨name, own, reaches⟩⟩

/-- Bindings stay isolated when all that is beyond given registers is kept apart. -/
theorem Secure.isolated_beyond (secure : host.Secure kept) :
    Isolated (host.Beyond mine) host.machine where
  apart := by
    refine ⟨fun c beyond => beyond.1, fun c made near v held => ?_⟩
    -- What is named in a container that can be come by can be come by as well.
    obtain ⟨name, own, reaches⟩ := exists_reaches made near
    have free := (secure.isolated.apart.reaches (secure.registers name) reaches).2
    have out := secure.isolated.apart.slots c made free v held
    refine ⟨fun c' member => ⟨(out.cells c' member).1, fun beyond => ?_⟩, out.scopes⟩
    exact beyond.2 name own (.slot reaches held member)
  -- The scopes are those of the host, and their order does not depend on registers.
  global := secure.isolated.global
  ordered := secure.isolated.ordered
  -- What a scope owns cannot be come by from a register.
  owned := fun id name v bound => by
    obtain ⟨t, ids, holds, distinct, held⟩ := secure.isolated.owned id name v bound
    exact ⟨t, ids, holds, distinct, fun c member => secure.beyond_of_kept (held c member)⟩
  separate := secure.isolated.separate

/-- A host with nothing in other registers than given ones may keep apart all that is beyond these. -/
theorem Secure.alike (secure : host.Secure kept) {host' : Host} (alike : Alike mine host host')
    (empty : ∀ name, ¬ mine name → host'.register name = .none) :
    host'.Secure (host.Beyond mine) where
  isolated := by
    rw [alike.machine]
    exact secure.isolated_beyond
  registers name := by
    rw [alike.machine]
    -- A register is one of the given ones or holds nothing.
    by_cases own : mine name
    · rw [alike.registers name own]
      have loose := secure.registers name
      refine ⟨fun c member => ⟨(loose.cells c member).1, fun beyond => ?_⟩, loose.scopes⟩
      exact beyond.2 name own (.named member)
    · rw [empty name own]
      exact outside_none
  scopes name id held := by
    rw [alike.machine]
    refine secure.scopes name id ?_
    rw [scope?, ← alike.scopes]
    exact held

/-- Commands change no container that cannot be come by from the registers that they name. -/
theorem Secure.run_beyond (secure : host.Secure kept) {commands : List Command}
    (within : ∀ command ∈ commands, ∀ name ∈ command.registers, mine name) :
    host.machine.heap.containers.size ≤ (host.run commands).machine.heap.containers.size ∧
      ∀ c, host.Beyond mine c →
        (host.run commands).machine.heap.container c = host.machine.heap.container c := by
  -- The commands do the same on a host that holds nothing else.
  obtain ⟨host', alike, empty⟩ := exists_alike mine host
  obtain ⟨kept', step⟩ := (secure.alike alike empty).run commands
  have ran := alike.run within
  rw [← ran.machine, ← alike.machine]
  exact ⟨step.machine.size, step.machine.frozen⟩

/--
Commands leave what a handle stands for when the registers that they name do not come by it.

This holds for every handle, whether or not it is in a register.
-/
theorem Secure.view_beyond (secure : host.Secure kept) {commands : List Command}
    (within : ∀ command ∈ commands, ∀ name ∈ command.registers, mine name) {v : Handle}
    (ends : host.machine.heap.ends v)
    (beyond : ∀ path c, host.machine.heap.LeadsTo v path c → host.Beyond mine c) :
    (host.run commands).machine.heap.ends v ∧
      (host.run commands).machine.heap.view v = host.machine.heap.view v := by
  obtain ⟨size, frozen⟩ := secure.run_beyond within
  obtain ⟨ids, edits, untouched⟩ := Edits.of_frozen size frozen
  exact edits.view ends fun path c leads =>
    ⟨(beyond path c leads).1, untouched c (beyond path c leads)⟩

/-- Copying a register places its value anew, in another register. -/
theorem after_copy {source target : String} (kept : target ≠ "")
    (acyclic : host.machine.heap.Acyclic (host.register source)) :
    let placed := host.machine.heap.place (host.machine.heap.view (host.register source))
    host.after (.make target (.copy source)) = { host with
      machine := { host.machine with heap := placed.2 }
      registers := host.registers.insert target placed.1 } := by
  intro placed
  -- Copying views the value and places it anew.
  have copied : (liftM (ListOp.copy (host.register source)) : Act Handle) host.machine =
      .ok placed.1 { host.machine with heap := placed.2 } :=
    Act.lift_ok (ListOp.copy_copied acyclic).1
  have ran : HostM.make (.copy source) host =
      .ok placed.1 { host with machine := { host.machine with heap := placed.2 } } := by
    show HostM.onMachine (liftM (ListOp.copy (host.register source))) host = _
    simp only [HostM.onMachine, copied]
  rw [after_make, ran]
  simp only [kept, if_false]

/-- What copying a register leaves: the copy in its register, and everything else as it was. -/
structure CopiedInto (host : Host) (source target : String) (copied : Host) : Prop where
  /-- The register of the copy holds a copy. -/
  copy : host.machine.heap.Copied (host.register source) copied.machine.heap
    (copied.register target)
  /-- Only what has been made for the copy can be come by from it. -/
  own (c : CellId) : copied.machine.heap.Reaches (copied.register target) c →
    ¬ host.machine.heap.Made c
  /-- The scopes and what they bind are as they were. -/
  world : copied.machine.world = host.machine.world
  /-- The other registers hold what they did. -/
  others (name : String) : name ≠ target → copied.register name = host.register name

/-- Copying a register leaves the copy in another one. -/
theorem copiedInto {source target : String} (kept : target ≠ "")
    (acyclic : host.machine.heap.Acyclic (host.register source)) :
    CopiedInto host source target (host.after (.make target (.copy source))) := by
  rw [after_copy kept acyclic]
  -- The copy is read back from the register in which it was put.
  have held : ({ host with
      machine := { host.machine with
        heap := (host.machine.heap.place (host.machine.heap.view (host.register source))).2 }
      registers := host.registers.insert target
        (host.machine.heap.place (host.machine.heap.view (host.register source))).1 } : Host).register
          target = (host.machine.heap.place (host.machine.heap.view (host.register source))).1 := by
    simp [register]
  -- The copy looks the same, it holds new containers only, and other registers are as before.
  refine ⟨?_, fun c reaches => ?_, rfl, fun name other => ?_⟩
  · rw [held]
    exact (ListOp.copy_copied acyclic).2
  · rw [held] at reaches
    exact (Heap.reaches_place _ reaches).2
  · simp [register, Std.TreeMap.getD_insert, Ne.symm other]

/-- From another register than that of the copy no more can be come by than before. -/
theorem CopiedInto.reaches {source target : String} {copied : Host}
    (made : CopiedInto host source target copied) (secure : host.Secure kept) {name : String}
    (other : name ≠ target) {c : CellId}
    (reaches : copied.machine.heap.Reaches (copied.register name) c) :
    host.machine.heap.Reaches (host.register name) c := by
  rw [made.others name other] at reaches
  exact reaches.of_keeps made.copy.kept fun c reaches =>
    (secure.isolated.apart.reaches (secure.registers name) reaches).1

/--
A copy is deep, in fresh storage, and separate from what was copied.

In any heap, copying a value that is not part of itself succeeds, however its containers are shared:
the copy stands for the same value, in containers that have been made for it and that are each reached
along one path. When an embedding program copies a register, the scopes and the other registers stay
as they are. Afterwards commands that do not name the copy, whatever lists they change and whatever
they evaluate, leave what it stands for. Conversely, commands that name the copy, and otherwise only
registers from which no container of the original could be come by, leave what the original stands for.
-/
theorem copies_deep_and_separate :
    (∀ (h : Heap) (v : Handle), h.Acyclic v →
      ∃ w h', ListOp.copy v h = .ok w h' ∧ h.Copied v h' w) ∧
    ∀ (host : Host) (source target : String), host.Reachable → target ≠ "" →
      host.machine.heap.Acyclic (host.register source) →
      let copied := host.after (.make target (.copy source))
      host.machine.heap.Copied (host.register source) copied.machine.heap (copied.register target) ∧
      copied.machine.world = host.machine.world ∧
      (∀ name, name ≠ target → copied.register name = host.register name) ∧
      (∀ commands : List Command, (∀ command ∈ commands, target ∉ command.registers) →
        (copied.run commands).register target = copied.register target ∧
        (copied.run commands).machine.heap.ends (copied.register target) ∧
        (copied.run commands).machine.heap.view (copied.register target) =
          host.machine.heap.view (host.register source)) ∧
      ∀ (mine : String → Prop) (commands : List Command),
        (∀ name, mine name → name ≠ target →
          ∀ path c, host.machine.heap.LeadsTo (host.register source) path c →
            ¬ host.machine.heap.Reaches (host.register name) c) →
        (∀ command ∈ commands, ∀ name ∈ command.registers, mine name) →
        (copied.run commands).machine.heap.ends (host.register source) ∧
        (copied.run commands).machine.heap.view (host.register source) =
          host.machine.heap.view (host.register source) := by
  refine ⟨fun h v acyclic => ⟨_, _, ListOp.copy_copied acyclic⟩, ?_⟩
  intro host source target reachable named acyclic copied
  obtain ⟨kept, secure⟩ := reachable.secure
  obtain ⟨kept', secure'⟩ := (reachable.after (.make target (.copy source))).secure
  have made : CopiedInto host source target copied := copiedInto named acyclic
  -- The copy is separate in both directions, which are looked at one after the other.
  refine ⟨made.copy, made.world, made.others, ?_, ?_⟩
  · -- The containers of the copy are new, so no other register comes by them.
    intro commands unnamed
    -- The commands do not write in the register of the copy.
    have within : ∀ command ∈ commands, ∀ name ∈ command.registers, name ≠ target :=
      fun command member name inside same => unnamed command member (same ▸ inside)
    have beyond : ∀ path c, copied.machine.heap.LeadsTo (copied.register target) path c →
        copied.Beyond (· ≠ target) c := by
      intro path c leads
      obtain ⟨there, new⟩ := made.copy.fresh path c leads
      refine ⟨there, fun name other reaches => new ?_⟩
      exact (secure.isolated.apart.reaches (secure.registers name)
        (made.reaches secure other reaches)).1
    obtain ⟨ends, viewed⟩ := secure'.view_beyond within made.copy.ends beyond
    exact ⟨register_run unnamed, ends, viewed.trans made.copy.view⟩
  · -- The containers of the original are old, so the copy comes by none of them.
    intro mine commands clear within
    obtain ⟨down, same⟩ := acyclic.view made.copy.kept
    have beyond : ∀ path c, copied.machine.heap.LeadsTo (host.register source) path c →
        copied.Beyond mine c := by
      intro path c leads
      have before := leads.of_keeps made.copy.kept acyclic.made
      have old : host.machine.heap.Made c := acyclic.made path c before
      -- What the copy holds is new, so it holds nothing of the original.
      refine ⟨Nat.lt_of_lt_of_le old made.copy.kept.size, fun name own reaches => ?_⟩
      by_cases written : name = target
      · subst written
        exact made.own c reaches old
      · exact clear name own written path c before (made.reaches secure written reaches)
    obtain ⟨ends, viewed⟩ := secure'.view_beyond within down beyond
    exact ⟨ends, viewed.trans same⟩

/--
The copy of a list that holds one list twice.

It stays what it is when the list is put into its own element, and so does the list when the copy is
put into itself.
-/
theorem copies_deep_and_separate_doubled :
    let host := (start (.initial fun _ => .error .missing)).run
      [.make "a" (.list .qexpr []), .make "x" (.list .qexpr ["a", "a"])]
    let copied := host.after (.make "y" (.copy "x"))
    let pair := Value.qexpr [.qexpr [], .qexpr []]
    (copied.run [.make "a" (.append "a" "x")]).machine.heap.view (copied.register "y") = pair ∧
      (copied.run [.make "y" (.append "y" "y")]).machine.heap.view (host.register "x") = pair := by
  intro host copied pair
  have reachable : host.Reachable := .after (.after (.bare fun _ => .error .missing)
    (.make "a" (.list .qexpr []))) (.make "x" (.list .qexpr ["a", "a"]))
  -- Every container holds only older ones, so none is part of itself.
  have older : ∀ index < host.machine.heap.containers.size, ∀ u ∈ host.machine.heap.items ⟨index⟩,
      ∀ c ∈ u.cells, c.index < index := by decide
  have acyclic : host.machine.heap.Acyclic (host.register "x") :=
    Heap.acyclic_of_older older (by decide)
  have seen : host.machine.heap.view (host.register "x") = pair := rfl
  obtain ⟨_, _, _, copy, original⟩ :=
    copies_deep_and_separate.2 host "x" "y" reachable (by decide) acyclic
  have first := copy [.make "a" (.append "a" "x")] (by simp [Command.registers, Maker.registers])
  have second := original (· = "y") [.make "y" (.append "y" "y")]
    (fun _ own other => absurd own other) (by simp [Command.registers, Maker.registers])
  exact ⟨first.2.2.trans seen, second.2.trans seen⟩

end Host

end QLisp.Shared
