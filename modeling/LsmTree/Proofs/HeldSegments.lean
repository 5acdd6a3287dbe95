import LsmTree.Proofs.LiveCursors

/-!
# Segments that cursors hold

A cursor holds an opened segment from the moment it is made until it asks the segment for an entry and there
is none left. Meanwhile the head over the segment has exactly the entries that the cursor has not passed,
whatever becomes of the engine and of the files:

* **`Merge.Draws`** — a merge that has given some answers, and what it has of one segment, with
  **`Draws.next`** for one answer more;
* **`World.Drawing.run`** — a cursor goes on so through any events;
* **`World.isHeld_act`** — an event makes a cursor hold segments of an open engine at most.
-/

namespace LsmTree

namespace Leaf

@[simp] theorem handles_next (memory : Memory) (leaf : Leaf) :
    ((reader memory).next leaf).2.handles = leaf.handles := by
  cases leaf <;> rfl

theorem eq_segment_of_mem_handles {leaf : Leaf} {handle : Handle} (h : handle ∈ leaf.handles) :
    ∃ cursor, leaf = .segment handle cursor := by
  cases leaf with
  | list entries => cases h
  | table id cursor => cases h
  | segment other cursor => exact ⟨cursor, List.mem_singleton.1 h ▸ rfl⟩

/-- What a leaf over a segment has still to yield depends on no table. -/
theorem pending_of_mem_handles {leaf : Leaf} {handle : Handle} (h : handle ∈ leaf.handles)
    (memory other : Memory) : (reader memory).pending leaf = (reader other).pending leaf := by
  obtain ⟨cursor, rfl⟩ := eq_segment_of_mem_handles h
  rw [pending_reader, pending_reader]
  rfl

end Leaf

namespace Merge

/-! ## Heads over a segment -/

section Heads

variable {σ : Type} {reader : Reader σ}

/-- A source asked for its next entry has none left, or goes on as a head that holds all that it had. -/
theorem head?_eq (reader : Reader σ) (source : σ) :
    head? reader source = none ∧ reader.pending source = [] ∨
      ∃ head, head? reader source = some head ∧ head.source = (reader.next source).2 ∧
        heldBy reader head = reader.pending source := by
  unfold head?
  split
  · next entry rest hnext =>
    have hsome : (reader.next source).1 = some entry := by rw [hnext]
    refine .inr ⟨_, rfl, by rw [hnext], ?_⟩
    rw [reader.pending_of_some hsome, hnext, heldBy]
  · next rest hnext =>
    exact .inl ⟨rfl, reader.pending_of_none (by rw [hnext])⟩

theorem mem_advance {head later : Head σ} (h : later ∈ advance reader head) :
    later.source = (reader.next head.source).2 ∧ heldBy reader head = head.entry :: heldBy reader later := by
  rcases head?_eq reader head.source with ⟨hnone, -⟩ | ⟨next, hsome, hsource, hheld⟩
  · rw [advance, hnone] at h
    cases h
  · rw [advance, hsome] at h
    obtain rfl := List.mem_singleton.1 h
    exact ⟨hsource, by rw [hheld, heldBy]⟩

/-- A head that moves is followed by another one if there is an entry besides the one taken out. -/
theorem exists_mem_advance {head : Head σ} {entry : Entry} (h : entry ∈ heldBy reader head)
    (hne : entry ≠ head.entry) : ∃ later ∈ advance reader head, entry ∈ heldBy reader later := by
  have hmem : entry ∈ reader.pending head.source := (List.mem_cons.1 h).resolve_left hne
  rcases head?_eq reader head.source with ⟨-, hnone⟩ | ⟨next, hsome, -, hheld⟩
  · rw [hnone] at hmem
    cases hmem
  · exact ⟨next, by rw [advance, hsome]; exact List.mem_singleton_self _, hheld ▸ hmem⟩

end Heads

/-! ## What a merge has of a segment -/

variable {bounds : KeyRange} {given : List (Option Entry)} {memory : Memory} {handle : Handle}
  {merge : Merge Leaf}

/-- Of the entries of a segment those that a merge over a range has not passed yet. -/
def Ahead (bounds : KeyRange) (given : List (Option Entry)) (handle : Handle) (entry : Entry) : Prop :=
  entry ∈ handle.segment.entries ∧ bounds.contains entry.key = true ∧ ¬ Passed given entry.key

/-- A merge over a range that has given some answers: its heads over a segment hold all that it has not
passed of it, and there is such a head as long as there is something of that kind. -/
structure Draws (bounds : KeyRange) (given : List (Option Entry)) (handle : Handle)
    (merge : Merge Leaf) : Prop where
  held : ∀ memory, ∀ head ∈ merge.heads, handle ∈ head.source.handles →
    ∀ entry, entry ∈ heldBy (Leaf.reader memory) head ↔ Ahead bounds given handle entry
  present : (∃ entry, Ahead bounds given handle entry) →
    ∃ head ∈ merge.heads, handle ∈ head.source.handles

theorem ahead_concat {answer : Option Entry} {entry : Entry} :
    Ahead bounds (given ++ [answer]) handle entry ↔
      Ahead bounds given handle entry ∧ ∃ yielded, answer = some yielded ∧ yielded.key < entry.key := by
  have hnot : (¬ ∀ yielded, answer = some yielded → ¬ yielded.key < entry.key) ↔
      ∃ yielded, answer = some yielded ∧ yielded.key < entry.key := by
    simp
  rw [Ahead, Ahead, passed_append, not_or, hnot]
  simp only [and_assoc]

/-- The heads over a segment that a step leaves hold all of what is ahead of the entry yielded. -/
theorem Draws.next_some (h : Draws bounds given handle merge) {entry : Entry}
    (hfollows : Follows bounds given memory merge)
    (hnext : (nextLive (Leaf.reader memory) merge.heads).1 = some entry) :
    Draws bounds (given ++ [some entry]) handle ⟨(nextLive (Leaf.reader memory) merge.heads).2⟩ := by
  have hmoves := moves_nextLive_of_some hfollows.ascending hnext
  have hafter := pendings_after_nextLive hfollows.ascending hnext
  have hahead : ∀ {other}, Ahead bounds (given ++ [some entry]) handle other ↔
      Ahead bounds given handle other ∧ entry.key < other.key :=
    ahead_concat.trans (and_congr_right fun _ => by simp)
  -- Heads that move lose the entry taken out only, and no head moves past the entry yielded.
  have hkept : ∀ head ∈ (nextLive (Leaf.reader memory) merge.heads).2, handle ∈ head.source.handles →
      (∀ other ∈ heldBy (Leaf.reader memory) head, Ahead bounds given handle other) ∧
      ∀ other, Ahead bounds given handle other → entry.key < other.key →
        other ∈ heldBy (Leaf.reader memory) head := by
    refine hmoves.forall_mem (fun head hmay hholds later hlater hover => ?_) fun head hmem hover =>
      ⟨fun other => (h.held memory head hmem hover other).1,
        fun other hother _ => (h.held memory head hmem hover other).2 hother⟩
    obtain ⟨hsource, hheld⟩ := mem_advance hlater
    rw [hsource, Leaf.handles_next] at hover
    obtain ⟨hin, hall⟩ := hholds hover
    rw [hheld] at hin hall
    refine ⟨fun other hother => hin other (List.mem_cons_of_mem _ hother), fun other hother hlt => ?_⟩
    exact (List.mem_cons.1 (hall other hother hlt)).resolve_left fun hsame => hmay (hsame ▸ hlt)
  constructor
  · intro memory' head hmem hover other
    rw [heldBy, Leaf.pending_of_mem_handles hover memory' memory]
    show other ∈ heldBy (Leaf.reader memory) head ↔ _
    obtain ⟨hin, hall⟩ := hkept head hmem hover
    rw [hahead]
    exact ⟨fun hother => ⟨hin other hother, ((hafter _ (List.mem_map_of_mem hmem)).2 other hother).1⟩,
      fun hboth => hall other hboth.1 hboth.2⟩
  · rintro ⟨other, hother⟩
    obtain ⟨hother, hlt⟩ := hahead.1 hother
    obtain ⟨head, hmem, hover⟩ := h.present ⟨other, hother⟩
    obtain ⟨later, hlater, hover', -⟩ : ∃ later ∈ (nextLive (Leaf.reader memory) merge.heads).2,
        handle ∈ later.source.handles ∧ other ∈ heldBy (Leaf.reader memory) later := by
      refine hmoves.exists_mem (fun head hmay hboth => ?_)
        ⟨head, hmem, hover, (h.held memory head hmem hover other).2 hother⟩
      obtain ⟨hover, hheld⟩ := hboth
      obtain ⟨later, hlater, hheld'⟩ := exists_mem_advance hheld fun hsame => hmay (hsame ▸ hlt)
      obtain ⟨hsource, -⟩ := mem_advance hlater
      exact ⟨later, hlater, by rw [hsource, Leaf.handles_next]; exact hover, hheld'⟩
    exact ⟨later, hlater, hover'⟩

/-- **Asked for its next entry,** a merge has of a segment what is ahead of its answer. -/
theorem Draws.next (h : Draws bounds given handle merge) (hfollows : Follows bounds given memory merge) :
    Draws bounds (given ++ [((Merge.reader (Leaf.reader memory)).next merge).1]) handle
      ((Merge.reader (Leaf.reader memory)).next merge).2 := by
  cases hnext : ((Merge.reader (Leaf.reader memory)).next merge).1 with
  | some entry => exact h.next_some hfollows hnext
  | none =>
    have hheads := (next_none hnext).2
    refine ⟨fun _ head hmem => ?_, ?_⟩
    · rw [hheads] at hmem
      cases hmem
    · rintro ⟨entry, hentry⟩
      obtain ⟨yielded, hnone, -⟩ := (ahead_concat.1 hentry).2
      cases hnone

/-- **A merge of layers** just made has all of each segment that lies in the range. -/
theorem draws_layersIn {tables : List Nat} {handles : List Handle}
    (hasc : ∀ handle ∈ handles, Ascending handle.segment.entries) (hmem : handle ∈ handles) :
    Draws bounds [] handle (ofSources (Leaf.reader memory) (layersIn tables handles bounds)) := by
  have hpending : ∀ memory entry, entry ∈ (Leaf.reader memory).pending (Leaf.ofHandle handle bounds) ↔
      Ahead bounds [] handle entry := by
    intro memory entry
    rw [Leaf.pending_reader, Leaf.pending_ofHandle memory (hasc handle hmem), List.mem_filter]
    simp [Ahead, Passed]
  constructor
  · intro memory' head hhead hover entry
    obtain ⟨source, hsource, hhead⟩ := List.mem_filterMap.1 hhead
    rcases head?_eq (Leaf.reader memory) source with ⟨hnone, -⟩ | ⟨head', hsome, hrest, hheld⟩
    · rw [hnone] at hhead
      cases hhead
    · obtain rfl := Option.some.inj (hsome.symm.trans hhead)
      rw [heldBy, Leaf.pending_of_mem_handles hover memory' memory]
      show entry ∈ heldBy (Leaf.reader memory) head' ↔ _
      rw [hrest, Leaf.handles_next] at hover
      -- Of the layers only the one over this segment holds on to it.
      rcases List.mem_append.1 hsource with htable | hother
      · obtain ⟨id, -, rfl⟩ := List.mem_map.1 htable
        cases hover
      · obtain ⟨other, -, rfl⟩ := List.mem_map.1 hother
        obtain rfl := List.mem_singleton.1 hover
        rw [hheld]
        exact hpending memory entry
  · rintro ⟨entry, hentry⟩
    have hsource : Leaf.ofHandle handle bounds ∈ layersIn tables handles bounds :=
      List.mem_append_right _ (List.mem_map_of_mem hmem)
    rcases head?_eq (Leaf.reader memory) (Leaf.ofHandle handle bounds) with
      ⟨-, hnone⟩ | ⟨head, hsome, hrest, -⟩
    · have hin := (hpending memory entry).2 hentry
      rw [hnone] at hin
      cases hin
    · refine ⟨head, List.mem_filterMap.2 ⟨_, hsource, hsome⟩, ?_⟩
      rw [hrest, Leaf.handles_next]
      exact List.mem_singleton_self _

/-- **Read to its end,** a merge yields every live entry of its heads that no newer head has a version
of. -/
theorem Follows.yields (h : Follows bounds given memory merge) {newer older : List (Head Leaf)}
    {head : Head Leaf} (hheads : merge.heads = newer ++ head :: older) {entry : Entry}
    (hmem : entry ∈ heldBy (Leaf.reader memory) head) (hlive : entry.isTombstone = false)
    (hnewest : ∀ other ∈ newer, ∀ version ∈ heldBy (Leaf.reader memory) other, version.key ≠ entry.key) :
    entry ∈ ((Merge.reader (Leaf.reader memory)).drain merge).1 := by
  obtain ⟨heads⟩ := merge
  obtain rfl : heads = newer ++ head :: older := hheads
  refine (mem_pending_iff h.ascending).2 ⟨?_, hlive⟩
  have hfound : lookup (heldBy (Leaf.reader memory) head) entry.key = some entry :=
    (lookup_eq_some (h.ascending _ (by simp))).2 ⟨hmem, rfl⟩
  have hnone : (pendings (Leaf.reader memory) newer).findSome? (fun entries => lookup entries entry.key) =
      none := by
    refine List.findSome?_eq_none_iff.2 fun entries hentries => ?_
    obtain ⟨other, hother, rfl⟩ := List.mem_map.1 hentries
    exact lookup_eq_none.2 fun version hversion hkey => hnewest other hother version hversion hkey
  rw [pendings_append, pendings_cons, List.findSome?_append, hnone, List.findSome?_cons, hfound]
  rfl

end Merge

namespace World

open Merge (Follows Draws)

variable {world : World} {handle : Handle} {event : Event} {name : String} {bounds : KeyRange}

/-! ## Cursors of a world -/

theorem isHeld_iff : world.isHeld handle = true ↔ ∃ cursor ∈ world.cursors, ∃ head ∈ cursor.2.heads,
    ∃ held ∈ head.source.handles, held.serial = handle.serial := by
  simp only [isHeld, List.any_eq_true, List.mem_flatMap, decide_eq_true_eq]
  constructor
  · rintro ⟨held, ⟨cursor, hcursor, head, hhead, hheld⟩, hserial⟩
    exact ⟨cursor, hcursor, head, hhead, held, hheld, hserial⟩
  · rintro ⟨cursor, hcursor, head, hhead, held, hheld, hserial⟩
    exact ⟨held, ⟨cursor, hcursor, head, hhead, hheld⟩, hserial⟩

theorem isHeld_congr {other : World} (h : other.cursors = world.cursors) :
    other.isHeld handle = world.isHeld handle := by
  rw [isHeld, isHeld, h]

/-- A segment that is held after a cursor was put in place is held by that one, or was before. -/
theorem isHeld_of_put {merge : Merge Leaf}
    (h : isHeld { world with cursors := world.cursors.put name merge } handle = true) :
    world.isHeld handle = true ∨
      ∃ head ∈ merge.heads, ∃ held ∈ head.source.handles, held.serial = handle.serial := by
  obtain ⟨cursor, hcursor, hheld⟩ := isHeld_iff.1 h
  rcases List.mem_cons.1 hcursor with rfl | hcursor
  · exact .inr hheld
  · exact .inl (isHeld_iff.2 ⟨cursor, (List.mem_filter.1 hcursor).1, hheld⟩)

/-- The sources of a range of an engine hold on to segments of the engine. -/
theorem mem_segments_of_range {memory : Memory} {engine : Engine} {merge : Merge Leaf}
    (h : engine.range memory bounds = .ok merge) {head : Head Leaf} (hmem : head ∈ merge.heads)
    (hover : handle ∈ head.source.handles) : engine.closed = false ∧ handle ∈ engine.segments := by
  cases hclosed : engine.closed with
  | true =>
    rw [Engine.range, if_pos hclosed] at h
    cases h
  | false =>
    rw [Engine.range, hclosed] at h
    cases h
    obtain ⟨source, hsource, hhead⟩ := List.mem_filterMap.1 hmem
    rcases Merge.head?_eq (Leaf.reader memory) source with ⟨hnone, -⟩ | ⟨head', hsome, hrest, -⟩
    · rw [hnone] at hhead
      cases hhead
    · obtain rfl := Option.some.inj (hsome.symm.trans hhead)
      rw [hrest, Leaf.handles_next] at hover
      rcases List.mem_append.1 hsource with htable | hother
      · obtain ⟨id, -, rfl⟩ := List.mem_map.1 htable
        cases hover
      · obtain ⟨segment, hsegment, rfl⟩ := List.mem_map.1 hother
        exact ⟨rfl, List.mem_singleton.1 hover ▸ hsegment⟩

theorem mem_of_get? {α : Type} {named : Named α} {value : α} (h : named.get? name = some value) :
    (name, value) ∈ named := by
  obtain ⟨entry, hentry, rfl⟩ := Option.map_eq_some_iff.1 h
  have hname : entry.1 = name := by simpa using List.find?_some hentry
  exact hname ▸ List.mem_of_find?_eq_some hentry

/-- **An event makes a cursor hold** segments of an open engine at most. -/
theorem isHeld_act (h : (world.act event).2.isHeld handle = true) : world.isHeld handle = true ∨
    ∃ engine, world.engine = some engine ∧ engine.closed = false ∧
      ∃ held ∈ engine.segments, held.serial = handle.serial := by
  cases event with
  | cursor name bounds =>
    rw [act, ask] at h
    cases hengine : world.engine with
    | none =>
      rw [hengine] at h
      exact .inl h
    | some engine =>
      rw [hengine] at h
      dsimp only at h
      cases hrange : engine.range world.memory bounds with
      | error fault =>
        rw [hrange] at h
        exact .inl h
      | ok merge =>
        rw [hrange] at h
        refine (isHeld_of_put h).imp_right ?_
        rintro ⟨head, hmem, held, hheld, hserial⟩
        obtain ⟨hopen, hsegment⟩ := mem_segments_of_range hrange hmem hheld
        exact ⟨engine, rfl, hopen, held, hsegment, hserial⟩
  | next name =>
    rw [act] at h
    split at h
    · exact .inl h
    · next merge hmerge =>
      refine .inl ((isHeld_of_put h).elim id ?_)
      rintro ⟨head, hmem, held, hheld, hserial⟩
      -- A head that has moved is still over the same segment.
      have hmoved : ((Merge.nextLive (Leaf.reader world.memory) merge.heads).2.map fun head =>
          head.source.handles).Sublist (merge.heads.map fun head => head.source.handles) :=
        (Merge.moves_nextLive merge.heads).sublist (Leaf.handles_next world.memory)
      obtain ⟨before, hbefore, hsame⟩ := List.mem_map.1 (hmoved.subset (List.mem_map_of_mem hmem))
      exact isHeld_iff.2 ⟨_, mem_of_get? hmerge, before, hbefore, held, hsame ▸ hheld, hserial⟩
  | release name =>
    obtain ⟨cursor, hcursor, hheld⟩ := isHeld_iff.1 h
    exact .inl (isHeld_iff.2 ⟨cursor, (List.mem_filter.1 hcursor).1, hheld⟩)
  | _ => exact .inl ((isHeld_congr (cursors_act rfl)).symm.trans h)

/-! ## A cursor and what it has of a segment -/

/-- The cursor of a name after some events: it goes on past its answers, and of a segment it has what is
ahead of them. -/
def Drawing (world : World) (name : String) (bounds : KeyRange) (handle : Handle)
    (events : List Event) : Prop :=
  ∃ merge, (world.run events).2.cursors.get? name = some merge ∧
    Follows bounds (world.given name events) (world.run events).2.memory merge ∧
    Draws bounds (world.given name events) handle merge

variable {events : List Event}

/-- **Every event** leaves it so, if it leaves the cursor in place. -/
theorem Drawing.concat (h : Drawing world name bounds handle events)
    (hfaithful : Faithful bounds name world (events ++ [event])) (hkeeps : event.keeps name = true) :
    Drawing world name bounds handle (events ++ [event]) := by
  obtain ⟨merge, hmerge, hfollows, hdraws⟩ := h
  obtain ⟨after, hafter, hfollows', -, -⟩ := hfaithful.cursor
  refine ⟨after, hafter, hfollows', ?_⟩
  rw [run_concat, step_eq] at hafter
  rw [given_concat, step_eq]
  by_cases hnext : event = .next name
  · subst hnext
    let step := (Merge.reader (Leaf.reader (world.run events).2.memory)).next merge
    have hact : (world.run events).2.act (.next name) = (.ok (.lookup step.1),
        { (world.run events).2 with cursors := (world.run events).2.cursors.put name step.2 }) := by
      rw [act, hmerge]
    rw [hact] at hafter ⊢
    have hput : ((world.run events).2.cursors.put name step.2).get? name = some step.2 :=
      (Named.get?_put _ _ _ _).trans (if_pos rfl)
    obtain rfl := Option.some.inj (hafter.symm.trans hput)
    simpa [yielded] using hdraws.next hfollows
  · have hsame : ((world.run events).2.act event).2.cursors.get? name = some merge :=
      (get?_cursors_act hkeeps hnext).trans hmerge
    obtain rfl := Option.some.inj (hafter.symm.trans hsame)
    rw [yielded_of_ne hnext, List.append_nil]
    exact hdraws

/-- **Through any events** a cursor has of a segment what is ahead of its answers. -/
theorem Drawing.run (h : Drawing world name bounds handle events)
    (hfaithful : Faithful bounds name world events) {more : List Event}
    (hkeeps : ∀ event ∈ more, event.keeps name = true) :
    Drawing world name bounds handle (events ++ more) := by
  induction more generalizing events with
  | nil => exact (List.append_nil events).symm ▸ h
  | cons event rest ih =>
    have hfirst : event.keeps name = true := hkeeps event (by simp)
    have hafter : Faithful bounds name world (events ++ [event]) := hfaithful.concat hfirst
    have hrest := ih (h.concat hafter hfirst) hafter fun event hmem => hkeeps event (by simp [hmem])
    rwa [List.append_assoc, List.singleton_append] at hrest

/-- A cursor that is made on an open engine has all of each segment of the engine in its range. -/
theorem drawing_cursor {engine : Engine} (hengine : world.engine = some engine)
    (hopen : engine.closed = false) (hsound : engine.Sound world.memory) (hmem : handle ∈ engine.segments)
    (name : String) (bounds : KeyRange) :
    Drawing (world.step (.cursor name bounds)).2 name bounds handle [] := by
  obtain ⟨count, made, hmade, hfaithful⟩ := faithful_cursor hengine hopen hsound name bounds
  obtain rfl : (world.step (.cursor name bounds)).2 = made := congrArg Prod.snd hmade
  obtain ⟨merge, hmerge, hfollows, -, -⟩ := hfaithful.cursor
  refine ⟨merge, hmerge, hfollows, ?_⟩
  have hask : (world.ask fun engine => engine.range world.memory bounds) =
      .ok (Merge.ofSources (Leaf.reader world.memory) (engine.layers bounds)) := by
    rw [ask, hengine]
    dsimp only
    rw [Engine.range, hopen]
    rfl
  have hput : ((world.step (.cursor name bounds)).2.run []).2.cursors.get? name =
      some (Merge.ofSources (Leaf.reader world.memory) (engine.layers bounds)) := by
    show (world.act (.cursor name bounds)).2.cursors.get? name = _
    rw [act, hask]
    exact (Named.get?_put _ _ _ _).trans (if_pos rfl)
  obtain rfl := Option.some.inj (hmerge.symm.trans hput)
  exact Merge.draws_layersIn (fun handle hmem => hsound.ascending _ (List.mem_map_of_mem hmem)) hmem

end World

end LsmTree
