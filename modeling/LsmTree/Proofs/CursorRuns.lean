import Mathlib.Data.List.Induction
import LsmTree.Proofs.TableAccounting
import LsmTree.Proofs.TableCursor

/-!
# A cursor on a table that is written

A cursor over a table holds nothing but its place. Writes and steps of the cursor may alternate in any
way; which entries it yields is told by one balance, kept by every turn:

* **`Cursor.ahead_iff_of_next`** — a step yields the least of the keys ahead;
* **`Reading.run`** takes turns, each a write or a step of the cursor;
* **`Reading.Due`** — the keys that a cursor has to yield: those that the table had at the start, and those
  that came ahead of the cursor later on;
* **`Reading.Kept`** — what is kept from one turn to the next: a key is due exactly if it was yielded or is
  in the table ahead of the cursor. **`Kept.write`**, **`Kept.next_some`** and
  **`Kept.next_none`** are the turns, **`kept`** is the run;
* **`cursor_sees_writes_ahead`** — so until its end a cursor has yielded exactly the keys that were due, in
  order, with the value of the moment, and nothing follows its end.
-/

namespace LsmTree.Memtable

/-! ## What a step yields -/

namespace Cursor

variable {table : Memtable} {cursor : Cursor} {entry : Entry}

/-- What a step yields is in the table, ahead of the cursor, and the range reaches it. -/
theorem mem_of_next (h : (next table cursor).1 = some entry) :
    entry ∈ table.entries ∧ cursor.isAhead entry.key = true ∧
      cursor.range.endsAfter entry.key = true := by
  obtain ⟨hopen, -⟩ := next_of_some h
  have hmem := List.mem_of_mem_head? (Option.mem_def.2 ((next_fst table cursor).symm.trans h))
  rw [pending, hopen, if_neg (by simp), List.mem_filter, Bool.and_eq_true_iff] at hmem
  exact hmem

/-- **The least of the keys ahead is yielded**: of those in the table that the range reaches, the others
that were ahead come after it. -/
theorem ahead_iff_of_next (h : (next table cursor).1 = some entry) {key : Bytes}
    (hends : cursor.range.endsAfter key = true) :
    table.get? key ≠ none ∧ cursor.isAhead key = true ↔
      key = entry.key ∨ table.get? key ≠ none ∧ entry.key < key := by
  obtain ⟨hopen, -⟩ := next_of_some h
  obtain ⟨hmem, hahead, -⟩ := mem_of_next h
  obtain ⟨rest, hpending⟩ := List.head?_eq_some_iff.1 ((next_fst table cursor).symm.trans h)
  rw [pending, hopen, if_neg (by simp)] at hpending
  have hleast : Ascending (entry :: rest) := hpending ▸ table.ascending.filter _
  constructor
  · rintro ⟨hpresent, hkeyAhead⟩
    obtain ⟨found, hfound⟩ := Option.ne_none_iff_exists'.1 hpresent
    obtain ⟨hfoundMem, rfl⟩ := (lookup_eq_some table.ascending).1 hfound
    -- The entry of the key is pending, so it is the first pending one or comes after it.
    have hkept : found ∈ entry :: rest := by
      rw [← hpending, List.mem_filter]
      exact ⟨hfoundMem, Bool.and_eq_true_iff.2 ⟨hkeyAhead, hends⟩⟩
    rcases List.mem_cons.1 hkept with rfl | hlater
    · exact .inl rfl
    · exact .inr ⟨hpresent, (List.pairwise_cons.1 hleast).1 found hlater⟩
  · rintro (rfl | ⟨hpresent, hlt⟩)
    · have hget := (mem_entries_iff table entry).1 hmem
      exact ⟨by simp [hget], hahead⟩
    · exact ⟨hpresent, isAhead_of_lt hahead hlt⟩

end Cursor

/-! ## Turns -/

/-- A turn at a table with a cursor on it: a write, or a step of the cursor. -/
inductive Turn
  | write (call : Call)
  | next

/-- A table and a cursor on it. -/
structure Reading where
  table : Memtable
  cursor : Cursor

namespace Reading

/-- What the cursor answers if it is asked for the next entry. -/
def answer (reading : Reading) : Option Entry := (reading.cursor.next reading.table).1

/-- Takes a turn. A step of the cursor is answered, a write is not. -/
def turn (reading : Reading) : Turn → List (Option Entry) × Reading
  | .write call => ([], { reading with table := (call.run reading.table).2 })
  | .next => ([reading.answer], { reading with cursor := (reading.cursor.next reading.table).2 })

/-- Takes turns one after another, and collects the answers. -/
def run (reading : Reading) : List Turn → List (Option Entry) × Reading
  | [] => ([], reading)
  | turn :: rest =>
    let (answers, reading) := reading.turn turn
    let (others, reading) := reading.run rest
    (answers ++ others, reading)

theorem run_cons (reading : Reading) (turn : Turn) (rest : List Turn) :
    reading.run (turn :: rest) =
      ((reading.turn turn).1 ++ ((reading.turn turn).2.run rest).1, ((reading.turn turn).2.run rest).2) :=
  rfl

theorem run_append (reading : Reading) (earlier later : List Turn) :
    reading.run (earlier ++ later) =
      ((reading.run earlier).1 ++ ((reading.run earlier).2.run later).1,
        ((reading.run earlier).2.run later).2) := by
  induction earlier generalizing reading with
  | nil => rfl
  | cons turn rest ih =>
    rw [List.cons_append, run_cons, run_cons, ih, List.append_assoc]

section

variable (table : Memtable) (range : KeyRange)

/-- What the cursor of a range has answered after some turns. -/
def answers (turns : List Turn) : List (Option Entry) := (run ⟨table, .ofRange range⟩ turns).1

/-- The table and the cursor of a range after some turns. -/
def after (turns : List Turn) : Reading := (run ⟨table, .ofRange range⟩ turns).2

/-- The entries that the cursor of a range has yielded after some turns. -/
def yielded (turns : List Turn) : List Entry := (answers table range turns).filterMap id

/-- The keys that the cursor of a range has to yield: those that the table had when the cursor was made,
and those that were written for the first time later on, past the key yielded last. -/
def Due (turns : List Turn) (key : Bytes) : Prop :=
  table.get? key ≠ none ∨
    ∃ earlier call later, turns = earlier ++ .write call :: later ∧ call.entry.key = key ∧
      (after table range earlier).table.get? key = none ∧
      ∀ last ∈ (yielded table range earlier).getLast?, last.key < key

end

variable {table : Memtable} {range : KeyRange} {turns : List Turn}

/-! ## One turn more -/

theorem after_write (call : Call) : after table range (turns ++ [.write call]) =
    { after table range turns with table := (after table range turns).table.insert call.entry } := by
  rw [after, run_append]
  show Reading.mk (call.run _).2 _ = _
  rw [Call.run_eq]
  rfl

theorem after_next : after table range (turns ++ [.next]) =
    { after table range turns with
      cursor := ((after table range turns).cursor.next (after table range turns).table).2 } := by
  rw [after, run_append]
  rfl

theorem answers_write (call : Call) :
    answers table range (turns ++ [.write call]) = answers table range turns := by
  rw [answers, run_append]
  exact List.append_nil _

theorem answers_next : answers table range (turns ++ [.next]) =
    answers table range turns ++ [(after table range turns).answer] := by
  rw [answers, run_append]
  rfl

theorem yielded_write (call : Call) :
    yielded table range (turns ++ [.write call]) = yielded table range turns := by
  rw [yielded, answers_write, yielded]

theorem yielded_next_none (h : (after table range turns).answer = none) :
    yielded table range (turns ++ [.next]) = yielded table range turns := by
  rw [yielded, answers_next, h]
  simp [yielded]

theorem yielded_next_some {entry : Entry} (h : (after table range turns).answer = some entry) :
    yielded table range (turns ++ [.next]) = yielded table range turns ++ [entry] := by
  rw [yielded, answers_next, h]
  simp [yielded]

/-- Only a write makes a further key due. -/
theorem due_concat (turn : Turn) (key : Bytes) : Due table range (turns ++ [turn]) key ↔
    Due table range turns key ∨ ∃ call, turn = .write call ∧ call.entry.key = key ∧
      (after table range turns).table.get? key = none ∧
      ∀ last ∈ (yielded table range turns).getLast?, last.key < key := by
  constructor
  · intro hdue
    rcases hdue with hpresent | ⟨earlier, call, later, hsplit, hwritten⟩
    · exact .inl (.inl hpresent)
    · rcases List.eq_nil_or_concat later with hnil | ⟨middle, last, hconcat⟩
      · rw [hnil] at hsplit
        obtain ⟨rfl, hturn⟩ := List.append_inj' hsplit rfl
        exact .inr ⟨call, List.singleton_inj.1 hturn, hwritten⟩
      · -- The turn comes after the write, which was due before it.
        rw [hconcat, List.concat_eq_append, ← List.cons_append, ← List.append_assoc] at hsplit
        obtain ⟨hturns, -⟩ := List.append_inj' hsplit rfl
        exact .inl (.inr ⟨earlier, call, middle, hturns, hwritten⟩)
  · intro hdue
    rcases hdue with (hpresent | ⟨earlier, call, later, hsplit, hwritten⟩) | ⟨call, hturn, hwritten⟩
    · exact .inl hpresent
    · refine .inr ⟨earlier, call, later ++ [turn], ?_, hwritten⟩
      rw [hsplit, List.append_assoc, List.cons_append]
    · exact .inr ⟨turns, call, [], by rw [hturn], hwritten⟩

/-! ## What turns keep -/

/-- What is known of a reading after some turns. -/
structure Kept (table : Memtable) (range : KeyRange) (turns : List Turn) : Prop where
  range_eq : (after table range turns).cursor.range = range
  last_eq : (after table range turns).cursor.last = (yielded table range turns).getLast?.map Entry.key
  finished_iff : (after table range turns).cursor.finished = true ↔
    range.isEmpty = true ∨ none ∈ answers table range turns
  ascending : Ascending (yielded table range turns)
  contained : ∀ entry ∈ yielded table range turns, range.contains entry.key = true
  due_iff : (after table range turns).cursor.finished = false → ∀ key, range.contains key = true →
    (Due table range turns key ↔ key ∈ (yielded table range turns).map Entry.key ∨
      (after table range turns).table.get? key ≠ none ∧
        (after table range turns).cursor.isAhead key = true)

namespace Kept

/-- At the start nothing was yielded, and all of the range is ahead. -/
theorem start (table : Memtable) (range : KeyRange) : Kept table range [] where
  range_eq := rfl
  last_eq := rfl
  finished_iff := by simp [after, answers, run, Cursor.ofRange]
  ascending := List.Pairwise.nil
  contained := by simp [yielded, answers, run]
  due_iff := by
    intro _ key hin
    have hahead : (after table range []).cursor.isAhead key = true := (Bool.and_eq_true_iff.1 hin).1
    have hnothing : ∀ earlier call later, [] ≠ earlier ++ Turn.write call :: later := by simp
    simp [Due, yielded, answers, run, hahead, hnothing]
    rfl

/-- A key of the range is ahead exactly if it is past the key yielded last. -/
theorem isAhead_iff (h : Kept table range turns) {key : Bytes} (hin : range.contains key = true) :
    (after table range turns).cursor.isAhead key = true ↔
      ∀ last ∈ (yielded table range turns).getLast?, last.key < key := by
  unfold Cursor.isAhead
  rw [h.last_eq, h.range_eq]
  cases hlast : (yielded table range turns).getLast? with
  | none => simp [(Bool.and_eq_true_iff.1 hin).1]
  | some last => simp

/-- What is ahead is past every key yielded, and at or past the lower bound. -/
theorem of_isAhead (h : Kept table range turns) {key : Bytes}
    (hahead : (after table range turns).cursor.isAhead key = true) :
    (∀ entry ∈ yielded table range turns, entry.key < key) ∧ range.startsBefore key = true := by
  unfold Cursor.isAhead at hahead
  rw [h.last_eq, h.range_eq] at hahead
  rcases List.eq_nil_or_concat (yielded table range turns) with hnil | ⟨front, last, hconcat⟩
  · rw [hnil] at hahead ⊢
    exact ⟨by simp, hahead⟩
  · have hascending := h.ascending
    have hlastIn := h.contained last (by simp [hconcat])
    rw [hconcat, List.concat_eq_append] at hascending hahead ⊢
    have hlt : last.key < key := by simpa using hahead
    refine ⟨fun entry hentry => ?_, ?_⟩
    · rcases List.mem_append.1 hentry with hfront | hsame
      · exact Bytes.lt_trans ((List.pairwise_append.1 hascending).2.2 entry hfront last (by simp)) hlt
      · rw [List.mem_singleton.1 hsame]
        exact hlt
    · -- The cursor at the start of the range has the last key ahead, so all keys after it.
      have hstart : (Cursor.ofRange range).isAhead last.key = true := (Bool.and_eq_true_iff.1 hlastIn).1
      exact Cursor.isAhead_of_lt hstart hlt

/-- A finished cursor answers nothing. -/
theorem answer_of_finished (h : (after table range turns).cursor.finished = true) :
    (after table range turns).answer = none := by
  rw [answer, Cursor.next_fst, Cursor.pending_of_finished h, List.head?_nil]

/-- **A write** changes the table. A key that is due by it is in the table now, ahead of the cursor. -/
theorem write (h : Kept table range turns) (call : Call) :
    Kept table range (turns ++ [.write call]) where
  range_eq := by rw [after_write, h.range_eq]
  last_eq := by rw [after_write, yielded_write, h.last_eq]
  finished_iff := by rw [after_write, answers_write, h.finished_iff]
  ascending := by rw [yielded_write]; exact h.ascending
  contained := by rw [yielded_write]; exact h.contained
  due_iff := by
    rw [after_write, yielded_write]
    intro hopen key hin
    have hdue := h.due_iff hopen key hin
    have hahead := h.isAhead_iff hin
    have hpresent : ((after table range turns).table.insert call.entry).get? key ≠ none ↔
        call.entry.key = key ∨ (after table range turns).table.get? key ≠ none := by
      rw [get?_insert]
      by_cases hkey : call.entry.key = key
      · simp [hkey]
      · simp [hkey]
    have hwrite : (∃ other, Turn.write call = .write other ∧ other.entry.key = key ∧
        (after table range turns).table.get? key = none ∧
        ∀ last ∈ (yielded table range turns).getLast?, last.key < key) ↔
        call.entry.key = key ∧ (after table range turns).table.get? key = none ∧
          (after table range turns).cursor.isAhead key = true := by
      rw [hahead]
      constructor
      · rintro ⟨other, hsame, hwritten⟩
        cases hsame
        exact hwritten
      · intro hwritten
        exact ⟨call, rfl, hwritten⟩
    show Due table range (turns ++ [.write call]) key ↔ key ∈ (yielded table range turns).map Entry.key ∨
      ((after table range turns).table.insert call.entry).get? key ≠ none ∧
        (after table range turns).cursor.isAhead key = true
    rw [due_concat, hdue, hwrite, hpresent]
    by_cases habsent : (after table range turns).table.get? key = none
    · simp [habsent]
    · simp [habsent]

/-- **A step that yields** moves the cursor past the first entry ahead. Every other key ahead stays so. -/
theorem next_some (h : Kept table range turns) {entry : Entry}
    (hanswer : (after table range turns).answer = some entry) :
    Kept table range (turns ++ [.next]) := by
  obtain ⟨hopen, hmoved⟩ := Cursor.next_of_some hanswer
  have hafter : after table range (turns ++ [.next]) =
      { after table range turns with
        cursor := { (after table range turns).cursor with last := some entry.key } } := by
    rw [after_next, hmoved]
  obtain ⟨-, hahead, hends⟩ := Cursor.mem_of_next hanswer
  rw [h.range_eq] at hends
  obtain ⟨hpassed, hstarts⟩ := h.of_isAhead hahead
  exact {
    range_eq := by rw [hafter, h.range_eq]
    last_eq := by simp [hafter, yielded_next_some hanswer]
    finished_iff := by
      rw [hafter, answers_next, hanswer, h.finished_iff]
      simp
    ascending := by
      rw [yielded_next_some hanswer]
      refine List.pairwise_append.2 ⟨h.ascending, List.pairwise_singleton _ _, ?_⟩
      intro before hbefore last hlast
      rw [List.mem_singleton.1 hlast]
      exact hpassed before hbefore
    contained := by
      rw [yielded_next_some hanswer]
      intro one hone
      rcases List.mem_append.1 hone with hbefore | hlast
      · exact h.contained one hbefore
      · rw [List.mem_singleton.1 hlast]
        exact Bool.and_eq_true_iff.2 ⟨hstarts, hends⟩
    due_iff := by
      intro _ key hin
      have hdue := h.due_iff hopen key hin
      have hstep : Due table range (turns ++ [.next]) key ↔ Due table range turns key := by
        simp [due_concat]
      rw [hstep, hdue, hafter, yielded_next_some hanswer, List.map_append, List.mem_append, or_assoc]
      refine or_congr_right ?_
      show _ ↔ key ∈ [entry.key] ∨ (after table range turns).table.get? key ≠ none ∧
        decide (entry.key < key) = true
      rw [List.mem_singleton, decide_eq_true_iff]
      refine Cursor.ahead_iff_of_next hanswer ?_
      rw [h.range_eq]
      exact (Bool.and_eq_true_iff.1 hin).2 }

/-- **A step that yields nothing** finishes the cursor. -/
theorem next_none (h : Kept table range turns) (hanswer : (after table range turns).answer = none) :
    Kept table range (turns ++ [.next]) := by
  have hcursor : (after table range (turns ++ [.next])).cursor =
      { (after table range turns).cursor with finished := true } := by
    have hnone : (Cursor.next (after table range turns).table (after table range turns).cursor).1 = none :=
      hanswer
    rw [after_next]
    show (Cursor.next _ _).2 = _
    unfold Cursor.next at hnone ⊢
    split
    · next hfinished =>
      rw [← hfinished]
    · next hopen =>
      rw [if_neg hopen] at hnone
      split
      · rfl
      · next found hfound =>
        rw [hfound] at hnone
        split
        · next hends => simp [hends] at hnone
        · rfl
  exact {
    range_eq := by rw [hcursor, h.range_eq]
    last_eq := by rw [hcursor, yielded_next_none hanswer, h.last_eq]
    finished_iff := by
      rw [hcursor, answers_next, hanswer]
      simp
    ascending := by rw [yielded_next_none hanswer]; exact h.ascending
    contained := by rw [yielded_next_none hanswer]; exact h.contained
    due_iff := by
      rw [hcursor]
      intro hopen
      cases hopen }

/-- **When the end is reached** what was yielded is exactly what was due. -/
theorem yielded_iff_due (h : Kept table range turns) (hnone : (after table range turns).answer = none)
    (hfirst : none ∉ answers table range turns) (key : Bytes) :
    key ∈ (yielded table range turns).map Entry.key ↔
      range.contains key = true ∧ Due table range turns key := by
  have hcontained : key ∈ (yielded table range turns).map Entry.key → range.contains key = true := by
    intro hmem
    obtain ⟨entry, hentry, rfl⟩ := List.mem_map.1 hmem
    exact h.contained entry hentry
  cases hfinished : (after table range turns).cursor.finished with
  | true =>
    -- The bounds of the range are inverted, so no key is in it.
    have hempty : range.isEmpty = true := by simpa [hfirst] using h.finished_iff.1 hfinished
    have hout := KeyRange.not_contains_of_isEmpty hempty key
    simp only [hout, Bool.false_eq_true, false_and, iff_false] at hcontained ⊢
    exact hcontained
  | false =>
    have hnothing := List.head?_eq_none_iff.1 ((Cursor.next_fst _ _).symm.trans hnone)
    rw [Cursor.pending, hfinished, if_neg (by simp), h.range_eq, List.filter_eq_nil_iff] at hnothing
    constructor
    · intro hmem
      have hin := hcontained hmem
      exact ⟨hin, (h.due_iff hfinished key hin).2 (.inl hmem)⟩
    · rintro ⟨hin, hdue⟩
      rcases (h.due_iff hfinished key hin).1 hdue with hmem | ⟨hpresent, hahead⟩
      · exact hmem
      · -- A key in the table ahead of the cursor would have been the answer.
        obtain ⟨found, hfound⟩ := Option.ne_none_iff_exists'.1 hpresent
        obtain ⟨hmem, rfl⟩ := (lookup_eq_some (after table range turns).table.ascending).1 hfound
        exact absurd (Bool.and_eq_true_iff.2 ⟨hahead, (Bool.and_eq_true_iff.1 hin).2⟩)
          (hnothing found hmem)

end Kept

/-- **Every run** keeps it. -/
theorem kept (table : Memtable) (range : KeyRange) (turns : List Turn) : Kept table range turns := by
  induction turns using List.reverseRecOn with
  | nil => exact .start table range
  | append_singleton earlier turn ih =>
    cases turn with
    | write call => exact ih.write call
    | next =>
      cases hanswer : (after table range earlier).answer with
      | none => exact ih.next_none hanswer
      | some entry => exact ih.next_some hanswer

/-- **A cursor sees what is written ahead of it.** For any table, any range and any turns: what the cursor
yields is in strictly ascending order of keys, all of them in the range. Each step of the cursor gives the
answer that stands at its place. If that is an entry, it is the one that the table has for its key at this
moment. If it is the first one without an entry, the keys yielded before are exactly the keys of the range
that were due: in the table when the cursor was made, or first written since then while past the key
yielded last. After such an answer there is never an entry again. -/
theorem cursor_sees_writes_ahead (table : Memtable) (range : KeyRange) (turns : List Turn) :
    Ascending (yielded table range turns) ∧
    (∀ entry ∈ yielded table range turns, range.contains entry.key = true) ∧
    ∀ earlier later, turns = earlier ++ .next :: later →
      (answers table range turns)[(answers table range earlier).length]? =
        some (after table range earlier).answer ∧
      (∀ entry, (after table range earlier).answer = some entry →
        (after table range earlier).table.get? entry.key = some entry) ∧
      ((after table range earlier).answer = none → none ∉ answers table range earlier →
        ∀ key, key ∈ (yielded table range earlier).map Entry.key ↔
          range.contains key = true ∧ Due table range earlier key) ∧
      (none ∈ answers table range earlier → (after table range earlier).answer = none) := by
  refine ⟨(kept table range turns).ascending, (kept table range turns).contained, ?_⟩
  intro earlier later hturns
  have hkept := kept table range earlier
  refine ⟨?place, ?value, ?complete, ?final⟩
  case place =>
    have hanswers : answers table range turns = answers table range earlier ++
        ((after table range earlier).answer ::
          (run { after table range earlier with
            cursor := ((after table range earlier).cursor.next (after table range earlier).table).2 }
            later).1) := by
      rw [hturns, answers, run_append]
      rfl
    rw [hanswers, List.getElem?_append_right (Nat.le_refl _), Nat.sub_self, List.getElem?_cons_zero]
  case value =>
    intro entry hentry
    exact (mem_entries_iff _ entry).1 (Cursor.mem_of_next hentry).1
  case complete => exact fun hnone hfirst key => hkept.yielded_iff_due hnone hfirst key
  case final =>
    intro hended
    exact Kept.answer_of_finished (hkept.finished_iff.2 (.inr hended))

/-- A table with two keys. -/
def twoKeys : Memtable := (empty.insert (.put [2] [7])).insert (.put [6] [7])

/-- Steps of a cursor among writes: ahead of it, behind it, outside the range, over the key yielded last
and over one still ahead. -/
def alternating : List Turn :=
  [.next, .write (.put [4] [1]), .write (.put [1] [1]), .write (.insert (.put [3] [])), .next,
    .write (.delete [3]), .write (.put [2] []), .write (.put [6] [8]), .next, .next]

/-- The range from key 2 up to key 9 yields the two keys and the two first written ahead of the cursor, and
then nothing. -/
theorem cursor_sees_writes_ahead_alternating :
    answers twoKeys ⟨some [2], some [9]⟩ (alternating ++ [.next, .write (.put [7] []), .next]) =
      [some (.put [2] [7]), some (.put [3] []), some (.put [4] [1]), some (.put [6] [8]), none, none] ∧
    ∀ key, key ∈ [[2], [3], [4], [6]] ↔ KeyRange.contains ⟨some [2], some [9]⟩ key = true ∧
      Due twoKeys ⟨some [2], some [9]⟩ alternating key := by
  refine ⟨by decide, ?_⟩
  obtain ⟨-, -, hplaces⟩ := cursor_sees_writes_ahead twoKeys ⟨some [2], some [9]⟩ (alternating ++ [.next])
  obtain ⟨-, -, hcomplete, -⟩ := hplaces alternating [] rfl
  exact hcomplete (by decide) (by decide)

end Reading

end LsmTree.Memtable
