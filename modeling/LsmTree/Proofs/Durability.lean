import LsmTree.Proofs.Consistency

/-!
# What survives of the writes

Opening a directory again, after whatever happened to the engine that used it, finds a first part of the
writes that the engine accepted: all of those before the last flush, compaction or closing that succeeded,
and of the later ones none without those before it.
-/

namespace LsmTree

namespace World

variable {world : World} {ledger : Ledger}

/-- **Durability.** Whatever happened to a directory that was empty at the start, with one engine at a time
that is closed, dropped or lost at any moment and directories put in the way of its files, the next opening
that succeeds shows what a first part of the writes since the last opening makes of what that one showed.
All writes before the last flush, compaction or closing that succeeded are among them. No table holds a
write yet. -/
theorem reopening_finds_prefix (h : Reached world ledger) {config : Config} {answer : Answer}
    {opened : World} (hload : world.step (.load config) = (.ok answer, opened))
    (hroom : (ledger.note world (.load config)).handedOut < UInt64.size - 1) :
    ∃ count, ledger.durable ≤ count ∧ count ≤ ledger.writes.length ∧
      Answers (Content.after ledger.base (ledger.writes.take count)) opened ∧
      ∃ engine, opened.engine = some engine ∧ engine.queue = [] ∧
        (opened.memory.table engine.active).isEmpty = true := by
  rw [note_handedOut] at hroom
  have hconsistent := h.consistent (Nat.lt_of_le_of_lt (Nat.le_add_right _ _) hroom)
  rw [step_eq, act] at hload
  rcases (hconsistent.discard hroom).load rfl hroom config with
    ⟨answer', loaded, segments, engine, hrun, hsettles, hopened, -⟩ | ⟨fault, left, hrun, -⟩
  · rw [hrun] at hload
    obtain ⟨-, rfl⟩ := Prod.mk.inj hload
    obtain ⟨count, hdurable, hcount, hcontent⟩ := hsettles
    refine ⟨count, hdurable, hcount, ?_, engine, hopened.present, hopened.queue, hopened.empty⟩
    rw [← hcontent]
    exact hopened.serving.answers
  · rw [hrun] at hload
    cases hload

/-- A write that is flushed, and a deletion that is lost with the engine. -/
def lost : List Event :=
  [.load {}, .upsert (.put [1] [7]), .flush, .upsert (.tombstone [1]), .crash]

/-- After the loss the flushed write is found, with or without the deletion. -/
theorem reopening_finds_prefix_lost : ∃ answer opened count,
    (World.empty.run lost).2.step (.load {}) = (.ok answer, opened) ∧
      Reached (World.empty.run lost).2 (Ledger.empty.noteAll .empty lost) ∧
      ((Ledger.empty.noteAll .empty lost).note (World.empty.run lost).2 (.load {})).handedOut <
        UInt64.size - 1 ∧
      1 ≤ count ∧ count ≤ 2 ∧
      Answers (Content.after (Ledger.empty.noteAll .empty lost).base
        ([.put [1] [7], .tombstone [1]].take count)) opened := by
  have hreached : Reached (World.empty.run lost).2 (Ledger.empty.noteAll .empty lost) :=
    Reached.start.run lost
  have hok : ((World.empty.run lost).2.step (.load {})).1.isOk = true := by decide +kernel
  have hdurable : (Ledger.empty.noteAll .empty lost).durable = 1 := by decide +kernel
  have hwrites : (Ledger.empty.noteAll .empty lost).writes = [.put [1] [7], .tombstone [1]] := by
    decide +kernel
  have hroom : ((Ledger.empty.noteAll .empty lost).note (World.empty.run lost).2
      (.load {})).handedOut < UInt64.size - 1 := by
    decide +kernel
  cases hstep : (World.empty.run lost).2.step (.load {}) with
  | mk result opened =>
    rw [hstep] at hok
    cases result with
    | error fault => cases hok
    | ok answer =>
      obtain ⟨count, hle, hcount, hanswers, -⟩ := reopening_finds_prefix hreached hstep hroom
      rw [hdurable] at hle
      rw [hwrites] at hcount hanswers
      exact ⟨answer, opened, count, rfl, hreached, hroom, hle, hcount, hanswers⟩

end World

end LsmTree
