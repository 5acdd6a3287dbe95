import LsmTree.CommandLine
import LsmTree.Proofs.Mirroring
import LsmTree.Proofs.Reopening
import Mathlib.Algebra.Group.Nat.Defs

/-!
# One run of the command line

A run opens a directory, carries out one command and closes the directory again. If that does not succeed,
the closing is tried once more. Whatever becomes of it, the directory has all that it had before and
the write of the command as a whole or not at all; a run that succeeds has written it, or has printed what
the directory has.

* **`Maintenance.Passes`** — steps of maintenance one after another, with what they keep;
* **`CommandLine.execute_attempts`**, **`CommandLine.session_leaves`** — what a command and a session do, step
  by step;
* **`Manager.recovers`**, **`CommandLine.session_survives`** — an opening and a session at any path.
-/

namespace LsmTree

/-! ## Steps of maintenance one after another -/

namespace Maintenance

/-- An open engine in a directory that can be reached, with what the writes make of `base`. -/
structure Workspace.Serves (base : Content) (writes : List Entry) (workspace : Workspace) : Prop where
  plain : workspace.disk.Plain
  unshared : workspace.snapshot.Unshared
  opened : workspace.engine.closed = false
  lays : ∃ settled, Lays base writes settled workspace.memory workspace.engine

/-- Steps of maintenance one after another, and how many generations they hand out. -/
inductive Passes (start : Workspace) : (count handed : Nat) → Workspace → Prop
  | refl : Passes start 0 0 start
  | step {count handed more : Nat} {complete : Prop} {middle after : Workspace}
    (h : Passes start count handed middle) (hprogress : Progress middle more complete after) :
    Passes start (count + 1) (handed + more) after

section Passes

variable {base : Content} {writes : List Entry} {start after : Workspace} {count handed : Nat}

theorem Workspace.Serves.sound (h : start.Serves base writes) : start.engine.Sound start.memory := by
  obtain ⟨settled, hlays⟩ := h.lays
  exact hlays.sound

theorem Workspace.Serves.progress {complete : Prop} (h : start.Serves base writes)
    (hprogress : Progress start handed complete after) (hplain : after.disk.Plain) :
    after.Serves base writes := by
  obtain ⟨settled, hlays⟩ := h.lays
  obtain ⟨settled', -, hlays', -⟩ := hprogress.lays hlays
  exact ⟨hplain, hprogress.unshared, hprogress.closed.trans h.opened, settled', hlays'⟩

theorem Passes.waiting_le (h : Passes start count handed after) :
    after.engine.queue.length ≤ start.engine.queue.length + handed := by
  induction h with
  | refl => exact Nat.le_refl _
  | step h hprogress ih =>
    have := hprogress.waiting_le
    omega

/-- A few steps hand out few generations: each one for every table that waits, at most. -/
theorem Passes.handed_lt (h : Passes start count handed after) :
    handed + start.engine.queue.length < 2 ^ count * (start.engine.queue.length + 1) := by
  induction h with
  | refl => omega
  | step h hprogress ih =>
    have hmore := hprogress.handed_le
    have hwaiting := h.waiting_le
    rw [Nat.pow_succ, Nat.mul_comm (2 ^ _), Nat.mul_assoc]
    omega

theorem Passes.next (h : Passes start count handed after) :
    after.next = start.next + .ofNat handed := by
  induction h with
  | refl => exact (UInt64.add_zero _).symm
  | step h hprogress ih => rw [hprogress.next, ih, UInt64.ofNat_add, UInt64.add_assoc]

theorem Passes.keeps {recorded : UInt64} (h : Passes start count handed after)
    (hkeeps : start.Keeps recorded) (hroom : start.next.toNat + handed < UInt64.size) :
    ∃ recorded', recorded ≤ recorded' ∧ after.Keeps recorded' := by
  induction h with
  | refl => exact ⟨recorded, UInt64.le_refl _, hkeeps⟩
  | @step count handed more _ middle after h hprogress ih =>
    obtain ⟨recorded', hle, hmiddle⟩ := ih (by omega)
    have hnext : middle.next.toNat = start.next.toNat + handed := by
      rw [h.next, toNat_add_ofNat (by omega)]
    obtain ⟨recorded'', hle', hafter⟩ := hprogress.keeps hmiddle (by omega)
    exact ⟨recorded'', UInt64.le_trans hle hle', hafter⟩

/-- **A flush** is a step, whether it succeeds or not. -/
theorem serves_flush (h : start.Serves base writes) :
    ∃ handed, Progress start handed False (flush.run.run start).2 ∧
      (flush.run.run start).2.Serves base writes := by
  have hruns : Runs _ start _ _ := runs_flush h.opened h.unshared h.sound
  obtain ⟨⟨hprogress, -⟩, -⟩ := hruns.apply h.plain
  exact ⟨_, hprogress.mono False.elim, h.progress hprogress (hruns.plain h.plain)⟩

/-- **A compaction** is a step, whether it succeeds or not. -/
theorem serves_compact (inUse : Handle → Bool) (h : start.Serves base writes) :
    ∃ handed, Progress start handed False ((compact inUse).run.run start).2 ∧
      ((compact inUse).run.run start).2.Serves base writes := by
  have hruns : Runs _ start _ _ := runs_compact inUse h.opened h.unshared h.sound
  obtain ⟨hpost, -⟩ := hruns.apply h.plain
  have hprogress : Progress start (merges start) False ((compact inUse).run.run start).2 := by
    cases hresult : ((compact inUse).run.run start).1 with
    | ok replaced =>
      rw [hresult] at hpost
      exact hpost.1.mono False.elim
    | error error =>
      rw [hresult] at hpost
      exact Growth.toProgress hpost
  exact ⟨_, hprogress, h.progress hprogress (hruns.plain h.plain)⟩

/-- **A closing** is a step; if it succeeds, all writes are in the segments that were there before the
engine let go of them. -/
theorem serves_close (h : start.Serves base writes) :
    ((close.run.run start).1 = .ok () ∧ ∃ handed last, Progress start handed True last ∧
      (close.run.run start).2 = last.emptied) ∨
    ((∃ error, (close.run.run start).1 = .error error) ∧
      ∃ handed, Progress start handed False (close.run.run start).2 ∧
        (close.run.run start).2.Serves base writes) := by
  have hruns : Runs _ start _ _ := runs_close h.opened h.unshared h.sound
  obtain ⟨hpost, -⟩ := hruns.apply h.plain
  cases hresult : (close.run.run start).1 with
  | ok value =>
    rw [hresult] at hpost
    obtain ⟨last, hgrowth, hlast⟩ := hpost
    exact .inl ⟨rfl, _, last, hgrowth.toProgress, hlast⟩
  | error error =>
    rw [hresult] at hpost
    have hprogress := Growth.toProgress hpost
    exact .inr ⟨⟨error, rfl⟩, _, hprogress, h.progress hprogress (hruns.plain h.plain)⟩

end Passes

end Maintenance

namespace CommandLine

open Maintenance (Workspace Passes Progress mirrors_get)

/-! ## Commands -/

/-- What a command writes. -/
def Command.written : Command → List Entry
  | .put key value => [.put (Text.Utf8.encode key) (Text.Utf8.encode value)]
  | .del key => [.tombstone (Text.Utf8.encode key)]
  | _ => []

/-- What a command prints where a store has the given content. -/
def Command.Prints (content : Content) : Command → String → Prop
  | .get key, output => output = match content (Text.Utf8.encode key) with
    | some value => Text.Utf8.decode value ++ "\n"
    | none => "(nil)\n"
  | .scan start stop, output => ∃ entries, World.Lists content
      ⟨start.map Text.Utf8.encode, stop.map Text.Utf8.encode⟩ entries ∧
        output = String.join (entries.map entryLine)
  | .stats, _ => True
  | _, output => output = "OK\n"

variable {base : Content} {start : Workspace} {command : Command}

/-- What becomes of a workspace in a session: it begins with the write of the command, if it has one, and
goes on with a few steps of maintenance. -/
structure Attempts (base : Content) (command : Command) (count : Nat) (start after : Workspace) : Prop where
  begun : ∃ begun handed, begun.engine = start.engine ∧ begun.disk = start.disk ∧
    Passes begun count handed after
  serves : after.Serves base command.written

theorem run_write (entry : Entry) (hopen : start.engine.closed = false) :
    (write entry).run.run start = (.ok "OK\n",
      { start with memory := start.memory.insert start.engine.active entry }) := by
  refine (Maintenance.run_get_bind _).trans ?_
  simp only [Engine.upsert, hopen]
  rfl

theorem Attempts.refl (h : start.Serves base command.written) : Attempts base command 0 start start :=
  ⟨⟨start, 0, rfl, rfl, .refl⟩, h⟩

theorem Attempts.step {count handed : Nat} {complete : Prop} {middle after : Workspace}
    (h : Attempts base command count start middle) (hprogress : Progress middle handed complete after)
    (hserves : after.Serves base command.written) : Attempts base command (count + 1) start after := by
  obtain ⟨begun, earlier, hengine, hdisk, hpasses⟩ := h.begun
  exact ⟨⟨begun, _, hengine, hdisk, hpasses.step hprogress⟩, hserves⟩

/-- A write is accepted, and confirmed. -/
theorem write_attempts {entry : Entry} (command : Command) (h : start.Serves base []) (hwritten : command.written = [entry]) :
    Attempts base command 0 start ((write entry).run.run start).2 ∧
      ((write entry).run.run start).1 = .ok "OK\n" := by
  obtain ⟨settled, hlays⟩ := h.lays
  have hserves : Workspace.Serves base command.written
      { start with memory := start.memory.insert start.engine.active entry } := by
    rw [hwritten]
    exact ⟨h.plain, h.unshared, h.opened, settled, hlays.insert entry⟩
  rw [run_write entry h.opened]
  exact ⟨⟨⟨{ start with memory := start.memory.insert start.engine.active entry }, 0, rfl, rfl, .refl⟩,
    hserves⟩, rfl⟩

theorem run_confirmed {α : Type} (operation : Maintenance.MaintenanceM α) :
    (do let _ ← operation; return "OK\n" : Maintenance.MaintenanceM String).run.run start =
      ((operation.run.run start).1.map fun _ => "OK\n", (operation.run.run start).2) := by
  rw [ExceptT.run_bind, StateT.run_bind]
  cases operation.run.run start with
  | mk result after => cases result <;> rfl

/-- **A command** is carried out in one step at most, and prints what there is to be read. -/
theorem execute_attempts (command : Command) (h : start.Serves base []) :
    ∃ count ≤ 1, Attempts base command count start ((execute command).run.run start).2 ∧
      ∀ text, ((execute command).run.run start).1 = .ok text → command.Prints base text := by
  obtain ⟨settled, hlays⟩ := h.lays
  have hcontent : start.engine.content start.memory = base := hlays.content_eq
  have hconfirmed : ∀ {α : Type} {result : Except Error α} {text},
      (result.map fun _ => "OK\n") = .ok text → text = "OK\n" := by
    rintro α (error | a) text htext
    · cases htext
    · exact (Except.ok.inj htext).symm
  cases command with
  | get key =>
    have hrun : (execute (.get key)).run.run start = (.ok (match base (Text.Utf8.encode key) with
        | some value => Text.Utf8.decode value ++ "\n"
        | none => "(nil)\n"), start) := by
      refine (Maintenance.run_get_bind _).trans ?_
      dsimp only
      rw [Engine.get_eq_content h.opened, hcontent]
      cases base (Text.Utf8.encode key) <;> rfl
    rw [hrun]
    exact ⟨0, Nat.zero_le _, .refl h, fun text htext => (Except.ok.inj htext).symm⟩
  | put key value =>
    obtain ⟨hattempts, hok⟩ := write_attempts (.put key value) h rfl
    exact ⟨0, Nat.zero_le _, hattempts, fun text htext => (Except.ok.inj (hok.symm.trans htext)).symm⟩
  | del key =>
    obtain ⟨hattempts, hok⟩ := write_attempts (.del key) h rfl
    exact ⟨0, Nat.zero_le _, hattempts, fun text htext => (Except.ok.inj (hok.symm.trans htext)).symm⟩
  | scan first last =>
    have hentries : start.engine.entries start.memory
        ⟨first.map Text.Utf8.encode, last.map Text.Utf8.encode⟩ =
          .ok (merged start.memory start.engine.tables start.engine.segments
            ⟨first.map Text.Utf8.encode, last.map Text.Utf8.encode⟩) := by
      rw [Engine.entries, Engine.range, h.opened]
      rfl
    have hrun : (execute (.scan first last)).run.run start =
        (.ok (String.join ((merged start.memory start.engine.tables start.engine.segments
          ⟨first.map Text.Utf8.encode, last.map Text.Utf8.encode⟩).map entryLine)), start) := by
      refine (Maintenance.run_get_bind _).trans ?_
      dsimp only
      rw [hentries]
      rfl
    rw [hrun]
    refine ⟨0, Nat.zero_le _, .refl h, fun text htext => ⟨_, ?_, (Except.ok.inj htext).symm⟩⟩
    exact hcontent ▸ World.lists_merged hlays.sound.ascending _
  | flush =>
    obtain ⟨handed, hprogress, hserves⟩ := Maintenance.serves_flush h
    have hrun : (execute .flush).run.run start = _ := run_confirmed Maintenance.flush
    rw [hrun]
    exact ⟨1, Nat.le_refl _, (Attempts.refl h).step hprogress hserves, fun text => hconfirmed⟩
  | compact =>
    obtain ⟨handed, hprogress, hserves⟩ := Maintenance.serves_compact (fun _ => false) h
    have hrun : (execute .compact).run.run start = _ :=
      run_confirmed (Maintenance.compact fun _ => false)
    rw [hrun]
    exact ⟨1, Nat.le_refl _, (Attempts.refl h).step hprogress hserves, fun text => hconfirmed⟩
  | stats => exact ⟨0, Nat.zero_le _, .refl h, fun _ _ => trivial⟩

/-! ## Sessions -/

theorem run_session (command : Command) : (session command).run start =
    match (execute command).run.run start with
    | (.ok text, middle) =>
      match Maintenance.close.run.run middle with
      | (.ok _, after) => ((text, true), after)
      | (.error _, after) => ((text, false), (Maintenance.close.run.run after).2)
    | (.error _, middle) => (("", false), (Maintenance.close.run.run middle).2) := by
  show ((execute command).run >>= _).run start = _
  rw [StateT.run_bind]
  cases (execute command).run.run start with
  | mk printed middle =>
    cases printed with
    | error error => rfl
    | ok text =>
      show (Maintenance.close.run >>= _).run middle = _
      rw [StateT.run_bind]
      dsimp only
      cases Maintenance.close.run.run middle with
      | mk closed after => cases closed <;> rfl

/-- What a session leaves: the workspace after a few steps of maintenance, except that the engine may have
let go of its data. If it succeeds, all that was to be written is in the segments, and what there was to
be read is printed. -/
structure Leaves (base : Content) (command : Command) (start : Workspace) (output : String) (done : Bool)
    (after : Workspace) : Prop where
  attempts : ∃ count begun handed last settled, count ≤ 3 ∧
    begun.engine = start.engine ∧ begun.disk = start.disk ∧ Passes begun count handed last ∧
    Lays base command.written settled last.memory last.engine ∧
    after.disk = last.disk ∧ after.next = last.next ∧
    (done = true → settled = command.written.length)
  prints : done = true → command.Prints base output

theorem Attempts.leaves {count : Nat} {after : Workspace} (h : Attempts base command count start after)
    (hcount : count ≤ 3) (output : String) : Leaves base command start output false after := by
  obtain ⟨begun, handed, hengine, hdisk, hpasses⟩ := h.begun
  obtain ⟨settled, hlays⟩ := h.serves.lays
  exact ⟨⟨count, begun, handed, after, settled, hcount, hengine, hdisk, hpasses, hlays, rfl, rfl, nofun⟩,
    nofun⟩

/-- **A closing** ends a session, or it is one more step that may be tried again. -/
theorem Attempts.close {count : Nat} {middle : Workspace} (h : Attempts base command count start middle)
    (hcount : count < 3) :
    ((Maintenance.close.run.run middle).1 = .ok () ∧ ∀ output done,
      (done = true → command.Prints base output) →
        Leaves base command start output done (Maintenance.close.run.run middle).2) ∨
    ((∃ error, (Maintenance.close.run.run middle).1 = .error error) ∧
      Attempts base command (count + 1) start (Maintenance.close.run.run middle).2) := by
  obtain ⟨begun, earlier, hengine, hdisk, hpasses⟩ := h.begun
  rcases Maintenance.serves_close h.serves with
    ⟨hok, handed, last, hprogress, hlast⟩ | ⟨herror, handed, hprogress, hserves⟩
  · refine .inl ⟨hok, fun output done hprints => ⟨?_, hprints⟩⟩
    obtain ⟨settled, hlays⟩ := h.serves.lays
    obtain ⟨settled', -, hlays', hall⟩ := hprogress.lays hlays
    rw [hlast]
    exact ⟨count + 1, begun, _, last, settled', hcount, hengine, hdisk, hpasses.step hprogress, hlays',
      rfl, rfl, fun _ => hall trivial⟩
  · exact .inr ⟨herror, h.step hprogress hserves⟩

/-- **A session** either succeeds, or leaves its write in the directory as a whole or not at all. -/
theorem session_leaves (command : Command) (h : start.Serves base []) :
    Leaves base command start ((session command).run start).1.1 ((session command).run start).1.2
      ((session command).run start).2 := by
  obtain ⟨count, hcount, hattempts, hprints⟩ := execute_attempts command h
  rw [run_session]
  cases hrun : (execute command).run.run start with
  | mk printed middle =>
    rw [hrun] at hattempts hprints
    have hclose := hattempts.close (by omega)
    cases printed with
    | error error =>
      rcases hclose with ⟨-, hleaves⟩ | ⟨-, hagain⟩
      · exact hleaves "" false nofun
      · exact hagain.leaves (by omega) ""
    | ok text =>
      dsimp only
      rcases hclose with ⟨hok, hleaves⟩ | ⟨⟨error, herror⟩, hagain⟩
      · cases hclosed : Maintenance.close.run.run middle with
        | mk closed after =>
          rw [hclosed] at hok hleaves
          cases hok
          exact hleaves text true fun _ => hprints text rfl
      · cases hclosed : Maintenance.close.run.run middle with
        | mk closed after =>
          rw [hclosed] at herror hagain
          cases herror
          rcases hagain.close (by omega) with ⟨-, hleaves⟩ | ⟨-, hlast⟩
          · exact hleaves text false nofun
          · exact hlast.leaves (by omega) text

theorem written_length_le (command : Command) : command.written.length ≤ 1 := by
  cases command <;> simp [Command.written]

/-- What a session leaves can be opened again, and has the write of the command or not. The next generation
tells how many were handed out. -/
theorem Leaves.survives {output : String} {done : Bool} {after : Workspace} {recorded : UInt64}
    (h : Leaves base command start output done after) (hqueue : start.engine.queue = [])
    (hkeeps : start.Keeps recorded)
    (hroom : start.next.toNat + (after.next - start.next).toNat < UInt64.size) :
    ∃ segments, Survives (start.next.toNat + (after.next - start.next).toNat) segments after.snapshot ∧
      (Content.ofSegments segments = Content.after base command.written ∨
        done = false ∧ Content.ofSegments segments = base) := by
  obtain ⟨count, begun, handed, last, settled, hcount, hengine, hdisk, hpasses, hlays, hafter, hnext,
    hdone⟩ := h.attempts
  have hbegun : begun.next = start.next := by rw [Workspace.next, hengine, Workspace.next]
  have hspent : (after.next - start.next).toNat = handed := by
    have hfew := hpasses.handed_lt
    rw [hengine, hqueue, List.length_nil, Nat.zero_add, Nat.mul_one, Nat.add_zero] at hfew
    have hpow : 2 ^ count ≤ 2 ^ 3 := Nat.pow_le_pow_right (by omega) hcount
    rw [hnext, hpasses.next, hbegun, UInt64.add_comm, UInt64.add_sub_cancel, UInt64.toNat_ofNat_of_lt']
    show handed < 2 ^ 64
    omega
  rw [hspent] at hroom ⊢
  have hkeeps' : begun.Keeps recorded := by
    rw [Workspace.Keeps, Workspace.snapshot, hbegun, hengine, hdisk]
    exact hkeeps
  obtain ⟨recorded', -, hkept⟩ := hpasses.keeps hkeeps' (by rw [hbegun]; exact hroom)
  have hlimit : last.next.toNat = start.next.toNat + handed := by
    rw [hpasses.next, hbegun, toNat_add_ofNat hroom]
  refine ⟨last.engine.live, ?_, ?_⟩
  · rw [Workspace.snapshot, hafter, ← hlimit]
    exact ⟨recorded', hkept.recoverable, UInt64.le_iff_toNat_le.1 hkept.recorded_le, hkept.tidy⟩
  · -- One write at most is settled or not.
    rw [hlays.segments]
    have hlength := written_length_le command
    have hsettled := hlays.settled_le
    by_cases hall : settled = command.written.length
    · rw [hall, List.take_length]
      exact .inl rfl
    · refine .inr ⟨?_, ?_⟩
      · cases done with
        | true => exact absurd (hdone rfl) hall
        | false => rfl
      · obtain rfl : settled = 0 := by omega
        rfl

/-! ## At any path -/

section Mirroring

variable {room : Option Nat} {origin : Directory}

theorem mirrors_write (entry : Entry) :
    Mirrors (Workspace.Shadows room origin) (Agree Eq) (write entry).run (write entry).run := by
  refine .andThen mirrors_get ?_
  rintro ⟨engine, memory, disk⟩ ⟨_, _, disk'⟩ ⟨rfl, rfl, hdisk⟩
  dsimp only
  split
  · exact .throw (.refl _)
  · exact fun _ _ _ => ⟨rfl, rfl, rfl, hdisk⟩

theorem mirrors_execute (command : Command) :
    Mirrors (Workspace.Shadows room origin) (Agree Eq) (execute command).run (execute command).run := by
  cases command with
  | get key =>
    refine .andThen mirrors_get ?_
    rintro ⟨engine, memory, disk⟩ ⟨_, _, disk'⟩ ⟨rfl, rfl, -⟩
    refine .andThen (.settled _) ?_
    rintro value _ rfl
    cases value with
    | none => exact .value rfl
    | some value => exact .value rfl
  | put key value => exact mirrors_write _
  | del key => exact mirrors_write _
  | scan first last =>
    refine .andThen mirrors_get ?_
    rintro ⟨engine, memory, disk⟩ ⟨_, _, disk'⟩ ⟨rfl, rfl, -⟩
    refine .andThen (.settled _) ?_
    rintro entries _ rfl
    exact .value rfl
  | flush => exact .andThen Maintenance.mirrors_flush fun _ _ _ => .value rfl
  | compact => exact .andThen (Maintenance.mirrors_compact _) fun _ _ _ => .value rfl
  | stats =>
    refine .andThen mirrors_get ?_
    rintro ⟨engine, memory, disk⟩ ⟨_, _, disk'⟩ ⟨rfl, rfl, -⟩
    exact .value rfl

/-- **A session** at a path that leaves little room for names. -/
theorem mirrors_session (command : Command) :
    Mirrors (Workspace.Shadows room origin) Eq (session command) (session command) := by
  have hclose : Mirrors (Workspace.Shadows room origin) (Agree Eq) Maintenance.close.run
      Maintenance.close.run := Maintenance.mirrors_close
  have hagain : ∀ output : String, Mirrors (Workspace.Shadows room origin) Eq
      (do let _ ← Maintenance.close.run; return (output, false))
      (do let _ ← Maintenance.close.run; return (output, false)) := fun output =>
    .bind hclose fun _ _ _ => .pure rfl
  refine .bind (mirrors_execute command) ?_
  rintro (error | text) (other | text') hprinted
  · exact hagain ""
  · exact hprinted.elim
  · exact hprinted.elim
  · cases hprinted
    refine .bind hclose ?_
    rintro (error | ⟨⟩) (other | ⟨⟩) hclosed
    · exact hagain text
    · exact hclosed.elim
    · exact hclosed.elim
    · exact .pure rfl

end Mirroring

end CommandLine

section Opening

variable {room : Option Nat} {origin : Directory} {disk : Disk} {s : Snapshot} {limit : Nat}
  {segments : List Segment}

/-- **Opening a directory** that the store has used finds its segments; it fails only if the manifest cannot
be written, and then leaves what is committed. -/
theorem Manager.recovers (config : Config) (hshadows : Disk.Shadows room origin disk (.ofSnapshot s))
    (h : Survives limit segments s) (hpos : 0 < limit) (hlimit : limit < UInt64.size) :
    ∃ t, Disk.Shadows room origin ((recover config).run.run disk).2 (.ofSnapshot t) ∧
      ((∃ manager, ((recover config).run.run disk).1 = .ok (manager, segments) ∧
          manager.next.toNat ≤ limit ∧ Kept manager.next manager.next segments t) ∨
        ((∃ error, ((recover config).run.run disk).1 = .error error) ∧ Survives limit segments t ∧
          (s.holding (FileName.temporary FileName.manifest) = .folder ∨
            s.holding FileName.manifest = .folder))) := by
  obtain ⟨recorded, hrecoverable, hrecorded, htidy⟩ := h
  obtain ⟨hagree, hafter⟩ := mirrors_recover config _ _ hshadows
  have hruns : Runs (recover config).run (Disk.ofSnapshot s) _ _ :=
    runs_recover config hrecoverable htidy hrecorded hpos hlimit
  obtain ⟨hpost, -⟩ := hruns.apply (Disk.plain_ofSnapshot s)
  refine ⟨_, hafter.rebase, ?_⟩
  cases hshadow : ((recover config).run.run (Disk.ofSnapshot s)).1 with
  | error error =>
    rw [hshadow] at hagree hpost
    obtain ⟨hleft, htidy', hreason⟩ := hpost
    cases hresult : ((recover config).run.run disk).1 with
    | error other => exact .inr ⟨⟨other, rfl⟩, ⟨recorded, hleft, hrecorded, htidy'⟩, hreason⟩
    | ok opened =>
      rw [hresult] at hagree
      exact hagree.elim
  | ok opened =>
    rw [hshadow] at hagree hpost
    obtain ⟨rfl, hnext, -, hkept, -⟩ := hpost
    cases hresult : ((recover config).run.run disk).1 with
    | error other =>
      rw [hresult] at hagree
      exact hagree.elim
    | ok opened' =>
      rw [hresult] at hagree
      cases hagree
      exact .inl ⟨opened.1, rfl, hnext, hkept⟩

/-- A directory that was just opened. -/
def CommandLine.opening (config : Config) (manager : Manager) (segments : List Segment) (disk : Disk) :
    Maintenance.Workspace :=
  ⟨(Engine.ofSegments .empty config manager segments).1, (Engine.ofSegments .empty config manager segments).2,
    disk⟩

theorem CommandLine.opening_serves (config : Config) (manager : Manager) {recorded next : UInt64}
    (hkept : Kept recorded next segments s) :
    (opening config manager segments (.ofSnapshot s)).Serves (Content.ofSegments segments) [] :=
  ⟨Disk.plain_ofSnapshot s, hkept.unshared, rfl, 0, Engine.lays_ofSegments .empty config manager
    fun segment hmem => (hkept.committed.stored segment hmem).ascending⟩

/-- **A session** in a directory just opened leaves it so that it can be opened again, with the write of the
command or without it. -/
theorem CommandLine.session_survives (config : Config) {manager : Manager} (command : Command)
    (hshadows : Disk.Shadows room origin disk (.ofSnapshot s))
    (hkept : Kept manager.next manager.next segments s) {output : String} {done : Bool}
    {after : Maintenance.Workspace}
    (hsession : (session command).run (opening config manager segments disk) = ((output, done), after))
    (hroom : manager.next.toNat + (after.next - manager.next).toNat < UInt64.size) :
    ∃ t left, Disk.Shadows room origin after.disk (.ofSnapshot t) ∧
      Survives (manager.next.toNat + (after.next - manager.next).toNat) left t ∧
      (Content.ofSegments left = Content.after (Content.ofSegments segments) command.written ∨
        done = false ∧ Content.ofSegments left = Content.ofSegments segments) ∧
      (done = true → command.Prints (Content.ofSegments segments) output) := by
  have hstart : Maintenance.Workspace.Shadows room origin (opening config manager segments disk)
      (opening config manager segments (.ofSnapshot s)) := ⟨rfl, rfl, hshadows⟩
  obtain ⟨hagree, hafter⟩ := mirrors_session command _ _ hstart
  have hleaves := session_leaves command (opening_serves config manager hkept)
  cases hshadow : (session command).run (opening config manager segments (.ofSnapshot s)) with
  | mk printed shadow =>
    rw [hshadow, hsession] at hagree hafter
    rw [hshadow] at hleaves
    cases hagree
    have hnext : shadow.next = after.next := by
      rw [Maintenance.Workspace.next, hafter.engine, Maintenance.Workspace.next]
    have hkeeps : (opening config manager segments (.ofSnapshot s)).Keeps manager.next := by
      have hlive : (opening config manager segments (.ofSnapshot s)).engine.live = segments :=
        Memory.segment_adoptAll .empty config.dataDir segments
      rw [Maintenance.Workspace.Keeps, hlive]
      exact hkept
    rw [← hnext] at hroom ⊢
    obtain ⟨left, hsurvives, hcontent⟩ := hleaves.survives rfl hkeeps hroom
    exact ⟨_, left, hafter.disk.rebase, hsurvives, hcontent, hleaves.prints⟩

end Opening

end LsmTree
