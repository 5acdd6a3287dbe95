import LsmTree.Proofs.CommandRuns
import LsmTree.Proofs.Placement

/-!
# Runs of the command line, one after another

A data directory outlives the runs that use it. Between two runs directories may be made, so that the names
of files are taken and the next run fails, and taken away again.

* **`Volume.Holds`** — what is at a path can be opened and has given segments;
* **`Manager.load_opens`**, **`CommandLine.invoke_holds`**, **`CommandLine.turn_holds`** — what an opening, a
  run, and a run or a change of directories make of it;
* **`CommandLine.Behaves`** — runs behave like reads and writes of a map that lasts;
* **`CommandLine.runs_behave_as_durable_map`** — they do, from a directory that is missing or empty on.
-/

namespace LsmTree

open FileName (manifest temporary)

/-! ## What the store finds at a path -/

/-- Directories do not matter for the files, those under names that are too long included. -/
theorem Snapshot.sameFiles_shaded {room : Option Nat} {s t : Snapshot} (hu : (s.shaded room).Unshared)
    (hcontents : t.contents = s.contents) (hnames : ∀ name, t.names.file? name = s.names.file? name) :
    SameFiles (s.shaded room) (t.shaded room) := by
  have hget : ∀ name number, (t.shaded room).names.get? name = some (.file number) ↔
      (s.shaded room).names.get? name = some (.file number) := fun name number => by
    rw [← Snapshot.file?_eq_some, ← Snapshot.file?_eq_some]
    show (t.names.shaded room).file? name = some number ↔ (s.names.shaded room).file? name = some number
    rw [Directory.file?_shaded, Directory.file?_shaded, hnames]
  have hsame : (t.shaded room).contents = (s.shaded room).contents := hcontents
  refine ⟨⟨fun hfile => ?_, fun ha hb => hu.alone ((hget _ _).1 ha) ((hget _ _).1 hb)⟩, fun name bytes => ?_⟩
  · rw [hsame]
    exact hu.made ((hget _ _).1 hfile)
  · rw [Snapshot.holding_eq_file, Snapshot.holding_eq_file, hsame]
    exact exists_congr fun number => and_congr_left fun _ => hget name number

namespace Volume

variable {volume changed : Volume} {path : String} {dir : Directory} {limit : Nat} {segments : List Segment}

/-- Where the path leads, there is what the store can open and then has the given segments. -/
def Holds (path : String) (limit : Nat) (segments : List Segment) (volume : Volume) : Prop :=
  Survives limit segments (volume.shown path)

theorem Holds.keeps (h : volume.Holds path limit segments) (hkeeps : volume.Keeps changed) :
    changed.Holds path limit segments := by
  have hfile : ∀ name, (changed.snapshot path).names.file? name = (volume.snapshot path).names.file? name :=
    hkeeps.below (Path.resolve path)
  obtain ⟨recorded, hrecoverable, hrecorded, htidy⟩ := h
  have hsame : Snapshot.SameFiles (volume.shown path) (changed.shown path) :=
    Snapshot.sameFiles_shaded hrecoverable.unshared hkeeps.contents hfile
  exact ⟨recorded, hrecoverable.of_sameFiles hsame, hrecorded, htidy.of_sameFiles hsame⟩

/-- Nothing is where the path leads, or an empty directory. -/
def Vacant (volume : Volume) (path : String) : Prop :=
  ∀ dir, volume.root.folderAt (Path.resolve path) = .ok dir → dir = .empty

/-- Where nothing is, the store finds no segments. -/
theorem Vacant.holds (h : volume.Vacant path) : volume.Holds path 1 [] := by
  have hempty : (volume.snapshot path).names = .empty := by
    show volume.root.below (Path.resolve path) = .empty
    rcases Directory.folderAt_or_below volume.root (Path.resolve path) with hfolder | hbelow
    · exact h _ hfolder
    · exact hbelow
  have hget : ∀ name number, (volume.shown path).names.get? name ≠ some (.file number) := by
    intro name number hfile
    rw [← Snapshot.file?_eq_some, shown, Snapshot.shaded, Directory.file?_shaded, hempty] at hfile
    split at hfile <;> cases hfile
  have hholding : ∀ name bytes, (volume.shown path).holding name ≠ .file bytes := by
    intro name bytes hfile
    obtain ⟨number, hnumber, -⟩ := Snapshot.holding_eq_file.1 hfile
    exact hget name number hnumber
  refine ⟨0, .inr ⟨rfl, rfl, ⟨?_, ?_⟩, ?_⟩, by decide, ?_⟩
  · exact fun hfile => absurd hfile (hget _ _)
  · exact fun hfile => absurd hfile (hget _ _)
  · exact fun name bytes hfile => absurd hfile (hholding name bytes)
  · exact fun name bytes hfile => absurd hfile (hholding name bytes)

end Volume

/-! ## Opening at a path -/

namespace Volume

variable {volume : Volume} {path : String} {dir : Directory} {cause : OsError}

theorem enter_unreached (h : volume.folder path = .error cause) :
    ∃ error, Disk.enter.run.run (volume.disk path) = (.error error, volume.disk path) := by
  by_cases hempty : path = ""
  · subst hempty
    exact ⟨_, rfl⟩
  · refine ⟨.io cause, ?_⟩
    simp [Disk.enter, ExceptT.run, ExceptT.mk, StateT.run, disk, hempty, h]

/-- A path to a directory that can be opened: its path leaves room, and no directory is where the manifest
is to be written. -/
def Ready (volume : Volume) (path : String) : Prop :=
  fitsIn (Path.room? path) (temporary manifest) = true ∧ ∃ dir, volume.folder path = .ok dir ∧
    dir.NoFolder manifest ∧ dir.NoFolder (temporary manifest)

theorem shown_noFolder {name : String} (h : volume.folder path = .ok dir)
    (hfits : fitsIn (Path.room? path) name = true) (hfree : dir.NoFolder name) :
    (volume.shown path).holding name ≠ .folder := by
  intro hfolded
  obtain ⟨entries, hget⟩ := Snapshot.holding_eq_folder.1 hfolded
  have hget' : (dir.shaded (Path.room? path)).get? name = some (.folder entries) := by
    rw [shown, snapshot_of_folder h] at hget
    exact hget
  rw [Directory.get?_shaded_of_fits hfits] at hget'
  exact hfree entries hget'

theorem Ready.holding (h : volume.Ready path) : (volume.shown path).holding manifest ≠ .folder ∧
    (volume.shown path).holding (temporary manifest) ≠ .folder := by
  obtain ⟨hfits, dir, hdir, hmanifest, htemporary⟩ := h
  exact ⟨shown_noFolder hdir (FileName.fitsIn_of_temporary hfits) hmanifest,
    shown_noFolder hdir hfits htemporary⟩

/-- A directory where a manager was just opened. -/
structure Opened (path : String) (limit : Nat) (manager : Manager) (segments : List Segment)
    (volume : Volume) : Prop where
  reached : ∃ dir, volume.folder path = .ok dir
  next_le : manager.next.toNat ≤ limit
  kept : Kept manager.next manager.next segments (volume.shown path)

end Volume

namespace Manager

variable {config : Config} {volume changed : Volume} {limit : Nat} {segments : List Segment}

theorem keeps_prepare (config : Config) (volume : Volume) : volume.Keeps (prepare config volume).2 := by
  unfold prepare
  split
  · exact .refl _
  · exact .refl _
  · split
    · exact Volume.keeps_makeAll volume config.dataDir
    · exact .refl _
  · exact .refl _

theorem prepare_of_ready (h : volume.Ready config.dataDir) : prepare config volume = (.ok (), volume) := by
  obtain ⟨-, dir, hdir, -⟩ := h
  rw [prepare, Volume.node_of_folder hdir]

theorem recover_of_enter {disk : Disk} {error : Error}
    (h : Disk.enter.run.run disk = (.error error, disk)) :
    (recover config).run.run disk = (.error error, disk) := by
  have hnames : Disk.fileNames.run.run disk = (.error error, disk) := by
    rw [Disk.fileNames, ExceptT.run_bind, StateT.run_bind, h]
    rfl
  have hscan : scan.run.run disk = (.error error, disk) := by
    rw [scan, ExceptT.run_bind, StateT.run_bind, hnames]
    rfl
  rw [recover, ExceptT.run_bind, StateT.run_bind, hscan]
  rfl

/-- What an opening gives: the segments that are there, or an error, unless there was nothing in the way. -/
def Opens (path : String) (limit : Nat) (segments : List Segment) (ready : Prop)
    (outcome : Except Error (Manager × List Segment) × Volume) : Prop :=
  (∃ manager, outcome.1 = .ok (manager, segments) ∧ outcome.2.Opened path limit manager segments) ∨
    ((∃ error, outcome.1 = .error error) ∧ outcome.2.Holds path limit segments ∧ ¬ ready)

theorem onDisk_recover (h : volume.Holds config.dataDir limit segments) (hpos : 0 < limit)
    (hlimit : limit < UInt64.size) :
    Opens config.dataDir limit segments (volume.Ready config.dataDir)
      (volume.onDisk config.dataDir (recover config).run) := by
  show Opens _ _ _ _ (((recover config).run.run (volume.disk config.dataDir)).1,
    volume.update config.dataDir ((recover config).run.run (volume.disk config.dataDir)).2)
  cases hfolder : volume.folder config.dataDir with
  | error cause =>
    -- A directory that cannot be reached cannot be listed either, which comes first.
    obtain ⟨error, henter⟩ := Volume.enter_unreached hfolder
    rw [recover_of_enter henter]
    refine .inr ⟨⟨error, rfl⟩, ?_, fun hready => ?_⟩
    · show (volume.update config.dataDir (volume.disk config.dataDir)).Holds _ _ _
      rw [Volume.update_unreached hfolder]
      exact h
    · obtain ⟨-, dir, hdir, -⟩ := hready
      rw [hfolder] at hdir
      cases hdir
  | ok dir =>
    obtain ⟨t, hafter, hcase⟩ := recovers config (Volume.shadows_disk hfolder) h hpos hlimit
    obtain ⟨hreached, hshown⟩ := Volume.update_shadowed hfolder hafter
    rcases hcase with ⟨manager, hok, hnext, hkept⟩ | ⟨herror, hsurvives, hreason⟩
    · exact .inl ⟨manager, hok, hreached, hnext, hshown.symm ▸ hkept⟩
    · refine .inr ⟨herror, ?_, fun hready => ?_⟩
      · unfold Volume.Holds
        rw [hshown]
        exact hsurvives
      · obtain ⟨hmanifest, htemporary⟩ := hready.holding
        rcases hreason with hfolded | hfolded
        · exact htemporary hfolded
        · exact hmanifest hfolded

/-- **An opening** finds what there is, or leaves it for the next one. -/
theorem load_opens (h : volume.Holds config.dataDir limit segments) (hpos : 0 < limit)
    (hlimit : limit < UInt64.size) :
    Opens config.dataDir limit segments (volume.Ready config.dataDir) (load config volume) := by
  have hkeeps := keeps_prepare config volume
  unfold load
  split
  · next error prepared hprepare =>
    rw [hprepare] at hkeeps
    refine .inr ⟨⟨error, rfl⟩, h.keeps hkeeps, fun hready => ?_⟩
    rw [prepare_of_ready hready] at hprepare
    cases hprepare
  · next prepared hprepare =>
    -- If the directory was ready before, there was nothing to prepare.
    rw [hprepare] at hkeeps
    rcases onDisk_recover (h.keeps hkeeps) hpos hlimit with hopened | ⟨herror, hholds, hready⟩
    · exact .inl hopened
    · refine .inr ⟨herror, hholds, fun hbefore => hready ?_⟩
      rw [prepare_of_ready hbefore] at hprepare
      cases hprepare
      exact hbefore

end Manager

/-! ## One run -/

namespace Engine

variable {config : Config} {memory : Memory} {volume opened : Volume} {segments : List Segment}

theorem load_of_ok {manager : Manager} (h : Manager.load config volume = (.ok (manager, segments), opened)) :
    load config memory volume = (.ok (ofSegments memory config manager segments), opened) := by
  rw [load, h]

theorem load_of_error {error : Error} (h : Manager.load config volume = (.error error, opened)) :
    load config memory volume = (.error error, opened) := by
  rw [load, h]

end Engine

namespace CommandLine

variable {volume : Volume} {path : String} {limit : Nat} {segments : List Segment}

/-- **What a run does** to a store: if it succeeds, its write is there and it has printed what there was to
be read; if it fails, its write is there as a whole or not at all. -/
def Command.Yields (content : Content) (command : Command) (outcome : Outcome) (next : Content) : Prop :=
  outcome.code = success ∧ next = Content.after content command.written ∧
      command.Prints content outcome.output ∨
    outcome.code = failure ∧ (next = Content.after content command.written ∨ next = content)

/-- How many generations a run hands out. -/
def spent (invocation : Invocation) (volume : Volume) : Nat :=
  match Engine.load (config invocation.options) .empty volume with
  | (.error _, _) => 0
  | (.ok (engine, memory), volume) =>
    let (_, after, _, _) := Maintenance.run (session invocation.command) engine memory volume
    (after.manager.next - engine.manager.next).toNat

theorem invoke_of_load {invocation : Invocation} {manager : Manager} {opened : Volume} {output : String}
    {done : Bool} {after : Maintenance.Workspace}
    (hload : Manager.load (config invocation.options) volume = (.ok (manager, segments), opened))
    (hsession : (session invocation.command).run (opening (config invocation.options) manager segments
      (opened.disk (config invocation.options).dataDir)) = ((output, done), after)) :
    invoke invocation volume = ⟨if done then success else failure, output,
        opened.update (config invocation.options).dataDir after.disk⟩ ∧
      spent invocation volume = (after.next - manager.next).toNat := by
  have hrun : Maintenance.run (session invocation.command)
      (Engine.ofSegments .empty (config invocation.options) manager segments).1
      (Engine.ofSegments .empty (config invocation.options) manager segments).2 opened = _ :=
    Maintenance.run_eq hsession
  constructor
  · rw [invoke, Engine.load_of_ok hload]
    dsimp only
    rw [hrun]
    rfl
  · rw [spent, Engine.load_of_ok hload]
    dsimp only
    rw [hrun]
    rfl

theorem invoke_of_refused {invocation : Invocation} {error : Error} {opened : Volume}
    (hload : Manager.load (config invocation.options) volume = (.error error, opened)) :
    invoke invocation volume = ⟨failure, "", opened⟩ ∧ spent invocation volume = 0 :=
  ⟨by rw [invoke, Engine.load_of_error hload], by rw [spent, Engine.load_of_error hload]⟩

/-- **A run** leaves what can be opened again. -/
theorem invoke_holds (invocation : Invocation)
    (h : volume.Holds (config invocation.options).dataDir limit segments) (hpos : 0 < limit)
    (hroom : limit + spent invocation volume < UInt64.size) :
    ∃ left, (invoke invocation volume).volume.Holds (config invocation.options).dataDir
        (limit + spent invocation volume) left ∧
      invocation.command.Yields (Content.ofSegments segments) (invoke invocation volume)
        (Content.ofSegments left) := by
  have hopens := Manager.load_opens h hpos (by omega)
  cases hload : Manager.load (config invocation.options) volume with
  | mk result opened =>
    rw [hload] at hopens
    rcases hopens with ⟨manager, rfl, ⟨dir, hdir⟩, hnext, hkept⟩ | ⟨⟨error, rfl⟩, hholds, -⟩
    · cases hsession : (session invocation.command).run (opening (config invocation.options) manager
        segments (opened.disk (config invocation.options).dataDir)) with
      | mk printed after =>
        obtain ⟨output, done⟩ := printed
        obtain ⟨hinvoke, hspent⟩ := invoke_of_load hload hsession
        -- The counter of the manager is at the limit at most, and what the session hands out comes on top.
        rw [hspent] at hroom ⊢
        rw [hinvoke]
        obtain ⟨t, left, hafter, hsurvives, hcontent, hprints⟩ := session_survives _ invocation.command
          (Volume.shadows_disk hdir) hkept hsession (by omega)
        obtain ⟨-, hshown⟩ := Volume.update_shadowed hdir hafter
        refine ⟨left, ?_, ?_⟩
        · unfold Volume.Holds
          rw [hshown]
          exact hsurvives.mono (by omega)
        · cases done with
          | true => exact .inl ⟨rfl, hcontent.resolve_right (by simp), hprints rfl⟩
          | false => exact .inr ⟨rfl, hcontent.imp id And.right⟩
    · obtain ⟨hinvoke, hspent⟩ := invoke_of_refused hload
      rw [hinvoke, hspent]
      exact ⟨segments, hholds, .inr ⟨rfl, .inr rfl⟩⟩

/-! ## Runs one after another -/

/-- What happens to a volume: the program is run, or a directory is made, with those that lead to it, or
taken away. -/
inductive Turn
  | run (arguments : List String)
  | makeFolder (path : String)
  | removeFolder (path : String)

/-- The volume after a turn. -/
def Turn.after (volume : Volume) : Turn → Volume
  | .run arguments => (CommandLine.run arguments volume).volume
  | .makeFolder path => (volume.makeAll path).2
  | .removeFolder path => (volume.removeFolder path).toOption.getD volume

/-- How many generations a turn hands out. -/
def Turn.spent (volume : Volume) : Turn → Nat
  | .run arguments =>
    match Arguments.parse arguments with
    | .ok invocation => CommandLine.spent invocation volume
    | .error _ => 0
  | _ => 0

/-- How many generations some turns hand out. -/
def spentIn (volume : Volume) : List Turn → Nat
  | [] => 0
  | turn :: rest => turn.spent volume + spentIn (turn.after volume) rest

/-- The data directory of a run, if its arguments are well-formed. -/
def dataDir? (arguments : List String) : Option String :=
  match Arguments.parse arguments with
  | .ok invocation => some (config invocation.options).dataDir
  | .error _ => none

/-- A run in a turn is well-formed, and has the path as its data directory. -/
def Turn.Uses (path : String) : Turn → Prop
  | .run arguments => dataDir? arguments = some path
  | _ => True

instance (path : String) : DecidablePred (Turn.Uses path)
  | .run arguments => inferInstanceAs (Decidable (dataDir? arguments = some path))
  | .makeFolder _ | .removeFolder _ => .isTrue trivial

/-- What is stored at a path: whoever can open the directory finds it. That an opening fails takes something
to be in the way. -/
structure Stores (path : String) (content : Content) (volume : Volume) : Prop where
  shows : ∀ (config : Config) engine memory opened, config.dataDir = path →
    Engine.load config .empty volume = (.ok (engine, memory), opened) →
      ∀ key, engine.get memory key = .ok (content key)
  opens : ∀ config : Config, config.dataDir = path → volume.Ready path →
    ∃ engine memory opened, Engine.load config .empty volume = (.ok (engine, memory), opened)

/-- What a turn makes of what is stored: only runs change it, and only as their commands say. -/
def Turn.Makes (volume : Volume) (content next : Content) : Turn → Prop
  | .run arguments => ∃ invocation, Arguments.parse arguments = .ok invocation ∧
      invocation.command.Yields content (CommandLine.run arguments volume) next
  | _ => next = content

/-- **Turns behave like reads and writes of a map that lasts**: at each point the content is stored, and each
turn makes of it what it may, and tells it as it is. -/
def Behaves (path : String) : Content → Volume → List Turn → Prop
  | content, volume, [] => Stores path content volume
  | content, volume, turn :: rest => Stores path content volume ∧
      ∃ next, turn.Makes volume content next ∧ Behaves path next (turn.after volume) rest

theorem dataDir?_eq_some {arguments : List String} : dataDir? arguments = some path ↔
    ∃ invocation, Arguments.parse arguments = .ok invocation ∧ (config invocation.options).dataDir = path := by
  unfold dataDir?
  cases Arguments.parse arguments <;> simp

/-- What can be opened is found as it is. -/
theorem stores_of_holds (h : volume.Holds path limit segments) (hpos : 0 < limit)
    (hlimit : limit < UInt64.size) : Stores path (Content.ofSegments segments) volume := by
  constructor
  · rintro config engine memory opened rfl hload key
    have hopens := Manager.load_opens h hpos hlimit
    cases hcase : Manager.load config volume with
    | mk result found =>
      rw [hcase] at hopens
      rcases hopens with ⟨manager, rfl, hopened⟩ | ⟨⟨error, rfl⟩, -⟩
      · rw [Engine.load_of_ok hcase] at hload
        have hsame := Except.ok.inj (Prod.mk.inj hload).1
        obtain ⟨rfl, rfl⟩ : (Engine.ofSegments .empty config manager segments).1 = engine ∧
            (Engine.ofSegments .empty config manager segments).2 = memory :=
          ⟨congrArg Prod.fst hsame, congrArg Prod.snd hsame⟩
        have hserves := opening_serves config manager hopened.kept
        obtain ⟨settled, hlays⟩ := hserves.lays
        rw [Engine.get_eq_content rfl]
        exact congrArg Except.ok (congrFun hlays.content_eq key)
      · rw [Engine.load_of_error hcase] at hload
        cases (Prod.mk.inj hload).1
  · rintro config rfl hready
    have hopens := Manager.load_opens h hpos hlimit
    cases hcase : Manager.load config volume with
    | mk result found =>
      rw [hcase] at hopens
      rcases hopens with ⟨manager, rfl, -⟩ | ⟨-, -, hnot⟩
      · exact ⟨_, _, found, Engine.load_of_ok hcase⟩
      · exact absurd hready hnot

/-- **One turn** leaves what can be opened again. -/
theorem turn_holds {turn : Turn} (h : volume.Holds path limit segments) (hpos : 0 < limit)
    (huses : turn.Uses path) (hroom : limit + turn.spent volume < UInt64.size) :
    ∃ left, (turn.after volume).Holds path (limit + turn.spent volume) left ∧
      turn.Makes volume (Content.ofSegments segments) (Content.ofSegments left) := by
  cases turn with
  | run arguments =>
    obtain ⟨invocation, hparse, rfl⟩ := dataDir?_eq_some.1 huses
    have hspent : (Turn.run arguments).spent volume = spent invocation volume := by
      rw [Turn.spent, hparse]
    have hrun : run arguments volume = invoke invocation volume := by rw [run, hparse]
    rw [hspent] at hroom ⊢
    obtain ⟨left, hholds, hyields⟩ := invoke_holds invocation h hpos hroom
    rw [← hrun] at hholds hyields
    exact ⟨left, hholds, invocation, hparse, hyields⟩
  | makeFolder other => exact ⟨segments, h.keeps (Volume.keeps_makeAll volume other), rfl⟩
  | removeFolder other =>
    refine ⟨segments, h.keeps ?_, rfl⟩
    cases hremove : volume.removeFolder other with
    | error cause =>
      rw [Turn.after, hremove]
      exact .refl _
    | ok changed =>
      rw [Turn.after, hremove]
      exact Volume.keeps_removeFolder hremove

theorem behaves_of_holds {turns : List Turn} (h : volume.Holds path limit segments) (hpos : 0 < limit)
    (huses : ∀ turn ∈ turns, turn.Uses path) (hroom : limit + spentIn volume turns < UInt64.size) :
    Behaves path (Content.ofSegments segments) volume turns := by
  induction turns generalizing volume limit segments with
  | nil => exact stores_of_holds h hpos hroom
  | cons turn rest ih =>
    rw [spentIn] at hroom
    obtain ⟨left, hholds, hmakes⟩ := turn_holds h hpos (huses turn (List.mem_cons_self ..)) (by omega)
    refine ⟨stores_of_holds h hpos (by omega), _, hmakes, ?_⟩
    exact ih hholds (by omega) (fun later hmem => huses later (List.mem_cons_of_mem _ hmem)) (by omega)

/-- **The command line as a map that lasts.** Runs with well-formed arguments on one data directory, which is
missing or empty at first and in which only directories are made and taken away between the runs: a run that
succeeds has its whole effect, one that fails has it as a whole or not at all, reading changes nothing, and
what a run prints that succeeds is what is stored. -/
theorem runs_behave_as_durable_map {turns : List Turn} (hvacant : volume.Vacant path)
    (huses : ∀ turn ∈ turns, turn.Uses path) (hroom : spentIn volume turns < UInt64.size - 1) :
    Behaves path .empty volume turns :=
  behaves_of_holds hvacant.holds Nat.one_pos huses (by omega)

/-- The exit codes of the runs among some turns, and what they print. -/
def told (volume : Volume) : List Turn → List (Nat × String)
  | [] => []
  | .run arguments :: rest =>
    let outcome := CommandLine.run arguments volume
    (outcome.code, outcome.output) :: told outcome.volume rest
  | turn :: rest => told (turn.after volume) rest

/-- Two writes that fail since directories are in their way: the one of a segment, so that letting go of the
engine writes another one, and then that of the manifest, so that nothing is written. -/
def obstructed : List Turn :=
  [.makeFolder "db/segment_000001.data.tmp", .run ["--data-dir", "db", "put", "k", "v"],
    .makeFolder "db/MANIFEST.tmp", .run ["--data-dir", "db", "del", "k"],
    .removeFolder "db/MANIFEST.tmp", .run ["--data-dir", "db", "get", "k"],
    .run ["--data-dir", "db", "scan"]]

theorem runs_behave_as_durable_map_obstructed : Behaves "db" .empty .empty obstructed ∧
    told .empty obstructed = [(1, "OK\n"), (1, ""), (0, "v\n"), (0, "k\tv\n")] := by
  refine ⟨runs_behave_as_durable_map ?_ ?_ ?_, ?_⟩
  · rintro dir hdir
    cases hdir
  · decide
  · decide +kernel
  · decide +kernel

end CommandLine

end LsmTree
