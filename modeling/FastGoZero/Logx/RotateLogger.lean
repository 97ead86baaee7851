import FastGoZero.Lib.FilePath
import FastGoZero.Lib.GoMap
import FastGoZero.Lib.Runs

/-!
# The rotating logger

The worker of a `RotateLogger` writes the events that it receives one after the other. When the
size rule says so, it closes the file, renames it to the backup name and creates the file anew.
The backup name of a rotation was made from the clock reading of the rotation before, and RFC 3339
texts count seconds. Files are known by their names; their operations succeed, backups are not
compressed and outdated ones not deleted. A clock reading is the text that
`getNowDateInRFC3339Format` makes of it.
-/

namespace FastGoZero.Logx

open Lib List GoMap
open Lib.Str (bytes)

abbrev Files := GoMap Str Str

/-- `os.Rename`. -/
def Files.rename (files : Files) (source target : Str) : Files :=
  match files.lookup source with
  | none => files
  | some content => (files.erase source).insert target content

/-- `os.Create`. -/
def Files.create (files : Files) (name : Str) : Files := files.insert name []

def Files.append (files : Files) (name data : Str) : Files :=
  GoMap.modify files name (· ++ data)

structure SizeLimitRotateRule where
  rotatedTime : Str
  filename : Str
  delimiter : Str
  maxSize : Int

def megaBytes : Int := 1048576

/-- `NewSizeLimitRotateRule`, with the reading it takes. -/
def newSizeLimitRotateRule (now filename delimiter : Str) (maxSize : Int) : SizeLimitRotateRule :=
  ⟨now, filename, delimiter, maxSize * megaBytes⟩

namespace SizeLimitRotateRule

variable (r : SizeLimitRotateRule)

def parseFilename : Str × Str :=
  let logName := FilePath.base r.filename
  let ext := FilePath.ext r.filename
  (logName.take (logName.length - ext.length), ext)

def backupFileName (now : Str) : Str :=
  FilePath.join [FilePath.dir r.filename,
    r.parseFilename.1 ++ r.delimiter ++ now ++ r.parseFilename.2]

def markRotated (now : Str) : SizeLimitRotateRule :=
  { r with rotatedTime := now }

def shallRotate (size : Int) : Bool := 0 < r.maxSize && r.maxSize < size

end SizeLimitRotateRule

/-- The logger with the files around it. -/
structure RotateLogger where
  files : Files
  filename : Str
  backup : Str
  opened : Bool
  rule : SizeLimitRotateRule
  currentSize : Int

/-- An event with the readings that a rotation before it takes. -/
structure Event where
  data : Str
  named : Str
  marked : Str

namespace RotateLogger

/-- `NewLogger` with its `initialize`. -/
def new (files : Files) (filename : Str) (rule : SizeLimitRotateRule) (now : Str) : RotateLogger :=
  match files.lookup filename with
  | none => ⟨files.create filename, filename, rule.backupFileName now, true, rule, 0⟩
  | some content => ⟨files, filename, rule.backupFileName now, true, rule, content.length⟩

variable (l : RotateLogger)

def getBackupFilename (now : Str) : Str :=
  if l.backup = [] then l.rule.backupFileName now else l.backup

def rotate (now : Str) : RotateLogger :=
  let files :=
    if (l.files.lookup l.filename).isSome ∧ l.backup ≠ [] then
      l.files.rename l.filename (l.getBackupFilename now)
    else l.files
  { l with files := files.create l.filename, backup := l.rule.backupFileName now, opened := true }

def shallRotate (event : Event) : Bool :=
  l.rule.shallRotate (l.currentSize + event.data.length)

def prepare (event : Event) : RotateLogger :=
  if l.shallRotate event then
    let rotated := l.rotate event.named
    { rotated with rule := rotated.rule.markRotated event.marked, currentSize := 0 }
  else l

def write (event : Event) : RotateLogger :=
  let l := l.prepare event
  if l.opened then
    { l with files := l.files.append l.filename event.data,
             currentSize := l.currentSize + event.data.length }
  else l

/-- A write, with the reading that its rotation names the next backup by. -/
def step (event : Event) : RotateLogger × List Str :=
  (l.write event, if l.shallRotate event then [event.named] else [])

def readings (events : List Event) : List Str :=
  (Runs.run step l events).2

def after (events : List Event) : RotateLogger := (Runs.run step l events).1

/-- The names of the backups: the first is that of the reading at the start, and each rotation but
the last makes the name of the next. -/
def targets (events : List Event) : List Str :=
  (l.backup :: (l.readings events).map l.rule.backupFileName).dropLast

def content (name : Str) : Str := (l.files.lookup name).getD []

/-- A rotation before the event would find a file of its backup name. -/
def Overwrites (event : Event) : Prop :=
  l.shallRotate event = true ∧ l.backup ∈ l.files

/-- The logger has its file open and a name for the next backup. -/
structure Ready (l : RotateLogger) : Prop where
  exists_file : l.filename ∈ l.files
  opened : l.opened = true
  named : l.backup ≠ []

theorem backupFileName_ne_nil (r : SizeLimitRotateRule) (now : Str) : r.backupFileName now ≠ [] :=
  FilePath.join_ne_nil (FilePath.clean_ne_nil _) _

variable {l : RotateLogger} {event : Event} {events : List Event}

theorem write_stays (ready : l.Ready) (stays : l.shallRotate event = false) :
    l.write event = { l with files := l.files.append l.filename event.data,
                             currentSize := l.currentSize + event.data.length } := by
  rw [write, prepare, stays]
  simp [ready.opened]

theorem write_rotates (ready : l.Ready) (rotates : l.shallRotate event = true) :
    l.write event = { l with
      files := ((l.files.rename l.filename l.backup).create l.filename).append l.filename event.data
      backup := l.rule.backupFileName event.named
      opened := true
      rule := l.rule.markRotated event.marked
      currentSize := event.data.length } := by
  have stat : (l.files.lookup l.filename).isSome :=
    AList.lookup_isSome.mpr ready.exists_file
  have renames : (l.files.lookup l.filename).isSome = true ∧ l.backup ≠ [] := ⟨stat, ready.named⟩
  simp only [write, prepare, rotates, if_true, rotate, if_pos renames, getBackupFilename,
    if_neg ready.named, Int.zero_add]

theorem lookup_append (files : Files) (name data probe : Str) :
    (files.append name data).lookup probe =
      if probe = name then (files.lookup probe).map (· ++ data) else files.lookup probe :=
  lookup_modify files name probe (· ++ data)

/-- The files after a rotation and the write that follows it. -/
theorem lookup_write_rotates (ready : l.Ready) (rotates : l.shallRotate event = true)
    (name : Str) : (l.write event).files.lookup name =
      if name = l.filename then some event.data
      else if name = l.backup then l.files.lookup l.filename else l.files.lookup name := by
  obtain ⟨data, stored⟩ := (mem_iff_lookup _ _).mp ready.exists_file
  rw [write_rotates ready rotates, lookup_append, Files.create, lookup_insert_if,
    Files.rename, stored]
  by_cases own : name = l.filename
  · simp [own]
  · simp only [own, if_false, lookup_insert_if, lookup_erase_if]

theorem lookup_write_stays (ready : l.Ready) (stays : l.shallRotate event = false)
    (name : Str) : (l.write event).files.lookup name =
      if name = l.filename then (l.files.lookup name).map (· ++ event.data)
      else l.files.lookup name := by
  rw [write_stays ready stays, lookup_append]

theorem write_filename (ready : l.Ready) : (l.write event).filename = l.filename := by
  cases rotates : l.shallRotate event with
  | true => rw [write_rotates ready rotates]
  | false => rw [write_stays ready rotates]

theorem mem_write_files (ready : l.Ready) (name : Str) : name ∈ (l.write event).files ↔
    name ∈ l.files ∨ (l.shallRotate event = true ∧ name = l.backup) := by
  obtain ⟨data, stored⟩ := (mem_iff_lookup _ _).mp ready.exists_file
  simp only [← AList.lookup_isSome]
  cases rotates : l.shallRotate event with
  | true =>
    rw [lookup_write_rotates ready rotates]
    by_cases own : name = l.filename
    · subst own
      simp [stored]
    by_cases backup : name = l.backup
    · rw [if_neg own, if_pos backup, stored]
      simp [backup]
    · simp [own, backup]
  | false =>
    rw [lookup_write_stays ready rotates]
    by_cases own : name = l.filename <;> simp [own]

theorem Ready.write (ready : l.Ready) : (l.write event).Ready := by
  have file : (l.write event).filename ∈ (l.write event).files := by
    rw [write_filename ready]
    exact (mem_write_files ready _).mpr (Or.inl ready.exists_file)
  cases rotates : l.shallRotate event with
  | true =>
    rw [write_rotates ready rotates] at file ⊢
    exact ⟨file, rfl, backupFileName_ne_nil _ _⟩
  | false =>
    rw [write_stays ready rotates] at file ⊢
    exact ⟨file, ready.opened, ready.named⟩

theorem readings_cons (l : RotateLogger) (event : Event) (events : List Event) :
    l.readings (event :: events) =
      (if l.shallRotate event then [event.named] else []) ++ (l.write event).readings events := rfl

theorem after_cons (l : RotateLogger) (event : Event) (events : List Event) :
    l.after (event :: events) = (l.write event).after events := rfl

theorem targets_stays (ready : l.Ready) (stays : l.shallRotate event = false) :
    l.targets (event :: events) = (l.write event).targets events := by
  have same : (l.write event).rule = l.rule ∧ (l.write event).backup = l.backup := by
    rw [write_stays ready stays]
    exact ⟨rfl, rfl⟩
  rw [targets, targets, readings_cons, stays, same.1, same.2]
  rfl

theorem targets_rotates (ready : l.Ready) (rotates : l.shallRotate event = true) :
    l.targets (event :: events) = l.backup :: (l.write event).targets events := by
  have same : (l.write event).rule.backupFileName = l.rule.backupFileName ∧
      (l.write event).backup = l.rule.backupFileName event.named := by
    rw [write_rotates ready rotates]
    exact ⟨rfl, rfl⟩
  rw [targets, targets, readings_cons, if_pos rotates, same.1, same.2]
  rfl

/-- No rotation overwrites a file exactly if the names of the backups are new. -/
theorem meets_iff (events : List Event) : ∀ {l : RotateLogger}, l.Ready →
    (Runs.Meets step (fun l event => ¬ l.Overwrites event) l events ↔
      (l.targets events).Nodup ∧ ∀ name ∈ l.targets events, name ∉ l.files) := by
  induction events with
  | nil =>
    intro l _
    simp [Runs.Meets, targets, readings]
  | cons event events ih =>
    intro l ready
    have later := ih (@Ready.write l event ready)
    simp only [mem_write_files ready] at later
    rw [Runs.Meets]
    change _ ∧ Runs.Meets step _ (l.write event) events ↔ _
    rw [later, Overwrites]
    cases rotates : l.shallRotate event with
    | false =>
      rw [targets_stays ready rotates]
      simp
    | true =>
      rw [targets_rotates ready rotates, nodup_cons]
      simp only [true_and, mem_cons, forall_eq_or_imp, not_or]
      constructor
      · rintro ⟨fresh, distinct, others⟩
        exact ⟨⟨fun again => (others _ again).2 rfl, distinct⟩, fresh,
          fun name mem => (others name mem).1⟩
      · rintro ⟨⟨once, distinct⟩, fresh, others⟩
        exact ⟨fresh, distinct, fun name mem => ⟨others name mem, fun same => once (same ▸ mem)⟩⟩

/-- A file that is not the current one is left alone. -/
theorem content_after_of_mem (events : List Event) : ∀ {l : RotateLogger}, l.Ready →
    Runs.Meets step (fun l event => ¬ l.Overwrites event) l events →
    ∀ name ∈ l.files, name ≠ l.filename → (l.after events).content name = l.content name := by
  induction events with
  | nil => exact fun _ _ _ _ _ => rfl
  | cons event events ih =>
    intro l ready met name mem other
    have kept := ih (@Ready.write l event ready) met.2 name
      ((mem_write_files ready name).mpr (Or.inl mem)) (by rwa [write_filename ready])
    rw [after_cons, kept, content, content]
    cases rotates : l.shallRotate event with
    | false => rw [lookup_write_stays ready rotates, if_neg other]
    | true =>
      have fresh : name ≠ l.backup := by
        rintro rfl
        exact met.1 ⟨rotates, mem⟩
      rw [lookup_write_rotates ready rotates, if_neg other, if_neg fresh]

/-- The backups in the order of the rotations and the current file hold what was there and what
was written. -/
theorem contents (events : List Event) : ∀ {l : RotateLogger}, l.Ready →
    Runs.Meets step (fun l event => ¬ l.Overwrites event) l events →
    (l.targets events).flatMap (l.after events).content ++ (l.after events).content l.filename =
      l.content l.filename ++ events.flatMap Event.data := by
  induction events with
  | nil =>
    intro l _ _
    simp [targets, readings, after]
  | cons event events ih =>
    intro l ready met
    have readyAfter := @Ready.write l event ready
    have rest := ih readyAfter met.2
    rw [write_filename ready] at rest
    obtain ⟨data, stored⟩ := (mem_iff_lookup _ _).mp ready.exists_file
    rw [after_cons, flatMap_cons]
    cases rotates : l.shallRotate event with
    | false =>
      have current : (l.write event).content l.filename = l.content l.filename ++ event.data := by
        rw [content, content, lookup_write_stays ready rotates, if_pos rfl, stored]
        rfl
      rw [targets_stays ready rotates, rest, current, append_assoc]
    | true =>
      have fresh : l.backup ∉ l.files := fun mem => met.1 ⟨rotates, mem⟩
      have notCurrent : l.backup ≠ l.filename := fun same => fresh (same ▸ ready.exists_file)
      have current : (l.write event).content l.filename = event.data := by
        rw [content, lookup_write_rotates ready rotates, if_pos rfl, Option.getD_some]
      have backup : ((l.write event).after events).content l.backup = l.content l.filename := by
        rw [content_after_of_mem events readyAfter met.2 l.backup
          ((mem_write_files ready _).mpr (Or.inr ⟨rotates, rfl⟩))
          (by rwa [write_filename ready]), content, content,
          lookup_write_rotates ready rotates, if_neg notCurrent, if_pos rfl]
      rw [targets_rotates ready rotates, flatMap_cons, backup, append_assoc, rest, current]

theorem ready_new (files : Files) (filename : Str) (rule : SizeLimitRotateRule)
    (now : Str) : (new files filename rule now).Ready ∧
      (new files filename rule now).filename = filename ∧
      (new files filename rule now).content filename = (files.lookup filename).getD [] ∧
      ∀ name, name ∈ (new files filename rule now).files ↔ name = filename ∨ name ∈ files := by
  have named := backupFileName_ne_nil rule now
  unfold new
  cases stored : files.lookup filename with
  | none =>
    refine ⟨⟨?_, rfl, named⟩, rfl, ?_, ?_⟩
    · exact (AList.mem_insert _).mpr (Or.inl rfl)
    · simp [content, Files.create]
    · exact fun name => AList.mem_insert _
  | some data =>
    have mem : filename ∈ files := (mem_iff_lookup _ _).mpr ⟨data, stored⟩
    refine ⟨⟨mem, rfl, named⟩, rfl, ?_, ?_⟩
    · simp [content, stored]
    · intro name
      constructor
      · exact Or.inr
      · rintro (rfl | present)
        · exact mem
        · exact present

/-- Nothing is overwritten, and the backups and the current file together hold what was in the
file at the start and every event, exactly if the names of the backups are distinct, not that of
the log file and not those of files that were there at the start. -/
theorem rotations_keep_iff (files : Files) (filename : Str) (rule : SizeLimitRotateRule)
    (now : Str) (events : List Event) :
    (Runs.Meets step (fun l event => ¬ l.Overwrites event) (new files filename rule now) events ∧
      ((new files filename rule now).targets events).flatMap
          ((new files filename rule now).after events).content ++
        ((new files filename rule now).after events).content filename =
          (files.lookup filename).getD [] ++ events.flatMap Event.data) ↔
    ((new files filename rule now).targets events).Nodup ∧
      ∀ name ∈ (new files filename rule now).targets events, name ≠ filename ∧ name ∉ files := by
  obtain ⟨ready, sameName, initial, mem⟩ := ready_new files filename rule now
  have fresh := meets_iff events ready
  simp only [mem, not_or] at fresh
  rw [← fresh]
  refine ⟨And.left, fun met => ⟨met, ?_⟩⟩
  have kept := contents events ready met
  rwa [sameName, initial] at kept

/-- An event of more than a megabyte, in the first second of a year. -/
def largeEvent (byte : UInt8) : Event :=
  ⟨List.replicate 1048577 byte, bytes "2024-01-01T00:00:00Z",
    bytes "2024-01-01T00:00:00Z"⟩

/-- A logger that is started in that second and rotates at a megabyte. -/
def megabyteLogger : RotateLogger :=
  new ∅ (bytes "a.log")
    (newSizeLimitRotateRule (bytes "2024-01-01T00:00:00Z") (bytes "a.log")
      (bytes "-") 1)
    (bytes "2024-01-01T00:00:00Z")

theorem shallRotate_largeEvent (byte : UInt8) (rule : l.rule.maxSize = 1048576)
    (size : 0 ≤ l.currentSize) : l.shallRotate (largeEvent byte) = true := by
  have length : (largeEvent byte).data.length = 1048577 := length_replicate
  simp only [shallRotate, SizeLimitRotateRule.shallRotate, rule, length, Bool.and_eq_true,
    decide_eq_true_eq]
  omega

/-- The logger within that second: what its two files hold. -/
structure WithinSecond (l : RotateLogger) (current : Str) (backup : Option Str) :
    Prop where
  ready : l.Ready
  maxSize : l.rule.maxSize = 1048576
  size : 0 ≤ l.currentSize
  filename : l.filename = bytes "a.log"
  backupName : l.backup = bytes "a-2024-01-01T00:00:00Z.log"
  nextName : l.rule.backupFileName (bytes "2024-01-01T00:00:00Z") =
    bytes "a-2024-01-01T00:00:00Z.log"
  lookup : ∀ name, l.files.lookup name =
    if name = bytes "a.log" then some current
    else if name = bytes "a-2024-01-01T00:00:00Z.log" then backup else none

theorem withinSecond_start : megabyteLogger.WithinSecond [] none := by
  refine ⟨(ready_new _ _ _ _).1, rfl, Int.le_refl 0, rfl, rfl, rfl, ?_⟩
  intro name
  change ((∅ : Files).insert (bytes "a.log") []).lookup name = _
  rw [lookup_insert_if, AList.lookup_empty, ite_self]

theorem WithinSecond.write {current : Str} {backup : Option Str}
    (within : l.WithinSecond current backup) (byte : UInt8) :
    (l.write (largeEvent byte)).WithinSecond (largeEvent byte).data (some current) := by
  have rotates := shallRotate_largeEvent byte within.maxSize within.size
  have lookup := lookup_write_rotates within.ready rotates
  have ready : (l.write (largeEvent byte)).Ready := within.ready.write
  rw [write_rotates within.ready rotates] at lookup ready ⊢
  refine ⟨ready, within.maxSize, Int.natCast_nonneg _, within.filename, within.nextName,
    within.nextName, ?_⟩
  intro name
  rw [lookup, within.filename, within.backupName, within.lookup, if_pos rfl, within.lookup]
  split
  · rfl
  split
  · rfl
  · rfl

/-- Three events in one second leave one backup, without the first event. -/
theorem rotation_overwrites_backup :
    (∀ name, name ∈ (megabyteLogger.after [largeEvent 97, largeEvent 98, largeEvent 99]).files ↔
      name = bytes "a.log" ∨ name = bytes "a-2024-01-01T00:00:00Z.log") ∧
    (megabyteLogger.after [largeEvent 97, largeEvent 98, largeEvent 99]).content
        (bytes "a-2024-01-01T00:00:00Z.log") = List.replicate 1048577 98 ∧
    (megabyteLogger.after [largeEvent 97, largeEvent 98, largeEvent 99]).content
        (bytes "a.log") = List.replicate 1048577 99 := by
  have lookup := (((withinSecond_start.write 97).write 98).write 99).lookup
  rw [after_cons, after_cons, after_cons]
  refine ⟨?_, ?_, ?_⟩
  · intro name
    rw [← AList.lookup_isSome]
    change (AList.lookup name (((megabyteLogger.write (largeEvent 97)).write (largeEvent 98)).write
      (largeEvent 99)).files).isSome ↔ _
    rw [lookup]
    split
    · simp [*]
    split
    · simp [*]
    · simp [*]
  · exact congrArg (Option.getD · []) (lookup _)
  · exact congrArg (Option.getD · []) (lookup _)

end RotateLogger

end FastGoZero.Logx
