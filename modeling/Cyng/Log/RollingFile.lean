import Cyng.Build
import Cyng.Theory.Machine
import Cyng.Theory.Numerals
import Cyng.Theory.Overwriting

/-!
# The log file and its backups

The log task writes its lines to a file. After sixty-six lines it looks at the size of the file,
and a file that has grown too large is renamed and started again. The new name has the time in
seconds, and renaming replaces what already has the name: of two backups in one second only the
later one is left. So all that was logged is still there exactly when no second has two of them.
-/

namespace Cyng

open Theory

/-- The characters of an ASCII text. -/
def ascii (str : String) : Bytes := str.toList.map fun c => UInt8.ofNat c.toNat

def newline : UInt8 := 0x0A

/-! ### Files -/

/-- What the files hold, by their paths. -/
abbrev Disk := Bytes → Option Bytes

namespace Disk

variable (d : Disk)

/-- What a file holds; one that does not exist holds nothing. -/
def text (path : Bytes) : Bytes := (d path).getD []

def append (path line : Bytes) : Disk := Function.update d path (some (d.text path ++ line))

def create (path : Bytes) : Disk := Function.update d path (some [])

/-- `std::filesystem::rename`: a file that has the new name is replaced. -/
def rename (old new : Bytes) : Disk :=
  if old = new then d else Function.update (Function.update d new (d old)) old none

end Disk

/-- The path of a log file in its parts: `parent_path()`, `stem()` and `extension()`. -/
structure LogPath where
  parent : Bytes
  stem : Bytes
  extension : Bytes
deriving DecidableEq

/-- `path::operator/` -/
def slash (parent name : Bytes) : Bytes :=
  if parent = [] ∨ parent.getLast? = some 0x2F then parent ++ name else parent ++ 0x2F :: name

/-- The time that a backup is made, twelve digits wide. -/
def backupTag (tt : ℕ) : Bytes :=
  ascii "T" ++ (List.replicate (12 - (numeral 10 tt).length) 0x30 ++ numeral 10 tt) ++ ascii "_"

namespace LogPath

variable (p : LogPath)

def text : Bytes := slash p.parent (p.stem ++ p.extension)

def backup (tt : ℕ) : Bytes :=
  slash p.parent ((p.stem ++ ascii "_backup_" ++ backupTag tt) ++ p.extension)

end LogPath

/-! ### Lines -/

/-- `severity` -/
abbrev Severity := BitVec 8

def levelTrace : Severity := 0

def levelInfo : Severity := 2

/-- `operator<<(std::ostream&, severity)`: there is no text for `LEVEL_ALL`. -/
def severityName : Severity → Option Bytes
  | 0 => some (ascii "TRACE")
  | 1 => some (ascii "DEBUG")
  | 2 => some (ascii "INFO ")
  | 3 => some (ascii "WARN ")
  | 4 => some (ascii "ERROR")
  | 5 => some (ascii "FATAL")
  | _ => none

/-- `format`, with the time as the stream writes it. A level without a name makes the stream fail,
and what comes after it is not written. -/
def format (tp : Bytes) (lev : Severity) (tip : BitVec 32) (msg : Bytes) : Bytes :=
  ascii "[" ++ tp ++ ascii "] " ++
    match severityName lev with
    | none => []
    | some name =>
      let id := numeral 10 tip.toNat
      name ++ ascii " " ++ (List.replicate (10 - id.length) 0x20 ++ id) ++ ascii " -- " ++ msg

/-- What the log task does: lines on the console and in the file, and backups of the file. -/
inductive LogOutput
  | console (text : Bytes)
  | line (text : Bytes)
  | rotated (tt : ℕ)
deriving DecidableEq

def terminalCode (code : String) : Bytes := 0x1B :: ascii code

/-- `console::write` -/
def consoleWrite (lev : Severity) (line : Bytes) : List LogOutput :=
  match lev with
  | 0 | 1 => [.console (line ++ [newline])]
  | 2 => [.console (terminalCode "[32m" ++ line ++ terminalCode "[0m" ++ [newline])]
  | 3 => [.console (terminalCode "[33m" ++ line ++ terminalCode "[0m" ++ [newline])]
  | 4 => [.console (terminalCode "[31m" ++ line ++ terminalCode "[0m" ++ [newline])]
  | 5 =>
    [.console (terminalCode "[1m" ++ terminalCode "[31m" ++ line ++ terminalCode "[0m" ++
      [newline])]
  | _ => []

/-- `console::cls` -/
def consoleClear : LogOutput := .console (terminalCode "[2J" ++ terminalCode "[1;1H")

/-- `console::~console` -/
def consoleReset : LogOutput := .console (terminalCode "[0m" ++ [newline])

/-! ### The rolling file -/

/-- `rolling_file` -/
structure RollingFile where
  path : LogPath
  rotationSize : ℕ
  uncommitted : ℕ

namespace RollingFile

variable (f : RollingFile) (d : Disk)

/-- `rolling_file::test_file_size` and `create_backup_file` -/
def testFileSize (now : ℕ) : Disk × List LogOutput :=
  if f.rotationSize < (d.text f.path.text).length then
    ((d.rename f.path.text (f.path.backup now)).create f.path.text, [.rotated now])
  else (d, [])

/-- `rolling_file::write` -/
def write (now : ℕ) (line : Bytes) : RollingFile × Disk × List LogOutput :=
  let line := line ++ [newline]
  let d := d.append f.path.text line
  if 64 < f.uncommitted then
    let (d, rotated) := f.testFileSize d now
    ({ f with uncommitted := 0 }, d, .line line :: rotated)
  else ({ f with uncommitted := f.uncommitted + 1 }, d, [.line line])

end RollingFile

/-! ### The log task -/

/-- The slots of the log task. -/
inductive LogMessage
  | write (ts : Bytes) (lev : Severity) (tid : BitVec 32) (msg : Bytes)
  | startConsole
  | startFile (path : LogPath) (size : BitVec 64) (stamp : Bytes)
  | startSysLog (ident : Bytes) (console : Bool)
  | startEventLog
  | setLevel (lev : Severity)
  | stop (stamp stamp' : Bytes)

/-- A message, and the clock in seconds when the task gets it. -/
structure LogCall where
  now : ℕ
  message : LogMessage

/-- `log`, and the files. -/
structure LogTask where
  level : Severity
  con : Bool
  rfile : Option RollingFile
  disk : Disk

namespace LogTask

def initial (disk : Disk) : LogTask := ⟨levelTrace, false, none, disk⟩

variable (b : Build) (t : LogTask)

def conWrite (lev : Severity) (line : Bytes) : List LogOutput :=
  if t.con then consoleWrite lev line else []

def fileWrite (now : ℕ) (line : Bytes) : LogTask × List LogOutput :=
  match t.rfile with
  | none => (t, [])
  | some f =>
    let (f, disk, out) := f.write t.disk now line
    ({ t with rfile := some f, disk := disk }, out)

/-- `log::write` -/
def write (now : ℕ) (ts : Bytes) (lev : Severity) (tid : BitVec 32) (msg : Bytes) :
    LogTask × List LogOutput :=
  if t.level ≤ lev then
    let (t', out) := t.fileWrite now (format ts lev tid msg)
    (t', t.conWrite lev (format ts lev tid msg) ++ out)
  else (t, [])

/-- `log::start_console`: the new one is there before the old one goes. -/
def startConsole : LogTask × List LogOutput :=
  ({ t with con := true }, consoleClear :: if t.con then [consoleReset] else [])

/-- `log::start_file` -/
def startFile (path : LogPath) (size : BitVec 64) (stamp : Bytes) :
    Except Fault (LogTask × List LogOutput) := do
  b.check "size != 0" (size ≠ 0)
  b.check "!path.empty()" (path.text ≠ [])
  .ok ({ t with rfile := some ⟨path, size.toNat, 0⟩, disk := t.disk.append path.text [] },
    t.conWrite levelInfo (format stamp levelInfo 0 (ascii "start file logger")))

/-- `log::stop`: both lines are written whatever the level is. -/
def stop (now : ℕ) (stamp stamp' : Bytes) : LogTask × List LogOutput :=
  let con := t.conWrite levelInfo (format stamp levelInfo 0 (ascii "stop console logger"))
  let (t', out) := t.fileWrite now (format stamp' levelInfo 0 (ascii "stop file logger"))
  ({ t' with con := false, rfile := none }, con ++ (if t.con then [consoleReset] else []) ++ out)

def step : Step LogTask LogCall LogOutput Fault := fun t call =>
  match call.message with
  | .write ts lev tid msg => .ok (t.write call.now ts lev tid msg)
  | .startConsole => .ok t.startConsole
  | .startFile path size stamp => t.startFile b path size stamp
  | .startSysLog _ _ => .ok (t, [])
  | .startEventLog => .ok (t, [])
  | .setLevel lev => .ok ({ t with level := lev }, [])
  | .stop stamp stamp' => .ok (t.stop call.now stamp stamp')

end LogTask

/-! ### Names of the files -/

theorem slash_injective (parent : Bytes) : Function.Injective (slash parent) := by
  intro name name' h
  by_cases hparent : parent = [] ∨ parent.getLast? = some 0x2F
  · rw [slash, slash, if_pos hparent, if_pos hparent] at h
    exact List.append_cancel_left h
  · rw [slash, slash, if_neg hparent, if_neg hparent] at h
    exact (List.cons.inj (List.append_cancel_left h)).2

/-- A backup has the time in its name, whatever its width is. -/
theorem backupTag_injective : Function.Injective backupTag := by
  intro tt tt' h
  have hdigits := List.append_cancel_left (List.append_cancel_right h)
  have hvalue := congrArg (ofNumeral 10) hdigits
  rw [ofNumeral_zeros, ofNumeral_zeros, ofNumeral_numeral (by decide) (by decide),
    ofNumeral_numeral (by decide) (by decide)] at hvalue
  exact hvalue

namespace LogPath

variable (p : LogPath)

theorem backup_injective : Function.Injective p.backup := by
  intro tt tt' h
  have hname := slash_injective p.parent h
  apply backupTag_injective
  exact List.append_cancel_left (List.append_cancel_right hname)

theorem backup_ne_text (tt : ℕ) : p.backup tt ≠ p.text := by
  intro h
  have hlength := congrArg List.length (slash_injective p.parent h)
  have hlonger : 0 < (ascii "_backup_").length := by decide
  simp only [List.length_append] at hlength
  omega

end LogPath

/-! ### What the files hold -/

namespace Disk

variable {d : Disk} {path path' line : Bytes}

theorem text_of_eq (h : d path = some line) : d.text path = line := by
  rw [text, h]
  rfl

theorem append_self : d.append path line path = some (d.text path ++ line) :=
  Function.update_self ..

theorem append_of_ne (h : path' ≠ path) : d.append path line path' = d path' :=
  Function.update_of_ne h ..

/-- Renaming moves what the file holds, and the file starts again. -/
theorem rename_create_new (h : path' ≠ path) :
    (d.rename path path').create path path' = d path := by
  rw [create, Function.update_of_ne h, rename, if_neg h.symm, Function.update_of_ne h,
    Function.update_self]

theorem text_rename_create_old : ((d.rename path path').create path).text path = [] :=
  text_of_eq (Function.update_self ..)

theorem rename_create_of_ne {other : Bytes} (h : other ≠ path) (h' : other ≠ path') :
    (d.rename path path').create path other = d other := by
  rw [create, Function.update_of_ne h, rename]
  by_cases hsame : path = path'
  · rw [if_pos hsame]
  · rw [if_neg hsame, Function.update_of_ne h, Function.update_of_ne h']

end Disk

/-! ### The log as a whole -/

/-- The backups of a file, each with what it held when it was made, and what has been written since
the last one. -/
structure Archive where
  backups : List (Bytes × Bytes)
  opened : Bytes

namespace Archive

/-- Everything in the order in which it was written. -/
def all (a : Archive) : Bytes := (a.backups.map Prod.snd).flatten ++ a.opened

/-- What the log task writes is put into the archive. -/
def absorb (p : LogPath) (a : Archive) : LogOutput → Archive
  | .console _ => a
  | .line text => { a with opened := a.opened ++ text }
  | .rotated tt => ⟨a.backups ++ [(p.backup tt, a.opened)], []⟩

end Archive

/-- The lines that are written to the file. -/
def fileLines : List LogOutput → List Bytes
  | [] => []
  | .line text :: outs => text :: fileLines outs
  | .console _ :: outs | .rotated _ :: outs => fileLines outs

/-- When backups were made. -/
def rotations : List LogOutput → List ℕ
  | [] => []
  | .rotated tt :: outs => tt :: rotations outs
  | .console _ :: outs | .line _ :: outs => rotations outs

/-- What should be in the log: the lines that are not below the level, as long as there is a file,
and a last one when the task stops. -/
def logged : Severity → Bool → List LogCall → List Bytes
  | _, _, [] => []
  | level, isOpen, call :: calls =>
    match call.message with
    | .write ts lev tid msg =>
      if isOpen ∧ level ≤ lev then
        (format ts lev tid msg ++ [newline]) :: logged level isOpen calls
      else logged level isOpen calls
    | .startConsole | .startSysLog _ _ | .startEventLog => logged level isOpen calls
    | .startFile _ _ _ => logged level true calls
    | .setLevel lev => logged lev isOpen calls
    | .stop _ stamp =>
      if isOpen then
        (format stamp levelInfo 0 (ascii "stop file logger") ++ [newline]) ::
          logged level false calls
      else logged level false calls

section Outputs

variable {p : LogPath} {a : Archive} {outs outs' : List LogOutput}

theorem all_foldl_absorb :
    (outs.foldl (Archive.absorb p) a).all = a.all ++ (fileLines outs).flatten := by
  induction outs generalizing a with
  | nil => simp [fileLines]
  | cons out outs ih =>
    rw [List.foldl_cons, ih]
    cases out with
    | console text => rfl
    | line text => simp [Archive.absorb, Archive.all, fileLines]
    | rotated tt => simp [Archive.absorb, Archive.all, fileLines]

theorem map_fst_foldl_absorb :
    (outs.foldl (Archive.absorb p) a).backups.map Prod.fst =
      a.backups.map Prod.fst ++ (rotations outs).map p.backup := by
  induction outs generalizing a with
  | nil => simp [rotations]
  | cons out outs ih =>
    rw [List.foldl_cons, ih]
    cases out with
    | console text => rfl
    | line text => rfl
    | rotated tt => simp [Archive.absorb, rotations]

theorem fileLines_append : fileLines (outs ++ outs') = fileLines outs ++ fileLines outs' := by
  induction outs with
  | nil => rfl
  | cons out outs ih => cases out <;> simp [fileLines, ih]

/-- The console gets no lines of the file. -/
def OnlyConsole (outs : List LogOutput) : Prop := ∀ out ∈ outs, ∃ text, out = .console text

theorem OnlyConsole.fileLines (h : OnlyConsole outs) : fileLines outs = [] := by
  induction outs with
  | nil => rfl
  | cons out outs ih =>
    obtain ⟨hout, houts⟩ := List.forall_mem_cons.mp h
    obtain ⟨text, rfl⟩ := hout
    exact ih houts

theorem OnlyConsole.foldl_absorb (h : OnlyConsole outs) :
    outs.foldl (Archive.absorb p) a = a := by
  induction outs with
  | nil => rfl
  | cons out outs ih =>
    obtain ⟨hout, houts⟩ := List.forall_mem_cons.mp h
    obtain ⟨text, rfl⟩ := hout
    exact ih houts

theorem onlyConsole_consoleWrite (lev : Severity) (line : Bytes) :
    OnlyConsole (consoleWrite lev line) := by
  intro out hout
  unfold consoleWrite at hout
  split at hout
  all_goals simp at hout
  all_goals exact ⟨_, hout⟩

theorem onlyConsole_conWrite (t : LogTask) (lev : Severity) (line : Bytes) :
    OnlyConsole (t.conWrite lev line) := by
  unfold LogTask.conWrite
  split
  · exact onlyConsole_consoleWrite lev line
  · exact fun out hout => nomatch hout

end Outputs

/-! ### Files and archive -/

/-- The files hold what is in the archive; of the backups of one name, the last one. -/
structure Archived (p : LogPath) (disk : Disk) (a : Archive) : Prop where
  opened : disk.text p.text = a.opened
  kept : ∀ tt, p.backup tt ∈ a.backups.map Prod.fst →
    disk (p.backup tt) = kept a.backups (p.backup tt)
  names : ∀ name ∈ a.backups.map Prod.fst, ∃ tt, name = p.backup tt
  nonempty : ∀ entry ∈ a.backups, entry.2 ≠ []

namespace Archived

variable {p : LogPath} {disk : Disk} {a : Archive}

theorem initial (p : LogPath) (disk : Disk) : Archived p disk ⟨[], disk.text p.text⟩ where
  opened := rfl
  kept := fun _ h => nomatch h
  names := fun _ h => nomatch h
  nonempty := fun _ h => nomatch h

theorem append (h : Archived p disk a) (line : Bytes) :
    Archived p (disk.append p.text line) { a with opened := a.opened ++ line } where
  opened := by rw [Disk.text_of_eq Disk.append_self, h.opened]
  kept := by
    intro tt hmem
    rw [Disk.append_of_ne (p.backup_ne_text tt)]
    exact h.kept tt hmem
  names := h.names
  nonempty := h.nonempty

/-- The file becomes a backup. -/
theorem rotate (h : Archived p disk a) {now : ℕ} (hfile : disk p.text = some a.opened)
    (hne : a.opened ≠ []) :
    Archived p ((disk.rename p.text (p.backup now)).create p.text)
      ⟨a.backups ++ [(p.backup now, a.opened)], []⟩ where
  opened := Disk.text_rename_create_old
  kept := by
    intro tt hmem
    rw [kept_append_singleton]
    by_cases hnow : p.backup now = p.backup tt
    · rw [if_pos hnow, ← hnow, Disk.rename_create_new (p.backup_ne_text now), hfile]
    · -- another name: the file was there before
      have hold : p.backup tt ∈ a.backups.map Prod.fst := by
        simpa [Ne.symm hnow] using hmem
      rw [if_neg hnow, Disk.rename_create_of_ne (p.backup_ne_text tt) (Ne.symm hnow)]
      exact h.kept tt hold
  names := by
    intro name hmem
    rw [List.map_append, List.mem_append] at hmem
    rcases hmem with hmem | hmem
    · exact h.names name hmem
    · exact ⟨now, List.mem_singleton.mp hmem⟩
  nonempty := by
    intro entry hmem
    rcases List.mem_append.mp hmem with hmem | hmem
    · exact h.nonempty entry hmem
    · rw [List.mem_singleton.mp hmem]
      exact hne

/-- Of what is in the archive the files hold everything exactly when no name was used twice. -/
theorem kept_eq_all_iff (h : Archived p disk a) :
    ((a.backups.map Prod.fst).dedup.map disk.text).flatten ++ disk.text p.text = a.all ↔
      (a.backups.map Prod.fst).Nodup := by
  have htexts : (a.backups.map Prod.fst).dedup.map disk.text =
      (a.backups.map Prod.fst).dedup.map fun k => (Theory.kept a.backups k).getD [] := by
    apply List.map_congr_left
    intro name hname
    have hmem := List.mem_dedup.mp hname
    obtain ⟨tt, rfl⟩ := h.names name hmem
    rw [Disk.text, h.kept tt hmem]
  rw [htexts, h.opened, Archive.all, List.append_cancel_right_eq]
  exact keptAll_eq_iff h.nonempty

end Archived

/-! ### The task keeps the archive -/

/-- A task that writes to one file, and what it has written. -/
structure LogTask.Keeps (p : LogPath) (t : LogTask) (a : Archive) : Prop where
  path : ∀ f, t.rfile = some f → f.path = p
  archived : Archived p t.disk a

/-- The file is started at this path. -/
def LogCall.StartsAt (p : LogPath) (call : LogCall) : Prop :=
  ∀ path size stamp, call.message = .startFile path size stamp → path = p

section Writing

variable {p : LogPath} {f : RollingFile} {disk : Disk} {a : Archive} {now : ℕ} {line : Bytes}

/-- A line is added, and the file may become a backup after that. -/
theorem RollingFile.write_cases (f : RollingFile) (disk : Disk) (now : ℕ) (line : Bytes) :
    (f.write disk now line).1.path = f.path ∧
      ((f.write disk now line).2 =
          (disk.append f.path.text (line ++ [newline]), [.line (line ++ [newline])]) ∨
        (f.write disk now line).2 =
          (((disk.append f.path.text (line ++ [newline])).rename f.path.text
            (f.path.backup now)).create f.path.text,
            [.line (line ++ [newline]), .rotated now])) := by
  unfold write testFileSize
  dsimp only
  split
  · split
    · exact ⟨rfl, Or.inr rfl⟩
    · exact ⟨rfl, Or.inl rfl⟩
  · exact ⟨rfl, Or.inl rfl⟩

theorem RollingFile.write_archived (hpath : f.path = p) (h : Archived p disk a) :
    Archived p (f.write disk now line).2.1
      ((f.write disk now line).2.2.foldl (Archive.absorb p) a) := by
  subst hpath
  have happend := h.append (line ++ [newline])
  rcases (f.write_cases disk now line).2 with hw | hw
  · rw [hw]
    exact happend
  · rw [hw]
    apply happend.rotate
    · rw [Disk.append_self, h.opened]
    · simp

theorem RollingFile.fileLines_write :
    fileLines (f.write disk now line).2.2 = [line ++ [newline]] := by
  rcases (f.write_cases disk now line).2 with hw | hw
  · rw [hw]
    rfl
  · rw [hw]
    rfl

end Writing

namespace LogTask

variable {b : Build} {p : LogPath} {t t' : LogTask} {a : Archive} {now : ℕ} {line : Bytes}
  {call : LogCall} {calls : List LogCall} {outs : List LogOutput}

theorem fileWrite_of_none (h : t.rfile = none) : t.fileWrite now line = (t, []) := by
  rw [fileWrite, h]

theorem fileWrite_of_some {f : RollingFile} (h : t.rfile = some f) :
    t.fileWrite now line =
      ({ t with rfile := some (f.write t.disk now line).1, disk := (f.write t.disk now line).2.1 },
        (f.write t.disk now line).2.2) := by
  rw [fileWrite, h]

theorem Keeps.fileWrite (h : t.Keeps p a) (now : ℕ) (line : Bytes) :
    (t.fileWrite now line).1.Keeps p
      ((t.fileWrite now line).2.foldl (Archive.absorb p) a) := by
  cases hfile : t.rfile with
  | none =>
    rw [fileWrite_of_none hfile]
    exact h
  | some f =>
    rw [fileWrite_of_some hfile]
    have hpath := h.path f hfile
    refine ⟨fun f' hf' => ?_, RollingFile.write_archived hpath h.archived⟩
    rw [← Option.some.inj hf', (f.write_cases t.disk now line).1, hpath]

theorem level_fileWrite : (t.fileWrite now line).1.level = t.level := by
  cases hfile : t.rfile with
  | none => rw [fileWrite_of_none hfile]
  | some f => rw [fileWrite_of_some hfile]

theorem isSome_rfile_fileWrite : (t.fileWrite now line).1.rfile.isSome = t.rfile.isSome := by
  cases hfile : t.rfile with
  | none => rw [fileWrite_of_none hfile, hfile]
  | some f =>
    rw [fileWrite_of_some hfile]
    rfl

theorem fileLines_fileWrite :
    fileLines (t.fileWrite now line).2 =
      if t.rfile.isSome then [line ++ [newline]] else [] := by
  cases hfile : t.rfile with
  | none =>
    rw [fileWrite_of_none hfile]
    rfl
  | some f =>
    rw [fileWrite_of_some hfile]
    exact RollingFile.fileLines_write

/-- What the console gets is not put into the archive. -/
theorem foldl_absorb_conWrite {lev : Severity} {text : Bytes} :
    (t.conWrite lev text ++ outs).foldl (Archive.absorb p) a =
      outs.foldl (Archive.absorb p) a := by
  rw [List.foldl_append, (onlyConsole_conWrite t lev text).foldl_absorb]

theorem fileLines_conWrite {lev : Severity} {text : Bytes} :
    fileLines (t.conWrite lev text ++ outs) = fileLines outs := by
  rw [fileLines_append, (onlyConsole_conWrite t lev text).fileLines, List.nil_append]

theorem onlyConsole_reset : OnlyConsole (if t.con then [consoleReset] else []) := by
  intro out hout
  split at hout
  · rw [List.mem_singleton.mp hout]
    exact ⟨_, rfl⟩
  · exact nomatch hout

theorem onlyConsole_startConsole : OnlyConsole t.startConsole.2 := by
  intro out hout
  rcases List.mem_cons.mp hout with rfl | hout
  · exact ⟨_, rfl⟩
  · exact onlyConsole_reset out hout

theorem startFile_eq_ok {path : LogPath} {size : BitVec 64} {stamp : Bytes}
    (h : t.startFile b path size stamp = .ok (t', outs)) :
    t' = { t with rfile := some ⟨path, size.toNat, 0⟩, disk := t.disk.append path.text [] } ∧
      outs = t.conWrite levelInfo (format stamp levelInfo 0 (ascii "start file logger")) := by
  obtain ⟨-, -, h⟩ := bind_eq_ok_iff.mp h
  obtain ⟨-, -, h⟩ := bind_eq_ok_iff.mp h
  obtain ⟨ht, hout⟩ := Prod.mk.inj (Except.ok.inj h)
  exact ⟨ht.symm, hout.symm⟩

theorem eq_of_ok {r : LogTask × List LogOutput} (h : (.ok r : Except Fault _) = .ok (t', outs)) :
    t' = r.1 ∧ outs = r.2 := by
  obtain rfl := Except.ok.inj h
  exact ⟨rfl, rfl⟩

theorem Keeps.write (h : t.Keeps p a) (ts : Bytes) (lev : Severity) (tid : BitVec 32)
    (msg : Bytes) :
    (t.write now ts lev tid msg).1.Keeps p
      ((t.write now ts lev tid msg).2.foldl (Archive.absorb p) a) := by
  unfold LogTask.write
  split
  · dsimp only
    rw [foldl_absorb_conWrite]
    exact h.fileWrite now _
  · exact h

theorem fileLines_write {ts : Bytes} {lev : Severity} {tid : BitVec 32} {msg : Bytes} :
    fileLines (t.write now ts lev tid msg).2 =
      if t.rfile.isSome ∧ t.level ≤ lev then [format ts lev tid msg ++ [newline]] else [] := by
  unfold write
  by_cases hlev : t.level ≤ lev
  · rw [if_pos hlev]
    dsimp only
    rw [fileLines_conWrite, fileLines_fileWrite]
    simp [hlev]
  · rw [if_neg hlev]
    simp [hlev, fileLines]

theorem level_write {ts : Bytes} {lev : Severity} {tid : BitVec 32} {msg : Bytes} :
    (t.write now ts lev tid msg).1.level = t.level := by
  unfold write
  split
  · exact level_fileWrite
  · rfl

theorem isSome_rfile_write {ts : Bytes} {lev : Severity} {tid : BitVec 32} {msg : Bytes} :
    (t.write now ts lev tid msg).1.rfile.isSome = t.rfile.isSome := by
  unfold write
  split
  · exact isSome_rfile_fileWrite
  · rfl

theorem Keeps.stop (h : t.Keeps p a) (stamp stamp' : Bytes) :
    (t.stop now stamp stamp').1.Keeps p
      ((t.stop now stamp stamp').2.foldl (Archive.absorb p) a) := by
  unfold LogTask.stop
  dsimp only
  rw [List.append_assoc, foldl_absorb_conWrite, List.foldl_append,
    onlyConsole_reset.foldl_absorb]
  have hfile := h.fileWrite now (format stamp' levelInfo 0 (ascii "stop file logger"))
  exact ⟨(fun f hf => nomatch hf), hfile.archived⟩

theorem fileLines_stop {stamp stamp' : Bytes} :
    fileLines (t.stop now stamp stamp').2 =
      if t.rfile.isSome then
        [format stamp' levelInfo 0 (ascii "stop file logger") ++ [newline]]
      else [] := by
  unfold stop
  dsimp only
  rw [List.append_assoc, fileLines_conWrite, fileLines_append, onlyConsole_reset.fileLines,
    List.nil_append, fileLines_fileWrite]

theorem step_keeps (h : t.Keeps p a) (hcall : call.StartsAt p)
    (hstep : step b t call = .ok (t', outs)) : t'.Keeps p (outs.foldl (Archive.absorb p) a) := by
  obtain ⟨clock, message⟩ := call
  cases message with
  | write ts lev tid msg =>
    obtain ⟨rfl, rfl⟩ := eq_of_ok hstep
    exact h.write ts lev tid msg
  | startConsole =>
    obtain ⟨rfl, rfl⟩ := eq_of_ok hstep
    rw [onlyConsole_startConsole.foldl_absorb]
    exact ⟨h.path, h.archived⟩
  | startFile path size stamp =>
    obtain rfl := hcall path size stamp rfl
    obtain ⟨rfl, rfl⟩ := startFile_eq_ok hstep
    rw [(onlyConsole_conWrite t _ _).foldl_absorb]
    refine ⟨fun f hf => ?_, ?_⟩
    · rw [← Option.some.inj hf]
    · -- opening the file adds nothing to it
      have happend := h.archived.append []
      rw [List.append_nil] at happend
      exact happend
  | startSysLog ident console =>
    obtain ⟨rfl, rfl⟩ := eq_of_ok hstep
    exact h
  | startEventLog =>
    obtain ⟨rfl, rfl⟩ := eq_of_ok hstep
    exact h
  | setLevel lev =>
    obtain ⟨rfl, rfl⟩ := eq_of_ok hstep
    exact ⟨h.path, h.archived⟩
  | stop stamp stamp' =>
    obtain ⟨rfl, rfl⟩ := eq_of_ok hstep
    exact h.stop stamp stamp'

theorem run_keeps (h : t.Keeps p a) (hcalls : ∀ call ∈ calls, call.StartsAt p)
    (hrun : Step.run (step b) t calls = .ok (t', outs)) :
    t'.Keeps p (outs.foldl (Archive.absorb p) a) := by
  have hstep : ∀ t a call t' outs, Keeps p t a → call.StartsAt p →
      step b t call = .ok (t', outs) → Keeps p t' (outs.foldl (Archive.absorb p) a) :=
    fun _ _ _ _ _ => step_keeps
  exact Step.run_observed hstep h (Step.guarded_of_forall_mem hcalls) hrun

/-- The first call writes its line, and the others what they would write after it. -/
theorem logged_cons (hstep : step b t call = .ok (t', outs)) :
    logged t.level t.rfile.isSome (call :: calls) =
      fileLines outs ++ logged t'.level t'.rfile.isSome calls := by
  obtain ⟨clock, message⟩ := call
  cases message with
  | write ts lev tid msg =>
    obtain ⟨rfl, rfl⟩ := eq_of_ok hstep
    rw [fileLines_write, level_write, isSome_rfile_write]
    simp only [logged]
    split
    · rfl
    · rfl
  | startConsole =>
    obtain ⟨rfl, rfl⟩ := eq_of_ok hstep
    rw [onlyConsole_startConsole.fileLines]
    rfl
  | startFile path size stamp =>
    obtain ⟨rfl, rfl⟩ := startFile_eq_ok hstep
    rw [(onlyConsole_conWrite t _ _).fileLines]
    rfl
  | startSysLog ident console =>
    obtain ⟨rfl, rfl⟩ := eq_of_ok hstep
    rfl
  | startEventLog =>
    obtain ⟨rfl, rfl⟩ := eq_of_ok hstep
    rfl
  | setLevel lev =>
    obtain ⟨rfl, rfl⟩ := eq_of_ok hstep
    rfl
  | stop stamp stamp' =>
    obtain ⟨rfl, rfl⟩ := eq_of_ok hstep
    have hlevel : (t.stop clock stamp stamp').1.level = t.level := level_fileWrite
    rw [fileLines_stop, hlevel]
    simp only [logged]
    split
    · rfl
    · rfl

theorem fileLines_run (hrun : Step.run (step b) t calls = .ok (t', outs)) :
    fileLines outs = logged t.level t.rfile.isSome calls := by
  induction calls generalizing t outs with
  | nil =>
    obtain ⟨-, rfl⟩ := Prod.mk.inj (Except.ok.inj hrun)
    rfl
  | cons call calls ih =>
    obtain ⟨t₁, out, out', hstep, htail, hout⟩ := Step.run_cons_eq_ok_iff.mp hrun
    simp only at htail hout
    rw [hout, fileLines_append, ih htail]
    exact (logged_cons hstep).symm

end LogTask

/-- The log is complete: its backups in order and the file after them hold what was there and all
that was logged, exactly when no two of the backups were made in one second. -/
theorem log_complete_iff {b : Build} {p : LogPath} {t t' : LogTask} {calls : List LogCall}
    {outs : List LogOutput} (hfile : ∀ f, t.rfile = some f → f.path = p)
    (hcalls : ∀ call ∈ calls, call.StartsAt p)
    (hrun : Step.run (LogTask.step b) t calls = .ok (t', outs)) :
    (((rotations outs).map p.backup).dedup.map t'.disk.text).flatten ++ t'.disk.text p.text =
        t.disk.text p.text ++ (logged t.level t.rfile.isSome calls).flatten ↔
      (rotations outs).Nodup := by
  have hkeeps := LogTask.run_keeps ⟨hfile, Archived.initial p t.disk⟩ hcalls hrun
  have hiff := hkeeps.archived.kept_eq_all_iff
  rw [map_fst_foldl_absorb, all_foldl_absorb, LogTask.fileLines_run hrun] at hiff
  exact hiff.trans (List.nodup_map_iff p.backup_injective)

/-- A file that is looked at after the next line, and is too large then. -/
def sampleLogPath : LogPath := ⟨ascii "/var/log", ascii "app", ascii ".log"⟩

def sampleLogTask : LogTask :=
  ⟨levelTrace, false, some ⟨sampleLogPath, 20, 65⟩,
    Disk.append (fun _ => none) sampleLogPath.text (ascii "started" ++ [newline])⟩

def sampleLogCalls : List LogCall :=
  [⟨8, .write (ascii "1") levelInfo 5 (ascii "hello")⟩,
    ⟨8, .write (ascii "1") 6 5 (ascii "not written")⟩,
    ⟨9, .stop (ascii "2") (ascii "3")⟩]

theorem log_complete_iff_sampleLogCalls :
    ∃ t' outs, Step.run (LogTask.step .release) sampleLogTask sampleLogCalls = .ok (t', outs) ∧
      rotations outs = [8] ∧
      t'.disk.text (sampleLogPath.backup 8) ++ t'.disk.text sampleLogPath.text =
        sampleLogTask.disk.text sampleLogPath.text ++
          (logged levelTrace true sampleLogCalls).flatten := by
  have hfile : ∀ f, sampleLogTask.rfile = some f → f.path = sampleLogPath := by
    intro f hf
    rw [← Option.some.inj hf]
  have hcalls : ∀ call ∈ sampleLogCalls, call.StartsAt sampleLogPath := by
    simp [sampleLogCalls, LogCall.StartsAt]
  refine ⟨_, _, rfl, rfl, ?_⟩
  have h := (log_complete_iff (b := .release) hfile hcalls rfl).mpr (by decide)
  exact h

end Cyng
