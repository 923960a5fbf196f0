import NyanChat.Message
import NyanChat.Library.FileTree

/-!
# The disk

The disk that the programs keep the codes of the pseudos on, each in a directory of its own: `stat`, `read_file`,
`fopen`, `mkdir` and `remove` walk through the components of a path, so that two paths can lead to one file, and they
fail where nothing or a directory stands.  Among the names without a slash each has its own file, and a directory that
holds nothing but files is a table of contents (`Holds`), which the calls read and change as their names say.
-/

namespace NyanChat

open Paths

/-- `/` -/
def SLASH : UInt8 := 47

/-- `.` -/
def DOT : UInt8 := 46

/-- The names on the way to a directory of the file system. -/
abbrev Place : Type := List (List UInt8)

/-- The directories and files, with their contents. -/
abbrev Disk : Type := Tree UInt8 (List UInt8)

namespace Disk

def stat (d : Disk) (cwd : Place) (path : List UInt8) : Option (Node (List UInt8)) := Tree.stat d SLASH DOT cwd path

/-- `fopen` to write, and `fwrite` -/
def write (d : Disk) (cwd : Place) (path content : List UInt8) : Option Disk := Tree.write d SLASH DOT cwd path content

def remove (d : Disk) (cwd : Place) (path : List UInt8) : Disk := Tree.remove d SLASH DOT cwd path

/-- The directory of the codes is made when it is missing.  A failure of `mkdir` ends the program. -/
def makeCodes (d : Disk) (cwd : Place) (path : List UInt8) : Option Disk :=
  match d.stat cwd path with
  | none => Tree.makeDirectory d SLASH DOT cwd path
  | some _ => some d

/-- What the files hold, by their path. -/
def contents (d : Disk) (cwd : Place) (path : List UInt8) : Option (List UInt8) :=
  match d.stat cwd path with
  | none => none
  | some .directory => none
  | some (.file content) => some content

end Disk

/-- A connection request whose pseudo is no path. -/
def PlainRequest (msg : Message) : Prop :=
  msg.msgType = MSG_CONNECTION_CLIENT → ∀ p, cstr msg.srcPseudo = some p → SLASH ∉ p

theorem plainRequest_of_cstr {msg : Message} {p : List UInt8} (hp : cstr msg.srcPseudo = some p) (hslash : SLASH ∉ p) :
    PlainRequest msg := by
  intro _ q hq
  obtain rfl := Option.some.inj (hp.symm.trans hq)
  exact hslash

/-- No directory stands where a file goes. -/
def FilesOnly (dir : Place) (d : Disk) : Prop := ∀ p, IsName SLASH DOT p → d.node (dir ++ [p]) ≠ some .directory

/-- The entries of a directory are these files. -/
def Holds (dir : Place) (d : Disk) (files : List UInt8 → Option (List UInt8)) : Prop :=
  ∀ p, IsName SLASH DOT p → d.node (dir ++ [p]) = (files p).map .file

variable {cwd dir : Place} {d d' : Disk} {folder p content : List UInt8} {files : List UInt8 → Option (List UInt8)}

theorem Holds.filesOnly (h : Holds dir d files) : FilesOnly dir d := by
  intro p hp hdir
  rw [h p hp] at hdir
  cases hfile : files p <;> simp [hfile] at hdir

/-! ### A directory of files -/

theorem stat_folder (cwd : Place) (d : Disk) (hfolder : IsName SLASH DOT folder) :
    d.stat cwd (folder ++ [SLASH]) = if d.isDirectory (cwd ++ [folder]) then some .directory else none :=
  Tree.stat_folder hfolder

/-- The directory is there after `makeCodes`, and all else stays. -/
theorem makeCodes_eq (hfolder : IsName SLASH DOT folder) (hmake : d.makeCodes cwd (folder ++ [SLASH]) = some d') :
    d'.node (cwd ++ [folder]) = some .directory ∧
      ∀ p, d'.node (cwd ++ [folder] ++ [p]) = d.node (cwd ++ [folder] ++ [p]) := by
  rw [Disk.makeCodes, stat_folder cwd d hfolder] at hmake
  by_cases hdir : d.isDirectory (cwd ++ [folder]) = true
  · rw [if_pos hdir] at hmake
    cases hmake
    exact ⟨Tree.isDirectory_iff.1 hdir, fun _ => rfl⟩
  · rw [if_neg hdir] at hmake
    obtain ⟨-, hnode⟩ := Tree.makeDirectory_folder hfolder hmake
    rw [hnode]
    exact ⟨Function.update_self .., fun p => Function.update_of_ne (by simp) _ _⟩

/-- What is read by its path stands in the directory. -/
theorem holds_contents (hfolder : IsName SLASH DOT folder) (hd : FilesOnly (cwd ++ [folder]) d) :
    Holds (cwd ++ [folder]) d fun p => d.contents cwd (folder ++ SLASH :: p) := by
  intro p hp
  have hfiles := hd p hp
  dsimp only
  unfold Disk.contents Disk.stat
  by_cases hdir : d.node (cwd ++ [folder]) = some .directory
  · rw [Tree.stat_entry hfolder hp hdir]
    cases hnode : d.node (cwd ++ [folder] ++ [p]) with
    | none => rfl
    | some x =>
      cases x with
      | directory => exact absurd hnode hfiles
      | file content => rfl
  · rw [Tree.stat_entry_of_not hfolder hp.sep hdir]
    by_contra hentry
    exact hdir (d.parent _ _ hentry)

theorem Holds.stat (h : Holds (cwd ++ [folder]) d files) (hfolder : IsName SLASH DOT folder)
    (hdir : d.node (cwd ++ [folder]) = some .directory) (hp : IsName SLASH DOT p) :
    d.stat cwd (folder ++ SLASH :: p) = (files p).map .file := by
  rw [Disk.stat, Tree.stat_entry hfolder hp hdir]
  exact h p hp

/-- A file is written, and the others stay. -/
theorem Holds.write (h : Holds (cwd ++ [folder]) d files) (hfolder : IsName SLASH DOT folder)
    (hdir : d.node (cwd ++ [folder]) = some .directory) (hp : IsName SLASH DOT p) (content : List UInt8) :
    ∃ d', d.write cwd (folder ++ SLASH :: p) content = some d' ∧
      d'.node (cwd ++ [folder]) = some .directory ∧
      Holds (cwd ++ [folder]) d' (Function.update files p (some content)) := by
  refine ⟨_, Tree.write_entry hfolder hp hdir (h.filesOnly p hp) content, ?_, fun q hq => ?_⟩
  · exact (Function.update_of_ne (by simp) _ _).trans hdir
  · dsimp only [Tree.put]
    by_cases hqp : q = p
    · subst hqp
      rw [Function.update_self, Function.update_self]
      rfl
    · rw [Function.update_of_ne hqp, ← h q hq]
      refine Function.update_of_ne (fun heq => hqp ?_) _ _
      exact List.singleton_inj.1 (List.append_cancel_left heq)

/-- A file is removed, and the others stay. -/
theorem Holds.remove (h : Holds (cwd ++ [folder]) d files) (hfolder : IsName SLASH DOT folder)
    (hdir : d.node (cwd ++ [folder]) = some .directory) (hp : IsName SLASH DOT p) :
    (d.remove cwd (folder ++ SLASH :: p)).node (cwd ++ [folder]) = some .directory ∧
      Holds (cwd ++ [folder]) (d.remove cwd (folder ++ SLASH :: p)) (Function.update files p none) := by
  have hnode := Tree.remove_entry hfolder hp hdir (h.filesOnly p hp)
  rw [Disk.remove, hnode]
  refine ⟨(Function.update_of_ne (by simp) _ _).trans hdir, fun q hq => ?_⟩
  rw [hnode]
  by_cases hqp : q = p
  · subst hqp
    rw [Function.update_self, Function.update_self]
    rfl
  · rw [Function.update_of_ne hqp, ← h q hq]
    refine Function.update_of_ne (fun heq => hqp ?_) _ _
    exact List.singleton_inj.1 (List.append_cancel_left heq)

/-- A disk with an empty root. -/
def emptyDisk : Disk := Tree.ofFiles [] fun _ => none

theorem emptyDisk_filesOnly (folder : List UInt8) : FilesOnly ([] ++ [folder]) emptyDisk := by
  intro p _ hdir
  simp [emptyDisk, Tree.ofFiles] at hdir

end NyanChat
