import Mathlib.Data.List.DropRight
import Mathlib.Logic.Function.Basic
import NyanChat.Library.Paths

/-!
# Trees of files

A tree of directories and files, given by what stands at each place.  The calls on a path walk through its components,
each of which but the last has to lead to a directory (`walk`).  They find what stands there (`stat`), write a file
(`write`), take one away (`remove`) or make a directory (`makeDirectory`), and answer `none` where the call fails.  On
the path of a name in an existing directory they reach the entry with this name (`stat_entry`, `write_entry`,
`remove_entry`).
-/

namespace Paths

inductive Node (β : Type*)
  | directory
  | file (content : β)

/-- The root is a directory, and what has an entry is one. -/
structure Tree (α β : Type*) where
  node : List (List α) → Option (Node β)
  root : node [] = some .directory
  parent : ∀ dir name, node (dir ++ [name]) ≠ none → node dir = some .directory

namespace Tree

variable {α β : Type*}

def isDirectory (t : Tree α β) (place : List (List α)) : Bool :=
  match t.node place with
  | some .directory => true
  | _ => false

variable {t t' : Tree α β} {sep dot : α} {cwd dir : List (List α)} {folder name : List α} {x : Node β}

theorem isDirectory_iff : t.isDirectory dir = true ↔ t.node dir = some .directory := by
  unfold isDirectory
  split <;> simp_all

private theorem head_ne (h : IsName sep dot folder) (rest : List α) : (folder ++ rest).head? ≠ some sep := by
  obtain ⟨c, cs, rfl⟩ := List.exists_cons_of_ne_nil h.proper.1
  intro hhead
  exact h.sep (Option.some.inj hhead ▸ List.mem_cons_self)

/-- The directory around an existing directory exists. -/
private theorem isDirectory_cwd (hdir : t.node (cwd ++ [folder]) = some .directory) : t.isDirectory cwd = true :=
  isDirectory_iff.2 (t.parent _ _ (by rw [hdir]; exact Option.some_ne_none _))

variable [DecidableEq α]

/-- The place that the components of a path lead to from the place `dir`. -/
def walk (t : Tree α β) (dot : α) : List (List α) → List (List α) → Option (List (List α))
  | dir, [] => some dir
  | dir, name :: names => if t.isDirectory dir then t.walk dot (enter dot dir name) names else none

/-- The place of a path for a program that works in the place `cwd`. -/
def place (t : Tree α β) (sep dot : α) (cwd : List (List α)) (path : List α) : Option (List (List α)) :=
  t.walk dot (if path.head? = some sep then [] else cwd) (path.splitOn sep)

def stat (t : Tree α β) (sep dot : α) (cwd : List (List α)) (path : List α) : Option (Node β) :=
  (t.place sep dot cwd path).bind t.node

/-- An entry of a directory becomes `x`, if it was no directory. -/
def put (t : Tree α β) (dir : List (List α)) (name : List α) (x : Node β) (hdir : t.node dir = some .directory)
    (hentry : t.node (dir ++ [name]) ≠ some .directory) : Tree α β where
  node := Function.update t.node (dir ++ [name]) (some x)
  root := by rw [Function.update_of_ne (List.append_ne_nil_of_right_ne_nil _ (List.cons_ne_nil _ _)).symm, t.root]
  parent := by
    intro above below hnode
    have habove : above ≠ dir ++ [name] := by
      rintro rfl
      rw [Function.update_of_ne (by simp)] at hnode
      exact hentry (t.parent _ _ hnode)
    rw [Function.update_of_ne habove]
    by_cases hbelow : above ++ [below] = dir ++ [name]
    · rwa [(List.append_inj' hbelow rfl).1]
    · rw [Function.update_of_ne hbelow] at hnode
      exact t.parent _ _ hnode

/-- What stands at a place becomes `x`.  There must be a directory around it, and none at it. -/
def putAt (t : Tree α β) (place : List (List α)) (x : Node β) : Option (Tree α β) :=
  if h : place ≠ [] ∧ t.isDirectory place.dropLast ∧ t.isDirectory place = false then
    some (t.put place.dropLast (place.getLast h.1) x (isDirectory_iff.1 h.2.1) (by
      rw [List.dropLast_append_getLast h.1]
      exact fun hdir => Bool.false_ne_true (h.2.2.symm.trans (isDirectory_iff.2 hdir))))
  else none

/-- A file is written from its beginning, and made when it does not exist. -/
def write (t : Tree α β) (sep dot : α) (cwd : List (List α)) (path : List α) (content : β) : Option (Tree α β) :=
  (t.place sep dot cwd path).bind fun place => t.putAt place (.file content)

/-- A directory is made where nothing stands.  Separators at the end of its path do not count. -/
def makeDirectory (t : Tree α β) (sep dot : α) (cwd : List (List α)) (path : List α) : Option (Tree α β) :=
  (t.place sep dot cwd (path.rdropWhile (· = sep))).bind fun place =>
    if (t.node place).isNone then t.putAt place .directory else none

/-- A file is taken away. -/
def erase (t : Tree α β) (place : List (List α)) (hplace : t.node place ≠ some .directory) : Tree α β where
  node := Function.update t.node place none
  root := by
    have hroot : [] ≠ place := by
      rintro rfl
      exact hplace t.root
    rw [Function.update_of_ne hroot, t.root]
  parent := by
    intro above below hnode
    by_cases hbelow : above ++ [below] = place
    · rw [hbelow, Function.update_self] at hnode
      exact absurd rfl hnode
    · rw [Function.update_of_ne hbelow] at hnode
      have hdir := t.parent _ _ hnode
      have habove : above ≠ place := by
        rintro rfl
        exact hplace hdir
      rwa [Function.update_of_ne habove]

/-- The file at a path is taken away, if there is one. -/
def remove (t : Tree α β) (sep dot : α) (cwd : List (List α)) (path : List α) : Tree α β :=
  match t.place sep dot cwd path with
  | none => t
  | some place =>
    if h : t.isDirectory place = false then
      t.erase place fun hdir => Bool.false_ne_true (h.symm.trans (isDirectory_iff.2 hdir))
    else t

/-! ### Entries of a directory -/

theorem putAt_entry (hdir : t.node dir = some .directory) (hentry : t.node (dir ++ [name]) ≠ some .directory) :
    t.putAt (dir ++ [name]) x = some (t.put dir name x hdir hentry) := by
  have hisdir : t.isDirectory dir = true := isDirectory_iff.2 hdir
  have hisnot : t.isDirectory (dir ++ [name]) = false := by
    rw [Bool.eq_false_iff, ne_eq, isDirectory_iff]
    exact hentry
  have hcond : dir ++ [name] ≠ [] ∧ t.isDirectory (dir ++ [name]).dropLast ∧ t.isDirectory (dir ++ [name]) = false :=
    ⟨by simp, by rwa [List.dropLast_concat], hisnot⟩
  rw [putAt, dif_pos hcond]
  simp only [List.dropLast_concat, List.getLast_append_singleton]

theorem place_entry (hfolder : IsName sep dot folder) (hname : IsName sep dot name)
    (hdir : t.node (cwd ++ [folder]) = some .directory) :
    t.place sep dot cwd (folder ++ sep :: name) = some (cwd ++ [folder] ++ [name]) := by
  rw [place, if_neg (head_ne hfolder _), List.splitOn_append_cons_self_of_not_mem hfolder.sep,
    List.splitOn_eq_singleton hname.sep, walk, if_pos (isDirectory_cwd hdir), enter_proper hfolder.proper, walk,
    if_pos (isDirectory_iff.2 hdir), enter_proper hname.proper, walk]

theorem stat_entry (hfolder : IsName sep dot folder) (hname : IsName sep dot name)
    (hdir : t.node (cwd ++ [folder]) = some .directory) :
    t.stat sep dot cwd (folder ++ sep :: name) = t.node (cwd ++ [folder] ++ [name]) := by
  rw [stat, place_entry hfolder hname hdir, Option.bind_some]

/-- Without the directory there is nothing behind its name. -/
theorem stat_entry_of_not (hfolder : IsName sep dot folder) (hname : sep ∉ name)
    (hdir : t.node (cwd ++ [folder]) ≠ some .directory) : t.stat sep dot cwd (folder ++ sep :: name) = none := by
  rw [stat, place, if_neg (head_ne hfolder _), List.splitOn_append_cons_self_of_not_mem hfolder.sep,
    List.splitOn_eq_singleton hname, walk]
  split
  · rw [enter_proper hfolder.proper, walk, if_neg (fun h => hdir (isDirectory_iff.1 h)), Option.bind_none]
  · rfl

/-- A component that is no name leads to a directory. -/
theorem stat_improper (hfolder : IsName sep dot folder) (hsep : sep ∉ name) (hname : ¬ Proper dot name)
    (hdir : t.node (cwd ++ [folder]) = some .directory) :
    t.stat sep dot cwd (folder ++ sep :: name) = some .directory := by
  have hcwd := isDirectory_cwd hdir
  rw [stat, place, if_neg (head_ne hfolder _), List.splitOn_append_cons_self_of_not_mem hfolder.sep,
    List.splitOn_eq_singleton hsep, walk, if_pos hcwd, enter_proper hfolder.proper, walk,
    if_pos (isDirectory_iff.2 hdir), walk, Option.bind_some, enter]
  split
  · exact hdir
  · rename_i hstay
    have hup : name = [dot, dot] := by
      by_contra hup
      exact hname ⟨fun h => hstay (Or.inl h), fun h => hstay (Or.inr h), hup⟩
    rw [if_pos hup, List.dropLast_concat]
    exact isDirectory_iff.1 hcwd

theorem write_entry (hfolder : IsName sep dot folder) (hname : IsName sep dot name)
    (hdir : t.node (cwd ++ [folder]) = some .directory)
    (hentry : t.node (cwd ++ [folder] ++ [name]) ≠ some .directory) (content : β) :
    t.write sep dot cwd (folder ++ sep :: name) content =
      some (t.put (cwd ++ [folder]) name (.file content) hdir hentry) := by
  rw [write, place_entry hfolder hname hdir, Option.bind_some, putAt_entry hdir hentry]

theorem remove_entry (hfolder : IsName sep dot folder) (hname : IsName sep dot name)
    (hdir : t.node (cwd ++ [folder]) = some .directory)
    (hentry : t.node (cwd ++ [folder] ++ [name]) ≠ some .directory) :
    (t.remove sep dot cwd (folder ++ sep :: name)).node =
      Function.update t.node (cwd ++ [folder] ++ [name]) none := by
  have hnot : t.isDirectory (cwd ++ [folder] ++ [name]) = false := by
    rw [Bool.eq_false_iff, ne_eq, isDirectory_iff]
    exact hentry
  simp only [remove, place_entry hfolder hname hdir, dif_pos hnot]
  rfl

/-- With a separator behind it, the path of a directory leads to it, and that of anything else nowhere. -/
theorem stat_folder (hfolder : IsName sep dot folder) :
    t.stat sep dot cwd (folder ++ [sep]) = if t.isDirectory (cwd ++ [folder]) then some .directory else none := by
  rw [stat, place, if_neg (head_ne hfolder _), List.splitOn_append_cons_self_of_not_mem hfolder.sep, List.splitOn_nil,
    walk]
  by_cases hdir : t.isDirectory (cwd ++ [folder]) = true
  · rw [if_pos hdir, if_pos (isDirectory_cwd (isDirectory_iff.1 hdir)), enter_proper hfolder.proper, walk, if_pos hdir,
      enter, if_pos (Or.inl rfl), walk, Option.bind_some, isDirectory_iff.1 hdir]
  · rw [if_neg hdir]
    split
    · rw [enter_proper hfolder.proper, walk, if_neg hdir, Option.bind_none]
    · rfl

/-- A directory that is made was not there, and nothing else changes. -/
theorem makeDirectory_folder (hfolder : IsName sep dot folder)
    (hmake : t.makeDirectory sep dot cwd (folder ++ [sep]) = some t') :
    t.node (cwd ++ [folder]) = none ∧ t'.node = Function.update t.node (cwd ++ [folder]) (some .directory) := by
  have htrim : (folder ++ [sep]).rdropWhile (· = sep) = folder := by
    rw [List.rdropWhile_concat, if_pos (decide_eq_true rfl), List.rdropWhile_eq_self_iff]
    intro hne hlast
    rw [decide_eq_true_iff] at hlast
    exact hfolder.sep (hlast ▸ List.getLast_mem hne)
  have hhead : folder.head? ≠ some sep := by
    have hnil := head_ne hfolder []
    rwa [List.append_nil] at hnil
  rw [makeDirectory, htrim, place, if_neg hhead, List.splitOn_eq_singleton hfolder.sep, walk] at hmake
  split at hmake
  · rename_i hcwd
    rw [enter_proper hfolder.proper, walk, Option.bind_some] at hmake
    split at hmake
    · rename_i hnone
      rw [Option.isNone_iff_eq_none] at hnone
      have hfree : t.node (cwd ++ [folder]) ≠ some .directory := by
        rw [hnone]
        exact (Option.some_ne_none _).symm
      rw [putAt_entry (isDirectory_iff.1 hcwd) hfree] at hmake
      cases hmake
      exact ⟨hnone, rfl⟩
    · cases hmake
  · cases hmake

/-! ### A tree with one directory of files -/

/-- The directories on the way to `dir`, and the files in it. -/
def ofFiles (dir : List (List α)) (files : List α → Option β) : Tree α β where
  node place := if place <+: dir then some .directory
    else if place.dropLast = dir then (files (place.getLast?.getD [])).map .file else none
  root := if_pos List.nil_prefix
  parent := by
    intro above below hnode
    by_cases hprefix : above ++ [below] <+: dir
    · exact if_pos ((List.prefix_append _ _).trans hprefix)
    · rw [if_neg hprefix, List.dropLast_concat] at hnode
      by_cases hlast : above = dir
      · exact if_pos (hlast ▸ List.prefix_rfl)
      · rw [if_neg hlast] at hnode
        exact absurd rfl hnode

theorem ofFiles_directory (dir : List (List α)) (files : List α → Option β) :
    (ofFiles dir files).node dir = some .directory := if_pos List.prefix_rfl

theorem ofFiles_entry (dir : List (List α)) (files : List α → Option β) (name : List α) :
    (ofFiles dir files).node (dir ++ [name]) = (files name).map .file := by
  have hprefix : ¬ dir ++ [name] <+: dir := fun h => by
    have hlen := h.length_le
    rw [List.length_append, List.length_singleton] at hlen
    omega
  simp only [ofFiles, if_neg hprefix, List.dropLast_concat, if_true, List.getLast?_concat, Option.getD_some]

end Tree

end Paths
