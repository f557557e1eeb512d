import LittleMan.CommandLine.Files
import LittleMan.CommandLine.Path

/-! A tree of folders that is held in memory: files, devices, and paths that lead to them. -/
namespace LittleMan.CommandLine

open Terminal (Chunk Stream)

/-- A file that is no store of bytes. -/
inductive Device
  /-- Takes everything and holds nothing. -/
  | sink
  /-- Has no space for anything. -/
  | full
  | input
  | stream (s : Stream)
  deriving DecidableEq, Repr

namespace Device

/-- The device in a place, which is given by names from the root on. -/
def at? : List String → Option Device
  | ["dev", "null"] => some sink
  | ["dev", "full"] => some full
  | ["dev", "stdin"] | ["dev", "fd", "0"] => some input
  | ["dev", "stdout"] | ["dev", "fd", "1"] => some (stream .output)
  | ["dev", "stderr"] | ["dev", "fd", "2"] => some (stream .errors)
  | _ => none

/-- The device that a path from the root on names, if it names it without detours. -/
def ofPath? (path : String) : Option Device :=
  match Path.components path with
  | "" :: place => at? place
  | _ => none

end Device

/-- Folders that every system has. -/
def systemFolders : List (List String) :=
  [["bin"], ["boot"], ["dev", "fd"], ["dev", "pts"], ["dev", "shm"], ["etc"], ["home"], ["lib"],
   ["lib64"], ["media"], ["mnt"], ["opt"], ["proc", "self"], ["root"], ["run"], ["sbin"], ["srv"],
   ["sys"], ["tmp"], ["usr", "bin"], ["usr", "include"], ["usr", "lib"], ["usr", "local", "bin"],
   ["usr", "local", "lib"], ["usr", "sbin"], ["usr", "share"], ["var", "cache"], ["var", "lib"],
   ["var", "log"], ["var", "tmp"]]

structure Disk where
  /-- The folder in which relative paths begin. Places are given by names from the root on. -/
  home : List String
  /-- Files that hold bytes. -/
  files : List (List String × List UInt8)
  /-- What standard input holds. -/
  input : List UInt8
  deriving DecidableEq, Repr

namespace Disk

/-- Files in a folder below the temporary one, by their paths from there on. -/
def ofFiles (files : List (List String × List UInt8)) (input : List UInt8) : Disk :=
  let home := ["tmp", "lmc"]
  ⟨home, files.map fun e => (home ++ e.1, e.2), input⟩

/-- Files below the home folder, by their paths from there on. -/
def homeFiles (d : Disk) : List (List String × List UInt8) :=
  d.files.filterMap fun e =>
    if d.home.isPrefixOf e.1 then some (e.1.drop d.home.length, e.2) else none

/-- Folders of the system, the home folder and those above it, and those on the way to a file. -/
def isFolder (d : Disk) (place : List String) : Bool :=
  place.isPrefixOf d.home || systemFolders.any (place.isPrefixOf ·) ||
    d.files.any fun e => place.length < e.1.length && place.isPrefixOf e.1

def isFile (d : Disk) (place : List String) : Bool :=
  (Device.at? place).isSome || d.files.any (·.1 == place)

/-- Whatever a path names next, even a point, it names in a folder. -/
def enter (d : Disk) (place : List String) : Except FileError Unit :=
  if d.isFolder place then .ok ()
  else if d.isFile place then .error .notFolder
  else .error .notFound

/-- Longest name of a file, in bytes. -/
def nameLimit : Nat := 255

/-- Length in bytes that no path has. -/
def pathLimit : Nat := 4096

/-- Follows names from a folder on. The last one need not exist. -/
def follow (d : Disk) (place : List String) : List String → Except FileError (List String)
  | [] => .ok place
  | c :: cs => do
    d.enter place
    if c = "" ∨ c = "." then d.follow place cs
    else if c = ".." then d.follow place.dropLast cs
    else if nameLimit < c.utf8ByteSize then .error .nameTooLong
    else d.follow (place ++ [c]) cs

/-- The folder in which a path begins. -/
def start (d : Disk) (path : String) : Except FileError (List String) :=
  if path.isEmpty then .error .notFound
  else if pathLimit ≤ path.utf8ByteSize then .error .nameTooLong
  else .ok (if path.startsWith "/" then [] else d.home)

def read (d : Disk) (path : String) : Except FileError (List UInt8) := do
  let place ← d.follow (← d.start path) (Path.components path)
  if d.isFolder place then .error .isFolder
  else
    match Device.at? place with
    | some .input => .ok d.input
    | some _ => .ok []
    | none => (d.files.lookup place).elim (.error .notFound) .ok

/-- The place of a file to be written. Nothing but a folder can have a slash behind it or be named
by points, whether it exists or not. -/
def target (d : Disk) (path : String) : Except FileError (List String) := do
  let start ← d.start path
  match (Path.components path).reverse.dropWhile (· = "") with
  | [] => .error .isFolder
  | name :: back =>
    let folder ← d.follow start back.reverse
    d.enter folder
    if name = "." ∨ name = ".." ∨ path.endsWith "/" then .error .isFolder
    else
      let place ← d.follow folder [name]
      if d.isFolder place then .error .isFolder else .ok place

def write (d : Disk) (path content : String) : Except FileError (List Chunk × Disk) := do
  let place ← d.target path
  match Device.at? place with
  | some .full => if content.isEmpty then .ok ([], d) else .error .noSpace
  | some (.stream s) => .ok ([⟨s, content⟩], d)
  | some .sink | some .input => .ok ([], d)
  | none =>
    .ok ([], { d with files := d.files.filter (·.1 != place) ++ [(place, content.toUTF8.toList)] })

/-- The disk as a state that reading and writing work on. -/
def access : Files (StateM Disk) where
  read path := do return (← get).read path
  write path content := do
    match (← get).write path content with
    | .ok (chunks, d) => set d; return .ok chunks
    | .error e => return .error e

end Disk

end LittleMan.CommandLine
