import LittleMan.Text.Pieces

/-! Paths of files: names, extensions, and the path with another extension. -/
namespace LittleMan.CommandLine.Path

def components (path : String) : List String :=
  (Text.pieces (· == '/') path.toList).map String.ofList

/-- The last component, unless it leads back to a folder above. -/
def fileName? (path : String) : Option String :=
  match ((components path).filter fun c => c != "" && c != ".").getLast? with
  | some c => if c = ".." then none else some c
  | none => none

/-- A name before its last point and after it. A point in front belongs to the name. -/
def splitName (name : String) : String × Option String :=
  let back := name.toList.reverse
  match back.dropWhile (· != '.') with
  | [] | [_] => (name, none)
  | _ :: stem =>
    (String.ofList stem.reverse, some (String.ofList (back.takeWhile (· != '.')).reverse))

def extension? (path : String) : Option String := (fileName? path).bind fun n => (splitName n).2

/-- Slashes and lone points at the end do not change what a path leads to; `back` is the path read
backwards. -/
def dropTail : List Char → List Char
  | '/' :: back => dropTail back
  | '.' :: '/' :: back => dropTail back
  | back => back

def withoutExtension (path : String) : String :=
  match extension? path with
  | none => path
  | some extension => String.ofList (path.toList.take (path.length - extension.length))

/-- The extension gives way to another one, together with the point in front of it. A path that
names no file once its extension is gone stays like that: two points are a way back. -/
def withExtension (path extension : String) : String :=
  let path := withoutExtension path
  match fileName? path with
  | none => path
  | some name =>
    let whole := (dropTail path.toList.reverse).reverse
    let folder := String.ofList (whole.take (whole.length - name.length))
    folder ++ (splitName name).1 ++ "." ++ extension

end LittleMan.CommandLine.Path
