import LittleMan.Terminal.Screen

/-! Reading and writing files, and what can go wrong with it. -/
namespace LittleMan.CommandLine

inductive FileError
  | notFound
  | forbidden
  | notFolder
  | isFolder
  | noSpace
  | nameTooLong
  | notText
  | other (message : String)
  deriving DecidableEq, Repr

def FileError.message : FileError → String
  | notFound => "No such file or directory (os error 2)"
  | forbidden => "Permission denied (os error 13)"
  | notFolder => "Not a directory (os error 20)"
  | isFolder => "Is a directory (os error 21)"
  | noSpace => "No space left on device (os error 28)"
  | nameTooLong => "File name too long (os error 36)"
  | notText => "stream did not contain valid UTF-8"
  | other message => message

/-- Where files are read and written. A file can be a stream of the program itself: what writing to
it prints is returned. -/
structure Files (m : Type → Type) where
  read : String → m (Except FileError (List UInt8))
  write : String → String → m (Except FileError (List Terminal.Chunk))

end LittleMan.CommandLine
