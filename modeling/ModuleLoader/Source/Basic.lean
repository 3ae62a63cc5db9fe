import ModuleLoader.Path

/-! File sources: what resolution may ask about files. The answers come in a monad `m`, so that one
definition serves sources given as plain values and sources that have to be asked. -/

namespace ModuleLoader

inductive StorageKind where
  | filesystem
  | bundle
deriving DecidableEq

def StorageKind.toString : StorageKind → String
  | filesystem => "filesystem"
  | bundle => "bundle"

instance : ToString StorageKind := ⟨StorageKind.toString⟩

inductive ReadError where
  | missing
  | permissionDenied
  | notDirectory
  | isDirectory
  | nameTooLong
  | tooManyLinks
  | noDevice
  | containsNul
  | notInBundle (path : String)
  | absent (path : String)
  | unreadable (reason : String)
  /-- What went wrong at an entry while a directory was walked. -/
  | atEntry (path : Path) (error : ReadError)
deriving DecidableEq

namespace ReadError

def kind : ReadError → String
  | missing => "NotFound"
  | permissionDenied => "PermissionDenied"
  | notDirectory => "NotADirectory"
  | isDirectory => "IsADirectory"
  | nameTooLong => "InvalidFilename"
  | tooManyLinks => "FilesystemLoop"
  | noDevice => "Uncategorized"
  | containsNul => "InvalidInput"
  | notInBundle _ => "NotFound"
  | absent _ => "NotFound"
  | unreadable _ => "Other"
  | atEntry _ error => error.kind

def message : ReadError → String
  | missing => "No such file or directory (os error 2)"
  | permissionDenied => "Permission denied (os error 13)"
  | notDirectory => "Not a directory (os error 20)"
  | isDirectory => "Is a directory (os error 21)"
  | nameTooLong => "File name too long (os error 36)"
  | tooManyLinks => "Too many levels of symbolic links (os error 40)"
  | noDevice => "No such device or address (os error 6)"
  | containsNul => "file name contained an unexpected NUL byte"
  | notInBundle path => "'" ++ path ++ "' is not in the bundle"
  | absent path => "no such file: " ++ path
  | unreadable reason => reason
  | atEntry path error => "IO error for operation on " ++ path.text ++ ": " ++ error.message

end ReadError

structure FileSource (m : Type → Type) where
  kind : StorageKind
  existsFile : Path → m Bool
  existsDir : Path → m Bool
  read : Path → m (Except ReadError ByteArray)

end ModuleLoader
