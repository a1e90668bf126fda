/-! Source files: what a path may lead to, and when that is a source. -/
namespace PhraseLang

inductive PathState where
  | missing
  /-- The path goes on behind the name of a file. -/
  | throughFile
  | directory
  /-- A file of UTF-8 text. -/
  | text (content : String)
  /-- A file of other bytes, or one too large to be looked into: only its size counts. -/
  | binary (size : Nat)
deriving DecidableEq

inductive ReadFailure where
  | missing
  | throughFile
  | directory
  | tooLarge (size : Nat)
  | notText
deriving DecidableEq

def maxSourceSize : Nat := 100 * 1024 * 1024

/-- The source under a path. The size is checked before the content is. -/
def PathState.source : PathState → Except ReadFailure String
  | .missing => .error .missing
  | .throughFile => .error .throughFile
  | .directory => .error .directory
  | .text content =>
    if maxSourceSize < content.utf8ByteSize then .error (.tooLarge content.utf8ByteSize)
    else .ok content
  | .binary size => .error (if maxSourceSize < size then .tooLarge size else .notText)

def ReadFailure.message (path : String) : ReadFailure → String
  | .missing => "Cannot access file '" ++ path ++ "': No such file or directory (os error 2)"
  | .throughFile => "Cannot access file '" ++ path ++ "': Not a directory (os error 20)"
  | .directory => "Error reading file '" ++ path ++ "': Is a directory (os error 21)"
  | .tooLarge size =>
    "Source file '" ++ path ++ "' is too large (" ++ toString size ++ " bytes, max " ++
      toString maxSourceSize ++ " bytes)"
  | .notText => "Error reading file '" ++ path ++ "': stream did not contain valid UTF-8"

end PhraseLang
