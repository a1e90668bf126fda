import PhraseLang.Command.Outcome

/-! The command line: looks at the files that a request names, and prints its outcome. -/
namespace PhraseLang

/-- What a path leads to on this machine. A path through a file cannot be opened; a directory can
be, but not read, and that failure names no path. -/
def pathState (path : String) : IO PathState := do
  try
    let bytes ← IO.FS.readBinFile path
    if maxSourceSize < bytes.size then return .binary bytes.size
    match String.fromUTF8? bytes with
    | some content => return .text content
    | none => return .binary bytes.size
  catch
    | .inappropriateType (some _) _ _ => return .throughFile
    | .inappropriateType none _ _ => return .directory
    | _ => return .missing

def Request.path? : Request → Option String
  | .file path | .tokens path _ _ | .program path _ => some path
  | _ => none

end PhraseLang

open PhraseLang in
def main (arguments : List String) : IO UInt32 := do
  let path? := match Request.ofArgs arguments with
    | .ok request => request.path?
    | .error _ => none
  let state ← match path? with
    | some path => pathState path
    | none => pure .missing
  let outcome := runArgs (fun _ => state) arguments
  IO.print outcome.output
  IO.eprint outcome.errors
  return outcome.code
