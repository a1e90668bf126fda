import PhraseLang.Command.Files

/-! A tree of files below the working directory, and where a path leads in it.
A path is followed name by name: an empty name and a single dot stay, two dots go up, and every
name but the last must be a directory. Outside the tree nothing is known to exist. -/
namespace PhraseLang

/-- What exists, each under the names that lead to it; the directories on the way exist too. -/
structure Tree where
  entries : List (List String × PathState)

namespace Tree

/-- Files and directories by their paths, names separated by slashes. -/
def ofPaths (files : List (String × PathState)) : Tree :=
  ⟨files.map fun (path, state) => (path.splitOn "/", state)⟩

def entry (tree : Tree) (names : List String) : PathState :=
  match tree.entries.find? fun (other, _) => other == names with
  | some (_, state) => state
  | none =>
    if names.isEmpty || tree.entries.any fun (other, _) => names.isPrefixOf other then .directory
    else .missing

def stays (name : String) : Bool := name == "" || name == "."

/-- What a row of names leads to from a place above the tree. -/
def outside (names : List String) : PathState :=
  if names.all fun name => stays name || name == ".." then .directory else .missing

/-- What a row of names leads to from `here`. -/
def follow (tree : Tree) (here : List String) : List String → PathState
  | [] => tree.entry here
  | name :: rest =>
    match tree.entry here with
    | .directory =>
      if stays name then follow tree here rest
      else if name == ".." then
        if here.isEmpty then outside rest else follow tree here.dropLast rest
      else follow tree (here ++ [name]) rest
    | .missing => .missing
    | _ => .throughFile

/-- What a path leads to. A path that begins with a slash leaves the tree. -/
def state (tree : Tree) (path : String) : PathState :=
  if path.isEmpty then .missing
  else if path.front == '/' then outside (path.splitOn "/")
  else tree.follow [] (path.splitOn "/")

end Tree

end PhraseLang
