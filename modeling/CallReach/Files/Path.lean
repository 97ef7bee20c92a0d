/-!
# Paths

A path is a root and a list of names.  Empty names and single dots are dropped
when a path is read; two dots stay, because what they mean depends on the
directories on the way.  Two slashes in front are a root of their own.

A path may start at the home directory of a user, which `Path.expandUser` puts in
its place.
-/

namespace CallReach.Files

/-- A path: its root, which is empty for a relative one, and its names. -/
structure Path where
  root : String
  names : List String
deriving DecidableEq, Repr

namespace Path

/-- The names of a text that is cut at slashes, with `current` in front of the
first one, backwards. -/
def cut (current : List Char) : List Char → List String
  | [] => [String.ofList current.reverse]
  | c :: rest =>
      if c = '/' then String.ofList current.reverse :: cut [] rest else cut (c :: current) rest

/-- The root of a text: nothing, a slash, or exactly two slashes. -/
def rootOf : List Char → String
  | '/' :: '/' :: '/' :: _ => "/"
  | '/' :: '/' :: _ => "//"
  | '/' :: _ => "/"
  | _ => ""

/-- The path that a text denotes. -/
def parse (text : String) : Path :=
  ⟨rootOf text.toList, (cut [] text.toList).filter fun name => name ≠ "" && name ≠ "."⟩

/-- The text of a path; the empty relative path is a dot. -/
def text (path : Path) : String :=
  if path.root.isEmpty && path.names.isEmpty then "."
  else path.root ++ "/".intercalate path.names

/-- Whether a path holds the null character, which no file name can. -/
def hasNull (path : Path) : Bool :=
  path.names.any fun name => name.toList.contains '\x00'

/-- Follows names from a place, where two dots lead back, without looking at
what is there. -/
def follow (place : List String) (names : List String) : List String :=
  names.foldl (fun place name => if name = ".." then place.dropLast else place ++ [name]) place

/-- The place of a path, seen from a working directory. -/
def place (directory : List String) (path : Path) : List String :=
  follow (if path.root.isEmpty then directory else []) path.names

end Path

/-! ## Home directories -/

/-- The home directories of users by their names, as far as they are known.  The
empty name is that of the user who asks. -/
abbrev Homes := String → Option String

/-- Why a path cannot start at a home directory. -/
inductive HomeFault where
  | unknown
  /-- The name of the user holds the null character. -/
  | nullInName
deriving DecidableEq, Repr

namespace Path

/-- The user at whose home directory a path starts: a relative path whose first
name is a tilde and the name of the user. -/
def user? (path : Path) : Option (List Char) :=
  match path.root, path.names with
  | "", name :: _ =>
      match name.toList with
      | '~' :: user => some user
      | _ => none
  | _, _ => none

/-- The text of a home directory without the slashes at its end. -/
def homeText (home : String) : List Char :=
  match (home.toList.reverse.dropWhile (· = '/')).reverse with
  | [] => ['/']
  | text => text

/-- The path with the home directory that it starts at.  A home directory that
starts at another one is not known. -/
def expandUser (homes : Homes) (path : Path) : Except HomeFault Path :=
  match path.user? with
  | none => .ok path
  | some user =>
      if user.contains '\x00' then .error .nullInName
      else
        match (homes (String.ofList user)).map homeText with
        | none | some ('~' :: _) => .error .unknown
        | some text =>
            let directory := parse (String.ofList text)
            .ok ⟨directory.root, directory.names ++ path.names.tail⟩

end Path

/-- The text of an absolute place. -/
def placeText (place : List String) : String :=
  "/" ++ "/".intercalate place

end CallReach.Files
