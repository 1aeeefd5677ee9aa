/-
# Refusals

Why a workspace does not do what it is asked for.
-/
import ComponentLens.Uri

namespace ComponentLens

/-- A reason to refuse. -/
inductive Refusal where
  /-- The path has no address. -/
  | noAddress (path : String)
  /-- The file is not open. -/
  | notOpen (uri : Uri)
  /-- The settings cannot be read. -/
  | badSettings
  /-- There is no such file. -/
  | noFile
  deriving DecidableEq, Repr

/-- What a user is told. The settings and the file system have words of their own. -/
def Refusal.message? : Refusal → Option String
  | .noAddress path => some ("invalid uri \x60" ++ path ++ "\x60")
  | .notOpen uri => some ("document not open: " ++ uri.text)
  | .badSettings | .noFile => none

end ComponentLens
