/-
# BlockFlow.Config.File -- configurations kept in files

A configuration file holds a configuration in JSON, encoded in UTF-8.  It cannot be
read when it is not there or not UTF-8, and not understood when it holds something
else.
-/
import BlockFlow.Json.Forms

namespace BlockFlow.Config

set_option autoImplicit false

/-- Why there is no configuration. -/
inductive FileError where
  /-- The file is missing, or its content is not text. -/
  | unreadable
  /-- The text is not a configuration. -/
  | malformed (fault : Json.Fault)
deriving DecidableEq

def FileError.message (path : String) : FileError → String
  | unreadable => "reading config " ++ path
  | malformed _ => "parsing config " ++ path

/-- The configuration in a file with this content; there is no content if there is no file. -/
def ofFile (content : Option ByteArray) : Except FileError Config :=
  match content.bind String.fromUTF8? with
  | none => .error .unreadable
  | some text => (parse text).mapError .malformed

end BlockFlow.Config
