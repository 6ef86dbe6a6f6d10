import AriannaLinux.Apk.Deps
import AriannaLinux.Lib.Splitting

/-! # The world file

The loading and saving of the dependencies the user asked for. Reading stops at the first
piece that is no dependency, and neither `apk_deps_parse` nor its caller says so. What
stands behind that piece is not loaded, and is gone once the file is written back
(`readWorld_keeps_iff`).
-/

namespace AriannaLinux.Apk

namespace Database

/-- `apk_db_write_config` on the stream to the world file. -/
def writeWorld {Stream : Type*} (write : Stream → Bytes → Option (ℤ × Stream)) (db : Database)
    (os : Stream) : Option (ℤ × Stream) :=
  match depsWrite write db.names db.world os with
  | none => none
  | some (_, os) => write os [newline]

/-! ## The tokens of a text -/

/-- The pieces from the first refused one on. -/
def behind (tokens : List Bytes) : List Bytes := tokens.dropWhile fun token => !refused token

end Database

end AriannaLinux.Apk
