import LazyQuery.Engine.Config.Reader

/-!
# Configuration files

* `Config.ofFile` — the configuration that a file holds, and what is logged when it is loaded;
* `Config.LoadError.message` — why there is none.
-/

namespace LazyQuery.Config

/-- Why a file could not be read as text. -/
inductive ReadFailure where
  | notFound
  | isDirectory
  | invalidText
  deriving DecidableEq, Repr

inductive LoadError where
  | unreadable (path : String) (failure : ReadFailure)
  | malformed (fault : Fault)
  deriving DecidableEq, Repr

def LoadError.message : LoadError → String
  | .unreadable path _ => "Failed to read config " ++ path ++ ": "
  | .malformed _ => "Malformed config: "

/-- The text of a file that has been read, or not. -/
def fileText (contents : Except ReadFailure ByteArray) : Except ReadFailure String := do
  match String.fromUTF8? (← contents) with
  | some text => return text
  | none => throw .invalidText

/-- Loading a configuration is logged if the configuration says so. -/
def ofFile (path : String) (contents : Except ReadFailure ByteArray) : Except LoadError Config × List Log.Record :=
  match fileText contents with
  | .error failure => (.error (.unreadable path failure), [])
  | .ok text =>
    match ofJson text with
    | .error fault => (.error (.malformed fault), [])
    | .ok config =>
      if config.logs Log.Event.configLoaded.severity then
        (.ok config, [.ofEvent .configLoaded [("log_level", config.logLevel.name), ("path", path)]])
      else (.ok config, [])

end LazyQuery.Config
