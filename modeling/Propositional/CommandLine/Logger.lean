import Propositional.CommandLine.Arguments

/-!
# Notes of the program

While it works the program notes what it was called with, the splits that the reader makes and the size of the
table. The notes are for a closer look and go to a logger, which comes from outside: it is set up first, for
a level of notes and for the streams to write to, and setting it up may fail. How it writes a note is left
open. The program asks for standard error, and relies on it that standard output is then left alone
(`Logger.Lawful`).
-/

namespace Propositional.CommandLine

/-- What has been written to the two streams. -/
structure Streams where
  stdout : String
  stderr : String
deriving DecidableEq, Repr

/-- What the program notes. -/
inductive Note
  /-- What it was called with. -/
  | called (i : Invocation)
  | message (text : String)
deriving DecidableEq, Repr

/-- Which notes are written: warnings, or also those for a closer look. -/
inductive Level
  | warn
  | debug
deriving DecidableEq, Repr

/-- Where notes are written. -/
inductive Target
  | stdout
  | stderr
  /-- Errors to standard error, and the rest to standard output. -/
  | mixed
deriving DecidableEq, Repr

/-- A logger: for a level and a target it gives the way in which it writes notes, or fails. -/
structure Logger where
  setUp : Level → Target → Option (Note → Streams → Streams)

namespace Logger

/-- A note as a line; of a call it shows the expressions. -/
def line : Note → String
  | .called i => "[DEBUG] args = " ++ ", ".intercalate i.expressions ++ "\n"
  | .message text => "[DEBUG] " ++ text ++ "\n"

/-- A logger that writes each note as a line, if the level admits it. -/
def plain : Logger where
  setUp level target := some fun note streams =>
    match level, target with
    | .warn, _ => streams
    | .debug, .stderr => { streams with stderr := streams.stderr ++ line note }
    | .debug, _ => { streams with stdout := streams.stdout ++ line note }

end Logger

end Propositional.CommandLine
