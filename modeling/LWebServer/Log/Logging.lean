import LWebServer.Log.LogStream
import Mathlib.Logic.Function.Basic

/-!
# Log statements

There is one stream for each level. A statement first hands over what its stream still holds of the
statement before it at this level, together with its own header, and leaves its text in the stream.
What is left there at the end of the process is handed over by the destructors.
-/

namespace LWebServer

open LogStream

/-- `logging::Loglevel` -/
inductive Loglevel where
  | debug
  | info
  | warn
  | error
  | fatal
  deriving DecidableEq, Repr

/-- `LogLevelName` -/
def Loglevel.name : Loglevel → List Byte
  | debug => text "DEBUG "
  | info => text "INFO  "
  | warn => text "WARN  "
  | error => text "ERROR "
  | fatal => text "FATAL "

/-- `logging::Filewrapper`: the name of the file behind the last slash of its path. -/
def filewrapper (path : List Byte) : List Byte :=
  (path.reverse.takeWhile fun ch ↦ ch ≠ ascii '/').reverse

/-- A log statement: the call of the function of its level, with what the clock and `strerror_r`
give during the call, and what is streamed behind it. -/
structure Statement where
  level : Loglevel
  path : List Byte
  line : Integral
  oldErrno : Integral
  message : List Byte
  time : List Byte
  microseconds : List Byte
  text : List Streamed

/-- `ws::detail::logging` -/
structure Logging where
  stream : LogStream
  level : Loglevel
  line : Integral
  basename : List Byte

namespace Logging

/-- `initResourse` -/
def new (s : Statement) : Logging where
  stream := .new
  level := s.level
  line := s.line
  basename := filewrapper s.path

/-- `finish` -/
def finish (l : Logging) : List Streamed :=
  [.characters (text " - "), .characters l.basename, .characters [ascii ':'], .integer l.line,
    .characters (text " - ")]

/-- What `getStream` puts into the stream. -/
def header (l : Logging) (s : Statement) : List Streamed :=
  [.characters s.time, .characters s.microseconds, .characters (text "111111"),
    .characters s.level.name] ++
  (if s.oldErrno.value ≠ 0 then
    [.characters s.message, .characters (text " (errno="), .integer s.oldErrno,
      .characters (text ") ")] else []) ++
  l.finish

end Logging

/-- The static factories of the five levels, those that have been built last first, and the bytes
given to `g_output_`. -/
structure LogProcess where
  logData : Loglevel → Option Logging
  constructed : List Loglevel
  output : List Byte
  aborted : Bool

namespace LogProcess

def new : LogProcess where
  logData := fun _ ↦ none
  constructed := []
  output := []
  aborted := false

/-- `loggingFactory::getStream` -/
def getStream (s : Statement) (p : LogProcess) : LogProcess :=
  let l := (p.logData s.level).getD (.new s)
  let stream := putAll (l.header s) l.stream
  { logData := Function.update p.logData s.level (some { l with stream := stream.reset })
    constructed :=
      if (p.logData s.level).isSome then p.constructed else s.level :: p.constructed
    output := p.output ++ stream.content
    aborted := l.level = .fatal }

/-- The text goes into the stream of its level. -/
def streamText (s : Statement) (p : LogProcess) : LogProcess :=
  let written := (p.logData s.level).map fun l ↦ { l with stream := putAll s.text l.stream }
  { p with logData := Function.update p.logData s.level written }

/-- One statement. Nothing happens after `abort`. -/
def log (s : Statement) (p : LogProcess) : LogProcess :=
  if p.aborted then p
  else if (getStream s p).aborted then getStream s p
  else streamText s (getStream s p)

/-- What the stream of a level holds. -/
def pending (p : LogProcess) (level : Loglevel) : List Byte :=
  ((p.logData level).map fun l ↦ l.stream.content).getD []

/-- The end of the process: the destructors run in the reverse order of construction, except behind
`abort`. -/
def exit (p : LogProcess) : LogProcess :=
  if p.aborted then p else { p with output := p.output ++ p.constructed.flatMap p.pending }

/-- All that a sequence of statements gives to `g_output_`. -/
def outputOf (statements : List Statement) : List Byte :=
  (exit (statements.foldl (fun p s ↦ log s p) new)).output

end LogProcess

end LWebServer
