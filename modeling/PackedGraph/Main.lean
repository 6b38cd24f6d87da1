import PackedGraph.CommandLine.Run

/-!
# The program

The outer layer of the command line: it takes arguments from the system and lends its file system to
`Options.run`, which does the rest, and writes what comes of it.
-/

namespace PackedGraph.Program

/-- What the options are. -/
def usage : String :=
  "Parallel analytics over compressed in-memory graphs\n\nOptions:\n"
    ++ String.join (OptionRule.all.map fun rule => "  --" ++ rule.name ++ "\n")

/-- The cause of an error, by its number. -/
def systemError (error : IO.Error) : SystemError :=
  match error with
  | .noFileOrDirectory .. => .missing
  | .alreadyExists .. => .fileExists
  | .inappropriateType _ code _ => if code = 21 then .isDirectory else .notDirectory
  | .invalidArgument _ code _ => if code = 36 then .nameTooLong else .other (toString error)
  | _ => .other (toString error)

/-- Do something that the system may refuse. -/
def attempt {α : Type} (action : IO α) : IO (Except SystemError α) := do
  try
    return .ok (← action)
  catch error => return .error (systemError error)

/-- The files of the machine. -/
instance : FileSystem IO where
  read route := attempt (IO.FS.readBinFile route.text)
  isDirectory route := do
    match ← attempt (IO.FS.realPath route.text) with
    | .ok path => path.isDir
    | .error _ => return false
  makeDirectory route := attempt (IO.FS.createDir route.text)
  write route text := attempt (IO.FS.writeFile route.text text)

/-- The number of processors that the system lists, or one. -/
def countProcessors : IO Nat := do
  match ← attempt (IO.FS.readFile "/proc/cpuinfo") with
  | .ok listing => return max 1 ((listing.splitOn "\n").countP (·.startsWith "processor"))
  | .error _ => return 1

/-- Say how a run ends. -/
def leave (exit : Exit) : IO UInt32 := do
  for warning in exit.warnings do
    IO.eprintln warning
  if let some complaint := exit.complaint then
    IO.eprintln complaint
  return UInt32.ofNat exit.code

end PackedGraph.Program

open PackedGraph in
/-- The program. -/
def main (arguments : List String) : IO UInt32 := do
  match Invocation.ofArguments arguments with
  | .help =>
    IO.println Program.usage
    return 0
  | .refused =>
    IO.eprintln Program.usage
    return 2
  | .run options => Program.leave (← options.run (← Program.countProcessors))
