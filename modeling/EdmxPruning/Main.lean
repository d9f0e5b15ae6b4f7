import EdmxPruning.Command.Arguments

/-! The program. It looks up the files that a command names, carries the command out on what it
found, writes the output if there is one, and prints the lines. -/
namespace EdmxPruning.Program

def faultOf : IO.Error → FileFault
  | .noFileOrDirectory .. => .notFound
  | error => .refused (toString error)

def look (path : String) : IO (Except FileFault String) := do
  try
    match String.fromUTF8? (← IO.FS.readBinFile path) with
    | some text => pure (.ok text)
    | none => pure (.error .invalidData)
  catch error => pure (.error (faultOf error))

structure Output where
  path : String
  text : String
  deriving DecidableEq, Repr

structure Snapshot where
  found : List (String × Except FileFault String)
  output? : Option Output

/-- A write is kept in mind, to be made once all else is done. -/
def Snapshot.storage : Storage Snapshot where
  read snapshot path := (snapshot.found.lookup path).getD (.error .notFound)
  write snapshot path text := (.ok (), { snapshot with output? := some ⟨path, text⟩ })

def save (output : Output) : IO (Except CommandError Unit) := do
  try
    IO.FS.writeFile output.path output.text
    pure (.ok ())
  catch error => pure (.error (.output output.path (faultOf error)))

def fail (error : CommandError) : IO UInt32 := do
  IO.eprintln ("Error: " ++ error.message)
  return 1

def finish (lines : List String) (output? : Option Output) : IO UInt32 := do
  match ← (output?.mapM save) with
  | some (.error error) => fail error
  | _ =>
      IO.print (unlines lines)
      return 0

def carryOut (invocation : Invocation) : IO UInt32 := do
  let found ← invocation.command.inputs.mapM fun path => do return (path, ← look path)
  let outcome := invocation.command.run Snapshot.storage ⟨found, none⟩
  for event in Event.upTo (.ofVerbosity invocation.verbosity) outcome.events do
    IO.eprintln event.line
  match outcome.result with
  | .error error => fail error
  | .ok lines => finish lines outcome.files.output?

end EdmxPruning.Program

def main (arguments : List String) : IO UInt32 := do
  match EdmxPruning.Invocation.ofArguments arguments with
  | .error error =>
      IO.eprintln ("error: " ++ error.message)
      return 2
  | .ok invocation => EdmxPruning.Program.carryOut invocation
