import AgentRules.CommandLine

/-! # The program

Reads the arguments, the file of rules if one is named, and the input if no texts are given; the
rest is `CommandLine.run`. -/

open AgentRules

/-- The file at a path, as far as it can be read. -/
def readPlace (path : String) : IO Place := do
  try return .file (← IO.FS.readBinFile path).toList
  catch _ => return .missing

def main (args : List String) : IO UInt32 := do
  let some options := CommandLine.Options.read {} args
    | IO.eprintln "the arguments are not understood"
      return CommandLine.usageCode.toUInt32
  let place ← match options.rules with
    | some path => readPlace path
    | none => pure .missing
  let stdin ← if options.texts.isEmpty then (← IO.getStdin).readBinToEnd else pure ByteArray.empty
  let outcome := CommandLine.run (fun _ => place) stdin.toList options
  IO.print outcome.printed
  if let some failure := outcome.failure then IO.eprintln s!"Error: {failure.message}"
  return outcome.code.toUInt32
