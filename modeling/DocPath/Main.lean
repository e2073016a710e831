import DocPath.Command.Line

/-! The program: reads its arguments and standard input, prints, and ends with 0, with 1
after an error and with 2 after a usage error. -/

open DocPath

def main (args : List String) : IO UInt32 := do
  let stdin ← IO.getStdin
  let bytes ←
    if CommandLine.readsStdin args ∧ !(← stdin.isTty) then
      pure (some (← stdin.readBinToEnd).toList)
    else pure none
  match CommandLine.run args bytes with
  | .printed text =>
    IO.print text
    pure 0
  | .failed e =>
    IO.eprintln e.message
    pure 1
  | .usage =>
    IO.eprint CommandLine.helpText
    pure 2
