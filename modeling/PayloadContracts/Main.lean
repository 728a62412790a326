import PayloadContracts.CommandLine.Arguments
import PayloadContracts.CommandLine.Disk
import PayloadContracts.CommandLine.Run

/-!
The program: checks payloads against contracts, compares versions of a contract, and writes samples.
-/

namespace PayloadContracts.CommandLine

/-- Prints the report, and gives the code to end with. -/
def Report.print (r : Report) : IO UInt32 := do
  IO.print r.printed
  match r.reasons with
  | [] => return 0
  | reason :: causes =>
    IO.eprintln ("Error: " ++ reason)
    unless causes.isEmpty do
      IO.eprintln "\nCaused by:"
      for cause in causes do IO.eprintln ("    " ++ cause)
    return 1

end PayloadContracts.CommandLine

open PayloadContracts CommandLine

def main (arguments : List String) : IO UInt32 := do
  match Command.ofArguments arguments with
  | .ok command => (← run disk command).print
  | .error .help =>
    IO.println Usage.help.message
    return 0
  | .error usage =>
    IO.eprintln usage.message
    return 2
