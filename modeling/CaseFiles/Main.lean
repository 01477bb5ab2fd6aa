import CaseFiles.CommandLine
import CaseFiles.Listing

/-!
# The program

The disk is read from the standard input as a listing: the first line is the path at which the
program stands, every other line an entry of the disk. The arguments are the directory with the
test cases and the format of their names.
-/

namespace CaseFiles

/-- The lines of the standard input without the line ends. -/
partial def readLines (stdin : IO.FS.Stream) (lines : List Text) : IO (List Text) := do
  let line ← stdin.getLine
  if line.isEmpty then return lines.reverse
  let text := line.toList
  let text := if text.getLast? = some '\n' then text.dropLast else text
  readLines stdin (text :: lines)

/-- Writes a line where it belongs. -/
def write (l : Line) : IO Unit :=
  match l.channel with
  | .out => IO.println l.text
  | .err => IO.eprintln l.text

end CaseFiles

open CaseFiles in
def main (args : List String) : IO UInt32 := do
  let lines ← readLines (← IO.getStdin) []
  let disk :=
    match lines with
    | [] => Disk.standingAt ['/']
    | here :: entries => (Disk.standingAt here).addAll ((entries.filter (!·.isEmpty)).map Listed.ofLine)
  let r := CommandLine.run disk (args.map String.toList)
  r.lines.forM write
  match r.unexpected with
  | some cause =>
    IO.eprintln cause.message
    return 1
  | none => return UInt32.ofNat r.exitCode
