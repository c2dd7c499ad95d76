import LineBasic.CommandLine
import LineBasic.Machine.Session

/-! The machine at a terminal: it loads the program file it was given, if any, and then takes lines
from standard input. -/

namespace LineBasic.Terminal

/-- Steps between two looks at what was printed. -/
def slice : Nat := 5000

/-- A machine whose random numbers start from `seed`, with a program that was asked for. -/
def start (seed : Nat) : Option String → Machine
  | none => { random := Random.seeded seed.toUInt64 }
  | some text =>
    match ({ random := Random.seeded seed.toUInt64 } : Machine).load text with
    | (.ok _, m) => (m.enter "RUN").2
    | (.error c, m) => { m with tape := m.tape.report c }

/-- Run the machine and pass on what it prints and what is typed, until the program or the input
ends. `ready` tells whether to say so when nothing runs. -/
partial def loop (input output : IO.FS.Stream) (m : Machine) (ready : Bool) : IO Unit := do
  let (event, m) := m.execute slice
  let (out, m) := m.takeOutput
  output.putStr out
  output.flush
  match event with
  | .running => loop input output m ready
  | .exit => return
  | .waiting =>
    let line ← input.getLine
    if line.isEmpty then return
    loop input output (m.type (line.dropEndWhile (· == '\n')).copy) ready
  | .stopped | .failed _ =>
    if !out.isEmpty then output.putStr "\n"
    if ready || event != .stopped then output.putStr "READY.\n"
    output.flush
    let line ← input.getLine
    if line.isEmpty then return
    let (_, m) := m.enter line
    loop input output m m.running

end LineBasic.Terminal

def main (args : List String) : IO UInt32 := do
  match LineBasic.CommandLine.ofArguments args with
  | .error message =>
    IO.eprintln (message ++ "\nusage: basic [program.bas]")
    return 2
  | .ok options =>
    let text ← match options.file with
      | some file => try some <$> IO.FS.readFile file catch e => do
          IO.println (file ++ ": " ++ toString e)
          pure none
      | none => pure none
    let m := LineBasic.Terminal.start (← IO.monoNanosNow) text
    LineBasic.Terminal.loop (← IO.getStdin) (← IO.getStdout) m true
    return 0
