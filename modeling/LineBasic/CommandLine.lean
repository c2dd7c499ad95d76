/-! The command line: at most one program file, and no options. -/

namespace LineBasic

structure CommandLine where
  /-- The file to load and run at the start. -/
  file : Option String := none
  deriving DecidableEq, Repr

namespace CommandLine

def addArgument (c : CommandLine) (arg : String) : Except String CommandLine :=
  if arg.toList.head? == some '-' then .error ("unknown option " ++ arg)
  else if c.file.isSome then .error "only one program file may be given"
  else .ok { c with file := some arg }

/-- Read the arguments after the program's own name. -/
def ofArguments (args : List String) : Except String CommandLine := args.foldlM addArgument {}

end CommandLine

end LineBasic
