import Calculator.CommandLine

/-!
The program: it reads the arguments and the file they name, and prints the report.
-/
namespace Calculator.CommandLine

structure Options where
  fromFile : Bool
  debug : Bool
  contents : Option String

namespace Options

def setLetter (o : Options) (c : Char) : Option Options :=
  if c = 'f' ∧ !o.fromFile then some { o with fromFile := true }
  else if c = 'd' ∧ !o.debug then some { o with debug := true }
  else none

def setContents (o : Options) (text : String) : Option Options :=
  if o.contents.isNone then some { o with contents := some text } else none

/-- Reads arguments from the left. Behind two hyphens no argument is a setting. -/
def parseFrom (o : Options) : List String → Option Options
  | [] => some o
  | arg :: rest =>
    if arg = "--" then rest.foldlM setContents o
    else if arg = "--file" then (o.setLetter 'f').bind (parseFrom · rest)
    else if arg = "--debug" then (o.setLetter 'd').bind (parseFrom · rest)
    else match arg.toList with
      | '-' :: c :: letters => ((c :: letters).foldlM setLetter o).bind (parseFrom · rest)
      | _ => (o.setContents arg).bind (parseFrom · rest)

def parse? (args : List String) : Option Options := parseFrom ⟨false, false, none⟩ args

end Options

def usage : String := "Usage: calculator [-f] [-d] [--] <expression or file name>\n"

def readFile? (name : String) : IO (Option ByteArray) := do
  try
    return some (← IO.FS.readBinFile name)
  catch _ =>
    return none

def respond (args : List String) : IO Report := do
  match Options.parse? args with
  | some ⟨false, debug, some expression⟩ => return report (.argument expression) debug
  | some ⟨true, debug, some name⟩ => return report (.file name (← readFile? name)) debug
  | _ => return ⟨2, "", usage⟩

end Calculator.CommandLine

open Calculator

def main (args : List String) : IO UInt32 := do
  let r ← CommandLine.respond args
  IO.print r.stdout
  IO.eprint r.stderr
  return r.code
