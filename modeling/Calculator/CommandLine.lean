import Calculator.Evaluation

/-!
The command line as a function from an expression, given as an argument or as a file, to what is
printed and the exit code. With debugging the steps are printed too, also those made before an
error of execution.
-/
namespace Calculator.CommandLine

/-- Where the expression comes from; a file has no contents if it cannot be read. -/
inductive Source where
  | argument (expression : String)
  | file (name : String) (contents : Option ByteArray)

structure Report where
  code : UInt32
  stdout : String
  stderr : String
deriving DecidableEq, Repr

def trimLineEnds (text : String) : String :=
  let reversed := text.toList.reverse.dropWhile fun c => c = '\r' ∨ c = '\n'
  String.ofList reversed.reverse

def Source.read : Source → Except String String
  | .argument expression => .ok expression
  | .file name contents =>
    match contents.bind String.fromUTF8? with
    | some expression => .ok expression
    | none =>
      .error s!"Failed to read the input file '{name}'. Perhaps this file does not exist?\n"

def reportAnswer (debug : Bool) : Except Error Evaluation → Report
  | .ok e => ⟨0, (e.trace.map Trace.render).getD "" ++ Number.render e.value ++ "\n", ""⟩
  | .error e =>
    ⟨1, if debug then (e.trace?.map Trace.render).getD "" else "", e.message ++ "\n"⟩

def report (source : Source) (debug : Bool) : Report :=
  match source.read with
  | .error message => ⟨1, "", message⟩
  | .ok expression => reportAnswer debug (evaluate (trimLineEnds expression) debug)

end Calculator.CommandLine
