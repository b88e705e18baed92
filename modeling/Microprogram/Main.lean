import Microprogram.CommandLine

/-! The program: prints what the command line asks for. -/
open Microprogram

def main (args : List String) : IO UInt32 := do
  match CommandLine.run args with
  | .printed text =>
    IO.print text
    return 0
  | .failed code message =>
    IO.eprintln message
    return code.toUInt32
