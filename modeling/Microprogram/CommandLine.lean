import Microprogram.Computer.Report

/-! The command line: the report on the microcode, and on request the whole table
and its fingerprint. -/
namespace Microprogram.CommandLine

structure Options where
  dump : Bool := false
  fingerprint : Bool := false
deriving DecidableEq, Repr

inductive UsageError
  | unexpected (arg : String)
  | repeated (option : String)
deriving DecidableEq, Repr

def UsageError.message : UsageError → String
  | unexpected arg => s!"unexpected argument: {arg}"
  | repeated option => s!"option given more than once: {option}"

/-- An option may be given once. Nothing may follow the mark that ends the options. -/
def Options.parse (options : Options) : List String → Except UsageError Options
  | [] => .ok options
  | arg :: rest =>
    if arg = "--dump" then
      if options.dump then .error (.repeated arg) else parse { options with dump := true } rest
    else if arg = "--fingerprint" then
      if options.fingerprint then .error (.repeated arg)
      else parse { options with fingerprint := true } rest
    else if arg = "--" then
      match rest with
      | [] => .ok options
      | arg :: _ => .error (.unexpected arg)
    else .error (.unexpected arg)

/-- The counts, then the table, then the fingerprint, in whatever order they are asked for. -/
def Options.text (options : Options) (report : Computer.Report) : String :=
  report.counts ++ (if options.dump then report.dump else "") ++
    (if options.fingerprint then report.fingerprint else "")

inductive Ending
  | printed (text : String)
  | failed (code : UInt8) (message : String)
deriving DecidableEq, Repr

/-- A mistake in the arguments has code 2, and microcode that does not compile code 1. -/
def run (args : List String) : Ending :=
  match Options.parse {} args with
  | .error mistake => .failed 2 mistake.message
  | .ok options =>
    match Computer.Report.build with
    | .error reason => .failed 1 reason.message
    | .ok report => .printed (options.text report)

end Microprogram.CommandLine
