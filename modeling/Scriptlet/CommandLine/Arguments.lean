/-!
The arguments of the command line: one file to work on, a flag to write C instead of running,
and a name for what is written. Options and the file come in any order, short options can
be joined, and `--` makes the rest positional. Arguments are read from left to right, and
the first that cannot be right settles the matter, as does a question for the version.
-/
namespace Scriptlet.CommandLine

structure Job where
  file : String
  emit : Bool
  output : String
deriving DecidableEq, Repr

inductive Request
  | version
  | job (j : Job)
deriving DecidableEq, Repr

def defaultOutput : String := "out.c"

structure Seen where
  file : Option String := none
  emit : Bool := false
  output : Option String := none

inductive Taken
  | known (s : Seen)
  /-- The name of the output is the next argument. -/
  | awaiting (s : Seen)
  | version
  | refused

namespace Seen

/-- Nothing may be given twice, and no name is empty. -/
def withFile (s : Seen) (v : String) : Taken :=
  if s.file.isSome || v.isEmpty then .refused else .known { s with file := some v }

def withOutput (s : Seen) (v : String) : Taken :=
  if s.output.isSome || v.isEmpty then .refused else .known { s with output := some v }

def withEmit (s : Seen) : Taken :=
  if s.emit then .refused else .known { s with emit := true }

def request? (s : Seen) : Option Request :=
  s.file.map fun file => .job ⟨file, s.emit, s.output.getD defaultOutput⟩

/-- The letters after a single dash. The output takes the letters after its own, without an
equals sign before them, or else the next argument. -/
def short (s : Seen) : List Char → Taken
  | [] => .known s
  | 'e' :: cs =>
    match s.withEmit with
    | .known s => s.short cs
    | t => t
  | 'o' :: [] => .awaiting s
  | 'o' :: '=' :: cs => s.withOutput (String.ofList cs)
  | 'o' :: cs => s.withOutput (String.ofList cs)
  | 'V' :: _ => .version
  | _ :: _ => .refused

def long (s : Seen) (cs : List Char) : Taken :=
  let name := String.ofList (cs.takeWhile (· != '='))
  match cs.dropWhile (· != '=') with
  | _ :: value => if name = "output" then s.withOutput (String.ofList value) else .refused
  | [] =>
    if name = "emit" then s.withEmit
    else if name = "output" then .awaiting s
    else if name = "version" then .version
    else .refused

end Seen

/-- A dash alone is a name like any other. -/
def isOption (arg : String) : Bool :=
  match arg.toList with
  | '-' :: _ :: _ => true
  | _ => false

def Seen.argument (s : Seen) (arg : String) : Taken :=
  match arg.toList with
  | '-' :: '-' :: cs => s.long cs
  | '-' :: c :: cs => s.short (c :: cs)
  | _ => s.withFile arg

def readPositional (s : Seen) : List String → Option Request
  | [] => s.request?
  | arg :: args =>
    match s.withFile arg with
    | .known s => readPositional s args
    | _ => none

def read (s : Seen) : List String → Option Request
  | [] => s.request?
  | arg :: args =>
    if arg = "--" then readPositional s args
    else
      match s.argument arg with
      | .known s => read s args
      | .awaiting s =>
        match args with
        | [] => none
        | value :: rest =>
          if isOption value then none
          else
            match s.withOutput value with
            | .known s => read s rest
            | _ => none
      | .version => some .version
      | .refused => none

def request? (args : List String) : Option Request :=
  read {} args

end Scriptlet.CommandLine
