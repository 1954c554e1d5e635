import Propositional.Style

/-!
# Arguments of the command line

The arguments are read from left to right. An option is long (`--format latex`, `--format=latex`) or
a letter of a cluster (`-rf latex`, `-rflatex`, `-rf=latex`); the rest are expressions, and so is all
that follows `--`. A lone `-` is an expression. Each option may be given once, a switch takes no
value, and the value of an option may begin with `-` only when it is attached. The first fault ends
the reading, as does a wish for the version.
-/

namespace Propositional.CommandLine

/-- What the program is to do: the expressions to tabulate and the form of the table. -/
structure Invocation where
  expressions : List String
  style : Style
  /-- The text of the two labels, if it was given. -/
  labels : Option String
  reverse : Bool
  verbose : Bool
deriving DecidableEq, Repr

/-- What the arguments ask for. -/
inductive Request
  | table (i : Invocation)
  | version
  /-- The arguments do not follow the rules. -/
  | misuse
deriving DecidableEq, Repr

/-- An option that is on or off. -/
inductive Switch
  | reverse
  | verbose
deriving DecidableEq, Repr

/-- An option with a value. -/
inductive Setting
  | format
  | labels
deriving DecidableEq, Repr

/-- What the arguments read so far have given. -/
structure Given where
  expressions : List String
  format : Option Style
  labels : Option String
  reverse : Bool
  verbose : Bool
deriving DecidableEq, Repr

/-- How things stand after an argument. -/
inductive Progress
  | more (g : Given)
  /-- The next argument is the value of a setting. -/
  | awaiting (g : Given) (s : Setting)
  | version
  | misuse
deriving DecidableEq, Repr

/-- The style with the given name. -/
def styleNamed? : String → Option Style
  | "human" => some .human
  | "latex" => some .latex
  | _ => none

/-- The argument has the form of an option. -/
def isOption (arg : String) : Bool := arg.toList.head? == some '-' && arg != "-"

namespace Given

/-- Nothing has been given. -/
def nothing : Given := ⟨[], none, none, false, false⟩

/-- Turns a switch on, unless it is on. -/
def turnOn (g : Given) : Switch → Option Given
  | .reverse => if g.reverse then none else some { g with reverse := true }
  | .verbose => if g.verbose then none else some { g with verbose := true }

/-- Gives a setting its value, unless it has one or the value is none of those allowed. -/
def assign (g : Given) (s : Setting) (value : String) : Option Given :=
  match s with
  | .format =>
    if g.format.isSome then none
    else (styleNamed? value).map fun style => { g with format := some style }
  | .labels => if g.labels.isSome then none else some { g with labels := some value }

/-- Adds expressions. -/
def addAll (g : Given) (es : List String) : Given := { g with expressions := g.expressions ++ es }

/-- Assigns a value that is at hand. -/
def assigned (g : Given) (s : Setting) (value : String) : Progress :=
  match g.assign s value with
  | some g => .more g
  | none => .misuse

/-- Reads the letters of a cluster. A setting takes the rest of the cluster for its value, without
an equals sign before it; when nothing is left, the value is the next argument. -/
def cluster (g : Given) : List Char → Progress
  | [] => .more g
  | c :: cs =>
    let switch (s : Switch) :=
      match g.turnOn s with
      | some g => g.cluster cs
      | none => .misuse
    let setting (s : Setting) :=
      match cs with
      | [] => .awaiting g s
      | '=' :: value => g.assigned s (String.ofList value)
      | value => g.assigned s (String.ofList value)
    match c with
    | 'r' => switch .reverse
    | 'v' => switch .verbose
    | 'f' => setting .format
    | 'b' => setting .labels
    | 'V' => .version
    | _ => .misuse

/-- Reads a long option, given by what follows the two dashes. -/
def long (g : Given) (cs : List Char) : Progress :=
  let value? := (cs.dropWhile (· != '=')).tail?.map String.ofList
  let switch (s : Switch) :=
    match value?, g.turnOn s with
    | none, some g => .more g
    | _, _ => .misuse
  let setting (s : Setting) :=
    match value? with
    | some value => g.assigned s value
    | none => .awaiting g s
  match String.ofList (cs.takeWhile (· != '=')) with
  | "format" => setting .format
  | "bool" => setting .labels
  | "reverse" => switch .reverse
  | "verbose" => switch .verbose
  | "version" => if value?.isNone then .version else .misuse
  | _ => .misuse

/-- Reads one argument other than `--`. -/
def argument (g : Given) (arg : String) : Progress :=
  match arg.toList with
  | '-' :: '-' :: cs => g.long cs
  | '-' :: c :: cs => g.cluster (c :: cs)
  | _ => .more (g.addAll [arg])

/-- What is asked for when all arguments are read: at least one expression is needed. -/
def request (g : Given) : Request :=
  if g.expressions.isEmpty then .misuse
  else .table ⟨g.expressions, g.format.getD .human, g.labels, g.reverse, g.verbose⟩

/-- Reads the arguments that are left. -/
def arguments (g : Given) : List String → Request
  | [] => g.request
  | arg :: args =>
    if arg = "--" then (g.addAll args).request
    else match g.argument arg with
      | .more g => g.arguments args
      | .version => .version
      | .misuse => .misuse
      | .awaiting g s =>
        match args with
        | [] => .misuse
        | value :: args =>
          if isOption value then .misuse
          else match g.assign s value with
            | some g => g.arguments args
            | none => .misuse

end Given

/-- What a list of arguments asks for. -/
def Request.ofArguments (args : List String) : Request := Given.nothing.arguments args

end Propositional.CommandLine
