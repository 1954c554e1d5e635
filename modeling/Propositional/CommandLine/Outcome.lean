import Propositional.CommandLine.Logger
import Propositional.Statement.Reader
import Propositional.Table.Basic

/-!
# What the program does

The logger is set up first. Faults are then reported one at a time: first the labels, then the expressions in
order. A fault in either is written out and ends the program with code 1; arguments that do not follow the
rules end it with code 2 and nothing written, before there is a logger. The switch for more notes is handed to
the logger and has no other effect.
-/

namespace Propositional.CommandLine

/-- What the program leaves behind: its exit code and what was written to standard output. -/
structure Outcome where
  exit : Nat
  stdout : String
deriving DecidableEq, Repr

namespace Outcome

/-- The program has done what it was asked for: it writes its answer. -/
def success (s : Streams) (text : String) : Outcome := ⟨0, s.stdout ++ (text ++ "\n")⟩

/-- The program has found a fault in what it was given: it writes what the fault is. -/
def failure (s : Streams) (message : String) : Outcome := ⟨1, s.stdout ++ (message ++ "\n")⟩

/-- The program has broken off and writes nothing more. -/
def abort (s : Streams) : Outcome := ⟨101, s.stdout⟩

/-- The labels that are asked for. -/
def labelsOf : Option String → Except MalformedLabels Labels
  | some s => Labels.read s
  | none => .ok .standard

/-- Reads the expressions in order, up to the first that is not a statement. The splits are noted. -/
def readAll (write : Note → Streams → Streams) :
    List String → Streams → Streams × Except Malformed (List Statement)
  | [], s => (s, .ok [])
  | x :: xs, s =>
    let reading := Statement.readText x
    let s := reading.splits.foldl (fun s p => write (.message p.message) s) s
    match reading.result with
    | .error e => (s, .error e)
    | .ok statement =>
      let (s, statements) := readAll write xs s
      (s, statements.map (statement :: ·))

/-- Writes the table that is asked for. It breaks off where a cell has no value or is too long to be laid
out. -/
def ofInvocation (logger : Logger) (i : Invocation) : Outcome :=
  match logger.setUp (if i.verbose then .debug else .warn) .stderr with
  | none => ⟨1, ""⟩
  | some write =>
    let s := write (.called i) ⟨"", ""⟩
    match labelsOf i.labels with
    | .error e => failure s e.message
    | .ok labels =>
      match readAll write i.expressions s with
      | (s, .error e) => failure s e.message
      | (s, .ok statements) =>
        let table := Table.mk statements i.style labels i.reverse
        let s := write (.message table.sizeNote) s
        match table.render with
        | .ok (some text) => success s text
        | _ => abort s

/-- Answers a request. -/
def ofRequest (logger : Logger) : Request → Outcome
  | .table i => ofInvocation logger i
  | .version => success ⟨"", ""⟩ "truth-tables 0.1.0"
  | .misuse => ⟨2, ""⟩

/-- What the program does with its arguments. -/
def ofArguments (args : List String) : Outcome := ofRequest .plain (.ofArguments args)

end Outcome

end Propositional.CommandLine
