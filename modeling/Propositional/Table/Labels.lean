/-!
# Labels of the truth values

The two texts that stand for false and true in a table. They are read from a text with a comma
between them; anything from a second comma on is left out.
-/

namespace Propositional

/-- What is written for each truth value. -/
structure Labels where
  whenFalse : String
  whenTrue : String
deriving DecidableEq, Repr

/-- A text without a comma was given where two labels have to stand. -/
structure MalformedLabels where
  found : String
deriving DecidableEq, Repr

/-- The sentence shown for a text that holds no two labels. -/
def MalformedLabels.message (e : MalformedLabels) : String :=
  "Malformed bool format: '" ++ e.found ++ "'"

namespace Labels

/-- The labels used when no others are asked for. -/
def standard : Labels := ⟨"F", "T"⟩

/-- The label of a truth value. -/
def label (l : Labels) (b : Bool) : String := if b then l.whenTrue else l.whenFalse

@[simp] theorem label_true (l : Labels) : l.label true = l.whenTrue := rfl

@[simp] theorem label_false (l : Labels) : l.label false = l.whenFalse := rfl

/-- The labels of a text: what comes before its first comma, and what comes after that up to a second
comma or the end. -/
def read (s : String) : Except MalformedLabels Labels :=
  let beforeComma (cs : List Char) := cs.takeWhile (· != ',')
  match s.toList.dropWhile (· != ',') with
  | [] => .error ⟨s⟩
  | _ :: rest => .ok ⟨String.ofList (beforeComma s.toList), String.ofList (beforeComma rest)⟩

end Labels

end Propositional
