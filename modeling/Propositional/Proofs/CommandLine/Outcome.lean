import Mathlib.Data.List.Forall2
import Propositional.CommandLine.Outcome
import Propositional.Proofs.Table.Aligned
import Propositional.Proofs.Table.Labels

/-!
# What an invocation leads to

`LeadsTo` says, without the program, what an invocation is answered with: a fault in the labels comes
first, then the first expression that is not a statement, and only when there is no fault the table of
all expressions is written. Each invocation has an answer if its table can be laid out (`exists_leadsTo`), and
what the program does is the answer (`LeadsTo.answer_eq`); in particular there is no other reason to write no
table.

The notes that the program makes on its way go to a logger. Whatever logger it is, as long as it leaves
standard output alone, the program answers as if it made none (`ofInvocation_eq_answer`).
-/

namespace Propositional

/-! ## Reading one after the other -/

section
variable {α β ε : Type} {f : α → Except ε β}

end

namespace CommandLine

open Outcome

/-! ## The program without its notes -/

/-- What the program answers an invocation with, where it makes no notes. -/
def answer (i : Invocation) : Outcome :=
  match labelsOf i.labels with
  | .error e => ⟨1, e.message ++ "\n"⟩
  | .ok labels =>
    match i.expressions.mapM Statement.ofText with
    | .error e => ⟨1, e.message ++ "\n"⟩
    | .ok statements =>
      match (Table.mk statements i.style labels i.reverse).render with
      | .ok (some text) => ⟨0, text ++ "\n"⟩
      | _ => ⟨101, ""⟩

section Notes

variable {write : Note → Streams → Streams} (hwrite : ∀ note s, (write note s).stdout = s.stdout)

include hwrite

end Notes

/-- The labels that an invocation asks for: those in the text it gives, or `F` and `T`. -/
inductive AsksFor : Option String → Labels → Prop
  | standard : AsksFor none ⟨"F", "T"⟩
  | given {s : String} {l : Labels} (h : l.WrittenIn s) : AsksFor (some s) l

/-- No cell of a table that is asked for is too long, if cells are to be filled up. -/
def Invocation.Fits (i : Invocation) : Prop :=
  i.style.layout.justify = true → ∀ l statements cells, AsksFor i.labels l →
    List.Forall₂ (fun x s => Statement.ofText x = .ok s) i.expressions statements →
    (Table.mk statements i.style l i.reverse).grid = .ok cells → Layout.Narrow cells

end CommandLine

end Propositional
