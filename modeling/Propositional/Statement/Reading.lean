import Propositional.Statement.Malformed

/-!
# Readings

The outcome of reading a statement together with the splits that were made on the way, in order. A
split is noted when it is found, before anything is known of its operands, so that a reading that
fails has notes as well.
-/

namespace Propositional

/-- A list of tokens cut in two at an operator. -/
structure Split where
  /-- The literal of the node that the split is for. -/
  literal : String
  /-- The operator at the cut. -/
  op : Operator
  /-- The place of the operator among the tokens without redundant outer parentheses. -/
  place : Nat
deriving DecidableEq, Repr

/-- The note made of a split. -/
def Split.message (s : Split) : String :=
  "parse: split '" ++ s.literal ++ "' at '" ++ s.op.name ++ "' (token " ++ toString s.place ++ ")"

/-- A result, or the reason why there is none, and the splits made on the way. -/
structure Reading (α : Type) where
  result : Except Malformed α
  splits : List Split

namespace Reading

variable {α β : Type}

/-- A result that needs no split. -/
def done (a : α) : Reading α := ⟨.ok a, []⟩

/-- A failure without a split. -/
def failed (e : Malformed) : Reading α := ⟨.error e, []⟩

/-- An outcome that needs no split. -/
def ofExcept (r : Except Malformed α) : Reading α := ⟨r, []⟩

/-- Notes a split before all others. -/
def noting (s : Split) (r : Reading α) : Reading α := ⟨r.result, s :: r.splits⟩

/-- Goes on with the result; the splits of both parts follow one another. -/
def bind (r : Reading α) (f : α → Reading β) : Reading β :=
  match r.result with
  | .ok a => ⟨(f a).result, r.splits ++ (f a).splits⟩
  | .error e => ⟨.error e, r.splits⟩

/-- Changes the result. -/
def map (f : α → β) (r : Reading α) : Reading β := ⟨r.result.map f, r.splits⟩

/-- Changes the reason for a failure. -/
def mapError (f : Malformed → Malformed) (r : Reading α) : Reading α :=
  ⟨r.result.mapError f, r.splits⟩

@[simp] theorem result_done (a : α) : (done a).result = .ok a := rfl

@[simp] theorem result_failed (e : Malformed) : (failed e : Reading α).result = .error e := rfl

@[simp] theorem result_ofExcept (r : Except Malformed α) : (ofExcept r).result = r := rfl

@[simp] theorem result_noting (s : Split) (r : Reading α) : (noting s r).result = r.result := rfl

@[simp] theorem splits_noting (s : Split) (r : Reading α) : (noting s r).splits = s :: r.splits := rfl

@[simp] theorem splits_done (a : α) : (done a).splits = [] := rfl

@[simp] theorem splits_failed (e : Malformed) : (failed e : Reading α).splits = [] := rfl

@[simp] theorem splits_ofExcept (r : Except Malformed α) : (ofExcept r).splits = [] := rfl

@[simp] theorem result_bind (r : Reading α) (f : α → Reading β) :
    (r.bind f).result = r.result.bind fun a => (f a).result := by
  unfold bind
  split <;> rename_i h <;> rw [h] <;> rfl

@[simp] theorem result_map (f : α → β) (r : Reading α) : (r.map f).result = r.result.map f := rfl

@[simp] theorem splits_map (f : α → β) (r : Reading α) : (r.map f).splits = r.splits := rfl

@[simp] theorem result_mapError (f : Malformed → Malformed) (r : Reading α) :
    (r.mapError f).result = r.result.mapError f := rfl

@[simp] theorem splits_mapError (f : Malformed → Malformed) (r : Reading α) :
    (r.mapError f).splits = r.splits := rfl

theorem splits_bind_of_ok {r : Reading α} {a : α} (h : r.result = .ok a) (f : α → Reading β) :
    (r.bind f).splits = r.splits ++ (f a).splits := by
  simp only [bind, h]

theorem splits_bind_of_error {r : Reading α} {e : Malformed} (h : r.result = .error e)
    (f : α → Reading β) : (r.bind f).splits = r.splits := by
  simp only [bind, h]

end Reading

end Propositional
