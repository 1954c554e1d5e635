/-!
# Splitting a text

`split sep s` gives the pieces of a text between the occurrences of a separator, which are found from
left to right. Splitting undoes joining when some character of the separator, its mark, is in no piece
(`split_intercalate`): then the separator cannot begin inside a piece, not even with its end behind it.
-/

namespace Propositional.Text

/-- The pieces between the occurrences of the separator, which is not empty. -/
def pieces (sep : List Char) : List Char → List (List Char)
  | [] => [[]]
  | c :: cs =>
    if sep.isPrefixOf (c :: cs) then [] :: pieces sep (cs.drop (sep.length - 1))
    else (pieces sep cs).modifyHead (c :: ·)
termination_by cs => cs.length
decreasing_by
  · simp only [List.length_drop, List.length_cons]
    omega
  · exact Nat.lt_succ_self _

/-- The pieces of a text between the occurrences of the separator. -/
def split (sep s : String) : List String := (pieces sep.toList s.toList).map String.ofList

variable {front back : List Char} {mark : Char}

theorem takeWhile_ne_mark (h : mark ∉ front) (cs : List Char) :
    (front ++ mark :: cs).takeWhile (· != mark) = front := by
  rw [List.takeWhile_append_of_pos fun c hc => by
      simpa using fun heq : c = mark => h (heq ▸ hc)]
  simp

/-- The separator does not begin inside a piece that is followed by a separator: its mark would come
before the first one there is. -/
theorem not_isPrefixOf_append (hfront : mark ∉ front) {cs : List Char} (hne : cs ≠ [])
    (hcs : mark ∉ cs) (rest : List Char) :
    (front ++ mark :: back).isPrefixOf (cs ++ (front ++ mark :: back ++ rest)) = false := by
  rw [Bool.eq_false_iff, ne_eq, List.isPrefixOf_iff_prefix]
  rintro ⟨tail, htail⟩
  have hleft : mark ∉ cs ++ front := by simp [hcs, hfront]
  have htake := congrArg (List.takeWhile (· != mark)) htail
  simp only [List.append_assoc, List.cons_append] at htake
  rw [takeWhile_ne_mark hfront, ← List.append_assoc, takeWhile_ne_mark hleft] at htake
  exact hne (List.append_left_eq_self.1 htake.symm)

theorem pieces_append (hfront : mark ∉ front) {cs : List Char} (hcs : mark ∉ cs)
    (rest : List Char) :
    pieces (front ++ mark :: back) (cs ++ (front ++ mark :: back ++ rest)) =
      cs :: pieces (front ++ mark :: back) rest := by
  induction cs with
  | nil =>
    obtain ⟨c, sep, hsep⟩ := List.exists_cons_of_ne_nil (l := front ++ mark :: back) (by simp)
    have hstart : (c :: sep).isPrefixOf (c :: (sep ++ rest)) = true :=
      List.isPrefixOf_iff_prefix.2 ⟨rest, rfl⟩
    rw [hsep, List.nil_append, List.cons_append, pieces, if_pos hstart, List.length_cons,
      Nat.add_sub_cancel, List.drop_left]
  | cons c cs ih =>
    have hrest : mark ∉ cs := fun h => hcs (List.mem_cons_of_mem c h)
    have hnot : (front ++ mark :: back).isPrefixOf
        (c :: (cs ++ (front ++ mark :: back ++ rest))) = false :=
      not_isPrefixOf_append hfront (List.cons_ne_nil c cs) hcs rest
    rw [List.cons_append, pieces, hnot, ih hrest]
    rfl

theorem pieces_of_not_mem {cs : List Char} (hcs : mark ∉ cs) :
    pieces (front ++ mark :: back) cs = [cs] := by
  induction cs with
  | nil => rw [pieces]
  | cons c cs ih =>
    have hnot : (front ++ mark :: back).isPrefixOf (c :: cs) = false := by
      rw [Bool.eq_false_iff, ne_eq, List.isPrefixOf_iff_prefix]
      exact fun hstart => hcs (hstart.subset (by simp))
    rw [pieces, hnot, ih fun h => hcs (List.mem_cons_of_mem c h)]
    rfl

theorem pieces_intercalate (hfront : mark ∉ front) {xs : List (List Char)} (hne : xs ≠ [])
    (hxs : ∀ x ∈ xs, mark ∉ x) :
    pieces (front ++ mark :: back) ((front ++ mark :: back).intercalate xs) = xs := by
  induction xs with
  | nil => exact absurd rfl hne
  | cons x xs ih =>
    have hx := hxs x List.mem_cons_self
    cases xs with
    | nil => rw [List.intercalate_singleton, pieces_of_not_mem hx]
    | cons y ys =>
      rw [List.intercalate_cons_cons, List.append_assoc, pieces_append hfront hx,
        ih (List.cons_ne_nil y ys) fun z hz => hxs z (List.mem_cons_of_mem x hz)]

/-- Splitting undoes joining when the mark of the separator is in no piece. -/
theorem split_intercalate {sep : String} (hsep : sep.toList = front ++ mark :: back)
    (hfront : mark ∉ front) {xs : List String} (hne : xs ≠ []) (hxs : ∀ x ∈ xs, mark ∉ x.toList) :
    split sep (sep.intercalate xs) = xs := by
  have hlists : ∀ x ∈ xs.map String.toList, mark ∉ x := by
    intro x hx
    obtain ⟨y, hy, rfl⟩ := List.mem_map.1 hx
    exact hxs y hy
  rw [split, String.toList_intercalate, hsep, pieces_intercalate hfront (by simpa using hne) hlists,
    List.map_map]
  exact (List.map_congr_left fun x _ => String.ofList_toList).trans (List.map_id xs)

/-! ## Joined texts -/

/-- A joined text holds no other characters than its separator and its pieces. -/
theorem not_mem_intercalate {sep : String} {xs : List String} {c : Char} (hsep : c ∉ sep.toList)
    (hxs : ∀ x ∈ xs, c ∉ x.toList) : c ∉ (sep.intercalate xs).toList := by
  induction xs with
  | nil => exact List.not_mem_nil
  | cons x xs ih =>
    have hx := hxs x List.mem_cons_self
    cases xs with
    | nil => rwa [String.intercalate_singleton]
    | cons y ys =>
      have hrest := ih fun z hz => hxs z (List.mem_cons_of_mem x hz)
      rw [String.intercalate_cons_cons, String.toList_append, String.toList_append]
      exact List.not_mem_append (List.not_mem_append hx hsep) hrest

theorem mem_intersperse {α : Type} {line x : α} {xs : List α} (h : x ∈ xs.intersperse line) :
    x = line ∨ x ∈ xs := by
  induction xs with
  | nil => cases h
  | cons y xs ih =>
    cases xs with
    | nil => exact Or.inr h
    | cons z zs =>
      rw [List.intersperse_cons_cons, List.mem_cons, List.mem_cons] at h
      rcases h with rfl | rfl | h
      · exact Or.inr List.mem_cons_self
      · exact Or.inl rfl
      · exact (ih h).imp_right (List.mem_cons_of_mem y)

theorem intersperse_ne_nil {α : Type} {line : α} {xs : List α} (h : xs ≠ []) :
    xs.intersperse line ≠ [] := by
  obtain ⟨x, ys, rfl⟩ := List.exists_cons_of_ne_nil h
  cases ys with
  | nil => exact List.cons_ne_nil x []
  | cons y ys =>
    rw [List.intersperse_cons_cons]
    exact List.cons_ne_nil x _

/-- A separator that has a line of its own is one more piece between two. -/
theorem intercalate_intersperse (sep line : String) (xs : List String) :
    (sep ++ line ++ sep).intercalate xs = sep.intercalate (xs.intersperse line) := by
  induction xs with
  | nil => rfl
  | cons x xs ih =>
    cases xs with
    | nil => rw [String.intercalate_singleton, List.intersperse_singleton,
        String.intercalate_singleton]
    | cons y ys =>
      have hne : (y :: ys).intersperse line ≠ [] := intersperse_ne_nil (List.cons_ne_nil y ys)
      rw [String.intercalate_cons_cons, ih, List.intersperse_cons_cons,
        String.intercalate_cons_cons, String.intercalate_cons_of_ne_nil hne]
      simp only [String.append_assoc]

end Propositional.Text
