/-!
# Lists by their parts

When a list is made of parts, the parts can be found again if something tells where they end: a mark
that no part holds, or the first element that is not one of a run.

Results:
* `splitOn_flatMap_concat`: parts with a mark at their ends, from the whole.
* `eq_of_map_eq`: a list by the images of its elements.
* `replicate_append_inj`: a run and what stands behind it.
-/

namespace TreeText

universe u v

variable {α : Type u} {β : Type v}

/-- Parts that do not hold the mark at their ends are found again by cutting behind each mark. -/
theorem splitOn_flatMap_concat [BEq β] [LawfulBEq β] {part : α → List β} {mark : β} {xs : List α}
    (h : ∀ x ∈ xs, mark ∉ part x) :
    (xs.flatMap fun x => part x ++ [mark]).splitOn mark = xs.map part ++ [[]] := by
  induction xs with
  | nil => rfl
  | cons x xs ih =>
    rw [List.flatMap_cons, List.append_assoc, List.singleton_append,
      List.splitOn_append_cons_self_of_not_mem (h x (List.mem_cons_self ..)),
      ih fun y hy => h y (List.mem_cons_of_mem x hy)]
    rfl

/-- Lists are equal if their images are, where the function is injective on their elements. -/
theorem eq_of_map_eq {f : α → β} {p : α → Prop} (hf : ∀ x y, p x → p y → f x = f y → x = y)
    {xs ys : List α} (hxs : ∀ x ∈ xs, p x) (hys : ∀ y ∈ ys, p y) (h : xs.map f = ys.map f) :
    xs = ys := by
  induction xs generalizing ys with
  | nil => exact (List.map_eq_nil_iff.mp h.symm).symm
  | cons x xs ih =>
    cases ys with
    | nil => nomatch h
    | cons y ys =>
      obtain ⟨hhead, htail⟩ := List.cons.inj h
      obtain rfl := hf x y (hxs x (List.mem_cons_self ..)) (hys y (List.mem_cons_self ..)) hhead
      rw [ih (fun z hz => hxs z (List.mem_cons_of_mem x hz))
        (fun z hz => hys z (List.mem_cons_of_mem x hz)) htail]

/-- A list of pairs is told by its two sides. -/
theorem eq_of_map_fst_of_map_snd {xs ys : List (α × β)}
    (hfst : xs.map Prod.fst = ys.map Prod.fst) (hsnd : xs.map Prod.snd = ys.map Prod.snd) :
    xs = ys :=
  (List.zip_of_prod hfst hsnd).trans (List.zip_of_prod rfl rfl).symm

/-- A run can be told from what stands behind it, if this starts with another element. -/
theorem replicate_append_inj {a : α} {m n : Nat} {xs ys : List α} (hxs : xs.head? ≠ some a)
    (hys : ys.head? ≠ some a) (h : List.replicate m a ++ xs = List.replicate n a ++ ys) :
    m = n ∧ xs = ys := by
  induction m generalizing n with
  | zero =>
    cases n with
    | zero => exact ⟨rfl, h⟩
    | succ n => exact absurd (congrArg List.head? h) hxs
  | succ m ih =>
    cases n with
    | zero => exact absurd (congrArg List.head? h).symm hys
    | succ n =>
      obtain ⟨rfl, hrest⟩ := ih (List.cons.inj h).2
      exact ⟨rfl, hrest⟩

end TreeText
