import TreeText.Proofs.Tree.Paths

/-!
# The visits of a walk

A walk over a tree visits its nodes in preorder and gives nothing after that, whenever it is looked
at. The stack holds the trees that are still to be walked through, so what lies ahead are the nodes
of these trees in order. Which nodes are visited can be told from their paths, of which each occurs
once. The values on the way with their numbers of children tell which tree it is.

Results:
* `Walk.take_eq`: the next visits are those that lie ahead, and nothing behind them.
* `Walk.take_map`: a walk does not depend on the values.
* `Tree.rankedValues_append_inj`: the values with their arities determine the tree.
* `Walk.take_start`: the visits of a walk from its start, one by one.
-/

namespace TreeText

universe u v

variable {α : Type u} {β : Type v}

/-! ## Visit by visit -/

namespace Walk

/-- The next `k` visits are the first `k` of those that lie ahead; the rest give nothing. -/
theorem take_eq (w : Walk α) (k : Nat) :
    w.take k = (w.toList.take k).map some ++ List.replicate (k - w.toList.length) none := by
  induction k generalizing w with
  | zero => simp [take]
  | succ k ih =>
    obtain ⟨_ | ⟨t, rest⟩⟩ := w
    · show none :: (⟨[]⟩ : Walk α).take k = _
      rw [ih, toList_nil, List.length_nil, Nat.sub_zero, Nat.sub_zero, List.replicate_succ,
        List.take_nil, List.take_nil]
      rfl
    · show some t :: (⟨t.children ++ rest⟩ : Walk α).take k = _
      rw [ih, toList_cons, List.take_succ_cons, List.length_cons, Nat.add_sub_add_right]
      rfl

/-- The values of the nodes that are still to be visited, in order. -/
def values (w : Walk α) : List α := w.toList.map Tree.value

theorem values_start (t : Tree α) : (start t).values = t.values := by
  rw [values, toList_start, Tree.values]

/-- The walk over the same trees with other values. -/
def map (f : α → β) (w : Walk α) : Walk β := ⟨w.stack.map (Tree.map f)⟩

theorem next_map (f : α → β) (w : Walk α) :
    (w.map f).next = (w.next.1.map (Tree.map f), w.next.2.map f) := by
  obtain ⟨_ | ⟨⟨v, cs⟩, rest⟩⟩ := w
  · rfl
  · simp [map, next, Tree.map_node]

/-- A walk does not depend on the values. -/
theorem take_map (f : α → β) (w : Walk α) (k : Nat) :
    (w.map f).take k = (w.take k).map (Option.map (Tree.map f)) := by
  induction k generalizing w with
  | zero => rfl
  | succ k ih => rw [take, take, next_map, ih, List.map_cons]

theorem take_start_map (f : α → β) (t : Tree α) (k : Nat) :
    (start (t.map f)).take k = ((start t).take k).map (Option.map (Tree.map f)) :=
  take_map f (start t) k

end Walk

/-! ## Values with arities -/

/-- Lists of one length are equal if each element can be told from what follows it. -/
theorem flatMap_append_inj {f : α → List β} {as bs : List α} {rest rest' : List β}
    (hf : ∀ a ∈ as, ∀ {b rest rest'}, f a ++ rest = f b ++ rest' → a = b ∧ rest = rest')
    (hlength : as.length = bs.length) (h : as.flatMap f ++ rest = bs.flatMap f ++ rest') :
    as = bs ∧ rest = rest' := by
  induction as generalizing bs with
  | nil =>
    obtain rfl := List.length_eq_zero_iff.mp hlength.symm
    exact ⟨rfl, h⟩
  | cons a as ih =>
    cases bs with
    | nil => nomatch hlength
    | cons b bs =>
      rw [List.flatMap_cons, List.flatMap_cons, List.append_assoc, List.append_assoc] at h
      obtain ⟨rfl, hbehind⟩ := hf a (List.mem_cons_self ..) h
      obtain ⟨rfl, hrests⟩ := ih (fun x hx => hf x (List.mem_cons_of_mem a hx))
        (Nat.succ.inj hlength) hbehind
      exact ⟨rfl, hrests⟩

namespace Tree

/-- The value of a node, and how many children it has. -/
def rankedValue (t : Tree α) : α × Nat := (t.value, t.arity)

/-- The values of all nodes in preorder, each with the number of children. -/
def rankedValues (t : Tree α) : List (α × Nat) := t.subtrees.map rankedValue

theorem rankedValues_node (v : α) (cs : List (Tree α)) :
    (node v cs).rankedValues = (v, cs.length) :: cs.flatMap rankedValues := by
  rw [rankedValues, subtrees_node, List.map_cons, List.map_flatMap]
  rfl

/-- The arity of a node tells how many trees follow its value, so the tree ends where it is known to
end, whatever follows. -/
theorem rankedValues_append_inj {t u : Tree α} {rest rest' : List (α × Nat)}
    (h : t.rankedValues ++ rest = u.rankedValues ++ rest') : t = u ∧ rest = rest' := by
  induction t generalizing u rest rest' with
  | node v cs ih =>
    obtain ⟨w, ds⟩ := u
    rw [rankedValues_node, rankedValues_node] at h
    obtain ⟨hroot, hbelow⟩ := List.cons.inj h
    obtain ⟨rfl, hlength⟩ := Prod.mk.inj hroot
    obtain ⟨rfl, hrests⟩ := flatMap_append_inj (fun c hc => ih c hc) hlength hbelow
    exact ⟨rfl, hrests⟩

theorem rankedValues_injective {t u : Tree α} (h : t.rankedValues = u.rankedValues) : t = u := by
  have happend : t.rankedValues ++ [] = u.rankedValues ++ [] := by rw [h]
  exact (rankedValues_append_inj happend).1

end Tree

/-! ## From the start -/

namespace Walk

theorem take_start_subtrees (t : Tree α) (k : Nat) :
    (start t).take k = (t.subtrees.take k).map some ++ List.replicate (k - t.size) none := by
  rw [take_eq, toList_start, Tree.length_subtrees]

/-- The paths that a walk comes to, one by one. -/
theorem take_start_paths (t : Tree α) (k : Nat) :
    ((start (t.located [])).take k).map (Option.map fun s => s.value.1) =
      (t.paths.take k).map some ++ List.replicate (k - t.size) none := by
  have hpaths : (t.located []).subtrees.map (fun s => s.value.1) = t.paths := by
    rw [Tree.subtrees_located_paths]
    exact List.map_id _
  have hsize : (t.located []).size = t.size := by
    rw [← Tree.length_subtrees, ← Tree.length_paths t, ← hpaths, List.length_map]
  rw [take_start_subtrees, hsize, ← hpaths, List.map_append, List.map_map, List.map_replicate,
    ← List.map_take, List.map_map]
  rfl

/-- Enough visits give all nodes. -/
theorem filterMap_take_start (t : Tree α) (n : Nat) :
    ((start t).take (t.size + n)).filterMap id = t.subtrees := by
  have hall : t.subtrees.take (t.size + n) = t.subtrees :=
    List.take_of_length_le (by rw [Tree.length_subtrees]; omega)
  have hrest (m : Nat) : (List.replicate m (none : Option (Tree α))).filterMap id = [] :=
    List.filterMap_replicate_of_none rfl
  rw [take_start_subtrees, hall, List.filterMap_append, List.filterMap_map, hrest, List.append_nil]
  exact List.filterMap_some

theorem rankedValues_of_take_start {t u : Tree α}
    (h : ∀ k, ((start t).take k).map (Option.map Tree.rankedValue) =
      ((start u).take k).map (Option.map Tree.rankedValue)) : t.rankedValues = u.rankedValues := by
  have hvisits (s : Tree α) (n : Nat) :
      (((start s).take (s.size + n)).map (Option.map Tree.rankedValue)).filterMap id =
        s.rankedValues := by
    rw [Tree.rankedValues, ← filterMap_take_start s n, List.filterMap_map, List.map_filterMap]
    rfl
  rw [← hvisits t u.size, h, Nat.add_comm, hvisits]

/-- **A walk visits the nodes in preorder, each once.** The first `k` visits of a walk over a tree
are the first `k` nodes in preorder, and nothing after all nodes. Where they are is told by the same
walk over the tree with the paths put beside the values: it comes to the paths to the nodes, each
once. Two trees for which all visits show the same values and numbers of children are equal. -/
theorem take_start (t : Tree α) :
    (∀ k, (start t).take k = (t.subtrees.take k).map some ++ List.replicate (k - t.size) none) ∧
    (∀ k, ((start (t.located [])).take k).map (Option.map (Tree.map Prod.snd)) = (start t).take k) ∧
    (∀ k, ((start (t.located [])).take k).map (Option.map fun s => s.value.1) =
      (t.paths.take k).map some ++ List.replicate (k - t.size) none) ∧
    (t.paths.Nodup ∧ (∀ p, p ∈ t.paths ↔ ∃ s, t.subtreeAt p = .ok s) ∧
      t.paths.map t.subtreeAt = t.subtrees.map .ok) ∧
    ∀ u : Tree α, (∀ k, ((start t).take k).map (Option.map Tree.rankedValue) =
      ((start u).take k).map (Option.map Tree.rankedValue)) ↔ t = u := by
  refine ⟨take_start_subtrees t, fun k => ?_, take_start_paths t,
    ⟨t.nodup_paths, fun p => Tree.mem_paths_iff, t.map_subtreeAt_paths⟩, fun u => ⟨fun h => ?_, ?_⟩⟩
  · rw [← take_start_map, Tree.map_located]
  · exact Tree.rankedValues_injective (rankedValues_of_take_start h)
  · rintro rfl k
    rfl

/-- Behind the last node of a tree that holds one subtree twice there is nothing. -/
example : (start (Tree.node 1 [.leaf 2, .leaf 2])).take 5 =
    [some (Tree.node 1 [.leaf 2, .leaf 2]), some (.leaf 2), some (.leaf 2), none, none] := by decide

end Walk

end TreeText
