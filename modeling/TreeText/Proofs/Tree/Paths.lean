import TreeText.Tree.Position

/-!
# The paths to the nodes of a tree

Every node of a tree has one path, and a path that leads somewhere leads to one node. The paths to
all nodes in preorder are in lexicographic order, so no two of them are equal.

Results:
* `Tree.mem_paths_iff`: the paths are those that lead to a node.
* `Tree.pairwise_paths`: they are in lexicographic order.
* `Tree.map_subtreeAt_paths`: they lead to the nodes in preorder.
* `Tree.subtrees_located_paths`: they are what the located tree holds, in preorder.
-/

namespace TreeText

namespace Tree

universe u

variable {α : Type u}

theorem subtreeAt_append_of_ok {t s : Tree α} {p : List Nat} (h : t.subtreeAt p = .ok s)
    (q : List Nat) : t.subtreeAt (p ++ q) = s.subtreeAt q := by
  rw [subtreeAt_append, h]
  rfl

mutual

/-- The paths from the root to all nodes, in preorder. -/
def paths : Tree α → List (List Nat)
  | node _ cs => [] :: pathsFrom 0 cs

/-- The paths from a node to all nodes below its children, from the child with index `i` on. -/
def pathsFrom (i : Nat) : List (Tree α) → List (List Nat)
  | [] => []
  | c :: cs => c.paths.map (i :: ·) ++ pathsFrom (i + 1) cs

end

theorem mem_pathsFrom_iff {i : Nat} {cs : List (Tree α)} {p : List Nat} :
    p ∈ pathsFrom i cs ↔ ∃ j c q, p = (i + j) :: q ∧ cs[j]? = some c ∧ q ∈ c.paths := by
  induction cs generalizing i with
  | nil => simp [pathsFrom]
  | cons c cs ih =>
    rw [pathsFrom, List.mem_append, List.mem_map, ih]
    constructor
    · rintro (⟨q, hq, rfl⟩ | ⟨j, d, q, rfl, hd, hq⟩)
      · exact ⟨0, c, q, rfl, rfl, hq⟩
      · exact ⟨j + 1, d, q, by rw [Nat.add_right_comm, Nat.add_assoc], hd, hq⟩
    · rintro ⟨_ | j, d, q, rfl, hd, hq⟩
      · cases hd
        exact .inl ⟨q, hq, rfl⟩
      · exact .inr ⟨j, d, q, by rw [Nat.add_right_comm, Nat.add_assoc], hd, hq⟩

/-- The paths are those that lead to a node. -/
theorem mem_paths_iff {t : Tree α} {p : List Nat} :
    p ∈ t.paths ↔ ∃ s, t.subtreeAt p = .ok s := by
  induction p generalizing t with
  | nil =>
    obtain ⟨v, cs⟩ := t
    exact iff_of_true (by rw [paths]; exact List.mem_cons_self ..) ⟨_, rfl⟩
  | cons i p ih =>
    obtain ⟨v, cs⟩ := t
    rw [paths, List.mem_cons, mem_pathsFrom_iff]
    constructor
    · rintro (h | ⟨j, c, q, hpath, hc, hq⟩)
      · cases h
      · rw [Nat.zero_add] at hpath
        obtain ⟨rfl, rfl⟩ := List.cons.inj hpath
        obtain ⟨s, hs⟩ := ih.mp hq
        exact ⟨s, subtreeAt_cons_eq_ok_iff.mpr ⟨c, childAt_eq_ok_iff.mpr hc, hs⟩⟩
    · rintro ⟨s, hs⟩
      obtain ⟨c, hc, hbelow⟩ := subtreeAt_cons_eq_ok_iff.mp hs
      exact .inr ⟨i, c, p, by rw [Nat.zero_add], childAt_eq_ok_iff.mp hc, ih.mpr ⟨s, hbelow⟩⟩

theorem pairwise_pathsFrom {cs : List (Tree α)} (h : ∀ c ∈ cs, c.paths.Pairwise (· < ·)) (i : Nat) :
    (pathsFrom i cs).Pairwise (· < ·) := by
  induction cs generalizing i with
  | nil => exact .nil
  | cons c cs ih =>
    rw [pathsFrom, List.pairwise_append]
    refine ⟨?_, ih (fun d hd => h d (List.mem_cons_of_mem c hd)) (i + 1), ?_⟩
    · rw [List.pairwise_map]
      refine (h c (List.mem_cons_self ..)).imp fun hlt => ?_
      exact List.cons_lt_cons_iff.mpr (.inr ⟨rfl, hlt⟩)
    · intro p hp q hq
      obtain ⟨p, -, rfl⟩ := List.mem_map.mp hp
      obtain ⟨j, d, q, rfl, -, -⟩ := mem_pathsFrom_iff.mp hq
      exact List.cons_lt_cons_iff.mpr (.inl (by omega))

/-- Preorder is the lexicographic order of the paths. -/
theorem pairwise_paths (t : Tree α) : t.paths.Pairwise (· < ·) := by
  induction t with
  | node v cs ih =>
    rw [paths, List.pairwise_cons]
    refine ⟨fun p hp => ?_, pairwise_pathsFrom ih 0⟩
    obtain ⟨j, c, q, rfl, -, -⟩ := mem_pathsFrom_iff.mp hp
    exact List.nil_lt_cons _ _

theorem nodup_paths (t : Tree α) : t.paths.Nodup := by
  refine t.pairwise_paths.imp fun {p q} hlt heq => ?_
  subst heq
  exact List.lt_irrefl p hlt

/-! ## The nodes at the paths -/

/-- The children of a node from one index on start with the child at that index. -/
theorem childAt_of_drop_eq_cons {t c : Tree α} {cs : List (Tree α)} {i : Nat}
    (h : t.children.drop i = c :: cs) :
    t.childAt i = .ok c ∧ t.children.drop (i + 1) = cs ∧ t.arity = i + 1 + cs.length := by
  refine ⟨?_, ?_, ?_⟩
  · rw [childAt_eq_ok_iff, ← Nat.add_zero i, ← List.getElem?_drop, h]
    rfl
  · rw [← List.drop_drop, h]
    rfl
  · have hlength := congrArg List.length h
    rw [List.length_drop, List.length_cons] at hlength
    rw [arity]
    omega

theorem map_subtreeAt_pathsFrom {t : Tree α} {cs : List (Tree α)} {i : Nat}
    (h : t.children.drop i = cs) (hcs : ∀ c ∈ cs, c.paths.map c.subtreeAt = c.subtrees.map .ok) :
    (pathsFrom i cs).map t.subtreeAt = (cs.flatMap subtrees).map .ok := by
  induction cs generalizing i with
  | nil => rfl
  | cons c cs ih =>
    obtain ⟨hc, htail, -⟩ := childAt_of_drop_eq_cons h
    have hbelow : (t.subtreeAt ∘ fun p => i :: p) = c.subtreeAt :=
      funext fun p => subtreeAt_cons hc p
    rw [pathsFrom, List.map_append, List.map_map, hbelow, hcs c (List.mem_cons_self ..),
      ih htail fun d hd => hcs d (List.mem_cons_of_mem c hd), List.flatMap_cons, List.map_append]

/-- The paths lead to the nodes in preorder. -/
theorem map_subtreeAt_paths (t : Tree α) : t.paths.map t.subtreeAt = t.subtrees.map .ok := by
  induction t with
  | node v cs ih =>
    have hchildren : (node v cs).children.drop 0 = cs := rfl
    rw [paths, List.map_cons, map_subtreeAt_pathsFrom hchildren ih, subtrees_node, List.map_cons]
    rfl

theorem length_paths (t : Tree α) : t.paths.length = t.size := by
  have hlengths := congrArg List.length (map_subtreeAt_paths t)
  rwa [List.length_map, List.length_map, length_subtrees] at hlengths

theorem subtrees_locatedFrom {cs : List (Tree α)} (path : List Nat) (i : Nat)
    (h : ∀ c ∈ cs, ∀ path : List Nat, (c.located path).subtrees.map (fun s => s.value.1) =
      c.paths.map (path ++ ·)) :
    ((locatedFrom path i cs).flatMap subtrees).map (fun s => s.value.1) =
      (pathsFrom i cs).map (path ++ ·) := by
  induction cs generalizing i with
  | nil => rfl
  | cons c cs ih =>
    have hbelow : ((path ++ ·) ∘ fun p => i :: p) = ((path ++ [i]) ++ ·) := by
      funext p
      simp
    rw [locatedFrom, List.flatMap_cons, List.map_append, h c (List.mem_cons_self ..),
      ih (i + 1) fun d hd => h d (List.mem_cons_of_mem c hd), pathsFrom, List.map_append,
      List.map_map, hbelow]

/-- The located tree holds the paths in preorder, behind the path of its root. -/
theorem subtrees_located_paths (path : List Nat) (t : Tree α) :
    (t.located path).subtrees.map (fun s => s.value.1) = t.paths.map (path ++ ·) := by
  induction t generalizing path with
  | node v cs ih =>
    rw [located, subtrees_node, List.map_cons, subtrees_locatedFrom path 0 ih, paths, List.map_cons,
      List.append_nil]
    rfl

end Tree

end TreeText
