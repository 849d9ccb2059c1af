import Mathlib.Data.List.Nodup
import TreeText.Proofs.Tree.Paths

/-!
# Containment by paths

A node contains another one when the walk that starts at it comes to that other one. The walk comes
to all places below the node and to no others, so containment within a tree is the prefix order on
paths. What the values are plays no part in this: equal subtrees at two places are two nodes. It does
not matter either how nodes are told apart, by paths or by any marks of which no two nodes have the
same.

Results:
* `Walk.mem_places_iff`, `Walk.pairwise_places`: the places that a walk comes to, and their order.
* `Tree.any_mark_eq`: what a walk finds when nodes are told apart by marks.
* `Node.contains_iff_prefix`: containment of nodes.
-/

namespace TreeText

universe u v

variable {α : Type u} {γ : Type v}

namespace Walk

/-- The places that the walk from the node at `path`, with the tree `s` below it, comes to. -/
def places (path : List Nat) (s : Tree α) : List (List Nat) :=
  (start (s.located path)).toList.map fun n => n.value.1

theorem places_eq (path : List Nat) (s : Tree α) : places path s = s.paths.map (path ++ ·) := by
  rw [places, toList_start, Tree.subtrees_located_paths]

section

variable {t s : Tree α} {path : List Nat}

/-- The walk comes to the places below the node. -/
theorem mem_places_iff (hs : t.subtreeAt path = .ok s) {q : List Nat} :
    q ∈ places path s ↔ path <+: q ∧ ∃ r, t.subtreeAt q = .ok r := by
  rw [places_eq, List.mem_map]
  constructor
  · rintro ⟨rest, hrest, rfl⟩
    obtain ⟨r, hr⟩ := Tree.mem_paths_iff.mp hrest
    exact ⟨List.prefix_append path rest, r, by rw [Tree.subtreeAt_append_of_ok hs, hr]⟩
  · rintro ⟨⟨rest, rfl⟩, r, hr⟩
    rw [Tree.subtreeAt_append_of_ok hs] at hr
    exact ⟨rest, Tree.mem_paths_iff.mpr ⟨r, hr⟩, rfl⟩

/-- It comes to them in lexicographic order, so to each of them once. -/
theorem pairwise_places (path : List Nat) (s : Tree α) : (places path s).Pairwise (· < ·) := by
  rw [places_eq, List.pairwise_map]
  exact s.pairwise_paths.imp fun hlt => List.append_left_lt hlt

/-- What it finds there are the nodes that it visits. -/
theorem map_subtreeAt_places (hs : t.subtreeAt path = .ok s) :
    (places path s).map t.subtreeAt = (start s).toList.map .ok := by
  have hbelow : (t.subtreeAt ∘ fun q => path ++ q) = s.subtreeAt :=
    funext fun q => Tree.subtreeAt_append_of_ok hs q
  rw [places_eq, List.map_map, hbelow, Tree.map_subtreeAt_paths, toList_start]

end

end Walk

namespace Tree

/-! ## Nodes told apart by marks -/

section

variable {t s r : Tree α} {p q : List Nat} {mark : α → γ}

theorem mem_subtrees_iff : s ∈ t.subtrees ↔ ∃ p, t.subtreeAt p = .ok s := by
  have hmem : s ∈ t.subtrees ↔ (.ok s : Except Error (Tree α)) ∈ t.paths.map t.subtreeAt := by
    rw [map_subtreeAt_paths, List.mem_map]
    simp
  rw [hmem, List.mem_map]
  exact ⟨fun ⟨p, _, hp⟩ => ⟨p, hp⟩, fun ⟨p, hp⟩ => ⟨p, mem_paths_iff.mpr ⟨s, hp⟩, hp⟩⟩

/-- If no two nodes have the same mark, the mark of a node tells its path. -/
theorem path_eq_of_mark_eq (hmarks : (t.values.map mark).Nodup) (hs : t.subtreeAt p = .ok s)
    (hr : t.subtreeAt q = .ok r) (heq : mark s.value = mark r.value) : p = q := by
  have hvalues : t.paths.map (fun p => (t.subtreeAt p).map fun s => mark s.value) =
      (t.values.map mark).map .ok := by
    have hnodes := congrArg (List.map (Except.map fun s => mark s.value)) (map_subtreeAt_paths t)
    rw [List.map_map, List.map_map] at hnodes
    rw [values, List.map_map, List.map_map]
    exact hnodes
  have hnodup : (t.paths.map fun p => (t.subtreeAt p).map fun s => mark s.value).Nodup := by
    rw [hvalues]
    exact hmarks.map fun _ _ h => Except.ok.inj h
  refine List.inj_on_of_nodup_map hnodup (mem_paths_iff.mpr ⟨s, hs⟩) (mem_paths_iff.mpr ⟨r, hr⟩) ?_
  rw [hs, hr]
  exact congrArg Except.ok heq

/-- If no two nodes have the same mark, the walk from a node comes to the mark of another one exactly
if the other one is below it. -/
theorem any_mark_eq [DecidableEq γ] (hmarks : (t.values.map mark).Nodup)
    (hs : t.subtreeAt p = .ok s) (hr : t.subtreeAt q = .ok r) :
    (Walk.start s).any (fun n => mark n.value == mark r.value) = decide (p <+: q) := by
  rw [Walk.any_eq, Walk.toList_start, Bool.eq_iff_iff, List.any_eq_true, decide_eq_true_iff]
  constructor
  · rintro ⟨n, hn, heq⟩
    obtain ⟨rest, hrest⟩ := mem_subtrees_iff.mp hn
    rw [← subtreeAt_append_of_ok hs] at hrest
    rw [← path_eq_of_mark_eq hmarks hrest hr (beq_iff_eq.mp heq)]
    exact List.prefix_append p rest
  · rintro ⟨rest, rfl⟩
    rw [subtreeAt_append_of_ok hs] at hr
    exact ⟨r, mem_subtrees_iff.mpr ⟨rest, hr⟩, beq_self_eq_true _⟩

/-- A mark that no node has is not found. -/
theorem any_mark_eq_false [DecidableEq γ] (hs : t.subtreeAt p = .ok s) {x : γ}
    (hx : x ∉ t.values.map mark) : (Walk.start s).any (fun n => mark n.value == x) = false := by
  rw [Walk.any_eq, Walk.toList_start, List.any_eq_false]
  intro n hn heq
  obtain ⟨rest, hrest⟩ := mem_subtrees_iff.mp hn
  rw [← subtreeAt_append_of_ok hs] at hrest
  have hvalue : n.value ∈ t.values := List.mem_map_of_mem (mem_subtrees_iff.mpr ⟨_, hrest⟩)
  exact hx (beq_iff_eq.mp heq ▸ List.mem_map_of_mem hvalue)

end

end Tree

/-! ## Nodes as places -/

namespace Node

variable {t s r : Tree α} {p q : List Nat}

theorem contains_of_subtreeAt (owner : String) (hs : t.subtreeAt p = .ok s)
    (hr : t.subtreeAt q = .ok r) :
    (Node.mk (some owner) t p).contains ⟨some owner, t, q⟩ = .ok (decide (p <+: q)) := by
  have hsame (place : List Nat) :
      (Node.mk (some owner) t q).isSame (some owner) place = (q == place) := by
    simp [isSame]
  have hany : ((Walk.start (s.located p)).any fun n => q == n.value.1) =
      decide (q ∈ Walk.places p s) := by
    rw [Walk.any_eq, Walk.places, Bool.eq_iff_iff, List.any_eq_true, decide_eq_true_iff,
      List.mem_map]
    exact exists_congr fun n => and_congr_right fun _ => beq_iff_eq.trans eq_comm
  have hmem : q ∈ Walk.places p s ↔ p <+: q := by
    rw [Walk.mem_places_iff hs]
    exact and_iff_left ⟨r, hr⟩
  rw [contains, subtree, subtree, hs, hr]
  simp only [hsame, hany, hmem]

theorem contains_fresh (owner : String) (hs : t.subtreeAt p = .ok s) (r : Tree α) :
    (Node.mk (some owner) t p).contains (fresh r) = .ok false :=
  contains_of_owner_ne hs (s := r) rfl (by simp [fresh])

/-- **Containment is the prefix order on paths.** In a tree, the node at one path contains the node
at another one if and only if the first path is a prefix of the second one. The walk from a node
comes to the places below it, each once and in lexicographic order, and finds there the nodes that it
visits. The same holds if nodes are told apart by marks, of which no two nodes have the same and no
node elsewhere has any. Nodes of other trees and fresh copies are never contained. -/
theorem contains_iff_prefix (owner : String) (t : Tree α) {p : List Nat} {s : Tree α}
    (hs : t.subtreeAt p = .ok s) :
    (∀ q r, t.subtreeAt q = .ok r →
      (Node.mk (some owner) t p).contains ⟨some owner, t, q⟩ = .ok (decide (p <+: q))) ∧
    ((Walk.places p s).Pairwise (· < ·) ∧
      (∀ q, q ∈ Walk.places p s ↔ p <+: q ∧ ∃ r, t.subtreeAt q = .ok r) ∧
      (Walk.places p s).map t.subtreeAt = (Walk.start s).toList.map .ok) ∧
    (∀ (γ : Type v) [DecidableEq γ] (mark : α → γ),
      ((t.values.map mark).Nodup → ∀ q r, t.subtreeAt q = .ok r →
        (Walk.start s).any (fun n => mark n.value == mark r.value) = decide (p <+: q)) ∧
      ∀ x, x ∉ t.values.map mark → (Walk.start s).any (fun n => mark n.value == x) = false) ∧
    (∀ m r, m.owner ≠ some owner → m.subtree = .ok r →
      (Node.mk (some owner) t p).contains m = .ok false) ∧
    ∀ r, (Node.mk (some owner) t p).contains (fresh r) = .ok false :=
  ⟨fun _ _ hr => contains_of_subtreeAt owner hs hr,
    ⟨Walk.pairwise_places p s, fun _ => Walk.mem_places_iff hs, Walk.map_subtreeAt_places hs⟩,
    fun _ _ _ => ⟨fun hmarks _ _ hr => Tree.any_mark_eq hmarks hs hr,
      fun _ hx => Tree.any_mark_eq_false hs hx⟩,
    fun _ _ howner hm => contains_of_owner_ne hs hm howner, contains_fresh owner hs⟩

/-- A tree that holds one subtree twice: the first child contains its own leaf, but neither the equal
leaf of the second child, nor a copy of its own one, nor the root. -/
theorem contains_iff_prefix_twins :
    ∃ t : Tree String, t = .node "x" [.node "x" [.leaf "x"], .node "x" [.leaf "x"]] ∧
      t.subtreeAt [0, 0] = t.subtreeAt [1, 0] ∧
      (Node.mk (some "a") t [0]).contains ⟨some "a", t, [0, 0]⟩ = .ok true ∧
      (Node.mk (some "a") t [0]).contains ⟨some "a", t, [1, 0]⟩ = .ok false ∧
      (Node.mk (some "a") t [0]).contains ⟨some "a", t, []⟩ = .ok false ∧
      (Node.mk (some "a") t [0]).contains ⟨some "b", t, [0, 0]⟩ = .ok false ∧
      (Node.mk (some "a") t [0]).contains (fresh (.leaf "x")) = .ok false := by
  obtain ⟨hplaces, -, -, hother, hfresh⟩ := contains_iff_prefix.{0, 0} "a"
    (.node "x" [.node "x" [.leaf "x"], .node "x" [.leaf "x"]]) (p := [0]) rfl
  exact ⟨_, rfl, rfl, hplaces [0, 0] _ rfl, hplaces [1, 0] _ rfl, hplaces [] _ rfl,
    hother ⟨some "b", _, [0, 0]⟩ _ (by simp) rfl, hfresh _⟩

end Node

end TreeText
