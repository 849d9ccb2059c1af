import TreeText.Proofs.Parts
import TreeText.Proofs.Tree.Outline
import TreeText.Proofs.Tree.RoundTrip
import TreeText.Proofs.Tree.Visits

/-!
# Layouts by their lines

A layout ends each line with a line break. If no value holds one, the lines are found again by
cutting the text at its line breaks. The lines are made of the outline of a tree, and this one is told
by the paths and the values that a walk comes to: the depth of a node is the length of its path.

Results:
* `displayText_eq_iff`: when two texts are shown alike.
* `Tree.outline_eq`: the outline by the places and values that a walk comes to.
* `Tree.outline_map`: the outline of a tree with other values.
* `Tree.IsClean.isSingleLined`: clean values are on one line.
-/

namespace TreeText

universe u v w

variable {α : Type u} {β : Type v} {γ : Type w}

/-- Texts that hold trees are shown alike exactly if their trees have the same layout. -/
theorem displayText_eq_iff {left right : String} {l r : Tree String} (hl : Tree.parse left = .ok l)
    (hr : Tree.parse right = .ok r) (layout : Layout) (width width' : Nat) :
    displayText left layout width = displayText right layout width' ↔
      l.inLayout layout width = r.inLayout layout width' := by
  rw [displayText, displayText, hl, hr]
  exact ⟨fun h => Except.ok.inj h, fun h => congrArg Except.ok h⟩

namespace Tree

/-! ## Values and places -/

theorem values_map (f : α → β) (t : Tree α) : (t.map f).values = t.values.map f := by
  have hvalue (s : Tree α) : (s.map f).value = f s.value := by
    obtain ⟨v, cs⟩ := s
    rw [map_node]
    rfl
  rw [values, values, subtrees_map, List.map_map, List.map_map]
  exact List.map_congr_left fun s _ => hvalue s

theorem map_fst_values_located (path : List Nat) (t : Tree α) :
    (t.located path).values.map Prod.fst = t.paths.map (path ++ ·) := by
  rw [values, List.map_map]
  exact subtrees_located_paths path t

theorem map_snd_values_located (path : List Nat) (t : Tree α) :
    (t.located path).values.map Prod.snd = t.values := by
  rw [← values_map, map_located]

/-- A list of pairs is made of the places and values of a tree if its sides are made of the paths and
of the values. -/
theorem eq_map_values_located {t : Tree α} {f : List Nat → γ} {xs : List (γ × α)}
    (hfst : xs.map Prod.fst = t.paths.map f) (hsnd : xs.map Prod.snd = t.values) :
    xs = (t.located []).values.map fun x => (f x.1, x.2) := by
  apply eq_of_map_fst_of_map_snd
  · have hpaths := congrArg (List.map f) (map_fst_values_located [] t)
    rw [List.map_map, List.map_map] at hpaths
    rw [hfst, List.map_map]
    exact hpaths.symm
  · rw [hsnd, List.map_map]
    exact (map_snd_values_located [] t).symm

/-! ## Outlines -/

theorem map_snd_outline (depth : Nat) (t : Tree α) : (t.outline depth).map Prod.snd = t.values := by
  induction t generalizing depth with
  | node v cs ih =>
    rw [outline_node, List.map_cons, List.map_flatMap, values_node,
      List.flatMap_congr fun c hc => ih c hc (depth + 1)]

theorem mem_values_of_outline {depth : Nat} {t : Tree α} {x : Nat × α} (h : x ∈ t.outline depth) :
    x.2 ∈ t.values :=
  map_snd_outline depth t ▸ List.mem_map_of_mem h

theorem map_fst_outline (depth : Nat) (t : Tree α) :
    (t.outline depth).map Prod.fst = t.paths.map (depth + ·.length) := by
  induction t generalizing depth with
  | node v cs ih =>
    have hall (i : Nat) : (cs.flatMap (outline (depth + 1))).map Prod.fst =
        (pathsFrom i cs).map (depth + ·.length) := by
      induction cs generalizing i with
      | nil => rfl
      | cons c cs ihcs =>
        have hbelow : ((depth + ·.length) ∘ fun p => i :: p) = (depth + 1 + ·.length) := by
          funext p
          simp only [Function.comp_apply, List.length_cons]
          omega
        rw [List.flatMap_cons, List.map_append, ih c (List.mem_cons_self ..),
          ihcs (fun d hd => ih d (List.mem_cons_of_mem c hd)) (i + 1), pathsFrom, List.map_append,
          List.map_map, hbelow]
    rw [outline_node, List.map_cons, hall 0, paths, List.map_cons]
    rfl

/-- The depth of a node is the length of its path. -/
theorem outline_eq (t : Tree α) :
    t.outline 0 = (t.located []).values.map fun x => (x.1.length, x.2) := by
  refine eq_map_values_located ?_ (map_snd_outline 0 t)
  rw [map_fst_outline]
  simp only [Nat.zero_add]

theorem outline_map (f : α → β) (depth : Nat) (t : Tree α) :
    (t.map f).outline depth = (t.outline depth).map fun x => (x.1, f x.2) := by
  induction t generalizing depth with
  | node v cs ih =>
    rw [map_node, outline_node, outline_node, List.map_cons, List.flatMap_map, List.map_flatMap,
      List.flatMap_congr fun c hc => ih c hc (depth + 1)]

/-! ## Values on one line -/

/-- Whether every value is shown on one line. -/
def IsSingleLined [ToString α] (t : Tree α) : Prop := ∀ v ∈ t.values, '\n' ∉ (toString v).toList

instance [ToString α] (t : Tree α) : Decidable t.IsSingleLined :=
  inferInstanceAs (Decidable (∀ v ∈ t.values, '\n' ∉ (toString v).toList))

/-- What holds of all displayed values holds of the tree of these values. -/
theorem forall_values_map_toString [ToString α] {t : Tree α} {p : String → Prop} :
    (∀ v ∈ (t.map toString).values, p (toString v)) ↔ ∀ v ∈ t.values, p (toString v) := by
  rw [values_map, List.forall_mem_map]
  rfl

theorem IsSingleLined.map_toString [ToString α] {t : Tree α} (h : t.IsSingleLined) :
    (t.map toString).IsSingleLined :=
  forall_values_map_toString (p := fun text => '\n' ∉ text.toList) |>.mpr h

theorem IsClean.not_mem_value [ToString α] {t : Tree α} (h : t.IsClean) {c : Char}
    (hc : isDelimiter c = true) {v : α} (hv : v ∈ t.values) : c ∉ (toString v).toList := by
  intro hmem
  exact absurd ((h v hv).2 c hmem) (by rw [hc]; decide)

theorem IsClean.isSingleLined [ToString α] {t : Tree α} (h : t.IsClean) : t.IsSingleLined :=
  fun _ hv => h.not_mem_value rfl hv

end Tree

end TreeText
