import TreeText.Label
import TreeText.Proofs.Numeral
import TreeText.Tree.Canonical

/-!
# Values that are equal exactly when they are shown the same

Texts, 64-bit integers and labels are values of this kind. Trees of such values are equal exactly
when they have one shape and show the same text at each node.

Results:
* `Tree.beq_iff_map_toString_eq`: equality by `==`, by the displayed texts.
* `Tree.canonical_map_toString`: the canonical form depends on the displayed texts only.
-/

namespace TreeText

universe u v

/-- Equality of values agrees with equality of their texts. -/
class LawfulDisplay (α : Type u) [BEq α] [ToString α] : Prop where
  beq_iff (v w : α) : (v == w) = true ↔ toString v = toString w

instance : LawfulDisplay String where
  beq_iff _ _ := beq_iff_eq

instance : LawfulDisplay Int64 where
  beq_iff _ _ := beq_iff_eq.trans ⟨fun h => h ▸ rfl, Numeral.int64_toString_inj⟩

instance : LawfulDisplay Label where
  beq_iff := Label.beq_iff_toString_eq

namespace Tree

variable {α : Type u} {β : Type v}

theorem beq_iff_map_toString_eq [BEq α] [ToString α] [LawfulDisplay α] (t u : Tree α) :
    (t == u) = true ↔ t.map toString = u.map toString :=
  beq_iff_map_eq LawfulDisplay.beq_iff t u

/-! ## Trees of displayed texts -/

theorem map_toString (t : Tree String) : t.map toString = t := map_id t

theorem height_map (f : α → β) (t : Tree α) : (t.map f).height = t.height := by
  induction t with
  | node v cs ih =>
    rw [map_node, height_node, height_node, List.map_map]
    congr 1
    exact List.map_congr_left ih

theorem subtrees_map (f : α → β) (t : Tree α) : (t.map f).subtrees = t.subtrees.map (map f) := by
  induction t with
  | node v cs ih =>
    rw [map_node, subtrees_node, subtrees_node, List.map_cons, map_node, List.flatMap_map,
      List.map_flatMap, List.flatMap_def, List.flatMap_def, List.map_congr_left ih]

/-- A tree is written as the tree of its displayed values is. -/
theorem canonical_map_toString [ToString α] (t : Tree α) :
    (t.map toString).canonical = t.canonical := by
  induction t with
  | node v cs ih =>
    by_cases hne : cs = []
    · subst hne
      rfl
    · have hmap : cs.map (map toString) ≠ [] := by simpa using hne
      have htexts : (cs.map (map toString)).map canonical = cs.map canonical := by
        rw [List.map_map]
        exact List.map_congr_left ih
      rw [map_node, canonical_node _ hmap, canonical_node v hne, htexts]
      rfl

end Tree

end TreeText
