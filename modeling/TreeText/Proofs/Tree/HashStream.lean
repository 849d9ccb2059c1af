import TreeText.Proofs.Parts
import TreeText.Proofs.Tree.Display
import TreeText.Proofs.Tree.Outline
import TreeText.Tree.Hash

/-!
# Trees by the bytes that are hashed

The bytes of a text never include 255, so the bytes that are written for a tree can be split into
those of its nodes, and each of these parts is the canonical form of its node. As these forms
determine the tree, trees are equal exactly when the same bytes are hashed for them.

Results:
* `utf8_inj`, `not_mem_utf8`: the bytes of a text determine it and do not include 255.
* `Tree.splitOn_byteStream`: the bytes of the nodes, from those of the tree.
* `Tree.beq_iff_byteStream_eq`: equality of trees, by the bytes.
-/

namespace TreeText

universe u

/-! ## Bytes of texts -/

theorem utf8_inj {s t : String} (h : utf8 s = utf8 t) : s = t := by
  rw [← String.toByteArray_inj, ← String.utf8Encode_toList, ← String.utf8Encode_toList]
  exact congrArg List.toByteArray h

theorem toNat_lt_of_mem_utf8EncodeChar {c : Char} {b : UInt8} (h : b ∈ String.utf8EncodeChar c) :
    b.toNat < 255 := by
  have hbyte (n : Nat) : (UInt8.ofNat n).toNat = n % 256 := UInt8.toNat_ofNat'
  simp only [String.utf8EncodeChar] at h
  -- one case for each number of bytes
  split at h
  · obtain rfl := List.mem_singleton.mp h
    rw [hbyte]
    omega
  split at h
  · simp only [List.mem_cons, List.not_mem_nil, or_false] at h
    rcases h with rfl | rfl <;> rw [hbyte] <;> omega
  split at h
  · simp only [List.mem_cons, List.not_mem_nil, or_false] at h
    rcases h with rfl | rfl | rfl <;> rw [hbyte] <;> omega
  · simp only [List.mem_cons, List.not_mem_nil, or_false] at h
    rcases h with rfl | rfl | rfl | rfl <;> rw [hbyte] <;> omega

theorem not_mem_utf8 (text : String) : (255 : UInt8) ∉ utf8 text := by
  intro h
  obtain ⟨c, _, hc⟩ := List.mem_flatMap.mp h
  exact absurd (toNat_lt_of_mem_utf8EncodeChar hc) (by decide)

/-- Whether two different lists of bytes have the same hash. -/
def Sip.Collision (c d : Nat) (k0 k1 : UInt64) (bytes bytes' : List UInt8) : Prop :=
  bytes ≠ bytes' ∧ hash c d k0 k1 bytes = hash c d k0 k1 bytes'

namespace Tree

variable {α : Type u} [ToString α]

/-- The bytes of the nodes are those of the tree, cut behind each byte 255. -/
theorem splitOn_byteStream (t : Tree α) :
    t.byteStream.splitOn 255 = t.subtrees.map (fun u => utf8 u.canonical) ++ [[]] :=
  splitOn_flatMap_concat fun u _ => not_mem_utf8 u.canonical

theorem canonical_subtrees_eq_of_byteStream_eq {t u : Tree α} (h : t.byteStream = u.byteStream) :
    t.subtrees.map canonical = u.subtrees.map canonical := by
  have hsplit := congrArg (List.splitOn 255) h
  rw [splitOn_byteStream, splitOn_byteStream] at hsplit
  have hbytes : (t.subtrees.map canonical).map utf8 = (u.subtrees.map canonical).map utf8 := by
    rw [List.map_map, List.map_map]
    exact List.append_cancel_right hsplit
  exact List.map_inj_right (fun _ _ => utf8_inj) |>.mp hbytes

theorem byteStream_map_toString (t : Tree α) : (t.map toString).byteStream = t.byteStream := by
  have hbytes (u : Tree α) : (u.map toString).nodeBytes = u.nodeBytes := by
    rw [nodeBytes, canonical_map_toString, nodeBytes]
  rw [byteStream, subtrees_map, List.flatMap_map, List.flatMap_congr fun u _ => hbytes u]
  rfl

/-- The bytes determine the tree of the displayed values. -/
theorem map_toString_eq_of_byteStream_eq {t u : Tree α} (h : t.byteStream = u.byteStream) :
    t.map toString = u.map toString := by
  rw [← byteStream_map_toString t, ← byteStream_map_toString u] at h
  exact eq_of_canonical_subtrees_eq (canonical_subtrees_eq_of_byteStream_eq h)

/-- Trees are equal exactly when the same bytes are hashed for them. So equal trees have the same
hash code, and other trees have it only by a collision of the hash. -/
theorem beq_iff_byteStream_eq [BEq α] [LawfulDisplay α] (t u : Tree α) :
    ((t == u) = true ↔ t.byteStream = u.byteStream) ∧
      ((t == u) = true → t.hashCode = u.hashCode) ∧
      (t.hashCode = u.hashCode →
        (t == u) = true ∨ Sip.Collision 1 3 0 0 t.byteStream u.byteStream) := by
  have hiff : (t == u) = true ↔ t.byteStream = u.byteStream := by
    rw [beq_iff_map_toString_eq]
    constructor
    · intro h
      rw [← byteStream_map_toString t, h, byteStream_map_toString]
    · exact map_toString_eq_of_byteStream_eq
  refine ⟨hiff, fun h => ?_, fun hcode => ?_⟩
  · rw [hashCode, hiff.mp h, hashCode]
  · by_cases hbytes : t.byteStream = u.byteStream
    · exact .inl (hiff.mpr hbytes)
    · exact .inr ⟨hbytes, hcode⟩

/-- A text that looks like a block, numbers, and labels in upper and lower case. -/
theorem beq_iff_byteStream_eq_examples :
    ((leaf "a (b)").canonical = (node "a" [leaf "b"]).canonical ∧
        (leaf "a (b)").byteStream ≠ (node "a" [leaf "b"]).byteStream) ∧
      (node 1 [leaf (-1)] : Tree Int64).byteStream ≠ (node 1 [leaf 1] : Tree Int64).byteStream ∧
      (node (Label.mk "ROOT") [leaf ⟨"Leaf"⟩]).hashCode
        = (node (Label.mk "root") [leaf ⟨"leaf"⟩]).hashCode := by
  refine ⟨⟨by decide, fun h => ?_⟩, fun h => ?_, ?_⟩
  · exact absurd ((beq_iff_byteStream_eq (leaf "a (b)") (node "a" [leaf "b"])).1.mpr h) (by decide)
  · exact absurd ((beq_iff_byteStream_eq _ _).1.mpr h) (by decide)
  · have hroot : (Label.mk "ROOT" == Label.mk "root") = true := by
      simp [Label.beq_iff_toString_eq, toString, Label.lower, ← String.toList_inj]
    have hleaf : (Label.mk "Leaf" == Label.mk "leaf") = true := by
      simp [Label.beq_iff_toString_eq, toString, Label.lower, ← String.toList_inj]
    refine (beq_iff_byteStream_eq _ _).2.1 ?_
    rw [leaf, leaf, beq_node, beqAll, ← beq_def, beq_node, hroot, hleaf]
    rfl

end Tree

end TreeText
