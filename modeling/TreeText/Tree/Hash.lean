import TreeText.Hash.Sip
import TreeText.Tree.Canonical

/-!
# Hash codes of trees

The hash code of a tree is a hash of bytes that are written while the nodes are visited in preorder:
for each node the bytes of its canonical form, and then the byte 255, which occurs in no text.

Results:
* `Tree.byteStream_node`: the bytes of a node come before those of its children.
-/

namespace TreeText

/-- The bytes of a text. -/
def utf8 (text : String) : List UInt8 := text.toList.flatMap String.utf8EncodeChar

namespace Tree

universe u

variable {α : Type u} [ToString α]

/-- The bytes written for one node. -/
def nodeBytes (t : Tree α) : List UInt8 := utf8 t.canonical ++ [255]

/-- The bytes written for a tree. -/
def byteStream (t : Tree α) : List UInt8 := t.subtrees.flatMap nodeBytes

/-- The hash code of a tree: SipHash with one and three rounds and the key zero. -/
def hashCode (t : Tree α) : UInt64 := Sip.hash 1 3 0 0 t.byteStream

theorem byteStream_node (v : α) (cs : List (Tree α)) :
    (node v cs).byteStream = (node v cs).nodeBytes ++ cs.flatMap byteStream := by
  simp only [byteStream, subtrees_node, List.flatMap_cons, List.flatMap_assoc]
  rfl

end Tree

end TreeText
