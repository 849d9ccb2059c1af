import TreeText.Token.Basic
import TreeText.Tree.Basic

/-!
# The canonical form of a tree

A leaf is written as its value. Any other node is written as its value, a space, and the canonical
forms of its children between parentheses with one space between two of them: `a (b c (d))`.

The canonical form is a text, and values may hold any characters, so two trees can share it. Its
tokens as they are meant, `Tree.tokens`, do not depend on the characters of the values.

Results:
* `Tree.canonical_leaf`, `Tree.canonical_node`: the two rules above.
* `Tree.tokens_leaf`, `Tree.tokens_node`: the same rules on tokens.
-/

namespace TreeText

namespace Tree

universe u

variable {α : Type u}

/-- The one-line text of a tree. -/
def canonical [ToString α] : Tree α → String :=
  fold fun v texts =>
    match texts with
    | [] => toString v
    | _ :: _ => toString v ++ " (" ++ " ".intercalate texts ++ ")"

instance [ToString α] : ToString (Tree α) := ⟨canonical⟩

theorem canonical_leaf [ToString α] (v : α) : (leaf v).canonical = toString v := rfl

theorem canonical_node [ToString α] (v : α) {cs : List (Tree α)} (h : cs ≠ []) :
    (node v cs).canonical = toString v ++ " (" ++ " ".intercalate (cs.map canonical) ++ ")" := by
  cases cs with
  | nil => exact absurd rfl h
  | cons c cs => rw [canonical, fold_node]; rfl

/-- The tokens that the canonical form is made of. -/
def tokens : Tree String → List Token :=
  fold fun v parts =>
    match parts with
    | [] => [.value v]
    | _ :: _ => .value v :: .opening :: parts.flatten ++ [.closing]

theorem tokens_leaf (v : String) : (leaf v).tokens = [.value v] := rfl

theorem tokens_node (v : String) {cs : List (Tree String)} (h : cs ≠ []) :
    (node v cs).tokens = .value v :: .opening :: cs.flatMap tokens ++ [.closing] := by
  cases cs with
  | nil => exact absurd rfl h
  | cons c cs => rw [tokens, fold_node]; simp [List.flatMap]

end Tree

end TreeText
