import Mathlib.Data.Tree.Basic

/-!
# Binary trees as the lists they spell, and their outer slots

`inorder t` lists the values of a tree from left to right. A tree that is being built has an open slot
at one of its outer ends: `withRight` fills the right slot of the root, `withLeftmost` the slot at
the end of the left arm, and `popLeftmost` takes the leftmost node out of a tree.
-/

namespace BinaryTree

variable {α : Type*}

def inorder : BinaryTree α → List α
  | nil => []
  | node a l r => inorder l ++ a :: inorder r

def isNil : BinaryTree α → Bool
  | nil => true
  | node _ _ _ => false

/-- Put `s` into the right slot of the root; into the place of the root if there is none. -/
def withRight : BinaryTree α → BinaryTree α → BinaryTree α
  | nil, s => s
  | node a l _, s => node a l s

/-- Put `s` into the slot at the end of the left arm. -/
def withLeftmost : BinaryTree α → BinaryTree α → BinaryTree α
  | nil, s => s
  | node a l r, s => node a (withLeftmost l s) r

/-- The leftmost value, and the tree with the right subtree of its node in the place of the node. -/
def popLeftmost : BinaryTree α → Option (α × BinaryTree α)
  | nil => none
  | node a l r =>
    match popLeftmost l with
    | none => some (a, r)
    | some (b, l') => some (b, node a l' r)

@[simp] theorem inorder_nil : inorder (nil : BinaryTree α) = [] := rfl

@[simp] theorem inorder_node (a : α) (l r : BinaryTree α) :
    inorder (node a l r) = inorder l ++ a :: inorder r := rfl

@[simp] theorem isNil_nil : isNil (nil : BinaryTree α) = true := rfl

@[simp] theorem isNil_node (a : α) (l r : BinaryTree α) : isNil (node a l r) = false := rfl

theorem isNil_iff {t : BinaryTree α} : t.isNil = true ↔ t = nil := by
  cases t <;> simp

@[simp] theorem right_node (a : α) (l r : BinaryTree α) : (node a l r).right = r := rfl

@[simp] theorem left_node (a : α) (l r : BinaryTree α) : (node a l r).left = l := rfl

@[simp] theorem right_nil : (nil : BinaryTree α).right = nil := rfl

@[simp] theorem withRight_nil (t : BinaryTree α) : (nil : BinaryTree α).withRight t = t := rfl

theorem inorder_withRight {t : BinaryTree α} (h : t.right = nil) (s : BinaryTree α) :
    (t.withRight s).inorder = t.inorder ++ s.inorder := by
  cases t with
  | nil => rfl
  | node a l r =>
      rw [right_node] at h
      subst h
      simp [withRight]

theorem withRight_open {t : BinaryTree α} (h : t.right = nil) : t.withRight nil = t := by
  cases t with
  | nil => rfl
  | node a l r =>
      rw [right_node] at h
      rw [withRight, h]

@[simp] theorem inorder_withLeftmost (t s : BinaryTree α) :
    (t.withLeftmost s).inorder = s.inorder ++ t.inorder := by
  induction t with
  | nil => simp [withLeftmost]
  | node a l r ihl _ => simp [withLeftmost, ihl]

@[simp] theorem withLeftmost_nil (t : BinaryTree α) : t.withLeftmost nil = t := by
  induction t with
  | nil => rfl
  | node a l r ihl _ => rw [withLeftmost, ihl]

theorem popLeftmost_eq_none {t : BinaryTree α} (h : t.popLeftmost = none) : t = nil := by
  cases t with
  | nil => rfl
  | node a l r =>
      rw [popLeftmost] at h
      split at h <;> cases h

theorem inorder_popLeftmost {t t' : BinaryTree α} {a : α} (h : t.popLeftmost = some (a, t')) :
    t.inorder = a :: t'.inorder := by
  induction t generalizing t' with
  | nil => cases h
  | node b l r ihl _ =>
      rw [popLeftmost] at h
      split at h
      next hl =>
        cases h
        rw [popLeftmost_eq_none hl]
        rfl
      next l' hl =>
        cases h
        rw [inorder_node, ihl hl]
        rfl

end BinaryTree
