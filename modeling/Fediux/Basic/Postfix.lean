import Mathlib

set_option autoImplicit false

/-! # Postfix words over binary operators

A postfix word is a list of operands and binary operators. `eval` runs a word on a stack
machine, `Tree.word` writes an expression tree as a word, and `eval_word` says that the
machine computes the value of the tree. `height` counts the stack without evaluating;
`height_eq_one_iff` identifies the words that leave exactly one value with the words of
trees.
-/

namespace Postfix

variable {ω ν α : Type}

/-- A symbol of a postfix word: an operand or a binary operator. -/
inductive Sym (ω ν : Type) where
  | val (x : ν)
  | op (o : ω)

/-- A binary expression tree. -/
inductive Tree (ω ν : Type) where
  | leaf (x : ν)
  | node (o : ω) (l r : Tree ω ν)

namespace Tree

/-- The postfix word of a tree: operands first, operator last. -/
def word : Tree ω ν → List (Sym ω ν)
  | leaf x => [.val x]
  | node o l r => l.word ++ r.word ++ [.op o]

/-- The value of a tree under an interpretation of operands and operators. -/
def eval (f : ω → α → α → α) (v : ν → α) : Tree ω ν → α
  | leaf x => v x
  | node o l r => f o (l.eval f v) (r.eval f v)

end Tree

/-! ## The stack machine -/

/-- Run a word on a stack, top first. An operator takes its right argument from the top;
`none` is a stack with too few values. -/
def run (f : ω → α → α → α) (v : ν → α) : List (Sym ω ν) → List α → Option (List α)
  | [], st => some st
  | .val x :: w, st => run f v w (v x :: st)
  | .op o :: w, b :: a :: st => run f v w (f o a b :: st)
  | .op _ :: _, _ => none

/-- The value of a word: the single value the machine leaves. -/
def eval (f : ω → α → α → α) (v : ν → α) (w : List (Sym ω ν)) : Option α :=
  match run f v w [] with
  | some [x] => some x
  | _ => none

/-- The word of a tree pushes the value of the tree, whatever follows. -/
theorem run_word_append (f : ω → α → α → α) (v : ν → α) (t : Tree ω ν)
    (w : List (Sym ω ν)) (st : List α) :
    run f v (t.word ++ w) st = run f v w (t.eval f v :: st) := by
  induction t generalizing w st with
  | leaf x => rfl
  | node o l r ihl ihr =>
      calc run f v ((Tree.node o l r).word ++ w) st
          = run f v (l.word ++ (r.word ++ (.op o :: w))) st := by
            rw [Tree.word, List.append_assoc, List.append_assoc, List.singleton_append]
        -- the left value is pushed first and lies under the right one
        _ = run f v (.op o :: w) (r.eval f v :: l.eval f v :: st) := by rw [ihl, ihr]
        _ = run f v w ((Tree.node o l r).eval f v :: st) := rfl

/-- **The stack machine computes the value of the tree.** -/
theorem eval_word (f : ω → α → α → α) (v : ν → α) (t : Tree ω ν) :
    eval f v t.word = some (t.eval f v) := by
  have h := run_word_append f v t [] []
  rw [List.append_nil] at h
  rw [eval, h]
  rfl

/-! ## Stack heights -/

/-- The height of the stack after a word, or `none` where an operator finds fewer than two
values. -/
def height : List (Sym ω ν) → Nat → Option Nat
  | [], n => some n
  | .val _ :: w, n => height w (n + 1)
  | .op _ :: w, n + 2 => height w (n + 1)
  | .op _ :: _, _ => none

theorem height_word_append (t : Tree ω ν) (w : List (Sym ω ν)) (n : Nat) :
    height (t.word ++ w) n = height w (n + 1) := by
  induction t generalizing w n with
  | leaf x => rfl
  | node o l r ihl ihr =>
      rw [Tree.word, List.append_assoc, List.append_assoc, ihl, ihr]
      rfl

/-- A word that runs over the forest `ts` without underflow leaves a forest, and the forest
spells the input. -/
theorem exists_forest_of_height (w : List (Sym ω ν)) (ts : List (Tree ω ν)) (m : Nat)
    (h : height w ts.length = some m) :
    ∃ us : List (Tree ω ν), us.length = m ∧
      us.reverse.flatMap Tree.word = ts.reverse.flatMap Tree.word ++ w := by
  induction w generalizing ts with
  | nil =>
      refine ⟨ts, ?_, by simp⟩
      simpa [height] using h
  | cons s w ih =>
      cases s with
      | val x =>
          obtain ⟨us, hlen, hw⟩ := ih (.leaf x :: ts) h
          exact ⟨us, hlen, by simp [hw, Tree.word]⟩
      | op o =>
          -- the two trees on top become the arguments, the upper one on the right
          match ts, h with
          | b :: a :: ts, h =>
              obtain ⟨us, hlen, hw⟩ := ih (.node o a b :: ts) h
              exact ⟨us, hlen, by simp [hw, Tree.word]⟩

/-- **The words that leave exactly one value are the words of trees.** -/
theorem height_eq_one_iff (w : List (Sym ω ν)) :
    height w 0 = some 1 ↔ ∃ t : Tree ω ν, t.word = w := by
  constructor
  · intro h
    obtain ⟨us, hlen, hw⟩ := exists_forest_of_height w [] 1 h
    obtain ⟨t, rfl⟩ := List.length_eq_one_iff.mp hlen
    exact ⟨t, by simpa using hw⟩
  · rintro ⟨t, rfl⟩
    have h := height_word_append t [] 0
    rw [List.append_nil] at h
    rw [h]
    rfl

end Postfix
