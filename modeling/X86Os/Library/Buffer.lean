import Mathlib.Data.List.Find
import Mathlib.Logic.Function.Basic
import Mathlib.Tactic.SplitIfs

/-!
# Loops over an array

An array is a function from its indices; whether an index lies within the bounds
is for the program to check. The usual loops that reverse a part of an array in
place, move a part up to another end, fill a part with one value and look for
the first element of a kind are given together with the array they leave behind.
-/

namespace Library.Buffer
set_option autoImplicit false

variable {α : Type*} {buf buf' : Nat → α}

/-- The loop that swaps the elements at `j` and `i` and moves both inwards. -/
def reverseLoop : Nat → (Nat → α) → Nat → Nat → Nat → α
  | 0, buf, _, _ => buf
  | fuel + 1, buf, j, i =>
    if j < i then
      reverseLoop fuel (Function.update (Function.update buf j (buf i)) i (buf j)) (j + 1) (i - 1)
    else buf

theorem reverseLoop_eq {fuel j i : Nat} (enough : i ≤ j + 2 * fuel) :
    reverseLoop fuel buf j i = fun x => if j ≤ x ∧ x ≤ i then buf (j + i - x) else buf x := by
  induction fuel generalizing buf j i with
  | zero =>
    funext x
    rw [reverseLoop]
    split_ifs with inside
    · rw [show j + i - x = x by omega]
    · rfl
  | succ fuel ih =>
    rw [reverseLoop]
    split_ifs with order
    · rw [ih (by omega)]
      funext x
      obtain rfl | atI := eq_or_ne x i
      · rw [if_neg (by omega), if_pos (by omega), Function.update_self, Nat.add_sub_cancel]
      obtain rfl | atJ := eq_or_ne x j
      · rw [if_neg (by omega), if_pos (by omega), Function.update_of_ne atI, Function.update_self,
          Nat.add_sub_cancel_left]
      by_cases inside : j ≤ x ∧ x ≤ i
      · rw [if_pos (by omega), if_pos inside, Function.update_of_ne (by omega),
          Function.update_of_ne (by omega), show j + 1 + (i - 1) - x = j + i - x by omega]
      · rw [if_neg (by omega), if_neg inside, Function.update_of_ne atI, Function.update_of_ne atJ]
    · funext x
      split_ifs with inside
      · rw [show j + i - x = x by omega]
      · rfl

/-- The loop that moves the first `len` elements, last one first, to the places in front of `size`. -/
def moveUp (len size : Nat) (buf : Nat → α) : Nat → α :=
  (List.range len).foldl (fun buf i => Function.update buf (size - 1 - i) (buf (len - 1 - i))) buf

theorem moveUp_eq {len size : Nat} (longer : len < size) :
    moveUp len size buf = fun x => if size - len ≤ x ∧ x < size then buf (x - (size - len)) else buf x := by
  have steps (n : Nat) (le : n ≤ len) :
      (List.range n).foldl (fun buf i => Function.update buf (size - 1 - i) (buf (len - 1 - i))) buf =
        fun x => if size - n ≤ x ∧ x < size then buf (x - (size - len)) else buf x := by
    induction n with
    | zero =>
      funext x
      rw [List.range_zero, List.foldl_nil, if_neg (by omega)]
    | succ n ih =>
      rw [List.range_succ, List.foldl_append, ih (by omega), List.foldl_cons, List.foldl_nil]
      funext x
      obtain rfl | other := eq_or_ne x (size - 1 - n)
      · have source : ¬(size - n ≤ len - 1 - n ∧ len - 1 - n < size) := by omega
        rw [Function.update_self, if_pos (by omega)]
        dsimp only
        rw [if_neg source, show size - 1 - n - (size - len) = len - 1 - n by omega]
      · rw [Function.update_of_ne other]
        by_cases inside : size - n ≤ x ∧ x < size
        · rw [if_pos inside, if_pos (by omega)]
        · rw [if_neg inside, if_neg (by omega)]
  exact steps len le_rfl

def fillFront (n : Nat) (c : α) (buf : Nat → α) : Nat → α :=
  (List.range n).foldl (fun buf i => Function.update buf i c) buf

theorem fillFront_eq {n : Nat} {c : α} : fillFront n c buf = fun x => if x < n then c else buf x := by
  rw [fillFront]
  induction n with
  | zero =>
    funext x
    rw [List.range_zero, List.foldl_nil, if_neg (Nat.not_lt_zero x)]
  | succ n ih =>
    rw [List.range_succ, List.foldl_append, ih, List.foldl_cons, List.foldl_nil]
    funext x
    obtain rfl | other := eq_or_ne x n
    · rw [Function.update_self, if_pos (Nat.lt_succ_self _)]
    · rw [Function.update_of_ne other]
      by_cases below : x < n
      · rw [if_pos below, if_pos (by omega)]
      · rw [if_neg below, if_neg (by omega)]

/-- The array with the elements `cs` from the index `i` on. -/
def writeAt (i : Nat) (cs : List α) (buf : Nat → α) : Nat → α :=
  fun x => if i ≤ x then cs[x - i]?.getD (buf x) else buf x

theorem writeAt_nil {i : Nat} : writeAt i [] buf = buf := by
  funext x
  rw [writeAt, List.getElem?_nil, Option.getD_none, ite_self]

theorem writeAt_cons {i : Nat} {c : α} {cs : List α} :
    writeAt i (c :: cs) buf = writeAt (i + 1) cs (Function.update buf i c) := by
  funext x
  rw [writeAt, writeAt]
  obtain below | rfl | above := lt_trichotomy x i
  · rw [if_neg (by omega), if_neg (by omega), Function.update_of_ne below.ne]
  · rw [if_pos le_rfl, if_neg (by omega), Nat.sub_self, Function.update_self]
    rfl
  · rw [if_pos above.le, if_pos (by omega), Function.update_of_ne above.ne',
      show x - i = x - (i + 1) + 1 by omega, List.getElem?_cons_succ]

theorem writeAt_inside {cs : List α} {x : Nat} (inside : x < cs.length) :
    writeAt 0 cs buf x = cs[x] := by
  rw [writeAt, if_pos (Nat.zero_le x), Nat.sub_zero, List.getElem?_eq_getElem inside, Option.getD_some]

theorem writeAt_behind {cs : List α} {x : Nat} (behind : cs.length ≤ x) :
    writeAt 0 cs buf x = buf x := by
  rw [writeAt, if_pos (Nat.zero_le x), Nat.sub_zero, List.getElem?_eq_none behind, Option.getD_none]

/-- Moving the elements `cs` up to the end `size` and filling the places they leave. -/
theorem fillFront_moveUp {cs : List α} {size : Nat} {c c' : α} (longer : cs.length < size) :
    fillFront (size - cs.length) c (moveUp cs.length size (writeAt 0 (cs ++ [c']) buf)) =
      writeAt 0 (List.replicate (size - cs.length) c ++ cs) buf := by
  have total : (List.replicate (size - cs.length) c ++ cs).length = size := by
    rw [List.length_append, List.length_replicate]
    omega
  rw [fillFront_eq, moveUp_eq longer]
  funext x
  by_cases front : x < size - cs.length
  · have filled : x < (List.replicate (size - cs.length) c).length := by rwa [List.length_replicate]
    rw [if_pos front, writeAt_inside (by omega), List.getElem_append_left filled,
      List.getElem_replicate]
  by_cases inside : x < size
  · have filled : (List.replicate (size - cs.length) c).length ≤ x := by
      rw [List.length_replicate]
      omega
    have source : x - (size - cs.length) < cs.length := by omega
    rw [if_neg front]
    dsimp only
    rw [if_pos ⟨by omega, inside⟩, writeAt_inside (by rw [List.length_append]; omega),
      List.getElem_append_left source, writeAt_inside (by omega), List.getElem_append_right filled]
    simp only [List.length_replicate]
  · have behind : (cs ++ [c']).length ≤ x := by
      rw [List.length_append, List.length_singleton]
      omega
    rw [if_neg front]
    dsimp only
    rw [if_neg (by omega), writeAt_behind behind, writeAt_behind (by omega)]

/-- The first index below the bound at which the test succeeds. -/
def firstIndex (bound : Nat) (test : Nat → Bool) : Option Nat := (List.range bound).find? test

theorem firstIndex_eq_some {bound n : Nat} {test : Nat → Bool} :
    firstIndex bound test = some n ↔ n < bound ∧ test n = true ∧ ∀ i < n, test i = false := by
  rw [firstIndex, List.find?_range_eq_some, List.mem_range]
  simp only [Bool.not_eq_true']
  exact and_left_comm

theorem firstIndex_eq_none {bound : Nat} {test : Nat → Bool} :
    firstIndex bound test = none ↔ ∀ i < bound, test i = false := by
  rw [firstIndex, List.find?_range_eq_none]
  simp only [Bool.not_eq_true']

theorem firstIndex_congr {bound : Nat} {test test' : Nat → Bool}
    (same : ∀ i < bound, test i = test' i) : firstIndex bound test = firstIndex bound test' :=
  List.find?_congr fun i mem => same i (List.mem_range.mp mem)

end Library.Buffer
