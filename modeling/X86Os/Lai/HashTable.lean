import X86Os.Lai.Host
import X86Os.Library.Slots

/-!
# The hash table of lai/core/util-hash.h

Elements sit in a table of their own and keep their index; the buckets hold such
indices. An element is put into the first free bucket from its hash on, and a
search by hash goes once around all buckets, so that clearing a bucket never
hides another element.
-/

namespace X86Os.Lai

open Library.Memory
set_option autoImplicit false

variable {α : Type}

/-- `struct lai_hashtable`; the tables are freed and replaced together. -/
structure Hashtable (α : Type) where
  elemCapacity : Nat
  bucketCapacity : Nat
  numElems : Int
  elemPtrTab : List (Option α)
  elemHashTab : List Word
  bucketTab : List Int
  deriving Repr

def Hashtable.zeroed : Hashtable α := ⟨0, 0, 0, [], [], []⟩

def bucketAt (m : Nat) (h : Word) (i : Nat) : Nat :=
  ((h + BitVec.ofNat 32 i) &&& (BitVec.ofNat 32 m - 1)).toNat

/-- The loop that puts `k` into the first free bucket; `left` buckets are still to be tried. -/
def placeBucket (m : Nat) (h : Word) (k : Nat) (tab : List Int) : Nat → Except Stop (List Int)
  | 0 => .error .ensure
  | left + 1 => do
    let b := bucketAt m h (m - (left + 1))
    let old ← readAt tab b
    if old < 0 then .ok (tab.set b k) else placeBucket m h k tab left

structure GrownTabs (α : Type) where
  newElemPtrTab : List (Option α)
  newElemHashTab : List Word
  newBucketTab : List Int

def carryOver (ht : Hashtable α) (m : Nat) (tabs : GrownTabs α) (k : Nat) :
    Except Stop (GrownTabs α) := do
  match ← readAt ht.elemPtrTab k with
  | none => .ok tabs
  | some elem =>
    let h ← readAt ht.elemHashTab k
    let buckets ← placeBucket m h k tabs.newBucketTab m
    .ok ⟨tabs.newElemPtrTab.set k (some elem), tabs.newElemHashTab.set k h, buckets⟩

/-- `malloc` leaves the hashes of free slots undefined; they are zero here and never read. -/
def laiHashtableGrow (ht : Hashtable α) (n m : Nat) : Except Stop (Hashtable α) := do
  laiEnsure (ht.elemCapacity ≤ n)
  laiEnsure (ht.bucketCapacity ≤ m)
  laihostMalloc (n * 4)
  laihostMalloc (n * 4)
  laihostMalloc (m * 4)
  let tabs ← (List.range ht.elemCapacity).foldlM (carryOver ht m)
    ⟨List.replicate n none, List.replicate n 0, List.replicate m (-1)⟩
  .ok ⟨n, m, ht.numElems, tabs.newElemPtrTab, tabs.newElemHashTab, tabs.newBucketTab⟩

def growIfFull (ht : Hashtable α) : Except Stop (Hashtable α) :=
  if ht.elemCapacity = 0 ∨ ht.bucketCapacity = 0 then laiHashtableGrow ht 2 4
  else if ht.elemCapacity ≤ ht.numElems + 1 then
    laiHashtableGrow ht (2 * ht.elemCapacity) (2 * ht.bucketCapacity)
  else .ok ht

def laiHashtableInsert (ht : Hashtable α) (h : Word) (elem : α) :
    Except Stop (Hashtable α) := do
  let ht ← growIfFull ht
  let k := ht.elemPtrTab.findIdx Option.isNone
  laiEnsure (k < ht.elemCapacity)
  let buckets ← placeBucket ht.bucketCapacity h k ht.bucketTab ht.bucketCapacity
  .ok { ht with
    numElems := ht.numElems + 1
    elemPtrTab := ht.elemPtrTab.set k (some elem)
    elemHashTab := ht.elemHashTab.set k h
    bucketTab := buckets }

/-- The loop of an advance from position `i` on, with `left` positions before the end. -/
def advanceFrom (ht : Hashtable α) (h : Word) : Nat → Nat → Except Stop (Option Nat)
  | 0, _ => .ok none
  | left + 1, i => do
    let k ← readAt ht.bucketTab (bucketAt ht.bucketCapacity h i)
    if 0 ≤ k then
      let hash ← readAt ht.elemHashTab k.toNat
      if hash = h then .ok (some i) else advanceFrom ht h left (i + 1)
    else advanceFrom ht h left (i + 1)

/-- The cursor is one more than `chain->i`, which starts at -1. `none` is a return of 1, and
`some i` the new `chain->i`. -/
def laiHashtableChainAdvance (ht : Hashtable α) (h : Word) (next : Nat) :
    Except Stop (Option Nat) := do
  laiEnsure (next ≤ ht.bucketCapacity)
  advanceFrom ht h (ht.bucketCapacity - next) next

def chainSlot (ht : Hashtable α) (h : Word) (i : Nat) : Except Stop Nat := do
  laiEnsure (i < ht.bucketCapacity)
  let k ← readAt ht.bucketTab (bucketAt ht.bucketCapacity h i)
  laiEnsure (0 ≤ k)
  .ok k.toNat

def laiHashtableChainGet (ht : Hashtable α) (h : Word) (i : Nat) : Except Stop α := do
  let k ← chainSlot ht h i
  match ← readAt ht.elemPtrTab k with
  | none => .error .ensure
  | some elem => .ok elem

def laiHashtableChainRemove (ht : Hashtable α) (h : Word) (i : Nat) :
    Except Stop (Hashtable α) := do
  let k ← chainSlot ht h i
  .ok { ht with
    elemPtrTab := ht.elemPtrTab.set k none
    bucketTab := ht.bucketTab.set (bucketAt ht.bucketCapacity h i) (-1)
    numElems := ht.numElems - 1 }

/-- The loop `while (!lai_hashtable_chain_advance(…))` of the callers, which look at one element
after the other until `visit` has an answer. Every turn moves the cursor on, so that
`bucket_capacity + 1` turns suffice. -/
def chainLoop {β : Type} (ht : Hashtable α) (h : Word) (visit : Nat → α → Option β) :
    Nat → Nat → Except Stop (Option β)
  | 0, _ => .error .wild
  | turns + 1, next => do
    match ← laiHashtableChainAdvance ht h next with
    | none => .ok none
    | some i =>
      let elem ← laiHashtableChainGet ht h i
      match visit i elem with
      | some answer => .ok (some answer)
      | none => chainLoop ht h visit turns (i + 1)

def overChain {β : Type} (ht : Hashtable α) (h : Word) (visit : Nat → α → Option β) :
    Except Stop (Option β) :=
  chainLoop ht h visit (ht.bucketCapacity + 1) 0

end X86Os.Lai
