import X86Os.Lai.HashTable
import X86Os.Lai.Names
import Mathlib.Logic.Function.Basic

/-!
# The namespace of lai/core/ns.c

Nodes are created one after the other and carry the hash table of their
children. A node gets its parent when its name is resolved and becomes visible
when it is installed; nodes of a method disappear again when the method returns.
-/

namespace X86Os.Lai

open Library.Memory
set_option autoImplicit false

inductive NodeType
  | root | name | aliased | field | method | device | indexfield | mutex | processor | bufferField
  | thermalzone | event | powerresource | bankfield | opregion
  deriving DecidableEq, Repr

/-- Nodes are named by the order of their creation. -/
abbrev NodeId := Nat

/-- The fields of `lai_nsnode_t` that the namespace itself uses. -/
structure Nsnode where
  name : Nameseg
  type : NodeType
  parent : Option NodeId
  alTarget : Option NodeId
  children : Hashtable NodeId

structure Namespace where
  node : NodeId → Nsnode
  size : Nat
  rootNode : NodeId
  nsArray : List (Option NodeId)
  nsCapacity : Nat

inductive ApiError
  | none
  | unexpectedResult
  deriving DecidableEq, Repr

def laiHashString (str : List Byte) : Word :=
  str.foldl (fun x c => ((x <<< 5) + x) + c.signExtend 32) 5381

namespace Namespace

def setChildren (ns : Namespace) (p : NodeId) (children : Hashtable NodeId) : Namespace :=
  { ns with node := Function.update ns.node p { ns.node p with children := children } }

def create (ns : Namespace) (node : Nsnode) : Namespace :=
  { ns with node := Function.update ns.node ns.size node, size := ns.size + 1 }

end Namespace

/-- The size of `lai_nsnode_t` on i386. -/
def sizeofNsnode : Nat := 128

def laiNsGetChild (ns : Namespace) (parent : NodeId) (name : Nameseg) :
    Except Stop (Option NodeId) :=
  overChain (ns.node parent).children (laiHashString name) fun _ child =>
    if (ns.node child).name = name then some child else none

def growNsArray (ns : Namespace) : Except Stop Namespace := do
  if ns.nsArray.length = ns.nsCapacity then
    let newCapacity := if ns.nsCapacity * 2 = 0 then 128 else ns.nsCapacity * 2
    let newArray ← laihostRealloc (4 * newCapacity) (4 * ns.nsCapacity) ns.nsArray
    .ok { ns with nsArray := newArray, nsCapacity := newCapacity }
  else .ok ns

def laiInstallNsnode (ns : Namespace) (node : NodeId) :
    Except Stop (Namespace × ApiError) := do
  let ns ← growNsArray ns
  let ns := { ns with nsArray := ns.nsArray ++ [some node] }
  match (ns.node node).parent with
  | none => .ok (ns, .none)
  | some parent =>
    let h := laiHashString (ns.node node).name
    let twin ← overChain (ns.node parent).children h fun _ child =>
      if (ns.node child).name = (ns.node node).name then some child else none
    match twin with
    | some _ => .ok (ns, .unexpectedResult)
    | none =>
      let children ← laiHashtableInsert (ns.node parent).children h node
      .ok (ns.setChildren parent children, .none)

def laiUninstallNsnode (ns : Namespace) (node : NodeId) : Except Stop Namespace := do
  let ns := { ns with nsArray := ns.nsArray.map fun n => if n = some node then none else n }
  match (ns.node node).parent with
  | none => .ok ns
  | some parent =>
    let h := laiHashString (ns.node node).name
    let place ← overChain (ns.node parent).children h fun i child =>
      if child = node then some i else none
    match place with
    | none => .error .ensure
    | some i =>
      let children ← laiHashtableChainRemove (ns.node parent).children h i
      -- The sanity check behind the removal goes on from the same cursor.
      let again ← chainLoop children h (fun _ child => if child = node then some child else none)
        (children.bucketCapacity + 1) (i + 1)
      match again with
      | some _ => .error .ensure
      | none => .ok (ns.setChildren parent children)

/-- `while (current->parent) current = current->parent`; nodes are younger than their parents. -/
def climbToRoot (ns : Namespace) : Nat → NodeId → Except Stop NodeId
  | 0, _ => .error .wild
  | turns + 1, current =>
    match (ns.node current).parent with
    | none => do
      laiEnsure ((ns.node current).type = .root)
      .ok current
    | some parent => climbToRoot ns turns parent

def climb (ns : Namespace) : Nat → NodeId → Except Stop NodeId
  | 0, current => .ok current
  | height + 1, current =>
    match (ns.node current).parent with
    | none => do
      laiEnsure ((ns.node current).type = .root)
      .ok current
    | some parent => climb ns height parent

def throughAlias (ns : Namespace) (node : NodeId) : Except Stop NodeId := do
  if (ns.node node).type = .aliased then
    match (ns.node node).alTarget with
    | none => .error .wild
    | some target =>
      laiEnsure ((ns.node target).type ≠ .aliased)
      .ok target
  else .ok node

def startOf (ns : Namespace) (ctxHandle : NodeId) (amln : Amlname) : Except Stop NodeId := do
  let current ← if amln.isAbsolute then climbToRoot ns (ctxHandle + 1) ctxHandle else .ok ctxHandle
  climb ns amln.height current

def searchScopes (ns : Namespace) (segment : Nameseg) : Nat → NodeId → Except Stop (Option NodeId)
  | 0, _ => .error .wild
  | turns + 1, current => do
    match ← laiNsGetChild ns current segment with
    | some node =>
      let node ← throughAlias ns node
      .ok (some node)
    | none =>
      match (ns.node current).parent with
      | none => .ok none
      | some parent => searchScopes ns segment turns parent

def followSegs (ns : Namespace) : Nat → Amlname → NodeId → Except Stop (Option NodeId)
  | 0, _, current => .ok (some current)
  | turns + 1, amln, current => do
    if laiAmlnameDone amln then .ok (some current)
    else
      let (segment, amln) ← laiAmlnameIterate amln
      match ← laiNsGetChild ns current segment with
      | none => .ok none
      | some child => followSegs ns turns amln child

def laiDoResolve (ns : Namespace) (ctxHandle : NodeId) (amln : Amlname) :
    Except Stop (Option NodeId) := do
  laiEnsure ((ns.node ctxHandle).type ≠ .aliased)
  if amln.searchScopes then
    let (segment, amln) ← laiAmlnameIterate amln
    laiEnsure (laiAmlnameDone amln)
    searchScopes ns segment (ctxHandle + 1) ctxHandle
  else
    let current ← startOf ns ctxHandle amln
    if laiAmlnameDone amln then .ok (some current)
    else
      match ← followSegs ns amln.left amln current with
      | none => .ok none
      | some current =>
        let node ← throughAlias ns current
        .ok (some node)

/-- The loop that finds the parent of a new node; its last segment is the node's name. -/
def followToParent (ns : Namespace) : Nat → Amlname → NodeId → Except Stop (NodeId × Nameseg)
  | 0, _, _ => .error .wild
  | turns + 1, amln, parent => do
    let (segment, amln) ← laiAmlnameIterate amln
    if laiAmlnameDone amln then .ok (parent, segment)
    else
      match ← laiNsGetChild ns parent segment with
      | none => .error .ensure
      | some child =>
        let parent ← throughAlias ns child
        followToParent ns turns amln parent

def laiDoResolveNewNode (ns : Namespace) (ctxHandle : NodeId) (amln : Amlname) :
    Except Stop (NodeId × Nameseg) := do
  laiEnsure ((ns.node ctxHandle).type ≠ .aliased)
  let parent ← startOf ns ctxHandle amln
  laiEnsure (laiAmlnameDone amln = false)
  followToParent ns amln.left amln parent

/-- What the cases of lai/core/exec.c that define a named object share. -/
def defineNode (ns : Namespace) (ctxHandle : NodeId) (data : List Byte)
    (type : NodeType) : Except Stop (Namespace × ApiError) := do
  let (amln, _) ← laiAmlnameParse data
  laihostMalloc sizeofNsnode
  let (parent, name) ← laiDoResolveNewNode ns ctxHandle amln
  laiInstallNsnode (ns.create ⟨name, type, some parent, none, .zeroed⟩) ns.size

def defineAlias (ns : Namespace) (ctxHandle : NodeId) (target data : List Byte) :
    Except Stop (Namespace × ApiError) := do
  let (targetAmln, _) ← laiAmlnameParse target
  let (destAmln, _) ← laiAmlnameParse data
  laihostMalloc sizeofNsnode
  match ← laiDoResolve ns ctxHandle targetAmln with
  | none => .error .ensure
  | some alTarget =>
    let (parent, name) ← laiDoResolveNewNode ns ctxHandle destAmln
    laiInstallNsnode (ns.create ⟨name, .aliased, some parent, some alTarget, .zeroed⟩) ns.size

def nameOf (a b c d : Char) : Nameseg :=
  ⟨[BitVec.ofNat 8 a.toNat, BitVec.ofNat 8 b.toNat, BitVec.ofNat 8 c.toNat, BitVec.ofNat 8 d.toNat],
    rfl⟩

/-- The nodes that `lai_create_root` installs below the root. -/
def predefined : List (Nameseg × NodeType) :=
  [(nameOf '_' 'S' 'B' '_', .device), (nameOf '_' 'S' 'I' '_', .device),
    (nameOf '_' 'G' 'P' 'E', .device), (nameOf '_' 'P' 'R' '_', .device),
    (nameOf '_' 'T' 'Z' '_', .device), (nameOf '_' 'O' 'S' 'I', .method),
    (nameOf '_' 'O' 'S' '_', .method), (nameOf '_' 'R' 'E' 'V', .method)]

def rootOnly : Namespace where
  node _ := ⟨nameOf '\\' '_' '_' '_', .root, none, none, .zeroed⟩
  size := 1
  rootNode := 0
  nsArray := []
  nsCapacity := 0

/-- One predefined node; its result is not looked at. -/
def installPredefined (ns : Namespace) (object : Nameseg × NodeType) :
    Except Stop Namespace := do
  laihostMalloc sizeofNsnode
  let (ns, _) ← laiInstallNsnode
    (ns.create ⟨object.1, object.2, some ns.rootNode, none, .zeroed⟩) ns.size
  .ok ns

def laiCreateRoot : Except Stop Namespace := do
  laihostMalloc sizeofNsnode
  predefined.foldlM (installPredefined) rootOnly

end X86Os.Lai
