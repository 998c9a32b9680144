import RegionHeap.Memory
import RegionHeap.Walk

/-!
# Chains

A chain is a doubly linked sequence of nodes that already live in memory. Its links are two words
inside each node, `hook` bytes from the node's start: the address of the node before and of the node
after. A node can be in several chains at once as long as their hooks differ. A chain never makes
room for anything; it only rewires links.

Runs of nodes are moved whole: `unlinkRun` detaches a run, which keeps its inner links, and
`spliceBefore` links a detached run in again. Single nodes are runs of one. A change rewires the links
first and counts afterwards, so one that is stopped because the length would leave its range has
rewired them all the same.
-/

set_option autoImplicit false

namespace RegionHeap

/-- Both ends and the length of a chain through the links at `hook`. -/
structure Chain (hook : Nat) where
  head : Option Nat := none
  tail : Option Nat := none
  length : Nat := 0
  deriving DecidableEq, Repr

/-- A change of a chain and of the links in memory, which may be stopped by a fault. -/
abbrev ChainM (hook : Nat) := EStateM Fault (Memory × Chain hook)

namespace Chain

variable {hook : Nat}

/-- The chain without nodes. -/
def empty : Chain hook := {}

instance : Inhabited (Chain hook) := ⟨empty⟩

/-! ### Links of one node -/

/-- The node before `node`. -/
def prev (hook : Nat) (m : Memory) (node : Nat) : Option Nat :=
  m.link (node + hook)

/-- The node after `node`. -/
def next (hook : Nat) (m : Memory) (node : Nat) : Option Nat :=
  m.link (node + hook + wordSize)

/-- Lets `target` be the node before `node`. -/
def setPrev (hook : Nat) (m : Memory) (node : Nat) (target : Option Nat) : Memory :=
  m.setLink (node + hook) target

/-- Lets `target` be the node after `node`. -/
def setNext (hook : Nat) (m : Memory) (node : Nat) (target : Option Nat) : Memory :=
  m.setLink (node + hook + wordSize) target

/-- Lets `target` be the node before `node`, if there is one. -/
def setPrev? (hook : Nat) (m : Memory) (node target : Option Nat) : Memory :=
  match node with
  | some node => setPrev hook m node target
  | none => m

/-- Lets `target` be the node after `node`, if there is one. -/
def setNext? (hook : Nat) (m : Memory) (node target : Option Nat) : Memory :=
  match node with
  | some node => setNext hook m node target
  | none => m

/-! ### Linking in -/

/-- Puts the run `first … last` between `left` and `right`, which are neighbours. -/
def wire (hook : Nat) (m : Memory) (left : Option Nat) (first last : Nat) (right : Option Nat) :
    Memory :=
  let m := setPrev hook m first left
  let m := setNext hook m last right
  let m := setNext? hook m left (some first)
  setPrev? hook m right (some last)

/-- The member before the member `node`, or the last one for `none`. -/
def lastBefore (c : Chain hook) (m : Memory) : Option Nat → Option Nat
  | some node => prev hook m node
  | none => c.tail

/-- Sets the length to what `count` makes of it, if that is a word. -/
def recount (count : Nat → Except Fault Nat) : ChainM hook Unit := do
  let (m, c) ← get
  let length ← count c.length
  let counted : Chain hook := { c with length }
  set (m, counted)

/-- Links the detached run `first … last` of `count` nodes right before the member `before`, or at
the end for `none`. -/
def spliceBefore (before : Option Nat) (first last count : Nat) : ChainM hook Unit := do
  let (m, c) ← get
  let left := c.lastBefore m before
  let ends : Chain hook := { c with
    head := if left.isSome then c.head else some first
    tail := if before.isSome then c.tail else some last }
  set (wire hook m left first last before, ends)
  recount (Word.add · count)

/-- Links `node` right before the member `before`, or at the end for `none`. -/
def insertBefore (before : Option Nat) (node : Nat) : ChainM hook Unit :=
  spliceBefore before node node 1

/-- Links `node` right after the member `after`. -/
def insertAfter (after node : Nat) : ChainM hook Unit := do
  let (m, _) ← get
  insertBefore (next hook m after) node

/-- Links `node` at the end. -/
def pushBack (node : Nat) : ChainM hook Unit :=
  insertBefore none node

/-! ### Unlinking -/

/-- The number of nodes from `first` to `last`, found by following at most `steps` links. -/
def runLength (hook : Nat) (m : Memory) (last : Nat) : Nat → Nat → Except Fault Nat
  | steps, first =>
    if first = last then .ok 1
    else match steps, next hook m first with
      | steps + 1, some node => (· + 1) <$> runLength hook m last steps node
      | _, _ => .error .endNotReachable

/-- Takes the run `first … last` out from between `left` and `right`, which become neighbours. -/
def unwire (hook : Nat) (m : Memory) (left : Option Nat) (first last : Nat) (right : Option Nat) :
    Memory :=
  let m := setNext? hook m left right
  let m := setPrev? hook m right left
  let m := setPrev hook m first none
  setNext hook m last none

/-- Detaches the run `first … last` of members, which keeps its inner links, and counts it. Nothing
changes when `last` does not follow `first`. -/
def unlinkRun (first last : Nat) : ChainM hook Nat := do
  let (m, c) ← get
  let count ← runLength hook m last c.length first
  let left := prev hook m first
  let right := next hook m last
  let ends : Chain hook := { c with
    head := if left.isSome then c.head else right
    tail := if right.isSome then c.tail else left }
  set (unwire hook m left first last right, ends)
  recount (Word.sub · count)
  return count

/-- Unlinks the member `node`. -/
def remove (node : Nat) : ChainM hook Unit :=
  discard (unlinkRun node node)

/-! ### Walking -/

/-- A place in a walk through a chain: the node to visit next and how many the chain has left to
give. -/
structure Cursor (hook : Nat) where
  current : Option Nat
  remaining : Nat
  deriving DecidableEq, Repr

/-- The place where a walk starts. -/
def cursor (c : Chain hook) : Cursor hook :=
  ⟨c.head, c.length⟩

namespace Cursor

/-- Visits one node. The call stops when the links give more nodes than the chain counted. -/
def advance (cur : Cursor hook) (m : Memory) : Except Fault (Option Nat × Cursor hook) :=
  match cur.current with
  | none => .ok (none, cur)
  | some node => do
    let remaining ← Word.sub cur.remaining 1
    return (some node, ⟨next hook m node, remaining⟩)

/-- Visits `k` times. -/
def take (cur : Cursor hook) (m : Memory) : Nat → Except Fault (List (Option Nat) × Cursor hook)
  | 0 => .ok ([], cur)
  | k + 1 => do
    let (node, cur) ← cur.advance m
    let (nodes, cur) ← cur.take m k
    return (node :: nodes, cur)

/-- Bounds on the number of nodes still to be visited. -/
def sizeHint (cur : Cursor hook) : Nat × Option Nat :=
  (cur.remaining, some cur.remaining)

end Cursor

/-- The walk along the links from a node on, of which the chain counted `remaining`. -/
def walkFrom (hook : Nat) (m : Memory) : Nat → Option Nat → Walk Nat
  | _, none => .ofList []
  | 0, some _ => ⟨[], true⟩
  | remaining + 1, some node => (walkFrom hook m remaining (next hook m node)).cons node

/-- The walk through a chain, first to last. -/
def walk (c : Chain hook) (m : Memory) : Walk Nat :=
  walkFrom hook m c.length c.head

/-- The nodes of a chain, first to last. -/
def members (c : Chain hook) (m : Memory) : Except Fault (List Nat) :=
  (c.walk m).all

/-- The nodes met by following at most `steps` links from `start` back. -/
def walkBack (hook : Nat) (m : Memory) : Nat → Option Nat → List Nat
  | steps + 1, some node => node :: walkBack hook m steps (prev hook m node)
  | _, _ => []

/-- The nodes of a chain, last to first. -/
def membersBack (c : Chain hook) (m : Memory) : List Nat :=
  walkBack hook m c.length c.tail

end Chain

end RegionHeap
