import LinuxNote.Lib.Outcome
import LinuxNote.Lib.Radix

/-! The radix tree of `lib/radix-tree.c`. Nodes are in memory, at addresses; slots hold entries, which
    are null, an item of the user or a node. `alloc` says which allocations of a run succeed. Every
    attempt has its own number, which is also the address of the node when it succeeds, so that addresses
    are never used twice. -/

namespace LinuxNote.RadixTree
open Radix Function Prod

/-- The configuration: `RADIX_TREE_MAP_SHIFT`. -/
class Config where
  mapShift : ℕ
  pos : 0 < mapShift

/-- What users store: pointers and value entries, never null and never internal entries. -/
inductive Item where
  | pointer (p : ℕ)
  | value (v : ℕ)
  deriving DecidableEq

/-- What a slot holds; `node` is an internal entry. -/
inductive Entry where
  | null
  | item (item : Item)
  | node (n : ℕ)
  deriving DecidableEq

/-- `xa_is_value`. -/
def Entry.isValue : Entry → Bool
  | .item (.value _) => true
  | _ => false

/-- `RADIX_TREE_MAX_TAGS` is 3. -/
abbrev Tag := Fin 3

/-- `IDR_FREE`. -/
def idrFree : Tag := 0

/-- `struct radix_tree_node`. -/
structure Node where
  shift : ℕ
  offset : ℕ
  count : ℕ
  nrValues : ℕ
  parent : Option ℕ
  slots : ℕ → Entry
  tags : Tag → ℕ → Bool

/-- `struct radix_tree_root`, with the nodes in memory and the number of the next allocation; `isIdr` is
    the flag `ROOT_IS_IDR`. -/
structure Tree where
  isIdr : Bool
  xaHead : Entry
  rootTags : Tag → Bool
  nodes : ℕ → Node
  next : ℕ

/-- A pointer to a slot: a node and an offset, or `&root->xa_head`. -/
abbrev Slot := Option (ℕ × ℕ)

/-- A call that does not come back: a `BUG_ON`, or a loop without fuel. -/
inductive Fault where
  | bug | fuel
  deriving DecidableEq

/-- `BITS_PER_LONG`. -/
def bitsPerLong : ℕ := 64

/-- Fuel for the loops: more than the number of levels. -/
def maxSteps : ℕ := bitsPerLong + 1

section
variable [Config]

/-- `RADIX_TREE_MAP_SIZE`. -/
def mapSize : ℕ := 2 ^ Config.mapShift

/-- `shift_maxindex`, in 64 bits. -/
def shiftMaxindex (shift : ℕ) : ℕ :=
  (mapSize * 2 ^ shift % 2 ^ bitsPerLong + (2 ^ bitsPerLong - 1)) % 2 ^ bitsPerLong

/-- The offset of `radix_tree_descend`. -/
def Node.descend (node : Node) (index : ℕ) : ℕ := digit Config.mapShift node.shift index

/-- `all_tag_set`. -/
def Node.allTagSet (node : Node) (tag : Tag) : Node :=
  { node with tags := update node.tags tag fun offset => decide (offset < mapSize) }

/-- `any_tag_set`. -/
def Node.anyTagSet (node : Node) (tag : Tag) : Bool := (List.range mapSize).any (node.tags tag)

end

def Node.setSlot (node : Node) (offset : ℕ) (entry : Entry) : Node :=
  { node with slots := update node.slots offset entry }

/-- `tag_set` and `tag_clear`. -/
def Node.putTag (node : Node) (tag : Tag) (offset : ℕ) (b : Bool) : Node :=
  { node with tags := update node.tags tag (update (node.tags tag) offset b) }

/-- A node as `radix_tree_node_alloc` sets it up, from memory that is zero. -/
def newNode (parent : Option ℕ) (shift offset count nrValues : ℕ) : Node :=
  ⟨shift, offset, count, nrValues, parent, fun _ => .null, fun _ _ => false⟩

namespace Tree

variable (t : Tree)

def modify (n : ℕ) (f : Node → Node) : Tree :=
  { t with nodes := update t.nodes n (f (t.nodes n)) }

/-- `*slot`. -/
def read : Slot → Entry
  | none => t.xaHead
  | some (n, offset) => (t.nodes n).slots offset

/-- `rcu_assign_pointer(*slot, entry)`. -/
def assign (slot : Slot) (entry : Entry) : Tree :=
  match slot with
  | none => { t with xaHead := entry }
  | some (n, offset) => t.modify n fun node => node.setSlot offset entry

/-- The slot that a node is in, by its parent and offset. -/
def home (n : ℕ) : Slot := (t.nodes n).parent.map fun p => (p, (t.nodes n).offset)

/-- `radix_tree_node_free`. -/
def free (n : ℕ) : Tree := t.modify n fun _ => newNode none 0 0 0 0

/-- `root_tag_set` and `root_tag_clear`. -/
def putRootTag (tag : Tag) (b : Bool) : Tree :=
  { t with rootTags := update t.rootTags tag b }

/-- The next allocation, when it succeeds. -/
def place (node : Node) : Tree :=
  { t with nodes := update t.nodes t.next node, next := t.next + 1 }

/-- The next allocation, when it fails. -/
def skip : Tree := { t with next := t.next + 1 }

/-- `radix_tree_node_alloc`; `none` when there is no memory. -/
def nodeAlloc (alloc : ℕ → Bool) (parent : Option ℕ) (shift offset count nrValues : ℕ) (t : Tree) :
    Option ℕ × Tree :=
  if alloc t.next then (some t.next, t.place (newNode parent shift offset count nrValues))
  else (none, t.skip)

end Tree

section
variable [Config] (t : Tree)

/-- `radix_tree_load_root`: the shift above the root, and the largest index. -/
def loadRoot : ℕ × ℕ :=
  match t.xaHead with
  | .node n => ((t.nodes n).shift + Config.mapShift, shiftMaxindex (t.nodes n).shift)
  | _ => (0, 0)

/-! ### Growing -/

/-- The first loop of `radix_tree_extend`. -/
def maxShift (index : ℕ) : ℕ → ℕ → Except Fault ℕ
  | 0, _ => .error .fuel
  | fuel + 1, maxshift =>
    if index > shiftMaxindex maxshift then maxShift index fuel (maxshift + Config.mapShift)
    else .ok maxshift

/-- The tags of the root are set for the first slot of the node. -/
def Node.inheritTags (node : Node) (rootTags : Tag → Bool) : Node :=
  { node with tags := fun tag =>
      if rootTags tag then update (node.tags tag) 0 true else node.tags tag }

/-- The tags of the new node `n`, which is to be above the root. In an IDR all its slots are free, but
    for the first one when nothing below is free. -/
def pushTags (n : ℕ) (t : Tree) : Tree :=
  if t.isIdr then
    let t := t.modify n fun node => node.allTagSet idrFree
    if t.rootTags idrFree then t
    else (t.modify n fun node => node.putTag idrFree 0 false).putRootTag idrFree true
  else t.modify n fun node => node.inheritTags t.rootTags

/-- The entry that is to be below the node `n`: a node gets a new parent, and a value is counted. -/
def adopt (n : ℕ) (entry : Entry) (t : Tree) : Tree :=
  match entry with
  | .node r => t.modify r fun node => { node with parent := some n }
  | _ => if entry.isValue then t.modify n fun node => { node with nrValues := 1 } else t

/-- The new node `n` becomes the root, above the entry of the old one. -/
def pushTop (n : ℕ) (t : Tree) : Tree :=
  ((adopt n t.xaHead (pushTags n t)).assign (some (n, 0)) t.xaHead).assign none (.node n)

variable (alloc : ℕ → Bool)

/-- The second loop of `radix_tree_extend`; `false` for `-ENOMEM`. -/
def extendLoop (maxshift : ℕ) : ℕ → ℕ → Tree → Except Fault (Bool × Tree)
  | 0, _, _ => .error .fuel
  | fuel + 1, shift, t =>
    match t.nodeAlloc alloc none shift 0 1 0 with
    | (none, t) => .ok (false, t)
    | (some n, t) =>
      if shift > bitsPerLong then .error .bug
      else if shift + Config.mapShift ≤ maxshift then
        extendLoop maxshift fuel (shift + Config.mapShift) (pushTop n t)
      else .ok (true, pushTop n t)

/-- `radix_tree_extend`; `none` for `-ENOMEM`. -/
def extend (index shift : ℕ) (t : Tree) : Except Fault (Option ℕ × Tree) := do
  let maxshift ← maxShift index maxSteps shift
  if t.xaHead = .null ∧ (!t.isIdr || t.rootTags idrFree) then
    return (some (maxshift + Config.mapShift), t)
  let p ← extendLoop alloc maxshift maxSteps shift t
  return (if p.1 then some (maxshift + Config.mapShift) else none, p.2)

/-- A new child node is put into the slot. -/
def linkChild (slot : Slot) (n : ℕ) (t : Tree) : Tree :=
  match slot with
  | none => t.assign none (.node n)
  | some (p, offset) =>
    (t.assign (some (p, offset)) (.node n)).modify p fun node => { node with count := node.count + 1 }

/-- The slot for an index in the node `n`. -/
def slotIn (n index : ℕ) : Slot := some (n, (t.nodes n).descend index)

/-- The loop of `__radix_tree_create`; `none` for `-ENOMEM`. -/
def createLoop (index : ℕ) : ℕ → ℕ → Slot → Tree → Except Fault (Option Slot × Tree)
  | 0, _, _, _ => .error .fuel
  | fuel + 1, shift, slot, t =>
    if shift = 0 then .ok (some slot, t)
    else match t.read slot with
      | .null =>
        match t.nodeAlloc alloc (slot.map fst) (shift - Config.mapShift) ((slot.map snd).getD 0) 0 0 with
        | (none, t) => .ok (none, t)
        | (some n, t) =>
          let t := linkChild slot n t
          createLoop index fuel (shift - Config.mapShift) (slotIn t n index) t
      | .item _ => .ok (some slot, t)
      | .node n => createLoop index fuel (shift - Config.mapShift) (slotIn t n index) t

/-- `__radix_tree_create`; `none` for `-ENOMEM`. -/
def create (index : ℕ) (t : Tree) : Except Fault (Option Slot × Tree) := do
  let (shift, maxindex) := loadRoot t
  if index > maxindex then
    let p ← extend alloc index shift t
    match p.1 with
    | none => return (none, p.2)
    | some shift => createLoop alloc index maxSteps shift none p.2
  else createLoop alloc index maxSteps shift none t

/-- What `radix_tree_insert` returns: 0, `-EEXIST` or `-ENOMEM`. -/
inductive Status where
  | ok | exist | nomem
  deriving DecidableEq

/-- `insert_entries`; `none` for `-EEXIST`. -/
def insertEntries (slot : Slot) (item : Item) (t : Tree) : Option Tree :=
  if t.read slot ≠ .null then none
  else match slot with
    | none => some (t.assign none (.item item))
    | some (n, offset) =>
      some ((t.assign (some (n, offset)) (.item item)).modify n fun node =>
        { node with
          count := node.count + 1
          nrValues := node.nrValues + (if (Entry.item item).isValue then 1 else 0) })

/-- The `BUG_ON`s of `radix_tree_insert`: a tag in the slot that was empty. -/
def staleTags (slot : Slot) (t : Tree) : Bool :=
  match slot with
  | some (n, offset) =>
    (t.nodes n).tags 0 offset || (t.nodes n).tags 1 offset || (t.nodes n).tags 2 offset
  | none => t.rootTags 0 || t.rootTags 1 || t.rootTags 2

/-- `radix_tree_insert`. -/
def insert (index : ℕ) (item : Item) (t : Tree) : Except Fault (Status × Tree) := do
  let p ← create alloc index t
  match p.1 with
  | none => return (.nomem, p.2)
  | some slot =>
    match insertEntries slot item p.2 with
    | none => return (.exist, p.2)
    | some t => if staleTags slot t then .error .bug else return (.ok, t)

/-! ### Lookup -/

/-- The loop of `__radix_tree_lookup`. -/
def lookupLoop (index : ℕ) : ℕ → Slot → Except Fault (Entry × Slot)
  | 0, _ => .error .fuel
  | fuel + 1, slot =>
    match t.read slot with
    | .node n =>
      if (t.nodes n).shift = 0 then .ok (t.read (slotIn t n index), slotIn t n index)
      else lookupLoop index fuel (slotIn t n index)
    | entry => .ok (entry, slot)

/-- `__radix_tree_lookup`: the entry with its slot, and `none` when the tree is not high enough. -/
def lookupSlot (index : ℕ) : Except Fault (Option (Entry × Slot)) :=
  if index > (loadRoot t).2 then .ok none
  else (lookupLoop t index maxSteps none).map some

/-- `radix_tree_lookup`. -/
def lookup (index : ℕ) : Except Fault Entry :=
  (lookupSlot t index).map fun p => (p.map fst).getD .null

/-! ### Tags -/

/-- The loop of `radix_tree_tag_set`. -/
def tagSetLoop (index : ℕ) (tag : Tag) : ℕ → Entry → Tree → Except Fault (Entry × Tree)
  | 0, _, _ => .error .fuel
  | fuel + 1, .node n, t =>
    let offset := (t.nodes n).descend index
    if (t.nodes n).slots offset = .null then .error .bug
    else tagSetLoop index tag fuel ((t.nodes n).slots offset)
      (t.modify n fun node => node.putTag tag offset true)
  | _ + 1, entry, t => .ok (entry, t)

/-- `radix_tree_tag_set`. -/
def tagSet (index : ℕ) (tag : Tag) (t : Tree) : Except Fault (Entry × Tree) :=
  if index > (loadRoot t).2 then .error .bug
  else (tagSetLoop index tag maxSteps t.xaHead t).map fun p => (p.1, p.2.putRootTag tag true)

/-- `node_tag_set`. -/
def nodeTagSet (tag : Tag) : ℕ → Slot → Tree → Except Fault Tree
  | 0, _, _ => .error .fuel
  | _ + 1, none, t => .ok (t.putRootTag tag true)
  | fuel + 1, some (n, offset), t =>
    if (t.nodes n).tags tag offset then .ok t
    else nodeTagSet tag fuel (t.home n) (t.modify n fun node => node.putTag tag offset true)

/-- `node_tag_clear`. -/
def nodeTagClear (tag : Tag) : ℕ → Slot → Tree → Except Fault Tree
  | 0, _, _ => .error .fuel
  | _ + 1, none, t => .ok (t.putRootTag tag false)
  | fuel + 1, some (n, offset), t =>
    if !(t.nodes n).tags tag offset then .ok t
    else
      let t := t.modify n fun node => node.putTag tag offset false
      if (t.nodes n).anyTagSet tag then .ok t
      else nodeTagClear tag fuel (t.home n) t

/-- The loop of `radix_tree_tag_clear`. -/
def tagClearLoop (index : ℕ) : ℕ → Slot → Except Fault (Entry × Slot)
  | 0, _ => .error .fuel
  | fuel + 1, slot =>
    match t.read slot with
    | .node n => tagClearLoop index fuel (slotIn t n index)
    | entry => .ok (entry, slot)

/-- `radix_tree_tag_clear`. -/
def tagClear (index : ℕ) (tag : Tag) (t : Tree) : Except Fault (Entry × Tree) := do
  if index > (loadRoot t).2 then return (.null, t)
  let p ← tagClearLoop t index maxSteps none
  if p.1 = .null then return (.null, t)
  let t ← nodeTagClear tag maxSteps p.2 t
  return (p.1, t)

/-- The loop of `radix_tree_tag_get`. -/
def tagGetLoop (index : ℕ) (tag : Tag) : ℕ → Entry → Except Fault Bool
  | 0, _ => .error .fuel
  | fuel + 1, .node n =>
    let offset := (t.nodes n).descend index
    if !(t.nodes n).tags tag offset then .ok false
    else tagGetLoop index tag fuel ((t.nodes n).slots offset)
  | _ + 1, _ => .ok true

/-- `radix_tree_tag_get`. -/
def tagGet (index : ℕ) (tag : Tag) : Except Fault Bool :=
  if !t.rootTags tag then .ok false
  else if index > (loadRoot t).2 then .ok false
  else tagGetLoop t index tag maxSteps t.xaHead

/-- `radix_tree_tagged`. -/
def tagged (tag : Tag) : Bool := t.rootTags tag

/-- `node_tag_get`. -/
def nodeTagGet (slot : Slot) (tag : Tag) : Bool :=
  match slot with
  | none => t.rootTags tag
  | some (n, offset) => (t.nodes n).tags tag offset

/-! ### Deleting -/

/-- The entry that is to be the root: a node has no parent any more. -/
def promote (entry : Entry) (t : Tree) : Tree :=
  match entry with
  | .node c => t.modify c fun node => { node with parent := none }
  | _ => t

/-- The root `r` is given up for the entry in its first slot. -/
def popTop (r : ℕ) (t : Tree) : Tree :=
  let t' := (promote ((t.nodes r).slots 0) t).assign none ((t.nodes r).slots 0)
  (if t.isIdr && !(t.nodes r).tags idrFree 0 then t'.putRootTag idrFree false else t').free r

/-- `radix_tree_shrink`. -/
def shrink : ℕ → Tree → Except Fault Tree
  | 0, _ => .error .fuel
  | fuel + 1, t =>
    match t.xaHead with
    | .node r =>
      if (t.nodes r).count ≠ 1 then .ok t
      else if (t.nodes r).slots 0 = .null then .ok t
      else if (t.nodes r).shift = 0 ∧ t.isIdr then .ok t
      else shrink fuel (popTop r t)
    | _ => .ok t

/-- An empty node is taken out of the slot of its parent. -/
def unlinkChild (p n : ℕ) (t : Tree) : Tree :=
  let t := t.assign (some (p, (t.nodes n).offset)) .null
  (t.modify p fun node => { node with count := node.count - 1 }).free n

/-- An empty root is taken out. -/
def unlinkRoot (n : ℕ) (t : Tree) : Tree :=
  { t with rootTags := if t.isIdr then t.rootTags else fun _ => false, xaHead := .null }.free n

/-- `delete_node`. -/
def deleteNode : ℕ → ℕ → Tree → Except Fault Tree
  | 0, _, _ => .error .fuel
  | fuel + 1, n, t =>
    if (t.nodes n).count ≠ 0 then
      if t.xaHead = .node n then shrink maxSteps t else .ok t
    else match (t.nodes n).parent with
      | some p => deleteNode fuel p (unlinkChild p n t)
      | none => .ok (unlinkRoot n t)

/-- `replace_slot`. -/
def replaceSlot (slot : Slot) (entry : Entry) (count values : ℤ) (t : Tree) : Tree :=
  match slot with
  | none => t.assign none entry
  | some (n, offset) =>
    (t.modify n fun node => { node with
      count := (node.count + count).toNat
      nrValues := (node.nrValues + values).toNat }).assign (some (n, offset)) entry

/-- The tags of a slot that is to be deleted. -/
def deleteTags (slot : Slot) (t : Tree) : Except Fault Tree :=
  if t.isIdr then nodeTagSet idrFree maxSteps slot t
  else do
    let t ← nodeTagClear 0 maxSteps slot t
    let t ← nodeTagClear 1 maxSteps slot t
    nodeTagClear 2 maxSteps slot t

/-- `__radix_tree_delete`. -/
def deleteSlot (slot : Slot) (t : Tree) : Except Fault Tree := do
  let values : ℤ := if (t.read slot).isValue then -1 else 0
  let t ← deleteTags slot t
  let t := replaceSlot slot .null (-1) values t
  match slot with
  | none => return t
  | some (n, _) => deleteNode maxSteps n t

/-- `radix_tree_delete_item`; without an item whatever is at the index is deleted. -/
def deleteItem (index : ℕ) (item : Option Item) (t : Tree) : Except Fault (Entry × Tree) := do
  match ← lookupSlot t index with
  | none => return (.null, t)
  | some (entry, slot) =>
    if entry = .null ∧ (!t.isIdr || nodeTagGet t slot idrFree) then return (.null, t)
    if item.any fun item => entry ≠ .item item then return (.null, t)
    let t ← deleteSlot slot t
    return (entry, t)

/-- `radix_tree_delete`. -/
def delete (index : ℕ) (t : Tree) : Except Fault (Entry × Tree) := deleteItem index none t

end

/-- A tree without items. In an IDR that means that all ids are free. -/
def init (isIdr : Bool) : Tree :=
  ⟨isIdr, .null, fun tag => isIdr && tag == idrFree, fun _ => newNode none 0 0 0 0, 0⟩

end LinuxNote.RadixTree
