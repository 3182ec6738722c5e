import TreecrdtLean.Lib.Codec
import TreecrdtLean.Auth.Scope
import TreecrdtLean.Spec.Refine

/-!
# The materialized tree as the scope checks see it

The applications name a node by sixteen bytes, the core by a number. `Rows.parents` are the parents
of a materialized tree under these names; a scope is a region of it.
-/

namespace Treecrdt

/-- `node_to_blob`. -/
def nodeToBlob (node : NodeId) : Bytes := beBytes 16 node.val.toNat

/-- `blob_to_node`. -/
def blobToNode (data : Bytes) : Option NodeId :=
  if data.length = 16 then some ⟨BitVec.ofNat 128 (beValue data)⟩ else none

@[simp] theorem blobToNode_nodeToBlob (node : NodeId) : blobToNode (nodeToBlob node) = some node := by
  have hlt : node.val.toNat < 256 ^ 16 := node.val.isLt
  simp [blobToNode, nodeToBlob, beValue_beBytes hlt]

theorem nodeToBlob_of_blobToNode {data : Bytes} {node : NodeId} (h : blobToNode data = some node) :
    nodeToBlob node = data := by
  unfold blobToNode at h
  split at h
  · rename_i hlen
    cases h
    have hlt : beValue data < 2 ^ 128 := by
      have := beValue_lt data
      rw [hlen] at this
      exact this
    rw [nodeToBlob, BitVec.toNat_ofNat, Nat.mod_eq_of_lt hlt, ← hlen, beBytes_beValue]
  · cases h

theorem nodeToBlob_injective : Function.Injective nodeToBlob := fun a b h =>
  Option.some.inj (by rw [← blobToNode_nodeToBlob a, h, blobToNode_nodeToBlob])

theorem nodeToBlob_root : nodeToBlob NodeId.ROOT = Auth.ROOT_NODE_ID := by decide

theorem nodeToBlob_trash : nodeToBlob NodeId.TRASH = Auth.TRASH_NODE_ID := by decide

theorem special_iff_of_blobToNode {data : Bytes} {node : NodeId}
    (h : blobToNode data = some node) :
    node.special ↔ data = Auth.ROOT_NODE_ID ∨ data = Auth.TRASH_NODE_ID := by
  rw [← nodeToBlob_of_blobToNode h, ← nodeToBlob_root, ← nodeToBlob_trash,
    nodeToBlob_injective.eq_iff, nodeToBlob_injective.eq_iff, NodeId.special, or_comm]

/-- The parents of a tree, up to `ROOT` and `TRASH`. -/
def Rows.parents (r : Rows) (node : Bytes) : Option Bytes :=
  (blobToNode node).bind fun n => (r.up n).map nodeToBlob

namespace Auth

open Interface

/-- The kind of operation that the core is given for one of an application. -/
inductive Lowers : Interface.OperationKind → Treecrdt.OperationKind → Prop
  | insert {parent node : Interface.NodeId} {p n : Treecrdt.NodeId} {orderKey : Bytes}
      {payload : Option Bytes} (hp : nodeIdToBytes16 parent = .ok (nodeToBlob p))
      (hn : nodeIdToBytes16 node = .ok (nodeToBlob n)) :
      Lowers (.insert parent node orderKey payload) (.insert p n orderKey payload)
  | move {node newParent : Interface.NodeId} {n p : Treecrdt.NodeId} {orderKey : Bytes}
      (hn : nodeIdToBytes16 node = .ok (nodeToBlob n))
      (hp : nodeIdToBytes16 newParent = .ok (nodeToBlob p)) :
      Lowers (.move node newParent orderKey) (.move n p orderKey)
  | delete {node : Interface.NodeId} {n : Treecrdt.NodeId}
      (hn : nodeIdToBytes16 node = .ok (nodeToBlob n)) : Lowers (.delete node) (.delete n)
  | tombstone {node : Interface.NodeId} {n : Treecrdt.NodeId}
      (hn : nodeIdToBytes16 node = .ok (nodeToBlob n)) : Lowers (.tombstone node) (.tombstone n)
  | payload {node : Interface.NodeId} {n : Treecrdt.NodeId} {payload : Option Bytes}
      (hn : nodeIdToBytes16 node = .ok (nodeToBlob n)) :
      Lowers (.payload node payload) (.payload n payload)

end Auth

end Treecrdt
