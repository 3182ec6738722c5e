import Mathlib.Algebra.Group.Nat.Defs
import Mathlib.Order.Lex
import Mathlib.Data.Prod.Lex
import Mathlib.Data.List.Lex
import Mathlib.Data.Fintype.EquivFin

/-!
# Identifiers and errors (`ids.rs`, `error.rs`)

A node id is a `u128`; `ROOT` is `0` and `TRASH` the largest id. A replica id is a byte string of
any length, compared lexicographically.
-/

namespace Treecrdt

theorem toNat_max (a b : UInt64) : (max a b).toNat = max a.toNat b.toNat := by
  rw [show max a b = if a ≤ b then b else a from rfl]
  split <;> rename_i h <;> rw [UInt64.le_iff_toNat_le] at h <;> omega

/-- `Vec<u8>`. -/
abbrev Bytes := List UInt8

instance Bytes.lawfulBEq : LawfulBEq Bytes := inferInstance

/-- A byte string as the numbers of its bytes: the order of `[u8]` is the order of these lists. -/
def Bytes.nats (b : Bytes) : List ℕ := b.map UInt8.toNat

theorem Bytes.nats_injective : Function.Injective Bytes.nats :=
  List.map_injective_iff.mpr fun _ _ h => UInt8.toNat_inj.mp h

/-- Lamport timestamp. -/
abbrev Lamport := UInt64

/-- Unique identifier for a replica. -/
structure ReplicaId where
  bytes : Bytes
  deriving DecidableEq, Repr

/-- Unique identifier for a node in the tree. -/
structure NodeId where
  val : BitVec 128
  deriving DecidableEq, Repr

namespace NodeId

def ROOT : NodeId := ⟨0⟩

def TRASH : NodeId := ⟨BitVec.allOnes 128⟩

theorem ROOT_ne_TRASH : ROOT ≠ TRASH := by decide

@[simp] theorem TRASH_ne_ROOT : TRASH ≠ ROOT := by decide

/-- A node id as a number: the derived order of `NodeId` is the order of the `u128`. -/
def toNat (n : NodeId) : ℕ := n.val.toNat

theorem toNat_injective : Function.Injective toNat := by
  rintro ⟨a⟩ ⟨b⟩ h
  exact congrArg NodeId.mk (BitVec.eq_of_toNat_eq h)

instance : LinearOrder NodeId := LinearOrder.lift' toNat toNat_injective

/-- The node ids are the numbers below `2^128`. -/
def equivFin : NodeId ≃ Fin (2 ^ 128) where
  toFun n := n.val.toFin
  invFun i := ⟨BitVec.ofFin i⟩
  left_inv _ := rfl
  right_inv _ := rfl

instance : Fintype NodeId := Fintype.ofEquiv _ equivFin.symm

theorem card_eq : Fintype.card NodeId = 2 ^ 128 := by
  rw [Fintype.card_congr equivFin, Fintype.card_fin]

/-- `ROOT` and `TRASH`, where every walk up the tree stops. -/
def special (n : NodeId) : Prop := n = TRASH ∨ n = ROOT

instance (n : NodeId) : Decidable n.special := inferInstanceAs (Decidable (_ ∨ _))

end NodeId

/-- Globally unique identifier for an operation. -/
structure OperationId where
  replica : ReplicaId
  counter : UInt64
  deriving DecidableEq, Repr

/-- The errors of the core (`error.rs`). -/
inductive Error where
  | storage (msg : String)
  | accessDenied (msg : String)
  | invalidOperation (msg : String)
  | inconsistentState (msg : String)
  | missingDependency (msg : String)
  deriving DecidableEq, Repr

end Treecrdt
