import Mathlib.Order.FixedPoints
import Mathlib.Data.Set.Image
import Mathlib.Order.CompletePartialOrder

/-!
# What unlocks what

Items are taken into a set when the set allows them, and a larger set allows no less. What can be
taken from a base is the least fixed point of taking all that is allowed (`unlocking`). A set that
was only ever extended by allowed items lies below it (`mem_lfp_unlocking`), and is it as soon as it
allows nothing more (`eq_lfp_unlocking`), in whatever order the items came.
-/

namespace Treecrdt

variable {α β : Type*} {allows : Set α → β → Prop} {key : β → α} {base : Set α} {items : Set β}

/-- Take every item that the set allows. -/
def unlocking (allows : Set α → β → Prop) (mono : ∀ b, Monotone fun A => allows A b) (key : β → α)
    (base : Set α) (items : Set β) : Set α →o Set α where
  toFun A := base ∪ key '' {b ∈ items | allows A b}
  monotone' _ _ hle :=
    Set.union_subset_union_right _ (Set.image_mono fun b hb => ⟨hb.1, mono b hle hb.2⟩)

variable {mono : ∀ b, Monotone fun A => allows A b} {A : Set α}

theorem base_subset_lfp_unlocking : base ⊆ (unlocking allows mono key base items).lfp := by
  rw [← OrderHom.map_lfp]
  exact Set.subset_union_left

/-- An allowed item of a set below the fixed point is in the fixed point. -/
theorem mem_lfp_unlocking {b : β} (hb : b ∈ items)
    (hle : A ⊆ (unlocking allows mono key base items).lfp) (hallows : allows A b) :
    key b ∈ (unlocking allows mono key base items).lfp := by
  rw [← OrderHom.map_lfp]
  exact Or.inr ⟨b, ⟨hb, mono b hle hallows⟩, rfl⟩

theorem eq_lfp_unlocking (hbase : base ⊆ A)
    (hle : A ⊆ (unlocking allows mono key base items).lfp)
    (hclosed : ∀ b ∈ items, allows A b → key b ∈ A) :
    A = (unlocking allows mono key base items).lfp := by
  refine hle.antisymm (OrderHom.lfp_le _ (Set.union_subset hbase ?_))
  rintro _ ⟨b, ⟨hb, hallows⟩, rfl⟩
  exact hclosed b hb hallows

end Treecrdt
