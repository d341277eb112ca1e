import ApiModel.TypeRef
import Mathlib.Data.Finset.Card
import Mathlib.Logic.Relation

/-!
Ranks of acyclic relations between numbered nodes. Walks over a model take the number of nodes as a
bound; a rank that falls with each step and never exceeds that number shows the bound suffices.
-/

namespace ApiModel

open Relation

def Acyclic (r : TypeId → TypeId → Prop) : Prop := ∀ a, ¬ TransGen r a a

/-- The relation leads from each node to the ones of smaller rank, and ranks are at most `bound`. -/
structure IsRank (r : TypeId → TypeId → Prop) (bound : Nat) (rank : TypeId → Nat) : Prop where
  le : ∀ a, rank a ≤ bound
  lt : ∀ {a b}, r a b → rank b < rank a

/-- The rank of a node counts the nodes it leads to. -/
theorem Acyclic.exists_rank {r : TypeId → TypeId → Prop} {bound : Nat} (h : Acyclic r)
    (hb : ∀ {a b}, r a b → b.index < bound) : ∃ rank, IsRank r bound rank := by
  classical
  let reached (a : TypeId) : Finset Nat := (Finset.range bound).filter fun i => TransGen r a ⟨i⟩
  refine ⟨fun a => (reached a).card, fun a => ?_, fun {a b} hab => ?_⟩
  · simpa using Finset.card_filter_le (Finset.range bound) fun i => TransGen r a ⟨i⟩
  · apply Finset.card_lt_card
    refine (Finset.ssubset_iff_of_subset fun i hi => ?_).mpr ⟨b.index, ?_, ?_⟩
    · obtain ⟨hi, hbi⟩ := Finset.mem_filter.mp hi
      exact Finset.mem_filter.mpr ⟨hi, TransGen.head hab hbi⟩
    · exact Finset.mem_filter.mpr ⟨Finset.mem_range.mpr (hb hab), TransGen.single hab⟩
    · intro hbb
      exact h b (Finset.mem_filter.mp hbb).2

theorem Acyclic.swap {r : TypeId → TypeId → Prop} (h : Acyclic r) : Acyclic (Function.swap r) :=
  fun a ha => h a (transGen_swap.mp ha)

theorem Acyclic.mono {r s : TypeId → TypeId → Prop} (h : Acyclic r) (hs : ∀ a b, s a b → r a b) :
    Acyclic s := fun a ha => h a (TransGen.mono hs a a ha)

/-- One edge is added to an acyclic relation and its target does not lead back to its source. -/
theorem Acyclic.add_edge {r s : TypeId → TypeId → Prop} {x y : TypeId} (h : Acyclic r)
    (hs : ∀ a b, s a b → r a b ∨ a = x ∧ b = y) (hyx : ¬ ReflTransGen r y x) : Acyclic s := by
  -- every walk of `s` either stays in `r` or leads to `x` and goes on from `y` within `r`
  have walk : ∀ {a b}, TransGen s a b →
      TransGen r a b ∨ (ReflTransGen r a x ∧ ReflTransGen r y b) := by
    intro a b hab
    induction hab with
    | single hab =>
      obtain hr | ⟨rfl, rfl⟩ := hs _ _ hab
      · exact .inl (.single hr)
      · exact .inr ⟨.refl, .refl⟩
    | tail hab hbc ih =>
      obtain hr | ⟨rfl, rfl⟩ := hs _ _ hbc
      · obtain hab | ⟨hax, hyb⟩ := ih
        · exact .inl (hab.tail hr)
        · exact .inr ⟨hax, hyb.tail hr⟩
      · obtain hab | ⟨hax, hyb⟩ := ih
        · exact .inr ⟨hab.to_reflTransGen, .refl⟩
        · exact absurd hyb hyx
  intro a ha
  obtain hr | ⟨hax, hya⟩ := walk ha
  · exact h a hr
  · exact hyx (hya.trans hax)

end ApiModel
