import Mathlib.Data.List.Nodup

/-!
# Sets that keep the order of insertion

`llvm::SetVector` is a list without duplicates. A new element is added at the end, so an index
still finds the same element while the set grows.
-/

namespace Zapcc.SetVector

open List

variable {α : Type*} [DecidableEq α]

def insert (xs : List α) (x : α) : List α := if x ∈ xs then xs else xs ++ [x]

theorem mem_insert (xs : List α) (x y : α) : y ∈ insert xs x ↔ y ∈ xs ∨ y = x := by
  unfold insert
  split
  · next hx => exact (or_iff_left_of_imp fun h => h ▸ hx).symm
  · rw [mem_append, mem_singleton]

theorem prefix_insert (xs : List α) (x : α) : xs <+: insert xs x := by
  unfold insert
  split
  · exact prefix_rfl
  · exact prefix_append xs [x]

theorem nodup_insert {xs : List α} (x : α) (hnodup : xs.Nodup) : (insert xs x).Nodup := by
  unfold insert
  split
  · exact hnodup
  · next hx =>
      refine nodup_append.mpr ⟨hnodup, nodup_singleton x, fun y hy z hz => ?_⟩
      rw [mem_singleton.mp hz]
      intro heq
      subst heq
      exact hx hy

end Zapcc.SetVector
