import Zapcc.Library.LinkedList

/-!
# The list of leaves

The leaves of a rope are linked in order: `NextLeaf` points to the next leaf, and `PrevLeaf` to the
field of the leaf before that points here. A leaf is a number, and `fresh` is the next one to be
allocated.
-/

namespace Zapcc.Rewrite

open LinkedList List Function

/-- The links of the leaves. -/
structure LeafOrder where
  NextLeaf : Nat → Option Nat
  PrevLeaf : Nat → Option Nat
  fresh : Nat

def LeafOrder.empty : LeafOrder := ⟨fun _ => none, fun _ => none, 0⟩

namespace LeafOrder

/-- Allocate a leaf, in no ordering yet. -/
def new (o : LeafOrder) : Nat × LeafOrder :=
  (o.fresh, ⟨update o.NextLeaf o.fresh none, update o.PrevLeaf o.fresh none, o.fresh + 1⟩)

def insertAfterLeafInOrder (o : LeafOrder) (this Node : Nat) : LeafOrder :=
  let next := o.NextLeaf Node
  let PrevLeaf :=
    match next with
    | none => o.PrevLeaf
    | some next => update o.PrevLeaf next (some this)
  { o with
    NextLeaf := update (update o.NextLeaf this next) Node (some this)
    PrevLeaf := update PrevLeaf this (some Node) }

def removeFromLeafInOrder (o : LeafOrder) (this : Nat) : LeafOrder :=
  match o.PrevLeaf this, o.NextLeaf this with
  | some prev, none => { o with NextLeaf := update o.NextLeaf prev none }
  | some prev, some next =>
    { o with
      NextLeaf := update o.NextLeaf prev (some next)
      PrevLeaf := update o.PrevLeaf next (some prev) }
  | none, some next => { o with PrevLeaf := update o.PrevLeaf next none }
  | none, none => o

/-- The leaves are linked in this order, in both directions. -/
structure Ordered (o : LeafOrder) (leaves : List Nat) : Prop where
  next : Linked o.NextLeaf leaves.head? leaves
  prev : Linked o.PrevLeaf leaves.reverse.head? leaves.reverse
  nodup : leaves.Nodup
  fresh : ∀ leaf ∈ leaves, leaf < o.fresh

theorem ordered_new (o : LeafOrder) : Ordered o.new.2 [o.new.1] where
  next := .cons (by
    show Linked _ (update o.NextLeaf o.fresh none o.fresh) []
    rw [update_self]
    exact .nil)
  prev := .cons (by
    show Linked _ (update o.PrevLeaf o.fresh none o.fresh) []
    rw [update_self]
    exact .nil)
  nodup := nodup_singleton _
  fresh := by
    intro leaf hleaf
    rw [mem_singleton.mp hleaf]
    exact Nat.lt_succ_self _

variable {o : LeafOrder} {before after : List Nat} {a : Nat}

theorem Ordered.next_eq (h : Ordered o (before ++ a :: after)) : o.NextLeaf a = after.head? :=
  h.next.suffix.start_eq

theorem Ordered.prev_eq (h : Ordered o (before ++ a :: after)) :
    o.PrevLeaf a = before.getLast? := by
  have hprev := h.prev
  rw [reverse_append, reverse_cons, append_assoc, singleton_append] at hprev
  rw [hprev.suffix.start_eq, head?_reverse]

theorem Ordered.alloc {leaves : List Nat} (h : Ordered o leaves) :
    Ordered o.new.2 leaves ∧ o.new.1 ∉ leaves := by
  have hnew : o.fresh ∉ leaves := fun hmem => Nat.lt_irrefl _ (h.fresh _ hmem)
  refine ⟨⟨h.next.update_of_notMem hnew, ?_, h.nodup, ?_⟩, hnew⟩
  · exact h.prev.update_of_notMem (by rwa [mem_reverse])
  · exact fun leaf hleaf => Nat.lt_succ_of_lt (h.fresh leaf hleaf)

theorem Ordered.insertAfter {this : Nat} (h : Ordered o (before ++ a :: after))
    (hthis : this ∉ before ++ a :: after) (hfresh : this < o.fresh) :
    Ordered (o.insertAfterLeafInOrder this a) (before ++ a :: this :: after) := by
  have hperm : (before ++ a :: this :: after).Perm (this :: (before ++ a :: after)) := by
    have hmiddle := @perm_middle _ this (before ++ [a]) after
    simpa using hmiddle
  refine ⟨?_, ?_, ?_, ?_⟩
  · have hnext := h.next.insertAfter h.nodup hthis
    have hhead : (before ++ a :: this :: after).head? = (before ++ a :: after).head? := by
      cases before <;> rfl
    rw [hhead]
    exact hnext
  · have hprev := h.prev
    have hnodup := nodup_reverse.mpr h.nodup
    have hthis' : this ∉ (before ++ a :: after).reverse := by rwa [mem_reverse]
    rw [insertAfterLeafInOrder, h.next_eq]
    cases after with
    | nil =>
      rw [reverse_append] at hprev hthis' ⊢
      exact hprev.push hthis'
    | cons b after =>
      have hb : o.PrevLeaf b = some a := by
        have heq : before ++ a :: b :: after = (before ++ [a]) ++ b :: after := by simp
        rw [heq] at h
        rw [h.prev_eq, getLast?_append_of_ne_nil _ (by simp)]
        rfl
      have hne : b ≠ this := by
        rintro rfl
        exact hthis (by simp)
      have hold : (before ++ a :: b :: after).reverse =
          after.reverse ++ b :: a :: before.reverse := by simp
      have hnew : (before ++ a :: this :: b :: after).reverse =
          after.reverse ++ b :: this :: a :: before.reverse := by simp
      rw [hold] at hprev hnodup hthis'
      rw [hnew]
      have hlinked := hprev.insertAfter hnodup hthis'
      have hhead : (after.reverse ++ b :: this :: a :: before.reverse).head? =
          (after.reverse ++ b :: a :: before.reverse).head? := by
        cases after.reverse <;> rfl
      rw [hb, update_comm hne.symm] at hlinked
      rw [hhead]
      exact hlinked
  · refine hperm.nodup_iff.mpr (nodup_cons.mpr ⟨hthis, h.nodup⟩)
  · intro leaf hleaf
    rcases mem_cons.mp (hperm.subset hleaf) with heq | hmem
    · rw [heq]
      exact hfresh
    · exact h.fresh leaf hmem

theorem removeFromLeafInOrder_eq (o : LeafOrder) (this : Nat) :
    o.removeFromLeafInOrder this = { o with
        NextLeaf := match o.PrevLeaf this with
          | none => o.NextLeaf
          | some prev => update o.NextLeaf prev (o.NextLeaf this)
        PrevLeaf := match o.NextLeaf this with
          | none => o.PrevLeaf
          | some next => update o.PrevLeaf next (o.PrevLeaf this) } := by
  unfold removeFromLeafInOrder
  cases o.PrevLeaf this <;> cases o.NextLeaf this <;> rfl

theorem Ordered.remove (h : Ordered o (before ++ a :: after)) :
    Ordered (o.removeFromLeafInOrder a) (before ++ after) := by
  have hsub : (before ++ after).Sublist (before ++ a :: after) :=
    List.Sublist.append (List.Sublist.refl before) (sublist_cons_self a after)
  have hnodup := nodup_reverse.mpr h.nodup
  rw [removeFromLeafInOrder_eq, h.next_eq, h.prev_eq]
  refine ⟨?_, ?_, h.nodup.sublist hsub, fun leaf hleaf => h.fresh leaf (hsub.subset hleaf)⟩
  · have hnext := h.next
    cases before using List.reverseRecOn with
    | nil =>
      have htail := hnext.tail
      rw [htail.start_eq] at htail
      exact htail
    | append_singleton before p =>
      have hold : before ++ [p] ++ a :: after = before ++ p :: a :: after := by simp
      have hnew : before ++ [p] ++ after = before ++ p :: after := by simp
      have hhead : (before ++ p :: after).head? = (before ++ p :: a :: after).head? := by
        cases before <;> rfl
      have hdup := h.nodup
      rw [hold] at hnext hdup
      have hlinked := hnext.unlink hdup
      rw [hnext.suffix.tail.start_eq] at hlinked
      rw [hnew, hhead, getLast?_concat]
      exact hlinked
  · have hprev := h.prev
    cases after with
    | nil =>
      rw [reverse_append] at hprev
      have htail := hprev.tail
      rw [htail.start_eq] at htail
      rw [append_nil]
      exact htail
    | cons n after =>
      have hold : (before ++ a :: n :: after).reverse =
          after.reverse ++ n :: a :: before.reverse := by simp
      have hnew : (before ++ n :: after).reverse = after.reverse ++ n :: before.reverse := by simp
      have hhead : (after.reverse ++ n :: before.reverse).head? =
          (after.reverse ++ n :: a :: before.reverse).head? := by
        cases after.reverse <;> rfl
      rw [hold] at hprev hnodup
      have hlinked := hprev.unlink hnodup
      rw [hprev.suffix.tail.start_eq, head?_reverse] at hlinked
      rw [hnew, hhead]
      exact hlinked

end LeafOrder

end Zapcc.Rewrite
