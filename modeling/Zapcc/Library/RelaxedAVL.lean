import Mathlib.Data.List.Sort
import Mathlib.Tactic.Ring

/-!
# Search trees under a relaxed balance bound

A binary search tree whose sibling heights differ by at most 2. `balance` is for siblings one of
which grew or shrank by a level: it keeps the order of the values, restores the bound with a single
or a double rotation, and adds at most one level.
-/

namespace RelaxedAVL

open List

/-- A binary tree with a value at each node. -/
inductive SearchTree (α : Type*) where
  | nil
  | node (left : SearchTree α) (value : α) (right : SearchTree α)

namespace SearchTree

variable {α : Type*}

/-- The nodes on a longest path. -/
def height : SearchTree α → Nat
  | nil => 0
  | node l _ r => max l.height r.height + 1

/-- The values from left to right. -/
def toList : SearchTree α → List α
  | nil => []
  | node l v r => l.toList ++ v :: r.toList

/-- Sibling heights differ by at most 2. -/
def Balanced : SearchTree α → Prop
  | nil => True
  | node l _ r => l.Balanced ∧ r.Balanced ∧ l.height ≤ r.height + 2 ∧ r.height ≤ l.height + 2

/-- The values grow from left to right. -/
def Ordered [LT α] (t : SearchTree α) : Prop := t.toList.Pairwise (· < ·)

@[simp] theorem height_nil : (nil : SearchTree α).height = 0 := rfl

@[simp] theorem height_node (l : SearchTree α) (v : α) (r : SearchTree α) :
    (node l v r).height = max l.height r.height + 1 := rfl

@[simp] theorem toList_nil : (nil : SearchTree α).toList = [] := rfl

@[simp] theorem toList_node (l : SearchTree α) (v : α) (r : SearchTree α) :
    (node l v r).toList = l.toList ++ v :: r.toList := rfl

/-! ## Rotations -/

/-- A tree of two trees and a value, rotated if one of the trees is too high. -/
def balance (l : SearchTree α) (v : α) (r : SearchTree α) : SearchTree α :=
  if r.height + 2 < l.height then
    match l with
    | nil => node l v r
    | node ll lv lr =>
      if lr.height ≤ ll.height then node ll lv (node lr v r)
      else
        match lr with
        | nil => node l v r
        | node lrl lrv lrr => node (node ll lv lrl) lrv (node lrr v r)
  else if l.height + 2 < r.height then
    match r with
    | nil => node l v r
    | node rl rv rr =>
      if rl.height ≤ rr.height then node (node l v rl) rv rr
      else
        match rl with
        | nil => node l v r
        | node rll rlv rlr => node (node l v rll) rlv (node rlr rv rr)
  else node l v r

theorem toList_balance (l : SearchTree α) (v : α) (r : SearchTree α) :
    (balance l v r).toList = l.toList ++ v :: r.toList := by
  unfold balance
  split
  · cases l with
    | nil => rfl
    | node ll lv lr =>
      dsimp only
      split
      · simp
      · cases lr with
        | nil => rfl
        | node lrl lrv lrr => simp
  · split
    · cases r with
      | nil => rfl
      | node rl rv rr =>
        dsimp only
        split
        · simp
        · cases rl with
          | nil => rfl
          | node rll rlv rlr => simp
    · rfl

variable {l r : SearchTree α} {t : SearchTree α}

/-- A difference of 3 is repaired, and the tree is one level higher at most than the higher of the
two. -/
theorem balance_balanced (v : α) (hl : l.Balanced) (hr : r.Balanced)
    (hlr : l.height ≤ r.height + 3) (hrl : r.height ≤ l.height + 3) :
    (balance l v r).Balanced ∧ max l.height r.height ≤ (balance l v r).height ∧
      (balance l v r).height ≤ max l.height r.height + 1 ∧
      (l.height ≤ r.height + 2 → r.height ≤ l.height + 2 →
        (balance l v r).height = max l.height r.height + 1) := by
  unfold balance
  split
  · rename_i hhigh
    cases l with
    | nil => simp at hhigh
    | node ll lv lr =>
      obtain ⟨hll, hlrb, hd1, hd2⟩ := hl
      dsimp only
      split
      · simp only [Balanced, height_node] at *
        refine ⟨⟨hll, ⟨hlrb, hr, ?_, ?_⟩, ?_, ?_⟩, ?_, ?_, fun h => absurd h ?_⟩ <;> omega
      · cases lr with
        | nil => simp at *
        | node lrl lrv lrr =>
          obtain ⟨hlrl, hlrr, hd3, hd4⟩ := hlrb
          simp only [Balanced, height_node] at *
          refine ⟨⟨⟨hll, hlrl, ?_, ?_⟩, ⟨hlrr, hr, ?_, ?_⟩, ?_, ?_⟩, ?_, ?_,
            fun h => absurd h ?_⟩ <;> omega
  · split
    · rename_i hlow hhigh
      cases r with
      | nil => simp at hhigh
      | node rl rv rr =>
        obtain ⟨hrlb, hrr, hd1, hd2⟩ := hr
        dsimp only
        split
        · simp only [Balanced, height_node] at *
          refine ⟨⟨⟨hl, hrlb, ?_, ?_⟩, hrr, ?_, ?_⟩, ?_, ?_, fun _ h => absurd h ?_⟩ <;> omega
        · cases rl with
          | nil => simp at *
          | node rll rlv rlr =>
            obtain ⟨hrll, hrlr, hd3, hd4⟩ := hrlb
            simp only [Balanced, height_node] at *
            refine ⟨⟨⟨hl, hrll, ?_, ?_⟩, ⟨hrlr, hrr, ?_, ?_⟩, ?_, ?_⟩, ?_, ?_,
              fun _ h => absurd h ?_⟩ <;> omega
    · rename_i hlow hhigh
      have hd1 : l.height ≤ r.height + 2 := not_lt.mp hlow
      have hd2 : r.height ≤ l.height + 2 := not_lt.mp hhigh
      exact ⟨⟨hl, hr, hd1, hd2⟩, Nat.le_succ _, le_rfl, fun _ _ => rfl⟩

/-! ## The first value -/

/-- The first value of a tree that is not empty, and the tree without it. -/
def removeMin : SearchTree α → α → SearchTree α → α × SearchTree α
  | nil, v, r => (v, r)
  | node ll lv lr, v, r => ((removeMin ll lv lr).1, balance (removeMin ll lv lr).2 v r)

/-- One tree of two whose values follow each other. -/
def combine (l : SearchTree α) : SearchTree α → SearchTree α
  | nil => l
  | node rl rv rr =>
    match l with
    | nil => node rl rv rr
    | node ll lv lr => balance (node ll lv lr) (removeMin rl rv rr).1 (removeMin rl rv rr).2

theorem toList_removeMin (l : SearchTree α) (v : α) (r : SearchTree α) :
    (node l v r).toList = (removeMin l v r).1 :: (removeMin l v r).2.toList := by
  induction l generalizing v r with
  | nil => rfl
  | node ll lv lr ihl _ =>
    rw [toList_node, ihl]
    simp [removeMin, toList_balance]

theorem balanced_removeMin {v : α} (h : (node l v r).Balanced) :
    (removeMin l v r).2.Balanced ∧ (removeMin l v r).2.height ≤ (node l v r).height ∧
      (node l v r).height ≤ (removeMin l v r).2.height + 1 := by
  induction l generalizing v r with
  | nil =>
    obtain ⟨-, hr, -, -⟩ := h
    simpa [removeMin] using hr
  | node ll lv lr ihl _ =>
    obtain ⟨hl, hr, hd1, hd2⟩ := h
    obtain ⟨hb, hlow, hhigh⟩ := ihl hl
    unfold removeMin
    dsimp only
    obtain ⟨hbal, h1, h2, h3⟩ := balance_balanced v hb hr (by omega) (by omega)
    refine ⟨hbal, ?_, ?_⟩ <;> rw [height_node _ v r] <;> omega

theorem toList_combine (l r : SearchTree α) : (combine l r).toList = l.toList ++ r.toList := by
  cases r with
  | nil => simp [combine]
  | node rl rv rr =>
    cases l with
    | nil => simp [combine]
    | node ll lv lr =>
      rw [toList_removeMin rl rv rr]
      simp only [combine, toList_balance]

theorem balanced_combine (hl : l.Balanced) (hr : r.Balanced)
    (hd1 : l.height ≤ r.height + 2) (hd2 : r.height ≤ l.height + 2) :
    (combine l r).Balanced ∧ (combine l r).height ≤ max l.height r.height + 1 ∧
      max l.height r.height ≤ (combine l r).height := by
  cases r with
  | nil => exact ⟨hl, by simp [combine], by simp [combine]⟩
  | node rl rv rr =>
    cases l with
    | nil => exact ⟨hr, by simp [combine], by simp [combine]⟩
    | node ll lv lr =>
      obtain ⟨hb, hlow, hhigh⟩ := balanced_removeMin hr
      obtain ⟨hbal, h1, h2, h3⟩ := balance_balanced (removeMin rl rv rr).1 hl hb
        (by omega) (by omega)
      refine ⟨hbal, ?_, ?_⟩ <;> unfold combine <;> dsimp only <;> omega

theorem pow_le_of_siblings {h a b : Nat} (ha : 2 ^ h ≤ a ^ 2) (hb : 2 ^ h ≤ 4 * b ^ 2) :
    2 ^ (h + 1) ≤ (a + b) ^ 2 := by
  have hab : 2 ^ h ≤ 2 * (a * b) := by
    have hmul := (Nat.mul_le_mul ha hb).trans_eq
      (show a ^ 2 * (4 * b ^ 2) = 2 * (a * b) * (2 * (a * b)) by ring)
    exact Nat.mul_self_le_mul_self_iff.mp hmul
  calc 2 ^ (h + 1) = 2 ^ h + 2 ^ h := by ring
    _ ≤ a ^ 2 + 2 * (a * b) := Nat.add_le_add ha hab
    _ ≤ a ^ 2 + 2 * (a * b) + b ^ 2 := Nat.le_add_right ..
    _ = (a + b) ^ 2 := by ring

theorem Balanced.pow_height_le (h : t.Balanced) : 2 ^ t.height ≤ (t.toList.length + 1) ^ 2 := by
  induction t with
  | nil => simp
  | node l v r ihl ihr =>
    obtain ⟨hl, hr, hlr, hrl⟩ := h
    have hwide : ∀ {i j n : Nat}, i ≤ j + 2 → 2 ^ j ≤ n → 2 ^ i ≤ 4 * n := fun hij hn =>
      (Nat.pow_le_pow_right (by omega) hij).trans (by rw [Nat.pow_add]; omega)
    have hlength : (node l v r).toList.length + 1 =
        (l.toList.length + 1) + (r.toList.length + 1) := by
      simp only [toList_node, length_append, length_cons]
      omega
    rw [height_node, hlength]
    rcases Nat.le_total r.height l.height with hle | hle
    · rw [Nat.max_eq_left hle]
      exact pow_le_of_siblings (ihl hl) (hwide hlr (ihr hr))
    · rw [Nat.max_eq_right hle, Nat.add_comm (_ + 1)]
      exact pow_le_of_siblings (ihr hr) (hwide hrl (ihl hl))

/-! ## Insertion -/

section Operations

variable [LinearOrder α]

def insert (v : α) : SearchTree α → SearchTree α
  | nil => node nil v nil
  | node l w r =>
    if v = w then node l v r
    else if v < w then balance (l.insert v) w r
    else balance l w (r.insert v)

/-- The tree without a value. -/
def remove (v : α) : SearchTree α → SearchTree α
  | nil => nil
  | node l w r =>
    if v = w then combine l r
    else if v < w then balance (l.remove v) w r
    else balance l w (r.remove v)

theorem mem_insert {v x : α} :
    x ∈ (t.insert v).toList ↔ x = v ∨ x ∈ t.toList := by
  induction t with
  | nil => simp [insert]
  | node l w r ihl ihr =>
    unfold insert
    split_ifs with heq hlt
    · subst heq
      simp only [toList_node, mem_append, mem_cons]
      tauto
    · simp only [toList_balance, toList_node, mem_append, mem_cons, ihl]
      tauto
    · simp only [toList_balance, toList_node, mem_append, mem_cons, ihr]
      tauto

theorem ordered_node_iff {v : α} : (node l v r).Ordered ↔
    l.Ordered ∧ r.Ordered ∧ (∀ x ∈ l.toList, x < v) ∧ ∀ x ∈ r.toList, v < x := by
  unfold Ordered
  rw [toList_node, pairwise_append, pairwise_cons]
  constructor
  · rintro ⟨hl, ⟨hvr, hr⟩, hlr⟩
    exact ⟨hl, hr, fun x hx => hlr x hx v mem_cons_self, hvr⟩
  · rintro ⟨hl, hr, hlv, hvr⟩
    refine ⟨hl, ⟨hvr, hr⟩, fun x hx y hy => ?_⟩
    rcases List.mem_cons.mp hy with rfl | hy
    · exact hlv x hx
    · exact (hlv x hx).trans (hvr y hy)

theorem ordered_balance_iff {v : α} :
    (balance l v r).Ordered ↔ (node l v r).Ordered := by
  unfold Ordered
  rw [toList_balance, toList_node]

theorem Ordered.insert (h : t.Ordered) (v : α) : (t.insert v).Ordered := by
  induction t with
  | nil => exact pairwise_singleton _ _
  | node l w r ihl ihr =>
    obtain ⟨hl, hr, hlw, hwr⟩ := ordered_node_iff.mp h
    unfold SearchTree.insert
    split_ifs with heq hlt
    · subst heq
      exact ordered_node_iff.mpr ⟨hl, hr, hlw, hwr⟩
    · refine ordered_balance_iff.mpr (ordered_node_iff.mpr ⟨ihl hl, hr, fun x hx => ?_, hwr⟩)
      rcases mem_insert.mp hx with rfl | hx
      · exact hlt
      · exact hlw x hx
    · refine ordered_balance_iff.mpr (ordered_node_iff.mpr ⟨hl, ihr hr, hlw, fun x hx => ?_⟩)
      rcases mem_insert.mp hx with rfl | hx
      · exact lt_of_le_of_ne (not_lt.mp hlt) (Ne.symm heq)
      · exact hwr x hx

theorem Balanced.insert (h : t.Balanced) (v : α) :
    (t.insert v).Balanced ∧ t.height ≤ (t.insert v).height ∧
      (t.insert v).height ≤ t.height + 1 := by
  induction t with
  | nil => simp [SearchTree.insert, Balanced]
  | node l w r ihl ihr =>
    obtain ⟨hl, hr, hd1, hd2⟩ := h
    unfold SearchTree.insert
    split_ifs with heq hlt
    · exact ⟨⟨hl, hr, hd1, hd2⟩, le_rfl, Nat.le_succ _⟩
    · obtain ⟨hb, hlow, hhigh⟩ := ihl hl
      obtain ⟨hbal, h1, h2, h3⟩ :=
        balance_balanced w hb hr (by omega) (by omega)
      refine ⟨hbal, ?_, ?_⟩ <;> rw [height_node] <;> omega
    · obtain ⟨hb, hlow, hhigh⟩ := ihr hr
      obtain ⟨hbal, h1, h2, h3⟩ :=
        balance_balanced w hl hb (by omega) (by omega)
      refine ⟨hbal, ?_, ?_⟩ <;> rw [height_node] <;> omega

/-! ## Removal -/

theorem mem_remove {v x : α} (h : t.Ordered) :
    x ∈ (t.remove v).toList ↔ x ≠ v ∧ x ∈ t.toList := by
  induction t with
  | nil => simp [remove]
  | node l w r ihl ihr =>
    obtain ⟨hl, hr, hlw, hwr⟩ := ordered_node_iff.mp h
    unfold remove
    split_ifs with heq hlt
    · subst heq
      simp only [toList_combine, toList_node, mem_append, mem_cons]
      constructor
      · rintro (hx | hx)
        · exact ⟨(hlw x hx).ne, .inl hx⟩
        · exact ⟨(hwr x hx).ne', .inr (.inr hx)⟩
      · rintro ⟨hne, hx | hx | hx⟩
        · exact .inl hx
        · exact absurd hx hne
        · exact .inr hx
    · simp only [toList_balance, toList_node, mem_append, mem_cons, ihl hl]
      constructor
      · rintro (hx | hx | hx)
        · exact ⟨hx.1, .inl hx.2⟩
        · exact ⟨fun hv => heq (hv ▸ hx), .inr (.inl hx)⟩
        · exact ⟨(hlt.trans (hwr x hx)).ne', .inr (.inr hx)⟩
      · rintro ⟨hne, hx | hx | hx⟩
        · exact .inl ⟨hne, hx⟩
        · exact .inr (.inl hx)
        · exact .inr (.inr hx)
    · have hgt : w < v := lt_of_le_of_ne (not_lt.mp hlt) (Ne.symm heq)
      simp only [toList_balance, toList_node, mem_append, mem_cons, ihr hr]
      constructor
      · rintro (hx | hx | hx)
        · exact ⟨((hlw x hx).trans hgt).ne, .inl hx⟩
        · exact ⟨fun hv => heq (hv ▸ hx), .inr (.inl hx)⟩
        · exact ⟨hx.1, .inr (.inr hx.2)⟩
      · rintro ⟨hne, hx | hx | hx⟩
        · exact .inl hx
        · exact .inr (.inl hx)
        · exact .inr (.inr ⟨hne, hx⟩)

theorem Ordered.remove (h : t.Ordered) (v : α) : (t.remove v).Ordered := by
  induction t with
  | nil => exact h
  | node l w r ihl ihr =>
    obtain ⟨hl, hr, hlw, hwr⟩ := ordered_node_iff.mp h
    unfold SearchTree.remove
    split_ifs with heq hlt
    · unfold Ordered
      rw [toList_combine]
      exact List.pairwise_append.mpr
        ⟨hl, hr, fun x hx y hy => (hlw x hx).trans (hwr y hy)⟩
    · exact ordered_balance_iff.mpr (ordered_node_iff.mpr
        ⟨ihl hl, hr, fun x hx => hlw x ((mem_remove hl).mp hx).2, hwr⟩)
    · exact ordered_balance_iff.mpr (ordered_node_iff.mpr
        ⟨hl, ihr hr, hlw, fun x hx => hwr x ((mem_remove hr).mp hx).2⟩)

theorem Balanced.remove (h : t.Balanced) (v : α) :
    (t.remove v).Balanced ∧ (t.remove v).height ≤ t.height ∧
      t.height ≤ (t.remove v).height + 1 := by
  induction t with
  | nil => exact ⟨h, le_rfl, Nat.le_succ _⟩
  | node l w r ihl ihr =>
    obtain ⟨hl, hr, hd1, hd2⟩ := h
    unfold SearchTree.remove
    split_ifs with heq hlt
    · obtain ⟨hb, hlow, hhigh⟩ := balanced_combine hl hr hd1 hd2
      refine ⟨hb, ?_, ?_⟩ <;> rw [height_node] <;> omega
    · obtain ⟨hb, hlow, hhigh⟩ := ihl hl
      obtain ⟨hbal, h1, h2, h3⟩ := balance_balanced w hb hr (by omega) (by omega)
      refine ⟨hbal, ?_, ?_⟩ <;> rw [height_node] <;> omega
    · obtain ⟨hb, hlow, hhigh⟩ := ihr hr
      obtain ⟨hbal, h1, h2, h3⟩ := balance_balanced w hl hb (by omega) (by omega)
      refine ⟨hbal, ?_, ?_⟩ <;> rw [height_node] <;> omega

theorem toList_eq_of_mem_iff {s t : SearchTree α} (hs : s.Ordered) (ht : t.Ordered)
    (h : ∀ x, x ∈ s.toList ↔ x ∈ t.toList) : s.toList = t.toList :=
  Pairwise.eq_of_mem_iff hs ht h

end Operations

end SearchTree

end RelaxedAVL
