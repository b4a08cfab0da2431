import Mathlib.Tactic.Ring

/-!
# Siblings of an interval map

An overflowing node of the tree shares its elements with its siblings. `distribute` computes the new
sizes, and `adjustSiblingSizes` moves the elements, to the right and then to the left.
-/

namespace Zapcc.IntervalMap

open Function List

/-! ## Sizes -/

/-- The sum of the first sizes. -/
def total (size : Nat → Nat) : Nat → Nat
  | 0 => 0
  | n + 1 => total size n + size n

theorem total_zero (size : Nat → Nat) : total size 0 = 0 := rfl

theorem total_succ (size : Nat → Nat) (n : Nat) :
    total size (n + 1) = total size n + size n := rfl

theorem total_congr {f g : Nat → Nat} {n : Nat} (h : ∀ k < n, f k = g k) :
    total f n = total g n := by
  induction n with
  | zero => rfl
  | succ n ih =>
    rw [total_succ, total_succ, ih fun k hk => h k (Nat.lt_succ_of_lt hk), h n (Nat.lt_succ_self n)]

theorem total_mono (f : Nat → Nat) {m n : Nat} (h : m ≤ n) : total f m ≤ total f n := by
  induction h with
  | refl => exact le_rfl
  | step _ ih => exact ih.trans (Nat.le_add_right _ _)

theorem total_of_empty {f : Nat → Nat} {a b : Nat} (hab : a ≤ b)
    (h : ∀ k, a ≤ k → k < b → f k = 0) : total f b = total f a := by
  induction b, hab using Nat.le_induction with
  | base => rfl
  | succ b hab ih =>
    rw [total_succ, ih fun k ha hb => h k ha (by omega), h b hab (Nat.lt_succ_self b), Nat.add_zero]

theorem total_of_suffix {f g : Nat → Nat} {a b : Nat} (hab : a ≤ b)
    (h : ∀ k, a ≤ k → k < b → f k = g k) (hb : total f b = total g b) : total f a = total g a := by
  induction b, hab using Nat.le_induction with
  | base => exact hb
  | succ b hab ih =>
    refine ih (fun k ha hk => h k ha (by omega)) ?_
    rw [total_succ, total_succ, h b hab (Nat.lt_succ_self b)] at hb
    omega

theorem total_move {f g : Nat → Nat} {l r : Nat} (hlr : l < r) (hsum : g l + g r = f l + f r)
    (hother : ∀ k, k ≠ l → k ≠ r → g k = f k) (n : Nat) :
    (n ≤ l ∨ r < n → total g n = total f n) ∧
      (l < n → n ≤ r → total g n + f l = total f n + g l) := by
  induction n with
  | zero => exact ⟨fun _ => rfl, fun h => absurd h (Nat.not_lt_zero _)⟩
  | succ n ih =>
    rw [total_succ, total_succ]
    by_cases hl : n = l
    · subst hl
      exact ⟨fun _ => by omega, fun _ _ => by rw [ih.1 (.inl le_rfl)]; omega⟩
    by_cases hr : n = r
    · subst hr
      exact ⟨fun _ => by have := ih.2 hlr le_rfl; omega, fun _ _ => by omega⟩
    rw [hother n hl hr]
    omega

/-! ## The new sizes -/

/-- The size of a node in an even distribution that leans to the left. -/
def evenSize (PerNode Extra n : Nat) : Nat := PerNode + if n < Extra then 1 else 0

/-- The loop of `distribute`: the sum of the sizes, and the node and the offset of the position. -/
def distributeLoop (Nodes PerNode Extra Position : Nat) : Nat → Nat × Nat × Nat
  | 0 => (0, Nodes, 0)
  | n + 1 =>
    let (Sum, PosPair) := distributeLoop Nodes PerNode Extra Position n
    let Sum := Sum + evenSize PerNode Extra n
    if PosPair.1 = Nodes ∧ Position < Sum then
      (Sum, n, Position - (Sum - evenSize PerNode Extra n))
    else (Sum, PosPair)

/-- `distribute`. There is no result when an assertion fails. -/
def distribute (Nodes Elements Capacity Position : Nat) (Grow : Bool) :
    Option ((Nat → Nat) × Nat × Nat) :=
  if Nodes * Capacity < Elements + Grow.toNat ∨ Elements < Position then none
  else if Nodes = 0 then some (fun _ => 0, 0, 0)
  else
    let PerNode := (Elements + Grow.toNat) / Nodes
    let Extra := (Elements + Grow.toNat) % Nodes
    let (Sum, PosPair) := distributeLoop Nodes PerNode Extra Position Nodes
    let NewSize := evenSize PerNode Extra
    if Sum ≠ Elements + Grow.toNat then none
    else if Grow = true ∧ (Nodes ≤ PosPair.1 ∨ NewSize PosPair.1 = 0) then none
    else
      let NewSize := if Grow then update NewSize PosPair.1 (NewSize PosPair.1 - 1) else NewSize
      if (∀ n < Nodes, NewSize n ≤ Capacity) ∧ total NewSize Nodes = Elements then
        some (NewSize, PosPair)
      else none

theorem total_evenSize (PerNode Extra n : Nat) :
    total (evenSize PerNode Extra) n = n * PerNode + min n Extra := by
  induction n with
  | zero => simp [total_zero]
  | succ n ih =>
    rw [total_succ, ih, evenSize, Nat.succ_mul]
    split <;> omega

theorem distributeLoop_spec (Nodes PerNode Extra Position : Nat) {n : Nat} (hn : n ≤ Nodes) :
    (distributeLoop Nodes PerNode Extra Position n).1 = total (evenSize PerNode Extra) n ∧
      if total (evenSize PerNode Extra) n ≤ Position then
        (distributeLoop Nodes PerNode Extra Position n).2 = (Nodes, 0)
      else
        ∃ k < n, total (evenSize PerNode Extra) k ≤ Position ∧
          Position < total (evenSize PerNode Extra) (k + 1) ∧
          (distributeLoop Nodes PerNode Extra Position n).2 =
            (k, Position - total (evenSize PerNode Extra) k) := by
  induction n with
  | zero => simp [distributeLoop, total_zero]
  | succ n ih =>
    obtain ⟨hsum, hpos⟩ := ih (by omega)
    have hstep : total (evenSize PerNode Extra) n + evenSize PerNode Extra n =
        total (evenSize PerNode Extra) (n + 1) := rfl
    rw [distributeLoop]
    dsimp only
    rw [hsum, hstep]
    by_cases hbefore : total (evenSize PerNode Extra) n ≤ Position
    · rw [if_pos hbefore] at hpos
      rw [hpos]
      by_cases hafter : total (evenSize PerNode Extra) (n + 1) ≤ Position
      · rw [if_neg (by omega), if_pos hafter]
        exact ⟨rfl, rfl⟩
      · rw [if_pos ⟨rfl, by omega⟩, if_neg hafter]
        refine ⟨rfl, n, Nat.lt_succ_self n, hbefore, by omega, ?_⟩
        rw [← hstep, Nat.add_sub_cancel]
    · rw [if_neg hbefore] at hpos
      obtain ⟨k, hk, hle, hlt, heq⟩ := hpos
      rw [heq, if_neg (by omega), if_neg (by omega)]
      exact ⟨rfl, k, by omega, hle, hlt, rfl⟩

theorem distribute_spec {Nodes Elements Capacity Position : Nat}
    (hfit : Elements + 1 ≤ Nodes * Capacity) (hPosition : Position ≤ Elements) :
    ∃ NewSize n offset, distribute Nodes Elements Capacity Position true =
        some (NewSize, n, offset) ∧
      (∀ k < Nodes, NewSize k ≤ Capacity) ∧ total NewSize Nodes = Elements ∧ n < Nodes ∧
      total NewSize n + offset = Position ∧ offset ≤ NewSize n ∧ NewSize n < Capacity := by
  have hNodes : Nodes ≠ 0 := by
    rintro rfl
    omega
  set PerNode := (Elements + 1) / Nodes with hPerNode
  set Extra := (Elements + 1) % Nodes with hExtra
  have hExtraLt : Extra < Nodes := Nat.mod_lt _ (Nat.pos_of_ne_zero hNodes)
  have hsum : Nodes * PerNode + Extra = Elements + 1 := Nat.div_add_mod _ _
  have htotal : total (evenSize PerNode Extra) Nodes = Elements + 1 := by
    rw [total_evenSize, min_eq_right hExtraLt.le, hsum]
  have hcap (k : Nat) : evenSize PerNode Extra k ≤ Capacity := by
    have hle : PerNode ≤ Capacity := by
      have := (Nat.div_le_div_right hfit : PerNode ≤ _)
      rwa [Nat.mul_div_cancel_left _ (Nat.pos_of_ne_zero hNodes)] at this
    have hlt (h : 0 < Extra) : PerNode < Capacity :=
      lt_of_mul_lt_mul_left (show Nodes * PerNode < Nodes * Capacity by omega) (Nat.zero_le _)
    unfold evenSize
    split <;> omega
  obtain ⟨hloop, hpair⟩ := distributeLoop_spec Nodes PerNode Extra Position le_rfl
  rw [htotal, if_neg (by omega)] at hpair
  obtain ⟨k, hk, hle, hlt, heq⟩ := hpair
  have hpos : 0 < evenSize PerNode Extra k := by
    rw [total_succ] at hlt
    omega
  set NewSize := update (evenSize PerNode Extra) k (evenSize PerNode Extra k - 1) with hNewSize
  have hself : NewSize k = evenSize PerNode Extra k - 1 := update_self ..
  have hother (m : Nat) (hm : m ≠ k) : NewSize m = evenSize PerNode Extra m := update_of_ne hm ..
  have hbefore : total NewSize k = total (evenSize PerNode Extra) k :=
    total_congr fun m hm => hother m (by omega)
  have hNewTotal (m : Nat) (hm : k < m) :
      total NewSize m + 1 = total (evenSize PerNode Extra) m := by
    induction m, hm using Nat.le_induction with
    | base =>
      rw [total_succ, total_succ, hself, hbefore]
      omega
    | succ m hm ih =>
      rw [total_succ, total_succ, hother m (by omega), ← ih]
      omega
  have hNewCap (m : Nat) : NewSize m ≤ Capacity := by
    by_cases hm : m = k
    · rw [hm, hself]
      exact (Nat.sub_le _ _).trans (hcap k)
    · rw [hother m hm]
      exact hcap m
  have hElements : total NewSize Nodes = Elements := by
    have := hNewTotal Nodes hk
    omega
  refine ⟨NewSize, k, Position - total (evenSize PerNode Extra) k, ?_, fun m _ => hNewCap m,
    hElements, hk, by omega, ?_, ?_⟩
  · rw [distribute, if_neg (by rw [Bool.toNat_true]; omega), if_neg hNodes]
    simp only [Bool.toNat_true, ← hPerNode, ← hExtra, hloop, heq, htotal, ne_eq, not_true_eq_false,
      if_true, if_false, true_and, ← hNewSize]
    rw [if_neg (by omega), if_pos ⟨fun m _ => hNewCap m, hElements⟩]
  · rw [total_succ] at hlt
    omega
  · have := hcap k
    omega

/-! ## Moving elements -/

variable {α : Type*}

/-- The slots of a node. The arrays `first` and `second` hold the two parts of an element. -/
abbrev NodeBase (α : Type*) := Nat → α

namespace NodeBase

def elements (Node : NodeBase α) (Size : Nat) : List α := (range Size).map Node

def copyLoop (Other : NodeBase α) : NodeBase α → Nat → Nat → Nat → NodeBase α
  | this, _, _, 0 => this
  | this, i, j, Count + 1 => copyLoop Other (update this j (Other i)) (i + 1) (j + 1) Count

/-- The loop of `copy` within one node. -/
def moveLeftLoop : NodeBase α → Nat → Nat → Nat → NodeBase α
  | this, _, _, 0 => this
  | this, i, j, Count + 1 => moveLeftLoop (update this j (this i)) (i + 1) (j + 1) Count

def moveRightLoop : NodeBase α → Nat → Nat → Nat → NodeBase α
  | this, _, _, 0 => this
  | this, i, j, Count + 1 =>
    moveRightLoop (update this (j + Count) (this (i + Count))) i j Count

variable (N : Nat) (this : NodeBase α)

/-! There is no result when an assertion fails. -/

def copy (Other : NodeBase α) (i j Count : Nat) : Option (NodeBase α) :=
  if i + Count ≤ N ∧ j + Count ≤ N then some (copyLoop Other this i j Count) else none

def moveLeft (i j Count : Nat) : Option (NodeBase α) :=
  if j ≤ i ∧ i + Count ≤ N ∧ j + Count ≤ N then some (moveLeftLoop this i j Count) else none

def moveRight (i j Count : Nat) : Option (NodeBase α) :=
  if i ≤ j ∧ j + Count ≤ N then some (moveRightLoop this i j Count) else none

/-- `erase`. The difference is unsigned, and is out of range when the range is not in the node. -/
def erase (i j Size : Nat) : Option (NodeBase α) :=
  if j ≤ Size then moveLeft N this j i (Size - j) else none

/-- The new nodes, this one first. -/
def transferToLeftSib (Size : Nat) (Sib : NodeBase α) (SSize Count : Nat) :
    Option (NodeBase α × NodeBase α) :=
  (copy N Sib this 0 SSize Count).bind fun Sib =>
    (erase N this 0 Count Size).map fun this => (this, Sib)

def transferToRightSib (Size : Nat) (Sib : NodeBase α) (SSize Count : Nat) :
    Option (NodeBase α × NodeBase α) :=
  (moveRight N Sib 0 Count SSize).bind fun Sib =>
    (copy N Sib this (Size - Count) 0 Count).map fun Sib => (this, Sib)

/-- The new nodes, this one first, and the number of elements added to it. -/
def adjustFromLeftSib (Size : Nat) (Sib : NodeBase α) (SSize : Nat) (Add : Int) :
    Option ((NodeBase α × NodeBase α) × Int) :=
  if 0 < Add then
    let Count := min (min Add.toNat SSize) (N - Size)
    (transferToRightSib N Sib SSize this Size Count).map fun (Sib, this) => ((this, Sib), Count)
  else
    let Count := min (min (-Add).toNat Size) (N - SSize)
    (transferToLeftSib N this Size Sib SSize Count).map fun nodes => (nodes, -Count)

variable {N this}

theorem copyLoop_apply (Other this : NodeBase α) (i j Count k : Nat) :
    copyLoop Other this i j Count k =
      if j ≤ k ∧ k < j + Count then Other (i + (k - j)) else this k := by
  induction Count generalizing this i j with
  | zero => rw [copyLoop, if_neg (by omega)]
  | succ Count ih =>
    rw [copyLoop, ih]
    by_cases hk : k = j
    · subst hk
      rw [if_neg (by omega), if_pos (by omega), update_self, Nat.sub_self, Nat.add_zero]
    · rw [update_of_ne hk]
      by_cases hin : j + 1 ≤ k ∧ k < j + 1 + Count
      · rw [if_pos hin, if_pos (by omega), show i + 1 + (k - (j + 1)) = i + (k - j) by omega]
      · rw [if_neg hin, if_neg (by omega)]

theorem moveLeftLoop_apply (this : NodeBase α) {i j : Nat} (hij : j ≤ i) (Count k : Nat) :
    moveLeftLoop this i j Count k =
      if j ≤ k ∧ k < j + Count then this (i + (k - j)) else this k := by
  induction Count generalizing this i j with
  | zero => rw [moveLeftLoop, if_neg (by omega)]
  | succ Count ih =>
    rw [moveLeftLoop, ih _ (by omega)]
    by_cases hk : k = j
    · subst hk
      rw [if_neg (by omega), if_pos (by omega), update_self, Nat.sub_self, Nat.add_zero]
    · by_cases hin : j + 1 ≤ k ∧ k < j + 1 + Count
      · rw [if_pos hin, if_pos (by omega), update_of_ne (by omega),
          show i + 1 + (k - (j + 1)) = i + (k - j) by omega]
      · rw [if_neg hin, if_neg (by omega), update_of_ne hk]

theorem moveRightLoop_apply (this : NodeBase α) {i j : Nat} (hij : i ≤ j) (Count k : Nat) :
    moveRightLoop this i j Count k =
      if j ≤ k ∧ k < j + Count then this (i + (k - j)) else this k := by
  induction Count generalizing this with
  | zero => rw [moveRightLoop, if_neg (by omega)]
  | succ Count ih =>
    rw [moveRightLoop, ih]
    by_cases hk : k = j + Count
    · subst hk
      rw [if_neg (by omega), if_pos (by omega), update_self, show i + (j + Count - j) = i + Count by
        omega]
    · by_cases hin : j ≤ k ∧ k < j + Count
      · rw [if_pos hin, if_pos (by omega), update_of_ne (by omega)]
      · rw [if_neg hin, if_neg (by omega), update_of_ne hk]

theorem elements_add (Node : NodeBase α) (m n : Nat) :
    Node.elements (m + n) = Node.elements m ++ NodeBase.elements (fun i => Node (m + i)) n := by
  rw [elements, elements, elements, range_add, map_append, map_map]
  rfl

theorem elements_congr {Node Node' : NodeBase α} {n : Nat} (h : ∀ k < n, Node k = Node' k) :
    Node.elements n = Node'.elements n :=
  map_congr_left fun k hk => h k (mem_range.mp hk)

theorem transferToRightSib_spec (this Sib : NodeBase α) {Size SSize Count : Nat}
    (hCount : Count ≤ Size) (hSize : Size ≤ N) (hfit : SSize + Count ≤ N) :
    ∃ Sib', transferToRightSib N this Size Sib SSize Count = some (this, Sib') ∧
      this.elements (Size - Count) ++ Sib'.elements (SSize + Count) =
        this.elements Size ++ Sib.elements SSize := by
  refine ⟨copyLoop this (moveRightLoop Sib 0 Count SSize) (Size - Count) 0 Count, ?_, ?_⟩
  · rw [transferToRightSib, moveRight, if_pos ⟨Nat.zero_le _, by omega⟩, Option.bind_some, copy,
      if_pos ⟨by omega, by omega⟩]
    rfl
  · have hsplit := this.elements_add (Size - Count) Count
    rw [Nat.sub_add_cancel hCount] at hsplit
    rw [hsplit, append_assoc, Nat.add_comm SSize, elements_add]
    refine congrArg₂ _ rfl (congrArg₂ _ (elements_congr fun k hk => ?_)
      (elements_congr fun k hk => ?_))
    · rw [copyLoop_apply, if_pos ⟨Nat.zero_le _, by omega⟩, Nat.sub_zero]
    · rw [copyLoop_apply, if_neg (by omega), moveRightLoop_apply _ (Nat.zero_le _),
        if_pos (by omega)]
      congr 1
      omega

theorem transferToLeftSib_spec (this Sib : NodeBase α) {Size SSize Count : Nat}
    (hCount : Count ≤ Size) (hSize : Size ≤ N) (hfit : SSize + Count ≤ N) :
    ∃ this' Sib', transferToLeftSib N this Size Sib SSize Count = some (this', Sib') ∧
      Sib'.elements (SSize + Count) ++ NodeBase.elements this' (Size - Count) =
        Sib.elements SSize ++ this.elements Size := by
  refine ⟨moveLeftLoop this Count 0 (Size - Count), copyLoop this Sib 0 SSize Count, ?_, ?_⟩
  · rw [transferToLeftSib, copy, if_pos ⟨by omega, hfit⟩, Option.bind_some, erase, if_pos hCount,
      moveLeft, if_pos ⟨Nat.zero_le _, by omega, by omega⟩]
    rfl
  · have hsplit := this.elements_add Count (Size - Count)
    rw [Nat.add_sub_cancel' hCount] at hsplit
    rw [hsplit, elements_add, ← append_assoc]
    refine congrArg₂ _ (congrArg₂ _ (elements_congr fun k hk => ?_)
      (elements_congr fun k hk => ?_)) (elements_congr fun k hk => ?_)
    · rw [copyLoop_apply, if_neg (by omega)]
    · rw [copyLoop_apply, if_pos ⟨by omega, by omega⟩]
      congr 1
      omega
    · rw [moveLeftLoop_apply _ (Nat.zero_le _), if_pos ⟨Nat.zero_le _, by omega⟩, Nat.sub_zero]

theorem adjustFromLeftSib_spec (this Sib : NodeBase α) {Size SSize : Nat} (hSize : Size ≤ N)
    (hSSize : SSize ≤ N) (Add : Int) :
    ∃ this' Sib' d, adjustFromLeftSib N this Size Sib SSize Add = some ((this', Sib'), d) ∧
      (0 < Add ∧ d = (min (min Add.toNat SSize) (N - Size) : Nat) ∨
        Add ≤ 0 ∧ d = -(min (min (-Add).toNat Size) (N - SSize) : Nat)) ∧
      NodeBase.elements Sib' (SSize - d).toNat ++ NodeBase.elements this' (Size + d).toNat =
        Sib.elements SSize ++ this.elements Size := by
  unfold adjustFromLeftSib
  by_cases hAdd : 0 < Add
  · rw [if_pos hAdd]
    generalize hc : min (min Add.toNat SSize) (N - Size) = Count
    obtain ⟨this', heq, helements⟩ := transferToRightSib_spec (N := N) Sib this
      (show Count ≤ SSize by omega) hSSize (show Size + Count ≤ N by omega)
    refine ⟨this', Sib, Count, by dsimp only; rw [heq]; rfl, .inl ⟨hAdd, rfl⟩, ?_⟩
    rw [← helements]
    congr 2
    omega
  · rw [if_neg hAdd]
    generalize hc : min (min (-Add).toNat Size) (N - SSize) = Count
    obtain ⟨this', Sib', heq, helements⟩ := transferToLeftSib_spec (N := N) this Sib
      (show Count ≤ Size by omega) hSize (show SSize + Count ≤ N by omega)
    refine ⟨this', Sib', -Count, by dsimp only; rw [heq]; rfl, .inr ⟨not_lt.mp hAdd, rfl⟩, ?_⟩
    rw [← helements]
    congr 2 <;> omega

end NodeBase

/-- The nodes of a level and their sizes. -/
structure Siblings (α : Type*) where
  Node : Nat → NodeBase α
  CurSize : Nat → Nat

def Siblings.elements (s : Siblings α) (Nodes : Nat) : List α :=
  (range Nodes).flatMap fun n => (s.Node n).elements (s.CurSize n)

variable (N : Nat) (NewSize : Nat → Nat)

/-- Adjust the node `r` from its sibling `l` on the left. -/
def adjust (s : Siblings α) (l r : Nat) (Add : Int) : Option (Siblings α) :=
  (NodeBase.adjustFromLeftSib N (s.Node r) (s.CurSize r) (s.Node l) (s.CurSize l) Add).map
    fun ((right, left), d) =>
      { Node := update (update s.Node l left) r right
        CurSize := update (update s.CurSize l (s.CurSize l - d).toNat) r (s.CurSize r + d).toNat }

/-- The inner loop to the right, from the node before `m`. -/
def rightLoop (n : Nat) : Nat → Siblings α → Option (Siblings α)
  | 0, s => some s
  | m + 1, s => (adjust N s m n (NewSize n - s.CurSize n)).bind fun s =>
      if NewSize n ≤ s.CurSize n then some s else rightLoop n m s

def rightPass : Nat → Siblings α → Option (Siblings α)
  | 0, s => some s
  | n + 1, s =>
    (if s.CurSize (n + 1) = NewSize (n + 1) then some s
      else rightLoop N NewSize (n + 1) (n + 1) s).bind (rightPass n)

/-- The inner loop to the left, for some number of nodes from `m`. -/
def leftLoop (n : Nat) : Nat → Nat → Siblings α → Option (Siblings α)
  | 0, _, s => some s
  | count + 1, m, s => (adjust N s n m (s.CurSize n - NewSize n)).bind fun s =>
      if NewSize n ≤ s.CurSize n then some s else leftLoop n count (m + 1) s

/-- Move elements left, for some number of nodes from `n`. -/
def leftPass (Nodes : Nat) : Nat → Nat → Siblings α → Option (Siblings α)
  | 0, _, s => some s
  | count + 1, n, s =>
    (if s.CurSize n = NewSize n then some s
      else leftLoop N NewSize n (Nodes - (n + 1)) (n + 1) s).bind (leftPass Nodes count (n + 1))

/-- `adjustSiblingSizes`. There is no result when an assertion fails. -/
def adjustSiblingSizes (Nodes : Nat) (s : Siblings α) : Option (Siblings α) :=
  (rightPass N NewSize (Nodes - 1) s).bind fun s =>
    (leftPass N NewSize Nodes (Nodes - 1) 0 s).bind fun s =>
      if ∀ n < Nodes, s.CurSize n = NewSize n then some s else none

variable {N NewSize}

/-- A move of elements between two nodes. -/
structure Moved (l r : Nat) (s s' : Siblings α) : Prop where
  size : ∀ k, k ≠ l → k ≠ r → s'.CurSize k = s.CurSize k
  node : ∀ k, k ≠ l → k ≠ r → s'.Node k = s.Node k
  sum : s'.CurSize l + s'.CurSize r = s.CurSize l + s.CurSize r
  elements : (s'.Node l).elements (s'.CurSize l) ++ (s'.Node r).elements (s'.CurSize r) =
    (s.Node l).elements (s.CurSize l) ++ (s.Node r).elements (s.CurSize r)

theorem adjust_spec {s : Siblings α} {l r : Nat} (hlr : l < r) (hl : s.CurSize l ≤ N)
    (hr : s.CurSize r ≤ N) (Add : Int) :
    ∃ s', adjust N s l r Add = some s' ∧ Moved l r s s' ∧
      (0 < Add ∧ s'.CurSize r =
          s.CurSize r + min (min Add.toNat (s.CurSize l)) (N - s.CurSize r) ∨
        Add ≤ 0 ∧ s'.CurSize l =
          s.CurSize l + min (min (-Add).toNat (s.CurSize r)) (N - s.CurSize l)) := by
  obtain ⟨right, left, d, heq, hd, helements⟩ :=
    NodeBase.adjustFromLeftSib_spec (s.Node r) (s.Node l) hr hl Add
  have hne := hlr.ne
  refine ⟨_, by rw [adjust, heq]; rfl, ⟨fun k hkl hkr => ?_, fun k hkl hkr => ?_, ?_, ?_⟩, ?_⟩
  · simp [hkl, hkr]
  · simp [hkl, hkr]
  · simp only [update_self, update_of_ne hne]
    omega
  · simpa only [update_self, update_of_ne hne] using helements
  · simp only [update_self, update_of_ne hne]
    omega

theorem Siblings.elements_succ (s : Siblings α) (n : Nat) :
    s.elements (n + 1) = s.elements n ++ (s.Node n).elements (s.CurSize n) := by
  rw [elements, range_succ, flatMap_append, flatMap_singleton]
  rfl

theorem Moved.elements_eq {l r : Nat} {s s' : Siblings α} (h : Moved l r s s') (hlr : l < r)
    (hempty : ∀ k, l < k → k < r → s.CurSize k = 0) (n : Nat) :
    (n ≤ l ∨ r < n → s'.elements n = s.elements n) ∧
      (l < n → n ≤ r → s'.elements n = s.elements l ++ (s'.Node l).elements (s'.CurSize l) ∧
        s.elements n = s.elements l ++ (s.Node l).elements (s.CurSize l)) := by
  induction n with
  | zero => exact ⟨fun _ => rfl, fun h => absurd h (Nat.not_lt_zero _)⟩
  | succ n ih =>
    rw [Siblings.elements_succ, Siblings.elements_succ]
    by_cases hl : n = l
    · subst hl
      exact ⟨fun _ => by omega, fun _ _ => ⟨by rw [ih.1 (.inl le_rfl)], rfl⟩⟩
    by_cases hr : n = r
    · subst hr
      obtain ⟨hs', hs⟩ := ih.2 hlr le_rfl
      refine ⟨fun _ => ?_, fun _ _ => by omega⟩
      rw [hs', hs, append_assoc, append_assoc, h.elements]
    rw [h.size n hl hr, h.node n hl hr]
    refine ⟨fun hn => by rw [ih.1 (by omega)], fun hn hle => ?_⟩
    rw [hempty n (by omega) (by omega)]
    simpa [NodeBase.elements] using ih.2 (by omega) (by omega)

structure Keeps (N Nodes : Nat) (s s' : Siblings α) : Prop where
  le : ∀ k < Nodes, s'.CurSize k ≤ N
  total_eq : total s'.CurSize Nodes = total s.CurSize Nodes
  elements_eq : s'.elements Nodes = s.elements Nodes

theorem Keeps.trans {N Nodes : Nat} {s s' s'' : Siblings α} (h : Keeps N Nodes s s')
    (h' : Keeps N Nodes s' s'') : Keeps N Nodes s s'' :=
  ⟨h'.le, h'.total_eq.trans h.total_eq, h'.elements_eq.trans h.elements_eq⟩

theorem Moved.keeps {Nodes l r : Nat} {s s' : Siblings α} (h : Moved l r s s') (hlr : l < r)
    (hr : r < Nodes) (hempty : ∀ k, l < k → k < r → s.CurSize k = 0)
    (hle : ∀ k < Nodes, s.CurSize k ≤ N) (hl' : s'.CurSize l ≤ N) (hr' : s'.CurSize r ≤ N) :
    Keeps N Nodes s s' := by
  refine ⟨fun k hk => ?_, (total_move hlr h.sum h.size Nodes).1 (.inr hr),
    (h.elements_eq hlr hempty Nodes).1 (.inr hr)⟩
  by_cases hkl : k = l
  · rwa [hkl]
  by_cases hkr : k = r
  · rwa [hkr]
  rw [h.size k hkl hkr]
  exact hle k hk

theorem rightLoop_spec {Nodes n : Nat} (hn : n < Nodes) (hNew : NewSize n ≤ N) (m : Nat)
    (hm : m ≤ n) (s : Siblings α) (hle : ∀ k < Nodes, s.CurSize k ≤ N)
    (hempty : ∀ k, m ≤ k → k < n → s.CurSize k = 0)
    (hsmall : s.CurSize n < NewSize n ∨ m = n) :
    ∃ s', rightLoop N NewSize n m s = some s' ∧ Keeps N Nodes s s' ∧
      (∀ k, n < k → s'.CurSize k = s.CurSize k) ∧
      (NewSize n ≤ s'.CurSize n ∨ ∀ k < n, s'.CurSize k = 0) := by
  induction m generalizing s with
  | zero =>
    exact ⟨s, rfl, ⟨hle, rfl, rfl⟩, fun _ _ => rfl, .inr fun k hk => hempty k (Nat.zero_le k) hk⟩
  | succ m ih =>
    have hlen := hle n hn
    have hlem := hle m (by omega)
    obtain ⟨s₁, hadjust, hmoved, hsize⟩ := adjust_spec (show m < n by omega) hlem hlen
      (NewSize n - s.CurSize n : Int)
    have hsum := hmoved.sum
    have hkeeps : Keeps N Nodes s s₁ := hmoved.keeps (by omega) hn
      (fun k hk hkn => hempty k hk hkn) hle (by omega) (by omega)
    have hafter (k : Nat) (hk : n < k) : s₁.CurSize k = s.CurSize k :=
      hmoved.size k (by omega) (by omega)
    rw [rightLoop, hadjust, Option.bind_some]
    by_cases hreached : NewSize n ≤ s₁.CurSize n
    · rw [if_pos hreached]
      exact ⟨s₁, rfl, hkeeps, hafter, .inl hreached⟩
    · rw [if_neg hreached]
      have hempty₁ (k : Nat) (hk : m ≤ k) (hkn : k < n) : s₁.CurSize k = 0 := by
        rcases hk.eq_or_lt with rfl | hlt
        · omega
        · rw [hmoved.size k (by omega) (by omega)]
          exact hempty k hlt hkn
      obtain ⟨s₂, hrun, hkeeps₂, hafter₂, hdone⟩ := ih (by omega) s₁ hkeeps.le hempty₁
        (.inl (not_le.mp hreached))
      exact ⟨s₂, hrun, hkeeps.trans hkeeps₂,
        fun k hk => (hafter₂ k hk).trans (hafter k hk), hdone⟩

theorem rightPass_spec {Nodes : Nat} (hNew : ∀ k < Nodes, NewSize k ≤ N) (n : Nat) (hn : n < Nodes)
    (s : Siblings α) (hle : ∀ k < Nodes, s.CurSize k ≤ N)
    (htotal : ∀ k, n < k → k ≤ Nodes → total s.CurSize k ≤ total NewSize k) :
    ∃ s', rightPass N NewSize n s = some s' ∧ Keeps N Nodes s s' ∧
      ∀ k ≤ Nodes, total s'.CurSize k ≤ total NewSize k := by
  induction n generalizing s with
  | zero =>
    refine ⟨s, rfl, ⟨hle, rfl, rfl⟩, fun k hk => ?_⟩
    cases k with
    | zero => exact le_rfl
    | succ k => exact htotal _ (Nat.succ_pos k) hk
  | succ n ih =>
    have hstep : ∃ s₁, (if s.CurSize (n + 1) = NewSize (n + 1) then some s
        else rightLoop N NewSize (n + 1) (n + 1) s) = some s₁ ∧ Keeps N Nodes s s₁ ∧
        (∀ k, n + 1 < k → s₁.CurSize k = s.CurSize k) ∧
        (NewSize (n + 1) ≤ s₁.CurSize (n + 1) ∨ ∀ k < n + 1, s₁.CurSize k = 0) := by
      by_cases heq : s.CurSize (n + 1) = NewSize (n + 1)
      · exact ⟨s, if_pos heq, ⟨hle, rfl, rfl⟩, fun _ _ => rfl, .inl heq.ge⟩
      · rw [if_neg heq]
        exact rightLoop_spec hn (hNew _ hn) (n + 1) le_rfl s hle (fun k _ _ => by omega) (.inr rfl)
    obtain ⟨s₁, hs₁, hkeeps, hafter, hdone⟩ := hstep
    have hbound (k : Nat) (hk : n + 1 < k) (hkN : k ≤ Nodes) :
        total s₁.CurSize k ≤ total NewSize k := by
      rw [total_of_suffix hkN (fun j hj _ => hafter j (by omega)) hkeeps.total_eq]
      exact htotal k hk hkN
    obtain ⟨s₂, hs₂, hkeeps₂, htotal₂⟩ := ih (by omega) s₁ hkeeps.le fun k hk hkN => by
      rcases (show n + 1 ≤ k by omega).eq_or_lt with rfl | hlt
      · rcases hdone with hlarge | hempty
        · have hnext : total s₁.CurSize (n + 1) + s₁.CurSize (n + 1) ≤
              total NewSize (n + 1) + NewSize (n + 1) := hbound (n + 2) (by omega) hn
          omega
        · rw [total_of_empty (Nat.zero_le _) fun k _ hk => hempty k hk]
          exact Nat.zero_le _
      · exact hbound k hlt hkN
    exact ⟨s₂, by rw [rightPass, hs₁]; exact hs₂, hkeeps.trans hkeeps₂, htotal₂⟩

theorem leftLoop_spec {Nodes n : Nat} (hNew : NewSize n ≤ N) (count m : Nat) (hnm : n < m)
    (hcount : m + count = Nodes) (s : Siblings α) (hle : ∀ k < Nodes, s.CurSize k ≤ N)
    (hsum : total s.CurSize Nodes = total NewSize Nodes)
    (hbefore : ∀ k < n, s.CurSize k = NewSize k) (hn : s.CurSize n ≤ NewSize n)
    (hempty : ∀ k, n < k → k < m → s.CurSize k = 0)
    (htotal : ∀ k ≤ Nodes, total s.CurSize k ≤ total NewSize k) :
    ∃ s', leftLoop N NewSize n count m s = some s' ∧ Keeps N Nodes s s' ∧
      (∀ k ≤ n, s'.CurSize k = NewSize k) ∧
      ∀ k ≤ Nodes, total s'.CurSize k ≤ total NewSize k := by
  have hfirst (s' : Siblings α) (hbefore : ∀ k < n, s'.CurSize k = NewSize k) :
      total s'.CurSize (n + 1) = total NewSize n + s'.CurSize n := by
    rw [total_succ, total_congr hbefore]
  induction count generalizing s m with
  | zero =>
    refine ⟨s, rfl, ⟨hle, rfl, rfl⟩, fun k hk => ?_, htotal⟩
    rcases hk.eq_or_lt with rfl | hlt
    · have hall := total_of_empty (show k + 1 ≤ Nodes by omega)
        fun j hj hjN => hempty j hj (by omega)
      have hNewAll := total_mono NewSize (show k + 1 ≤ Nodes by omega)
      rw [hfirst s hbefore] at hall
      rw [total_succ] at hNewAll
      omega
    · exact hbefore k hlt
  | succ count ih =>
    have hlen := hle n (by omega)
    have hlem := hle m (by omega)
    obtain ⟨s₁, hadjust, hmoved, hsize⟩ := adjust_spec hnm hlen hlem
      (s.CurSize n - NewSize n : Int)
    have hsum₁ := hmoved.sum
    have hkeeps : Keeps N Nodes s s₁ := hmoved.keeps hnm (by omega) hempty hle (by omega) (by omega)
    have hbefore₁ (k : Nat) (hk : k < n) : s₁.CurSize k = NewSize k := by
      rw [hmoved.size k (by omega) (by omega)]
      exact hbefore k hk
    have hempty₁ (k : Nat) (hk : n < k) (hkm : k < m) : s₁.CurSize k = 0 := by
      rw [hmoved.size k (by omega) (by omega)]
      exact hempty k hk hkm
    have hn₁ : s₁.CurSize n ≤ NewSize n := by omega
    have htotal₁ (k : Nat) (hk : k ≤ Nodes) : total s₁.CurSize k ≤ total NewSize k := by
      by_cases hin : n < k ∧ k ≤ m
      · have hfirst₁ := hfirst s₁ hbefore₁
        have hzero := total_of_empty (show n + 1 ≤ k by omega)
          fun j hj hjk => hempty₁ j hj (by omega)
        have hmono := total_mono NewSize (show n + 1 ≤ k by omega)
        rw [total_succ] at hmono
        omega
      · rw [(total_move hnm hmoved.sum hmoved.size k).1 (by omega)]
        exact htotal k hk
    rw [leftLoop, hadjust, Option.bind_some]
    by_cases hreached : NewSize n ≤ s₁.CurSize n
    · rw [if_pos hreached]
      refine ⟨s₁, rfl, hkeeps, fun k hk => ?_, htotal₁⟩
      rcases hk.eq_or_lt with rfl | hlt
      · omega
      · exact hbefore₁ k hlt
    · rw [if_neg hreached]
      obtain ⟨s₂, hrun, hkeeps₂, hdone, htotal₂⟩ := ih (m + 1) (by omega) (by omega) s₁ hkeeps.le
        (hkeeps.total_eq.trans hsum) hbefore₁ hn₁ (fun k hk hkm => by
          rcases (show k ≤ m by omega).eq_or_lt with rfl | hlt
          · omega
          · exact hempty₁ k hk hlt) htotal₁
      exact ⟨s₂, hrun, hkeeps.trans hkeeps₂, hdone, htotal₂⟩

theorem leftPass_spec {Nodes : Nat} (hNew : ∀ k < Nodes, NewSize k ≤ N) (count n : Nat)
    (hcount : n + count + 1 = Nodes) (s : Siblings α) (hle : ∀ k < Nodes, s.CurSize k ≤ N)
    (hsum : total s.CurSize Nodes = total NewSize Nodes)
    (hbefore : ∀ k < n, s.CurSize k = NewSize k)
    (htotal : ∀ k ≤ Nodes, total s.CurSize k ≤ total NewSize k) :
    ∃ s', leftPass N NewSize Nodes count n s = some s' ∧ Keeps N Nodes s s' ∧
      ∀ k < n + count, s'.CurSize k = NewSize k := by
  induction count generalizing s n with
  | zero => exact ⟨s, rfl, ⟨hle, rfl, rfl⟩, hbefore⟩
  | succ count ih =>
    have hstep : ∃ s₁, (if s.CurSize n = NewSize n then some s
        else leftLoop N NewSize n (Nodes - (n + 1)) (n + 1) s) = some s₁ ∧ Keeps N Nodes s s₁ ∧
        (∀ k ≤ n, s₁.CurSize k = NewSize k) ∧
        ∀ k ≤ Nodes, total s₁.CurSize k ≤ total NewSize k := by
      by_cases heq : s.CurSize n = NewSize n
      · refine ⟨s, if_pos heq, ⟨hle, rfl, rfl⟩, fun k hk => ?_, htotal⟩
        rcases hk.eq_or_lt with rfl | hlt
        · exact heq
        · exact hbefore k hlt
      · rw [if_neg heq]
        have hn := htotal (n + 1) (by omega)
        rw [total_succ, total_succ, total_congr hbefore] at hn
        exact leftLoop_spec (hNew n (by omega)) _ _ (Nat.lt_succ_self n) (by omega) s hle hsum
          hbefore (by omega) (fun k _ _ => by omega) htotal
    obtain ⟨s₁, hs₁, hkeeps, hdone, htotal₁⟩ := hstep
    obtain ⟨s₂, hs₂, hkeeps₂, hdone₂⟩ := ih (n + 1) (by omega) s₁ hkeeps.le
      (hkeeps.total_eq.trans hsum) (fun k hk => hdone k (by omega)) htotal₁
    exact ⟨s₂, by rw [leftPass, hs₁]; exact hs₂, hkeeps.trans hkeeps₂,
      fun k hk => hdone₂ k (by omega)⟩

theorem adjustSiblingSizes_spec {Nodes : Nat} (hNodes : 0 < Nodes)
    (hNew : ∀ k < Nodes, NewSize k ≤ N) (s : Siblings α) (hle : ∀ k < Nodes, s.CurSize k ≤ N)
    (hsum : total s.CurSize Nodes = total NewSize Nodes) :
    ∃ s', adjustSiblingSizes N NewSize Nodes s = some s' ∧
      (∀ k < Nodes, s'.CurSize k = NewSize k) ∧ s'.elements Nodes = s.elements Nodes := by
  obtain ⟨s₁, hs₁, hkeeps₁, htotal⟩ := rightPass_spec hNew (Nodes - 1) (by omega) s hle
    fun k hk hkN => by rw [show k = Nodes by omega, hsum]
  obtain ⟨s₂, hs₂, hkeeps₂, hdone⟩ := leftPass_spec hNew (Nodes - 1) 0 (by omega) s₁ hkeeps₁.le
    (hkeeps₁.total_eq.trans hsum) (fun k hk => absurd hk (Nat.not_lt_zero k)) htotal
  have hkeeps := hkeeps₁.trans hkeeps₂
  have hall (k : Nat) (hk : k < Nodes) : s₂.CurSize k = NewSize k := by
    by_cases hlast : k < Nodes - 1
    · exact hdone k (by omega)
    · have hrest : total s₂.CurSize (k + 1) = total NewSize (k + 1) := by
        rw [show k + 1 = Nodes by omega, hkeeps.total_eq, hsum]
      rw [total_succ, total_succ, total_congr fun j hj => hdone j (by omega)] at hrest
      omega
  exact ⟨s₂, by rw [adjustSiblingSizes, hs₁, Option.bind_some, hs₂, Option.bind_some, if_pos hall],
    hall, hkeeps.elements_eq⟩

/-- Sharing the elements of siblings of which an overflow says that they hold one more element: the
position has room for one insertion in its node, and the nodes get exactly the sizes of
`distribute`. -/
theorem distribute_adjustSiblingSizes {Nodes Elements Capacity Position : Nat} (s : Siblings α)
    (hle : ∀ k < Nodes, s.CurSize k ≤ Capacity) (hElements : total s.CurSize Nodes = Elements)
    (hfit : Elements + 1 ≤ Nodes * Capacity) (hPosition : Position ≤ Elements) :
    ∃ NewSize n offset, distribute Nodes Elements Capacity Position true =
        some (NewSize, n, offset) ∧
      (∀ k < Nodes, NewSize k ≤ Capacity) ∧ total NewSize Nodes = Elements ∧ n < Nodes ∧
      total NewSize n + offset = Position ∧ offset ≤ NewSize n ∧ NewSize n < Capacity ∧
      ∃ s', adjustSiblingSizes Capacity NewSize Nodes s = some s' ∧
        (∀ k < Nodes, s'.CurSize k = NewSize k) ∧ s'.elements Nodes = s.elements Nodes := by
  obtain ⟨NewSize, n, offset, heq, hcap, htotal, hn, hpos, hoffset, hroom⟩ :=
    distribute_spec hfit hPosition
  exact ⟨NewSize, n, offset, heq, hcap, htotal, hn, hpos, hoffset, hroom,
    adjustSiblingSizes_spec (by omega) hcap s hle (hElements.trans htotal.symm)⟩

/-- A full node and a new one. -/
theorem distribute_adjustSiblingSizes_two :
    ∃ NewSize n offset, distribute 2 3 3 1 true = some (NewSize, n, offset) ∧
      (∀ k < 2, NewSize k ≤ 3) ∧ total NewSize 2 = 3 ∧ n < 2 ∧ total NewSize n + offset = 1 ∧
      offset ≤ NewSize n ∧ NewSize n < 3 ∧
      ∃ s', adjustSiblingSizes 3 NewSize 2 (⟨fun _ i => i, fun k => if k = 0 then 3 else 0⟩ :
          Siblings Nat) = some s' ∧
        (∀ k < 2, s'.CurSize k = NewSize k) ∧ s'.elements 2 = [0, 1, 2] :=
  distribute_adjustSiblingSizes _ (by decide) rfl (by decide) (by decide)

end Zapcc.IntervalMap
