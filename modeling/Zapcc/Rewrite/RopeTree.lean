import Zapcc.Rewrite.RopeLeaf

/-!
# The tree of a rope

A node of height 0 is a leaf, and the children of an interior node have the same height. Every
operation on a node is described by what it does to the pieces of its leaves and to their order:
`split_spec`, `insert_spec` and `erase_spec`. An interior node without children is well formed; only
`erase` on the root makes one.
-/

namespace Zapcc.Rewrite

open Segments List

/-- `RopePieceBTreeInterior`, over the nodes below it. -/
structure RopePieceBTreeInterior (α : Type) where
  Size : Nat
  Children : List α

def RopePieceBTreeNode : Nat → Type
  | 0 => RopePieceBTreeLeaf
  | height + 1 => RopePieceBTreeInterior (RopePieceBTreeNode height)

namespace RopePieceBTreeInterior

variable {α : Type}

def isFull (n : RopePieceBTreeInterior α) : Prop := n.Children.length = 2 * WidthFactor

instance (n : RopePieceBTreeInterior α) : Decidable n.isFull := inferInstanceAs (Decidable (_ = _))

def FullRecomputeSizeLocally (size : α → Nat) (n : RopePieceBTreeInterior α) :
    RopePieceBTreeInterior α := { n with Size := total size n.Children }

/-- Put a child behind child `i` of a node that is not full. -/
def insertChild (n : RopePieceBTreeInterior α) (i : Nat) (RHS : α) : RopePieceBTreeInterior α :=
  { n with Children := n.Children.take (i + 1) ++ RHS :: n.Children.drop (i + 1) }

/-- `HandleChildPiece`: the node, and the new node when this one was full. -/
def HandleChildPiece (size : α → Nat) (n : RopePieceBTreeInterior α) (i : Nat) (RHS : α) :
    RopePieceBTreeInterior α × Option (RopePieceBTreeInterior α) :=
  if ¬n.isFull then (n.insertChild i RHS, none)
  else
    let NewNode : RopePieceBTreeInterior α := ⟨0, n.Children.drop WidthFactor⟩
    let n := { n with Children := n.Children.take WidthFactor }
    let (n, NewNode) :=
      if i < WidthFactor then (n.insertChild i RHS, NewNode)
      else (n, NewNode.insertChild (i - WidthFactor) RHS)
    (n.FullRecomputeSizeLocally size, some (NewNode.FullRecomputeSizeLocally size))

/-- Store what an operation on child `i` returned. -/
def storeChild (size : α → Nat) (n : RopePieceBTreeInterior α) (i : Nat) (c : α) :
    Option α → RopePieceBTreeInterior α × Option (RopePieceBTreeInterior α)
  | none => ({ n with Children := n.Children.set i c }, none)
  | some RHS => HandleChildPiece size { n with Children := n.Children.set i c } i RHS

/-- `split`, over the operation on the nodes below. -/
def split (size : α → Nat) (splitChild : α → Nat → LeafOrder → Option (α × Option α × LeafOrder))
    (n : RopePieceBTreeInterior α) (Offset : Nat) (o : LeafOrder) :
    Option (RopePieceBTreeInterior α × Option (RopePieceBTreeInterior α) × LeafOrder) :=
  if Offset = 0 ∨ Offset = n.Size then some (n, none, o)
  else do
    let (i, ChildOffset) ← findAt size Offset n.Children 0 0
    if ChildOffset = Offset then some (n, none, o)
    else do
      let child ← n.Children[i]?
      let (child, RHS, o) ← splitChild child (Offset - ChildOffset) o
      let (n, RHS) := n.storeChild size i child RHS
      some (n, RHS, o)

def insertionChild (size : α → Nat) (n : RopePieceBTreeInterior α) (Offset : Nat) :
    Option (Nat × Nat) :=
  if Offset = n.Size then do
    let last ← n.Children[n.Children.length - 1]?
    some (n.Children.length - 1, n.Size - size last)
  else findReaching size Offset n.Children 0 0

/-- `insert`, over the operation on the nodes below. -/
def insert (size : α → Nat)
    (insertChild : α → Nat → RopePiece → LeafOrder → Option (α × Option α × LeafOrder))
    (n : RopePieceBTreeInterior α) (Offset : Nat) (R : RopePiece) (o : LeafOrder) :
    Option (RopePieceBTreeInterior α × Option (RopePieceBTreeInterior α) × LeafOrder) := do
  let (i, ChildOffs) ← n.insertionChild size Offset
  let child ← n.Children[i]?
  let n := { n with Size := n.Size + R.size }
  let (child, RHS, o) ← insertChild child (Offset - ChildOffs) R o
  let (n, RHS) := n.storeChild size i child RHS
  some (n, RHS, o)

/-- The loop of `erase` that finds the first child that overlaps with the offset: its index, and the
offset in it. -/
def skipChildren (size : α → Nat) : List α → Nat → Nat → Option (Nat × Nat)
  | [], _, _ => none
  | c :: cs, i, Offset =>
    if size c ≤ Offset then skipChildren size cs (i + 1) (Offset - size c) else some (i, Offset)

/-- The loop of `erase` over the children from there on. -/
def eraseChildren (size : α → Nat)
    (eraseChild : α → Nat → Nat → LeafOrder → Option (α × LeafOrder))
    (destroy : α → LeafOrder → LeafOrder) :
    List α → Nat → Nat → LeafOrder → Option (List α × LeafOrder)
  | [], _, NumBytes, o => if NumBytes = 0 then some ([], o) else none
  | c :: cs, Offset, NumBytes, o =>
    if NumBytes = 0 then some (c :: cs, o)
    else if Offset + NumBytes < size c then do
      let (c, o) ← eraseChild c Offset NumBytes o
      some (c :: cs, o)
    else if Offset ≠ 0 then do
      let BytesFromChild := size c - Offset
      let (c, o) ← eraseChild c Offset BytesFromChild o
      let (cs, o) ← eraseChildren size eraseChild destroy cs 0 (NumBytes - BytesFromChild) o
      some (c :: cs, o)
    else eraseChildren size eraseChild destroy cs 0 (NumBytes - size c) (destroy c o)

/-- `erase`, over the operations on the nodes below. -/
def erase (size : α → Nat) (eraseChild : α → Nat → Nat → LeafOrder → Option (α × LeafOrder))
    (destroy : α → LeafOrder → LeafOrder) (n : RopePieceBTreeInterior α) (Offset NumBytes : Nat)
    (o : LeafOrder) : Option (RopePieceBTreeInterior α × LeafOrder) := do
  let (i, Offset) ← skipChildren size n.Children 0 Offset
  let (cs, o) ← eraseChildren size eraseChild destroy (n.Children.drop i) Offset NumBytes o
  some (⟨n.Size - NumBytes, n.Children.take i ++ cs⟩, o)

end RopePieceBTreeInterior

namespace RopePieceBTreeNode

abbrev interior {height : Nat} (Size : Nat) (cs : List (RopePieceBTreeNode height)) :
    RopePieceBTreeNode (height + 1) :=
  (⟨Size, cs⟩ : RopePieceBTreeInterior (RopePieceBTreeNode height))

def size : (height : Nat) → RopePieceBTreeNode height → Nat
  | 0, l => RopePieceBTreeLeaf.Size l
  | _ + 1, n => RopePieceBTreeInterior.Size n

/-- `Destroy`: the leaves leave their list. -/
def Destroy : (height : Nat) → RopePieceBTreeNode height → LeafOrder → LeafOrder
  | 0, l, o => o.removeFromLeafInOrder (RopePieceBTreeLeaf.id l)
  | height + 1, n, o =>
    (RopePieceBTreeInterior.Children n).foldl (fun o c => Destroy height c o) o

def split : (height : Nat) → RopePieceBTreeNode height → Nat → LeafOrder →
    Option (RopePieceBTreeNode height × Option (RopePieceBTreeNode height) × LeafOrder)
  | 0, l, Offset, o =>
    if size 0 l < Offset then none else RopePieceBTreeLeaf.split l Offset o
  | height + 1, n, Offset, o =>
    if size (height + 1) n < Offset then none
    else RopePieceBTreeInterior.split (size height) (split height) n Offset o

def insert : (height : Nat) → RopePieceBTreeNode height → Nat → RopePiece → LeafOrder →
    Option (RopePieceBTreeNode height × Option (RopePieceBTreeNode height) × LeafOrder)
  | 0, l, Offset, R, o =>
    if size 0 l < Offset then none else RopePieceBTreeLeaf.insert l Offset R o
  | height + 1, n, Offset, R, o =>
    if size (height + 1) n < Offset then none
    else RopePieceBTreeInterior.insert (size height) (insert height) n Offset R o

def erase : (height : Nat) → RopePieceBTreeNode height → Nat → Nat → LeafOrder →
    Option (RopePieceBTreeNode height × LeafOrder)
  | 0, l, Offset, NumBytes, o =>
    if size 0 l < Offset + NumBytes then none
    else (RopePieceBTreeLeaf.erase l Offset NumBytes).map fun l => (l, o)
  | height + 1, n, Offset, NumBytes, o =>
    if size (height + 1) n < Offset + NumBytes then none
    else
      RopePieceBTreeInterior.erase (size height) (erase height) (Destroy height) n Offset NumBytes
        o

/-- The leaves below a node, in order. -/
def leaves : (height : Nat) → RopePieceBTreeNode height → List RopePieceBTreeLeaf
  | 0, l => [l]
  | height + 1, n => (RopePieceBTreeInterior.Children n).flatMap (leaves height)

/-- The pieces below a node, in order. -/
def pieces (height : Nat) (n : RopePieceBTreeNode height) : List RopePiece :=
  (leaves height n).flatMap RopePieceBTreeLeaf.Pieces

/-- The leaves below a node as they are linked. -/
def ids (height : Nat) (n : RopePieceBTreeNode height) : List Nat :=
  (leaves height n).map RopePieceBTreeLeaf.id

/-- The invariant of a node: the cached sizes are right, no node has too many children, and no child
is empty. -/
def WF : (height : Nat) → RopePieceBTreeNode height → Prop
  | 0, l => RopePieceBTreeLeaf.WF l
  | height + 1, n =>
    RopePieceBTreeInterior.Size n = total (size height) (RopePieceBTreeInterior.Children n) ∧
      (RopePieceBTreeInterior.Children n).length ≤ 2 * WidthFactor ∧
        ∀ c ∈ RopePieceBTreeInterior.Children n, WF height c ∧ 0 < size height c

theorem pieces_succ (height : Nat) (n : RopePieceBTreeNode (height + 1)) :
    pieces (height + 1) n = (RopePieceBTreeInterior.Children n).flatMap (pieces height) :=
  flatMap_assoc

theorem ids_succ (height : Nat) (n : RopePieceBTreeNode (height + 1)) :
    ids (height + 1) n = (RopePieceBTreeInterior.Children n).flatMap (ids height) :=
  map_flatMap

variable {height : Nat}

theorem flatMap_pieces (ns : List (RopePieceBTreeNode (height + 1))) :
    ns.flatMap (pieces (height + 1)) =
      (ns.flatMap fun n => RopePieceBTreeInterior.Children n).flatMap (pieces height) := by
  refine (flatMap_congr fun n _ => pieces_succ height n).trans ?_
  exact flatMap_assoc.symm

theorem flatMap_ids (ns : List (RopePieceBTreeNode (height + 1))) :
    ns.flatMap (ids (height + 1)) =
      (ns.flatMap fun n => RopePieceBTreeInterior.Children n).flatMap (ids height) := by
  refine (flatMap_congr fun n _ => ids_succ height n).trans ?_
  exact flatMap_assoc.symm

/-- Nodes that may be the children of another one. -/
def AllGood (height : Nat) (cs : List (RopePieceBTreeNode height)) : Prop :=
  ∀ c ∈ cs, WF height c ∧ 0 < size height c

theorem AllGood.append {cs ds : List (RopePieceBTreeNode height)}
    (hc : AllGood height cs) (hd : AllGood height ds) : AllGood height (cs ++ ds) := by
  intro c hmem
  rcases mem_append.mp hmem with h | h
  · exact hc c h
  · exact hd c h

theorem AllGood.sublist {cs ds : List (RopePieceBTreeNode height)}
    (h : AllGood height ds) (hsub : cs.Sublist ds) : AllGood height cs :=
  fun c hc => h c (hsub.subset hc)

theorem WF.pieces {n : RopePieceBTreeNode height} (h : WF height n) :
    size height n = total RopePiece.size (pieces height n) ∧ AllPos (pieces height n) := by
  induction height with
  | zero =>
    have hleaf : RopePieceBTreeLeaf.WF n := h
    have hpieces : RopePieceBTreeNode.pieces 0 n = RopePieceBTreeLeaf.Pieces n :=
      append_nil _
    rw [hpieces]
    exact ⟨hleaf.size, hleaf.pos⟩
  | succ height ih =>
    obtain ⟨hsize, -, hchildren⟩ := h
    rw [pieces_succ]
    show RopePieceBTreeInterior.Size n = _ ∧ _
    rw [hsize]
    generalize RopePieceBTreeInterior.Children n = cs at hchildren
    induction cs with
    | nil => exact ⟨rfl, fun x hx => absurd hx not_mem_nil⟩
    | cons c cs ihcs =>
      obtain ⟨hc, hcpos⟩ := ih (hchildren c (mem_cons_self ..)).1
      obtain ⟨hcs, hcspos⟩ := ihcs fun d hd => hchildren d (mem_cons_of_mem _ hd)
      refine ⟨?_, ?_⟩
      · rw [flatMap_cons, total, total_append, hc, hcs]
      · exact hcpos.append hcspos

theorem AllGood.pieces {cs : List (RopePieceBTreeNode height)}
    (h : AllGood height cs) :
    total (size height) cs = total RopePiece.size (cs.flatMap (pieces height)) ∧
      AllPos (cs.flatMap (pieces height)) := by
  induction cs with
  | nil => exact ⟨rfl, fun x hx => absurd hx not_mem_nil⟩
  | cons c cs ih =>
    obtain ⟨hc, hcpos⟩ := (h c (mem_cons_self ..)).1.pieces
    obtain ⟨hcs, hcspos⟩ := ih (h.sublist (sublist_cons_self ..))
    refine ⟨?_, ?_⟩
    · rw [flatMap_cons, total, total_append, hc, hcs]
    · exact hcpos.append hcspos

/-- A node that an operation has changed, with the new node if it was full. -/
structure Grown (height : Nat) (n : RopePieceBTreeNode height) (o : LeafOrder)
    (ps : List RopePiece)
    (r : RopePieceBTreeNode height × Option (RopePieceBTreeNode height) × LeafOrder) : Prop where
  good : ∀ m ∈ r.1 :: r.2.1.toList, WF height m ∧ (ps ≠ [] → 0 < size height m)
  pieces : (r.1 :: r.2.1.toList).flatMap (pieces height) = ps
  order : ∀ before after, o.Ordered (before ++ ids height n ++ after) →
    r.2.2.Ordered (before ++ (r.1 :: r.2.1.toList).flatMap (ids height) ++ after)

theorem Grown.of_leaf {l : RopePieceBTreeLeaf} {o : LeafOrder} {ps : List RopePiece}
    {r : RopePieceBTreeLeaf × Option RopePieceBTreeLeaf × LeafOrder} (h : l.Grown o ps r) :
    Grown 0 l o ps r where
  good m hm := by
    obtain ⟨hwf, hne⟩ := h.good m hm
    refine ⟨hwf, fun hps => ?_⟩
    show 0 < RopePieceBTreeLeaf.Size m
    rw [hwf.size]
    exact hwf.pos.total_pos (hne hps)
  pieces := by
    have hpieces : RopePieceBTreeNode.pieces 0 = RopePieceBTreeLeaf.Pieces :=
      funext fun l => append_nil _
    rw [hpieces]
    exact h.pieces
  order before after horder := by
    have hids : (r.1 :: r.2.1.toList).flatMap (ids 0) =
        (r.1 :: r.2.1.toList).map RopePieceBTreeLeaf.id := map_eq_flatMap.symm
    have horder' : o.Ordered (before ++ [l.id] ++ after) := horder
    rw [append_assoc] at horder'
    exact (congrArg (fun ids => r.2.2.Ordered (before ++ ids ++ after)) hids).mpr
      (h.order before after horder')

theorem Grown.refl {n : RopePieceBTreeNode height} (h : WF height n)
    (o : LeafOrder) : Grown height n o (RopePieceBTreeNode.pieces height n) (n, none, o) where
  good m hm := by
    rw [mem_singleton.mp hm]
    obtain ⟨hsize, hpos⟩ := h.pieces
    exact ⟨h, fun hne => hsize ▸ hpos.total_pos hne⟩
  pieces := append_nil _
  order before after horder := by
    show o.Ordered (before ++ (ids height n ++ []) ++ after)
    rw [append_nil]
    exact horder

theorem wf_interior {cs : List (RopePieceBTreeNode height)}
    (hgood : AllGood height cs) (hlength : cs.length ≤ 2 * WidthFactor) {Size : Nat}
    (hsize : Size = total (size height) cs) :
    WF (height + 1) (interior Size cs) :=
  ⟨hsize, hlength, hgood⟩

theorem AllGood.total_pos {cs : List (RopePieceBTreeNode height)}
    (h : AllGood height cs) (hne : cs ≠ []) : 0 < total (size height) cs := by
  cases cs with
  | nil => exact absurd rfl hne
  | cons c cs => exact Nat.add_pos_left (h c (mem_cons_self ..)).2 _

/-- An interior node that an operation on its children has changed. -/
structure Stored (height : Nat) (cs : List (RopePieceBTreeNode height))
    (r : RopePieceBTreeInterior (RopePieceBTreeNode height) ×
      Option (RopePieceBTreeInterior (RopePieceBTreeNode height))) : Prop where
  good : ∀ m ∈ r.1 :: r.2.toList, WF (height + 1) m ∧ 0 < m.Size
  children : (r.1 :: r.2.toList).flatMap RopePieceBTreeInterior.Children = cs

theorem stored_half {cs : List (RopePieceBTreeNode height)}
    (hgood : AllGood height cs) (hne : cs ≠ []) (hlength : cs.length ≤ 2 * WidthFactor)
    (Size : Nat) :
    WF (height + 1) (RopePieceBTreeInterior.FullRecomputeSizeLocally
      (RopePieceBTreeNode.size height) ⟨Size, cs⟩) ∧
      0 < (RopePieceBTreeInterior.FullRecomputeSizeLocally
        (RopePieceBTreeNode.size height) ⟨Size, cs⟩).Size :=
  ⟨wf_interior hgood hlength rfl, hgood.total_pos hne⟩

theorem insertChild_eq {α : Type} {xs ys : List α} {Size i : Nat} (hi : xs.length = i + 1)
    (RHS : α) :
    RopePieceBTreeInterior.insertChild ⟨Size, xs ++ ys⟩ i RHS = ⟨Size, xs ++ RHS :: ys⟩ := by
  rw [RopePieceBTreeInterior.insertChild, ← hi, take_left, drop_left]

theorem HandleChildPiece_spec {xs ys : List (RopePieceBTreeNode height)}
    {RHS : RopePieceBTreeNode height} {Size i : Nat} (hi : xs.length = i + 1)
    (hlength : (xs ++ ys).length ≤ 2 * WidthFactor) (hgood : AllGood height (xs ++ RHS :: ys))
    (hsize : Size = total (RopePieceBTreeNode.size height) (xs ++ RHS :: ys)) :
    Stored height (xs ++ RHS :: ys)
      (RopePieceBTreeInterior.HandleChildPiece (RopePieceBTreeNode.size height) ⟨Size, xs ++ ys⟩ i
        RHS) := by
  unfold RopePieceBTreeInterior.HandleChildPiece
  by_cases hfull : (⟨Size, xs ++ ys⟩ : RopePieceBTreeInterior (RopePieceBTreeNode height)).isFull
  swap
  · rw [if_pos hfull, insertChild_eq hi]
    have hnotFull : (xs ++ ys).length ≠ 2 * WidthFactor := hfull
    refine ⟨fun m hm => ?_, append_nil _⟩
    rw [mem_singleton.mp hm]
    refine ⟨wf_interior hgood ?_ hsize, ?_⟩
    · rw [length_append] at hlength hnotFull ⊢
      rw [length_cons]
      omega
    · rw [hsize]
      exact hgood.total_pos (by simp)
  have hfull' : (xs ++ ys).length = 2 * WidthFactor := hfull
  rw [length_append] at hfull'
  dsimp only
  split_ifs with hleft
  · have hfirst : (xs ++ ys).take WidthFactor = xs ++ ys.take (WidthFactor - xs.length) := by
      rw [take_append, take_of_length_le (by omega)]
    have hsecond : (xs ++ ys).drop WidthFactor = ys.drop (WidthFactor - xs.length) := by
      rw [drop_append, drop_of_length_le (by omega), nil_append]
    rw [hfirst, hsecond, insertChild_eq hi]
    have hjoin : xs ++ RHS :: ys.take (WidthFactor - xs.length) ++
        ys.drop (WidthFactor - xs.length) = xs ++ RHS :: ys := by
      rw [append_assoc, cons_append, take_append_drop]
    refine ⟨fun m hm => ?_, ?_⟩
    · rw [← hjoin] at hgood
      rcases mem_cons.mp hm with rfl | hm
      · refine stored_half (hgood.sublist (sublist_append_left _ _)) (by simp) ?_ Size
        rw [length_append, length_cons, length_take]
        omega
      · rw [mem_singleton.mp hm]
        refine stored_half (hgood.sublist (sublist_append_right _ _)) ?_ ?_ 0
        · rw [← length_pos_iff, length_drop]
          omega
        · rw [length_drop]
          omega
    · show _ ++ (_ ++ []) = _
      rw [append_nil]
      exact hjoin
  · have hfirst : (xs ++ ys).take WidthFactor = xs.take WidthFactor :=
      take_append_of_le_length (by omega)
    have hsecond : (xs ++ ys).drop WidthFactor = xs.drop WidthFactor ++ ys :=
      drop_append_of_le_length (by omega)
    have hindex : (xs.drop WidthFactor).length = i - WidthFactor + 1 := by
      rw [length_drop]
      omega
    rw [hfirst, hsecond, insertChild_eq hindex]
    have hjoin : xs.take WidthFactor ++ (xs.drop WidthFactor ++ RHS :: ys) = xs ++ RHS :: ys := by
      rw [← append_assoc, take_append_drop]
    refine ⟨fun m hm => ?_, ?_⟩
    · rw [← hjoin] at hgood
      rcases mem_cons.mp hm with rfl | hm
      · refine stored_half (hgood.sublist (sublist_append_left _ _)) ?_ ?_ Size
        · rw [← length_pos_iff, length_take]
          omega
        · rw [length_take]
          omega
      · rw [mem_singleton.mp hm]
        refine stored_half (hgood.sublist (sublist_append_right _ _)) (by simp) ?_ 0
        rw [length_append, length_cons, length_drop]
        omega
    · show _ ++ (_ ++ []) = _
      rw [append_nil]
      exact hjoin

variable {before after : List (RopePieceBTreeNode height)}

theorem storeChild_spec
    {c c' : RopePieceBTreeNode height} {RHS : Option (RopePieceBTreeNode height)} {Size : Nat}
    (hlength : (before ++ c :: after).length ≤ 2 * WidthFactor)
    (hgood : AllGood height (before ++ (c' :: RHS.toList ++ after)))
    (hsize : Size =
      total (RopePieceBTreeNode.size height) (before ++ (c' :: RHS.toList ++ after))) :
    Stored height (before ++ (c' :: RHS.toList ++ after))
      (RopePieceBTreeInterior.storeChild (RopePieceBTreeNode.size height)
        ⟨Size, before ++ c :: after⟩ before.length c' RHS) := by
  have hset : (before ++ c :: after).set before.length c' = before ++ c' :: after := by
    rw [set_append_right _ _ (Nat.le_refl _), Nat.sub_self]
    rfl
  rw [length_append, length_cons] at hlength
  cases RHS with
  | none =>
    refine ⟨fun m hm => ?_, ?_⟩
    · rw [mem_singleton.mp hm]
      unfold RopePieceBTreeInterior.storeChild
      rw [hset]
      refine ⟨wf_interior hgood ?_ hsize, ?_⟩
      · rw [length_append]
        exact hlength
      · rw [hsize]
        exact hgood.total_pos (by simp)
    · show (before ++ c :: after).set before.length c' ++ [] = _
      rw [append_nil, hset]
      rfl
  | some RHS =>
    have hsplit : before ++ (c' :: (some RHS).toList ++ after) =
        before ++ [c'] ++ RHS :: after := by simp
    rw [hsplit] at hgood hsize ⊢
    unfold RopePieceBTreeInterior.storeChild
    have hset' : (before ++ c :: after).set before.length c' = before ++ [c'] ++ after := by
      rw [hset, append_assoc]
      rfl
    rw [hset']
    refine HandleChildPiece_spec (by rw [length_append, length_singleton]) ?_ hgood
      hsize
    rw [length_append, length_append, length_singleton]
    omega

theorem storeChild_grown
    {c c' : RopePieceBTreeNode height} {RHS : Option (RopePieceBTreeNode height)}
    {Size OldSize : Nat} {o o' : LeafOrder} {ps : List RopePiece}
    (hwf : WF (height + 1) (interior OldSize (before ++ c :: after)))
    (hchild : Grown height c o ps (c', RHS, o')) (hne : ps ≠ [])
    (hsize : Size = total (RopePieceBTreeNode.size height) before + total RopePiece.size ps +
      total (RopePieceBTreeNode.size height) after) {r : RopePieceBTreeInterior _ × Option _}
    (hr : RopePieceBTreeInterior.storeChild (RopePieceBTreeNode.size height)
      ⟨Size, before ++ c :: after⟩ before.length c' RHS = r) :
    Grown (height + 1) (interior OldSize (before ++ c :: after)) o
      (before.flatMap (pieces height) ++ (ps ++ after.flatMap (pieces height)))
      (r.1, r.2, o') := by
  obtain ⟨-, hlength, hgood⟩ := hwf
  have hparts : AllGood height (c' :: RHS.toList) := fun m hm =>
    ⟨(hchild.good m hm).1, (hchild.good m hm).2 hne⟩
  have hbefore : AllGood height before := fun d hd => hgood d (mem_append_left _ hd)
  have hafter : AllGood height after := fun d hd =>
    hgood d (mem_append_right _ (mem_cons_of_mem _ hd))
  have hpieces : (c' :: RHS.toList).flatMap (pieces height) = ps := hchild.pieces
  have hstored := @storeChild_spec height before after c c' RHS Size hlength
    (hbefore.append (hparts.append hafter)) (by
      rw [hsize, total_append, total_append, hparts.pieces.1, hpieces, Nat.add_assoc])
  rw [hr] at hstored
  refine ⟨?_, ?_, ?_⟩
  · exact fun m hm => ⟨(hstored.good m hm).1, fun _ => (hstored.good m hm).2⟩
  · refine (flatMap_pieces (r.1 :: r.2.toList)).trans ?_
    refine (congrArg (List.flatMap (pieces height)) hstored.children).trans ?_
    rw [flatMap_append, flatMap_append, hpieces]
  · intro front rest horder
    have hids : (r.1 :: r.2.toList).flatMap (ids (height + 1)) =
        before.flatMap (ids height) ++ ((c' :: RHS.toList).flatMap (ids height) ++
          after.flatMap (ids height)) := by
      refine (flatMap_ids (r.1 :: r.2.toList)).trans ?_
      refine (congrArg (List.flatMap (ids height)) hstored.children).trans ?_
      rw [flatMap_append, flatMap_append]
    have hold : ids (height + 1) (interior OldSize (before ++ c :: after)) =
          before.flatMap (ids height) ++ (ids height c ++ after.flatMap (ids height)) := by
      refine (ids_succ height _).trans ?_
      rw [flatMap_append, flatMap_cons]
    have hinner := hchild.order (front ++ before.flatMap (ids height))
      (after.flatMap (ids height) ++ rest)
    rw [hold] at horder
    show o'.Ordered (front ++ (r.1 :: r.2.toList).flatMap (ids (height + 1)) ++ rest)
    rw [hids]
    simp only [append_assoc] at horder hinner ⊢
    exact hinner horder

/-- What `split` promises for nodes of some height. -/
def Splits (height : Nat) : Prop :=
  ∀ (n : RopePieceBTreeNode height) (Offset : Nat) (o : LeafOrder), WF height n →
    Offset ≤ size height n → ∃ r, split height n Offset o = some r ∧
      Grown height n o (takeUnits Offset (pieces height n) ++ dropUnits Offset (pieces height n)) r

theorem around
    {c : RopePieceBTreeNode height} {Size : Nat}
    (h : WF (height + 1) (interior Size (before ++ c :: after))) :
    AllGood height before ∧ WF height c ∧ 0 < size height c ∧ AllGood height after ∧
      Size = total (size height) before + size height c + total (size height) after ∧
      pieces (height + 1) (interior Size (before ++ c :: after)) =
        before.flatMap (pieces height) ++ (pieces height c ++ after.flatMap (pieces height)) := by
  obtain ⟨hsize, -, hgood⟩ := h
  have hc := hgood c (mem_append_right _ (mem_cons_self ..))
  refine ⟨fun d hd => hgood d (mem_append_left _ hd), hc.1, hc.2,
    fun d hd => hgood d (mem_append_right _ (mem_cons_of_mem _ hd)), ?_, ?_⟩
  · refine hsize.trans ?_
    rw [total_append, total, Nat.add_assoc]
  · refine (pieces_succ height _).trans ?_
    rw [flatMap_append, flatMap_cons]

theorem split_interior (ih : Splits height) {Size Offset : Nat}
    {cs : List (RopePieceBTreeNode height)} (o : LeafOrder)
    (h : WF (height + 1) (interior Size cs)) (hle : Offset ≤ Size) :
    ∃ r, RopePieceBTreeInterior.split (size height) (split height) ⟨Size, cs⟩ Offset o = some r ∧
      Grown (height + 1) (interior Size cs) o
        (takeUnits Offset (pieces (height + 1) (interior Size cs)) ++
          dropUnits Offset (pieces (height + 1) (interior Size cs))) r := by
  have hrefl := Grown.refl h o
  obtain ⟨hsize, hpos⟩ := h.pieces
  have hcs : Size = total (size height) cs := h.1
  have hsize' : Size = total RopePiece.size (pieces (height + 1) (interior Size cs)) := hsize
  unfold RopePieceBTreeInterior.split
  split_ifs with hend
  · refine ⟨_, rfl, ?_⟩
    have hsame : takeUnits Offset (pieces (height + 1) (interior Size cs)) ++
        dropUnits Offset (pieces (height + 1) (interior Size cs)) =
          pieces (height + 1) (interior Size cs) := by
      rcases hend with rfl | hlast
      · rw [takeUnits_zero, dropUnits_zero, nil_append]
      · have hunits := @units_of_boundary _ _ Offset _ [] hpos (hlast.trans hsize')
        rwa [append_nil] at hunits
    rw [hsame]
    exact hrefl
  rw [not_or] at hend
  have hlt : Offset < 0 + total (size height) cs := by
    have hne := hend.2
    dsimp only at hne
    omega
  obtain ⟨before, c, after, rfl, hfind, hlow, hhigh⟩ :=
    findAt_spec 0 (Nat.zero_le Offset) hlt
  rw [Nat.zero_add] at hlow hhigh hfind
  rw [Nat.zero_add] at hfind
  obtain ⟨hbefore, hc, -, hafter, htotal, hpieces⟩ := around h
  obtain ⟨hbeforeSize, hbeforePos⟩ := hbefore.pieces
  obtain ⟨hcSize, hcPos⟩ := hc.pieces
  rw [hfind]
  show ∃ r, (if total (size height) before = Offset then some _ else _) = some r ∧ _
  rw [hpieces]
  rw [hpieces] at hrefl
  split_ifs with hboundary
  · refine ⟨_, rfl, ?_⟩
    rw [units_of_boundary hbeforePos (hboundary.symm.trans hbeforeSize)]
    exact hrefl
  · have hget : (before ++ c :: after)[before.length]? = some c := by
      rw [getElem?_append_right (Nat.le_refl _), Nat.sub_self]
      rfl
    obtain ⟨k, hk⟩ := Nat.exists_eq_add_of_le hlow
    subst hk
    obtain ⟨⟨c', RHS, o'⟩, hresult, hgrown⟩ := ih c k o hc (by omega)
    have hksize : k ≤ total RopePiece.size (pieces height c) := by omega
    have hcount : total RopePiece.size (takeUnits k (pieces height c) ++
        dropUnits k (pieces height c)) = size height c := by
      have htake : total RopePiece.size (takeUnits k (pieces height c)) = k :=
        total_takeUnits hksize
      have hdrop : total RopePiece.size (dropUnits k (pieces height c)) =
          total RopePiece.size (pieces height c) - k := total_dropUnits k _
      rw [total_append, htake, hdrop]
      omega
    have hne : takeUnits k (pieces height c) ++ dropUnits k (pieces height c) ≠ [] := by
      intro hnil
      rw [hnil, total] at hcount
      omega
    obtain ⟨htake, hdrop⟩ := units_append_of_ge
      (pieces height c ++ after.flatMap (pieces height)) hbeforePos
      (Nat.le_add_right (total RopePiece.size (before.flatMap (pieces height))) k)
    obtain ⟨htake', hdrop'⟩ := units_append_of_le (after.flatMap (pieces height)) hksize
    have hcut : takeUnits (total (size height) before + k)
          (before.flatMap (pieces height) ++ (pieces height c ++ after.flatMap (pieces height))) ++
        dropUnits (total (size height) before + k)
          (before.flatMap (pieces height) ++ (pieces height c ++ after.flatMap (pieces height))) =
        before.flatMap (pieces height) ++ ((takeUnits k (pieces height c) ++
          dropUnits k (pieces height c)) ++ after.flatMap (pieces height)) := by
      rw [hbeforeSize, htake, hdrop]
      have hsub : total RopePiece.size (before.flatMap (pieces height)) + k -
          total Segment.size (before.flatMap (pieces height)) = k := Nat.add_sub_cancel_left ..
      rw [hsub, htake', hdrop']
      simp only [append_assoc]
    rw [hget, Nat.add_sub_cancel_left]
    refine ⟨_, congrArg (Option.bind · _) hresult, ?_⟩
    rw [hcut]
    exact storeChild_grown h hgrown hne (by rw [hcount]; exact htotal) rfl

theorem split_spec (height : Nat) : Splits height := by
  induction height with
  | zero =>
    intro n Offset o h hle
    obtain ⟨r, hresult, hgrown⟩ := RopePieceBTreeLeaf.split_spec h hle o
    have hpieces : pieces 0 n = RopePieceBTreeLeaf.Pieces n := append_nil _
    rw [hpieces]
    exact ⟨r, (if_neg (Nat.not_lt.mpr hle)).trans hresult, Grown.of_leaf hgrown⟩
  | succ height ih =>
    intro n Offset o h hle
    obtain ⟨r, hresult, hgrown⟩ := split_interior ih o h hle
    exact ⟨r, (if_neg (Nat.not_lt.mpr hle)).trans hresult, hgrown⟩

/-- What `insert` promises for nodes of some height. An interior node must have a child. -/
def Inserts (height : Nat) : Prop :=
  ∀ (n : RopePieceBTreeNode height) (R : RopePiece) (ls rs : List RopePiece) (o : LeafOrder),
    WF height n → height = 0 ∨ 0 < size height n → 0 < R.size → pieces height n = ls ++ rs →
      ∃ r, insert height n (total RopePiece.size ls) R o = some r ∧
        Grown height n o (ls ++ R :: rs) r

theorem insertionChild_spec {height Size Offset : Nat} {cs : List (RopePieceBTreeNode height)}
    (hsize : Size = total (size height) cs) (hpos : 0 < Size) (hle : Offset ≤ Size) :
    ∃ before c after, cs = before ++ c :: after ∧
      RopePieceBTreeInterior.insertionChild (size height) ⟨Size, cs⟩ Offset =
        some (before.length, total (size height) before) ∧
      total (size height) before ≤ Offset ∧
        Offset ≤ total (size height) before + size height c := by
  have hne : cs ≠ [] := by
    rintro rfl
    rw [total] at hsize
    omega
  unfold RopePieceBTreeInterior.insertionChild
  dsimp only
  split_ifs with hend
  · obtain ⟨before, c, rfl⟩ : ∃ before c, cs = before ++ [c] :=
      ⟨_, _, (dropLast_append_getLast hne).symm⟩
    rw [total_append, total, total] at hsize
    have hlast : (before ++ [c])[(before ++ [c]).length - 1]? = some c := by
      rw [length_append, length_singleton, Nat.add_sub_cancel,
        getElem?_append_right (Nat.le_refl _), Nat.sub_self]
      rfl
    refine ⟨before, c, [], rfl, ?_, by omega, by omega⟩
    rw [hlast, length_append, length_singleton, Nat.add_sub_cancel]
    show some (before.length, Size - size height c) = _
    congr 2
    omega
  · obtain ⟨before, c, after, rfl, hfind, hlow, hhigh⟩ :=
      @findReaching_spec _ (size height) Offset 0 cs 0 hne (by omega)
    rw [Nat.zero_add] at hfind hhigh
    rw [Nat.zero_add] at hfind
    refine ⟨before, c, after, rfl, hfind, ?_, hhigh⟩
    rcases hlow with rfl | hlow
    · exact Nat.zero_le _
    · omega

theorem insert_interior (ih : Inserts height) {Size : Nat}
    {cs : List (RopePieceBTreeNode height)} {R : RopePiece} {ls rs : List RopePiece}
    (o : LeafOrder) (h : WF (height + 1) (interior Size cs)) (hpos : 0 < Size) (hR : 0 < R.size)
    (hpieces : pieces (height + 1) (interior Size cs) = ls ++ rs) :
    ∃ r, RopePieceBTreeInterior.insert (size height) (insert height) ⟨Size, cs⟩
        (total RopePiece.size ls) R o = some r ∧
      Grown (height + 1) (interior Size cs) o (ls ++ R :: rs) r := by
  have hsize : Size = total RopePiece.size (pieces (height + 1) (interior Size cs)) := h.pieces.1
  rw [hpieces, total_append] at hsize
  obtain ⟨before, c, after, rfl, hfind, hlow, hhigh⟩ :=
    @insertionChild_spec height Size (total RopePiece.size ls) cs h.1 hpos (by omega)
  obtain ⟨hbefore, hc, hcpos, hafter, htotal, hpieces'⟩ := around h
  obtain ⟨hbeforeSize, hbeforePos⟩ := hbefore.pieces
  obtain ⟨hcSize, hcPos⟩ := hc.pieces
  -- the boundary lies in the child
  rw [hpieces'] at hpieces
  obtain ⟨mid, rfl, hmid⟩ := exists_of_append_eq hpieces hbeforePos
    (show total RopePiece.size _ ≤ total RopePiece.size ls by rw [← hbeforeSize]; exact hlow)
  rw [total_append, ← hbeforeSize] at hhigh
  have hposMid : AllPos mid := by
    have hall := h.pieces.2
    rw [hpieces', hpieces] at hall
    exact hall.left.right
  obtain ⟨mid', hchild, rfl⟩ := exists_of_append_eq hmid.symm hposMid
    (show total RopePiece.size mid ≤ total RopePiece.size (pieces height c) by omega)
  obtain ⟨⟨c', RHS, o'⟩, hresult, hgrown⟩ := ih c R mid mid' o hc (.inr hcpos) hR hchild
  have hget : (before ++ c :: after)[before.length]? = some c := by
    rw [getElem?_append_right (Nat.le_refl _), Nat.sub_self]
    rfl
  have hoffset : total RopePiece.size (before.flatMap (pieces height) ++ mid) -
      total (size height) before = total RopePiece.size mid := by
    rw [total_append, hbeforeSize, Nat.add_sub_cancel_left]
  have hcount : total RopePiece.size (mid ++ R :: mid') = size height c + R.size := by
    rw [hcSize, hchild, total_append, total_append, total]
    omega
  have hjoin :
      before.flatMap (pieces height) ++ mid ++ R :: (mid' ++ after.flatMap (pieces height)) =
      before.flatMap (pieces height) ++ ((mid ++ R :: mid') ++ after.flatMap (pieces height)) := by
    simp only [append_assoc, cons_append]
  unfold RopePieceBTreeInterior.insert
  rw [hfind]
  show ∃ r, ((before ++ c :: after)[before.length]?).bind _ = some r ∧ _
  rw [hget, Option.bind_some]
  dsimp only
  rw [hoffset]
  refine ⟨_, congrArg (Option.bind · _) hresult, ?_⟩
  rw [hjoin]
  exact storeChild_grown h hgrown (by simp) (by rw [hcount]; omega) rfl

theorem insert_spec (height : Nat) : Inserts height := by
  induction height with
  | zero =>
    intro n R ls rs o h _ hR hpieces
    have hleaf : pieces 0 n = RopePieceBTreeLeaf.Pieces n := append_nil _
    obtain ⟨r, hresult, hgrown⟩ :=
      RopePieceBTreeLeaf.insert_spec h hR (hleaf.symm.trans hpieces) o
    have hsize : size 0 n = total RopePiece.size (pieces 0 n) := h.pieces.1
    rw [hpieces, total_append] at hsize
    exact ⟨r, (if_neg (by omega)).trans hresult, Grown.of_leaf hgrown⟩
  | succ height ih =>
    intro n R ls rs o h hpos hR hpieces
    have hpos' : 0 < size (height + 1) n := hpos.resolve_left (Nat.succ_ne_zero _)
    have hsize : size (height + 1) n = total RopePiece.size (pieces (height + 1) n) := h.pieces.1
    rw [hpieces, total_append] at hsize
    obtain ⟨r, hresult, hgrown⟩ := insert_interior ih o h hpos' hR hpieces
    exact ⟨r, (if_neg (by omega)).trans hresult, hgrown⟩

theorem Destroy_spec (height : Nat) (n : RopePieceBTreeNode height) {o : LeafOrder}
    {before after : List Nat} (h : o.Ordered (before ++ (ids height n ++ after))) :
    (Destroy height n o).Ordered (before ++ after) := by
  induction height generalizing o after with
  | zero => exact h.remove
  | succ height ih =>
    rw [ids_succ] at h
    show LeafOrder.Ordered ((RopePieceBTreeInterior.Children n).foldl _ o) _
    generalize RopePieceBTreeInterior.Children n = cs at h
    induction cs generalizing o with
    | nil => exact h
    | cons c cs ihcs =>
      rw [flatMap_cons, append_assoc] at h
      exact ihcs (ih c h)

/-- What `erase` promises for nodes of some height. -/
def Erases (height : Nat) : Prop :=
  ∀ (n : RopePieceBTreeNode height) (NumBytes : Nat) (ls rs : List RopePiece) (o : LeafOrder),
    WF height n → pieces height n = ls ++ rs → 0 < NumBytes → NumBytes ≤ total RopePiece.size rs →
        ∃ n' o', erase height n (total RopePiece.size ls) NumBytes o = some (n', o') ∧
          WF height n' ∧ pieces height n' = ls ++ dropUnits NumBytes rs ∧
          ∀ before after, o.Ordered (before ++ (ids height n ++ after)) →
            o'.Ordered (before ++ (ids height n' ++ after))

theorem skipChildren_spec {height Offset : Nat} {cs : List (RopePieceBTreeNode height)} (i : Nat)
    (hlt : Offset < total (size height) cs) :
    ∃ before c after, cs = before ++ c :: after ∧
      RopePieceBTreeInterior.skipChildren (size height) cs i Offset =
        some (i + before.length, Offset - total (size height) before) ∧
      total (size height) before ≤ Offset ∧
        Offset < total (size height) before + size height c := by
  induction cs generalizing i Offset with
  | nil => exact absurd hlt (Nat.not_lt_zero _)
  | cons c cs ih =>
    rw [total] at hlt
    by_cases hskip : size height c ≤ Offset
    · obtain ⟨before, d, after, rfl, hfind, hlow, hhigh⟩ :=
        @ih (Offset - size height c) (i + 1) (by omega)
      refine ⟨c :: before, d, after, rfl, ?_, ?_, ?_⟩
      · rw [RopePieceBTreeInterior.skipChildren, if_pos hskip, hfind, length_cons, total]
        congr 2 <;> omega
      · rw [total]
        omega
      · rw [total]
        omega
    · refine ⟨[], c, cs, rfl, ?_, Nat.zero_le _, ?_⟩
      · rw [RopePieceBTreeInterior.skipChildren, if_neg hskip]
        rfl
      · omega

theorem eraseChildren_spec (ih : Erases height)
    (cs : List (RopePieceBTreeNode height)) {Offset NumBytes : Nat} {ls rs : List RopePiece}
    (o : LeafOrder) (hgood : AllGood height cs)
    (hpieces : cs.flatMap (pieces height) = ls ++ rs) (hoffset : Offset = total RopePiece.size ls)
    (hhead : ∀ c ∈ cs.head?, Offset < size height c) (hle : NumBytes ≤ total RopePiece.size rs) :
    ∃ cs' o', RopePieceBTreeInterior.eraseChildren (size height) (erase height) (Destroy height) cs
        Offset NumBytes o = some (cs', o') ∧
      AllGood height cs' ∧ cs'.length ≤ cs.length ∧
      cs'.flatMap (pieces height) = ls ++ dropUnits NumBytes rs ∧
      ∀ before after, o.Ordered (before ++ (cs.flatMap (ids height) ++ after)) →
        o'.Ordered (before ++ (cs'.flatMap (ids height) ++ after)) := by
  induction cs generalizing Offset NumBytes ls rs o with
  | nil =>
    have hnil : ls = [] ∧ rs = [] := append_eq_nil_iff.mp hpieces.symm
    obtain ⟨rfl, rfl⟩ := hnil
    have hzero : NumBytes = 0 := Nat.eq_zero_of_le_zero hle
    subst hzero
    exact ⟨[], o, if_pos rfl, hgood, Nat.le_refl _, rfl, fun _ _ h => h⟩
  | cons c cs ihcs =>
    obtain ⟨hc, hcpos⟩ := hgood c (mem_cons_self ..)
    have hcs : AllGood height cs := hgood.sublist (sublist_cons_self ..)
    obtain ⟨hcSize, hcPos⟩ := hc.pieces
    have hlt : Offset < size height c := hhead c rfl
    have hheadNext : ∀ d ∈ cs.head?, 0 < size height d := fun d hd =>
      (hcs d (mem_of_mem_head? hd)).2
    have hposAll := hgood.pieces.2
    rw [hpieces] at hposAll
    rw [flatMap_cons] at hpieces
    -- the boundary lies in the first child
    obtain ⟨mid, hmid, rfl⟩ := exists_of_append_eq hpieces.symm hposAll.left
      (show total RopePiece.size ls ≤ total RopePiece.size (pieces height c) by omega)
    have hcount : size height c = total RopePiece.size ls + total RopePiece.size mid := by
      rw [hcSize, hmid, total_append]
    rw [total_append] at hle
    unfold RopePieceBTreeInterior.eraseChildren
    split_ifs with hzero hinside hstart
    · subst hzero
      refine ⟨c :: cs, o, rfl, hgood, Nat.le_refl _, ?_, fun _ _ h => h⟩
      rw [dropUnits_zero, flatMap_cons, hmid, append_assoc]
    · obtain ⟨c', o', hresult, hwf, hpieces', horder⟩ :=
        ih c NumBytes ls mid o hc hmid (by omega) (by omega)
      obtain ⟨-, hdrop⟩ := units_append_of_le (cs.flatMap (pieces height))
        (show NumBytes ≤ total Segment.size mid from by
          show NumBytes ≤ total RopePiece.size mid
          omega)
      have hdropSize : total RopePiece.size (dropUnits NumBytes mid) =
          total RopePiece.size mid - NumBytes := total_dropUnits NumBytes mid
      rw [hoffset, hresult]
      refine ⟨c' :: cs, o', rfl, ?_, Nat.le_refl _, ?_, ?_⟩
      · intro d hd
        rcases mem_cons.mp hd with heq | hmem
        · subst heq
          refine ⟨hwf, ?_⟩
          rw [hwf.pieces.1, hpieces', total_append, hdropSize]
          omega
        · exact hcs d hmem
      · rw [flatMap_cons, hpieces', hdrop, append_assoc]
      · intro before after h
        rw [flatMap_cons, append_assoc] at h ⊢
        exact horder before _ h
    · have hposMid : AllPos mid := hposAll.right.left
      obtain ⟨-, hempty⟩ := units_total hposMid
      have hbytes : size height c - Offset = total RopePiece.size mid := by omega
      obtain ⟨c', o', hresult, hwf, hpieces', horder⟩ :=
        ih c (total RopePiece.size mid) ls mid o hc hmid (by omega) (Nat.le_refl _)
      obtain ⟨cs', o'', hresult', hgood', hlength', hpieces'', horder'⟩ :=
        @ihcs 0 (NumBytes - total RopePiece.size mid) [] (cs.flatMap (pieces height)) o' hcs rfl
          rfl hheadNext (by omega)
      obtain ⟨-, hdrop⟩ := units_append_of_ge (cs.flatMap (pieces height)) hposMid
        (show total RopePiece.size mid ≤ NumBytes by omega)
      have hkept : pieces height c' = ls := by
        rw [hpieces', ← append_nil ls, append_assoc]
        exact congrArg (ls ++ ·) hempty
      rw [hbytes, hoffset]
      dsimp only
      rw [hresult]
      refine ⟨c' :: cs', o'', congrArg (Option.bind · _) hresult', ?_, ?_, ?_, ?_⟩
      · intro d hd
        rcases mem_cons.mp hd with heq | hmem
        · subst heq
          refine ⟨hwf, ?_⟩
          rw [hwf.pieces.1, hkept]
          omega
        · exact hgood' d hmem
      · exact Nat.succ_le_succ hlength'
      · rw [flatMap_cons, hkept, hpieces'', hdrop]
        rfl
      · intro before after h
        rw [flatMap_cons, append_assoc] at h ⊢
        have hfirst := horder before _ h
        rw [← append_assoc] at hfirst ⊢
        exact horder' _ after hfirst
    · have hnil : ls = [] := hposAll.left.eq_nil
        (show total RopePiece.size ls = 0 by omega)
      subst hnil
      have hposMid : AllPos mid := hposAll.right.left
      obtain ⟨cs', o', hresult, hgood', hlength', hpieces', horder'⟩ :=
        @ihcs 0 (NumBytes - total RopePiece.size mid) [] (cs.flatMap (pieces height))
          (Destroy height c o) hcs rfl rfl hheadNext (by omega)
      obtain ⟨-, hdrop⟩ := units_append_of_ge (cs.flatMap (pieces height)) hposMid
        (show total RopePiece.size mid ≤ NumBytes by omega)
      have hbytes : size height c = total RopePiece.size mid := by
        rw [hcount, total, Nat.zero_add]
      rw [hbytes]
      refine ⟨cs', o', hresult, hgood', Nat.le_succ_of_le hlength', ?_, ?_⟩
      · rw [hpieces', hdrop]
        rfl
      · intro before after h
        rw [flatMap_cons, append_assoc] at h
        exact horder' before after (Destroy_spec height c h)

theorem erase_interior (ih : Erases height) {Size NumBytes : Nat}
    {cs : List (RopePieceBTreeNode height)} {ls rs : List RopePiece} (o : LeafOrder)
    (h : WF (height + 1) (interior Size cs))
    (hpieces : pieces (height + 1) (interior Size cs) = ls ++ rs) (hbytes : 0 < NumBytes)
    (hle : NumBytes ≤ total RopePiece.size rs) :
    ∃ n' o', RopePieceBTreeInterior.erase (size height) (erase height) (Destroy height) ⟨Size, cs⟩
        (total RopePiece.size ls) NumBytes o = some (n', o') ∧
      WF (height + 1) n' ∧ pieces (height + 1) n' = ls ++ dropUnits NumBytes rs ∧
      ∀ before after, o.Ordered (before ++ (ids (height + 1) (interior Size cs) ++ after)) →
        o'.Ordered (before ++ (ids (height + 1) n' ++ after)) := by
  have hsize : Size = total RopePiece.size (pieces (height + 1) (interior Size cs)) := h.pieces.1
  have hcs : Size = total (size height) cs := h.1
  have hlength : cs.length ≤ 2 * WidthFactor := h.2.1
  rw [hpieces, total_append] at hsize
  obtain ⟨front, c, rest, rfl, hfind, hlow, hhigh⟩ :=
    @skipChildren_spec height (total RopePiece.size ls) cs 0 (by omega)
  have hgoodAll : AllGood height (front ++ c :: rest) := h.2.2
  have hfront : AllGood height front := hgoodAll.sublist (sublist_append_left _ _)
  have hrest : AllGood height (c :: rest) := hgoodAll.sublist (sublist_append_right _ _)
  obtain ⟨hfrontSize, hfrontPos⟩ := hfront.pieces
  have hpieces' : front.flatMap (pieces height) ++ (c :: rest).flatMap (pieces height) =
      ls ++ rs := by
    rw [← flatMap_append]
    exact (pieces_succ height _).symm.trans hpieces
  obtain ⟨mid, rfl, hmid⟩ := exists_of_append_eq hpieces' hfrontPos
    (show total RopePiece.size _ ≤ total RopePiece.size ls by rw [← hfrontSize]; exact hlow)
  have hoffset : total RopePiece.size (front.flatMap (pieces height) ++ mid) -
      total (size height) front = total RopePiece.size mid := by
    rw [total_append, hfrontSize, Nat.add_sub_cancel_left]
  obtain ⟨cs', o', hresult, hgood', hlength', hchildren, horder⟩ :=
    @eraseChildren_spec height ih (c :: rest) _ NumBytes mid rs o hrest hmid rfl
      (by
        intro d hd
        have hd' : c = d := Option.some.inj hd
        rw [← hd']
        omega) hle
  have hdrop : (front ++ c :: rest).drop (0 + front.length) = c :: rest := by
    rw [Nat.zero_add, drop_left]
  have htake : (front ++ c :: rest).take (0 + front.length) = front := by
    rw [Nat.zero_add, take_left]
  have hnewPieces : pieces (height + 1) (interior (Size - NumBytes) (front ++ cs')) =
      front.flatMap (pieces height) ++ mid ++ dropUnits NumBytes rs := by
    refine (pieces_succ height _).trans ?_
    rw [flatMap_append, hchildren, append_assoc]
  unfold RopePieceBTreeInterior.erase
  rw [hfind]
  show ∃ n' o', (RopePieceBTreeInterior.eraseChildren (size height) (erase height) (Destroy height)
    ((front ++ c :: rest).drop (0 + front.length)) _ NumBytes o).bind _ = some (n', o') ∧ _
  rw [hdrop, hoffset, hresult, Option.bind_some]
  dsimp only
  rw [htake]
  have hgoodNew := hfront.append hgood'
  refine ⟨_, o', rfl, wf_interior hgoodNew ?_ ?_, hnewPieces, ?_⟩
  · rw [length_append] at hlength ⊢
    omega
  · have hdropSize : total RopePiece.size (dropUnits NumBytes rs) =
        total RopePiece.size rs - NumBytes := total_dropUnits NumBytes rs
    have hnew : (front ++ cs').flatMap (pieces height) =
        front.flatMap (pieces height) ++ mid ++ dropUnits NumBytes rs := by
      rw [flatMap_append, hchildren, append_assoc]
    rw [hgoodNew.pieces.1, hnew, total_append, hdropSize]
    omega
  · intro before after hordered
    have hids : ids (height + 1) (interior Size (front ++ c :: rest)) =
        front.flatMap (ids height) ++ (c :: rest).flatMap (ids height) :=
      (ids_succ height _).trans flatMap_append
    have hids' : ids (height + 1) (interior (Size - NumBytes) (front ++ cs')) =
        front.flatMap (ids height) ++ cs'.flatMap (ids height) :=
      (ids_succ height _).trans flatMap_append
    rw [hids, append_assoc, ← append_assoc] at hordered
    rw [hids', append_assoc, ← append_assoc]
    exact horder _ after hordered

theorem erase_spec (height : Nat) : Erases height := by
  induction height with
  | zero =>
    intro n NumBytes ls rs o h hpieces hbytes hle
    have hleaf : pieces 0 n = RopePieceBTreeLeaf.Pieces n := append_nil _
    obtain ⟨l', hresult, hwf, hid, hpieces'⟩ :=
      RopePieceBTreeLeaf.erase_spec h (hleaf.symm.trans hpieces) hbytes hle
    have hsize : size 0 n = total RopePiece.size (pieces 0 n) := h.pieces.1
    rw [hpieces, total_append] at hsize
    have hids : ids 0 l' = ids 0 n := congrArg (fun id => [id]) hid
    refine ⟨l', o, ?_, hwf, ?_, ?_⟩
    · refine (if_neg (by omega)).trans ?_
      rw [hresult]
      rfl
    · exact (append_nil _).trans hpieces'
    · intro before after h
      rw [hids]
      exact h
  | succ height ih =>
    intro n NumBytes ls rs o h hpieces hbytes hle
    have hsize : size (height + 1) n = total RopePiece.size (pieces (height + 1) n) := h.pieces.1
    rw [hpieces, total_append] at hsize
    obtain ⟨n', o', hresult, hrest⟩ := erase_interior ih o h hpieces hbytes hle
    exact ⟨n', o', (if_neg (by omega)).trans hresult, hrest⟩

end RopePieceBTreeNode

end Zapcc.Rewrite
