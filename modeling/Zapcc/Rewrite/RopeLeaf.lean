import Zapcc.Rewrite.LeafOrder
import Zapcc.Rewrite.RopePiece

/-!
# The leaves of a rope

`RopePieceBTreeLeaf` holds up to 16 pieces. A leaf that is full when it gets one more is cut in two
halves, and the new leaf is returned for the parent. There is no result when a piece outside of the
used range is read or an assertion fails.
-/

namespace Zapcc.Rewrite

open Segments List

def WidthFactor : Nat := 8

structure RopePieceBTreeLeaf where
  id : Nat
  Size : Nat
  Pieces : List RopePiece

namespace RopePieceBTreeLeaf

def isFull (l : RopePieceBTreeLeaf) : Prop := l.Pieces.length = 2 * WidthFactor

instance (l : RopePieceBTreeLeaf) : Decidable l.isFull := inferInstanceAs (Decidable (_ = _))

def FullRecomputeSizeLocally (l : RopePieceBTreeLeaf) : RopePieceBTreeLeaf :=
  { l with Size := total RopePiece.size l.Pieces }

/-- The index that `insert` puts a piece at. -/
def insertionPoint (l : RopePieceBTreeLeaf) (Offset : Nat) : Option Nat :=
  if Offset = l.Size then some l.Pieces.length
  else do
    let (i, SlotOffs) ← findStart RopePiece.size Offset l.Pieces 0 0
    if SlotOffs = Offset then some i else none

def insertNotFull (l : RopePieceBTreeLeaf) (Offset : Nat) (R : RopePiece) :
    Option RopePieceBTreeLeaf := do
  let i ← l.insertionPoint Offset
  some { l with
    Size := l.Size + R.size
    Pieces := l.Pieces.take i ++ R :: l.Pieces.drop i }

/-- `insert`: the leaf, and the new leaf when this one was full. -/
def insert (l : RopePieceBTreeLeaf) (Offset : Nat) (R : RopePiece) (o : LeafOrder) :
    Option (RopePieceBTreeLeaf × Option RopePieceBTreeLeaf × LeafOrder) :=
  if ¬l.isFull then do
    let l ← l.insertNotFull Offset R
    some (l, none, o)
  else
    let (id, o) := o.new
    let NewNode := FullRecomputeSizeLocally ⟨id, 0, l.Pieces.drop WidthFactor⟩
    let l := FullRecomputeSizeLocally { l with Pieces := l.Pieces.take WidthFactor }
    let o := o.insertAfterLeafInOrder NewNode.id l.id
    if Offset ≤ l.Size then do
      let l ← l.insertNotFull Offset R
      some (l, some NewNode, o)
    else do
      let NewNode ← NewNode.insertNotFull (Offset - l.Size) R
      some (l, some NewNode, o)

def split (l : RopePieceBTreeLeaf) (Offset : Nat) (o : LeafOrder) :
    Option (RopePieceBTreeLeaf × Option RopePieceBTreeLeaf × LeafOrder) :=
  if Offset = 0 ∨ Offset = l.Size then some (l, none, o)
  else do
    let (i, PieceOffs) ← findAt RopePiece.size Offset l.Pieces 0 0
    if PieceOffs = Offset then some (l, none, o)
    else do
      let IntraPieceOffset := Offset - PieceOffs
      let p ← l.Pieces[i]?
      let Tail := p.back IntraPieceOffset
      let Head := p.front IntraPieceOffset
      let l := { l with
        Size := l.Size - p.size + Head.size
        Pieces := l.Pieces.set i Head }
      l.insert Offset Tail o

/-- The part of `erase` that removes the pieces from `StartPiece` to `i`: the leaf, and the bytes
that are left. -/
def eraseCovered (l : RopePieceBTreeLeaf) (Offset StartPiece i PieceOffs NumBytes : Nat) :
    RopePieceBTreeLeaf × Nat :=
  if i ≠ StartPiece then
    let CoverBytes := PieceOffs - Offset
    ({ l with
      Size := l.Size - CoverBytes
      Pieces := l.Pieces.take StartPiece ++ l.Pieces.drop i }, NumBytes - CoverBytes)
  else (l, NumBytes)

/-- The part of `erase` that moves the start of a piece. -/
def eraseFront (l : RopePieceBTreeLeaf) (StartPiece NumBytes : Nat) :
    Option RopePieceBTreeLeaf :=
  if NumBytes = 0 then some l
  else do
    let p ← l.Pieces[StartPiece]?
    if p.size ≤ NumBytes then none
    else
      some { l with
        Size := l.Size - NumBytes
        Pieces := l.Pieces.set StartPiece (p.back NumBytes) }

def erase (l : RopePieceBTreeLeaf) (Offset NumBytes : Nat) : Option RopePieceBTreeLeaf := do
  let (StartPiece, PieceOffs) ← findStart RopePiece.size Offset l.Pieces 0 0
  if PieceOffs ≠ Offset then none
  else do
    let (i, PieceOffs) ← findReaching RopePiece.size (Offset + NumBytes)
      (l.Pieces.drop StartPiece) StartPiece PieceOffs
    let p ← l.Pieces[i]?
    let (i, PieceOffs) :=
      if Offset + NumBytes = PieceOffs + p.size then (i + 1, PieceOffs + p.size)
      else (i, PieceOffs)
    let (l, NumBytes) := l.eraseCovered Offset StartPiece i PieceOffs NumBytes
    l.eraseFront StartPiece NumBytes

/-- The invariant of a leaf. -/
structure WF (l : RopePieceBTreeLeaf) : Prop where
  size : l.Size = total RopePiece.size l.Pieces
  length : l.Pieces.length ≤ 2 * WidthFactor
  pos : AllPos l.Pieces

variable {l : RopePieceBTreeLeaf} {ls rs : List RopePiece}

theorem insertionPoint_eq (h : l.WF)
    (hpieces : l.Pieces = ls ++ rs) :
    l.insertionPoint (total RopePiece.size ls) = some ls.length := by
  have hpos := h.pos
  rw [hpieces] at hpos
  unfold insertionPoint
  split_ifs with hend
  · rw [h.size, hpieces, total_append] at hend
    have hnil := hpos.right.eq_nil (show total RopePiece.size rs = 0 by omega)
    rw [hpieces, hnil, append_nil]
  · have hfind := @findStart_spec _ RopePiece.size 0 0 ls rs hpos.left
    rw [Nat.zero_add, Nat.zero_add] at hfind
    rw [hpieces, hfind]
    exact if_pos rfl

theorem insertNotFull_spec {R : RopePiece}
    (h : l.WF) (hfull : ¬l.isFull) (hR : 0 < R.size) (hpieces : l.Pieces = ls ++ rs) :
    ∃ l', l.insertNotFull (total RopePiece.size ls) R = some l' ∧ l'.WF ∧ l'.id = l.id ∧
      l'.Pieces = ls ++ R :: rs := by
  have hpos := h.pos
  rw [hpieces] at hpos
  have htake : l.Pieces.take ls.length = ls := by rw [hpieces, take_left]
  have hdrop : l.Pieces.drop ls.length = rs := by rw [hpieces, drop_left]
  rw [insertNotFull, insertionPoint_eq h hpieces]
  show ∃ l', some _ = some l' ∧ _
  rw [htake, hdrop]
  refine ⟨_, rfl, ⟨?_, ?_, ?_⟩, rfl, rfl⟩
  · show l.Size + R.size = total RopePiece.size (ls ++ R :: rs)
    rw [h.size, hpieces, total_append, total_append, total]
    omega
  · have hlength := h.length
    rw [isFull] at hfull
    rw [hpieces, length_append] at hlength hfull
    rw [length_append, length_cons]
    omega
  · refine hpos.left.append fun x hx => ?_
    rcases mem_cons.mp hx with heq | hmem
    · rw [heq]
      exact hR
    · exact hpos.right x hmem

/-- A leaf that an operation has changed, with the new leaf if it was full. -/
structure Grown (l : RopePieceBTreeLeaf) (o : LeafOrder) (ps : List RopePiece)
    (r : RopePieceBTreeLeaf × Option RopePieceBTreeLeaf × LeafOrder) : Prop where
  good : ∀ m ∈ r.1 :: r.2.1.toList, m.WF ∧ (ps ≠ [] → m.Pieces ≠ [])
  pieces : (r.1 :: r.2.1.toList).flatMap Pieces = ps
  order : ∀ before after, o.Ordered (before ++ l.id :: after) →
    r.2.2.Ordered (before ++ (r.1 :: r.2.1.toList).map id ++ after)

theorem wf_half {ps : List RopePiece} (h : l.WF)
    (hsub : ps.Sublist l.Pieces) (hlength : ps.length = WidthFactor) (id Size : Nat) :
    (FullRecomputeSizeLocally ⟨id, Size, ps⟩).WF ∧
      ¬(FullRecomputeSizeLocally ⟨id, Size, ps⟩).isFull ∧ ps ≠ [] := by
  refine ⟨⟨rfl, ?_, fun x hx => h.pos x (hsub.subset hx)⟩, ?_, ?_⟩
  · show ps.length ≤ 2 * WidthFactor
    omega
  · show ps.length ≠ 2 * WidthFactor
    rw [hlength]
    decide
  · rintro rfl
    exact absurd hlength (by decide)

theorem order_cut {o : LeafOrder} {before after : List Nat} {a : Nat}
    (h : o.Ordered (before ++ a :: after)) :
    (o.new.2.insertAfterLeafInOrder o.new.1 a).Ordered (before ++ [a, o.new.1] ++ after) := by
  obtain ⟨hordered, hnew⟩ := h.alloc
  rw [append_assoc]
  exact hordered.insertAfter hnew (Nat.lt_succ_self _)

theorem insert_spec {R : RopePiece}
    (h : l.WF) (hR : 0 < R.size) (hpieces : l.Pieces = ls ++ rs) (o : LeafOrder) :
    ∃ r, l.insert (total RopePiece.size ls) R o = some r ∧ l.Grown o (ls ++ R :: rs) r := by
  unfold insert
  by_cases hfull : l.isFull
  swap
  · obtain ⟨l', hresult, hwf, hid, hpieces'⟩ := insertNotFull_spec h hfull hR hpieces
    rw [if_pos hfull, hresult]
    refine ⟨_, rfl, ?_, ?_, ?_⟩
    · intro m hm
      rw [mem_singleton.mp hm, hpieces']
      exact ⟨hwf, fun _ => by simp⟩
    · show l'.Pieces ++ [] = _
      rw [append_nil, hpieces']
    · intro before after horder
      show o.Ordered (before ++ [l'.id] ++ after)
      rw [hid, append_assoc]
      exact horder
  have hlength : l.Pieces.length = 2 * WidthFactor := hfull
  have hhalves := take_append_drop WidthFactor l.Pieces
  have htakeLength : (l.Pieces.take WidthFactor).length = WidthFactor := by
    rw [length_take, hlength]
    decide
  have hdropLength : (l.Pieces.drop WidthFactor).length = WidthFactor := by
    rw [length_drop, hlength]
    decide
  obtain ⟨hwfL, hnotFullL, hneL⟩ := wf_half h (take_sublist ..) htakeLength l.id l.Size
  obtain ⟨hwfR, hnotFullR, hneR⟩ := wf_half h (drop_sublist ..) hdropLength o.new.1 0
  have hpos := h.pos
  have hcuts : ls ++ rs = l.Pieces.take WidthFactor ++ l.Pieces.drop WidthFactor :=
    hpieces.symm.trans hhalves.symm
  rw [hpieces] at hpos
  dsimp only
  split_ifs with hle
  · have hle' : total RopePiece.size ls ≤ total RopePiece.size (l.Pieces.take WidthFactor) := hle
    obtain ⟨mid, hleft, hright⟩ := exists_of_append_eq hcuts hpos.left hle'
    obtain ⟨l', hresult, hwf, hid, hpieces'⟩ := insertNotFull_spec hwfL hnotFullL hR hleft
    rw [hresult]
    refine ⟨_, rfl, ?_, ?_, ?_⟩
    · intro m hm
      rcases mem_cons.mp hm with rfl | hm
      · rw [hpieces']
        exact ⟨hwf, fun _ => by simp⟩
      · rw [mem_singleton.mp hm]
        exact ⟨hwfR, fun _ => hneR⟩
    · show l'.Pieces ++ (l.Pieces.drop WidthFactor ++ []) = _
      rw [hpieces', append_nil, hright, append_assoc, cons_append]
    · intro before after horder
      show LeafOrder.Ordered _ (before ++ [l'.id, o.new.1] ++ after)
      rw [hid]
      exact order_cut horder
  · have hge : total RopePiece.size (l.Pieces.take WidthFactor) ≤ total RopePiece.size ls :=
      Nat.le_of_not_le hle
    have hposTake : AllPos (l.Pieces.take WidthFactor) := hwfL.pos
    obtain ⟨mid, hleft, hright⟩ := exists_of_append_eq hcuts.symm hposTake hge
    have hoffset : total RopePiece.size ls - total RopePiece.size (l.Pieces.take WidthFactor) =
        total RopePiece.size mid := by
      rw [hleft, total_append, Nat.add_sub_cancel_left]
    obtain ⟨l', hresult, hwf, hid, hpieces'⟩ := insertNotFull_spec hwfR hnotFullR hR hright
    rw [← hoffset] at hresult
    refine ⟨_, congrArg (Option.bind · _) hresult, ?_, ?_, ?_⟩
    · intro m hm
      rcases mem_cons.mp hm with rfl | hm
      · exact ⟨hwfL, fun _ => hneL⟩
      · rw [mem_singleton.mp hm, hpieces']
        exact ⟨hwf, fun _ => by simp⟩
    · show l.Pieces.take WidthFactor ++ (l'.Pieces ++ []) = _
      rw [hpieces', append_nil, hleft, append_assoc]
    · intro before after horder
      show LeafOrder.Ordered _ (before ++ [l.id, l'.id] ++ after)
      rw [hid]
      exact order_cut horder

theorem Grown.refl (h : l.WF) (o : LeafOrder) :
    l.Grown o l.Pieces (l, none, o) where
  good m hm := by
    rw [mem_singleton.mp hm]
    exact ⟨h, fun hne => hne⟩
  pieces := append_nil _
  order before after horder := by
    rw [append_assoc]
    exact horder

theorem split_spec {Offset : Nat} (h : l.WF) (hle : Offset ≤ l.Size)
    (o : LeafOrder) :
    ∃ r, l.split Offset o = some r ∧
      l.Grown o (takeUnits Offset l.Pieces ++ dropUnits Offset l.Pieces) r := by
  have hrefl := Grown.refl h o
  have hsize := h.size
  unfold split
  split_ifs with hend
  · refine ⟨_, rfl, ?_⟩
    have hsame : takeUnits Offset l.Pieces ++ dropUnits Offset l.Pieces = l.Pieces := by
      rcases hend with rfl | rfl
      · rw [takeUnits_zero, dropUnits_zero, nil_append]
      · obtain ⟨htake, hdrop⟩ := units_total h.pos
        rw [hsize]
        exact (congrArg₂ (· ++ ·) htake hdrop).trans (append_nil _)
    rw [hsame]
    exact hrefl
  obtain ⟨before, p, after, hpieces, hfind, hlow, hhigh⟩ := @findAt_spec _ RopePiece.size Offset 0
    l.Pieces 0 (Nat.zero_le _) (by omega)
  have hpos := h.pos
  rw [Nat.zero_add] at hlow hhigh hfind
  rw [Nat.zero_add] at hfind
  rw [hfind]
  show ∃ r, (if total RopePiece.size before = Offset then some (l, none, o) else _) = some r ∧ _
  rw [hpieces] at hpos
  split_ifs with hboundary
  · refine ⟨_, rfl, ?_⟩
    obtain ⟨htake, hdrop⟩ := units_boundary (p :: after) hpos.left
    have hsame : takeUnits Offset l.Pieces ++ dropUnits Offset l.Pieces = l.Pieces := by
      rw [← hboundary, hpieces]
      exact congrArg₂ (· ++ ·) htake hdrop
    rw [hsame]
    exact hrefl
  · have hp : l.Pieces[before.length]? = some p := by
      rw [hpieces, getElem?_append_right (Nat.le_refl _), Nat.sub_self]
      rfl
    rw [hp]
    have hset : l.Pieces.set before.length (p.front (Offset - total RopePiece.size before)) =
        before ++ p.front (Offset - total RopePiece.size before) :: after := by
      rw [hpieces, set_append_right _ _ (Nat.le_refl _), Nat.sub_self]
      rfl
    obtain ⟨k, hk⟩ := Nat.exists_eq_add_of_le hlow
    subst hk
    rw [Nat.add_sub_cancel_left] at hset ⊢
    have hkpos : 0 < k := by omega
    have hklt : k < p.size := by omega
    have hfront : (p.front k).size = k := Segment.size_front p k
    have hback : (p.back k).size = p.size - k := Segment.size_back p k
    obtain ⟨htake, hdrop⟩ := units_inside after hpos.left hkpos hklt
    have hsame : takeUnits (total RopePiece.size before + k) l.Pieces ++
        dropUnits (total RopePiece.size before + k) l.Pieces =
          before ++ [p.front k] ++ p.back k :: after := by
      rw [hpieces]
      exact congrArg₂ (· ++ ·) htake hdrop
    have hshrunk : WF ⟨l.id, l.Size - p.size + (p.front k).size,
        l.Pieces.set before.length (p.front k)⟩ := by
      refine ⟨?_, ?_, ?_⟩
      · show l.Size - p.size + (p.front k).size =
          total RopePiece.size (l.Pieces.set before.length (p.front k))
        rw [hset, hsize, hpieces, total_append, total_append, total, total]
        omega
      · rw [length_set]
        exact h.length
      · rw [hset]
        refine hpos.left.append fun x hx => ?_
        rcases mem_cons.mp hx with heq | hmem
        · rw [heq]
          exact hkpos.trans_eq hfront.symm
        · exact hpos.right x (mem_cons_of_mem _ hmem)
    have hoffset : total RopePiece.size (before ++ [p.front k]) =
        total RopePiece.size before + k := by
      rw [total_append, total, total, hfront, Nat.add_zero]
    obtain ⟨r, hresult, hgrown⟩ := insert_spec hshrunk (R := p.back k) (by omega)
      (show l.Pieces.set before.length (p.front k) = (before ++ [p.front k]) ++ after by
        rw [hset, append_assoc]; rfl) o
    rw [hoffset] at hresult
    rw [hsame]
    exact ⟨r, hresult, hgrown.good, hgrown.pieces, hgrown.order⟩

theorem eraseCovered_eq {ls mid rest : List RopePiece} (h : l.WF)
    (hpieces : l.Pieces = ls ++ (mid ++ rest)) (NumBytes : Nat) :
    l.eraseCovered (total RopePiece.size ls) ls.length (ls.length + mid.length)
        (total RopePiece.size ls + total RopePiece.size mid) NumBytes =
      (⟨l.id, total RopePiece.size (ls ++ rest), ls ++ rest⟩,
        NumBytes - total RopePiece.size mid) := by
  have hsize := h.size
  rw [hpieces, total_append, total_append] at hsize
  unfold eraseCovered
  cases mid with
  | nil =>
    obtain ⟨id, Size, Pieces⟩ := l
    dsimp only at hpieces hsize
    rw [if_neg (by simp), hpieces, hsize, total, total_append, Nat.zero_add, Nat.sub_zero,
      nil_append]
  | cons p mid =>
    have hdrop : (ls ++ (p :: mid ++ rest)).drop (ls.length + (p :: mid).length) = rest := by
      rw [← append_assoc, ← length_append, drop_left]
    rw [if_pos (by simp), hpieces, take_left, hdrop]
    dsimp only
    rw [hsize, Nat.add_sub_cancel_left, total_append]
    congr 2
    omega

theorem eraseFront_spec {NumBytes : Nat} {ls after : List RopePiece}
    {p : RopePiece} (h : l.WF) (hpieces : l.Pieces = ls ++ p :: after) (hbytes : 0 < NumBytes)
    (hlt : NumBytes < p.size) :
    ∃ l', l.eraseFront ls.length NumBytes = some l' ∧ l'.WF ∧ l'.id = l.id ∧
      l'.Pieces = ls ++ p.back NumBytes :: after := by
  have hsize := h.size
  have hlength := h.length
  have hpos := h.pos
  have hback : (p.back NumBytes).size = p.size - NumBytes := Segment.size_back p NumBytes
  have hp : l.Pieces[ls.length]? = some p := by
    rw [hpieces, getElem?_append_right (Nat.le_refl _), Nat.sub_self]
    rfl
  have hset : l.Pieces.set ls.length (p.back NumBytes) = ls ++ p.back NumBytes :: after := by
    rw [hpieces, set_append_right _ _ (Nat.le_refl _), Nat.sub_self]
    rfl
  unfold eraseFront
  rw [if_neg (by omega), hp]
  show ∃ l', (if p.size ≤ NumBytes then none else some _) = some l' ∧ _
  rw [if_neg (by omega)]
  refine ⟨_, rfl, ⟨?_, ?_, ?_⟩, rfl, hset⟩
  · show l.Size - NumBytes = total RopePiece.size (l.Pieces.set ls.length (p.back NumBytes))
    rw [hset, hsize, hpieces, total_append, total_append, total, total, hback]
    omega
  · rw [length_set]
    exact hlength
  · rw [hpieces] at hpos
    rw [hset]
    refine hpos.left.append fun x hx => ?_
    rcases mem_cons.mp hx with heq | hmem
    · rw [heq]
      exact (Nat.sub_pos_of_lt hlt).trans_eq hback.symm
    · exact hpos.right x (mem_cons_of_mem _ hmem)

theorem WF.sublist (h : l.WF) {ps : List RopePiece}
    (hsub : ps.Sublist l.Pieces) : WF ⟨l.id, total RopePiece.size ps, ps⟩ where
  size := rfl
  length := Nat.le_trans hsub.length_le h.length
  pos x hx := h.pos x (hsub.subset hx)

theorem erase_spec {NumBytes : Nat} (h : l.WF)
    (hpieces : l.Pieces = ls ++ rs) (hbytes : 0 < NumBytes)
    (hle : NumBytes ≤ total RopePiece.size rs) :
    ∃ l', l.erase (total RopePiece.size ls) NumBytes = some l' ∧ l'.WF ∧ l'.id = l.id ∧
      l'.Pieces = ls ++ dropUnits NumBytes rs := by
  have hpos := h.pos
  rw [hpieces] at hpos
  have hstart := @findStart_spec _ RopePiece.size 0 0 ls rs hpos.left
  rw [Nat.zero_add, Nat.zero_add] at hstart
  have hne : rs ≠ [] := by
    rintro rfl
    rw [total] at hle
    omega
  obtain ⟨before, p, after, rfl, hfind, hlow, hhigh⟩ :=
    @findReaching_spec _ RopePiece.size (total RopePiece.size ls + NumBytes)
      (total RopePiece.size ls) rs ls.length hne (by omega)
  have hp : l.Pieces[ls.length + before.length]? = some p := by
    rw [hpieces, ← append_assoc, getElem?_append_right (by simp), length_append, Nat.sub_self]
    rfl
  have hposBefore := hpos.right.left
  have hbefore : total RopePiece.size before ≤ NumBytes := by
    rcases hlow with rfl | hlow
    · exact Nat.zero_le _
    · omega
  unfold erase
  rw [hpieces, hstart]
  show ∃ l', (if total RopePiece.size ls ≠ total RopePiece.size ls then none else _) = some l' ∧ _
  rw [if_neg (not_not.mpr rfl), drop_left, hfind]
  show ∃ l', ((ls ++ (before ++ p :: after))[ls.length + before.length]?).bind _ = some l' ∧ _
  rw [← hpieces, hp, Option.bind_some]
  by_cases hcover : total RopePiece.size ls + NumBytes =
      total RopePiece.size ls + total RopePiece.size before + p.size
  · have hsplit : l.Pieces = ls ++ ((before ++ [p]) ++ after) := by
      rw [hpieces, append_assoc]
      rfl
    have hmid : total RopePiece.size (before ++ [p]) = NumBytes := by
      rw [total_append, total, total]
      omega
    have hcovered := eraseCovered_eq h hsplit NumBytes
    have hlength : ls.length + (before ++ [p]).length = ls.length + before.length + 1 := by
      rw [length_append, length_singleton, Nat.add_assoc]
    rw [hlength, hmid, Nat.sub_self] at hcovered
    have hposMid : AllPos (before ++ [p]) := by
      have hall := h.pos
      rw [hsplit] at hall
      exact hall.right.left
    obtain ⟨-, hdrop⟩ := units_boundary after hposMid
    have hdrop' : dropUnits NumBytes (before ++ p :: after) = after := by
      rw [← hmid, append_cons before p after]
      exact hdrop
    rw [if_pos hcover]
    dsimp only
    rw [← hcover, hcovered]
    refine ⟨_, if_pos rfl, h.sublist ?_, rfl, ?_⟩
    · rw [hsplit]
      exact List.Sublist.append (List.Sublist.refl ls) (sublist_append_right _ _)
    · rw [hdrop']
  · obtain ⟨k, rfl⟩ := Nat.exists_eq_add_of_le hbefore
    have hk : 0 < k := by
      rcases hlow with rfl | hlow
      · rw [total] at hbytes
        omega
      · omega
    have hklt : k < p.size := by omega
    have hwf : WF ⟨l.id, total RopePiece.size (ls ++ p :: after), ls ++ p :: after⟩ := by
      refine h.sublist ?_
      rw [hpieces]
      exact List.Sublist.append (List.Sublist.refl ls) (sublist_append_right _ _)
    obtain ⟨l', hresult, hwf', hid, hpieces'⟩ := eraseFront_spec hwf rfl hk hklt
    obtain ⟨-, hdrop⟩ := units_inside after hposBefore hk hklt
    rw [if_neg hcover]
    dsimp only
    rw [eraseCovered_eq h hpieces, Nat.add_sub_cancel_left]
    refine ⟨l', hresult, hwf', hid, ?_⟩
    rw [hpieces']
    exact congrArg (ls ++ ·) hdrop.symm

end RopePieceBTreeLeaf

end Zapcc.Rewrite
