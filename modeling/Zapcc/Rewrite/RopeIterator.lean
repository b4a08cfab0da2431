import Zapcc.Rewrite.RopeTree

/-!
# The B+ tree of a rope and its iterator

`RopePieceBTree` holds the root, which grows a level when it is cut. The iterator walks down to the
first leaf and from there along the list of leaves: `readFrom_spec` says that it reads the text of
the pieces in order, however many leaves are empty.
-/

namespace Zapcc.Rewrite

open Segments RopePieceBTreeNode List Option

structure RopePieceBTree where
  height : Nat
  Root : RopePieceBTreeNode height
  order : LeafOrder

namespace RopePieceBTree

def newLeaf (o : LeafOrder) : RopePieceBTree :=
  ⟨0, (⟨o.new.1, 0, []⟩ : RopePieceBTreeLeaf), o.new.2⟩

def new : RopePieceBTree := newLeaf LeafOrder.empty

def leaves (t : RopePieceBTree) : List RopePieceBTreeLeaf :=
  RopePieceBTreeNode.leaves t.height t.Root

def pieces (t : RopePieceBTree) : List RopePiece := RopePieceBTreeNode.pieces t.height t.Root

def size (t : RopePieceBTree) : Nat := RopePieceBTreeNode.size t.height t.Root

def clear (t : RopePieceBTree) : RopePieceBTree :=
  match t with
  | ⟨0, l, o⟩ => ⟨0, (⟨RopePieceBTreeLeaf.id l, 0, []⟩ : RopePieceBTreeLeaf), o⟩
  | ⟨height + 1, n, o⟩ => newLeaf (Destroy (height + 1) n o)

/-- The tree after an operation on the root. -/
def grow {height : Nat} (root : RopePieceBTreeNode height) :
    Option (RopePieceBTreeNode height) → LeafOrder → RopePieceBTree
  | none, o => ⟨height, root, o⟩
  | some RHS, o =>
    ⟨height + 1, interior (RopePieceBTreeNode.size height root + RopePieceBTreeNode.size height RHS)
        [root, RHS], o⟩

def split (t : RopePieceBTree) (Offset : Nat) : Option RopePieceBTree := do
  let (root, RHS, o) ← RopePieceBTreeNode.split t.height t.Root Offset t.order
  some (grow root RHS o)

def insert (t : RopePieceBTree) (Offset : Nat) (R : RopePiece) : Option RopePieceBTree := do
  let t ← t.split Offset
  let (root, RHS, o) ← RopePieceBTreeNode.insert t.height t.Root Offset R t.order
  some (grow root RHS o)

def erase (t : RopePieceBTree) (Offset NumBytes : Nat) : Option RopePieceBTree := do
  let t ← t.split Offset
  let (root, o) ← RopePieceBTreeNode.erase t.height t.Root Offset NumBytes t.order
  some ⟨t.height, root, o⟩

/-- The invariant of a tree. -/
structure WF (t : RopePieceBTree) : Prop where
  root : RopePieceBTreeNode.WF t.height t.Root
  order : t.order.Ordered (ids t.height t.Root)

/-- The root is a leaf, or an interior node that has children. -/
def Rooted (t : RopePieceBTree) : Prop := t.height = 0 ∨ 0 < t.size

theorem WF.size_eq {t : RopePieceBTree} (h : t.WF) :
    t.size = total RopePiece.size t.pieces ∧ AllPos t.pieces := h.root.pieces

theorem newLeaf_wf (o : LeafOrder) :
    (newLeaf o).WF ∧ (newLeaf o).Rooted ∧ (newLeaf o).pieces = [] :=
  ⟨⟨⟨rfl, Nat.zero_le _, fun _ hx => absurd hx not_mem_nil⟩, LeafOrder.ordered_new o⟩,
    .inl rfl, rfl⟩

theorem clear_wf {t : RopePieceBTree} (h : t.WF) :
    t.clear.WF ∧ t.clear.Rooted ∧ t.clear.pieces = [] := by
  obtain ⟨height, root, o⟩ := t
  cases height with
  | zero =>
    exact ⟨⟨⟨rfl, Nat.zero_le _, fun _ hx => absurd hx not_mem_nil⟩, h.order⟩, .inl rfl, rfl⟩
  | succ height => exact newLeaf_wf _

theorem grow_spec {height : Nat} {n root : RopePieceBTreeNode height}
    {RHS : Option (RopePieceBTreeNode height)} {o o' : LeafOrder} {ps : List RopePiece}
    (hgrown : Grown height n o ps (root, RHS, o')) (horder : o.Ordered (ids height n))
    (hne : ps ≠ []) :
    (grow root RHS o').WF ∧ (grow root RHS o').Rooted ∧ (grow root RHS o').pieces = ps := by
  have hordered := hgrown.order [] [] (by rwa [nil_append, append_nil])
  have hpieces := hgrown.pieces
  have hroot := hgrown.good root (mem_cons_self ..)
  rw [nil_append, append_nil] at hordered
  cases RHS with
  | none =>
    have hids : [root].flatMap (ids height) = ids height root := append_nil _
    refine ⟨⟨hroot.1, ?_⟩, .inr (hroot.2 hne), ?_⟩
    · show o'.Ordered (ids height root)
      rw [← hids]
      exact hordered
    · exact (append_nil _).symm.trans hpieces
  | some RHS =>
    have hgood : AllGood height [root, RHS] := by
      intro m hm
      obtain ⟨hwf, hpos⟩ := hgrown.good m hm
      exact ⟨hwf, hpos hne⟩
    have hsize : RopePieceBTreeNode.size height root + RopePieceBTreeNode.size height RHS =
        total (RopePieceBTreeNode.size height) [root, RHS] := by
      rw [total, total, total, Nat.add_zero]
    refine ⟨⟨wf_interior hgood (show 2 ≤ 16 by omega) hsize, ?_⟩, .inr ?_, ?_⟩
    · show o'.Ordered (ids (height + 1) (interior _ [root, RHS]))
      rw [ids_succ]
      exact hordered
    · exact Nat.add_pos_left (hroot.2 hne) _
    · exact (pieces_succ height _).trans hpieces

variable {t : RopePieceBTree} {Offset : Nat}

theorem split_spec (h : t.WF) (hrooted : t.Rooted) (hle : Offset ≤ t.size) :
    ∃ t', t.split Offset = some t' ∧ t'.WF ∧ t'.Rooted ∧
      t'.pieces = takeUnits Offset t.pieces ++ dropUnits Offset t.pieces := by
  obtain ⟨hsize, hpos⟩ := h.size_eq
  by_cases hempty : t.pieces = []
  · have hzero : t.size = 0 := by rw [hsize, hempty, total]
    have hoffset : Offset = 0 := by omega
    subst hoffset
    rw [takeUnits_zero, dropUnits_zero, nil_append]
    obtain ⟨height, root, o⟩ := t
    have hheight : height = 0 := by
      rcases hrooted with hheight | hpositive
      · exact hheight
      · exact absurd hzero (Nat.ne_of_gt hpositive)
    subst hheight
    exact ⟨_, rfl, h, hrooted, rfl⟩
  · obtain ⟨⟨root, RHS, o'⟩, hresult, hgrown⟩ :=
      RopePieceBTreeNode.split_spec t.height t.Root Offset t.order h.root hle
    have hne : takeUnits Offset t.pieces ++ dropUnits Offset t.pieces ≠ [] := by
      intro hnil
      obtain ⟨htake, hdrop⟩ := List.append_eq_nil_iff.mp hnil
      have htotal := hpos.total_pos hempty
      have htakeSize := @total_takeUnits _ _ Offset t.pieces (by rw [hsize] at hle; exact hle)
      have hdropSize := total_dropUnits Offset t.pieces
      rw [htake, total] at htakeSize
      rw [hdrop, total] at hdropSize
      omega
    obtain ⟨hwf, hrooted', hpieces⟩ := grow_spec hgrown h.order hne
    exact ⟨_, congrArg (Option.bind · _) hresult, hwf, hrooted', hpieces⟩

theorem insert_spec (h : t.WF) (hrooted : t.Rooted) (hle : Offset ≤ t.size) {R : RopePiece}
    (hR : 0 < R.size) :
    ∃ t', t.insert Offset R = some t' ∧ t'.WF ∧ t'.Rooted ∧
      t'.pieces = takeUnits Offset t.pieces ++ R :: dropUnits Offset t.pieces := by
  obtain ⟨hsize, -⟩ := h.size_eq
  obtain ⟨t₁, hsplit, hwf₁, hrooted₁, hpieces₁⟩ := split_spec h hrooted hle
  have htake : total RopePiece.size (takeUnits Offset t.pieces) = Offset :=
    total_takeUnits (by rw [hsize] at hle; exact hle)
  obtain ⟨⟨root, RHS, o'⟩, hresult, hgrown⟩ :=
    RopePieceBTreeNode.insert_spec t₁.height t₁.Root R _ _ t₁.order hwf₁.root hrooted₁ hR hpieces₁
  obtain ⟨hwf, hrooted', hpieces⟩ := grow_spec hgrown hwf₁.order (by simp)
  rw [htake] at hresult
  refine ⟨_, ?_, hwf, hrooted', hpieces⟩
  unfold insert
  rw [hsplit]
  exact congrArg (Option.bind · _) hresult

theorem erase_spec {NumBytes : Nat} (h : t.WF) (hrooted : t.Rooted) (hbytes : 0 < NumBytes)
    (hle : Offset + NumBytes ≤ t.size) :
    ∃ t', t.erase Offset NumBytes = some t' ∧ t'.WF ∧
      t'.pieces = takeUnits Offset t.pieces ++ dropUnits NumBytes (dropUnits Offset t.pieces) := by
  obtain ⟨hsize, -⟩ := h.size_eq
  obtain ⟨t₁, hsplit, hwf₁, hrooted₁, hpieces₁⟩ :=
    split_spec h hrooted (show Offset ≤ t.size by omega)
  have htake : total RopePiece.size (takeUnits Offset t.pieces) = Offset :=
    total_takeUnits (show Offset ≤ total RopePiece.size t.pieces by omega)
  have hdrop : total RopePiece.size (dropUnits Offset t.pieces) =
      total RopePiece.size t.pieces - Offset := total_dropUnits Offset t.pieces
  obtain ⟨root, o', hresult, hwf, hpieces, horder⟩ :=
    RopePieceBTreeNode.erase_spec t₁.height t₁.Root NumBytes _ _ t₁.order hwf₁.root hpieces₁ hbytes
      (by omega)
  rw [htake] at hresult
  refine ⟨⟨t₁.height, root, o'⟩, ?_, ⟨hwf, ?_⟩, hpieces⟩
  · unfold erase
    rw [hsplit]
    exact congrArg (Option.bind · _) hresult
  · have hordered := horder [] [] (by rw [nil_append, append_nil]; exact hwf₁.order)
    rw [nil_append, append_nil] at hordered
    exact hordered

theorem split_zero (t : RopePieceBTree) : t.split 0 = some t := by
  obtain ⟨height, root, o⟩ := t
  cases height with
  | zero => rfl
  | succ height =>
    rfl

theorem erase_zero_height {NumBytes : Nat} {t' : RopePieceBTree}
    (h : t.erase 0 NumBytes = some t') : t'.height = t.height := by
  unfold erase at h
  rw [split_zero] at h
  obtain ⟨t₁, hsplit, hbind⟩ := bind_eq_some_iff.mp h
  obtain rfl := some.inj hsplit
  obtain ⟨⟨root, o⟩, -, heq⟩ := bind_eq_some_iff.mp hbind
  rw [← some.inj heq]

/-- The leaf that a pointer points to. -/
def getCN (t : RopePieceBTree) (P : Nat) : Option RopePieceBTreeLeaf :=
  t.leaves.find? fun l => l.id == P

/-- `RopePieceBTreeIterator`. At the end it points to no leaf. -/
structure Iterator where
  CurNode : Option Nat
  CurPiece : Nat
  CurChar : Nat

/-- The leaf at the end of the walk down the left side. -/
def firstLeaf : (height : Nat) → RopePieceBTreeNode height → Option RopePieceBTreeLeaf
  | 0, l => some l
  | height + 1, n => do
      let child ← (RopePieceBTreeInterior.Children n)[0]?
      firstLeaf height child

/-- The loop `while (CurNode && NumPieces == 0) CurNode = NextLeaf`. -/
def skipEmpty (t : RopePieceBTree) : Nat → Option Nat → Option (Option Nat)
  | 0, _ => none
  | _ + 1, none => some none
  | fuel + 1, some CurNode => do
      let l ← t.getCN CurNode
      if l.Pieces.length = 0 then skipEmpty t fuel (t.order.NextLeaf CurNode)
      else some (some CurNode)

def begin (t : RopePieceBTree) : Option Iterator := do
  let l ← firstLeaf t.height t.Root
  let CurNode ← t.skipEmpty (t.leaves.length + 1) (some l.id)
  some ⟨CurNode, 0, 0⟩

def MoveToNextPiece (t : RopePieceBTree) (it : Iterator) : Option Iterator := do
  let CurNode ← it.CurNode
  let l ← t.getCN CurNode
  if it.CurPiece ≠ l.Pieces.length - 1 then some ⟨CurNode, it.CurPiece + 1, 0⟩
  else do
    let CurNode ← t.skipEmpty (t.leaves.length + 1) (t.order.NextLeaf CurNode)
    some ⟨CurNode, 0, 0⟩

def piece (t : RopePieceBTree) (it : Iterator) : Option RopePiece := do
  let CurNode ← it.CurNode
  let l ← t.getCN CurNode
  l.Pieces[it.CurPiece]?

/-- `operator++`. -/
def next (t : RopePieceBTree) (it : Iterator) : Option Iterator := do
  let p ← t.piece it
  if it.CurChar + 1 < p.size then some { it with CurChar := it.CurChar + 1 }
  else t.MoveToNextPiece it

/-- `operator*`. -/
def read (t : RopePieceBTree) (strings : Strings) (it : Iterator) : Option UInt8 := do
  let p ← t.piece it
  p.get strings it.CurChar

/-- Iterate to the end. There is no result when the fuel runs out. -/
def readFrom (t : RopePieceBTree) (strings : Strings) : Nat → Iterator → Option (List UInt8)
  | 0, _ => none
  | fuel + 1, it =>
    if it.CurNode = none then some []
    else do
      let c ← t.read strings it
      let it ← t.next it
      let rest ← readFrom t strings fuel it
      some (c :: rest)

variable {before after : List RopePieceBTreeLeaf} {l : RopePieceBTreeLeaf}

theorem getCN_eq (h : t.WF) (hleaves : t.leaves = before ++ l :: after) :
    t.getCN l.id = some l := by
  have hnodup : (t.leaves.map RopePieceBTreeLeaf.id).Nodup := h.order.nodup
  rw [hleaves, map_append, map_cons] at hnodup
  rw [getCN, hleaves, find?_append]
  have hnone : before.find? (fun m => m.id == l.id) = none := by
    rw [find?_eq_none]
    intro m hm heq
    have hdisjoint := disjoint_of_nodup_append hnodup
    refine hdisjoint (mem_map_of_mem hm) ?_
    rw [beq_iff_eq.mp heq]
    exact mem_cons_self ..
  rw [hnone, find?_cons_of_pos (by simp)]
  rfl

theorem nextLeaf_eq (h : t.WF) (hleaves : t.leaves = before ++ l :: after) :
    t.order.NextLeaf l.id = after.head?.map RopePieceBTreeLeaf.id := by
  have hordered : t.order.Ordered (t.leaves.map RopePieceBTreeLeaf.id) := h.order
  rw [hleaves, map_append, map_cons] at hordered
  rw [hordered.next_eq, head?_map]

theorem skipEmpty_spec (h : t.WF) {fuel : Nat} (hleaves : t.leaves = before ++ after)
    (hfuel : after.length < fuel) :
    (t.skipEmpty fuel (after.head?.map RopePieceBTreeLeaf.id) = some none ∧
        after.flatMap RopePieceBTreeLeaf.Pieces = []) ∨
      ∃ mid l rest, after = mid ++ l :: rest ∧ mid.flatMap RopePieceBTreeLeaf.Pieces = [] ∧
        l.Pieces ≠ [] ∧
        t.skipEmpty fuel (after.head?.map RopePieceBTreeLeaf.id) = some (some l.id) := by
  induction after generalizing before fuel with
  | nil =>
    obtain ⟨fuel, rfl⟩ := Nat.exists_eq_succ_of_ne_zero (Nat.ne_zero_of_lt hfuel)
    exact .inl ⟨rfl, rfl⟩
  | cons l after ih =>
    obtain ⟨fuel, rfl⟩ := Nat.exists_eq_succ_of_ne_zero (Nat.ne_zero_of_lt hfuel)
    have hget := getCN_eq h hleaves
    have hnext := nextLeaf_eq h hleaves
    have hunfold : t.skipEmpty (fuel + 1) ((l :: after).head?.map RopePieceBTreeLeaf.id) =
        if l.Pieces.length = 0 then t.skipEmpty fuel (after.head?.map RopePieceBTreeLeaf.id)
        else some (some l.id) := by
      show (t.getCN l.id).bind _ = _
      rw [hget, bind_some, hnext]
    rw [hunfold]
    by_cases hempty : l.Pieces.length = 0
    · have hnil := eq_nil_of_length_eq_zero hempty
      rw [if_pos hempty, flatMap_cons, hnil, nil_append]
      rcases @ih (before ++ [l]) fuel (by rw [hleaves, append_assoc]; rfl)
        (Nat.lt_of_succ_lt_succ hfuel) with hend | ⟨mid, m, rest, rfl, hmid, hne, hskip⟩
      · exact .inl hend
      · refine .inr ⟨l :: mid, m, rest, rfl, ?_, hne, hskip⟩
        rw [flatMap_cons, hnil, hmid]
        rfl
    · rw [if_neg hempty]
      exact .inr ⟨[], l, after, rfl, rfl, fun hnil => hempty (by rw [hnil]; rfl), rfl⟩

/-- What an iterator has left to read. -/
def Reads (t : RopePieceBTree) (strings : Strings) (it : Iterator) (text : List UInt8) : Prop :=
  (it.CurNode = none ∧ text = []) ∨
    ∃ before l after p, t.leaves = before ++ l :: after ∧ it.CurNode = some l.id ∧
      l.Pieces[it.CurPiece]? = some p ∧ it.CurChar < p.size ∧
      text = (RopePiece.text strings p).drop it.CurChar ++
        (RopePiece.textOf strings (l.Pieces.drop (it.CurPiece + 1)) ++
          RopePiece.textOf strings (after.flatMap RopePieceBTreeLeaf.Pieces))

variable {strings : Strings}

theorem reads_skipEmpty (h : t.WF) (hvalid : ∀ p ∈ t.pieces, RopePiece.Valid strings p)
    (hleaves : t.leaves = before ++ after) :
    ∃ CurNode, t.skipEmpty (t.leaves.length + 1) (after.head?.map RopePieceBTreeLeaf.id) =
        some CurNode ∧
      t.Reads strings ⟨CurNode, 0, 0⟩
        (RopePiece.textOf strings (after.flatMap RopePieceBTreeLeaf.Pieces)) := by
  have hfuel : after.length < t.leaves.length + 1 := by
    rw [hleaves, length_append]
    omega
  rcases skipEmpty_spec h hleaves hfuel with ⟨hskip, hnil⟩ | ⟨mid, l, rest, rfl, hmid, hne, hskip⟩
  · exact ⟨none, hskip, .inl ⟨rfl, by rw [hnil]; rfl⟩⟩
  · obtain ⟨p, ps, hpieces⟩ := exists_cons_of_ne_nil hne
    have hp : p ∈ t.pieces := by
      show p ∈ t.leaves.flatMap RopePieceBTreeLeaf.Pieces
      rw [hleaves, mem_flatMap]
      exact ⟨l, by simp, by rw [hpieces]; exact mem_cons_self ..⟩
    refine ⟨some l.id, hskip, .inr ⟨before ++ mid, l, rest, p, ?_, rfl, ?_, (hvalid p hp).pos, ?_⟩⟩
    · rw [hleaves, append_assoc]
    · rw [hpieces]
      rfl
    · rw [flatMap_append, hmid, nil_append, flatMap_cons, hpieces,
        RopePiece.textOf_append, ← append_assoc]
      rfl

theorem firstLeaf_eq {height : Nat} {n : RopePieceBTreeNode height}
    (h : RopePieceBTreeNode.WF height n)
    (hrooted : height = 0 ∨ 0 < RopePieceBTreeNode.size height n) :
    ∃ l rest, RopePieceBTreeNode.leaves height n = l :: rest ∧ firstLeaf height n = some l := by
  induction height with
  | zero => exact ⟨n, [], rfl, rfl⟩
  | succ height ih =>
    have hsize : RopePieceBTreeNode.size (height + 1) n = total (RopePieceBTreeNode.size height)
      (RopePieceBTreeInterior.Children n) := h.1
    have hgood : AllGood height (RopePieceBTreeInterior.Children n) := h.2.2
    show ∃ l rest, (RopePieceBTreeInterior.Children n).flatMap _ = l :: rest ∧
      ((RopePieceBTreeInterior.Children n)[0]?).bind _ = some l
    generalize RopePieceBTreeInterior.Children n = cs at hsize hgood
    cases cs with
    | nil =>
      rw [total] at hsize
      omega
    | cons c cs =>
      obtain ⟨hc, hcpos⟩ := hgood c (mem_cons_self ..)
      obtain ⟨l, rest, hleaves, hfirst⟩ := ih hc (.inr hcpos)
      refine ⟨l, rest ++ cs.flatMap (RopePieceBTreeNode.leaves height), ?_, hfirst⟩
      rw [flatMap_cons, hleaves, cons_append]

theorem begin_eq_none (h : t.WF) (hheight : t.height ≠ 0) (hsize : t.size = 0) :
    t.begin = none := by
  obtain ⟨height, root, o⟩ := t
  cases height with
  | zero => exact absurd rfl hheight
  | succ height =>
    obtain ⟨htotal, -, hgood⟩ := h.root
    have hchildren : RopePieceBTreeInterior.Children root = [] := by
      have hzero : total (RopePieceBTreeNode.size height)
          (RopePieceBTreeInterior.Children root) = 0 := htotal.symm.trans hsize
      generalize RopePieceBTreeInterior.Children root = cs at hzero hgood
      cases cs with
      | nil => rfl
      | cons c cs =>
        have hc := (hgood c (mem_cons_self ..)).2
        rw [total] at hzero
        omega
    show ((RopePieceBTreeInterior.Children root)[0]?.bind (firstLeaf height)).bind _ = none
    rw [hchildren]
    rfl

theorem begin_reads (h : t.WF) (hrooted : t.Rooted)
    (hvalid : ∀ p ∈ t.pieces, RopePiece.Valid strings p) :
    ∃ it, t.begin = some it ∧ t.Reads strings it (RopePiece.textOf strings t.pieces) := by
  obtain ⟨l, rest, hleaves, hfirst⟩ := firstLeaf_eq h.root hrooted
  have hleaves' : t.leaves = [] ++ (l :: rest) := hleaves
  obtain ⟨CurNode, hskip, hreads⟩ := reads_skipEmpty h hvalid hleaves'
  have hpieces : t.pieces = (l :: rest).flatMap RopePieceBTreeLeaf.Pieces :=
    congrArg (List.flatMap RopePieceBTreeLeaf.Pieces) hleaves
  refine ⟨⟨CurNode, 0, 0⟩, ?_, ?_⟩
  · unfold begin
    rw [hfirst]
    exact congrArg (Option.bind · _) hskip
  · rw [hpieces]
    exact hreads

theorem next_reads (h : t.WF) (hvalid : ∀ p ∈ t.pieces, RopePiece.Valid strings p)
    {it : Iterator} {text : List UInt8} (hreads : t.Reads strings it text)
    (hnode : it.CurNode ≠ none) :
    ∃ c rest it', text = c :: rest ∧ t.read strings it = some c ∧ t.next it = some it' ∧
      t.Reads strings it' rest := by
  rcases hreads with ⟨hnone, -⟩ | ⟨before, l, after, p, hleaves, hcur, hpiece, hchar, htext⟩
  · exact absurd hnone hnode
  have hget := getCN_eq h hleaves
  have hp : p ∈ t.pieces := by
    show p ∈ t.leaves.flatMap RopePieceBTreeLeaf.Pieces
    rw [hleaves, mem_flatMap]
    exact ⟨l, by simp, mem_of_getElem? hpiece⟩
  have hlength := (hvalid p hp).length_text
  have hindex : it.CurChar < (RopePiece.text strings p).length := by omega
  have hcurrent : t.piece it = some p := by
    unfold piece
    rw [hcur]
    show (t.getCN l.id).bind _ = some p
    rw [hget]
    exact hpiece
  have hread : t.read strings it = some ((RopePiece.text strings p)[it.CurChar]) := by
    unfold read
    rw [hcurrent]
    show p.get strings it.CurChar = _
    rw [(hvalid p hp).get_eq hchar, getElem?_eq_getElem hindex]
  rw [drop_eq_getElem_cons hindex, cons_append] at htext
  unfold next
  rw [hcurrent]
  show ∃ c rest it', _ ∧ _ ∧
    (if it.CurChar + 1 < p.size then some _ else t.MoveToNextPiece it) = some it' ∧ _
  by_cases hinside : it.CurChar + 1 < p.size
  · rw [if_pos hinside]
    exact ⟨_, _, _, htext, hread, rfl, .inr ⟨before, l, after, p, hleaves, hcur, hpiece, hinside,
      rfl⟩⟩
  · rw [if_neg hinside]
    rw [drop_of_length_le (show (RopePiece.text strings p).length ≤ it.CurChar + 1 by omega),
      nil_append] at htext
    obtain ⟨hpieceLt, -⟩ := List.getElem?_eq_some_iff.mp hpiece
    unfold MoveToNextPiece
    rw [hcur]
    show ∃ c rest it', _ ∧ _ ∧ (t.getCN l.id).bind _ = some it' ∧ _
    rw [hget, bind_some]
    by_cases hlast : it.CurPiece = l.Pieces.length - 1
    · obtain ⟨CurNode, hskip, hreads⟩ := reads_skipEmpty h hvalid
        (show t.leaves = (before ++ [l]) ++ after by rw [hleaves, append_assoc]; rfl)
      rw [if_neg (not_not.mpr hlast), nextLeaf_eq h hleaves, hskip]
      rw [drop_of_length_le (show l.Pieces.length ≤ it.CurPiece + 1 by omega)] at htext
      exact ⟨_, _, _, htext, hread, rfl, hreads⟩
    · have hnext : it.CurPiece + 1 < l.Pieces.length := by omega
      have hq : l.Pieces[it.CurPiece + 1] ∈ t.pieces := by
        show _ ∈ t.leaves.flatMap RopePieceBTreeLeaf.Pieces
        rw [hleaves, mem_flatMap]
        exact ⟨l, by simp, getElem_mem hnext⟩
      rw [if_pos hlast]
      rw [drop_eq_getElem_cons hnext] at htext
      refine ⟨_, _, _, htext, hread, rfl, .inr ⟨before, l, after, _, hleaves, rfl,
        getElem?_eq_getElem hnext, (hvalid _ hq).pos, ?_⟩⟩
      show (RopePiece.text strings _ ++ RopePiece.textOf strings _) ++ _ = _
      rw [append_assoc]
      rfl

theorem readFrom_spec (h : t.WF) (hvalid : ∀ p ∈ t.pieces, RopePiece.Valid strings p)
    {it : Iterator} {text : List UInt8} (hreads : t.Reads strings it text) {fuel : Nat}
    (hfuel : text.length < fuel) : t.readFrom strings fuel it = some text := by
  induction fuel generalizing it text with
  | zero => exact absurd hfuel (Nat.not_lt_zero _)
  | succ fuel ih =>
    unfold readFrom
    split_ifs with hend
    · rcases hreads with ⟨-, hnil⟩ | ⟨_, _, _, _, _, hcur, -⟩
      · rw [hnil]
      · rw [hcur] at hend
        exact absurd hend (by simp)
    · obtain ⟨c, rest, it', rfl, hread, hnext, hreads'⟩ := next_reads h hvalid hreads hend
      rw [hread]
      rw [hnext]
      show (t.readFrom strings fuel it').bind _ = _
      rw [ih hreads' (Nat.lt_of_succ_lt_succ hfuel)]
      rfl

end RopePieceBTree

end Zapcc.Rewrite
