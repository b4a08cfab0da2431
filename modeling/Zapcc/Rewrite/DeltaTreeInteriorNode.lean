import Zapcc.Rewrite.DeltaTreeLeaf

/-!
# The interior nodes of the tree of deltas

The children of a node hold the deltas between its values. `DoInsertion_spec` and `getDeltaAt_spec`
say what a node makes of its children, for operations on the children that are parameters.
-/

namespace Zapcc.Rewrite

open KeyedSums List

structure DeltaTreeInteriorNode (α : Type) where
  Values : List SourceDelta
  FullDelta : Int
  Children : List α

namespace DeltaTreeInteriorNode

variable {α : Type}

def ofChildren (fullDelta : α → Int) (Values : List SourceDelta) (Children : List α) :
    DeltaTreeInteriorNode α :=
  ⟨Values, total Values + (Children.map fullDelta).sum, Children⟩

def DoSplit (fullDelta : α → Int) (n : DeltaTreeInteriorNode α) :
    Option (InsertResult (DeltaTreeInteriorNode α)) :=
  if n.Values.length = MaxValues then do
    let Split ← n.Values[7]?
    some ⟨ofChildren fullDelta (n.Values.take 7) (n.Children.take 8), Split,
      ofChildren fullDelta (n.Values.drop 8) (n.Children.drop 8)⟩
  else none

/-- Store a value, and the child behind it, in a node with space. -/
def insertSplit (n : DeltaTreeInteriorNode α) (i : Nat) (Split : SourceDelta) (RHS : α) :
    DeltaTreeInteriorNode α :=
  { n with
    Values := insertAt i Split n.Values
    Children := insertAt (i + 1) RHS n.Children }

/-- Store a value and the child behind it in one of the halves of a node. -/
def insertSide (fullDelta : α → Int) (InsertSide : DeltaTreeInteriorNode α)
    (SubSplit : SourceDelta) (SubRHS : α) : DeltaTreeInteriorNode α :=
  let i := insertionPoint SubSplit.1 InsertSide.Values
  let n := InsertSide.insertSplit i SubSplit SubRHS
  { n with FullDelta := n.FullDelta + (SubSplit.2 + fullDelta SubRHS) }

/-- What a node does when its child was split. -/
def percolate (fullDelta : α → Int) (n : DeltaTreeInteriorNode α) (i : Nat)
    (InsertRes : InsertResult α) : Option (Inserted (DeltaTreeInteriorNode α)) :=
  let ⟨SubLHS, SubSplit, SubRHS⟩ := InsertRes
  let n := { n with Children := n.Children.set i SubLHS }
  if n.Values.length ≠ MaxValues then some (.done (n.insertSplit i SubSplit SubRHS))
  else do
    let ⟨LHS, Split, RHS⟩ ← n.DoSplit fullDelta
    if SubSplit.1 < Split.1 then
      some (.split ⟨LHS.insertSide fullDelta SubSplit SubRHS, Split, RHS⟩)
    else some (.split ⟨LHS, Split, RHS.insertSide fullDelta SubSplit SubRHS⟩)

/-- What a node does with the result of the insertion into its child. -/
def store (fullDelta : α → Int) (n : DeltaTreeInteriorNode α) (i : Nat) :
    Inserted α → Option (Inserted (DeltaTreeInteriorNode α))
  | .done child => some (.done { n with Children := n.Children.set i child })
  | .split InsertRes => n.percolate fullDelta i InsertRes

/-- `DoInsertion`, over the operation on the children. -/
def DoInsertion (fullDelta : α → Int) (insertChild : α → Nat → Int → Option (Inserted α))
    (n : DeltaTreeInteriorNode α) (FileIndex : Nat) (Delta : Int) :
    Option (Inserted (DeltaTreeInteriorNode α)) :=
  let n := { n with FullDelta := n.FullDelta + Delta }
  let i := insertionPoint FileIndex n.Values
  match mergeAt i FileIndex Delta n.Values with
  | some Values => some (.done { n with Values := Values })
  | none => do
      let child ← n.Children[i]?
      let res ← insertChild child FileIndex Delta
      n.store fullDelta i res

/-- One turn of the loop of `getDeltaAt`, over the turns at the children. -/
def getDeltaAt (fullDelta : α → Int) (getChildDelta : α → Nat → Int → Option Int)
    (Node : DeltaTreeInteriorNode α) (FileIndex : Nat) (Result : Int) : Option Int :=
  let NumValsGreater := insertionPoint FileIndex Node.Values
  let Result := Result + total (Node.Values.take NumValsGreater)
  let Result := Result + ((Node.Children.take NumValsGreater).map fullDelta).sum
  if Node.Values[NumValsGreater]?.map Prod.fst = some FileIndex then do
    let child ← Node.Children[NumValsGreater]?
    some (Result + fullDelta child)
  else do
    let child ← Node.Children[NumValsGreater]?
    getChildDelta child FileIndex Result

end DeltaTreeInteriorNode

/-- The deltas of children, each behind its value. -/
def entriesAfter : List SourceDelta → List (List SourceDelta) → List SourceDelta
  | v :: vs, c :: cs => v :: (c ++ entriesAfter vs cs)
  | _, _ => []

/-- The deltas of children, each in front of its value. -/
def entriesBefore : List (List SourceDelta) → List SourceDelta → List SourceDelta
  | c :: cs, v :: vs => c ++ v :: entriesBefore cs vs
  | _, _ => []

/-- The deltas of children with the values between them. -/
def weave : List (List SourceDelta) → List SourceDelta → List SourceDelta
  | c :: cs, vs => c ++ entriesAfter vs cs
  | [], _ => []

section Weave

variable {vs₁ vs₂ : List SourceDelta} {v : SourceDelta} {cs₁ cs₂ : List (List SourceDelta)}
  {c : List SourceDelta}

theorem weave_at (h : cs₁.length = vs₁.length) :
    weave (cs₁ ++ c :: cs₂) (vs₁ ++ vs₂) =
      entriesBefore cs₁ vs₁ ++ (c ++ entriesAfter vs₂ cs₂) := by
  induction cs₁ generalizing vs₁ with
  | nil =>
    obtain rfl := eq_nil_of_length_eq_zero h.symm
    rfl
  | cons c₁ cs₁ ih =>
    cases vs₁ with
    | nil => exact absurd h (Nat.succ_ne_zero _)
    | cons v₁ vs₁ =>
      have htail := ih (Nat.succ.inj h)
      rw [entriesBefore, append_assoc]
      show c₁ ++ entriesAfter (v₁ :: (vs₁ ++ vs₂)) (cs₁ ++ c :: cs₂) =
        c₁ ++ v₁ :: (entriesBefore cs₁ vs₁ ++ (c ++ entriesAfter vs₂ cs₂))
      rw [← htail]
      cases cs₁ <;> rfl

theorem entriesAfter_append (h : vs₁.length = cs₁.length) :
    entriesAfter (vs₁ ++ vs₂) (cs₁ ++ cs₂) = entriesAfter vs₁ cs₁ ++ entriesAfter vs₂ cs₂ := by
  induction vs₁ generalizing cs₁ with
  | nil =>
    obtain rfl := eq_nil_of_length_eq_zero h.symm
    rfl
  | cons v₁ vs₁ ih =>
    cases cs₁ with
    | nil => exact absurd h (Nat.succ_ne_zero _)
    | cons c₁ cs₁ =>
      have htail := ih (Nat.succ.inj h)
      rw [cons_append, cons_append, entriesAfter, entriesAfter, htail, cons_append, append_assoc]

theorem weave_append (h : cs₁.length = vs₁.length + 1) (hne : cs₂ ≠ []) :
    weave (cs₁ ++ cs₂) (vs₁ ++ v :: vs₂) = weave cs₁ vs₁ ++ v :: weave cs₂ vs₂ := by
  obtain ⟨c₁, cs₁, rfl⟩ := exists_cons_of_length_eq_add_one h
  obtain ⟨c₂, cs₂, rfl⟩ := exists_cons_of_ne_nil hne
  rw [cons_append, weave, weave, entriesAfter_append (Nat.succ.inj h).symm, entriesAfter,
    append_assoc]
  rfl

theorem sublist_before (h : cs₁.length = vs₁.length) : vs₁.Sublist (entriesBefore cs₁ vs₁) := by
  induction vs₁ generalizing cs₁ with
  | nil => exact nil_sublist _
  | cons v₁ vs₁ ih =>
    obtain ⟨c₁, cs₁, rfl⟩ := exists_cons_of_length_eq_add_one h
    exact ((ih (Nat.succ.inj h)).cons_cons v₁).trans (sublist_append_right ..)

theorem sublist_after (h : vs₁.length = cs₁.length) : vs₁.Sublist (entriesAfter vs₁ cs₁) := by
  induction vs₁ generalizing cs₁ with
  | nil => exact nil_sublist _
  | cons v₁ vs₁ ih =>
    obtain ⟨c₁, cs₁, rfl⟩ := exists_cons_of_length_eq_add_one h.symm
    exact ((ih (Nat.succ.inj h)).trans (sublist_append_right ..)).cons_cons v₁

theorem sublist_weave (h : cs₁.length = vs₁.length + 1) : vs₁.Sublist (weave cs₁ vs₁) := by
  obtain ⟨c₁, cs₁, rfl⟩ := exists_cons_of_length_eq_add_one h
  exact (sublist_after (Nat.succ.inj h).symm).trans (sublist_append_right ..)

theorem before_lt {FileIndex : Nat} (hsorted : Sorted (entriesBefore cs₁ vs₁))
    (hlt : ∀ v ∈ vs₁, v.1 < FileIndex) : ∀ e ∈ entriesBefore cs₁ vs₁, e.1 < FileIndex := by
  induction cs₁ generalizing vs₁ with
  | nil => exact fun e he => absurd he not_mem_nil
  | cons c₁ cs₁ ih =>
    cases vs₁ with
    | nil => exact fun e he => absurd he not_mem_nil
    | cons v₁ vs₁ =>
      have hv₁ := hlt v₁ (mem_cons_self ..)
      obtain ⟨-, htail, hbelow⟩ := hsorted.append
      intro e he
      rcases mem_append.mp he with he | he
      · exact (hbelow e he v₁ (mem_cons_self ..)).trans hv₁
      · rcases mem_cons.mp he with rfl | he
        · exact hv₁
        · exact ih (pairwise_cons.mp htail).2
            (fun v hv => hlt v (mem_cons_of_mem _ hv)) e he

theorem after_ge {bound : Nat} (hsorted : Sorted (entriesAfter vs₁ cs₁))
    (hle : ∀ v ∈ vs₁, bound ≤ v.1) : ∀ e ∈ entriesAfter vs₁ cs₁, bound ≤ e.1 := by
  cases vs₁ with
  | nil =>
    intro e he
    rw [entriesAfter] at he
    · exact absurd he not_mem_nil
    · exact fun v vs c cs h => absurd h (by simp)
  | cons v₁ vs₁ =>
    cases cs₁ with
    | nil => exact fun e he => absurd he not_mem_nil
    | cons c₁ cs₁ =>
      have hv₁ := hle v₁ (mem_cons_self ..)
      obtain ⟨habove, -⟩ := pairwise_cons.mp hsorted
      intro e he
      rcases mem_cons.mp he with rfl | he
      · exact hv₁
      · exact hv₁.trans (Nat.le_of_lt (habove e he))

theorem after_gt {FileIndex : Nat} (hsorted : Sorted (entriesAfter vs₁ cs₁))
    (hgt : ∀ v ∈ vs₁, FileIndex < v.1) : ∀ e ∈ entriesAfter vs₁ cs₁, FileIndex < e.1 :=
  after_ge hsorted hgt

theorem total_weave {vs : List SourceDelta} {cs : List (List SourceDelta)}
    (h : cs.length = vs.length + 1) : total (weave cs vs) = total vs + (cs.map total).sum := by
  obtain ⟨c, cs, rfl⟩ := exists_cons_of_length_eq_add_one h
  rw [weave, total_append, map_cons, sum_cons]
  have hlength := Nat.succ.inj h
  clear h
  induction vs generalizing cs with
  | nil =>
    obtain rfl := eq_nil_of_length_eq_zero hlength
    rw [entriesAfter, total_nil, map_nil, sum_nil, zero_add, add_zero]
    exact fun _ _ _ _ h => absurd h (by simp)
  | cons v vs ih =>
    cases cs with
    | nil => exact absurd hlength (Nat.succ_ne_zero _).symm
    | cons c' cs =>
      have htail := ih cs (Nat.succ.inj hlength)
      rw [entriesAfter, total_cons, total_append, total_cons, map_cons, sum_cons]
      omega

end Weave

namespace DeltaTreeInteriorNode

variable {α : Type} (good : α → Prop) (entries : α → List SourceDelta) (fullDelta : α → Int)

/-- The deltas below an interior node, in order. -/
def allEntries (n : DeltaTreeInteriorNode α) : List SourceDelta :=
  weave (n.Children.map entries) n.Values

/-- The invariant of an interior node, over the one of its children. -/
structure WF (n : DeltaTreeInteriorNode α) : Prop where
  full : n.FullDelta = total (n.allEntries entries)
  values : n.Values.length ≤ MaxValues
  children : n.Children.length = n.Values.length + 1
  good : ∀ c ∈ n.Children, good c

variable {good entries fullDelta} {n : DeltaTreeInteriorNode α}

theorem ofChildren_wf (hfull : ∀ c, good c → fullDelta c = total (entries c))
    {Values : List SourceDelta} {Children : List α} (hvalues : Values.length ≤ MaxValues)
    (hchildren : Children.length = Values.length + 1) (hgood : ∀ c ∈ Children, good c) :
    (ofChildren fullDelta Values Children).WF good entries where
  full := by
    show total Values + (Children.map fullDelta).sum = total (weave (Children.map entries) Values)
    have hsums : Children.map fullDelta = (Children.map entries).map total := by
      rw [map_map]
      exact map_congr_left fun c hc => hfull c (hgood c hc)
    rw [total_weave (by rw [length_map]; exact hchildren), hsums]
  values := hvalues
  children := hchildren
  good := hgood

variable {vs₁ vs₂ : List SourceDelta} {cs₁ cs₂ : List α} {Split : SourceDelta}

theorem allEntries_at {c : α} {FullDelta : Int}
    (h : cs₁.length = vs₁.length) :
    (DeltaTreeInteriorNode.mk (vs₁ ++ vs₂) FullDelta (cs₁ ++ c :: cs₂)).allEntries entries =
      entriesBefore (cs₁.map entries) vs₁ ++ (entries c ++ entriesAfter vs₂ (cs₂.map entries)) := by
  rw [allEntries, map_append, map_cons, weave_at (by rw [length_map]; exact h)]

theorem DoSplit_spec (hfull : ∀ c, good c → fullDelta c = total (entries c))
    (hvalues : n.Values.length = MaxValues) (hchildren : n.Children.length = n.Values.length + 1)
    (hgood : ∀ c ∈ n.Children, good c) :
    ∃ LHS Split RHS, n.DoSplit fullDelta = some ⟨LHS, Split, RHS⟩ ∧
      LHS.WF good entries ∧ RHS.WF good entries ∧
      LHS.Values.length < MaxValues ∧ RHS.Values.length < MaxValues ∧
      n.Values = LHS.Values ++ Split :: RHS.Values ∧ n.Children = LHS.Children ++ RHS.Children := by
  have hmedian : 7 < n.Values.length := by
    rw [hvalues, MaxValues]
    omega
  have hleft : (n.Values.take 7).length < MaxValues := by
    rw [length_take, hvalues, MaxValues]
    omega
  have hright : (n.Values.drop 8).length < MaxValues := by
    rw [length_drop, hvalues, MaxValues]
    omega
  have hleftChildren : (n.Children.take 8).length = (n.Values.take 7).length + 1 := by
    rw [length_take, length_take, hchildren, hvalues, MaxValues]
    omega
  have hrightChildren : (n.Children.drop 8).length = (n.Values.drop 8).length + 1 := by
    rw [length_drop, length_drop, hchildren, hvalues, MaxValues]
  refine ⟨ofChildren fullDelta (n.Values.take 7) (n.Children.take 8), n.Values[7],
    ofChildren fullDelta (n.Values.drop 8) (n.Children.drop 8), ?_,
    ofChildren_wf hfull (Nat.le_of_lt hleft) hleftChildren
      fun c hc => hgood c (mem_of_mem_take hc),
    ofChildren_wf hfull (Nat.le_of_lt hright) hrightChildren
      fun c hc => hgood c (mem_of_mem_drop hc),
    hleft, hright, ?_, ?_⟩
  · unfold DoSplit
    rw [if_pos hvalues, getElem?_eq_getElem hmedian]
    rfl
  · show n.Values = n.Values.take 7 ++ n.Values[7] :: n.Values.drop 8
    rw [← drop_eq_getElem_cons hmedian, take_append_drop]
  · exact (take_append_drop 8 n.Children).symm

theorem insertSplit_eq {LHS : α}
    (Split : SourceDelta) (RHS : α) (FullDelta : Int) (h : cs₁.length = vs₁.length) :
    (⟨vs₁ ++ vs₂, FullDelta, cs₁ ++ LHS :: cs₂⟩ : DeltaTreeInteriorNode α).insertSplit vs₁.length
        Split RHS =
      ⟨vs₁ ++ Split :: vs₂, FullDelta, cs₁ ++ LHS :: RHS :: cs₂⟩ := by
  have hlength : vs₁.length + 1 = (cs₁ ++ [LHS]).length := by
    rw [length_append, h]
    rfl
  have hchildren :
      insertAt (vs₁.length + 1) RHS (cs₁ ++ LHS :: cs₂) = cs₁ ++ LHS :: RHS :: cs₂ := by
    rw [hlength, append_cons cs₁ LHS cs₂, insertAt_append, append_assoc]
    rfl
  unfold insertSplit
  rw [insertAt_append, hchildren]

theorem wf_split {c LHS RHS : α}
    {FullDelta : Int}
    (hspace : (vs₁ ++ vs₂).length < MaxValues)
    (hchildren : (cs₁ ++ c :: cs₂).length = (vs₁ ++ vs₂).length + 1)
    (hgood : ∀ d ∈ cs₁ ++ c :: cs₂, good d) (hLHS : good LHS) (hRHS : good RHS)
    (hfull : FullDelta =
      total (weave ((cs₁ ++ LHS :: RHS :: cs₂).map entries) (vs₁ ++ Split :: vs₂))) :
    (DeltaTreeInteriorNode.mk (vs₁ ++ Split :: vs₂) FullDelta (cs₁ ++ LHS :: RHS :: cs₂)).WF
      good entries := by
  refine ⟨hfull, ?_, ?_, ?_⟩
  · rw [length_append] at hspace ⊢
    rw [length_cons]
    omega
  · rw [length_append, length_append, length_cons] at hchildren
    rw [length_append, length_append, length_cons, length_cons, length_cons]
    omega
  · intro d hd
    rcases mem_append.mp hd with hd | hd
    · exact hgood d (mem_append_left _ hd)
    · rcases mem_cons.mp hd with rfl | hd
      · exact hLHS
      · rcases mem_cons.mp hd with rfl | hd
        · exact hRHS
        · exact hgood d (mem_append_right _ (mem_cons_of_mem _ hd))

theorem weave_split {LHS RHS : α}
    (h : cs₁.length = vs₁.length) :
    weave ((cs₁ ++ LHS :: RHS :: cs₂).map entries) (vs₁ ++ Split :: vs₂) =
      entriesBefore (cs₁.map entries) vs₁ ++
        ((entries LHS ++ Split :: entries RHS) ++ entriesAfter vs₂ (cs₂.map entries)) := by
  rw [map_append, map_cons, weave_at (by rw [length_map]; exact h), map_cons,
    entriesAfter, append_assoc, cons_append]

theorem insertSide_spec (hfull : ∀ c, good c → fullDelta c = total (entries c))
    {LHS RHS : α}
    {FullDelta : Int} (h : cs₁.length = vs₁.length)
    (hwf : (DeltaTreeInteriorNode.mk (vs₁ ++ vs₂) FullDelta (cs₁ ++ LHS :: cs₂)).WF good entries)
    (hspace : (vs₁ ++ vs₂).length < MaxValues) (hRHS : good RHS)
    (hlt : ∀ v ∈ vs₁, v.1 < Split.1) (hgt : ∀ v ∈ vs₂, Split.1 < v.1) :
    ((DeltaTreeInteriorNode.mk (vs₁ ++ vs₂) FullDelta (cs₁ ++ LHS :: cs₂)).insertSide fullDelta
        Split RHS).WF good entries ∧
      ((DeltaTreeInteriorNode.mk (vs₁ ++ vs₂) FullDelta (cs₁ ++ LHS :: cs₂)).insertSide fullDelta
        Split RHS).allEntries entries =
          weave ((cs₁ ++ LHS :: RHS :: cs₂).map entries) (vs₁ ++ Split :: vs₂) := by
  have hpoint : insertionPoint Split.1 (vs₁ ++ vs₂) = vs₁.length :=
    insertionPoint_append hlt fun v hv => Nat.le_of_lt (hgt v hv)
  have hsum : FullDelta = _ := hwf.full
  rw [allEntries_at h, total_append, total_append] at hsum
  unfold insertSide
  dsimp only
  rw [hpoint, insertSplit_eq Split RHS FullDelta h]
  refine ⟨wf_split hspace hwf.children hwf.good
    (hwf.good LHS (mem_append_right _ (mem_cons_self ..))) hRHS ?_, rfl⟩
  dsimp only
  rw [hsum, weave_split h, total_append, total_append, total_append, total_cons, hfull RHS hRHS]
  omega

theorem percolate_spec (hfull : ∀ c, good c → fullDelta c = total (entries c))
    {c LHS RHS : α}
    {FullDelta : Int} (h : cs₁.length = vs₁.length)
    (hvalues : (vs₁ ++ vs₂).length ≤ MaxValues)
    (hchildren : (cs₁ ++ c :: cs₂).length = (vs₁ ++ vs₂).length + 1)
    (hgood : ∀ d ∈ cs₁ ++ c :: cs₂, good d) (hLHS : good LHS) (hRHS : good RHS)
    {es : List SourceDelta} (hsum : FullDelta = total es)
    (hes : weave ((cs₁ ++ LHS :: RHS :: cs₂).map entries) (vs₁ ++ Split :: vs₂) = es)
    (hlt : ∀ v ∈ vs₁, v.1 < Split.1) (hgt : ∀ v ∈ vs₂, Split.1 < v.1) :
    ∃ r, (DeltaTreeInteriorNode.mk (vs₁ ++ vs₂) FullDelta (cs₁ ++ c :: cs₂)).percolate fullDelta
        vs₁.length ⟨LHS, Split, RHS⟩ = some r ∧
      r.Holds (WF good entries) (allEntries entries) es := by
  have hset : (cs₁ ++ c :: cs₂).set vs₁.length LHS = cs₁ ++ LHS :: cs₂ := by
    rw [set_append_right _ _ (Nat.le_of_eq h), h, Nat.sub_self]
    rfl
  have hchildren' : (cs₁ ++ LHS :: cs₂).length = (vs₁ ++ vs₂).length + 1 := by
    rw [length_append, length_cons] at hchildren ⊢
    exact hchildren
  have hgood' : ∀ d ∈ cs₁ ++ LHS :: cs₂, good d := by
    intro d hd
    rcases mem_append.mp hd with hd | hd
    · exact hgood d (mem_append_left _ hd)
    · rcases mem_cons.mp hd with rfl | hd
      · exact hLHS
      · exact hgood d (mem_append_right _ (mem_cons_of_mem _ hd))
  unfold percolate
  dsimp only
  rw [hset]
  by_cases hspace : (vs₁ ++ vs₂).length ≠ MaxValues
  · rw [if_pos hspace, insertSplit_eq Split RHS FullDelta h]
    refine ⟨_, rfl, wf_split (by omega) hchildren' hgood' hLHS hRHS ?_, hes⟩
    rw [hes]
    exact hsum
  · rw [if_neg hspace]
    obtain ⟨L, S, R, hsplit, hL, hR, hlenL, hlenR, hsplitValues, hsplitChildren⟩ :=
      DoSplit_spec (n := ⟨vs₁ ++ vs₂, FullDelta, cs₁ ++ LHS :: cs₂⟩) hfull (not_not.mp hspace)
        hchildren' hgood'
    obtain ⟨LValues, LFull, LChildren⟩ := L
    obtain ⟨RValues, RFull, RChildren⟩ := R
    have hlenChildrenL : LChildren.length = LValues.length + 1 := hL.children
    have hlenChildrenR : RChildren.length = RValues.length + 1 := hR.children
    have hneR : RChildren.map entries ≠ [] := by
      rw [Ne, map_eq_nil_iff]
      exact ne_nil_of_length_eq_add_one hlenChildrenR
    rw [hsplit]
    dsimp only at hsplitValues hsplitChildren hlenL hlenR
    show ∃ r, (if Split.1 < S.1 then some _ else some _) = some r ∧ _
    by_cases hleft : vs₁.length ≤ LValues.length
    · obtain ⟨vs₃, rfl, rfl⟩ := exists_of_append_eq_append hsplitValues hleft
      obtain ⟨cs₃, hcs₃, rfl⟩ := exists_of_append_eq_append
        (show (cs₁ ++ [LHS]) ++ cs₂ = LChildren ++ RChildren by rw [← hsplitChildren]; simp)
        (by rw [length_append, length_singleton, h, hlenChildrenL]; omega)
      rw [append_assoc, singleton_append] at hcs₃
      subst hcs₃
      rw [if_pos (hgt S (by simp))]
      obtain ⟨hwf, hentries⟩ := insertSide_spec hfull h hL hlenL hRHS hlt
        fun v hv => hgt v (mem_append_left _ hv)
      refine ⟨_, rfl, hwf, hR, ?_⟩
      have hlength : ((cs₁ ++ LHS :: RHS :: cs₃).map entries).length =
          (vs₁ ++ Split :: vs₃).length + 1 := by
        rw [length_append, length_append, length_cons] at hlenChildrenL
        rw [length_map, length_append, length_append, length_cons, length_cons, length_cons]
        omega
      have hweave := @weave_append (vs₁ ++ Split :: vs₃) RValues S _ _ hlength hneR
      rw [← map_append, append_assoc, append_assoc] at hweave
      rw [hentries, ← hes]
      exact hweave.symm
    · obtain ⟨vs₃, rfl, hvs₃⟩ := exists_of_append_eq_append
        (show (LValues ++ [S]) ++ RValues = vs₁ ++ vs₂ by rw [hsplitValues]; simp)
        (by rw [length_append, length_singleton]; omega)
      obtain ⟨cs₃, rfl, hcs₃⟩ := exists_of_append_eq_append hsplitChildren.symm
        (by rw [hlenChildrenL, h]; omega)
      subst hvs₃ hcs₃
      have hlen₃ : cs₃.length = vs₃.length := by
        rw [length_append, length_append, length_append, length_singleton, hlenChildrenL] at h
        omega
      rw [if_neg (Nat.lt_asymm (hlt S (by simp)))]
      obtain ⟨hwf, hentries⟩ := insertSide_spec hfull hlen₃ hR hlenR hRHS
        (fun v hv => hlt v (mem_append_right _ hv)) hgt
      refine ⟨_, rfl, hL, hwf, ?_⟩
      have hlength : (LChildren.map entries).length = LValues.length + 1 := by
        rw [length_map]
        exact hlenChildrenL
      have hweave := @weave_append LValues (vs₃ ++ Split :: vs₂) S _
        ((cs₃ ++ LHS :: RHS :: cs₂).map entries) hlength (by simp)
      rw [← map_append, ← append_assoc] at hweave
      rw [hentries, ← hes, append_assoc LValues, append_assoc LValues]
      exact hweave.symm

theorem WF.cut (h : n.WF good entries)
    (hvalues : n.Values = vs₁ ++ vs₂) :
    ∃ cs₁ c cs₂, n.Children = cs₁ ++ c :: cs₂ ∧ cs₁.length = vs₁.length ∧
      n.Children[vs₁.length]? = some c ∧ good c ∧
      n.allEntries entries = entriesBefore (cs₁.map entries) vs₁ ++
        (entries c ++ entriesAfter vs₂ (cs₂.map entries)) := by
  have hlength := h.children
  rw [hvalues, length_append] at hlength
  have hlt : vs₁.length < n.Children.length := by omega
  have hcut : n.Children =
      n.Children.take vs₁.length ++ n.Children[vs₁.length] :: n.Children.drop (vs₁.length + 1) := by
    rw [← drop_eq_getElem_cons hlt, take_append_drop]
  have htake : (n.Children.take vs₁.length).length = vs₁.length := by
    rw [length_take]
    omega
  refine ⟨_, _, _, hcut, htake, getElem?_eq_getElem hlt, h.good _ (getElem_mem hlt), ?_⟩
  have hnode : n = ⟨vs₁ ++ vs₂, n.FullDelta, n.Children.take vs₁.length ++
      n.Children[vs₁.length] :: n.Children.drop (vs₁.length + 1)⟩ := by
    rw [← hcut, ← hvalues]
  exact (congrArg (allEntries entries) hnode).trans (allEntries_at htake)

section Cut

variable {vs₁ vs₂ : List SourceDelta} {cs₁ cs₂ : List α} {c : α} {FullDelta : Int}

theorem wf_merge {v w : SourceDelta} (h : cs₁.length = vs₁.length)
    (hvalues : (vs₁ ++ v :: vs₂).length ≤ MaxValues)
    (hchildren : (cs₁ ++ c :: cs₂).length = (vs₁ ++ v :: vs₂).length + 1)
    (hgood : ∀ d ∈ cs₁ ++ c :: cs₂, good d)
    (hfull : FullDelta = total (entriesBefore (cs₁.map entries) vs₁ ++
      (entries c ++ entriesAfter (w :: vs₂) (cs₂.map entries)))) :
    (DeltaTreeInteriorNode.mk (vs₁ ++ w :: vs₂) FullDelta (cs₁ ++ c :: cs₂)).WF good entries := by
  refine ⟨?_, ?_, ?_, hgood⟩
  · rw [allEntries_at h]
    exact hfull
  · rw [length_append, length_cons] at hvalues ⊢
    exact hvalues
  · rw [hchildren, length_append, length_append, length_cons, length_cons]

theorem store_spec (hfull : ∀ c, good c → fullDelta c = total (entries c))
    (h : cs₁.length = vs₁.length) (hvalues : (vs₁ ++ vs₂).length ≤ MaxValues)
    (hchildren : (cs₁ ++ c :: cs₂).length = (vs₁ ++ vs₂).length + 1)
    (hgood : ∀ d ∈ cs₁ ++ c :: cs₂, good d) {r : Inserted α} {ds es : List SourceDelta}
    (hr : r.Holds good entries ds)
    (hes : es = entriesBefore (cs₁.map entries) vs₁ ++ (ds ++ entriesAfter vs₂ (cs₂.map entries)))
    (hsum : FullDelta = total es) (hsorted : Sorted es) :
    ∃ r', (DeltaTreeInteriorNode.mk (vs₁ ++ vs₂) FullDelta (cs₁ ++ c :: cs₂)).store fullDelta
        vs₁.length r = some r' ∧
      r'.Holds (WF good entries) (allEntries entries) es := by
  have hlength : vs₂.length = cs₂.length := by
    rw [length_append, length_append, length_cons] at hchildren
    omega
  cases r with
  | done child =>
    obtain ⟨hgoodChild, rfl⟩ := hr
    have hset : (cs₁ ++ c :: cs₂).set vs₁.length child = cs₁ ++ child :: cs₂ := by
      rw [set_append_right _ _ (Nat.le_of_eq h), h, Nat.sub_self]
      rfl
    unfold store
    dsimp only
    rw [hset]
    refine ⟨_, rfl, ⟨?_, hvalues, ?_, ?_⟩, (allEntries_at h).trans hes.symm⟩
    · rw [allEntries_at h, ← hes]
      exact hsum
    · rw [← hchildren, length_append, length_append, length_cons, length_cons]
    · intro d hd
      rcases mem_append.mp hd with hd | hd
      · exact hgood d (mem_append_left _ hd)
      · rcases mem_cons.mp hd with rfl | hd
        · exact hgoodChild
        · exact hgood d (mem_append_right _ (mem_cons_of_mem _ hd))
  | split res =>
    obtain ⟨LHS, Split, RHS⟩ := res
    obtain ⟨hLHS, hRHS, hentries⟩ := hr
    subst hentries
    have hparts := hsorted
    rw [hes] at hparts
    obtain ⟨-, hrest, hbelow⟩ := hparts.append
    obtain ⟨-, -, habove⟩ := hrest.append
    refine percolate_spec hfull h hvalues hchildren hgood hLHS hRHS hsum
      ((weave_split h).trans hes.symm) (fun v hv => ?_) (fun v hv => ?_)
    · have hmem : v ∈ entriesBefore (cs₁.map entries) vs₁ :=
        (sublist_before (by rw [length_map]; exact h)).subset hv
      exact hbelow v hmem Split (by simp)
    · have hmem : v ∈ entriesAfter vs₂ (cs₂.map entries) :=
        (sublist_after (by rw [length_map]; exact hlength)).subset hv
      exact habove Split (by simp) v hmem

end Cut

theorem DoInsertion_spec (hfull : ∀ c, good c → fullDelta c = total (entries c))
    {insertChild : α → Nat → Int → Option (Inserted α)} {FileIndex : Nat} {Delta : Int}
    (hchild : ∀ c, good c → Sorted (entries c) → ∃ r, insertChild c FileIndex Delta = some r ∧
      r.Holds good entries (addAt FileIndex Delta (entries c)))
    (h : n.WF good entries) (hsorted : Sorted (n.allEntries entries)) :
    ∃ r, n.DoInsertion fullDelta insertChild FileIndex Delta = some r ∧
      r.Holds (WF good entries) (allEntries entries)
        (addAt FileIndex Delta (n.allEntries entries)) := by
  have hsortedValues : Sorted n.Values :=
    Pairwise.sublist (sublist_weave (by rw [length_map]; exact h.children)) hsorted
  obtain ⟨vs₁, vs₂, hvalues, hpoint, hlt, hrest⟩ := insertionPoint_spec FileIndex hsortedValues
  obtain ⟨cs₁, c, cs₂, hchildren, hlength, hget, hc, hentries⟩ := h.cut hvalues
  obtain ⟨hmerge, hinsert⟩ := @mergeAt_spec FileIndex Delta vs₁ vs₂ hlt
  have hlengths := h.children
  have hmax := h.values
  have hgood := h.good
  have hsum : n.FullDelta + Delta = total (addAt FileIndex Delta (n.allEntries entries)) := by
    rw [total_addAt, h.full]
  have hsorted' : Sorted (addAt FileIndex Delta (n.allEntries entries)) := hsorted.addAt
  rw [hentries] at hsorted hsum hsorted' ⊢
  rw [hvalues] at hlengths hmax
  rw [hchildren] at hlengths hgood
  obtain ⟨hsortedBefore, hsortedRest, -⟩ := hsorted.append
  obtain ⟨hsortedChild, hsortedAfter, hchildLt⟩ := hsortedRest.append
  have hbefore := before_lt hsortedBefore hlt
  unfold DoInsertion
  dsimp only
  rw [hpoint, hvalues]
  rcases hrest with ⟨v, vs₃, rfl, heq, -⟩ | hgt
  · have hlength' : cs₂.length = vs₃.length + 1 := by
      rw [length_append, length_append, length_cons, length_cons] at hlengths
      omega
    obtain ⟨c', cs₃, rfl⟩ := exists_cons_of_length_eq_add_one hlength'
    have hvaluesNew : addAt FileIndex Delta (vs₁ ++ v :: vs₃) =
        vs₁ ++ (v.1, v.2 + Delta) :: vs₃ := by
      rw [addAt_append_left hlt, addAt_of_eq heq]
    have hentriesNew : addAt FileIndex Delta (entriesBefore (cs₁.map entries) vs₁ ++
        (entries c ++ entriesAfter (v :: vs₃) ((c' :: cs₃).map entries))) =
          entriesBefore (cs₁.map entries) vs₁ ++
            (entries c ++ entriesAfter ((v.1, v.2 + Delta) :: vs₃) ((c' :: cs₃).map entries)) := by
      rw [addAt_append_left hbefore, addAt_append_left]
      · rw [map_cons, entriesAfter, entriesAfter, addAt_of_eq heq]
      · exact fun e he => heq ▸ hchildLt e he v (mem_cons_self ..)
    rw [hmerge v vs₃ rfl heq, hvaluesNew, hchildren]
    rw [hentriesNew] at hsum ⊢
    exact ⟨_, rfl, wf_merge hlength hmax hlengths hgood hsum, allEntries_at hlength⟩
  · obtain ⟨hnone, -⟩ := hinsert hgt
    obtain ⟨r, hresult, hholds⟩ := hchild c hc hsortedChild
    have hentriesNew : addAt FileIndex Delta (entriesBefore (cs₁.map entries) vs₁ ++
        (entries c ++ entriesAfter vs₂ (cs₂.map entries))) = entriesBefore (cs₁.map entries) vs₁ ++
            (addAt FileIndex Delta (entries c) ++ entriesAfter vs₂ (cs₂.map entries)) := by
      rw [addAt_append_left hbefore, addAt_append_right (after_gt hsortedAfter hgt)]
    obtain ⟨r', hstore, hholds'⟩ :=
      store_spec hfull hlength hmax hlengths hgood hholds hentriesNew hsum hsorted'
    rw [hnone]
    rw [hget]
    show ∃ r', (insertChild c FileIndex Delta).bind _ = some r' ∧ _
    rw [hresult, hchildren]
    exact ⟨r', hstore, hholds'⟩

theorem total_entriesBefore {cs : List (List SourceDelta)} {vs : List SourceDelta}
    (h : cs.length = vs.length) : total (entriesBefore cs vs) = total vs + (cs.map total).sum := by
  induction vs generalizing cs with
  | nil =>
    obtain rfl := eq_nil_of_length_eq_zero h
    rfl
  | cons v vs ih =>
    obtain ⟨c, cs, rfl⟩ := exists_cons_of_length_eq_add_one h
    have htail := ih (Nat.succ.inj h)
    rw [entriesBefore, total_append, total_cons, total_cons, map_cons, sum_cons]
    omega

theorem getDeltaAt_spec (hfull : ∀ c, good c → fullDelta c = total (entries c))
    {getChildDelta : α → Nat → Int → Option Int} {FileIndex : Nat}
    (hchild : ∀ c, good c → Sorted (entries c) → ∀ Result, getChildDelta c FileIndex Result =
      some (Result + sumBelow FileIndex (entries c)))
    (h : n.WF good entries) (hsorted : Sorted (n.allEntries entries)) (Result : Int) :
    n.getDeltaAt fullDelta getChildDelta FileIndex Result =
      some (Result + sumBelow FileIndex (n.allEntries entries)) := by
  have hsortedValues : Sorted n.Values :=
    Pairwise.sublist (sublist_weave (by rw [length_map]; exact h.children)) hsorted
  obtain ⟨vs₁, vs₂, hvalues, hpoint, hlt, hrest⟩ := insertionPoint_spec FileIndex hsortedValues
  obtain ⟨cs₁, c, cs₂, hchildren, hlength, hget, hc, hentries⟩ := h.cut hvalues
  have hgood := h.good
  rw [hchildren] at hgood
  rw [hentries] at hsorted ⊢
  obtain ⟨hsortedBefore, hsortedRest, -⟩ := hsorted.append
  obtain ⟨hsortedChild, hsortedAfter, hchildLt⟩ := hsortedRest.append
  have hbefore := before_lt hsortedBefore hlt
  have htake : n.Values.take vs₁.length = vs₁ := by rw [hvalues, take_left]
  have htakeChildren : n.Children.take vs₁.length = cs₁ := by
    rw [hchildren, ← hlength, take_left]
  have hsums : cs₁.map fullDelta = (cs₁.map entries).map total := by
    rw [map_map]
    exact map_congr_left fun d hd => hfull d (hgood d (mem_append_left _ hd))
  have htotal : total vs₁ + (cs₁.map fullDelta).sum =
      total (entriesBefore (cs₁.map entries) vs₁) := by
    rw [total_entriesBefore (by rw [length_map]; exact hlength), hsums]
  have hhead : n.Values[vs₁.length]? = vs₂.head? := by
    rw [hvalues, getElem?_append_right (Nat.le_refl _), Nat.sub_self, head?_eq_getElem?]
  unfold getDeltaAt
  dsimp only
  rw [hpoint, htake, htakeChildren, hhead, hget]
  rw [sumBelow_append, sumBelow_of_lt hbefore, ← htotal, sumBelow_append]
  rcases hrest with ⟨v, vs₃, rfl, heq, hgt⟩ | hgt
  · have hchildBelow : ∀ e ∈ entries c, e.1 < FileIndex := by
      have hlength' : 0 < cs₂.length := by
        have hlengths := h.children
        rw [hvalues, hchildren, length_append, length_append, length_cons, length_cons] at hlengths
        omega
      obtain ⟨c', cs₃, rfl⟩ := exists_cons_of_length_pos hlength'
      exact fun e he => heq ▸ hchildLt e he v (mem_cons_self ..)
    have hafter : ∀ e ∈ entriesAfter (v :: vs₃) (cs₂.map entries), FileIndex ≤ e.1 := by
      refine after_ge hsortedAfter fun w hw => ?_
      rcases mem_cons.mp hw with rfl | hw
      · exact Nat.le_of_eq heq.symm
      · exact Nat.le_of_lt (hgt w hw)
    have hhere : (v :: vs₃).head?.map Prod.fst = some FileIndex := congrArg some heq
    rw [if_pos hhere, sumBelow_of_lt hchildBelow, sumBelow_of_le hafter]
    show some (Result + total vs₁ + (cs₁.map fullDelta).sum + fullDelta c) = some _
    rw [hfull c hc, add_zero, ← add_assoc, ← add_assoc]
  · have hne : vs₂.head?.map Prod.fst ≠ some FileIndex := by
      cases vs₂ with
      | nil => exact fun habsurd => absurd habsurd (by simp)
      | cons v vs₂ =>
        intro heq
        exact Nat.ne_of_gt (hgt v (mem_cons_self ..)) (Option.some.inj heq)
    rw [if_neg hne, sumBelow_of_le fun e he => Nat.le_of_lt (after_gt hsortedAfter hgt e he)]
    refine (hchild c hc hsortedChild _).trans ?_
    rw [add_zero, ← add_assoc, ← add_assoc]

end DeltaTreeInteriorNode

end Zapcc.Rewrite
