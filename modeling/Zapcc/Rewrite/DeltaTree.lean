import Zapcc.Rewrite.DeltaTreeInteriorNode

/-!
# The tree of deltas

`DeltaTree` is a B-tree of deltas that are keyed by file indices, where each node caches the sum of
the deltas below it. It is the sorted list of its deltas: `AddDelta_spec` says that an addition
never fails and what it makes of that list, and `getDeltaAt_spec` that a lookup sums the deltas
below an index.
-/

namespace Zapcc.Rewrite

open KeyedSums List

def DeltaTreeNode : Nat → Type
  | 0 => DeltaTreeLeaf
  | height + 1 => DeltaTreeInteriorNode (DeltaTreeNode height)

namespace DeltaTreeNode

def getFullDelta : (height : Nat) → DeltaTreeNode height → Int
  | 0, l => DeltaTreeLeaf.FullDelta l
  | _ + 1, n => DeltaTreeInteriorNode.FullDelta n

def DoInsertion : (height : Nat) → DeltaTreeNode height → Nat → Int →
    Option (Inserted (DeltaTreeNode height))
  | 0 => DeltaTreeLeaf.DoInsertion
  | height + 1 => DeltaTreeInteriorNode.DoInsertion (getFullDelta height) (DoInsertion height)

def getDeltaAt : (height : Nat) → DeltaTreeNode height → Nat → Int → Option Int
  | 0, l, FileIndex, Result =>
    let Values := DeltaTreeLeaf.Values l
    some (Result + total (Values.take (insertionPoint FileIndex Values)))
  | height + 1, n, FileIndex, Result =>
    DeltaTreeInteriorNode.getDeltaAt (getFullDelta height) (getDeltaAt height) n FileIndex Result

end DeltaTreeNode

structure DeltaTree where
  height : Nat
  Root : DeltaTreeNode height

namespace DeltaTree

def new : DeltaTree := ⟨0, (⟨[], 0⟩ : DeltaTreeLeaf)⟩

def getDeltaAt (t : DeltaTree) (FileIndex : Nat) : Option Int :=
  DeltaTreeNode.getDeltaAt t.height t.Root FileIndex 0

/-- A new root over the halves of the old one. -/
def newRoot {height : Nat} (IR : InsertResult (DeltaTreeNode height)) :
    DeltaTreeNode (height + 1) :=
  (⟨[IR.Split], DeltaTreeNode.getFullDelta height IR.LHS +
    DeltaTreeNode.getFullDelta height IR.RHS + IR.Split.2, [IR.LHS, IR.RHS]⟩ :
    DeltaTreeInteriorNode (DeltaTreeNode height))

def AddDelta (t : DeltaTree) (FileIndex : Nat) (Delta : Int) : Option DeltaTree :=
  if Delta = 0 then none
  else do
    match ← DeltaTreeNode.DoInsertion t.height t.Root FileIndex Delta with
    | .done n => some ⟨t.height, n⟩
    | .split InsertRes => some ⟨t.height + 1, newRoot InsertRes⟩

end DeltaTree

namespace DeltaTreeNode

/-- The deltas below a node, in order. -/
def entries : (height : Nat) → DeltaTreeNode height → List SourceDelta
  | 0, l => DeltaTreeLeaf.Values l
  | height + 1, n => DeltaTreeInteriorNode.allEntries (entries height) n

/-- The invariant of a node. -/
def WF : (height : Nat) → DeltaTreeNode height → Prop
  | 0, l => DeltaTreeLeaf.WF l
  | height + 1, n => DeltaTreeInteriorNode.WF (WF height) (entries height) n

theorem WF.full {height : Nat} {n : DeltaTreeNode height} (h : WF height n) :
    getFullDelta height n = total (entries height n) := by
  cases height with
  | zero => exact DeltaTreeLeaf.WF.full h
  | succ height => exact DeltaTreeInteriorNode.WF.full h

theorem DoInsertion_spec (FileIndex : Nat) (Delta : Int) (height : Nat) (n : DeltaTreeNode height)
    (h : WF height n) (hsorted : Sorted (entries height n)) :
    ∃ r, DoInsertion height n FileIndex Delta = some r ∧
      r.Holds (WF height) (entries height) (addAt FileIndex Delta (entries height n)) := by
  induction height with
  | zero => exact DeltaTreeLeaf.DoInsertion_spec h hsorted FileIndex Delta
  | succ height ih =>
    exact DeltaTreeInteriorNode.DoInsertion_spec (fun _ hc => hc.full) ih h hsorted

theorem getDeltaAt_spec (FileIndex : Nat) (height : Nat) (n : DeltaTreeNode height)
    (h : WF height n) (hsorted : Sorted (entries height n)) (Result : Int) :
    getDeltaAt height n FileIndex Result =
      some (Result + sumBelow FileIndex (entries height n)) := by
  induction height generalizing Result with
  | zero =>
    obtain ⟨vs₁, vs₂, hvalues, hpoint, hlt, hrest⟩ := insertionPoint_spec FileIndex hsorted
    have hle : ∀ v ∈ vs₂, FileIndex ≤ v.1 := by
      intro v hv
      rcases hrest with ⟨w, vs₃, rfl, heq, hgt⟩ | hgt
      · rcases mem_cons.mp hv with rfl | hv
        · exact Nat.le_of_eq heq.symm
        · exact Nat.le_of_lt (hgt v hv)
      · exact Nat.le_of_lt (hgt v hv)
    show some (Result + total ((entries 0 n).take (insertionPoint FileIndex (entries 0 n)))) = _
    rw [hpoint, hvalues, take_left, sumBelow_append, sumBelow_of_lt hlt, sumBelow_of_le hle,
      add_zero]
  | succ height ih =>
    exact DeltaTreeInteriorNode.getDeltaAt_spec (fun _ hc => hc.full) ih h hsorted Result

end DeltaTreeNode

namespace DeltaTree

/-- The deltas of a tree, in order. -/
def entries (t : DeltaTree) : List SourceDelta := DeltaTreeNode.entries t.height t.Root

/-- The invariant of a tree. -/
structure WF (t : DeltaTree) : Prop where
  root : DeltaTreeNode.WF t.height t.Root
  sorted : Sorted t.entries

theorem new_wf : new.WF :=
  ⟨⟨rfl, Nat.zero_le _⟩, Pairwise.nil⟩

variable {t : DeltaTree}

theorem AddDelta_spec (h : t.WF) (FileIndex : Nat) {Delta : Int} (hne : Delta ≠ 0) :
    ∃ t', t.AddDelta FileIndex Delta = some t' ∧ t'.WF ∧
      t'.entries = addAt FileIndex Delta t.entries := by
  obtain ⟨r, hresult, hholds⟩ :=
    DeltaTreeNode.DoInsertion_spec FileIndex Delta t.height t.Root h.root h.sorted
  have hsorted : Sorted (addAt FileIndex Delta t.entries) := h.sorted.addAt
  unfold AddDelta
  rw [if_neg hne, hresult]
  cases r with
  | done n =>
    obtain ⟨hwf, hentries⟩ := hholds
    exact ⟨⟨t.height, n⟩, rfl, ⟨hwf, show Sorted (DeltaTreeNode.entries t.height n) from
      hentries ▸ hsorted⟩, hentries⟩
  | split res =>
    obtain ⟨hLHS, hRHS, hentries⟩ := hholds
    have hroot : DeltaTreeNode.entries (t.height + 1) (newRoot res) =
        addAt FileIndex Delta t.entries := by
      rw [← show _ = addAt FileIndex Delta t.entries from hentries]
      show _ ++ res.Split :: (_ ++ []) = _
      rw [append_nil]
    refine ⟨⟨t.height + 1, newRoot res⟩, rfl, ⟨⟨?_, ?_, rfl, ?_⟩, ?_⟩, hroot⟩
    · show _ + _ + res.Split.2 = total (DeltaTreeNode.entries (t.height + 1) (newRoot res))
      rw [hLHS.full, hRHS.full, hroot, ← show _ = addAt FileIndex Delta t.entries from hentries,
        total_append, total_cons]
      omega
    · show 1 ≤ MaxValues
      rw [MaxValues]
      omega
    · intro c hc
      rcases mem_cons.mp hc with rfl | hc
      · exact hLHS
      · rw [mem_singleton.mp hc]
        exact hRHS
    · show Sorted (DeltaTreeNode.entries (t.height + 1) (newRoot res))
      rw [hroot]
      exact hsorted

theorem getDeltaAt_spec (h : t.WF) (FileIndex : Nat) :
    t.getDeltaAt FileIndex = some (sumBelow FileIndex t.entries) := by
  unfold getDeltaAt
  rw [DeltaTreeNode.getDeltaAt_spec FileIndex t.height t.Root h.root h.sorted 0, zero_add]
  rfl

/-- The tree after some additions. -/
def addDeltas (calls : List (Nat × Int)) : Option DeltaTree :=
  calls.foldlM (fun t call => t.AddDelta call.1 call.2) new

theorem foldlM_AddDelta_spec (h : t.WF) (calls : List (Nat × Int))
    (hne : ∀ call ∈ calls, call.2 ≠ 0) :
    ∃ t', calls.foldlM (fun t call => t.AddDelta call.1 call.2) t = some t' ∧ t'.WF ∧
      ∀ FileIndex, sumBelow FileIndex t'.entries =
        sumBelow FileIndex t.entries + sumBelow FileIndex calls := by
  induction calls generalizing t with
  | nil => exact ⟨t, rfl, h, fun FileIndex => (add_zero _).symm⟩
  | cons call calls ih =>
    obtain ⟨t₁, hadd, hwf₁, hentries⟩ := AddDelta_spec h call.1 (hne call mem_cons_self)
    obtain ⟨t', hrun, hwf', hsum⟩ := ih hwf₁ fun call' hcall' =>
      hne call' (mem_cons_of_mem _ hcall')
    refine ⟨t', ?_, hwf', fun FileIndex => ?_⟩
    · rw [foldlM_cons, hadd]
      exact hrun
    · rw [hsum, hentries, sumBelow_addAt, sumBelow_cons, add_assoc]

end DeltaTree

end Zapcc.Rewrite
