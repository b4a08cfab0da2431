import Zapcc.Library.KeyedSums

/-!
# The leaves of the tree of deltas

A leaf holds values that are sorted by their file index. `DoInsertion_spec` says that an insertion
into a leaf adds to its values, also when the leaf is split.
-/

namespace Zapcc.Rewrite

open KeyedSums List

/-- `SourceDelta`: its `FileLoc` and its `Delta`. -/
abbrev SourceDelta := Nat × Int

/-- `2 * WidthFactor - 1`, the number of values that a node can hold. -/
def MaxValues : Nat := 15

structure DeltaTreeLeaf where
  Values : List SourceDelta
  FullDelta : Int

structure InsertResult (α : Type) where
  LHS : α
  Split : SourceDelta
  RHS : α

/-- The result of `DoInsertion`: the node, or what it was split into. -/
inductive Inserted (α : Type) where
  | done (n : α)
  | split (res : InsertResult α)

/-- The loop `while (i != e && FileIndex > getValue(i).FileLoc) ++i;`. -/
def insertionPoint (FileIndex : Nat) (Values : List SourceDelta) : Nat :=
  Values.findIdx fun Val => decide (FileIndex ≤ Val.1)

/-- Move the later elements over and store a new one. -/
def insertAt {α : Type} (i : Nat) (x : α) (xs : List α) : List α := xs.take i ++ x :: xs.drop i

/-- Merge a delta into the record at a position, when it is for the same file index. -/
def mergeAt (i FileIndex : Nat) (Delta : Int) (Values : List SourceDelta) :
    Option (List SourceDelta) := do
  let Val ← Values[i]?
  if Val.1 = FileIndex then some (Values.set i (Val.1, Val.2 + Delta)) else none

namespace DeltaTreeLeaf

/-- A leaf with its `FullDelta` recomputed. -/
def ofValues (Values : List SourceDelta) : DeltaTreeLeaf := ⟨Values, total Values⟩

def DoSplit (l : DeltaTreeLeaf) : Option (InsertResult DeltaTreeLeaf) :=
  if l.Values.length = MaxValues then do
    let Split ← l.Values[7]?
    some ⟨ofValues (l.Values.take 7), Split, ofValues (l.Values.drop 8)⟩
  else none

/-- The part of `DoInsertion` that returns false. -/
def insertInPlace (l : DeltaTreeLeaf) (FileIndex : Nat) (Delta : Int) : Option DeltaTreeLeaf :=
  let FullDelta := l.FullDelta + Delta
  let i := insertionPoint FileIndex l.Values
  match mergeAt i FileIndex Delta l.Values with
  | some Values => some ⟨Values, FullDelta⟩
  | none =>
    if l.Values.length = MaxValues then none
    else some ⟨insertAt i (FileIndex, Delta) l.Values, FullDelta⟩

def DoInsertion (l : DeltaTreeLeaf) (FileIndex : Nat) (Delta : Int) :
    Option (Inserted DeltaTreeLeaf) :=
  match l.insertInPlace FileIndex Delta with
  | some l => some (.done l)
  | none => do
      let ⟨LHS, Split, RHS⟩ ← l.DoSplit
      if FileIndex < Split.1 then do
        let LHS ← LHS.insertInPlace FileIndex Delta
        some (.split ⟨LHS, Split, RHS⟩)
      else do
        let RHS ← RHS.insertInPlace FileIndex Delta
        some (.split ⟨LHS, Split, RHS⟩)

end DeltaTreeLeaf

theorem insertionPoint_spec (FileIndex : Nat) {Values : List SourceDelta} (h : Sorted Values) :
    ∃ vs₁ vs₂, Values = vs₁ ++ vs₂ ∧ insertionPoint FileIndex Values = vs₁.length ∧
      (∀ v ∈ vs₁, v.1 < FileIndex) ∧
      ((∃ v vs₃, vs₂ = v :: vs₃ ∧ v.1 = FileIndex ∧ ∀ w ∈ vs₃, FileIndex < w.1) ∨
        ∀ v ∈ vs₂, FileIndex < v.1) := by
  obtain ⟨htake, hdrop⟩ := findIdx_spec FileIndex Values h
  refine ⟨_, _, (take_append_drop (insertionPoint FileIndex Values) Values).symm, ?_, htake, ?_⟩
  · rw [length_take, Nat.min_eq_left]
    exact findIdx_le_length
  · have hsorted : Sorted (Values.drop (insertionPoint FileIndex Values)) :=
      Pairwise.sublist (drop_sublist ..) h
    have hle : ∀ v ∈ Values.drop (insertionPoint FileIndex Values), FileIndex ≤ v.1 := hdrop
    generalize Values.drop (insertionPoint FileIndex Values) = vs₂ at hsorted hle
    cases vs₂ with
    | nil => exact .inr fun v hv => absurd hv not_mem_nil
    | cons v vs₃ =>
      have hv := hle v (mem_cons_self ..)
      obtain ⟨hlt, -⟩ := pairwise_cons.mp hsorted
      rcases Nat.eq_or_lt_of_le hv with heq | hgt
      · exact .inl ⟨v, vs₃, rfl, heq.symm, fun w hw => heq ▸ hlt w hw⟩
      · refine .inr fun w hw => ?_
        rcases mem_cons.mp hw with rfl | hw
        · exact hgt
        · exact hgt.trans (hlt w hw)

theorem insertionPoint_append {FileIndex : Nat} {vs₁ vs₂ : List SourceDelta}
    (hlt : ∀ v ∈ vs₁, v.1 < FileIndex) (hle : ∀ v ∈ vs₂, FileIndex ≤ v.1) :
    insertionPoint FileIndex (vs₁ ++ vs₂) = vs₁.length := by
  induction vs₁ with
  | nil =>
    cases vs₂ with
    | nil => rfl
    | cons v vs₂ =>
      have hv := hle v (mem_cons_self ..)
      rw [nil_append, insertionPoint, findIdx_cons, decide_eq_true hv]
      rfl
  | cons v vs₁ ih =>
    have hv := hlt v (mem_cons_self ..)
    have htail := ih fun w hw => hlt w (mem_cons_of_mem _ hw)
    rw [insertionPoint] at htail
    rw [cons_append, insertionPoint, findIdx_cons, decide_eq_false (Nat.not_le.mpr hv), htail]
    rfl

theorem exists_of_append_eq_append {α : Type} {xs ys ls rs : List α} (heq : xs ++ ys = ls ++ rs)
    (h : xs.length ≤ ls.length) : ∃ mid, ls = xs ++ mid ∧ ys = mid ++ rs := by
  have hprefix : xs <+: ls :=
    prefix_of_prefix_length_le (prefix_append xs ys) ⟨rs, heq.symm⟩ h
  obtain ⟨mid, rfl⟩ := hprefix
  rw [append_assoc] at heq
  exact ⟨mid, rfl, append_cancel_left heq⟩

theorem insertAt_append {α : Type} (xs ys : List α) (x : α) :
    insertAt xs.length x (xs ++ ys) = xs ++ x :: ys := by
  rw [insertAt, take_left, drop_left]

theorem mergeAt_spec {FileIndex : Nat} {Delta : Int} {vs₁ vs₂ : List SourceDelta}
    (hlt : ∀ v ∈ vs₁, v.1 < FileIndex) :
    (∀ v vs₃, vs₂ = v :: vs₃ → v.1 = FileIndex → mergeAt vs₁.length FileIndex Delta (vs₁ ++ vs₂) =
          some (addAt FileIndex Delta (vs₁ ++ vs₂))) ∧
      ((∀ v ∈ vs₂, FileIndex < v.1) → mergeAt vs₁.length FileIndex Delta (vs₁ ++ vs₂) = none ∧
          addAt FileIndex Delta (vs₁ ++ vs₂) = vs₁ ++ (FileIndex, Delta) :: vs₂) := by
  have hget : (vs₁ ++ vs₂)[vs₁.length]? = vs₂[0]? := by
    rw [getElem?_append_right (Nat.le_refl _), Nat.sub_self]
  constructor
  · rintro v vs₃ rfl heq
    unfold mergeAt
    rw [hget]
    show (if v.1 = FileIndex then _ else none) = _
    rw [if_pos heq, addAt_append_left hlt, addAt_of_eq heq,
      set_append_right _ _ (Nat.le_refl _), Nat.sub_self]
    rfl
  · intro hgt
    rw [addAt_append_left hlt]
    have hadd : addAt FileIndex Delta ([] ++ vs₂) = (FileIndex, Delta) :: vs₂ :=
      addAt_append_right hgt
    refine ⟨?_, congrArg (vs₁ ++ ·) hadd⟩
    unfold mergeAt
    rw [hget]
    cases vs₂ with
    | nil => rfl
    | cons v vs₂ =>
      have hv := hgt v (mem_cons_self ..)
      exact if_neg (Nat.ne_of_gt hv)

/-- A node, or two halves with a value between them, that holds some deltas. -/
def Inserted.Holds {α : Type} (good : α → Prop) (entries : α → List SourceDelta)
    (es : List SourceDelta) : Inserted α → Prop
  | .done n => good n ∧ entries n = es
  | .split res => good res.LHS ∧ good res.RHS ∧ entries res.LHS ++ res.Split :: entries res.RHS = es

namespace DeltaTreeLeaf

/-- The invariant of a leaf. -/
structure WF (l : DeltaTreeLeaf) : Prop where
  full : l.FullDelta = total l.Values
  length : l.Values.length ≤ MaxValues

variable {l : DeltaTreeLeaf}

theorem insertInPlace_spec (h : l.WF) (hsorted : Sorted l.Values) (FileIndex : Nat) (Delta : Int) :
    (∃ l', l.insertInPlace FileIndex Delta = some l' ∧ l'.WF ∧
        l'.Values = addAt FileIndex Delta l.Values) ∨
      (l.insertInPlace FileIndex Delta = none ∧ l.Values.length = MaxValues ∧
        ∀ v ∈ l.Values, v.1 ≠ FileIndex) := by
  obtain ⟨vs₁, vs₂, hvalues, hpoint, hlt, hrest⟩ := insertionPoint_spec FileIndex hsorted
  obtain ⟨hmerge, hinsert⟩ := @mergeAt_spec FileIndex Delta vs₁ vs₂ hlt
  have htotal : l.FullDelta + Delta = total (addAt FileIndex Delta l.Values) := by
    rw [total_addAt, h.full]
  have hlength := h.length
  unfold insertInPlace
  dsimp only
  rw [hpoint]
  rw [hvalues] at htotal hlength ⊢
  rcases hrest with ⟨v, vs₃, rfl, heq, -⟩ | hgt
  · rw [hmerge v vs₃ rfl heq]
    refine .inl ⟨_, rfl, ⟨htotal, ?_⟩, rfl⟩
    rw [addAt_append_left hlt, addAt_of_eq heq]
    rw [length_append, length_cons] at hlength ⊢
    exact hlength
  · obtain ⟨hnone, hadd⟩ := hinsert hgt
    rw [hnone]
    by_cases hfull : (vs₁ ++ vs₂).length = MaxValues
    · rw [if_pos hfull]
      refine .inr ⟨rfl, hfull, fun v hv => ?_⟩
      rcases mem_append.mp hv with hv | hv
      · exact Nat.ne_of_lt (hlt v hv)
      · exact Nat.ne_of_gt (hgt v hv)
    · rw [if_neg hfull, insertAt_append]
      rw [hadd] at htotal
      refine .inl ⟨_, rfl, ⟨htotal, ?_⟩, hadd.symm⟩
      rw [length_append] at hfull hlength
      rw [length_append, length_cons]
      omega

theorem DoSplit_spec (hfull : l.Values.length = MaxValues) :
    ∃ LHS Split RHS, l.DoSplit = some ⟨LHS, Split, RHS⟩ ∧ LHS.WF ∧ RHS.WF ∧
      LHS.Values.length < MaxValues ∧ RHS.Values.length < MaxValues ∧
      l.Values = LHS.Values ++ Split :: RHS.Values := by
  have hmedian : 7 < l.Values.length := by
    rw [hfull, MaxValues]
    omega
  have hleft : (l.Values.take 7).length < MaxValues := by
    rw [length_take, hfull, MaxValues]
    omega
  have hright : (l.Values.drop 8).length < MaxValues := by
    rw [length_drop, hfull, MaxValues]
    omega
  refine ⟨ofValues (l.Values.take 7), l.Values[7], ofValues (l.Values.drop 8), ?_,
    ⟨rfl, Nat.le_of_lt hleft⟩, ⟨rfl, Nat.le_of_lt hright⟩, hleft, hright, ?_⟩
  · unfold DoSplit
    rw [if_pos hfull, getElem?_eq_getElem hmedian]
    rfl
  · show l.Values = l.Values.take 7 ++ l.Values[7] :: l.Values.drop 8
    rw [← drop_eq_getElem_cons hmedian, take_append_drop]

theorem DoInsertion_spec (h : l.WF) (hsorted : Sorted l.Values) (FileIndex : Nat) (Delta : Int) :
    ∃ r, l.DoInsertion FileIndex Delta = some r ∧
      r.Holds WF Values (addAt FileIndex Delta l.Values) := by
  unfold DoInsertion
  rcases insertInPlace_spec h hsorted FileIndex Delta with
    ⟨l', hplace, hwf, hvalues⟩ | ⟨hnone, hfull, hnew⟩
  · rw [hplace]
    exact ⟨_, rfl, hwf, hvalues⟩
  · obtain ⟨LHS, Split, RHS, hsplit, hleft, hright, hlenLeft, hlenRight, hvalues⟩ :=
      DoSplit_spec hfull
    rw [hvalues] at hsorted
    obtain ⟨hsortedLeft, hsortedRest, hltLeft⟩ := hsorted.append
    obtain ⟨hltRight, hsortedRight⟩ := pairwise_cons.mp hsortedRest
    rw [hnone, hsplit]
    show ∃ r, (if FileIndex < Split.1 then (LHS.insertInPlace FileIndex Delta).bind _
      else (RHS.insertInPlace FileIndex Delta).bind _) = some r ∧ _
    by_cases hlt : FileIndex < Split.1
    · rw [if_pos hlt]
      rcases insertInPlace_spec hleft hsortedLeft FileIndex Delta with
        ⟨l', hplace, hwf, hvalues'⟩ | ⟨-, hfull', -⟩
      · rw [hplace]
        refine ⟨_, rfl, hwf, hright, ?_⟩
        rw [hvalues', hvalues, addAt_append_right]
        intro v hv
        rcases mem_cons.mp hv with rfl | hv
        · exact hlt
        · exact hlt.trans (hltRight v hv)
      · exact absurd hfull' (Nat.ne_of_lt hlenLeft)
    · rw [if_neg hlt]
      have hgt : Split.1 < FileIndex := by
        have hne := hnew Split (by rw [hvalues]; simp)
        omega
      rcases insertInPlace_spec hright hsortedRight FileIndex Delta with
        ⟨l', hplace, hwf, hvalues'⟩ | ⟨-, hfull', -⟩
      · rw [hplace]
        refine ⟨_, rfl, hleft, hwf, ?_⟩
        rw [hvalues', hvalues, addAt_append_left, addAt, if_pos hgt]
        exact fun v hv => (hltLeft v hv Split (mem_cons_self ..)).trans hgt
      · exact absurd hfull' (Nat.ne_of_lt hlenRight)

end DeltaTreeLeaf

end Zapcc.Rewrite
