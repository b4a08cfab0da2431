import Zapcc.Transforms.SwitchTree

/-!
# The case ranges of a switch

`Clusterify` makes case ranges in order, which contain the same values with the same blocks as the
cases, and as many (`Clusterify_spec`). The unreachable ranges contain no case value.
-/

namespace Zapcc.LowerSwitch

open List

variable {w : Nat}

theorem sizeTo_cons (c : CaseRange w) (Cases : List (CaseRange w)) (B : Nat) :
    sizeTo (c :: Cases) B = (if c.BB = B then c.size else 0) + sizeTo Cases B := by
  unfold sizeTo
  rw [map_cons, sum_cons]

theorem mergeCases_spec (I : CaseRange w) (Cases : List (CaseRange w)) (h : InOrder (I :: Cases)) :
    InOrder (mergeCases I Cases) ∧ (∀ c ∈ mergeCases I Cases, I.Low.toInt ≤ c.Low.toInt) ∧
      (∀ v B, (∃ c ∈ mergeCases I Cases, c.Contains v ∧ c.BB = B) ↔
        ∃ c ∈ I :: Cases, c.Contains v ∧ c.BB = B) ∧
      ∀ B, sizeTo (mergeCases I Cases) B = sizeTo (I :: Cases) B := by
  induction Cases generalizing I with
  | nil => exact ⟨h, by simp [mergeCases], fun v B => Iff.rfl, fun B => rfl⟩
  | cons J Cases ih =>
    have hI := h.le I mem_cons_self
    have hJ := h.le J (mem_cons_of_mem _ mem_cons_self)
    obtain ⟨hbefore, hapart⟩ := pairwise_cons.mp h.apart
    have hIJ := hbefore J mem_cons_self
    obtain ⟨hbefore', hapart'⟩ := pairwise_cons.mp hapart
    have hle : ∀ c ∈ Cases, c.Low.toInt ≤ c.High.toInt := fun c hc =>
      h.le c (mem_cons_of_mem _ (mem_cons_of_mem _ hc))
    rw [mergeCases]
    by_cases hmerge : J.Low.toInt = I.High.toInt + 1 ∧ I.BB = J.BB
    · rw [if_pos hmerge]
      obtain ⟨hnext, hBB⟩ := hmerge
      obtain ⟨horder, hlow, hvalues, hsize⟩ := ih { I with High := J.High }
        ⟨by
          intro c hc
          rcases mem_cons.mp hc with rfl | hc
          · show I.Low.toInt ≤ J.High.toInt
            omega
          · exact hle c hc, pairwise_cons.mpr ⟨hbefore', hapart'⟩⟩
      refine ⟨horder, hlow, fun v B => (hvalues v B).trans ?_, fun B => (hsize B).trans ?_⟩
      · have hunion : ∀ BB, (CaseRange.mk I.Low J.High BB).Contains v ↔
            I.Contains v ∨ J.Contains v := by
          intro BB
          unfold CaseRange.Contains
          show I.Low.toInt ≤ v.toInt ∧ v.toInt ≤ J.High.toInt ↔ _
          omega
        simp only [mem_cons, exists_eq_or_imp, hBB, hunion]
        tauto
      · rw [sizeTo_cons, sizeTo_cons, sizeTo_cons, hBB]
        have hsum : CaseRange.size ⟨I.Low, J.High, J.BB⟩ = I.size + J.size := by
          unfold CaseRange.size
          show (J.High.toInt - I.Low.toInt).toNat + 1 = _
          omega
        rw [hsum]
        split <;> omega
    · rw [if_neg hmerge]
      obtain ⟨horder, hlow, hvalues, hsize⟩ := ih J
        ⟨fun c hc => h.le c (mem_cons_of_mem _ hc), hapart⟩
      refine ⟨⟨?_, pairwise_cons.mpr ⟨fun c hc => ?_, horder.apart⟩⟩, ?_, fun v B => ?_,
        fun B => ?_⟩
      · intro c hc
        rcases mem_cons.mp hc with rfl | hc
        · exact hI
        · exact horder.le c hc
      · have := hlow c hc
        omega
      · intro c hc
        rcases mem_cons.mp hc with rfl | hc
        · exact le_rfl
        · have := hlow c hc
          omega
      · have := hvalues v B
        simp only [mem_cons, exists_eq_or_imp] at this ⊢
        rw [this]
      · rw [sizeTo_cons, hsize B, ← sizeTo_cons]

variable {Cases : List (CaseRange w)} {cases : List (BitVec w × Nat)}

theorem unreachableRanges_spec (h : InOrder Cases) {Low : Int}
    (hLow : ∀ c ∈ Cases, Low ≤ c.Low.toInt) {R : IntRange}
    (hR : R ∈ unreachableRanges Low Cases) :
    Low ≤ R.Low ∧ ∀ c ∈ Cases, ∀ v, c.Contains v → ¬ (R.Low ≤ v.toInt ∧ v.toInt ≤ R.High) := by
  induction Cases generalizing Low with
  | nil =>
    rw [unreachableRanges, mem_singleton] at hR
    rw [hR]
    exact ⟨le_rfl, fun c hc => absurd hc not_mem_nil⟩
  | cons I Cases ih =>
    have hI := h.le I mem_cons_self
    have hLowI := hLow I mem_cons_self
    obtain ⟨hbefore, hapart⟩ := pairwise_cons.mp h.apart
    have hrest : InOrder Cases := ⟨fun c hc => h.le c (mem_cons_of_mem _ hc), hapart⟩
    rw [unreachableRanges, mem_append] at hR
    rcases hR with hR | hR
    · split at hR
      · cases hR
      · rw [mem_singleton] at hR
        subst hR
        refine ⟨le_rfl, fun c hc v hv => ?_⟩
        show ¬ (Low ≤ v.toInt ∧ v.toInt ≤ I.Low.toInt - 1)
        have hcontains := hv.1
        rcases mem_cons.mp hc with rfl | hc
        · omega
        · have := hbefore c hc
          omega
    · split at hR
      · obtain ⟨hle, hnot⟩ := ih hrest (fun c hc => by
          have := hbefore c hc
          omega) hR
        refine ⟨by omega, fun c hc v hv => ?_⟩
        rcases mem_cons.mp hc with rfl | hc
        · have := hv.2
          omega
        · exact hnot c hc v hv
      · cases hR

theorem InOrder.le_last (h : InOrder Cases) {Last : CaseRange w}
    (hLast : Cases.getLast? = some Last) {c : CaseRange w} (hc : c ∈ Cases) :
    c.High.toInt ≤ Last.High.toInt := by
  obtain ⟨init, rfl⟩ := getLast?_eq_some_iff.mp hLast
  rcases mem_append.mp hc with hc | hc
  · have := (pairwise_append.mp h.apart).2.2 c hc Last (mem_singleton_self _)
    have := h.le Last (mem_append_right _ (mem_singleton_self _))
    omega
  · rw [mem_singleton.mp hc]

theorem sizeTo_filter (Cases : List (CaseRange w)) (B i : Nat) :
    sizeTo (Cases.filter fun R => R.BB ≠ B) i = if i = B then 0 else sizeTo Cases i := by
  induction Cases with
  | nil => simp [sizeTo]
  | cons c Cases ih =>
    rw [filter_cons]
    by_cases hB : c.BB = B
    · rw [if_neg (by simpa using hB), ih, sizeTo_cons]
      by_cases hi : i = B
      · rw [if_pos hi, if_pos hi]
      · rw [if_neg hi, if_neg hi, if_neg (fun heq => hi (heq.symm.trans hB)), zero_add]
    · rw [if_pos (by simpa using hB), sizeTo_cons, ih, sizeTo_cons]
      by_cases hi : i = B
      · rw [if_pos hi, if_pos hi, if_neg (fun heq => hB (heq.trans hi))]
      · rw [if_neg hi, if_neg hi]

theorem sorted_cases (hnodup : (cases.map Prod.fst).Nodup) :
    ∃ sorted : List (BitVec w × Nat), sorted.Perm cases ∧
      sorted.Pairwise (fun c d => c.1.toInt < d.1.toInt) ∧
      (cases.map fun c => CaseRange.mk c.1 c.1 c.2).insertionSort
        (fun C1 C2 => C1.Low.toInt ≤ C2.High.toInt) =
          sorted.map fun c => CaseRange.mk c.1 c.1 c.2 := by
  let r : BitVec w × Nat → BitVec w × Nat → Prop := fun c d => c.1.toInt ≤ d.1.toInt
  have hperm := perm_insertionSort r cases
  have hne : (cases.insertionSort r).Pairwise fun c d => c.1 ≠ d.1 :=
    pairwise_map.mp ((hperm.map Prod.fst).nodup_iff.mpr hnodup)
  refine ⟨cases.insertionSort r, hperm, ?_, ?_⟩
  · refine ((pairwise_insertionSort r cases).and hne).imp fun {c d} h => ?_
    exact lt_of_le_of_ne h.1 fun heq => h.2 (BitVec.toInt_inj.mp heq)
  · exact (map_insertionSort r (fun C1 C2 : CaseRange w => C1.Low.toInt ≤ C2.High.toInt)
      (fun c => CaseRange.mk c.1 c.1 c.2) cases fun c _ d _ => Iff.rfl).symm

theorem Clusterify_spec (hnodup : (cases.map Prod.fst).Nodup) :
    InOrder (Clusterify cases) ∧
      (∀ v B, (∃ c ∈ Clusterify cases, c.Contains v ∧ c.BB = B) ↔ (v, B) ∈ cases) ∧
      ∀ B, sizeTo (Clusterify cases) B = (cases.map Prod.snd).count B := by
  obtain ⟨sorted, hperm, hsorted, heq⟩ := sorted_cases hnodup
  have horder : InOrder (sorted.map fun c => CaseRange.mk c.1 c.1 c.2) := by
    refine ⟨fun c hc => ?_, pairwise_map.mpr hsorted⟩
    obtain ⟨d, -, rfl⟩ := mem_map.mp hc
    exact le_rfl
  have hvalues : ∀ v B, (∃ c ∈ sorted.map fun c => CaseRange.mk c.1 c.1 c.2,
      c.Contains v ∧ c.BB = B) ↔ (v, B) ∈ cases := by
    intro v B
    rw [← hperm.mem_iff]
    constructor
    · rintro ⟨c, hc, hcontains, rfl⟩
      obtain ⟨d, hd, rfl⟩ := mem_map.mp hc
      have hv : v = d.1 := BitVec.toInt_inj.mp (le_antisymm hcontains.2 hcontains.1)
      rw [hv]
      exact hd
    · exact fun h => ⟨_, mem_map_of_mem h, ⟨le_rfl, le_rfl⟩, rfl⟩
  have hsize : ∀ B, sizeTo (sorted.map fun c => CaseRange.mk c.1 c.1 c.2) B =
      (cases.map Prod.snd).count B := by
    intro B
    rw [← (hperm.map Prod.snd).count_eq]
    clear hperm hsorted heq horder hvalues
    induction sorted with
    | nil => rfl
    | cons c sorted ih =>
      rw [map_cons, sizeTo_cons, ih, map_cons, count_cons, Nat.add_comm]
      simp [CaseRange.size]
  unfold Clusterify
  rw [heq]
  generalize sorted.map (fun c => CaseRange.mk c.1 c.1 c.2) = Cases at *
  cases Cases with
  | nil => exact ⟨horder, hvalues, hsize⟩
  | cons I Cases =>
    obtain ⟨horder', -, hvalues', hsize'⟩ := mergeCases_spec I Cases horder
    exact ⟨horder', fun v B => (hvalues' v B).trans (hvalues v B),
      fun B => (hsize' B).trans (hsize B)⟩

/-- A block of the most case ranges. Of two of them, the last range of the first one is before the
last range of the other one. -/
structure MostPopularIn (Cases : List (CaseRange w)) (B : Nat) (Last : CaseRange w) : Prop where
  mem : Last ∈ Cases
  BB : Last.BB = B
  last : ∀ c ∈ Cases, c.BB = B → c.High.toInt ≤ Last.High.toInt
  most : ∀ B', sizeTo Cases B' < sizeTo Cases B ∨
    sizeTo Cases B' = sizeTo Cases B ∧ ∃ c ∈ Cases, c.BB = B' ∧ Last.High.toInt ≤ c.High.toInt

theorem sizeTo_append (Cases Cases' : List (CaseRange w)) (B : Nat) :
    sizeTo (Cases ++ Cases') B = sizeTo Cases B + sizeTo Cases' B := by
  unfold sizeTo
  rw [map_append, sum_append]

theorem ne_of_sizeTo_concat_le {I : CaseRange w} {B : Nat}
    (hle : sizeTo (Cases ++ [I]) I.BB ≤ sizeTo Cases B) : I.BB ≠ B := by
  have hpos : 0 < I.size := Nat.succ_pos _
  intro heq
  rw [sizeTo_append, sizeTo_singleton, if_pos rfl, heq] at hle
  omega

theorem sizeTo_concat_of_ne {I : CaseRange w} {B : Nat} (h : I.BB ≠ B)
    (Cases : List (CaseRange w)) : sizeTo (Cases ++ [I]) B = sizeTo Cases B := by
  rw [sizeTo_append, sizeTo_singleton, if_neg h, add_zero]

theorem MostPopularIn.concat {I : CaseRange w} {B : Nat}
    {Last : CaseRange w} (h : MostPopularIn Cases B Last)
    (hI : ∀ c ∈ Cases, c.High.toInt ≤ I.High.toInt)
    (hle : sizeTo (Cases ++ [I]) I.BB ≤ sizeTo Cases B) : MostPopularIn (Cases ++ [I]) B Last := by
  have hne := ne_of_sizeTo_concat_le hle
  refine ⟨mem_append_left _ h.mem, h.BB, fun c hc hcB => ?_, fun B' => ?_⟩
  · rcases mem_append.mp hc with hc | hc
    · exact h.last c hc hcB
    · rw [mem_singleton.mp hc] at hcB
      exact absurd hcB hne
  · rw [sizeTo_concat_of_ne hne]
    by_cases hB' : I.BB = B'
    · subst hB'
      rcases Nat.lt_or_eq_of_le hle with hlt | heq
      · exact .inl hlt
      · exact .inr ⟨heq, I, by simp, rfl, hI _ h.mem⟩
    · rw [sizeTo_concat_of_ne hB']
      refine (h.most B').imp_right fun ⟨heq, c, hc, hcB⟩ => ⟨heq, c, mem_append_left _ hc, hcB⟩

theorem mostPopularIn_concat {I : CaseRange w}
    (hI : ∀ c ∈ Cases, c.High.toInt ≤ I.High.toInt)
    (hlt : ∀ B', sizeTo Cases B' < sizeTo (Cases ++ [I]) I.BB) :
    MostPopularIn (Cases ++ [I]) I.BB I := by
  refine ⟨by simp, rfl, fun c hc _ => ?_, fun B' => ?_⟩
  · rcases mem_append.mp hc with hc | hc
    · exact hI c hc
    · rw [mem_singleton.mp hc]
  · by_cases hB' : I.BB = B'
    · exact .inr ⟨by rw [hB'], I, by simp, hB', le_rfl⟩
    · refine .inl ?_
      rw [sizeTo_concat_of_ne hB']
      exact hlt B'

theorem popularSucc_spec {done : List (CaseRange w)}
    (horder : InOrder (done ++ Cases)) {MaxPop : Nat} {PopSucc : Option Nat}
    (h : done = [] ∧ MaxPop = 0 ∧ Cases ≠ [] ∨
      ∃ B Last, PopSucc = some B ∧ MostPopularIn done B Last ∧ MaxPop = sizeTo done B) :
    ∃ B Last, popularSucc Cases (sizeTo done) MaxPop PopSucc = some B ∧
      MostPopularIn (done ++ Cases) B Last := by
  induction Cases generalizing done MaxPop PopSucc with
  | nil =>
    rcases h with ⟨-, -, hne⟩ | ⟨B, Last, hPopSucc, hpopular, -⟩
    · exact absurd rfl hne
    · refine ⟨B, Last, hPopSucc, ?_⟩
      rwa [append_nil]
  | cons I Cases ih =>
    have hIle := horder.le I (mem_append_right _ mem_cons_self)
    have hbefore : ∀ c ∈ done, c.High.toInt ≤ I.High.toInt := by
      intro c hc
      have := (pairwise_append.mp horder.apart).2.2 c hc I mem_cons_self
      omega
    have hPop : sizeTo done I.BB + (I.High.toInt - I.Low.toInt + 1).toNat =
        sizeTo (done ++ [I]) I.BB := by
      rw [sizeTo_append, sizeTo_singleton, if_pos rfl]
      unfold CaseRange.size
      omega
    have hupdate : Function.update (sizeTo done) I.BB (sizeTo (done ++ [I]) I.BB) =
        sizeTo (done ++ [I]) := by
      funext B
      by_cases hB : B = I.BB
      · rw [hB, Function.update_self]
      · rw [Function.update_of_ne hB, sizeTo_concat_of_ne (Ne.symm hB)]
    have happend : done ++ I :: Cases = done ++ [I] ++ Cases := by simp
    rw [happend] at horder ⊢
    rw [popularSucc, hPop, hupdate]
    split
    · next hgt =>
      refine ih horder (.inr ⟨I.BB, I, rfl, mostPopularIn_concat hbefore fun B' => ?_, rfl⟩)
      rcases h with ⟨rfl, rfl, -⟩ | ⟨B, Last, -, hpopular, rfl⟩
      · exact hgt
      · rcases hpopular.most B' with hlt | ⟨heq, -⟩
        · exact hlt.trans hgt
        · exact heq ▸ hgt
    · next hle =>
      rcases h with ⟨rfl, rfl, -⟩ | ⟨B, Last, hPopSucc, hpopular, rfl⟩
      · rw [sizeTo_append, sizeTo_singleton, if_pos rfl] at hle
        unfold CaseRange.size at hle
        omega
      · have hsame := sizeTo_concat_of_ne (ne_of_sizeTo_concat_le (not_lt.mp hle)) done
        exact ih horder (.inr ⟨B, Last, hPopSucc, hpopular.concat hbefore (not_lt.mp hle),
          hsame.symm⟩)

/-- The block of the most cases. Of two of them, the last case of the first one is before the last
case of the other one. -/
def MostPopular (cases : List (BitVec w × Nat)) (B : Nat) : Prop :=
  ∃ Last, (Last, B) ∈ cases ∧ (∀ v, (v, B) ∈ cases → v.toInt ≤ Last.toInt) ∧
    ∀ B', (cases.map Prod.snd).count B' < (cases.map Prod.snd).count B ∨
      (cases.map Prod.snd).count B' = (cases.map Prod.snd).count B ∧
        ∃ v, (v, B') ∈ cases ∧ Last.toInt ≤ v.toInt

theorem MostPopular.eq (hnodup : (cases.map Prod.fst).Nodup)
    {B B' : Nat} (h : MostPopular cases B) (h' : MostPopular cases B') : B = B' := by
  obtain ⟨Last, hmem, hlast, hmost⟩ := h
  obtain ⟨Last', hmem', hlast', hmost'⟩ := h'
  rcases hmost B' with hlt | ⟨heq, v', hv', hle'⟩
  · rcases hmost' B with hlt' | ⟨heq', -⟩ <;> omega
  · rcases hmost' B with hlt' | ⟨-, v, hv, hle⟩
    · omega
    · have hsame : Last = Last' := by
        have := hlast v hv
        have := hlast' v' hv'
        exact BitVec.toInt_inj.mp (by omega)
      subst hsame
      exact congrArg Prod.snd (inj_on_of_nodup_map hnodup hmem hmem' rfl)

theorem popularSucc_cases (hnodup : (cases.map Prod.fst).Nodup)
    (hne : cases ≠ []) : ∃ B, popularSucc (Clusterify cases) (fun _ => 0) 0 none = some B ∧
      MostPopular cases B := by
  obtain ⟨horder, hvalues, hsize⟩ := Clusterify_spec hnodup
  have hcontains : ∀ c ∈ Clusterify cases, (c.High, c.BB) ∈ cases := fun c hc =>
    (hvalues c.High c.BB).mp ⟨c, hc, ⟨horder.le c hc, le_rfl⟩, rfl⟩
  have hne' : Clusterify cases ≠ [] := by
    obtain ⟨e, he⟩ := exists_mem_of_ne_nil cases hne
    obtain ⟨c, hc, -⟩ := (hvalues e.1 e.2).mpr he
    exact ne_nil_of_mem hc
  obtain ⟨B, Last, heq, hpopular⟩ := popularSucc_spec
    (show InOrder ([] ++ Clusterify cases) from horder) (.inl ⟨rfl, rfl, hne'⟩)
  refine ⟨B, heq, Last.High, hpopular.BB ▸ hcontains Last hpopular.mem, fun v hv => ?_,
    fun B' => ?_⟩
  · obtain ⟨c, hc, hin, hcB⟩ := (hvalues v B).mpr hv
    exact hin.2.trans (hpopular.last c hc hcB)
  · rw [← hsize, ← hsize]
    exact (hpopular.most B').imp_right fun ⟨heq, c, hc, hcB, hle⟩ =>
      ⟨heq, c.High, hcB ▸ hcontains c hc, hle⟩

end Zapcc.LowerSwitch
