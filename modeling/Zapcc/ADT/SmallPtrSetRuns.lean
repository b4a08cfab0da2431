import Zapcc.ADT.SmallPtrSetOperations

/-!
# Small pointer sets are sets

`setStep` is what a call means for finite sets of pointers. The main result is `behaves_as_sets`:
every run of calls on any number of sets of one small size does this, as long as no copy leaves
the inline array in use for a hash table (`Fits`). `not_behaves_as_sets` is such a copy.
-/

namespace Zapcc.ADT.SmallPtrSet

open MathExtras OpenAddressing Option Function List

variable {ι : Type} [DecidableEq ι] {SmallSize : Nat}

/-! ## The abstract sets -/

/-- What a call does to finite sets, and what the client sees. -/
def setStep (A : ι → Finset Ptr) : Op ι → (ι → Finset Ptr) × Seen
  | .insert i p =>
    (update A i (insert p (A i)), .inserted (some p) (decide (p ∉ A i)))
  | .erase i p => (update A i ((A i).erase p), .erased (decide (p ∈ A i)))
  | .count i p => (A, .counted (if p ∈ A i then 1 else 0))
  | .clear i => (update A i ∅, .nothing)
  | .copyAssign i j => (update A i (A j), .nothing)
  | .moveAssign i j =>
    if i = j then (A, .nothing)
    else (update (update A i (A j)) j ∅, .nothing)
  | .swap i j => (update (update A i (A j)) j (A i), .nothing)

/-- What calls do to finite sets one after the other. -/
def setRun (A : ι → Finset Ptr) : List (Op ι) → (ι → Finset Ptr) × List Seen
  | [] => (A, [])
  | op :: ops =>
    let next := setStep A op
    let rest := setRun next.1 ops
    (rest.1, next.2 :: rest.2)

omit [DecidableEq ι] in
/-- The pointer of a call is neither of the two illegal ones. -/
def Op.Valid : Op ι → Prop
  | .insert _ p | .erase _ p | .count _ p => Live p
  | _ => True

instance : (op : Op ι) → Decidable op.Valid
  | .insert _ p | .erase _ p | .count _ p => inferInstanceAs (Decidable (Live p))
  | .clear _ | .copyAssign _ _ | .moveAssign _ _ | .swap _ _ => isTrue trivial

/-- The call keeps the representation: an insertion does not double `2 ^ 31` buckets, and a copy
fills the array that it leaves in use. -/
def Fits (sets : ι → SmallPtrSet) : Op ι → Prop
  | .insert i _ => (sets i).isSmall = true ∨ Room (sets i)
  | .copyAssign i j => i = j ∨ Fills (sets i) (sets j)
  | _ => True

/-- Every call of a run fits. -/
def AllFit (SmallSize : Nat) : (ι → SmallPtrSet) → List (Op ι) → Prop
  | _, [] => True
  | sets, op :: ops =>
    Fits sets op ∧
      match step SmallSize sets op with
      | none => True
      | some (sets', _) => AllFit SmallSize sets' ops

instance (sets : ι → SmallPtrSet) : (op : Op ι) → Decidable (Fits sets op)
  | .insert i _ => inferInstanceAs (Decidable ((sets i).isSmall = true ∨ Room (sets i)))
  | .copyAssign i j => inferInstanceAs (Decidable (i = j ∨ Fills (sets i) (sets j)))
  | .erase _ _ | .count _ _ | .clear _ | .moveAssign _ _ | .swap _ _ => isTrue trivial

def decideAllFit (SmallSize : Nat) : (sets : ι → SmallPtrSet) → (ops : List (Op ι)) →
    Decidable (AllFit SmallSize sets ops)
  | _, [] => isTrue trivial
  | sets, op :: ops =>
    match h : step SmallSize sets op with
    | none => decidable_of_iff (Fits sets op) (by simp [AllFit, h])
    | some (sets', _) =>
      have := decideAllFit SmallSize sets' ops
      decidable_of_iff (Fits sets op ∧ AllFit SmallSize sets' ops) (by simp [AllFit, h])

instance (SmallSize : Nat) (sets : ι → SmallPtrSet) (ops : List (Op ι)) :
    Decidable (AllFit SmallSize sets ops) :=
  decideAllFit SmallSize sets ops

/-! ## One call -/

/-- The sets between two calls. -/
def Good (SmallSize : Nat) (sets : ι → SmallPtrSet) (A : ι → Finset Ptr) : Prop :=
  ∀ i, WellFormed SmallSize (sets i) ∧ Holds (sets i) (A i)

variable {sets : ι → SmallPtrSet} {A : ι → Finset Ptr}

variable {S : SmallPtrSet} {B : Finset Ptr}

theorem Good.update (h : Good SmallSize sets A) {i : ι}
    (hS : WellFormed SmallSize S) (hB : Holds S B) :
    Good SmallSize (update sets i S) (update A i B) := by
  intro k
  by_cases hk : k = i
  · subst hk
    rw [update_self, update_self]
    exact ⟨hS, hB⟩
  · rw [update_of_ne hk, update_of_ne hk]
    exact h k

omit [DecidableEq ι] in
theorem Good.mem_iff (h : Good SmallSize sets A) (i : ι) {p : Ptr} (hp : Live p) :
    p ∈ A i ↔ p ∈ (sets i).slots := by
  rw [(h i).2 p, and_iff_right hp]

omit [DecidableEq ι] in
theorem holds_congr {S' : SmallPtrSet} (h : Holds S B)
    (hmem : ∀ q, Live q → (q ∈ S'.slots ↔ q ∈ S.slots)) : Holds S' B := by
  intro q
  rw [h q]
  exact and_congr_right fun hq => (hmem q hq).symm

theorem holds_empty (h : ∀ q, Live q → q ∉ S.slots) : Holds S ∅ := fun q =>
  ⟨fun hq => absurd hq (Finset.notMem_empty q), fun ⟨hq, hmem⟩ => absurd hmem (h q hq)⟩

theorem step_refines (h : Good SmallSize sets A) (hmax : SmallSize ≤ 32) (op : Op ι)
    (hvalid : op.Valid) (hfits : Fits sets op) :
    ∃ sets', step SmallSize sets op = some (sets', (setStep A op).2) ∧
      Good SmallSize sets' (setStep A op).1 := by
  cases op with
  | insert i p =>
    obtain ⟨S', b, heq, hinserted⟩ := (h i).1.insertImp hmax hfits hvalid
    have hnew : decide (p ∉ (sets i).slots) = decide (p ∉ A i) :=
      decide_eq_decide.mpr (not_congr (h.mem_iff i hvalid)).symm
    rw [hnew] at heq
    simp only [step, setStep, heq, map_some, hinserted.bucket]
    refine ⟨_, rfl, h.update hinserted.wellFormed fun q => ?_⟩
    rw [Finset.mem_insert]
    constructor
    · rintro (rfl | hq)
      · exact ⟨hvalid, (hinserted.mem q hvalid).mpr (.inl rfl)⟩
      · obtain ⟨hl, hmem⟩ := ((h i).2 q).mp hq
        exact ⟨hl, (hinserted.mem q hl).mpr (.inr hmem)⟩
    · rintro ⟨hl, hmem⟩
      exact ((hinserted.mem q hl).mp hmem).imp_right (h.mem_iff i hl).mpr
  | erase i p =>
    obtain ⟨S', heq, hS', hmem⟩ := (h i).1.eraseImp hmax hvalid
    have hold : decide (p ∈ (sets i).slots) = decide (p ∈ A i) :=
      decide_eq_decide.mpr (h.mem_iff i hvalid).symm
    rw [hold] at heq
    simp only [step, setStep, heq, map_some]
    refine ⟨_, rfl, h.update hS' fun q => ?_⟩
    rw [Finset.mem_erase, (h i).2 q]
    constructor
    · rintro ⟨hne, hl, hq⟩
      exact ⟨hl, (hmem q hl).mpr ⟨hq, hne⟩⟩
    · rintro ⟨hl, hq⟩
      obtain ⟨hq, hne⟩ := (hmem q hl).mp hq
      exact ⟨hne, hl, hq⟩
  | count i p =>
    have hiff := h.mem_iff i hvalid
    simp only [step, setStep]
    rcases (h i).1.findImp hvalid with ⟨b, heq, hb⟩ | ⟨heq, hmem⟩
    · have hp : p ∈ A i := hiff.mpr (List.mem_of_getElem? hb)
      simp only [heq, map_some, isSome_some, if_true, if_pos hp]
      exact ⟨sets, rfl, h⟩
    · have hp : p ∉ A i := fun hp => hmem (hiff.mp hp)
      simp only [heq, map_some, isSome_none, Bool.false_eq_true, if_false, if_neg hp]
      exact ⟨sets, rfl, h⟩
  | clear i =>
    obtain ⟨hS', hmem⟩ := (h i).1.clear
    exact ⟨_, rfl, h.update hS' (holds_empty hmem)⟩
  | copyAssign i j =>
    simp only [step, setStep]
    by_cases hij : i = j
    · subst hij
      rw [if_pos rfl, update_eq_self]
      exact ⟨sets, rfl, h⟩
    · obtain ⟨hS', hmem⟩ := (h i).1.copyFrom (h j).1 (hfits.resolve_left hij)
      rw [if_neg hij]
      exact ⟨_, rfl, h.update hS' (holds_congr (h j).2 hmem)⟩
  | moveAssign i j =>
    simp only [step, setStep]
    by_cases hij : i = j
    · rw [if_pos hij, if_pos hij]
      exact ⟨sets, rfl, h⟩
    · obtain ⟨hS', hslots, hRHS', hnone⟩ := (h i).1.moveFrom (h j).1
      rw [if_neg hij, if_neg hij]
      refine ⟨_, rfl, (h.update hS' ?_).update hRHS' (holds_empty fun q _ => hnone q)⟩
      exact holds_congr (h j).2 fun q _ => by rw [hslots]
  | swap i j =>
    simp only [step, setStep]
    by_cases hij : i = j
    · subst hij
      rw [if_pos rfl, update_eq_self, update_eq_self]
      exact ⟨sets, rfl, h⟩
    · obtain ⟨hS', hslots, hRHS', hslots'⟩ := (h i).1.swap (h j).1
      rw [if_neg hij]
      refine ⟨_, rfl, (h.update hS' ?_).update hRHS' ?_⟩
      · exact holds_congr (h j).2 fun q _ => by rw [hslots]
      · exact holds_congr (h i).2 fun q _ => by rw [hslots']

/-! ## Runs -/

theorem run_refines (hmax : SmallSize ≤ 32) (ops : List (Op ι)) :
    ∀ {sets : ι → SmallPtrSet} {A : ι → Finset Ptr}, Good SmallSize sets A →
      (∀ op ∈ ops, op.Valid) → AllFit SmallSize sets ops →
      ∃ sets', run SmallSize sets ops = some (sets', (setRun A ops).2) ∧
        Good SmallSize sets' (setRun A ops).1 := by
  induction ops with
  | nil => exact fun h _ _ => ⟨_, rfl, h⟩
  | cons op ops ih =>
    intro sets A h hvalid hfit
    obtain ⟨sets₁, hstep, h₁⟩ :=
      step_refines h hmax op (hvalid op mem_cons_self) hfit.1
    have hfit₁ := hfit.2
    rw [hstep] at hfit₁
    obtain ⟨sets', hrun, h'⟩ := ih h₁ (fun o ho => hvalid o (mem_cons_of_mem op ho)) hfit₁
    refine ⟨sets', ?_, h'⟩
    show (step SmallSize sets op).bind _ = _
    rw [hstep, bind_some]
    simp only [hrun, map_some]
    rfl

theorem WellFormed.card_eq (h : WellFormed SmallSize S)
    (hmax : SmallSize ≤ 32) (hB : Holds S B) : B.card = S.size := by
  have hnodup : (S.slots.filter fun p => decide (Live p)).Nodup := by
    refine pairwise_filter.mpr (pairwise_iff_getElem.mpr ?_)
    intro i j hi hj hij hlive _ heq
    have hsame := h.distinct i j _ (getElem?_eq_getElem hi)
      (heq ▸ getElem?_eq_getElem hj) (of_decide_eq_true hlive)
    omega
  have hset : B = (S.slots.filter fun p => decide (Live p)).toFinset := by
    ext q
    rw [hB q, List.mem_toFinset, mem_filter, decide_eq_true_eq, and_comm]
  rw [hset, toFinset_card_of_nodup hnodup, h.size_eq hmax, ← countP_eq_length_filter]
  rfl

/-- What the client of a set relies on in every state: it holds the pointers of the set, its size
is their number, a hash table has an empty bucket, and every search ends. -/
structure Sound (S : SmallPtrSet) (B : Finset Ptr) : Prop where
  holds : Holds S B
  size : S.size = B.card
  vacant : S.isSmall = false → emptyMarker ∈ S.curArray
  find : S.isSmall = false → ∀ p, Live p → ∃ b, findBucketFor S p = some b

theorem WellFormed.sound (h : WellFormed SmallSize S)
    (hmax : SmallSize ≤ 32) (hB : Holds S B) : Sound S B := by
  refine ⟨hB, (h.card_eq hmax hB).symm, fun hbig => ?_, fun hbig p hp => ?_⟩
  · rcases h.array with hs | ⟨array, hb⟩
    · rw [hs.isSmall] at hbig
      cases hbig
    · obtain ⟨b, hmem, hb'⟩ := hb.probed.vacant
      rw [curArray_of_heap hb.heap]
      exact (show b = emptyMarker from hb') ▸ hmem
  · rcases h.array with hs | ⟨array, hb⟩
    · rw [hs.isSmall] at hbig
      cases hbig
    · rcases hb.find hp with ⟨i, heq, _⟩ | ⟨_, _, _, heq, _⟩
      · exact ⟨_, heq⟩
      · exact ⟨_, heq⟩

/-- In every run on new sets whose calls fit, the sets are finite sets of pointers. -/
theorem behaves_as_sets (hsize : ∃ n ≤ 5, SmallSize = 2 ^ n) (storage : ι → List Ptr)
    (hstorage : ∀ i, (storage i).length = SmallSize) (ops : List (Op ι))
    (hvalid : ∀ op ∈ ops, op.Valid)
    (hfit : AllFit SmallSize (fun i => construct (storage i)) ops) :
    ∃ sets, run SmallSize (fun i => construct (storage i)) ops =
        some (sets, (setRun (fun _ => ∅) ops).2) ∧
      ∀ i, Sound (sets i) ((setRun (fun _ => ∅) ops).1 i) := by
  obtain ⟨n, hn, rfl⟩ := hsize
  have hmax : 2 ^ n ≤ 32 := Nat.pow_le_pow_right (show 0 < 2 by decide) hn
  have hgood : Good (2 ^ n) (fun i => construct (storage i)) fun _ => ∅ := fun i => by
    have hsmall : Small (2 ^ n) (construct (storage i)) :=
      small_empty rfl (hstorage i) rfl rfl
    exact ⟨⟨hstorage i, .inl hsmall⟩, holds_empty fun q _ => hsmall.not_mem_slots rfl q⟩
  obtain ⟨sets, hrun, h⟩ := run_refines hmax ops hgood hvalid hfit
  exact ⟨sets, hrun, fun i => (h i).1.sound hmax (h i).2⟩

theorem behaves_as_sets_two :
    ∃ sets, run 2 (fun _ : Fin 2 => construct (malloc 2))
        [.insert 0 16, .insert 0 32, .insert 0 48, .copyAssign 1 0, .erase 0 32, .swap 0 1] =
        some (sets, (setRun (fun _ : Fin 2 => ∅)
          [.insert 0 16, .insert 0 32, .insert 0 48, .copyAssign 1 0, .erase 0 32, .swap 0 1]).2) ∧
      ∀ i, Sound (sets i) ((setRun (fun _ : Fin 2 => ∅)
        [.insert 0 16, .insert 0 32, .insert 0 48, .copyAssign 1 0, .erase 0 32, .swap 0 1]).1 i) :=
  behaves_as_sets ⟨1, by decide, rfl⟩ (fun _ => malloc 2) (fun _ => rfl) _ (by decide)
    (by decide +kernel)

/-- A set that becomes big and is cleared until its hash table has 32 buckets, and is copied to a
new set with an inline array of 32 pointers. -/
def copyOfShrunk : List (Op (Fin 2)) :=
  (List.range 33).map (fun k => .insert 0 (16 * k)) ++
    [.clear 0, .clear 0, .insert 0 80, .copyAssign 1 0, .count 1 80]

/-- The copy keeps the inline array, whose first element is not the pointer: the pointer is in
the set, but the count is 0. -/
theorem not_behaves_as_sets :
    ¬ ∃ sets, run 32 (fun _ : Fin 2 => construct (malloc 32)) copyOfShrunk =
      some (sets, (setRun (fun _ => ∅) copyOfShrunk).2) := by
  rintro ⟨sets, hrun⟩
  have hseen := congrArg (Option.map fun r => r.2.getLast?) hrun
  have hcount : (run 32 (fun _ : Fin 2 => construct (malloc 32)) copyOfShrunk).map
      (fun r => r.2.getLast?) = some (some (.counted 0)) := by
    decide +kernel
  have hset : (setRun (fun _ : Fin 2 => ∅) copyOfShrunk).2.getLast? = some (.counted 1) := by
    decide +kernel
  rw [hcount, map_some, hset] at hseen
  exact absurd hseen (by decide)

end Zapcc.ADT.SmallPtrSet
