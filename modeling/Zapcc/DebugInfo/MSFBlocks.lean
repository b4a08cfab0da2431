import Zapcc.DebugInfo.MSFBuilder

/-!
# Who owns a block

`Laid` says that the free blocks of a file are the ones that nobody owns and that are not reserved
for a free page map, and that nobody owns a block twice. Blocks can be released (`Laid.release`),
taken (`Laid.take`), and appended to the file (`Laid.grow`). `allocateBlocks_spec` takes as many
blocks as it is asked for.
-/

namespace Zapcc.MSF

open BitVector MathExtras Nat

/-- The block has the form of a free page map block. -/
def Reserved (BlockSize B : Nat) : Prop := B % BlockSize = 1 ∨ B % BlockSize = 2

instance (BlockSize B : Nat) : Decidable (Reserved BlockSize B) :=
  inferInstanceAs (Decidable (_ ∨ _))

/-- The owned blocks of a file are pairwise different and not reserved, and the blocks in use are
the owned and the reserved ones. -/
structure Laid (BlockSize : Nat) (FreeBlocks : List Bool) (owned : List Nat) : Prop where
  nodup : owned.Nodup
  lt : ∀ B ∈ owned, B < FreeBlocks.length
  notReserved : ∀ B ∈ owned, ¬ Reserved BlockSize B
  unset : ∀ B, Unset FreeBlocks B ↔ B ∈ owned ∨ (Reserved BlockSize B ∧ B < FreeBlocks.length)

variable {BlockSize : Nat} {FreeBlocks : List Bool} {owned owned' : List Nat}

theorem Laid.perm (h : Laid BlockSize FreeBlocks owned) (hperm : owned.Perm owned') :
    Laid BlockSize FreeBlocks owned' where
  nodup := hperm.nodup_iff.mp h.nodup
  lt := fun B hB => h.lt B (hperm.mem_iff.mpr hB)
  notReserved := fun B hB => h.notReserved B (hperm.mem_iff.mpr hB)
  unset := fun B => by rw [h.unset, hperm.mem_iff]

theorem Laid.release {removed : List Nat} (h : Laid BlockSize FreeBlocks (removed ++ owned)) :
    Laid BlockSize (setBits FreeBlocks removed true) owned := by
  obtain ⟨-, hnodup, hdisjoint⟩ := List.nodup_append.mp h.nodup
  refine ⟨hnodup, fun B hB => ?_, fun B hB => h.notReserved B (List.mem_append_right _ hB),
    fun B => ?_⟩
  · rw [length_setBits]
    exact h.lt B (List.mem_append_right _ hB)
  · rw [unset_setBits_true, h.unset, length_setBits, List.mem_append]
    constructor
    · rintro ⟨(hB | hB) | hB, hout⟩
      · exact absurd hB hout
      · exact .inl hB
      · exact .inr hB
    · rintro (hB | hB)
      · exact ⟨.inl (.inr hB), fun hin => hdisjoint B hin B hB rfl⟩
      · exact ⟨.inr hB, fun hin => h.notReserved B (List.mem_append_left _ hin) hB.1⟩

theorem Laid.take {added : List Nat} (h : Laid BlockSize FreeBlocks owned) (hnodup : added.Nodup)
    (hfree : ∀ B ∈ added, FreeBlocks[B]? = some true) :
    Laid BlockSize (setBits FreeBlocks added false) (added ++ owned) := by
  have hfree' : ∀ B ∈ added, B < FreeBlocks.length ∧ B ∉ owned ∧ ¬ Reserved BlockSize B := by
    intro B hB
    obtain ⟨hlt, hset⟩ := getElem?_eq_true_iff.mp (hfree B hB)
    rw [h.unset, not_or] at hset
    exact ⟨hlt, hset.1, fun hres => hset.2 ⟨hres, hlt⟩⟩
  refine ⟨List.nodup_append.mpr ⟨hnodup, h.nodup, ?_⟩, fun B hB => ?_, fun B hB => ?_, fun B => ?_⟩
  · rintro B hB C hC rfl
    exact (hfree' B hB).2.1 hC
  · rw [length_setBits]
    rcases List.mem_append.mp hB with hB | hB
    · exact (hfree' B hB).1
    · exact h.lt B hB
  · rcases List.mem_append.mp hB with hB | hB
    · exact (hfree' B hB).2.2
    · exact h.notReserved B hB
  · rw [unset_setBits_false fun B hB => (hfree' B hB).1, h.unset, length_setBits, List.mem_append]
    constructor
    · rintro ((hB | hB) | hB)
      · exact .inl (.inr hB)
      · exact .inr hB
      · exact .inl (.inl hB)
    · rintro ((hB | hB) | hB)
      · exact .inr hB
      · exact .inl (.inl hB)
      · exact .inl (.inr hB)

theorem Laid.grow (h : Laid BlockSize FreeBlocks owned) {N : Nat} (hN : FreeBlocks.length ≤ N)
    (hfree : ∀ B, FreeBlocks.length ≤ B → B < N → ¬ Reserved BlockSize B) :
    Laid BlockSize (resize FreeBlocks N true) owned := by
  refine ⟨h.nodup, fun B hB => ?_, h.notReserved, fun B => ?_⟩
  · rw [length_resize]
    exact (h.lt B hB).trans_le hN
  · rw [unset_resize hN, h.unset, length_resize]
    refine or_congr Iff.rfl
      (and_congr_right fun hres => ⟨fun hlt => hlt.trans_le hN, fun hlt => ?_⟩)
    by_contra hge
    exact hfree B (not_lt.mp hge) hlt hres

theorem reserved_iff {Next B : Nat} (hsize : 3 ≤ BlockSize) (hNext : Next % BlockSize = 1)
    (hle : Next ≤ B) (hlt : B < Next + BlockSize) :
    Reserved BlockSize B ↔ B = Next ∨ B = Next + 1 := by
  obtain ⟨d, rfl⟩ := Nat.exists_eq_add_of_le hle
  have hmod : (Next + d) % BlockSize = (1 + d) % BlockSize := by
    rw [add_mod, hNext, add_mod_mod]
  unfold Reserved
  rw [hmod]
  by_cases hd : 1 + d < BlockSize
  · rw [mod_eq_of_lt hd]
    omega
  · have heq : 1 + d = BlockSize := by omega
    rw [heq, mod_self]
    omega

theorem not_reserved_before {Next B : Nat} (hsize : 3 ≤ BlockSize) (hNext : Next % BlockSize = 1)
    (hle : Next + 2 ≤ B + BlockSize) (hlt : B < Next) : ¬ Reserved BlockSize B := by
  have hmod : Reserved BlockSize (B + BlockSize) ↔ Reserved BlockSize B := by
    unfold Reserved
    rw [add_mod_right]
  rw [← hmod, reserved_iff hsize hNext (by omega) (by omega)]
  omega

/-- What reserving the blocks of the free page maps leaves. -/
structure Reserves (BlockSize : Nat) (FreeBlocks FreeBlocks' : List Bool) (owned : List Nat) :
    Prop where
  unset : ∀ B, Unset FreeBlocks' B ↔ B ∈ owned ∨ (Reserved BlockSize B ∧ B < FreeBlocks'.length)
  count : count FreeBlocks' = count FreeBlocks
  length : FreeBlocks.length ≤ FreeBlocks'.length
  pair : FreeBlocks'.length % BlockSize ≠ 2

theorem reserve_step {Next : Nat} (hlt : Next < FreeBlocks.length)
    (hfree : FreeBlocks[Next]? = some true)
    (hfree' : Next + 1 < FreeBlocks.length → FreeBlocks[Next + 1]? = some true) :
    (∀ B, Unset (reset (resize FreeBlocks (FreeBlocks.length + 2) true) Next (Next + 2)) B ↔
        Unset FreeBlocks B ∨ B = Next ∨ B = Next + 1) ∧
      count (reset (resize FreeBlocks (FreeBlocks.length + 2) true) Next (Next + 2)) =
        count FreeBlocks ∧
      (reset (resize FreeBlocks (FreeBlocks.length + 2) true) Next (Next + 2)).length =
        FreeBlocks.length + 2 := by
  have hrange : List.range' Next (Next + 2 - Next) = [Next, Next + 1] := by
    rw [Nat.add_sub_cancel_left]
    rfl
  have hle : FreeBlocks.length ≤ FreeBlocks.length + 2 := Nat.le_add_right _ _
  have hlength : (resize FreeBlocks (FreeBlocks.length + 2) true).length =
      FreeBlocks.length + 2 := length_resize _ _
  unfold reset
  rw [hrange]
  refine ⟨fun B => ?_, ?_, ?_⟩
  · rw [unset_setBits_false (by simp [hlength]; omega), unset_resize hle]
    simp
  · have hset : ∀ B, B < FreeBlocks.length + 2 → ¬ Unset FreeBlocks B →
        (resize FreeBlocks (FreeBlocks.length + 2) true)[B]? = some true := fun B hB hunset =>
      getElem?_eq_true_iff.mpr ⟨by rw [hlength]; exact hB, by rwa [unset_resize hle]⟩
    have hfirst := hset Next (by omega) (getElem?_eq_true_iff.mp hfree).2
    have hsecond := hset (Next + 1) (by omega) fun hunset => by
      exact (getElem?_eq_true_iff.mp (hfree' hunset.lt)).2 hunset
    have hsecond' : ((resize FreeBlocks (FreeBlocks.length + 2) true).set Next false)[Next + 1]? =
        some true := by
      rw [List.getElem?_set_ne (by omega)]
      exact hsecond
    have hcount := count_set_false hfirst
    have hcount' := count_set_false hsecond'
    have hresize := count_resize hle
    show count (((resize FreeBlocks (FreeBlocks.length + 2) true).set Next false).set
      (Next + 1) false) = count FreeBlocks
    omega
  · rw [length_setBits, hlength]

theorem reserves_self (hsize : 3 ≤ BlockSize) {Next : Nat} (hNext : Next % BlockSize = 1)
    (hlow : Next + 2 ≤ FreeBlocks.length + BlockSize) (hle : FreeBlocks.length ≤ Next)
    (hunset : ∀ B, Unset FreeBlocks B ↔
      B ∈ owned ∨ (Reserved BlockSize B ∧ B < Next ∧ B < FreeBlocks.length)) :
    Reserves BlockSize FreeBlocks FreeBlocks owned := by
  refine ⟨fun B => (hunset B).trans (or_congr Iff.rfl (and_congr_right fun _ =>
    ⟨And.right, fun hB => ⟨by omega, hB⟩⟩)), rfl, le_rfl, fun htwo => ?_⟩
  by_cases heq : FreeBlocks.length = Next
  · rw [heq] at htwo
    omega
  · exact not_reserved_before hsize hNext hlow (by omega) (.inr htwo)

theorem reserveFpm_spec (hsize : 3 ≤ BlockSize) {fuel Next : Nat} (hNext : Next % BlockSize = 1)
    (hfuel : FreeBlocks.length ≤ Next + fuel) (hlow : Next + 2 ≤ FreeBlocks.length + BlockSize)
    (hlt : ∀ B ∈ owned, B < Next)
    (hunset : ∀ B, Unset FreeBlocks B ↔
      B ∈ owned ∨ (Reserved BlockSize B ∧ B < Next ∧ B < FreeBlocks.length)) :
    Reserves BlockSize FreeBlocks (reserveFpm BlockSize fuel Next FreeBlocks) owned := by
  induction fuel generalizing Next FreeBlocks with
  | zero => exact reserves_self hsize hNext hlow hfuel hunset
  | succ fuel ih =>
    rw [reserveFpm]
    by_cases hnext : Next < FreeBlocks.length
    · have hset : ∀ B, Next ≤ B → B < FreeBlocks.length → FreeBlocks[B]? = some true := by
        intro B hle hB
        refine getElem?_eq_true_iff.mpr ⟨hB, fun hB' => ?_⟩
        rcases (hunset B).mp hB' with hown | ⟨-, hres, -⟩
        · exact absurd (hlt B hown) (not_lt.mpr hle)
        · omega
      obtain ⟨hstep, hcount, hlength⟩ := reserve_step hnext (hset Next le_rfl hnext)
        (hset (Next + 1) (le_succ _))
      rw [if_pos hnext]
      generalize reset (resize FreeBlocks (FreeBlocks.length + 2) true) Next (Next + 2) =
        FreeBlocks' at hstep hcount hlength
      have hNext' : (Next + BlockSize) % BlockSize = 1 := by rw [add_mod_right, hNext]
      have hunset' : ∀ B, Unset FreeBlocks' B ↔ B ∈ owned ∨
          (Reserved BlockSize B ∧ B < Next + BlockSize ∧ B < FreeBlocks'.length) := by
        intro B
        rw [hstep, hunset, hlength, or_assoc]
        refine or_congr Iff.rfl ?_
        by_cases hB : B < Next
        · have hne : ¬ (B = Next ∨ B = Next + 1) := by omega
          simp only [hne, or_false]
          exact and_congr_right fun _ => by omega
        · by_cases hB' : B < Next + BlockSize
          · rw [reserved_iff hsize hNext (not_lt.mp hB) hB']
            omega
          · omega
      have hrec : Reserves BlockSize FreeBlocks'
          (reserveFpm BlockSize fuel (Next + BlockSize) FreeBlocks') owned :=
        ih hNext' (by omega) (by omega)
          (fun B hB => (hlt B hB).trans_le (Nat.le_add_right _ _)) hunset'
      have hmono := hrec.length
      exact ⟨hrec.unset, hrec.count.trans hcount, by omega, hrec.pair⟩
    · rw [if_neg hnext]
      exact reserves_self hsize hNext hlow (not_lt.mp hnext) hunset

theorem alignTo_next (hsize : 3 ≤ BlockSize) {n : Nat} (hone : n % BlockSize ≠ 1)
    (htwo : n % BlockSize ≠ 2) :
    (alignTo n BlockSize + 1) % BlockSize = 1 ∧ n ≤ alignTo n BlockSize ∧
      alignTo n BlockSize + 3 ≤ n + BlockSize := by
  have hle := le_alignTo (show 0 < BlockSize by omega) n
  refine ⟨?_, hle, ?_⟩
  · rw [add_mod, mod_eq_zero_of_dvd (dvd_alignTo n BlockSize), Nat.zero_add,
      mod_mod, mod_eq_of_lt (by omega)]
  · have hupper : alignTo n BlockSize ≤ n + BlockSize - 1 := div_mul_le_self _ _
    obtain ⟨k, hk⟩ := dvd_alignTo n BlockSize
    by_contra hnot
    have hpos : k ≠ 0 := by
      rintro rfl
      omega
    obtain ⟨j, rfl⟩ := exists_eq_succ_of_ne_zero hpos
    rw [mul_succ] at hk
    have hcases : n = BlockSize * j + 1 ∨ n = BlockSize * j + 2 := by omega
    rcases hcases with heq | heq
    · refine hone ?_
      rw [heq, mul_add_mod, mod_eq_of_lt (by omega)]
    · refine htwo ?_
      rw [heq, mul_add_mod, mod_eq_of_lt (by omega)]

theorem growFile_spec (hsize : 3 ≤ BlockSize) (h : Laid BlockSize FreeBlocks owned)
    (hone : FreeBlocks.length % BlockSize ≠ 1) (htwo : FreeBlocks.length % BlockSize ≠ 2)
    {NumBlocks : Nat} (hcount : count FreeBlocks < NumBlocks) :
    Laid BlockSize (growFile BlockSize NumBlocks FreeBlocks) owned ∧
      count (growFile BlockSize NumBlocks FreeBlocks) = NumBlocks ∧
      (growFile BlockSize NumBlocks FreeBlocks).length % BlockSize ≠ 2 := by
  obtain ⟨hNext, hle, hlow⟩ := alignTo_next hsize hone htwo
  have hmore : FreeBlocks.length ≤ NumBlocks - count FreeBlocks + FreeBlocks.length :=
    Nat.le_add_left _ _
  have hlength :
      (resize FreeBlocks (NumBlocks - count FreeBlocks + FreeBlocks.length) true).length =
        NumBlocks - count FreeBlocks + FreeBlocks.length := length_resize _ _
  have hfree := count_resize hmore
  have hunset : ∀ B, Unset (resize FreeBlocks
      (NumBlocks - count FreeBlocks + FreeBlocks.length) true) B ↔ B ∈ owned ∨
        (Reserved BlockSize B ∧ B < alignTo FreeBlocks.length BlockSize + 1 ∧ B < (resize FreeBlocks
            (NumBlocks - count FreeBlocks + FreeBlocks.length) true).length) := by
    intro B
    rw [unset_resize hmore, h.unset, hlength]
    refine or_congr Iff.rfl (and_congr_right fun hres => ⟨fun hB => by omega, fun hB => ?_⟩)
    by_contra hge
    exact not_reserved_before hsize hNext (by omega) hB.1 hres
  have hreserves : Reserves BlockSize _ (growFile BlockSize NumBlocks FreeBlocks) owned :=
    reserveFpm_spec hsize hNext (by rw [hlength]; omega) (by rw [hlength]; omega)
      (fun B hB => by
        have hlt := h.lt B hB
        omega) hunset
  have hlonger := hreserves.length
  refine ⟨⟨h.nodup, fun B hB => ?_, h.notReserved, hreserves.unset⟩, ?_, hreserves.pair⟩
  · have hlt := h.lt B hB
    omega
  · rw [hreserves.count]
    omega

theorem takeBlocks_spec (NumBlocks Begin : Nat) (FreeBlocks : List Bool)
    (h : NumBlocks ≤ count (FreeBlocks.drop Begin)) :
    ∃ taken, takeBlocks NumBlocks (find_first_in FreeBlocks Begin) FreeBlocks =
        some (taken, setBits FreeBlocks taken false) ∧ taken.length = NumBlocks ∧
      taken.Nodup ∧ ∀ B ∈ taken, Begin ≤ B ∧ FreeBlocks[B]? = some true := by
  induction NumBlocks generalizing Begin FreeBlocks with
  | zero => exact ⟨[], rfl, rfl, List.nodup_nil, fun B hB => absurd hB List.not_mem_nil⟩
  | succ NumBlocks ih =>
    obtain ⟨I, hfind, hle, hset, hcount⟩ := find_first_in_spec (lt_of_lt_of_le (succ_pos _) h)
    have hdrop : (FreeBlocks.set I false).drop (I + 1) = FreeBlocks.drop (I + 1) :=
      List.drop_set_of_lt (lt_succ_self I)
    obtain ⟨taken, htake, hlength, hnodup, hall⟩ :=
      ih (I + 1) (FreeBlocks.set I false) (by rw [hdrop]; omega)
    have hbehind : ∀ B ∈ taken, I < B := fun B hB => (hall B hB).1
    refine ⟨I :: taken, ?_, by rw [List.length_cons, hlength],
      List.nodup_cons.mpr ⟨fun hmem => lt_irrefl I (hbehind I hmem), hnodup⟩, fun B hB => ?_⟩
    · rw [hfind, takeBlocks, find_next, htake]
      rfl
    · rcases List.mem_cons.mp hB with heq | hB
      · rw [heq]
        exact ⟨hle, hset⟩
      · obtain ⟨hbegin, hfree⟩ := hall B hB
        rw [List.getElem?_set_ne (hbehind B hB).ne] at hfree
        exact ⟨by omega, hfree⟩

/-- What `allocateBlocks` does: on an error nothing changes, and otherwise free blocks are taken. -/
structure Allocates (b : MSFBuilder) (owned : List Nat) (NumBlocks : Nat)
    (r : MSFBuilder × Except MSFError (List Nat)) : Prop where
  error : ∀ EC, r.2 = .error EC → r.1 = b
  same : r.1 = { b with FreeBlocks := r.1.FreeBlocks }
  length : ∀ Blocks, r.2 = .ok Blocks → Blocks.length = NumBlocks
  laid : ∀ Blocks, r.2 = .ok Blocks → Laid b.BlockSize r.1.FreeBlocks (Blocks ++ owned)
  pair : r.1.FreeBlocks.length % b.BlockSize ≠ 2

/-- When so many blocks are asked for that the file grows, it does not end in front of a pair of
reserved blocks or between them. -/
def MSFBuilder.GrowsWell (b : MSFBuilder) (NumBlocks : Nat) : Prop :=
  b.IsGrowable = true → b.getNumFreeBlocks < NumBlocks → b.FreeBlocks.length % b.BlockSize ≠ 1

theorem allocateBlocks_spec {b : MSFBuilder} (hsize : 3 ≤ b.BlockSize)
    (h : Laid b.BlockSize b.FreeBlocks owned) (hpair : b.FreeBlocks.length % b.BlockSize ≠ 2)
    {NumBlocks : Nat} (hgrows : b.GrowsWell NumBlocks) :
    ∃ r, b.allocateBlocks NumBlocks = some r ∧ Allocates b owned NumBlocks r := by
  unfold MSFBuilder.allocateBlocks
  by_cases hzero : NumBlocks = 0
  · refine ⟨_, if_pos hzero, by simp, rfl, ?_, ?_, hpair⟩
    · intro Blocks hBlocks
      rw [← Except.ok.inj hBlocks, hzero]
      rfl
    · intro Blocks hBlocks
      rw [← Except.ok.inj hBlocks]
      exact h
  rw [if_neg hzero]
  by_cases herror : b.getNumFreeBlocks < NumBlocks ∧ b.IsGrowable = false
  · exact ⟨_, if_pos herror, fun _ _ => rfl, rfl, by simp, by simp, hpair⟩
  rw [if_neg herror]
  obtain ⟨hlaid, hcount, hpair'⟩ : ∃ hlaid : Laid b.BlockSize (if b.getNumFreeBlocks < NumBlocks
      then growFile b.BlockSize NumBlocks b.FreeBlocks else b.FreeBlocks) owned,
      NumBlocks ≤ count (if b.getNumFreeBlocks < NumBlocks
        then growFile b.BlockSize NumBlocks b.FreeBlocks else b.FreeBlocks) ∧
      (if b.getNumFreeBlocks < NumBlocks
        then growFile b.BlockSize NumBlocks b.FreeBlocks else b.FreeBlocks).length %
          b.BlockSize ≠ 2 := by
    by_cases hless : b.getNumFreeBlocks < NumBlocks
    · have hgrowable : b.IsGrowable = true := by
        by_contra hnot
        exact herror ⟨hless, by simpa using hnot⟩
      obtain ⟨hlaid, hcount, hpair'⟩ := growFile_spec hsize h (hgrows hgrowable hless) hpair hless
      rw [if_pos hless]
      exact ⟨hlaid, hcount.ge, hpair'⟩
    · rw [if_neg hless]
      exact ⟨h, not_lt.mp hless, hpair⟩
  generalize (if b.getNumFreeBlocks < NumBlocks then growFile b.BlockSize NumBlocks b.FreeBlocks
    else b.FreeBlocks) = FreeBlocks at hlaid hcount hpair'
  obtain ⟨taken, htake, hlength, hnodup, hfree⟩ := takeBlocks_spec NumBlocks 0 FreeBlocks hcount
  refine ⟨({ b with FreeBlocks := setBits FreeBlocks taken false }, .ok taken), ?_, by simp, rfl,
    ?_, ?_, ?_⟩
  · show (takeBlocks NumBlocks (find_first_in FreeBlocks 0) FreeBlocks).map _ = _
    rw [htake]
    rfl
  · intro Blocks hBlocks
    rw [← Except.ok.inj hBlocks]
    exact hlength
  · intro Blocks hBlocks
    rw [← Except.ok.inj hBlocks]
    exact hlaid.take hnodup fun B hB => (hfree B hB).2
  · rw [length_setBits]
    exact hpair'

end Zapcc.MSF
