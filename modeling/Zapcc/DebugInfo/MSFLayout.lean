import Zapcc.DebugInfo.MSFCalls

/-!
# The layout of a file

`build` gives the directory its blocks and marks the blocks of the free page maps that are not in
use as free. `build_spec` says that the layout of a sound builder marks just the blocks with an
owner and the free page map blocks in use. `layout_shares_no_block` says it for every run of
allowed calls on a new builder.
-/

namespace Zapcc.MSF

open BitVector MathExtras List Nat

def MSFLayout.owners (L : MSFLayout) : List Nat :=
  kSuperBlockBlock :: L.SB.BlockMapAddr :: (L.DirectoryBlocks ++ L.StreamMap.flatten)

/-- No block of a layout is shared, and the free page map marks just the blocks in use. -/
structure MSFLayout.Correct (L : MSFLayout) : Prop where
  nodup : L.owners.Nodup
  notReserved : ∀ B ∈ L.owners, ¬ Reserved L.SB.BlockSize B
  used : ∀ B, Unset L.FreePageMap B ↔ B ∈ L.owners ∨ B ∈ (getFpmStreamLayout L.SB true false).Blocks

variable {BlockSize NumBlocks : Nat} {owned : List Nat}

/-- Between the iterations: the blocks from `B` on are as before, and in front of it only the first
block of each pair is in use. -/
structure FpmAt (BlockSize NumBlocks : Nat) (owned : List Nat) (B : Nat) (Fpm : List Bool) :
    Prop where
  length : Fpm.length = NumBlocks
  unset : ∀ X, Unset Fpm X ↔ X ∈ owned ∨
    (X < NumBlocks ∧ (X % BlockSize = 1 ∨ (X % BlockSize = 2 ∧ B ≤ X)))

theorem finalizeFpm_spec (hsize : 3 ≤ BlockSize) (hpair : NumBlocks % BlockSize ≠ 2)
    (hreserved : ∀ B ∈ owned, ¬ Reserved BlockSize B) (fuel k n : Nat) {Fpm : List Bool}
    (hfuel : NumBlocks ≤ 1 + k * BlockSize + fuel)
    (hn : ∀ j, k ≤ j → (1 + j * BlockSize < NumBlocks ↔ j < k + n))
    (h : FpmAt BlockSize NumBlocks owned (1 + k * BlockSize) Fpm) :
    ∃ Fpm', finalizeFpm BlockSize NumBlocks fuel (1 + k * BlockSize)
        ((range' k n).map fun I => 1 + I * BlockSize) Fpm = some Fpm' ∧
      Fpm'.length = NumBlocks ∧
      ∀ X, Unset Fpm' X ↔ X ∈ owned ∨ (X < NumBlocks ∧ X % BlockSize = 1) := by
  have hmod : ∀ k, (1 + k * BlockSize) % BlockSize = 1 := by
    intro k
    rw [add_mul_mod_self_right, mod_eq_of_lt (by omega)]
  have hend : ∀ {k : Nat} {Fpm : List Bool}, NumBlocks ≤ 1 + k * BlockSize →
      FpmAt BlockSize NumBlocks owned (1 + k * BlockSize) Fpm → Fpm.length = NumBlocks ∧
        ∀ X, Unset Fpm X ↔ X ∈ owned ∨ (X < NumBlocks ∧ X % BlockSize = 1) := by
    intro k Fpm hle h
    refine ⟨h.length, fun X => (h.unset X).trans (or_congr Iff.rfl (and_congr_right fun hX => ?_))⟩
    exact or_iff_left fun hcontra => by omega
  induction fuel generalizing k n Fpm with
  | zero => exact ⟨Fpm, rfl, hend hfuel h⟩
  | succ fuel ih =>
    rw [finalizeFpm]
    by_cases hlt : 1 + k * BlockSize < NumBlocks
    · rw [if_pos hlt]
      obtain ⟨m, rfl⟩ := exists_eq_succ_of_ne_zero (n := n) (by
        have := (hn k le_rfl).mp hlt
        omega)
      have htwo : (1 + k * BlockSize + 1) % BlockSize = 2 := by
        rw [add_mod, hmod, mod_eq_of_lt (show 1 < BlockSize by omega), mod_eq_of_lt (by omega)]
      have hlast : 1 + k * BlockSize + 1 < NumBlocks := by
        by_contra hge
        have heq : NumBlocks = 1 + k * BlockSize + 1 := by omega
        rw [heq] at hpair
        exact hpair htwo
      have hnext : 1 + k * BlockSize + BlockSize = 1 + (k + 1) * BlockSize := by
        rw [succ_mul, Nat.add_assoc]
      -- the first block of the pair is the next one in use
      have hfirst : finalizeFpmBlockStatus (1 + k * BlockSize)
          ((range' k (m + 1)).map fun I => 1 + I * BlockSize) Fpm =
            some ((range' (k + 1) m).map fun I => 1 + I * BlockSize, Fpm) := by
        have hunset : Unset Fpm (1 + k * BlockSize) :=
          (h.unset _).mpr (.inr ⟨hlt, .inl (hmod k)⟩)
        simp [finalizeFpmBlockStatus, range'_succ, hunset]
      -- and the second one is not
      have hsecond : finalizeFpmBlockStatus (1 + k * BlockSize + 1)
          ((range' (k + 1) m).map fun I => 1 + I * BlockSize) Fpm =
            some ((range' (k + 1) m).map fun I => 1 + I * BlockSize,
              Fpm.set (1 + k * BlockSize + 1) true) := by
        have hhead : ((range' (k + 1) m).map fun I => 1 + I * BlockSize).head? ≠
            some (1 + k * BlockSize + 1) := by
          cases m with
          | zero => simp
          | succ m =>
            rw [range'_succ, map_cons, head?_cons, ← hnext]
            intro heq
            have hvalue := Option.some_inj.mp heq
            omega
        rw [finalizeFpmBlockStatus, if_pos hhead, if_pos (by rw [h.length]; exact hlast)]
      have hat : FpmAt BlockSize NumBlocks owned (1 + (k + 1) * BlockSize)
          (Fpm.set (1 + k * BlockSize + 1) true) := by
        refine ⟨by rw [length_set, h.length], fun X => ?_⟩
        rw [unset_set_true, h.unset, ← hnext]
        constructor
        · intro hX
          obtain ⟨hX | ⟨hX, hone | ⟨hXtwo, hle⟩⟩, hne⟩ := hX
          · exact .inl hX
          · exact .inr ⟨hX, .inl hone⟩
          · refine .inr ⟨hX, .inr ⟨hXtwo, ?_⟩⟩
            by_contra hless
            rcases (reserved_iff hsize (hmod k) hle (not_le.mp hless)).mp (.inr hXtwo) with
              heq | heq
            · rw [heq, hmod] at hXtwo
              omega
            · exact hne heq
        · intro hX
          rcases hX with hX | ⟨hX, hone | ⟨hXtwo, hle⟩⟩
          · exact ⟨.inl hX, fun heq => hreserved X hX (.inr (heq ▸ htwo))⟩
          · exact ⟨.inr ⟨hX, .inl hone⟩, fun heq => by rw [heq, htwo] at hone; omega⟩
          · exact ⟨.inr ⟨hX, .inr ⟨hXtwo, by omega⟩⟩, by omega⟩
      rw [hfirst, Option.bind_some, hsecond, Option.bind_some, hnext]
      refine ih (k + 1) m (by omega) (fun j hj => ?_) hat
      rw [hn j (by omega)]
      omega
    · rw [if_neg hlt]
      exact ⟨Fpm, rfl, hend (not_lt.mp hlt) h⟩

theorem lt_divideCeil_iff (hsize : 3 ≤ BlockSize) {NumBlocks : Nat} (hpos : 1 ≤ NumBlocks)
    (j : Nat) : 1 + j * BlockSize < NumBlocks ↔ j < divideCeil (NumBlocks - 1) BlockSize := by
  have hpositive : 0 < BlockSize := by omega
  unfold divideCeil alignTo
  rw [Nat.mul_div_cancel _ hpositive, lt_iff_add_one_le, lt_iff_add_one_le,
    Nat.le_div_iff_mul_le hpositive, succ_mul]
  omega

theorem mem_fpmBlocks (hsize : 3 ≤ BlockSize) {SB : SuperBlock}
    (hBlockSize : SB.BlockSize = BlockSize) (hfpm : SB.FreeBlockMapBlock = kFreePageMap0Block)
    (hpos : 1 ≤ SB.NumBlocks) {B : Nat} :
    B ∈ (getFpmStreamLayout SB true false).Blocks ↔ B < SB.NumBlocks ∧ B % BlockSize = 1 := by
  subst hBlockSize
  simp only [getFpmStreamLayout, getNumFpmIntervals, hfpm, kFreePageMap0Block, mem_map,
    mem_range, if_true, Bool.false_eq_true, if_false]
  constructor
  · intro h
    obtain ⟨I, hI, heq⟩ := h
    have hlt := (lt_divideCeil_iff hsize hpos I).mpr hI
    rw [← heq]
    exact ⟨hlt, by rw [add_mul_mod_self_right, mod_eq_of_lt (by omega)]⟩
  · intro h
    have hdiv := div_add_mod B SB.BlockSize
    rw [h.2, Nat.mul_comm, Nat.add_comm] at hdiv
    exact ⟨B / SB.BlockSize, (lt_divideCeil_iff hsize hpos _).mp (hdiv.symm ▸ h.1), hdiv⟩

namespace MSFBuilder

variable {b : MSFBuilder}

theorem layoutOf_spec (h : b.Sound) (NumDirectoryBytes : Nat) :
    ∃ b' L, b.layoutOf NumDirectoryBytes = some (b', L) ∧ L.Correct := by
  have hsize := h.three_le
  have hpos : 1 ≤ b.FreeBlocks.length := h.laid.lt kSuperBlockBlock mem_cons_self
  have hat : FpmAt b.BlockSize b.FreeBlocks.length b.owners (1 + 0 * b.BlockSize) b.FreeBlocks := by
    refine ⟨rfl, fun X => (h.laid.unset X).trans (or_congr Iff.rfl ?_)⟩
    have hzero : X % b.BlockSize = 2 → 1 ≤ X := by
      have hle := mod_le X b.BlockSize
      omega
    constructor
    · intro hX
      exact ⟨hX.2, hX.1.imp_right fun htwo => ⟨htwo, by rw [Nat.zero_mul]; exact hzero htwo⟩⟩
    · intro hX
      exact ⟨hX.2.imp_right And.left, hX.1⟩
  obtain ⟨Fpm, hfinalize, -, hunset⟩ := finalizeFpm_spec hsize h.pair h.laid.notReserved
    b.FreeBlocks.length 0 (divideCeil (b.FreeBlocks.length - 1) b.BlockSize) (by omega)
    (fun j _ => by rw [Nat.zero_add]; exact lt_divideCeil_iff hsize hpos j) hat
  unfold layoutOf
  have hblocks : ∀ SB : SuperBlock, SB.BlockSize = b.BlockSize →
      SB.FreeBlockMapBlock = b.FreePageMap → SB.NumBlocks = b.FreeBlocks.length →
      (getFpmStreamLayout SB true false).Blocks =
        (range' 0 (divideCeil (b.FreeBlocks.length - 1) b.BlockSize)).map
          fun I => 1 + I * b.BlockSize := by
    intro SB hBlockSize hfpm hNumBlocks
    rw [h.freePageMap] at hfpm
    simp [getFpmStreamLayout, getNumFpmIntervals, hBlockSize, hfpm, hNumBlocks,
      kFreePageMap0Block, range_eq_range']
  simp only [h.freePageMap, kFreePageMap0Block, true_or, if_true]
  rw [show 1 + 0 * b.BlockSize = 1 by rw [Nat.zero_mul]] at hfinalize
  rw [hblocks _ rfl h.freePageMap.symm rfl, hfinalize]
  refine ⟨_, _, rfl, ?_, ?_, fun B => ?_⟩
  · exact h.laid.nodup
  · exact h.laid.notReserved
  · rw [mem_fpmBlocks hsize rfl rfl hpos]
    exact hunset B

/-- The directory needs all blocks of the hint, and the file grows well for the ones that it needs
more. -/
def BuildAllowed (b : MSFBuilder) : Prop :=
  ∀ NumDirectoryBytes ∈ b.computeDirectoryByteSize,
    b.DirectoryBlocks.length ≤ bytesToBlocks NumDirectoryBytes b.BlockSize ∧
      b.GrowsWell (bytesToBlocks NumDirectoryBytes b.BlockSize - b.DirectoryBlocks.length)

theorem placeDirectory_spec (h : b.Sound) {NumDirectoryBlocks : Nat}
    (hle : b.DirectoryBlocks.length ≤ NumDirectoryBlocks)
    (hgrows : b.GrowsWell (NumDirectoryBlocks - b.DirectoryBlocks.length)) :
    ∃ r, b.placeDirectory NumDirectoryBlocks = some r ∧ b.Keeps r := by
  unfold placeDirectory
  by_cases hmore : b.DirectoryBlocks.length < NumDirectoryBlocks
  · rw [if_pos hmore]
    obtain ⟨⟨b', result⟩, halloc, hspec⟩ := allocateBlocks_spec h.three_le h.laid h.pair hgrows
    rw [halloc]
    cases result with
    | error EC =>
      have hsame : b' = b := hspec.error EC rfl
      rw [hsame]
      exact ⟨_, rfl, h, fun _ _ => rfl⟩
    | ok ExtraBlocks =>
      have hsame : b' = { b with FreeBlocks := b'.FreeBlocks } := hspec.same
      refine ⟨_, rfl, ?_, by simp⟩
      rw [hsame]
      refine ⟨h.size, h.freePageMap, (hspec.laid _ rfl).perm ?_, hspec.pair, h.streams⟩
      refine perm_middle.trans (Perm.cons _ (perm_middle.trans (Perm.cons _ ?_)))
      rw [append_assoc]
      exact perm_append_comm_assoc _ _ _
  · rw [if_neg hmore, if_neg (by omega)]
    exact ⟨_, rfl, h.keeps_self _⟩

theorem build_spec (h : b.Sound) (hallowed : b.BuildAllowed) :
    ∃ b' result, b.build = some (b', result) ∧ (∀ EC, result = .error EC → b' = b) ∧
      ∀ L, result = .ok L → L.Correct := by
  unfold build
  obtain ⟨NumDirectoryBytes, hbytes⟩ : ∃ n, b.computeDirectoryByteSize = some n :=
    ⟨_, if_pos h.streams⟩
  obtain ⟨hle, hgrows⟩ := hallowed _ hbytes
  obtain ⟨⟨b', result⟩, hplace, hkeeps⟩ := placeDirectory_spec h hle hgrows
  rw [hbytes, Option.bind_some, hplace, Option.bind_some]
  cases result with
  | error EC =>
    exact ⟨b', _, rfl, fun _ _ => hkeeps.2 EC rfl, by simp⟩
  | ok value =>
    obtain ⟨b'', L, hlayout, hcorrect⟩ := layoutOf_spec hkeeps.1 NumDirectoryBytes
    refine ⟨b'', .ok L, ?_, by simp, fun L' hL' => ?_⟩
    · rw [hlayout]
      rfl
    · rw [← Except.ok.inj hL']
      exact hcorrect

/-- Perform calls, one after the other; errors are passed over. -/
def run (b : MSFBuilder) : List Call → Option MSFBuilder
  | [] => some b
  | c :: calls => (b.step c).bind fun r => run r.1 calls

/-- Each call of a run is allowed where it is made. -/
def AllAllowed (b : MSFBuilder) : List Call → Prop
  | [] => True
  | c :: calls => b.Allowed c ∧ ∀ r, b.step c = some r → AllAllowed r.1 calls

theorem run_spec (h : b.Sound) {calls : List Call} (hallowed : b.AllAllowed calls) :
    ∃ b', b.run calls = some b' ∧ b'.Sound := by
  induction calls generalizing b with
  | nil => exact ⟨b, rfl, h⟩
  | cons c calls ih =>
    obtain ⟨b', e, hstep, hsound, -⟩ := step_spec h hallowed.1
    obtain ⟨b'', hrun, hsound'⟩ := ih hsound (hallowed.2 _ hstep)
    refine ⟨b'', ?_, hsound'⟩
    rw [run, hstep]
    exact hrun

theorem newBuilder_sound {BlockSize MinBlockCount : Nat} (hsize : isValidBlockSize BlockSize)
    (hfour : 4 ≤ MinBlockCount) (hmin : MinBlockCount ≤ BlockSize + 1) (CanGrow : Bool) :
    (newBuilder BlockSize MinBlockCount CanGrow).Sound := by
  have hunset : ∀ B, Unset (newBuilder BlockSize MinBlockCount CanGrow).FreeBlocks B ↔
      B = 0 ∨ B = 1 ∨ B = 2 ∨ B = 3 := by
    intro B
    have hreplicate : ¬ Unset (replicate MinBlockCount true) B := by
      unfold Unset
      rw [getElem?_replicate]
      split <;> simp
    show Unset (setBits (replicate MinBlockCount true) _ false) B ↔ _
    rw [unset_setBits_false fun I hI => by
      simp [kSuperBlockBlock, kFreePageMap0Block, kFreePageMap1Block, kDefaultBlockMapAddr,
        kNumReservedPages] at hI
      rw [length_replicate]
      omega]
    simp [hreplicate, kSuperBlockBlock, kFreePageMap0Block, kFreePageMap1Block,
      kDefaultBlockMapAddr, kNumReservedPages]
  have hlength : (newBuilder BlockSize MinBlockCount CanGrow).FreeBlocks.length =
      MinBlockCount := by
    show (setBits (replicate MinBlockCount true) _ false).length = _
    rw [length_setBits, length_replicate]
  have howners : (newBuilder BlockSize MinBlockCount CanGrow).owners = [0, 3] := rfl
  -- up to the second pair, the reserved blocks are 1 and 2
  have hreserved : ∀ B, B ≤ BlockSize → (Reserved BlockSize B ↔ B = 1 ∨ B = 2) := by
    intro B hB
    unfold Reserved
    by_cases heq : B = BlockSize
    · rw [heq, mod_self]
      omega
    · rw [mod_eq_of_lt (by omega)]
  refine ⟨hsize, rfl, ⟨by rw [howners]; decide, fun B hB => ?_, fun B hB => ?_, fun B => ?_⟩, ?_,
    fun D hD => absurd hD not_mem_nil⟩
  · rw [howners] at hB
    simp at hB
    omega
  · rw [howners] at hB
    show ¬ Reserved BlockSize B
    simp at hB
    rw [hreserved B (by omega)]
    omega
  · rw [hunset, howners, hlength]
    show _ ↔ _ ∨ (Reserved BlockSize B ∧ _)
    constructor
    · intro hB
      have hle : B ≤ BlockSize := by omega
      rw [hreserved B hle]
      simp
      omega
    · intro hB
      rcases hB with hB | ⟨hres, hlt⟩
      · simp at hB
        omega
      · rw [hreserved B (by omega)] at hres
        omega
  · rw [hlength]
    show MinBlockCount % BlockSize ≠ 2
    by_cases hlt : MinBlockCount < BlockSize
    · rw [mod_eq_of_lt hlt]
      omega
    · by_cases heq : MinBlockCount = BlockSize
      · rw [heq, mod_self]
        omega
      · have hone : MinBlockCount = BlockSize + 1 := by omega
        rw [hone, add_mod_left, mod_eq_of_lt (by omega)]
        omega

/-- In every run of allowed calls no block is shared, a call that fails leaves the builder as it
was, and the layout that is built is correct. -/
theorem layout_shares_no_block {BlockSize MinBlockCount : Nat} {CanGrow : Bool} {b₀ : MSFBuilder}
    (hcreate : create BlockSize MinBlockCount CanGrow = .ok b₀)
    (hmin : MinBlockCount ≤ BlockSize + 1) {calls : List Call} (hallowed : b₀.AllAllowed calls) :
    ∃ b, b₀.run calls = some b ∧ b.owners.Nodup ∧ (∀ B ∈ b.owners, ¬ Reserved b.BlockSize B) ∧
      (∀ c, b.Allowed c → ∃ b' e, b.step c = some (b', e) ∧ (e ≠ none → b' = b)) ∧
      (b.BuildAllowed → ∃ b' result, b.build = some (b', result) ∧
        (∀ EC, result = .error EC → b' = b) ∧ ∀ L, result = .ok L → L.Correct) := by
  have hsound : b₀.Sound := by
    unfold create at hcreate
    split at hcreate
    · next hsize =>
      rw [← Except.ok.inj hcreate]
      have hlarge : 512 ≤ BlockSize := by
        rcases hsize with hsize | hsize | hsize | hsize <;> omega
      refine newBuilder_sound hsize (Nat.le_max_right _ _) (max_le hmin ?_) CanGrow
      omega
    · cases hcreate
  obtain ⟨b, hrun, hb⟩ := run_spec hsound hallowed
  refine ⟨b, hrun, hb.laid.nodup, hb.laid.notReserved, fun c hc => ?_, build_spec hb⟩
  obtain ⟨b', e, hstep, -, hsame⟩ := step_spec hb hc
  exact ⟨b', e, hstep, hsame⟩

/-- A stream of two blocks is added to a new builder, and the file grows for it. -/
theorem layout_shares_no_block_stream :
    ∃ b, (newBuilder 512 4 true).run [.addStream 600] = some b ∧ b.owners.Nodup ∧
      (∀ B ∈ b.owners, ¬ Reserved b.BlockSize B) ∧
      (∀ c, b.Allowed c → ∃ b' e, b.step c = some (b', e) ∧ (e ≠ none → b' = b)) ∧
      (b.BuildAllowed → ∃ b' result, b.build = some (b', result) ∧
        (∀ EC, result = .error EC → b' = b) ∧ ∀ L, result = .ok L → L.Correct) := by
  have hgrows : (newBuilder 512 4 true).GrowsWell (bytesToBlocks 600 512) := by
    intro _ _
    decide
  have hcreate : create 512 4 true = .ok (newBuilder 512 4 true) := rfl
  exact layout_shares_no_block hcreate (by decide) ⟨hgrows, fun _ _ => trivial⟩

/-- A hint of two blocks, of which the directory needs one: the block that it keeps is marked as
free. -/
theorem build_frees_directory_block :
    ∃ b₀ b b' L, create 4096 6 false = .ok b₀ ∧
      b₀.setDirectoryBlocksHint [4, 5] = some (b, .ok ()) ∧ b.build = some (b', .ok L) ∧
        ¬ L.Correct := by
  refine ⟨_, _, _, _, rfl, rfl, rfl, fun h => ?_⟩
  exact absurd ((h.used 4).mpr (.inl (by decide))) (by decide)

end MSFBuilder

end Zapcc.MSF
