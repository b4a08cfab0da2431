import Zapcc.DebugInfo.MSFBlocks

/-!
# The calls of a builder

`Sound` says that a builder is laid out: its super block, block map, directory and streams own
different blocks, none of them reserved. `Allowed` is what a call must meet for the layout to stay
sound and for an error to leave the builder as it was (`step_spec`).
-/

namespace Zapcc.MSF

open BitVector MathExtras List Option

namespace MSFBuilder

/-- The blocks with an owner: the super block, the block map, the directory and the streams. -/
def owners (b : MSFBuilder) : List Nat :=
  kSuperBlockBlock :: b.BlockMapAddr :: (b.DirectoryBlocks ++ b.StreamData.flatMap Prod.snd)

/-- A builder whose blocks have one owner each. -/
structure Sound (b : MSFBuilder) : Prop where
  size : isValidBlockSize b.BlockSize
  freePageMap : b.FreePageMap = kFreePageMap0Block
  laid : Laid b.BlockSize b.FreeBlocks b.owners
  pair : b.FreeBlocks.length % b.BlockSize ≠ 2
  streams : ∀ D ∈ b.StreamData, bytesToBlocks D.1 b.BlockSize = D.2.length

/-- No block from the end of the file up to the given one is reserved. -/
def ExtendsWell (b : MSFBuilder) (Block : Nat) : Prop :=
  ∀ B, b.FreeBlocks.length ≤ B → B ≤ Block → ¬ Reserved b.BlockSize B

/-- The hint gives the directory free blocks or blocks that it has, or it is refused at a block in
use after just the blocks that the directory has. -/
def HintAllowed (b : MSFBuilder) (DirBlocks : List Nat) : Prop :=
  (DirBlocks.Nodup ∧ ∀ B ∈ DirBlocks, b.FreeBlocks[B]? = some true ∨ B ∈ b.DirectoryBlocks) ∨
    ∃ front B rest, DirBlocks = front ++ B :: rest ∧ front.Perm b.DirectoryBlocks ∧
      Unset b.FreeBlocks B

/-- A block in use comes before blocks behind the end of the file, or there is none; then the
blocks are different, and the file grows over no reserved blocks. -/
def StreamAllowed (b : MSFBuilder) (Blocks : List Nat) : Prop :=
  (∃ front B rest, Blocks = front ++ B :: rest ∧
    (∀ A ∈ front, b.FreeBlocks[A]? = some true) ∧ Unset b.FreeBlocks B) ∨
    (Blocks.Nodup ∧ ∀ B ∈ Blocks, ¬ Unset b.FreeBlocks B ∧ b.ExtendsWell B)

def Allowed (b : MSFBuilder) : Call → Prop
  | .setBlockMapAddr Addr => b.IsGrowable = true → b.ExtendsWell Addr
  | .setDirectoryBlocksHint DirBlocks => b.HintAllowed DirBlocks
  | .addStreamAt Size Blocks =>
    bytesToBlocks Size b.BlockSize = Blocks.length → b.StreamAllowed Blocks
  | .addStream Size => b.GrowsWell (bytesToBlocks Size b.BlockSize)
  | .setStreamSize Idx Size => ∃ D, b.StreamData[Idx]? = some D ∧
      b.GrowsWell (bytesToBlocks Size b.BlockSize - bytesToBlocks D.1 b.BlockSize)

variable {b : MSFBuilder}

theorem Sound.three_le (h : b.Sound) : 3 ≤ b.BlockSize := by
  rcases h.size with hsize | hsize | hsize | hsize <;> omega

/-- A call that is allowed ends in a sound state, and in the same one when it fails. -/
def Keeps {α : Type} (b : MSFBuilder) (r : MSFBuilder × Except MSFError α) : Prop :=
  r.1.Sound ∧ ∀ EC, r.2 = .error EC → r.1 = b

theorem Sound.keeps_self {α : Type} (h : b.Sound) (result : Except MSFError α) :
    b.Keeps (b, result) := ⟨h, fun _ _ => rfl⟩

theorem Sound.extend (h : b.Sound) {Block : Nat} (hextends : b.ExtendsWell Block)
    (hle : b.FreeBlocks.length ≤ Block) :
    Laid b.BlockSize (resize b.FreeBlocks (Block + 1) true) b.owners ∧
      (Block + 1) % b.BlockSize ≠ 2 := by
  have hsize := h.three_le
  refine ⟨h.laid.grow (by omega) fun B hB hlt => hextends B hB (by omega), fun htwo => ?_⟩
  refine hextends Block hle le_rfl (.inl ?_)
  have hdiv := Nat.div_add_mod (Block + 1) b.BlockSize
  have heq : Block = b.BlockSize * ((Block + 1) / b.BlockSize) + 1 := by omega
  rw [heq, Nat.mul_add_mod, Nat.mod_eq_of_lt (by omega)]

theorem setBlockMapAddr_spec (h : b.Sound) {Addr : Nat}
    (hallowed : b.IsGrowable = true → b.ExtendsWell Addr) :
    ∃ r, b.setBlockMapAddr Addr = some r ∧ b.Keeps r := by
  unfold setBlockMapAddr
  by_cases hsame : Addr = b.BlockMapAddr
  · exact ⟨_, if_pos hsame, h.keeps_self _⟩
  rw [if_neg hsame]
  by_cases herror : b.FreeBlocks.length ≤ Addr ∧ b.IsGrowable = false
  · exact ⟨_, if_pos herror, h.keeps_self _⟩
  rw [if_neg herror]
  obtain ⟨FreeBlocks, hFreeBlocks, hlaid, hpair, hlt, hkept⟩ : ∃ FreeBlocks,
      (if b.FreeBlocks.length ≤ Addr then resize b.FreeBlocks (Addr + 1) true else b.FreeBlocks) =
        FreeBlocks ∧ Laid b.BlockSize FreeBlocks b.owners ∧
      FreeBlocks.length % b.BlockSize ≠ 2 ∧ Addr < FreeBlocks.length ∧
      (Unset FreeBlocks Addr → FreeBlocks = b.FreeBlocks) := by
    by_cases hle : b.FreeBlocks.length ≤ Addr
    · have hgrowable : b.IsGrowable = true := by
        by_contra hnot
        exact herror ⟨hle, by simpa using hnot⟩
      obtain ⟨hlaid, hpair⟩ := h.extend (hallowed hgrowable) hle
      refine ⟨_, if_pos hle, hlaid, by rwa [length_resize], by rw [length_resize]; omega,
        fun hunset => ?_⟩
      rw [unset_resize (by omega)] at hunset
      have hlt := hunset.lt
      omega
    · exact ⟨_, if_neg hle, h.laid, h.pair, by omega, fun _ => rfl⟩
  simp only [hFreeBlocks]
  by_cases hunset : Unset FreeBlocks Addr
  · refine ⟨_, if_pos hunset, ?_⟩
    rw [hkept hunset]
    exact h.keeps_self _
  · refine ⟨_, if_neg hunset, ?_, by simp⟩
    have hperm : b.owners.Perm ([b.BlockMapAddr] ++
        (kSuperBlockBlock :: (b.DirectoryBlocks ++ b.StreamData.flatMap Prod.snd))) :=
      Perm.swap _ _ _
    have hreleased := (hlaid.perm hperm).release
    have hfree : ∀ B ∈ [Addr], (setBits FreeBlocks [b.BlockMapAddr] true)[B]? = some true := by
      intro B hB
      rw [mem_singleton.mp hB, getElem?_eq_true_iff, length_setBits, unset_setBits_true]
      exact ⟨hlt, fun hset => hunset hset.1⟩
    have htaken := hreleased.take (by simp) hfree
    refine ⟨h.size, h.freePageMap, htaken.perm (Perm.swap _ _ _), ?_, h.streams⟩
    rwa [length_set, length_set]

variable {FreeBlocks : List Bool}

theorem takeHint_eq {DirBlocks : List Nat} (hnodup : DirBlocks.Nodup)
    (hfree : ∀ B ∈ DirBlocks, FreeBlocks[B]? = some true) (rest : List Nat) :
    takeHint FreeBlocks (DirBlocks ++ rest) =
      takeHint (setBits FreeBlocks DirBlocks false) rest := by
  induction DirBlocks generalizing FreeBlocks with
  | nil => rfl
  | cons B DirBlocks ih =>
    obtain ⟨hnot, hnodup⟩ := nodup_cons.mp hnodup
    rw [cons_append, takeHint, hfree B mem_cons_self, bind_some, if_pos rfl, ih hnodup]
    · rfl
    · intro C hC
      rw [getElem?_set_ne (fun heq => hnot (by rw [heq]; exact hC))]
      exact hfree C (mem_cons_of_mem _ hC)

theorem setDirectoryBlocksHint_spec (h : b.Sound) {DirBlocks : List Nat}
    (hallowed : b.HintAllowed DirBlocks) :
    ∃ r, b.setDirectoryBlocksHint DirBlocks = some r ∧ b.Keeps r := by
  have hperm : b.owners.Perm (b.DirectoryBlocks ++
      (kSuperBlockBlock :: b.BlockMapAddr :: b.StreamData.flatMap Prod.snd)) :=
    (perm_middle.trans (Perm.cons _ perm_middle)).symm
  have hlaid := h.laid.perm hperm
  have hreleased := hlaid.release
  unfold setDirectoryBlocksHint
  rcases hallowed with ⟨hnodup, hall⟩ | ⟨front, B, rest, hDirBlocks, hfront, hunset⟩
  · have hfree : ∀ B ∈ DirBlocks,
        (setBits b.FreeBlocks b.DirectoryBlocks true)[B]? = some true := by
      intro B hB
      rw [getElem?_eq_true_iff, length_setBits, unset_setBits_true]
      rcases hall B hB with hset | hmem
      · obtain ⟨hlt, hset⟩ := getElem?_eq_true_iff.mp hset
        exact ⟨hlt, fun hunset => hset hunset.1⟩
      · exact ⟨hlaid.lt B (mem_append_left _ hmem), fun hunset => hunset.2 hmem⟩
    have htake := takeHint_eq hnodup hfree []
    rw [append_nil] at htake
    rw [htake]
    refine ⟨_, rfl, ⟨h.size, h.freePageMap, ?_, ?_, h.streams⟩, by simp⟩
    · refine (hreleased.take hnodup hfree).perm ?_
      exact perm_middle.trans (Perm.cons _ perm_middle)
    · show (setBits (setBits b.FreeBlocks b.DirectoryBlocks true) DirBlocks false).length %
        b.BlockSize ≠ 2
      rw [length_setBits, length_setBits]
      exact h.pair
  · have hDirNodup := (nodup_append.mp hlaid.nodup).1
    have hDirLt : ∀ A ∈ b.DirectoryBlocks, A < b.FreeBlocks.length := fun A hA =>
      hlaid.lt A (mem_append_left _ hA)
    have hfree : ∀ A ∈ front, (setBits b.FreeBlocks b.DirectoryBlocks true)[A]? = some true := by
      intro A hA
      have hmem := hfront.mem_iff.mp hA
      rw [getElem?_eq_true_iff, length_setBits, unset_setBits_true]
      exact ⟨hDirLt A hmem, fun hunset => hunset.2 hmem⟩
    have hsame : setBits (setBits b.FreeBlocks b.DirectoryBlocks true) front false =
        b.FreeBlocks := by
      refine eq_of_unset (by rw [length_setBits, length_setBits]) fun i => ?_
      rw [unset_setBits_false fun A hA => by
          rw [length_setBits]
          exact hDirLt A (hfront.mem_iff.mp hA), unset_setBits_true, hfront.mem_iff]
      have hset : i ∈ b.DirectoryBlocks → Unset b.FreeBlocks i := fun hi =>
        (hlaid.unset i).mpr (.inl (mem_append_left _ hi))
      tauto
    rw [hDirBlocks, takeHint_eq (hfront.nodup_iff.mpr hDirNodup) hfree, hsame, takeHint,
      show b.FreeBlocks[B]? = some false from hunset, bind_some, if_neg Bool.false_ne_true]
    exact ⟨_, rfl, h, fun _ _ => rfl⟩

theorem testBlocks_eq {front : List Nat}
    (hfree : ∀ A ∈ front, FreeBlocks[A]? = some true) (rest : List Nat) :
    testBlocks FreeBlocks (front ++ rest) = testBlocks FreeBlocks rest := by
  induction front with
  | nil => rfl
  | cons A front ih =>
    have hA := hfree A mem_cons_self
    have hlt := (getElem?_eq_true_iff.mp hA).1
    rw [cons_append, testBlocks]
    simp only [if_neg (not_le.mpr hlt), hA, bind_some, if_pos]
    exact ih fun C hC => hfree C (mem_cons_of_mem _ hC)

theorem testBlocks_spec (FreeBlocks : List Bool) (Blocks : List Nat)
    (hfree : ∀ B ∈ Blocks, ¬ Unset FreeBlocks B) :
    ∃ N, testBlocks FreeBlocks Blocks = some (resize FreeBlocks N true, true) ∧
      FreeBlocks.length ≤ N ∧ (∀ B ∈ Blocks, B < N) ∧
      (N = FreeBlocks.length ∨ ∃ B ∈ Blocks, N = B + 1) := by
  induction Blocks generalizing FreeBlocks with
  | nil =>
    simp [testBlocks, resize]
  | cons B Blocks ih =>
    have hB := hfree B mem_cons_self
    have hrest := fun C hC => hfree C (mem_cons_of_mem B hC)
    rw [testBlocks]
    by_cases hle : FreeBlocks.length ≤ B
    · have hlonger : FreeBlocks.length ≤ B + 1 := by omega
      have hset : (resize FreeBlocks (B + 1) true)[B]? = some true := by
        rw [getElem?_eq_true_iff, length_resize, unset_resize hlonger]
        exact ⟨Nat.lt_succ_self B, hB⟩
      obtain ⟨N, htest, hN, hall, hlast⟩ := ih (resize FreeBlocks (B + 1) true) fun C hC => by
        rw [unset_resize hlonger]
        exact hrest C hC
      rw [length_resize] at hN hlast
      simp only [if_pos hle, hset, bind_some, if_pos]
      refine ⟨N, ?_, by omega, fun C hC => ?_, .inr ?_⟩
      · rw [htest, resize_resize hlonger hN]
      · rcases mem_cons.mp hC with heq | hC
        · omega
        · exact hall C hC
      · rcases hlast with heq | ⟨C, hC, heq⟩
        · exact ⟨B, mem_cons_self, heq⟩
        · exact ⟨C, mem_cons_of_mem _ hC, heq⟩
    · have hset : FreeBlocks[B]? = some true :=
        getElem?_eq_true_iff.mpr ⟨not_le.mp hle, hB⟩
      obtain ⟨N, htest, hN, hall, hlast⟩ := ih FreeBlocks hrest
      simp only [if_neg hle, hset, bind_some, if_pos]
      refine ⟨N, htest, hN, fun C hC => ?_, hlast.imp_right fun ⟨C, hC, heq⟩ =>
        ⟨C, mem_cons_of_mem _ hC, heq⟩⟩
      rcases mem_cons.mp hC with heq | hC
      · omega
      · exact hall C hC

theorem Sound.addStream (h : b.Sound) {Size : Nat} {Blocks : List Nat}
    (hlaid : Laid b.BlockSize FreeBlocks (Blocks ++ b.owners))
    (hpair : FreeBlocks.length % b.BlockSize ≠ 2)
    (hlength : bytesToBlocks Size b.BlockSize = Blocks.length) :
    Sound { b with
      FreeBlocks := FreeBlocks, StreamData := b.StreamData ++ [(Size, Blocks)] } := by
  refine ⟨h.size, h.freePageMap, hlaid.perm ?_, hpair, fun D hD => ?_⟩
  · refine perm_append_comm.trans (Perm.of_eq ?_)
    simp [owners]
  · rcases mem_append.mp hD with hD | hD
    · exact h.streams D hD
    · rw [mem_singleton.mp hD]
      exact hlength

theorem addStreamAt_spec (h : b.Sound) {Size : Nat} {Blocks : List Nat}
    (hallowed : bytesToBlocks Size b.BlockSize = Blocks.length → b.StreamAllowed Blocks) :
    ∃ r, b.addStreamAt Size Blocks = some r ∧ b.Keeps r := by
  unfold addStreamAt
  by_cases hlength : bytesToBlocks Size b.BlockSize = Blocks.length
  · rw [if_neg (not_not.mpr hlength)]
    rcases hallowed hlength with ⟨front, B, rest, hBlocks, hfree, hunset⟩ | ⟨hnodup, hall⟩
    · have hB : testBlocks b.FreeBlocks (B :: rest) = some (b.FreeBlocks, false) := by
        rw [testBlocks]
        simp [not_le.mpr hunset.lt, show b.FreeBlocks[B]? = some false from hunset]
      rw [hBlocks, testBlocks_eq hfree, hB]
      exact ⟨_, rfl, h, fun _ _ => rfl⟩
    · obtain ⟨N, htest, hN, hlt, hlast⟩ :=
        testBlocks_spec b.FreeBlocks Blocks fun B hB => (hall B hB).1
      have hgrown : Laid b.BlockSize (resize b.FreeBlocks N true) b.owners := by
        refine h.laid.grow hN fun C hC hlt => ?_
        rcases hlast with heq | ⟨B, hB, heq⟩
        · omega
        · exact (hall B hB).2 C hC (by omega)
      have hpair : N % b.BlockSize ≠ 2 := by
        by_cases heq : N = b.FreeBlocks.length
        · rw [heq]
          exact h.pair
        · obtain ⟨B, hB, hNB⟩ := hlast.resolve_left heq
          rw [hNB]
          exact (h.extend (hall B hB).2 (by omega)).2
      have htaken := hgrown.take hnodup fun B hB => by
        rw [getElem?_eq_true_iff, length_resize, unset_resize hN]
        exact ⟨hlt B hB, (hall B hB).1⟩
      rw [htest]
      refine ⟨_, rfl, h.addStream htaken ?_ hlength, by simp⟩
      rwa [length_setBits, length_resize]
  · exact ⟨_, if_pos hlength, h.keeps_self _⟩

theorem addStream_spec (h : b.Sound) {Size : Nat}
    (hallowed : b.GrowsWell (bytesToBlocks Size b.BlockSize)) :
    ∃ r, b.addStream Size = some r ∧ b.Keeps r := by
  obtain ⟨⟨b', result⟩, halloc, hspec⟩ := allocateBlocks_spec h.three_le h.laid h.pair hallowed
  unfold MSFBuilder.addStream
  rw [halloc]
  cases result with
  | error EC =>
    have hsame : b' = b := hspec.error EC rfl
    rw [hsame]
    exact ⟨_, rfl, h, fun _ _ => rfl⟩
  | ok NewBlocks =>
    have hsame : b' = { b with FreeBlocks := b'.FreeBlocks } := hspec.same
    refine ⟨_, rfl, ?_, by simp⟩
    rw [hsame]
    exact h.addStream (hspec.laid _ rfl) hspec.pair (hspec.length _ rfl).symm

theorem owners_stream {Idx : Nat} {D : Nat × List Nat} (hD : b.StreamData[Idx]? = some D) :
    ∃ others, b.owners.Perm (D.2 ++ others) ∧ ∀ (FreeBlocks : List Bool) (D' : Nat × List Nat),
      (MSFBuilder.owners { b with
        FreeBlocks := FreeBlocks, StreamData := b.StreamData.set Idx D' }).Perm
          (D'.2 ++ others) := by
  obtain ⟨hlt, hget⟩ := List.getElem?_eq_some_iff.mp hD
  have hset : ∀ D' : Nat × List Nat, b.StreamData.set Idx D' =
      b.StreamData.take Idx ++ D' :: b.StreamData.drop (Idx + 1) := fun D' =>
    set_eq_take_append_cons_drop.trans (if_pos hlt)
  have hself : b.StreamData.set Idx D = b.StreamData := by
    rw [← hget]
    exact set_getElem_self hlt
  have hflat : ∀ D' : Nat × List Nat, (kSuperBlockBlock :: b.BlockMapAddr :: (b.DirectoryBlocks ++
      (b.StreamData.set Idx D').flatMap Prod.snd)).Perm (D'.2 ++ (kSuperBlockBlock ::
        b.BlockMapAddr :: (b.DirectoryBlocks ++ ((b.StreamData.take Idx).flatMap Prod.snd ++
          (b.StreamData.drop (Idx + 1)).flatMap Prod.snd)))) := by
    intro D'
    rw [hset D', flatMap_append, flatMap_cons]
    refine Perm.symm ?_
    refine perm_middle.trans (Perm.cons _ (perm_middle.trans (Perm.cons _ ?_)))
    refine (perm_append_comm_assoc _ _ _).trans (Perm.append_left _ ?_)
    exact perm_append_comm_assoc _ _ _
  refine ⟨_, ?_, fun FreeBlocks D' => hflat D'⟩
  have hperm := hflat D
  rw [hself] at hperm
  exact hperm

theorem Sound.setStream (h : b.Sound) {Idx : Nat} {D D' : Nat × List Nat}
    (hD : b.StreamData[Idx]? = some D)
    (hlaid : ∀ others, b.owners.Perm (D.2 ++ others) → Laid b.BlockSize FreeBlocks (D'.2 ++ others))
    (hpair : FreeBlocks.length % b.BlockSize ≠ 2)
    (hlength : bytesToBlocks D'.1 b.BlockSize = D'.2.length) :
    Sound { b with FreeBlocks := FreeBlocks, StreamData := b.StreamData.set Idx D' } := by
  obtain ⟨others, hperm, hperm'⟩ := owners_stream hD
  refine ⟨h.size, h.freePageMap, (hlaid others hperm).perm (hperm' FreeBlocks D').symm, hpair,
    fun E hE => ?_⟩
  rcases mem_or_eq_of_mem_set hE with hE | heq
  · exact h.streams E hE
  · rw [heq]
    exact hlength

theorem setStreamSize_spec (h : b.Sound) {Idx Size : Nat} {D : Nat × List Nat}
    (hD : b.StreamData[Idx]? = some D)
    (hallowed : b.GrowsWell (bytesToBlocks Size b.BlockSize - bytesToBlocks D.1 b.BlockSize)) :
    ∃ r, b.setStreamSize Idx Size = some r ∧ b.Keeps r := by
  have hlength := h.streams D (mem_of_getElem? hD)
  unfold setStreamSize
  rw [hD, bind_some]
  by_cases hsame : D.1 = Size
  · exact ⟨_, if_pos hsame, h.keeps_self _⟩
  rw [if_neg hsame]
  by_cases hmore : bytesToBlocks D.1 b.BlockSize < bytesToBlocks Size b.BlockSize
  · obtain ⟨⟨b', result⟩, halloc, hspec⟩ := allocateBlocks_spec h.three_le h.laid h.pair hallowed
    simp only [if_pos hmore, halloc, map_some]
    cases result with
    | error EC =>
      have hbuilder : b' = b := hspec.error EC rfl
      rw [hbuilder]
      exact ⟨_, rfl, h, fun _ _ => rfl⟩
    | ok Added =>
      have hbuilder : b' = { b with FreeBlocks := b'.FreeBlocks } := hspec.same
      have hadded : Added.length = _ := hspec.length Added rfl
      refine ⟨_, rfl, ?_, by simp⟩
      rw [hbuilder]
      refine h.setStream hD (fun others hperm => ?_) hspec.pair ?_
      · refine (hspec.laid Added rfl).perm ?_
        refine (Perm.append_left Added hperm).trans ?_
        rw [← append_assoc]
        exact Perm.append_right others perm_append_comm
      · show bytesToBlocks Size b.BlockSize = (D.2 ++ Added).length
        rw [length_append, hadded]
        omega
  rw [if_neg hmore]
  by_cases hless : bytesToBlocks Size b.BlockSize < bytesToBlocks D.1 b.BlockSize
  · have hkept : D.2.length - (bytesToBlocks D.1 b.BlockSize - bytesToBlocks Size b.BlockSize) =
        bytesToBlocks Size b.BlockSize := by omega
    refine ⟨_, if_pos hless, ?_, by simp⟩
    rw [hkept]
    refine h.setStream hD (fun others hperm => ?_) ?_ ?_
    · refine Laid.release (h.laid.perm (hperm.trans ?_))
      rw [← append_assoc]
      refine Perm.append_right others ?_
      refine Perm.trans ?_ perm_append_comm
      rw [take_append_drop]
    · rw [length_setBits]
      exact h.pair
    · show bytesToBlocks Size b.BlockSize = (D.2.take _).length
      rw [length_take]
      omega
  · refine ⟨_, if_neg hless, ?_, by simp⟩
    refine h.setStream hD (fun others hperm => h.laid.perm hperm) h.pair ?_
    show bytesToBlocks Size b.BlockSize = D.2.length
    omega

theorem step_spec (h : b.Sound) {c : Call} (hallowed : b.Allowed c) :
    ∃ b' e, b.step c = some (b', e) ∧ b'.Sound ∧ (e ≠ none → b' = b) := by
  have hkeeps {α : Type} {r : MSFBuilder × Except MSFError α} (hr : b.Keeps r) :
      r.1.Sound ∧ (errorOf r.2 ≠ none → r.1 = b) := by
    refine ⟨hr.1, fun hne => ?_⟩
    cases hresult : r.2 with
    | error EC => exact hr.2 EC hresult
    | ok value =>
      rw [hresult] at hne
      exact absurd rfl hne
  cases c with
  | setBlockMapAddr Addr =>
    obtain ⟨r, hr, hk⟩ := setBlockMapAddr_spec h hallowed
    exact ⟨r.1, errorOf r.2, by rw [step, hr]; rfl, hkeeps hk⟩
  | setDirectoryBlocksHint DirBlocks =>
    obtain ⟨r, hr, hk⟩ := setDirectoryBlocksHint_spec h hallowed
    exact ⟨r.1, errorOf r.2, by rw [step, hr]; rfl, hkeeps hk⟩
  | addStreamAt Size Blocks =>
    obtain ⟨r, hr, hk⟩ := addStreamAt_spec h hallowed
    exact ⟨r.1, errorOf r.2, by rw [step, hr]; rfl, hkeeps hk⟩
  | addStream Size =>
    obtain ⟨r, hr, hk⟩ := addStream_spec h hallowed
    exact ⟨r.1, errorOf r.2, by rw [step, hr]; rfl, hkeeps hk⟩
  | setStreamSize Idx Size =>
    obtain ⟨D, hD, hgrows⟩ := hallowed
    obtain ⟨r, hr, hk⟩ := setStreamSize_spec h hD hgrows
    exact ⟨r.1, errorOf r.2, by rw [step, hr]; rfl, hkeeps hk⟩

end MSFBuilder

end Zapcc.MSF
