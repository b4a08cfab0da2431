import Zapcc.ADT.SmallPtrSet

/-!
# The hash table of a small pointer set

The invariant of the two representations, `WellFormed`, and the operations on the hash table. The
main results are `Big.find`, by which every search ends, `grow_eq` and `Big.insert`.
-/

namespace Zapcc.ADT.SmallPtrSet

open MathExtras OpenAddressing TriangularProbe List

/-- The pointers that a set can hold. -/
abbrev Live (p : Ptr) : Prop := ptrInfo.Live p

/-- No live pointer occurs twice. -/
def Distinct (l : List Ptr) : Prop :=
  ∀ (i i' : Nat) (p : Ptr), l[i]? = some p → l[i']? = some p → Live p → i = i'

/-- The number of pointers of an array. -/
abbrev liveIn (l : List Ptr) : Nat := liveCount ptrInfo id l

/-- The number of tombstones of an array. -/
abbrev tombstonesIn (l : List Ptr) : Nat := tombstoneCount ptrInfo id l

/-- The invariant of the inline array. -/
structure Small (SmallSize : Nat) (S : SmallPtrSet) : Prop where
  heap : S.heapArray = none
  arraySize : S.curArraySize = SmallSize
  nonEmpty : S.numNonEmpty ≤ SmallSize
  filled : ∀ p ∈ S.smallArray.take S.numNonEmpty, p ≠ emptyMarker
  tombstones : S.numTombstones = tombstonesIn (S.smallArray.take S.numNonEmpty)
  distinct : Distinct (S.smallArray.take S.numNonEmpty)

/-- The invariant of the hash table. -/
structure Big (S : SmallPtrSet) (array : List Ptr) : Prop where
  heap : S.heapArray = some array
  length : array.length = S.curArraySize
  arraySize : ∃ m, 5 ≤ m ∧ m ≤ 31 ∧ S.curArraySize = 2 ^ m
  probed : Probed ptrInfo id array
  nonEmpty : S.numNonEmpty = liveIn array + tombstonesIn array
  tombstones : S.numTombstones = tombstonesIn array
  load : liveIn array * 4 ≤ S.curArraySize * 3
  few : liveIn array ≤ 3 * 2 ^ 28 + 1

structure WellFormed (SmallSize : Nat) (S : SmallPtrSet) : Prop where
  length : S.smallArray.length = SmallSize
  array : Small SmallSize S ∨ ∃ array, Big S array

def Holds (S : SmallPtrSet) (A : Finset Ptr) : Prop := ∀ p, p ∈ A ↔ Live p ∧ p ∈ S.slots

variable {S : SmallPtrSet} {SmallSize : Nat} {array : List Ptr}

/-! ## Readings of the state -/

theorem Small.isSmall (h : Small SmallSize S) : S.isSmall = true := by
  unfold SmallPtrSet.isSmall
  rw [h.heap]
  rfl

theorem Small.slots (h : Small SmallSize S) : S.slots = S.smallArray.take S.numNonEmpty := by
  unfold SmallPtrSet.slots curArray
  rw [if_pos h.isSmall, h.heap]
  rfl

theorem isSmall_of_heap (h : S.heapArray = some array) : S.isSmall = false := by
  unfold SmallPtrSet.isSmall
  rw [h]
  rfl

theorem curArray_of_heap (h : S.heapArray = some array) : S.curArray = array := by
  unfold curArray
  rw [h]
  rfl

theorem Big.slots (h : Big S array) : S.slots = array := by
  unfold SmallPtrSet.slots
  rw [isSmall_of_heap h.heap, curArray_of_heap h.heap, if_neg Bool.false_ne_true, ← h.length,
    take_length]

theorem setCurArray_of_heap (h : S.heapArray = some array) (array' : List Ptr) :
    S.setCurArray array' = { S with heapArray := some array' } := by
  unfold setCurArray
  rw [isSmall_of_heap h, if_neg Bool.false_ne_true]

theorem Big.counts (h : Big S array) :
    S.numNonEmpty + emptyCount ptrInfo id array = S.curArraySize := by
  rw [h.nonEmpty, ← h.length]
  exact counts_add ptrInfo id array

theorem Big.size_eq (h : Big S array) : S.size = liveIn array := by
  obtain ⟨m, _, hm, hsize⟩ := h.arraySize
  have hle : 2 ^ m ≤ 2 ^ 31 := Nat.pow_le_pow_right (by decide) hm
  have hcounts := h.counts
  have hnonEmpty := h.nonEmpty
  unfold size
  rw [h.tombstones, subUnsigned_of_le (by omega) (by omega)]
  omega

/-! ## The search -/

theorem findLoop_eq {m stop n : Nat} {p b : Ptr} (hm : m ≤ 31) (hn : n = 2 ^ m)
    (hlen : array.length = n) (hstop : stop < 2 ^ m)
    (hb : array[probe array.length (ptrInfo.hash p) stop]? = some b) (hp : p ≠ emptyMarker)
    (hkey : b = p ∨ b = emptyMarker)
    (hbefore : ∀ j < stop, ∀ b', array[probe array.length (ptrInfo.hash p) j]? = some b' →
      b' ≠ p ∧ b' ≠ emptyMarker) :
    ∀ (d j : Nat) (Tombstone : Option Nat) (probes : Nat), j + d = stop → d < probes →
      (∀ t, Tombstone = some t → ∃ j₀ < stop, t = probe array.length (ptrInfo.hash p) j₀ ∧
        array[t]? = some tombstoneMarker) →
      (b = p ∧ findLoop array n p probes (probe array.length (ptrInfo.hash p) j) (j + 1) Tombstone =
          some (probe array.length (ptrInfo.hash p) stop)) ∨
      (b = emptyMarker ∧ ∃ j₀ ≤ stop,
        findLoop array n p probes (probe array.length (ptrInfo.hash p) j) (j + 1) Tombstone =
          some (probe array.length (ptrInfo.hash p) j₀) ∧
        ∃ old, array[probe array.length (ptrInfo.hash p) j₀]? = some old ∧ ¬ Live old) := by
  intro d
  induction d with
  | zero =>
    intro j Tombstone probes hj hprobes hfound
    obtain rfl : j = stop := by omega
    obtain ⟨probes, rfl⟩ := Nat.exists_eq_add_of_le' (show 1 ≤ probes by omega)
    unfold findLoop
    simp only [hb]
    rcases hkey with rfl | he
    · rw [if_neg hp, if_pos rfl]
      exact .inl ⟨rfl, rfl⟩
    · rw [if_pos he]
      refine .inr ⟨he, ?_⟩
      cases Tombstone with
      | none => exact ⟨j, Nat.le_refl j, rfl, b, hb, fun hl => hl.1 he⟩
      | some t =>
        obtain ⟨j₀, hj₀, rfl, htomb⟩ := hfound t rfl
        exact ⟨j₀, hj₀.le, rfl, _, htomb, ptrInfo.not_live_tombstone⟩
  | succ d ih =>
    intro j Tombstone probes hj hprobes hfound
    obtain ⟨probes, rfl⟩ := Nat.exists_eq_add_of_le' (show 1 ≤ probes by omega)
    have hpos : 0 < array.length := by
      rw [hlen, hn]
      exact Nat.two_pow_pos m
    obtain ⟨c, hc⟩ : ∃ c, array[probe array.length (ptrInfo.hash p) j]? = some c :=
      ⟨_, getElem?_eq_getElem (probe_lt hpos _ _)⟩
    obtain ⟨hck, hce⟩ := hbefore j (by omega) c hc
    unfold findLoop
    simp only [hc]
    rw [if_neg hce, if_neg hck]
    have hle : 2 ^ m ≤ 2 ^ 31 := Nat.pow_le_pow_right (by decide) hm
    have hnext : toUnsigned (probe array.length (ptrInfo.hash p) j + (j + 1)) &&& (n - 1) =
        probe array.length (ptrInfo.hash p) (j + 1) := by
      rw [probe_succ, hlen, hn, toUnsigned_and_mask (by omega)]
    rw [hnext, toUnsigned_of_lt (show j + 1 + 1 < 2 ^ 32 by omega)]
    refine ih (j + 1) _ probes (by omega) (by omega) fun t ht => ?_
    split_ifs at ht with htomb
    · obtain rfl := Option.some.inj ht
      exact ⟨j, by omega, rfl, htomb.1 ▸ hc⟩
    · exact hfound t ht

theorem find_of_probed {m : Nat} (hm : m ≤ 31) (hheap : S.heapArray = some array)
    (hlen : array.length = S.curArraySize) (hsize : S.curArraySize = 2 ^ m)
    (hprobed : Probed ptrInfo id array) {p : Ptr} (hp : Live p) :
    (∃ i, findBucketFor S p = some i ∧ array[i]? = some p) ∨
    (∃ j < array.length, ∃ old, findBucketFor S p = some (probe array.length (ptrInfo.hash p) j) ∧
      array[probe array.length (ptrInfo.hash p) j]? = some old ∧ ¬ Live old ∧
      Occupied ptrInfo id array p j ∧ p ∉ array) := by
  obtain ⟨stop, hstop, b, hb, hkey, hbefore⟩ := exists_stop hprobed p
  have hhome : ptrInfo.hash p &&& (S.curArraySize - 1) = probe array.length (ptrInfo.hash p) 0 := by
    rw [probe_zero, hlen, hsize, Nat.and_two_pow_sub_one_eq_mod]
  have hloop := findLoop_eq hm hsize hlen (by omega) hb hp.1 hkey hbefore stop 0 none
    S.curArraySize (by omega) (by omega) (fun t ht => by cases ht)
  unfold findBucketFor
  rw [hhome, curArray_of_heap hheap]
  rcases hloop with ⟨rfl, heq⟩ | ⟨hempty, j₀, hj₀, heq, old, hold, hdead⟩
  · exact .inl ⟨_, heq, hb⟩
  · refine .inr ⟨j₀, by omega, old, heq, hold, hdead, ?_, fun hmem => ?_⟩
    · intro j hj b' hb'
      exact (hbefore j (by omega) b' hb').2
    · exact not_mem_of_stop hprobed hp hb hempty hbefore p hmem rfl

theorem Big.find (h : Big S array) {p : Ptr} (hp : Live p) :
    (∃ i, findBucketFor S p = some i ∧ array[i]? = some p) ∨
    (∃ j < array.length, ∃ old, findBucketFor S p = some (probe array.length (ptrInfo.hash p) j) ∧
      array[probe array.length (ptrInfo.hash p) j]? = some old ∧ ¬ Live old ∧
      Occupied ptrInfo id array p j ∧ p ∉ array) := by
  obtain ⟨m, _, hm, hsize⟩ := h.arraySize
  exact find_of_probed hm h.heap h.length hsize h.probed hp

/-! ## Writing a pointer -/

/-- What the write of a new pointer does to an array. -/
structure Placed (array array' : List Ptr) (p old : Ptr) : Prop where
  length : array'.length = array.length
  probed : Probed ptrInfo id array'
  live : liveIn array' = liveIn array + 1
  tombstones : tombstonesIn array' + (if old = tombstoneMarker then 1 else 0) = tombstonesIn array
  mem : ∀ q, Live q → (q ∈ array' ↔ q = p ∨ q ∈ array)

theorem tombstonesIn_pos {l : List Ptr} : 0 < tombstonesIn l ↔ tombstoneMarker ∈ l := by
  simp [tombstonesIn, tombstoneCount, countP_pos_iff]

theorem placed {j : Nat} {p old : Ptr} (hprobed : Probed ptrInfo id array) (hp : Live p)
    (hj : j < array.length)
    (hold : array[probe array.length (ptrInfo.hash p) j]? = some old) (hdead : ¬ Live old)
    (hocc : Occupied ptrInfo id array p j) (hnew : p ∉ array)
    (hroom : liveIn array + tombstonesIn array + 1 < array.length) :
    Placed array (array.set (probe array.length (ptrInfo.hash p) j) p) p old := by
  have hcounts := counts_add ptrInfo id array
  have hlive := countP_set_add (fun c => decide (Live c)) p hold
  have htomb := countP_set_add (fun c => decide (c = tombstoneMarker)) p hold
  have hempty := countP_set_add (fun c => decide (c = emptyMarker)) p hold
  simp only [decide_eq_true_eq, if_neg hdead, if_pos hp] at hlive
  simp only [decide_eq_true_eq, if_neg hp.2] at htomb
  have hvacant : ∃ b' ∈ array.set (probe array.length (ptrInfo.hash p) j) p,
      id b' = emptyMarker := by
    refine (emptyCount_pos ptrInfo id).mp ?_
    show 0 < List.countP (fun c => decide (c = emptyMarker)) _
    change liveIn array + tombstonesIn array +
      List.countP (fun c => decide (c = emptyMarker)) array = array.length at hcounts
    split_ifs at hempty <;> omega
  refine ⟨length_set, ?_, ?_, ?_, fun q hq => ?_⟩
  · exact @Probed.fill _ _ ptrInfo id old p _ hprobed j hj hold hp hocc
      (fun q hq heq => hnew ((show q = p from heq) ▸ hq)) hvacant
  · show List.countP (fun c => decide (Live c)) _ = List.countP (fun c => decide (Live c)) _ + 1
    omega
  · show List.countP (fun c => decide (c = tombstoneMarker)) _ + _ =
      List.countP (fun c => decide (c = tombstoneMarker)) _
    omega
  · exact @mem_set_of_not_live _ _ ptrInfo id _ old p _ q hold hdead hq

/-! ## Growth -/

/-- What the loop of `grow` makes of an array. -/
structure Copied (array array' rest : List Ptr) : Prop where
  length : array'.length = array.length
  probed : Probed ptrInfo id array'
  live : liveIn array' = liveIn array + liveIn rest
  tombstones : tombstonesIn array' = 0
  mem : ∀ q, Live q → (q ∈ array' ↔ q ∈ array ∨ q ∈ rest)

theorem Distinct.tail {p : Ptr} {rest : List Ptr} (h : Distinct (p :: rest)) : Distinct rest := by
  intro i i' q hi hi' hq
  have := h (i + 1) (i' + 1) q (by simpa using hi) (by simpa using hi') hq
  omega

theorem Distinct.head {p : Ptr} {rest : List Ptr} (h : Distinct (p :: rest)) (hp : Live p) :
    p ∉ rest := by
  intro hmem
  obtain ⟨i, hi⟩ := mem_iff_getElem?.mp hmem
  have := h 0 (i + 1) p (by simp) (by simpa using hi) hp
  omega

theorem liveIn_cons_of_live {p : Ptr} (hp : Live p) (rest : List Ptr) :
    liveIn (p :: rest) = liveIn rest + 1 := by
  show List.countP (fun c => decide (Live c)) _ = List.countP (fun c => decide (Live c)) _ + 1
  rw [countP_cons, decide_eq_true hp]
  rfl

theorem liveIn_cons_of_not_live {p : Ptr} (hp : ¬ Live p) (rest : List Ptr) :
    liveIn (p :: rest) = liveIn rest := by
  show List.countP (fun c => decide (Live c)) _ = List.countP (fun c => decide (Live c)) _
  rw [countP_cons, decide_eq_false hp]
  rfl

theorem growLoop_eq {m : Nat} (hm : m ≤ 31) (hsize : S.curArraySize = 2 ^ m) :
    ∀ (rest array : List Ptr), array.length = S.curArraySize → Probed ptrInfo id array →
      tombstonesIn array = 0 → liveIn array + liveIn rest < array.length →
      Distinct rest → (∀ p ∈ rest, Live p → p ∉ array) →
      ∃ array', growLoop { S with heapArray := some array } rest =
        some { S with heapArray := some array' } ∧ Copied array array' rest := by
  intro rest
  induction rest with
  | nil =>
    intro array _ hprobed htomb _ _ _
    exact ⟨array, rfl, rfl, hprobed, rfl, htomb, fun q _ => by simp⟩
  | cons p rest ih =>
    intro array hlen hprobed htomb hroom hdistinct hnew
    have hnewRest : ∀ q ∈ rest, Live q → q ∉ array := fun q hq =>
      hnew q (mem_cons_of_mem p hq)
    unfold growLoop
    by_cases hp : Live p
    · rw [liveIn_cons_of_live hp] at hroom
      rw [if_pos ⟨hp.2, hp.1⟩]
      have hfind := @find_of_probed { S with heapArray := some array } array m hm rfl hlen hsize
        hprobed p hp
      rcases hfind with ⟨i, _, hi⟩ | ⟨j, hj, old, heq, hold, hdead, hocc, hpnew⟩
      · exact absurd (List.mem_of_getElem? hi) (hnew p List.mem_cons_self hp)
      · have hplaced := placed hprobed hp hj hold hdead hocc hpnew (by omega)
        have hnone : tombstonesIn (array.set (probe array.length (ptrInfo.hash p) j) p) = 0 := by
          have := hplaced.tombstones
          omega
        have hlive := hplaced.live
        have hlen' := hplaced.length
        obtain ⟨array', hloop, hcopied⟩ := ih _ (hlen'.trans hlen) hplaced.probed hnone
          (by omega) hdistinct.tail (by
            intro q hq hql hmem
            rcases (hplaced.mem q hql).mp hmem with rfl | hmem
            · exact hdistinct.head hql hq
            · exact hnewRest q hq hql hmem)
        refine ⟨array', ?_, hcopied.length.trans hlen', hcopied.probed, ?_, hcopied.tombstones,
          fun q hq => ?_⟩
        · rw [heq, Option.bind_some]
          exact hloop
        · rw [hcopied.live, liveIn_cons_of_live hp]
          omega
        · rw [hcopied.mem q hq, hplaced.mem q hq, mem_cons]
          tauto
    · rw [liveIn_cons_of_not_live hp] at hroom
      rw [if_neg (fun hand => hp ⟨hand.2, hand.1⟩)]
      obtain ⟨array', hloop, hcopied⟩ := ih array hlen hprobed htomb hroom hdistinct.tail hnewRest
      refine ⟨array', hloop, hcopied.length, hcopied.probed, ?_, hcopied.tombstones, fun q hq => ?_⟩
      · rw [hcopied.live, liveIn_cons_of_not_live hp]
      · rw [hcopied.mem q hq, mem_cons]
        have hne : q ≠ p := fun heq => hp (heq ▸ hq)
        tauto

theorem grow_eq {m NewSize : Nat} (hm5 : 5 ≤ m) (hm : m ≤ 31) (hsize : NewSize = 2 ^ m)
    (hdistinct : Distinct S.slots) (hcount : S.size = liveIn S.slots)
    (hload : liveIn S.slots * 4 ≤ NewSize * 3) (hfew : liveIn S.slots ≤ 3 * 2 ^ 28 + 1) :
    ∃ S' array', grow S NewSize = some S' ∧ Big S' array' ∧ S'.curArraySize = NewSize ∧
      S'.smallArray = S.smallArray ∧ tombstonesIn array' = 0 ∧
      liveIn array' = liveIn S.slots ∧ ∀ q, Live q → (q ∈ array' ↔ q ∈ S.slots) := by
  have hpos := Nat.two_pow_pos m
  let fresh := replicate NewSize emptyMarker
  have hall : ∀ q ∈ fresh, q = emptyMarker := fun q hq => (mem_replicate.mp hq).2
  have hlen : fresh.length = 2 ^ m := by simp [fresh, hsize]
  have hprobed : Probed ptrInfo id fresh := probed_of_empty hlen hall
  have hlive : liveIn fresh = 0 := countP_eq_zero.mpr fun q hq => by
    simpa using fun hl : ptrInfo.Live q => hl.1 (hall q hq)
  have htomb : tombstonesIn fresh = 0 := countP_eq_zero.mpr fun q hq => by
    simpa using fun ht : q = ptrInfo.tombstoneKey =>
      ptrInfo.empty_ne_tombstone ((hall q hq).symm.trans ht)
  obtain ⟨array', hloop, hcopied⟩ := @growLoop_eq { S with curArraySize := NewSize } m hm hsize
    S.slots fresh (hlen.trans hsize.symm) hprobed htomb (by omega) hdistinct
    (fun p _ hp hmem => hp.1 (hall p hmem))
  have hlive' : liveIn array' = liveIn S.slots := by
    rw [hcopied.live, hlive, Nat.zero_add]
  have hlen' := hcopied.length
  have hgrow : grow S NewSize = some { S with
      heapArray := some array'
      curArraySize := NewSize
      numNonEmpty := S.size
      numTombstones := 0 } := congrArg (Option.map _) hloop
  refine ⟨_, array', hgrow, ⟨rfl, ?_, ⟨m, hm5, hm, hsize⟩, hcopied.probed, ?_, ?_, ?_, ?_⟩, rfl,
    rfl, hcopied.tombstones, hlive', fun q hq => ?_⟩
  · exact hlen'.trans (hlen.trans hsize.symm)
  · rw [hcopied.tombstones, hlive', hcount]
    rfl
  · exact hcopied.tombstones.symm
  · rw [hlive']
    exact hload
  · rw [hlive']
    exact hfew
  · rw [hcopied.mem q hq]
    exact or_iff_right fun hmem => hq.1 (hall q hmem)

end Zapcc.ADT.SmallPtrSet
