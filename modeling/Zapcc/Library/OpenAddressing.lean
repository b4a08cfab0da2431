import Zapcc.Library.TriangularProbe

/-!
# Open addressing

A hash table is a list of buckets, each with a key. One key marks an empty bucket and one marks a
tombstone, the bucket of an erased entry; the others are live. `Probed` is the invariant of the
table: some bucket is empty, no live key occurs twice, and a live key is found before the first
empty bucket of its probe sequence. A search ends (`exists_stop`) and is
right (`not_mem_of_stop`), and insertion and erasure keep the invariant (`Probed.fill`,
`Probed.bury`).
-/

namespace Zapcc.OpenAddressing

open TriangularProbe List Option

/-- The keys with a meaning of their own, and the hash function. -/
structure KeyInfo (K : Type) where
  emptyKey : K
  tombstoneKey : K
  hash : K → Nat
  empty_ne_tombstone : emptyKey ≠ tombstoneKey

/-- A key that a table can hold. -/
def KeyInfo.Live {K : Type} (info : KeyInfo K) (k : K) : Prop :=
  k ≠ info.emptyKey ∧ k ≠ info.tombstoneKey

instance {K : Type} [DecidableEq K] (info : KeyInfo K) (k : K) : Decidable (info.Live k) :=
  inferInstanceAs (Decidable (_ ∧ _))

variable {K B : Type} (info : KeyInfo K) (key : B → K)

theorem KeyInfo.not_live_tombstone : ¬ info.Live info.tombstoneKey := fun h => h.2 rfl

/-- A bucket of the probe sequence of a key that is not empty, and those before it neither. -/
def Occupied (buckets : List B) (k : K) (n : Nat) : Prop :=
  ∀ j < n, ∀ b, buckets[probe buckets.length (info.hash k) j]? = some b → key b ≠ info.emptyKey

/-- The invariant of a hash table. -/
structure Probed (buckets : List B) : Prop where
  size : ∃ m, buckets.length = 2 ^ m
  vacant : ∃ b ∈ buckets, key b = info.emptyKey
  reach : ∀ (i : Nat) (b : B), buckets[i]? = some b → info.Live (key b) →
    ∃ j < buckets.length, probe buckets.length (info.hash (key b)) j = i ∧
      Occupied info key buckets (key b) j
  distinct : ∀ (i i' : Nat) (b b' : B), buckets[i]? = some b → buckets[i']? = some b' →
    info.Live (key b) → key b = key b' → i = i'

section Counting

variable [DecidableEq K]

def liveCount (buckets : List B) : Nat := buckets.countP (fun b => decide (info.Live (key b)))

/-- The number of tombstones. -/
def tombstoneCount (buckets : List B) : Nat :=
  buckets.countP (fun b => decide (key b = info.tombstoneKey))

def emptyCount (buckets : List B) : Nat :=
  buckets.countP (fun b => decide (key b = info.emptyKey))

/-! ## Counting -/

theorem counts_add (buckets : List B) :
    liveCount info key buckets + tombstoneCount info key buckets + emptyCount info key buckets =
      buckets.length := by
  have hne := info.empty_ne_tombstone
  unfold liveCount tombstoneCount emptyCount
  induction buckets with
  | nil => rfl
  | cons b buckets ih =>
    simp only [countP_cons, length_cons, decide_eq_true_eq]
    by_cases he : key b = info.emptyKey
    · have hlive : ¬ info.Live (key b) := fun h => h.1 he
      have ht : key b ≠ info.tombstoneKey := fun h => hne (he.symm.trans h)
      rw [if_neg hlive, if_neg ht, if_pos he]
      omega
    · by_cases ht : key b = info.tombstoneKey
      · have hlive : ¬ info.Live (key b) := fun h => h.2 ht
        rw [if_neg hlive, if_pos ht, if_neg he]
        omega
      · rw [if_pos ⟨he, ht⟩, if_neg ht, if_neg he]
        omega

theorem emptyCount_pos {buckets : List B} :
    0 < emptyCount info key buckets ↔ ∃ b ∈ buckets, key b = info.emptyKey := by
  simp [emptyCount, countP_pos_iff]

end Counting

variable {i : Nat} {old b : B}

theorem countP_set_add (p : B → Bool) {buckets : List B} (b : B)
    (hold : buckets[i]? = some old) :
    (buckets.set i b).countP p + (if p old then 1 else 0) =
      buckets.countP p + (if p b then 1 else 0) := by
  induction buckets generalizing i with
  | nil => simp at hold
  | cons c buckets ih =>
    cases i with
    | zero =>
      obtain rfl : c = old := by simpa using hold
      simp only [set_cons_zero, countP_cons]
      omega
    | succ i =>
      have := ih (by simpa using hold)
      simp only [set_cons_succ, countP_cons]
      omega

/-! ## Searching -/

variable {info key} {buckets : List B}

theorem mem_of_getElem? (h : buckets[i]? = some b) : b ∈ buckets :=
  List.mem_of_getElem? h

/-- A search for a key stops at an empty bucket or at the key, after buckets with neither. -/
theorem exists_stop (h : Probed info key buckets) (k : K) :
    ∃ j < buckets.length, ∃ b, buckets[probe buckets.length (info.hash k) j]? = some b ∧
      (key b = k ∨ key b = info.emptyKey) ∧
      ∀ j' < j, ∀ b', buckets[probe buckets.length (info.hash k) j']? = some b' →
        key b' ≠ k ∧ key b' ≠ info.emptyKey := by
  classical
  obtain ⟨m, hm⟩ := h.size
  obtain ⟨e, hmem, he⟩ := h.vacant
  obtain ⟨i, hi⟩ := mem_iff_getElem?.mp hmem
  have hilt : i < 2 ^ m := hm ▸ (List.getElem?_eq_some_iff.mp hi).1
  obtain ⟨j, hj, hprobe⟩ := exists_probe (info.hash k) hilt
  let Stop : Nat → Prop := fun j =>
    ∃ b, buckets[probe buckets.length (info.hash k) j]? = some b ∧
      (key b = k ∨ key b = info.emptyKey)
  have hstop : ∃ j, Stop j := ⟨j, e, by rw [hm, hprobe]; exact hi, .inr he⟩
  obtain ⟨b, hb, hkey⟩ := Nat.find_spec hstop
  refine ⟨Nat.find hstop, ?_, b, hb, hkey, fun j' hj' b' hb' => ?_⟩
  · have hle : Nat.find hstop ≤ j :=
      Nat.find_le ⟨e, by rw [hm, hprobe]; exact hi, .inr he⟩
    omega
  · have hnot := Nat.find_min hstop hj'
    exact ⟨fun heq => hnot ⟨b', hb', .inl heq⟩, fun heq => hnot ⟨b', hb', .inr heq⟩⟩

theorem not_mem_of_stop (h : Probed info key buckets) {k : K} (hk : info.Live k) {j : Nat}
    (hb : buckets[probe buckets.length (info.hash k) j]? = some b)
    (hempty : key b = info.emptyKey)
    (hbefore : ∀ j' < j, ∀ b', buckets[probe buckets.length (info.hash k) j']? = some b' →
      key b' ≠ k ∧ key b' ≠ info.emptyKey) :
    ∀ b' ∈ buckets, key b' ≠ k := by
  intro b' hmem heq
  subst heq
  obtain ⟨i, hi⟩ := mem_iff_getElem?.mp hmem
  obtain ⟨j', _, hprobe, hocc⟩ := h.reach i b' hi hk
  rcases Nat.lt_trichotomy j' j with hlt | rfl | hlt
  · exact (hbefore j' hlt b' (hprobe ▸ hi)).1 rfl
  · obtain rfl : b' = b := some.inj ((hprobe ▸ hi).symm.trans hb)
    exact hk.1 hempty
  · exact hocc j hlt b hb hempty

/-! ## Writing -/

theorem getElem?_set_of_ne {i' : Nat} (b : B) (hne : i ≠ i') :
    (buckets.set i b)[i']? = buckets[i']? := getElem?_set_ne hne

theorem getElem?_set_self_of_some (b : B) (hold : buckets[i]? = some old) :
    (buckets.set i b)[i]? = some b :=
  getElem?_set_self (List.getElem?_eq_some_iff.mp hold).1

theorem getElem?_set_some {i' : Nat} {b' : B} (hold : buckets[i]? = some old)
    (h : (buckets.set i b)[i']? = some b') :
    i = i' ∧ b' = b ∨ i ≠ i' ∧ buckets[i']? = some b' := by
  by_cases hi : i = i'
  · subst hi
    rw [getElem?_set_self_of_some b hold] at h
    exact .inl ⟨rfl, (some.inj h).symm⟩
  · exact .inr ⟨hi, by rwa [getElem?_set_of_ne b hi] at h⟩

theorem Occupied.set {n : Nat} {k : K} (h : Occupied info key buckets k n)
    (hold : buckets[i]? = some old) (hb : key b ≠ info.emptyKey) :
    Occupied info key (buckets.set i b) k n := by
  intro j hj b' hb'
  rw [length_set] at hb'
  rcases getElem?_set_some hold hb' with ⟨_, rfl⟩ | ⟨_, hb'⟩
  · exact hb
  · exact h j hj b' hb'

theorem Probed.fill (h : Probed info key buckets) {j : Nat}
    (hj : j < buckets.length)
    (hold : buckets[probe buckets.length (info.hash (key b)) j]? = some old)
    (hlive : info.Live (key b)) (hocc : Occupied info key buckets (key b) j)
    (hnew : ∀ b' ∈ buckets, key b' ≠ key b)
    (hvacant : ∃ b' ∈ buckets.set (probe buckets.length (info.hash (key b)) j) b,
      key b' = info.emptyKey) :
    Probed info key (buckets.set (probe buckets.length (info.hash (key b)) j) b) where
  size := by simpa using h.size
  vacant := hvacant
  reach := by
    intro i b' hb' hlive'
    rw [length_set]
    rcases getElem?_set_some hold hb' with ⟨rfl, rfl⟩ | ⟨_, hb'⟩
    · exact ⟨j, hj, rfl, hocc.set hold hlive.1⟩
    · obtain ⟨j', hj', hprobe, hocc'⟩ := h.reach i b' hb' hlive'
      exact ⟨j', hj', hprobe, hocc'.set hold hlive.1⟩
  distinct := by
    intro i i' b₁ b₂ h₁ h₂ hlive₁ heq
    rcases getElem?_set_some hold h₁ with ⟨rfl, rfl⟩ | ⟨_, h₁⟩
    · rcases getElem?_set_some hold h₂ with ⟨rfl, _⟩ | ⟨_, h₂⟩
      · rfl
      · exact absurd heq.symm (hnew b₂ (mem_of_getElem? h₂))
    · rcases getElem?_set_some hold h₂ with ⟨_, hb₂⟩ | ⟨_, h₂⟩
      · rw [hb₂] at heq
        exact absurd heq (hnew b₁ (mem_of_getElem? ‹buckets[i]? = some b₁›))
      · exact h.distinct i i' b₁ b₂ ‹buckets[i]? = some b₁› h₂ hlive₁ heq

theorem Probed.bury (h : Probed info key buckets)
    (hold : buckets[i]? = some old) (hlive : info.Live (key old))
    (hb : key b = info.tombstoneKey) : Probed info key (buckets.set i b) := by
  have hbe : key b ≠ info.emptyKey := fun he =>
    info.empty_ne_tombstone (he.symm.trans hb)
  have hbl : ¬ info.Live (key b) := fun hl => hl.2 hb
  refine ⟨by simpa using h.size, ?_, ?_, ?_⟩
  · obtain ⟨e, hmem, he⟩ := h.vacant
    obtain ⟨i', hi'⟩ := mem_iff_getElem?.mp hmem
    have hne : i ≠ i' := by
      rintro rfl
      obtain rfl : old = e := some.inj (hold.symm.trans hi')
      exact hlive.1 he
    exact ⟨e, mem_of_getElem? (by rw [getElem?_set_of_ne b hne]; exact hi'), he⟩
  · intro i' b' hb' hlive'
    rw [length_set]
    rcases getElem?_set_some hold hb' with ⟨_, rfl⟩ | ⟨_, hb'⟩
    · exact absurd hlive' hbl
    · obtain ⟨j', hj', hprobe, hocc'⟩ := h.reach i' b' hb' hlive'
      exact ⟨j', hj', hprobe, hocc'.set hold hbe⟩
  · intro i₁ i₂ b₁ b₂ h₁ h₂ hlive₁ heq
    rcases getElem?_set_some hold h₁ with ⟨_, rfl⟩ | ⟨_, h₁⟩
    · exact absurd hlive₁ hbl
    · rcases getElem?_set_some hold h₂ with ⟨_, rfl⟩ | ⟨_, h₂⟩
      · exact absurd (heq ▸ hlive₁) hbl
      · exact h.distinct i₁ i₂ b₁ b₂ h₁ h₂ hlive₁ heq

theorem Probed.update (h : Probed info key buckets)
    (hold : buckets[i]? = some old) (hkey : key b = key old) :
    Probed info key (buckets.set i b) := by
  have hsame : ∀ {i' : Nat} {b' : B}, (buckets.set i b)[i']? = some b' →
      ∃ c, buckets[i']? = some c ∧ key c = key b' := by
    intro i' b' hb'
    rcases getElem?_set_some hold hb' with ⟨rfl, rfl⟩ | ⟨_, hb'⟩
    · exact ⟨old, hold, hkey.symm⟩
    · exact ⟨b', hb', rfl⟩
  refine ⟨by simpa using h.size, ?_, ?_, ?_⟩
  · obtain ⟨e, hmem, he⟩ := h.vacant
    obtain ⟨i', hi'⟩ := mem_iff_getElem?.mp hmem
    by_cases hne : i = i'
    · subst hne
      obtain rfl : old = e := some.inj (hold.symm.trans hi')
      exact ⟨b, mem_of_getElem? (getElem?_set_self_of_some b hold), hkey.trans he⟩
    · exact ⟨e, mem_of_getElem? (by rw [getElem?_set_of_ne b hne]; exact hi'), he⟩
  · intro i' b' hb' hlive'
    obtain ⟨c, hc, hck⟩ := hsame hb'
    obtain ⟨j, hj, hprobe, hocc⟩ := h.reach i' c hc (hck ▸ hlive')
    rw [hck] at hprobe hocc
    rw [length_set]
    refine ⟨j, hj, hprobe, fun j' hj' b'' hb'' => ?_⟩
    rw [length_set] at hb''
    obtain ⟨d, hd, hdk⟩ := hsame hb''
    exact hdk ▸ hocc j' hj' d hd
  · intro i₁ i₂ b₁ b₂ h₁ h₂ hlive₁ heq
    obtain ⟨c₁, hc₁, hk₁⟩ := hsame h₁
    obtain ⟨c₂, hc₂, hk₂⟩ := hsame h₂
    exact h.distinct i₁ i₂ c₁ c₂ hc₁ hc₂ (hk₁ ▸ hlive₁) (hk₁.trans (heq.trans hk₂.symm))

theorem probed_of_empty {m : Nat} (hlen : buckets.length = 2 ^ m)
    (hall : ∀ b ∈ buckets, key b = info.emptyKey) : Probed info key buckets := by
  have hdead : ∀ {i : Nat} {c : B}, buckets[i]? = some c → ¬ info.Live (key c) := fun h hl =>
    hl.1 (hall _ (mem_of_getElem? h))
  refine ⟨⟨m, hlen⟩, ?_, fun i c hc hl => absurd hl (hdead hc),
    fun i i' c c' hc _ hl _ => absurd hl (hdead hc)⟩
  have hpos : 0 < buckets.length := by
    rw [hlen]
    exact Nat.two_pow_pos m
  exact ⟨buckets[0], getElem_mem hpos, hall _ (getElem_mem hpos)⟩

/-! ## What a table holds -/

theorem mem_set_of_not_live {c : B} (hold : buckets[i]? = some old)
    (hdead : ¬ info.Live (key old)) (hc : info.Live (key c)) :
    c ∈ buckets.set i b ↔ c = b ∨ c ∈ buckets := by
  constructor
  · intro hmem
    obtain ⟨i', hi'⟩ := mem_iff_getElem?.mp hmem
    rcases getElem?_set_some hold hi' with ⟨_, rfl⟩ | ⟨_, hi'⟩
    · exact .inl rfl
    · exact .inr (mem_of_getElem? hi')
  · rintro (rfl | hmem)
    · exact mem_of_getElem? (getElem?_set_self_of_some c hold)
    · obtain ⟨i', hi'⟩ := mem_iff_getElem?.mp hmem
      have hne : i ≠ i' := by
        rintro rfl
        obtain rfl : old = c := some.inj (hold.symm.trans hi')
        exact hdead hc
      exact mem_of_getElem? (by rw [getElem?_set_of_ne b hne]; exact hi')

theorem Probed.mem_set_of_live (h : Probed info key buckets) {c : B}
    (hold : buckets[i]? = some old) (hlive : info.Live (key old)) :
    c ∈ buckets.set i b ↔ c = b ∨ c ∈ buckets ∧ key c ≠ key old := by
  constructor
  · intro hmem
    obtain ⟨i', hi'⟩ := mem_iff_getElem?.mp hmem
    rcases getElem?_set_some hold hi' with ⟨_, rfl⟩ | ⟨hne, hi'⟩
    · exact .inl rfl
    · refine .inr ⟨mem_of_getElem? hi', fun heq => hne ?_⟩
      exact h.distinct i i' old c hold hi' hlive heq.symm
  · rintro (rfl | ⟨hmem, hkey⟩)
    · exact mem_of_getElem? (getElem?_set_self_of_some c hold)
    · obtain ⟨i', hi'⟩ := mem_iff_getElem?.mp hmem
      have hne : i ≠ i' := by
        rintro rfl
        obtain rfl : old = c := some.inj (hold.symm.trans hi')
        exact hkey rfl
      exact mem_of_getElem? (by rw [getElem?_set_of_ne b hne]; exact hi')

theorem Probed.eq_of_mem (h : Probed info key buckets) {c : B} (hb : b ∈ buckets)
    (hc : c ∈ buckets) (hlive : info.Live (key b)) (hkey : key b = key c) : b = c := by
  obtain ⟨i, hi⟩ := mem_iff_getElem?.mp hb
  obtain ⟨i', hi'⟩ := mem_iff_getElem?.mp hc
  obtain rfl := h.distinct i i' b c hi hi' hlive hkey
  exact some.inj (hi.symm.trans hi')

end Zapcc.OpenAddressing
