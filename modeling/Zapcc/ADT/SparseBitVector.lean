import Zapcc.ADT.SparseBitVectorElements

/-!
# Sparse bit vectors

A lookup starts at a cached position and walks in either direction (`FindLowerBound_spec`). Single
bits are tested, set and reset in the element that it finds.
-/

namespace Zapcc.SparseBits

open List Nat Option Bool

variable {ElementSize : Nat} {es es' lo hi : List Element} {e e' : Element} {i k t x : Nat}

/-! ## One vector -/

variable (ElementSize)

/-- The elements, and the position of the cached iterator: an index into them, their number for the
end, and none when the element that it refers to was removed. -/
structure SparseBitVector where
  Elements : List Element
  CurrElementIter : Option Nat
  deriving DecidableEq

namespace SparseBitVector

def new : SparseBitVector := ⟨[], some 0⟩

/-- `Elements.emplace`. Iterators keep their elements. -/
def emplace (v : SparseBitVector) (p : Nat) (e : Element) : SparseBitVector where
  Elements := v.Elements.insertIdx p e
  CurrElementIter := v.CurrElementIter.map fun c => if p ≤ c then c + 1 else c

def erase (v : SparseBitVector) (p : Nat) : SparseBitVector where
  Elements := v.Elements.eraseIdx p
  CurrElementIter := v.CurrElementIter.bind fun c =>
    if c = p then none else if p < c then some (c - 1) else some c

/-- `++CurrElementIter`. -/
def advance (v : SparseBitVector) : Option SparseBitVector :=
  v.CurrElementIter.bind fun c =>
    if c < v.Elements.length then some { v with CurrElementIter := some (c + 1) } else none

/-- `clear`. Only an iterator to the end remains. -/
def clear (v : SparseBitVector) : SparseBitVector where
  Elements := []
  CurrElementIter := if v.CurrElementIter = some v.Elements.length then some 0 else none

/-- The copy constructor, and `operator=` of another vector. -/
def copy (RHS : SparseBitVector) : SparseBitVector := ⟨RHS.Elements, some 0⟩

def stepBack (Elements : List Element) (ElementIndex : Nat) : Nat → Nat
  | 0 => 0
  | p + 1 =>
    if Elements[p + 1]?.any fun e => ElementIndex < e.ElementIndex then
      stepBack Elements ElementIndex p
    else p + 1

def stepForward (Elements : List Element) (ElementIndex p : Nat) : Nat :=
  p + ((Elements.drop p).takeWhile fun e => e.ElementIndex < ElementIndex).length

/-- `FindLowerBound`. A cached iterator to a removed element has no result. -/
def FindLowerBound (v : SparseBitVector) (ElementIndex : Nat) : Option (SparseBitVector × Nat) :=
  if v.Elements = [] then some ({ v with CurrElementIter := some 0 }, 0)
  else v.CurrElementIter.bind fun c =>
    let c := if c = v.Elements.length then c - 1 else c
    v.Elements[c]?.map fun e =>
      let ElementIter :=
        if e.ElementIndex = ElementIndex then c
        else if ElementIndex < e.ElementIndex then stepBack v.Elements ElementIndex c
        else stepForward v.Elements ElementIndex c
      ({ v with CurrElementIter := some ElementIter }, ElementIter)

def test (v : SparseBitVector) (Idx : Nat) : Option (SparseBitVector × Bool) :=
  if v.Elements = [] then some (v, false)
  else (v.FindLowerBound (Idx / ElementSize)).map fun r =>
    (r.1, r.1.Elements[r.2]?.any fun e =>
      e.ElementIndex == Idx / ElementSize && e.test (Idx % ElementSize))

def reset (v : SparseBitVector) (Idx : Nat) : Option SparseBitVector :=
  if v.Elements = [] then some v
  else (v.FindLowerBound (Idx / ElementSize)).bind fun r =>
    match r.1.Elements[r.2]? with
    | none => some r.1
    | some e =>
      if e.ElementIndex ≠ Idx / ElementSize then some r.1
      else
        let e := e.reset (Idx % ElementSize)
        let v := { r.1 with Elements := r.1.Elements.set r.2 e }
        if e.empty then v.advance.map fun v => v.erase r.2 else some v

/-- The element of a bit, which is made when there is none. -/
def findElement (v : SparseBitVector) (ElementIndex : Nat) : Option (SparseBitVector × Nat) :=
  if v.Elements = [] then some (v.emplace 0 (.new ElementSize ElementIndex), 0)
  else (v.FindLowerBound ElementIndex).map fun r =>
    if r.1.Elements[r.2]?.any fun e => e.ElementIndex == ElementIndex then r
    else
      let p :=
        if r.1.Elements[r.2]?.any fun e => e.ElementIndex < ElementIndex then r.2 + 1 else r.2
      (r.1.emplace p (.new ElementSize ElementIndex), p)

def set (v : SparseBitVector) (Idx : Nat) : Option SparseBitVector :=
  (v.findElement ElementSize (Idx / ElementSize)).map fun r =>
    { Elements := r.1.Elements.modify r.2 fun e => e.set (Idx % ElementSize)
      CurrElementIter := some r.2 }

def test_and_set (v : SparseBitVector) (Idx : Nat) : Option (SparseBitVector × Bool) :=
  (v.test ElementSize Idx).bind fun r =>
    if r.2 then some (r.1, false) else (r.1.set ElementSize Idx).map fun v => (v, true)

/-! ### Lookups -/

/-- The elements around an index. -/
structure Split (t : Nat) (lo : List Element) (mid : Option Element) (hi : List Element) :
    Prop where
  lo : ∀ e ∈ lo, e.ElementIndex < t
  mid : ∀ e ∈ mid, e.ElementIndex = t
  hi : ∀ e ∈ hi, t < e.ElementIndex

end SparseBitVector

open SparseBitVector (Split)

variable {ElementSize} {mid : Option Element} {p : Nat} {v : SparseBitVector}

theorem exists_split (h : es.Pairwise fun e e' => e.ElementIndex < e'.ElementIndex) (t : Nat) :
    ∃ lo mid hi, es = lo ++ mid.toList ++ hi ∧ Split t lo mid hi := by
  induction es with
  | nil => exact ⟨[], none, [], rfl, by simp, by simp, by simp⟩
  | cons e es ih =>
    rcases Nat.lt_trichotomy e.ElementIndex t with hlt | heq | hgt
    · obtain ⟨lo, mid, hi, rfl, hsplit⟩ := ih h.of_cons
      exact ⟨e :: lo, mid, hi, rfl, forall_mem_cons.mpr ⟨hlt, hsplit.lo⟩, hsplit.mid, hsplit.hi⟩
    · exact ⟨[], some e, es, rfl, by simp, by simpa using heq,
        fun e' he => heq ▸ rel_of_pairwise_cons h he⟩
    · exact ⟨[], none, e :: es, rfl, by simp, by simp, forall_mem_cons.mpr
        ⟨hgt, fun e' he => hgt.trans (rel_of_pairwise_cons h he)⟩⟩

theorem SparseBitVector.Split.getElem? (h : Split t lo mid hi)
    (he : (lo ++ mid.toList ++ hi)[p]? = some e) :
    (p < lo.length ∧ e.ElementIndex < t) ∨ (p = lo.length ∧ mid = some e ∧ e.ElementIndex = t) ∨
      (lo.length + mid.toList.length ≤ p ∧ t < e.ElementIndex) := by
  rw [append_assoc] at he
  by_cases hp : p < lo.length
  · rw [getElem?_append_left hp] at he
    exact .inl ⟨hp, h.lo e (mem_of_getElem? he)⟩
  · rw [getElem?_append_right (Nat.le_of_not_lt hp)] at he
    cases mid with
    | none => exact .inr (.inr ⟨by simpa using hp, h.hi e (mem_of_getElem? he)⟩)
    | some m =>
      cases hsub : p - lo.length with
      | zero =>
        rw [hsub] at he
        obtain rfl : m = e := Option.some_inj.mp he
        exact .inr (.inl ⟨by omega, rfl, h.mid m rfl⟩)
      | succ j =>
        rw [hsub] at he
        exact .inr (.inr ⟨by simp; omega, h.hi e (mem_of_getElem? he)⟩)

theorem stepBack_eq (h : Split t lo mid hi) (hle : lo.length + mid.toList.length ≤ p + 1)
    (hp : p < (lo ++ mid.toList ++ hi).length) :
    SparseBitVector.stepBack (lo ++ mid.toList ++ hi) t p = lo.length + mid.toList.length - 1 := by
  induction p with
  | zero => rw [SparseBitVector.stepBack]; omega
  | succ p ih =>
    have he := h.getElem? (getElem?_eq_getElem hp)
    rw [SparseBitVector.stepBack, getElem?_eq_getElem hp]
    by_cases hgt : t < (lo ++ mid.toList ++ hi)[p + 1].ElementIndex
    · have hpos : lo.length + mid.toList.length ≤ p + 1 := by omega
      rw [any_some, if_pos (decide_eq_true hgt)]
      exact ih hpos (by omega)
    · have hpos : p + 1 < lo.length + mid.toList.length := by
        rcases he with he | ⟨he, hmid, -⟩ | he
        · omega
        · rw [hmid, toList_some, length_singleton]
          omega
        · exact absurd he.2 hgt
      simp only [any_some, hgt, decide_false, false_eq_true, ↓reduceIte]
      omega

theorem stepForward_eq (h : Split t lo mid hi) (hp : p ≤ lo.length) :
    SparseBitVector.stepForward (lo ++ mid.toList ++ hi) t p = lo.length := by
  have hrest : (mid.toList ++ hi).takeWhile (fun e => e.ElementIndex < t) = [] := by
    cases mid with
    | none =>
      cases hi with
      | nil => rfl
      | cons e hi =>
        have hlt := h.hi e mem_cons_self
        exact takeWhile_cons_of_neg (by simp; omega)
    | some e =>
      have heq := h.mid e rfl
      exact takeWhile_cons_of_neg (by simp; omega)
  rw [SparseBitVector.stepForward, append_assoc, drop_append_of_le_length hp,
    takeWhile_append_of_pos fun e he => by simpa using h.lo e (mem_of_mem_drop he), hrest,
    append_nil, length_drop]
  omega

/-- The cached position refers into the list, or to its end. -/
def SparseBitVector.Refers (v : SparseBitVector) : Prop :=
  ∃ c, v.CurrElementIter = some c ∧ c ≤ v.Elements.length

theorem FindLowerBound_spec (h : Split t lo mid hi) (hv : v.Elements = lo ++ mid.toList ++ hi)
    (hne : v.Elements ≠ []) (hrefers : v.Refers) :
    ∃ p, v.FindLowerBound t = some ({ v with CurrElementIter := some p }, p) ∧
      (p = lo.length ∨ mid = none ∧ p + 1 = lo.length) := by
  obtain ⟨c, hc, hle⟩ := hrefers
  have hpos := length_pos_iff.mpr hne
  have hlt : (if c = v.Elements.length then c - 1 else c) < v.Elements.length := by
    split_ifs <;> omega
  generalize hc' : (if c = v.Elements.length then c - 1 else c) = c' at hlt
  obtain ⟨e, hat⟩ : ∃ e, v.Elements[c']? = some e := ⟨_, getElem?_eq_getElem hlt⟩
  have he := h.getElem? (hv ▸ hat)
  rw [SparseBitVector.FindLowerBound, if_neg hne, hc, bind_some, hc']
  dsimp only
  rw [hat, map_some]
  refine ⟨_, rfl, ?_⟩
  split_ifs with heq hgt
  · rcases he with he | he | he
    · omega
    · exact .inl he.1
    · omega
  · rw [hv] at hlt ⊢
    rw [stepBack_eq h (by omega) hlt]
    cases mid with
    | none =>
      by_cases hzero : lo.length = 0
      · exact .inl (by simp [hzero])
      · exact .inr ⟨rfl, by simp; omega⟩
    | some e => exact .inl (by simp)
  · rw [hv, stepForward_eq h (by omega)]
    exact .inl rfl

/-! ### Updates -/

theorem look_split (h : Split t lo mid hi) :
    look (lo ++ mid.toList ++ hi) t k = mid.any fun e => e.bit k := by
  rw [look_append, look_append, look_eq_false fun e he => (h.lo e he).ne, Bool.false_or,
    look_lt h.hi, Bool.or_false]
  cases mid with
  | none => rfl
  | some e => simp [look, h.mid e rfl]

theorem look_split_ne (h : Split t lo mid hi) (hi' : i ≠ t) :
    look (lo ++ mid.toList ++ hi) i k = (look lo i k || look hi i k) := by
  have hmid : look mid.toList i k = false :=
    look_eq_false fun e he => (h.mid e (by simpa using he)).trans_ne hi'.symm
  rw [look_append, look_append, hmid, Bool.or_false]

variable {mid' : Option Element}

theorem Valid.replace (h : Valid ElementSize (lo ++ mid.toList ++ hi)) (hsplit : Split t lo mid hi)
    (hindex : ∀ e ∈ mid', e.ElementIndex = t) (hwell : ∀ e ∈ mid', e.WellFormed ElementSize) :
    Valid ElementSize (lo ++ mid'.toList ++ hi) := by
  have hsorted := h.sorted
  simp only [pairwise_append] at hsorted
  refine ⟨?_, fun e he => ?_⟩
  · simp only [pairwise_append]
    refine ⟨⟨hsorted.1.1, by cases mid' <;> simp, fun e he e' he' => ?_⟩, hsorted.2.1,
      fun e he e' he' => ?_⟩
    · exact (hsplit.lo e he).trans_eq (hindex e' (by simpa using he')).symm
    · rcases mem_append.mp he with hmem | hmem
      · exact (hsplit.lo e hmem).trans (hsplit.hi e' he')
      · exact (hindex e (by simpa using hmem)).trans_lt (hsplit.hi e' he')
  · rcases mem_append.mp he with hmem | hmem
    · rcases mem_append.mp hmem with hmem | hmem
      · exact h.elements e (by simp [hmem])
      · exact hwell e (by simpa using hmem)
    · exact h.elements e (by simp [hmem])

/-- Whether a number is in the set of a list. -/
def mem (ElementSize : Nat) (es : List Element) (x : Nat) : Bool :=
  look es (x / ElementSize) (x % ElementSize)

theorem exists_of_look (h : look es i k = true) :
    ∃ e ∈ es, e.ElementIndex = i ∧ e.bit k = true := by
  simpa [look] using h

theorem Valid.lt_of_look (h : Valid ElementSize es) (hlook : look es i k = true) :
    k < ElementSize ∧ i * ElementSize + k < 2 ^ 32 := by
  obtain ⟨e, he, rfl, hk⟩ := exists_of_look hlook
  exact (h.elements e he).bounded k hk

theorem mem_mul_add (hk : k < ElementSize) :
    mem ElementSize es (i * ElementSize + k) = look es i k := by
  rw [mem, Nat.add_comm, add_mul_div_right _ _ (by omega), div_eq_of_lt hk, Nat.zero_add,
    add_mul_mod_self_right, mod_eq_of_lt hk]

theorem Valid.ne_iff (h : Valid ElementSize es) (h' : Valid ElementSize es') :
    es ≠ es' ↔ ∃ x, mem ElementSize es x ≠ mem ElementSize es' x := by
  refine ⟨fun hne => ?_, fun ⟨x, hx⟩ heq => hx (heq ▸ rfl)⟩
  by_contra hall
  rw [not_exists] at hall
  refine hne (h.ext h' fun i k => ?_)
  by_cases hk : k < ElementSize
  · have hx := not_not.mp (hall (i * ElementSize + k))
    rwa [mem_mul_add hk, mem_mul_add hk] at hx
  · have hfalse (l : List Element) (hl : Valid ElementSize l) : look l i k = false :=
      eq_false_iff.mpr fun hlook => hk (hl.lt_of_look hlook).1
    rw [hfalse es h, hfalse es' h']

/-- The invariant of a vector. -/
structure Inv (ElementSize : Nat) (v : SparseBitVector) : Prop where
  valid : Valid ElementSize v.Elements
  refers : v.Elements ≠ [] → v.Refers

namespace SparseBitVector

theorem Split.find_none (h : Split t lo none hi)
    (he : (lo ++ none.toList ++ hi)[p]? = some e) : e.ElementIndex ≠ t := by
  rcases h.getElem? he with he | ⟨-, hmid, -⟩ | he
  · exact he.2.ne
  · exact absurd hmid.symm (some_ne_none e)
  · exact he.2.ne'

theorem Split.find_some (_ : Split t lo (some e) hi) :
    (lo ++ (some e).toList ++ hi)[lo.length]? = some e := by
  rw [append_assoc, getElem?_append_right (Nat.le_refl _), Nat.sub_self]
  rfl

theorem insertIdx_append (lo hi : List Element) (e : Element) :
    (lo ++ hi).insertIdx lo.length e = lo ++ e :: hi := by
  induction lo with
  | nil => rfl
  | cons a lo ih => rw [cons_append, length_cons, insertIdx_succ_cons, ih, cons_append]

theorem modify_append (lo hi : List Element) (e : Element) (f : Element → Element) :
    (lo ++ e :: hi).modify lo.length f = lo ++ f e :: hi := by
  induction lo with
  | nil => rfl
  | cons a lo ih => simp [ih]

theorem eraseIdx_append (lo hi : List Element) (e : Element) :
    (lo ++ e :: hi).eraseIdx lo.length = lo ++ hi := by
  induction lo with
  | nil => rfl
  | cons a lo ih => simp [ih]

theorem test_spec (hinv : Inv ElementSize v) (Idx : Nat) :
    ∃ v', v.test ElementSize Idx = some (v', mem ElementSize v.Elements Idx) ∧
      v'.Elements = v.Elements ∧ Inv ElementSize v' := by
  by_cases hne : v.Elements = []
  · exact ⟨v, by rw [test, if_pos hne, hne]; rfl, rfl, hinv⟩
  obtain ⟨lo, mid, hi, hv, hsplit⟩ := exists_split hinv.valid.sorted (Idx / ElementSize)
  obtain ⟨p, hfind, hp⟩ := FindLowerBound_spec hsplit hv hne (hinv.refers hne)
  have hle : p ≤ v.Elements.length := by
    rw [hv, length_append, length_append]
    omega
  refine ⟨{ v with CurrElementIter := some p }, ?_, rfl, hinv.valid, fun _ => ⟨p, rfl, hle⟩⟩
  rw [test, if_neg hne, hfind, map_some, mem, some_inj, Prod.mk.injEq, and_iff_right rfl]
  simp only [hv]
  rw [look_split hsplit]
  cases mid with
  | none =>
    cases he : (lo ++ none.toList ++ hi)[p]? with
    | none => rfl
    | some e => simp [hsplit.find_none he]
  | some e =>
    obtain rfl : p = lo.length := hp.resolve_right fun h => absurd h.1 (by simp)
    rw [hsplit.find_some, any_some, any_some, hsplit.mid e rfl, beq_self_eq_true,
      Bool.true_and, Element.test_eq]

theorem findElement_spec (hinv : Inv ElementSize v) (hsplit : Split t lo mid hi)
    (hv : v.Elements = lo ++ mid.toList ++ hi) :
    ∃ v', v.findElement ElementSize t = some (v', lo.length) ∧
      v'.Elements = lo ++ mid.getD (.new ElementSize t) :: hi := by
  by_cases hne : v.Elements = []
  · rw [hne] at hv
    have hnil := hv.symm
    simp only [append_eq_nil_iff] at hnil
    obtain ⟨⟨rfl, hmid⟩, rfl⟩ := hnil
    obtain rfl : mid = none := by simpa using hmid
    exact ⟨_, by rw [findElement, if_pos hne]; rfl, by rw [emplace, hne]; rfl⟩
  obtain ⟨p, hfind, hp⟩ := FindLowerBound_spec hsplit hv hne (hinv.refers hne)
  rw [findElement, if_neg hne, hfind, map_some]
  cases mid with
  | some e =>
    obtain rfl : p = lo.length := hp.resolve_right fun h => absurd h.1 (by simp)
    simp only [hv, hsplit.find_some, any_some, hsplit.mid e rfl, beq_self_eq_true, ↓reduceIte]
    exact ⟨_, rfl, by simp⟩
  | none =>
    have hnone : ((lo ++ none.toList ++ hi)[p]?.any fun e => e.ElementIndex == t) = false := by
      cases he : (lo ++ none.toList ++ hi)[p]? with
      | none => rfl
      | some e => simp [hsplit.find_none he]
    have hplace :
        (if ((lo ++ none.toList ++ hi)[p]?.any fun e => decide (e.ElementIndex < t)) = true then
          p + 1 else p) = lo.length := by
      rcases hp with rfl | ⟨-, hp⟩
      · cases he : (lo ++ none.toList ++ hi)[lo.length]? with
        | none => rfl
        | some e =>
          have hnot : ¬ e.ElementIndex < t := by
            rcases hsplit.getElem? he with hlt | ⟨-, hmid, -⟩ | hgt
            · omega
            · exact absurd hmid.symm (some_ne_none e)
            · omega
          simp [hnot]
      · have hat : p < (lo ++ none.toList ++ hi).length := by
          rw [length_append, length_append]
          omega
        have hlt : (lo ++ none.toList ++ hi)[p].ElementIndex < t := by
          rcases hsplit.getElem? (getElem?_eq_getElem hat) with hlt | ⟨-, hmid, -⟩ | hgt
          · exact hlt.2
          · exact absurd hmid.symm (some_ne_none _)
          · exact absurd hgt.1 (by simp; omega)
        rw [getElem?_eq_getElem hat, any_some, if_pos (decide_eq_true hlt), hp]
    simp only [hv, hnone, false_eq_true, ↓reduceIte, hplace]
    refine ⟨_, rfl, ?_⟩
    rw [emplace, toList_none, append_nil, insertIdx_append]
    rfl

theorem mem_replace (hsplit : Split t lo mid hi) (hsplit' : Split t lo mid' hi) (x : Nat) :
    mem ElementSize (lo ++ mid'.toList ++ hi) x =
      if x / ElementSize = t then mid'.any fun e => e.bit (x % ElementSize)
      else mem ElementSize (lo ++ mid.toList ++ hi) x := by
  split_ifs with ht
  · rw [mem, ht, look_split hsplit']
  · rw [mem, mem, look_split_ne hsplit' ht, look_split_ne hsplit ht]

theorem eq_iff_of_div_eq {Idx : Nat} (ht : x / ElementSize = Idx / ElementSize) :
    x % ElementSize = Idx % ElementSize ↔ x = Idx := by
  refine ⟨fun hmod => ?_, fun heq => heq ▸ rfl⟩
  rw [← div_add_mod x ElementSize, ← div_add_mod Idx ElementSize, ht, hmod]

theorem word_lt {m : Nat} (h : e.Bits.length = BITWORDS_PER_ELEMENT ElementSize)
    (hm : m < ElementSize) :
    m / 64 < e.Bits.length := by
  rw [h, BITWORDS_PER_ELEMENT]
  omega

theorem set_spec (hinv : Inv ElementSize v) {Idx : Nat} (hES : 0 < ElementSize)
    (hIdx : Idx < 2 ^ 32) :
    ∃ v', v.set ElementSize Idx = some v' ∧ Inv ElementSize v' ∧
      ∀ x, mem ElementSize v'.Elements x = (mem ElementSize v.Elements x || decide (x = Idx)) := by
  obtain ⟨lo, mid, hi, hv, hsplit⟩ := exists_split hinv.valid.sorted (Idx / ElementSize)
  obtain ⟨v', hfind, hv'⟩ := findElement_spec hinv hsplit hv
  have hlt := mod_lt Idx hES
  have hdiv : Idx / ElementSize * ElementSize + Idx % ElementSize = Idx := div_add_mod' Idx _
  have hvalid := hv ▸ hinv.valid
  generalize hm : mid.getD (.new ElementSize (Idx / ElementSize)) = m at hv'
  have hmlen : m.Bits.length = BITWORDS_PER_ELEMENT ElementSize := by
    cases mid with
    | none => exact hm ▸ length_replicate
    | some e => exact hm ▸ (hvalid.elements e (by simp)).length
  have hmindex : m.ElementIndex = Idx / ElementSize := by
    cases mid with
    | none => exact hm ▸ rfl
    | some e => exact hm ▸ hsplit.mid e rfl
  have hmbit (k : Nat) : m.bit k = mid.any fun e => e.bit k := by
    cases mid with
    | none => exact hm ▸ Element.bit_new _
    | some e => exact hm ▸ rfl
  have hbit (k : Nat) : (m.set (Idx % ElementSize)).bit k =
      (m.bit k || decide (k = Idx % ElementSize)) := Element.bit_set (word_lt hmlen hlt)
  have hwell : (m.set (Idx % ElementSize)).WellFormed ElementSize := by
    refine ⟨(length_modify _ _ _).trans hmlen, fun k hk => ?_, ⟨Idx % ElementSize, by simp [hbit]⟩⟩
    rw [hbit, or_eq_true, decide_eq_true_eq] at hk
    rcases hk with hk | rfl
    · rw [hmbit] at hk
      cases mid with
      | none => exact absurd hk Bool.false_ne_true
      | some e =>
        have hbounded := (hvalid.elements e (by simp)).bounded k hk
        rwa [hsplit.mid e rfl, ← hmindex] at hbounded
    · exact ⟨hlt, by rw [Element.set, hmindex, hdiv]; exact hIdx⟩
  have hsplit' : Split (Idx / ElementSize) lo (some (m.set (Idx % ElementSize))) hi :=
    ⟨hsplit.lo, by simpa using hmindex, hsplit.hi⟩
  have hElements : v'.Elements.modify lo.length (fun e => e.set (Idx % ElementSize)) =
      lo ++ (some (m.set (Idx % ElementSize))).toList ++ hi := by
    rw [hv', modify_append, toList_some, append_assoc, singleton_append]
  refine ⟨⟨_, some lo.length⟩, by rw [set, hfind, map_some, hElements], ⟨?_, fun _ => ?_⟩,
    fun x => ?_⟩
  · exact hvalid.replace hsplit hsplit'.mid (by simpa using hwell)
  · exact ⟨lo.length, rfl, by simp⟩
  · rw [mem_replace hsplit hsplit', hv]
    split_ifs with ht
    · rw [any_some, hbit, hmbit, mem, ht, look_split hsplit]
      simp only [eq_iff_of_div_eq ht]
    · have hne : x ≠ Idx := fun heq => ht (heq ▸ rfl)
      simp [hne]

theorem reset_spec (hinv : Inv ElementSize v) (hES : 0 < ElementSize) (Idx : Nat) :
    ∃ v', v.reset ElementSize Idx = some v' ∧ Inv ElementSize v' ∧
      ∀ x, mem ElementSize v'.Elements x = (mem ElementSize v.Elements x && !decide (x = Idx)) := by
  by_cases hne : v.Elements = []
  · exact ⟨v, if_pos hne, hinv, fun x => by rw [hne]; rfl⟩
  obtain ⟨lo, mid, hi, hv, hsplit⟩ := exists_split hinv.valid.sorted (Idx / ElementSize)
  obtain ⟨p, hfind, hp⟩ := FindLowerBound_spec hsplit hv hne (hinv.refers hne)
  have hvalid := hv ▸ hinv.valid
  have hle : p ≤ v.Elements.length := by
    rw [hv, length_append, length_append]
    omega
  rw [reset, if_neg hne, hfind, bind_some]
  cases mid with
  | none =>
    refine ⟨{ v with CurrElementIter := some p }, ?_, ⟨hinv.valid, fun _ => ⟨p, rfl, hle⟩⟩,
      fun x => ?_⟩
    · cases he : v.Elements[p]? with
      | none => rfl
      | some e => simp only [ne_eq, hsplit.find_none (hv ▸ he), not_false_eq_true, ↓reduceIte]
    · by_cases hx : x = Idx
      · subst hx
        rw [hv, mem, look_split hsplit]
        rfl
      · simp [hx]
  | some e =>
    obtain rfl : p = lo.length := hp.resolve_right fun h => absurd h.1 (by simp)
    have hindex := hsplit.mid e rfl
    have he := hvalid.elements e (by simp)
    have hbit (k : Nat) : (e.reset (Idx % ElementSize)).bit k =
        (e.bit k && !decide (k = Idx % ElementSize)) :=
      Element.bit_reset (word_lt he.length (mod_lt Idx hES))
    have hset : v.Elements.set lo.length (e.reset (Idx % ElementSize)) =
        lo ++ e.reset (Idx % ElementSize) :: hi := by
      rw [hv]
      simp
    have hmem (mid' : Option Element) (hmid' : Split (Idx / ElementSize) lo mid' hi)
        (hany : ∀ k, (mid'.any fun e => e.bit k) = (e.reset (Idx % ElementSize)).bit k)
        (x : Nat) :
        mem ElementSize (lo ++ mid'.toList ++ hi) x =
          (mem ElementSize v.Elements x && !decide (x = Idx)) := by
      rw [mem_replace hsplit hmid', hv]
      split_ifs with ht
      · rw [hany, hbit, mem, ht, look_split hsplit, any_some]
        simp only [eq_iff_of_div_eq ht]
      · have hne : x ≠ Idx := fun heq => ht (heq ▸ rfl)
        simp [hne]
    have hat : v.Elements[lo.length]? = some e := hv ▸ hsplit.find_some
    simp only [hat, hindex, ne_eq, not_true_eq_false, ↓reduceIte, hset]
    cases hempty : (e.reset (Idx % ElementSize)).empty with
    | true =>
      have hsplit' : Split (Idx / ElementSize) lo none hi := ⟨hsplit.lo, by simp, hsplit.hi⟩
      refine ⟨⟨lo ++ none.toList ++ hi, some lo.length⟩, ?_, ⟨?_, fun _ => ⟨_, rfl, by simp⟩⟩,
        hmem none hsplit' fun k => ?_⟩
      · have hlt : lo.length < (lo ++ e.reset (Idx % ElementSize) :: hi).length := by simp
        simp [advance, erase, eraseIdx_append]
      · exact hvalid.replace hsplit (by simp) (by simp)
      · rw [Element.bit_eq_false_of_empty hempty]
        rfl
    | false =>
      have hsplit' : Split (Idx / ElementSize) lo (some (e.reset (Idx % ElementSize))) hi :=
        ⟨hsplit.lo, by simpa using hindex, hsplit.hi⟩
      refine ⟨⟨lo ++ (some (e.reset (Idx % ElementSize))).toList ++ hi, some lo.length⟩,
        by simp, ⟨?_, fun _ => ⟨_, rfl, by simp⟩⟩, hmem _ hsplit' fun k => rfl⟩
      refine hvalid.replace hsplit hsplit'.mid ?_
      have hwell : (e.reset (Idx % ElementSize)).WellFormed ElementSize := by
        refine ⟨(length_modify _ _ _).trans he.length, fun k hk => ?_, ?_⟩
        · rw [hbit, and_eq_true] at hk
          exact he.bounded k hk.1
        · by_contra hnone
          rw [Element.empty_of_bit fun k => eq_false_iff.mpr fun hk => hnone ⟨k, hk⟩]
            at hempty
          exact absurd hempty.symm Bool.false_ne_true
      simpa using hwell

theorem test_and_set_spec (hinv : Inv ElementSize v) {Idx : Nat} (hES : 0 < ElementSize)
    (hIdx : Idx < 2 ^ 32) :
    ∃ v' b, v.test_and_set ElementSize Idx = some (v', b) ∧ Inv ElementSize v' ∧
      (∀ x, mem ElementSize v'.Elements x = (mem ElementSize v.Elements x || decide (x = Idx))) ∧
      (b = true ↔ mem ElementSize v.Elements Idx = false) := by
  obtain ⟨v₁, htest, hsame, hinv₁⟩ := test_spec hinv Idx
  cases hb : mem ElementSize v.Elements Idx with
  | true =>
    refine ⟨v₁, false, by rw [test_and_set, htest, bind_some, hb]; rfl, hinv₁, fun x => ?_, by simp⟩
    rw [hsame]
    by_cases hx : x = Idx
    · rw [hx, hb, Bool.true_or]
    · simp [hx]
  | false =>
    obtain ⟨v₂, hset, hinv₂, hmem⟩ := set_spec hinv₁ hES hIdx
    refine ⟨v₂, true, by rw [test_and_set, htest, bind_some, hb]; simp [hset], hinv₂,
      fun x => ?_, by simp⟩
    rw [hmem, hsame]

end SparseBitVector

end Zapcc.SparseBits
