import Zapcc.Support.APIntGCD

/-!
# Elements of sparse bit vectors

An element is an index and the words of its bits. A list of elements is sorted by index, and none of
them is zero. The operations on two vectors walk two lists at once (`walk_spec`).
-/

namespace Zapcc.SparseBits

open List

open APInt (countTrailingZeros)

/-! ## Elements -/

abbrev BitWord := BitVec 64

structure Element where
  ElementIndex : Nat
  Bits : List BitWord
  deriving DecidableEq

variable (ElementSize : Nat)

def BITWORDS_PER_ELEMENT : Nat := (ElementSize + 63) / 64

namespace Element

/-- The constructor with an index. -/
def new (Idx : Nat) : Element := ⟨Idx, List.replicate (BITWORDS_PER_ELEMENT ElementSize) 0#64⟩

def empty (e : Element) : Bool := e.Bits.all (· == 0#64)

def set (e : Element) (Idx : Nat) : Element :=
  { e with Bits := e.Bits.modify (Idx / 64) (· ||| BitVec.twoPow 64 (Idx % 64)) }

def reset (e : Element) (Idx : Nat) : Element :=
  { e with Bits := e.Bits.modify (Idx / 64) (· &&& ~~~BitVec.twoPow 64 (Idx % 64)) }

def test (e : Element) (Idx : Nat) : Bool :=
  (e.Bits.getD (Idx / 64) 0#64 &&& BitVec.twoPow 64 (Idx % 64)) != 0#64

/-- The first bit that is set in words, the first of which is the word `i`. -/
def firstWord : Nat → List BitWord → Option Nat
  | _, [] => none
  | i, w :: ws => if w ≠ 0#64 then some (i * 64 + countTrailingZeros w) else firstWord (i + 1) ws

/-- An empty element has no result. -/
def find_first (e : Element) : Option Nat := firstWord 0 e.Bits

/-- There is no result where the source returns `-1`. -/
def find_next (e : Element) (Curr : Nat) : Option Nat :=
  if ElementSize ≤ Curr then none
  else
    let Copy := e.Bits.getD (Curr / 64) 0#64 &&& (BitVec.allOnes 64 <<< (Curr % 64))
    if Copy ≠ 0#64 then some (Curr / 64 * 64 + countTrailingZeros Copy)
    else firstWord (Curr / 64 + 1) (e.Bits.drop (Curr / 64 + 1))

/-- The loop of `unionWith`, `intersectWith` and `intersectWithComplement`. -/
def combineWords (word : BitWord → BitWord → BitWord) (changed allzero : Bool) :
    List BitWord → List BitWord → List BitWord × Bool × Bool
  | w :: ws, r :: rs =>
    let old := if changed then 0#64 else w
    let rest := combineWords word (changed || old != word w r) (allzero && word w r == 0#64) ws rs
    (word w r :: rest.1, rest.2)
  | ws, _ => (ws, changed, allzero)

/-- The element, whether it changed, and `BecameZero`. -/
def combine (word : BitWord → BitWord → BitWord) (e RHS : Element) : Element × Bool × Bool :=
  let r := combineWords word false true e.Bits RHS.Bits
  ({ e with Bits := r.1 }, r.2)

/-! ### Their bits -/

def bit (e : Element) (k : Nat) : Bool := (e.Bits.getD (k / 64) 0#64).getLsbD (k % 64)

variable {ElementSize} {e RHS : Element} {i k n : Nat}

@[simp] theorem ElementIndex_set (e : Element) (n : Nat) :
    (e.set n).ElementIndex = e.ElementIndex := rfl

@[simp] theorem ElementIndex_reset (e : Element) (n : Nat) :
    (e.reset n).ElementIndex = e.ElementIndex := rfl

theorem test_eq (e : Element) (k : Nat) : e.test k = e.bit k := by
  rw [test, bit, BitVec.and_twoPow]
  cases (e.Bits.getD (k / 64) 0#64).getLsbD (k % 64) with
  | false => rfl
  | true =>
    have hne : BitVec.twoPow 64 (k % 64) ≠ 0#64 := fun h => by
      have hbit := congrArg (fun x => x.getLsbD (k % 64)) h
      simp [Nat.mod_lt] at hbit
    simp [hne]

theorem getD_modify {f : BitWord → BitWord} {ws : List BitWord} (hn : n < ws.length) :
    (ws.modify n f).getD i 0#64 = if i = n then f (ws.getD i 0#64) else ws.getD i 0#64 := by
  by_cases hi : i = n
  · subst hi
    simp [getD_eq_getElem?_getD, hn]
  · simp [getD_eq_getElem?_getD, hi, Ne.symm hi]

theorem bit_modify {f : BitWord → BitWord} (hn : n < e.Bits.length) :
    bit { e with Bits := e.Bits.modify n f } k =
      if k / 64 = n then (f (e.Bits.getD (k / 64) 0#64)).getLsbD (k % 64) else e.bit k := by
  rw [bit, getD_modify hn]
  split_ifs <;> rfl

theorem bit_set (hn : n / 64 < e.Bits.length) : (e.set n).bit k = (e.bit k || decide (k = n)) := by
  rw [set, bit_modify hn]
  split_ifs with hk
  · have hlt : k % 64 < 64 := Nat.mod_lt _ (by decide)
    rw [BitVec.getLsbD_or, BitVec.getLsbD_twoPow, bit]
    have hlt' : n % 64 < 64 := Nat.mod_lt _ (by decide)
    have hiff : (n % 64 = k % 64) ↔ k = n := by omega
    simp [hlt, hlt', hiff]
  · have hne : k ≠ n := fun h => hk (h ▸ rfl)
    simp [hne]

theorem bit_reset (hn : n / 64 < e.Bits.length) :
    (e.reset n).bit k = (e.bit k && !decide (k = n)) := by
  rw [reset, bit_modify hn]
  split_ifs with hk
  · have hlt : k % 64 < 64 := Nat.mod_lt _ (by decide)
    rw [BitVec.getLsbD_and, BitVec.getLsbD_not, BitVec.getLsbD_twoPow, bit]
    have hlt' : n % 64 < 64 := Nat.mod_lt _ (by decide)
    have hiff : (n % 64 = k % 64) ↔ k = n := by omega
    simp [hlt, hlt', hiff]
  · have hne : k ≠ n := fun h => hk (h ▸ rfl)
    simp [hne]

theorem bit_new (Idx : Nat) : (new ElementSize Idx).bit k = false := by
  rw [bit, new, getD_eq_getElem?_getD, getElem?_replicate]
  split_ifs <;> simp

theorem bit_eq_false_of_empty (h : e.empty = true) (k : Nat) : e.bit k = false := by
  rw [bit, getD_eq_getElem?_getD]
  cases hw : e.Bits[k / 64]? with
  | none => simp
  | some w =>
    have hzero := List.all_eq_true.mp h w (mem_of_getElem? hw)
    rw [Option.getD_some, eq_of_beq hzero, BitVec.getLsbD_zero]

theorem Bits_ext (hlen : e.Bits.length = RHS.Bits.length) (h : ∀ k, e.bit k = RHS.bit k) :
    e.Bits = RHS.Bits := by
  refine ext_getElem hlen fun i hi hi' => BitVec.eq_of_getLsbD_eq fun j hj => ?_
  have hbit := h (i * 64 + j)
  rw [bit, bit, show (i * 64 + j) / 64 = i by omega, show (i * 64 + j) % 64 = j by omega,
    getD_eq_getElem?_getD, getD_eq_getElem?_getD, getElem?_eq_getElem hi,
    getElem?_eq_getElem hi'] at hbit
  exact hbit

theorem empty_of_bit (h : ∀ k, e.bit k = false) : e.empty = true := by
  refine List.all_eq_true.mpr fun w hw => ?_
  obtain ⟨i, hi, rfl⟩ := getElem_of_mem hw
  rw [beq_iff_eq]
  refine BitVec.eq_of_getLsbD_eq fun j hj => ?_
  have hbit := h (i * 64 + j)
  rw [bit, show (i * 64 + j) / 64 = i by omega, show (i * 64 + j) % 64 = j by omega,
    getD_eq_getElem?_getD, getElem?_eq_getElem hi, Option.getD_some] at hbit
  rw [hbit, BitVec.getLsbD_zero]

theorem combineWords_eq (word : BitWord → BitWord → BitWord) (changed allzero : Bool)
    {ws rs : List BitWord} (h : ws.length = rs.length) :
    combineWords word changed allzero ws rs =
      (List.zipWith word ws rs, changed || decide (List.zipWith word ws rs ≠ ws),
        allzero && (List.zipWith word ws rs).all (· == 0#64)) := by
  induction ws generalizing rs changed allzero with
  | nil => simp [combineWords]
  | cons w ws ih =>
    cases rs with
    | nil => exact absurd h (by simp)
    | cons r rs =>
      rw [combineWords, ih _ _ (Nat.succ.inj h), zipWith_cons_cons, all_cons]
      by_cases hw : word w r = w
      · cases changed <;> simp [hw, Bool.and_assoc]
      · cases changed <;> simp [hw, Ne.symm hw, Bool.and_assoc]

theorem combine_spec {word : BitWord → BitWord → BitWord} {g : Bool → Bool → Bool}
    (hword : ∀ w r j, j < 64 → (word w r).getLsbD j = g (w.getLsbD j) (r.getLsbD j))
    (hg : g false false = false) (hlen : e.Bits.length = RHS.Bits.length) :
    (e.combine word RHS).1.ElementIndex = e.ElementIndex ∧
      (e.combine word RHS).1.Bits.length = e.Bits.length ∧
      (∀ k, (e.combine word RHS).1.bit k = g (e.bit k) (RHS.bit k)) ∧
      ((e.combine word RHS).2.1 = true ↔ (e.combine word RHS).1 ≠ e) ∧
      (e.combine word RHS).2.2 = (e.combine word RHS).1.empty := by
  rw [combine, combineWords_eq word false true hlen]
  refine ⟨rfl, by simp [hlen], fun k => ?_, ?_, rfl⟩
  · have hk : k % 64 < 64 := Nat.mod_lt _ (by decide)
    simp only [bit, getD_eq_getElem?_getD, getElem?_zipWith]
    cases hw : e.Bits[k / 64]? with
    | none =>
      have hr : RHS.Bits[k / 64]? = none := by
        rw [List.getElem?_eq_none_iff] at hw ⊢
        omega
      simp [hr, hg]
    | some w =>
      cases hr : RHS.Bits[k / 64]? with
      | none =>
        rw [List.getElem?_eq_none_iff] at hr
        have hlt := (List.getElem?_eq_some_iff.mp hw).1
        omega
      | some r => exact hword w r _ hk
  · obtain ⟨index, Bits⟩ := e
    simp

end Element

/-! ## Lists of elements -/

/-- How an operation on two vectors treats words, and elements without a counterpart. -/
structure Walk where
  word : BitWord → BitWord → BitWord
  /-- An element that only the vector itself has stays. -/
  keeps : Bool
  /-- An element that only the other vector has is copied. -/
  inserts : Bool
  /-- An element that becomes zero is erased. -/
  erases : Bool

/-- The loop over two vectors: the elements from the first iterator on, and whether they changed. -/
def walk (w : Walk) : List Element → List Element → List Element × Bool
  | Iter1, [] => if w.keeps then (Iter1, false) else ([], !Iter1.isEmpty)
  | [], e2 :: Iter2 => if w.inserts then (e2 :: (walk w [] Iter2).1, true) else ([], false)
  | e1 :: Iter1, e2 :: Iter2 =>
    if e2.ElementIndex < e1.ElementIndex then
      if w.inserts then (e2 :: (walk w (e1 :: Iter1) Iter2).1, true)
      else walk w (e1 :: Iter1) Iter2
    else if e1.ElementIndex = e2.ElementIndex then
      let c := e1.combine w.word e2
      let r := walk w Iter1 Iter2
      if w.erases && c.2.2 then (r.1, c.2.1 || r.2) else (c.1 :: r.1, c.2.1 || r.2)
    else
      let r := walk w Iter1 (e2 :: Iter2)
      if w.keeps then (e1 :: r.1, r.2) else (r.1, true)
  termination_by Iter1 Iter2 => Iter1.length + Iter2.length

/-- The bit of an element with some index. -/
def look (es : List Element) (i k : Nat) : Bool :=
  es.any fun e => e.ElementIndex == i && e.bit k

/-- The form of an element. No bit is out of its range, or stands for more than 32 bits. -/
structure Element.WellFormed (ElementSize : Nat) (e : Element) : Prop where
  length : e.Bits.length = BITWORDS_PER_ELEMENT ElementSize
  bounded : ∀ k, e.bit k = true → k < ElementSize ∧ e.ElementIndex * ElementSize + k < 2 ^ 32
  nonzero : ∃ k, e.bit k = true

/-- The invariant of the list. -/
structure Valid (ElementSize : Nat) (es : List Element) : Prop where
  sorted : es.Pairwise fun e e' => e.ElementIndex < e'.ElementIndex
  elements : ∀ e ∈ es, e.WellFormed ElementSize

variable {ElementSize} {es es' es₁ es₂ : List Element} {e e' e₁ e₂ : Element} {i k n : Nat}

theorem look_eq_false (h : ∀ e ∈ es, e.ElementIndex ≠ i) : look es i k = false := by
  rw [look, any_eq_false]
  exact fun e he => by simp [h e he]

theorem look_append : look (es ++ es') i k = (look es i k || look es' i k) := any_append

theorem look_cons : look (e :: es) i k = (e.ElementIndex == i && e.bit k || look es i k) := rfl

theorem Valid.tail (h : Valid ElementSize (e :: es)) : Valid ElementSize es :=
  ⟨h.sorted.of_cons, fun e' he => h.elements e' (mem_cons_of_mem _ he)⟩

theorem Valid.head (h : Valid ElementSize (e :: es)) : e.WellFormed ElementSize :=
  h.elements e mem_cons_self

theorem Valid.lt_of_mem (h : Valid ElementSize (e :: es)) (he : e' ∈ es) :
    e.ElementIndex < e'.ElementIndex := rel_of_pairwise_cons h.sorted he

theorem Valid.nil : Valid ElementSize [] := ⟨.nil, by simp⟩

theorem Valid.cons (h : Valid ElementSize es) (he : e.WellFormed ElementSize)
    (hlt : ∀ e' ∈ es, e.ElementIndex < e'.ElementIndex) : Valid ElementSize (e :: es) :=
  ⟨.cons hlt h.sorted, List.forall_mem_cons.mpr ⟨he, h.elements⟩⟩

theorem Valid.look_head (h : Valid ElementSize (e :: es)) (k : Nat) :
    look (e :: es) e.ElementIndex k = e.bit k := by
  rw [look_cons, look_eq_false fun e' he => (h.lt_of_mem he).ne', beq_self_eq_true, Bool.true_and,
    Bool.or_false]

theorem look_cons_of_ne (h : e.ElementIndex ≠ i) : look (e :: es) i k = look es i k := by
  rw [look_cons, beq_eq_false_iff_ne.mpr h, Bool.false_and, Bool.false_or]

theorem Valid.ext (h : Valid ElementSize es) (h' : Valid ElementSize es')
    (heq : ∀ i k, look es i k = look es' i k) : es = es' := by
  induction es generalizing es' with
  | nil =>
    cases es' with
    | nil => rfl
    | cons e' es' =>
      obtain ⟨k, hk⟩ := h'.head.nonzero
      have hlook := heq e'.ElementIndex k
      rw [h'.look_head, hk] at hlook
      exact absurd hlook Bool.false_ne_true
  | cons e es ih =>
    cases es' with
    | nil =>
      obtain ⟨k, hk⟩ := h.head.nonzero
      have hlook := heq e.ElementIndex k
      rw [h.look_head, hk] at hlook
      exact absurd hlook.symm Bool.false_ne_true
    | cons e' es' =>
      have hindex : e.ElementIndex = e'.ElementIndex := by
        rcases Nat.lt_trichotomy e.ElementIndex e'.ElementIndex with hlt | heqi | hlt
        · obtain ⟨k, hk⟩ := h.head.nonzero
          have hlook := heq e.ElementIndex k
          rw [h.look_head, hk, look_cons_of_ne hlt.ne',
            look_eq_false fun a ha => (hlt.trans (h'.lt_of_mem ha)).ne'] at hlook
          exact absurd hlook.symm Bool.false_ne_true
        · exact heqi
        · obtain ⟨k, hk⟩ := h'.head.nonzero
          have hlook := heq e'.ElementIndex k
          rw [h'.look_head, hk, look_cons_of_ne hlt.ne',
            look_eq_false fun a ha => (hlt.trans (h.lt_of_mem ha)).ne'] at hlook
          exact absurd hlook Bool.false_ne_true
      have hbits : e.Bits = e'.Bits := Element.Bits_ext
        (h.head.length.trans h'.head.length.symm) fun k => by
          rw [← h.look_head, heq, hindex, h'.look_head]
      obtain ⟨index, Bits⟩ := e
      obtain ⟨index', Bits'⟩ := e'
      obtain rfl : index = index' := hindex
      obtain rfl : Bits = Bits' := hbits
      refine congrArg _ (ih h.tail h'.tail fun i k => ?_)
      by_cases hi : index = i
      · subst hi
        rw [look_eq_false fun a ha => (h.lt_of_mem ha).ne',
          look_eq_false fun a ha => (h'.lt_of_mem ha).ne']
      · have hlook := heq i k
        rwa [look_cons_of_ne hi, look_cons_of_ne hi] at hlook

/-- What an operation does to bits. -/
structure Walk.Does (w : Walk) (g : Bool → Bool → Bool) : Prop where
  word : ∀ a b j, j < 64 → (w.word a b).getLsbD j = g (a.getLsbD j) (b.getLsbD j)
  zero : g false false = false
  keeps : g true false = w.keeps
  inserts : g false true = w.inserts
  /-- An operation that erases no element clears no bit. -/
  erases : w.erases = false → ∀ b, g true b = true

/-- What the loop over two vectors leaves of them. -/
structure Walked (ElementSize : Nat) (g : Bool → Bool → Bool) (es₁ es₂ es : List Element)
    (changed : Bool) : Prop where
  valid : Valid ElementSize es
  from' : ∀ e ∈ es, ∃ e' ∈ es₁ ++ es₂, e'.ElementIndex = e.ElementIndex
  bits : ∀ i k, look es i k = g (look es₁ i k) (look es₂ i k)
  changed : changed = true ↔ es ≠ es₁

theorem Walked.lt {g : Bool → Bool → Bool} {changed : Bool}
    (h : Walked ElementSize g es₁ es₂ es changed)
    (h₁ : ∀ e ∈ es₁, i < e.ElementIndex) (h₂ : ∀ e ∈ es₂, i < e.ElementIndex) :
    ∀ e ∈ es, i < e.ElementIndex := by
  intro e he
  obtain ⟨e', he', heq⟩ := h.from' e he
  rcases List.mem_append.mp he' with hmem | hmem
  · exact heq ▸ h₁ e' hmem
  · exact heq ▸ h₂ e' hmem

theorem look_lt (h : ∀ e ∈ es, i < e.ElementIndex) : look es i k = false :=
  look_eq_false fun e he => (h e he).ne'

/-! ### The loop over two vectors -/

variable {w : Walk} {g : Bool → Bool → Bool} {c d : Bool}

theorem Walk.Does.right (h : w.Does g) (b : Bool) (hg : g false true = true) : g false b = b := by
  cases b with
  | false => exact h.zero
  | true => exact hg

theorem Walk.Does.left (h : w.Does g) (b : Bool) (hg : g true false = true) : g b false = b := by
  cases b with
  | false => exact h.zero
  | true => exact hg

theorem Walk.Does.right_false (h : w.Does g) (b : Bool) (hg : g false true = false) :
    g false b = false := by
  cases b with
  | false => exact h.zero
  | true => exact hg

theorem Walk.Does.left_false (h : w.Does g) (b : Bool) (hg : g true false = false) :
    g b false = false := by
  cases b with
  | false => exact h.zero
  | true => exact hg

theorem walked_keep_all (hw : w.Does g) (h : Valid ElementSize es) (hg : g true false = true) :
    Walked ElementSize g es [] es false :=
  ⟨h, fun e he => ⟨e, by simpa using he, rfl⟩, fun i k => (hw.left _ hg).symm, by simp⟩

theorem walked_drop_all (hw : w.Does g) (hg : g true false = false) :
    Walked ElementSize g es [] [] !es.isEmpty :=
  ⟨.nil, by simp, fun i k => (hw.left_false _ hg).symm, by cases es <;> simp⟩

theorem Walked.insert (hw : w.Does g) (h : Walked ElementSize g es₁ es₂ es c)
    (h₂ : Valid ElementSize (e :: es₂)) (hlt : ∀ e' ∈ es₁, e.ElementIndex < e'.ElementIndex)
    (hg : g false true = true) : Walked ElementSize g es₁ (e :: es₂) (e :: es) true where
  valid := h.valid.cons h₂.head (h.lt hlt fun e' he => h₂.lt_of_mem he)
  from' := by
    refine List.forall_mem_cons.mpr ⟨⟨e, by simp, rfl⟩, fun e' he => ?_⟩
    obtain ⟨a, ha, heq⟩ := h.from' e' he
    exact ⟨a, by simp only [mem_append, mem_cons] at ha ⊢; tauto, heq⟩
  bits i k := by
    by_cases hi : e.ElementIndex = i
    · subst hi
      have hvalid := h.valid.cons h₂.head (h.lt hlt fun e' he => h₂.lt_of_mem he)
      rw [hvalid.look_head, h₂.look_head, look_lt hlt, hw.right _ hg]
    · rw [look_cons_of_ne hi, look_cons_of_ne hi, h.bits]
  changed := by
    refine iff_of_true rfl ?_
    rintro rfl
    exact (hlt e mem_cons_self).ne rfl

theorem Walked.skip (hw : w.Does g) (h : Walked ElementSize g es₁ es₂ es c)
    (h₂ : Valid ElementSize (e :: es₂)) (hlt : ∀ e' ∈ es₁, e.ElementIndex < e'.ElementIndex)
    (hg : g false true = false) : Walked ElementSize g es₁ (e :: es₂) es c where
  valid := h.valid
  from' e' he := by
    obtain ⟨a, ha, heq⟩ := h.from' e' he
    exact ⟨a, by simp only [mem_append, mem_cons] at ha ⊢; tauto, heq⟩
  bits i k := by
    by_cases hi : e.ElementIndex = i
    · subst hi
      rw [look_lt (h.lt hlt fun e' he => h₂.lt_of_mem he), look_lt hlt, hw.right_false _ hg]
    · rw [look_cons_of_ne hi, h.bits]
  changed := h.changed

theorem Walked.keep (hw : w.Does g) (h : Walked ElementSize g es₁ es₂ es c)
    (h₁ : Valid ElementSize (e :: es₁)) (hlt : ∀ e' ∈ es₂, e.ElementIndex < e'.ElementIndex)
    (hg : g true false = true) : Walked ElementSize g (e :: es₁) es₂ (e :: es) c where
  valid := h.valid.cons h₁.head (h.lt (fun e' he => h₁.lt_of_mem he) hlt)
  from' := by
    refine List.forall_mem_cons.mpr ⟨⟨e, by simp, rfl⟩, fun e' he => ?_⟩
    obtain ⟨a, ha, heq⟩ := h.from' e' he
    exact ⟨a, by simp only [mem_append, mem_cons] at ha ⊢; tauto, heq⟩
  bits i k := by
    by_cases hi : e.ElementIndex = i
    · subst hi
      have hvalid := h.valid.cons h₁.head (h.lt (fun e' he => h₁.lt_of_mem he) hlt)
      rw [hvalid.look_head, h₁.look_head, look_lt hlt, hw.left _ hg]
    · rw [look_cons_of_ne hi, look_cons_of_ne hi, h.bits]
  changed := by rw [h.changed, ne_eq, ne_eq, List.cons.injEq, and_iff_right rfl]

theorem Walked.drop (hw : w.Does g) (h : Walked ElementSize g es₁ es₂ es c)
    (h₁ : Valid ElementSize (e :: es₁)) (hlt : ∀ e' ∈ es₂, e.ElementIndex < e'.ElementIndex)
    (hg : g true false = false) : Walked ElementSize g (e :: es₁) es₂ es true where
  valid := h.valid
  from' e' he := by
    obtain ⟨a, ha, heq⟩ := h.from' e' he
    exact ⟨a, by simp only [mem_append, mem_cons] at ha ⊢; tauto, heq⟩
  bits i k := by
    by_cases hi : e.ElementIndex = i
    · subst hi
      rw [look_lt (h.lt (fun e' he => h₁.lt_of_mem he) hlt), look_lt hlt, hw.left_false _ hg]
    · rw [look_cons_of_ne hi, h.bits]
  changed := by
    refine iff_of_true rfl ?_
    rintro rfl
    exact (h.lt (fun e' he => h₁.lt_of_mem he) hlt e mem_cons_self).ne rfl

theorem Walked.both (hw : w.Does g) (h : Walked ElementSize g es₁ es₂ es c)
    (h₁ : Valid ElementSize (e₁ :: es₁)) (h₂ : Valid ElementSize (e₂ :: es₂))
    (heq : e₁.ElementIndex = e₂.ElementIndex) :
    let r := e₁.combine w.word e₂
    if r.2.2 then Walked ElementSize g (e₁ :: es₁) (e₂ :: es₂) es (r.2.1 || c)
    else Walked ElementSize g (e₁ :: es₁) (e₂ :: es₂) (r.1 :: es) (r.2.1 || c) := by
  have hlen : e₁.Bits.length = e₂.Bits.length := h₁.head.length.trans h₂.head.length.symm
  obtain ⟨hindex, hlength, hbit, hchanged, hempty⟩ :=
    Element.combine_spec hw.word hw.zero hlen
  have hlt := h.lt (i := e₁.ElementIndex) (fun e he => h₁.lt_of_mem he) fun e he => by
    rw [heq]
    exact h₂.lt_of_mem he
  have hfrom : ∀ e ∈ es, ∃ e' ∈ e₁ :: es₁ ++ e₂ :: es₂, e'.ElementIndex = e.ElementIndex := by
    intro e he
    obtain ⟨a, ha, heqa⟩ := h.from' e he
    exact ⟨a, by simp only [mem_append, mem_cons] at ha ⊢; tauto, heqa⟩
  have hhead (k : Nat) :
      g (look (e₁ :: es₁) e₁.ElementIndex k) (look (e₂ :: es₂) e₁.ElementIndex k) =
        (e₁.combine w.word e₂).1.bit k := by
    rw [h₁.look_head, heq, h₂.look_head, hbit]
  have htail (i k : Nat) (hi : e₁.ElementIndex ≠ i) :
      look es i k = g (look (e₁ :: es₁) i k) (look (e₂ :: es₂) i k) := by
    rw [look_cons_of_ne hi, look_cons_of_ne (heq ▸ hi), h.bits]
  intro r
  split_ifs with hzero
  · have hnone := Element.bit_eq_false_of_empty (hempty ▸ hzero)
    refine ⟨h.valid, hfrom, fun i k => ?_, ?_⟩
    · by_cases hi : e₁.ElementIndex = i
      · subst hi
        rw [hhead, hnone, look_lt hlt]
      · exact htail i k hi
    · have hne : r.1 ≠ e₁ := by
        intro hsame
        obtain ⟨k, hk⟩ := h₁.head.nonzero
        rw [← hsame, hnone] at hk
        exact Bool.false_ne_true hk
      refine iff_of_true (by rw [hchanged.mpr hne, Bool.true_or]) ?_
      rintro rfl
      exact (hlt e₁ mem_cons_self).ne rfl
  · have hwell : r.1.WellFormed ElementSize := by
      refine ⟨hlength.trans h₁.head.length, fun k hk => ?_, ?_⟩
      · rw [hbit] at hk
        cases hk₁ : e₁.bit k with
        | true => exact h₁.head.bounded k hk₁
        | false =>
          cases hk₂ : e₂.bit k with
          | true => exact heq ▸ h₂.head.bounded k hk₂
          | false => rw [hk₁, hk₂, hw.zero] at hk; exact absurd hk Bool.false_ne_true
      · by_contra hnone
        refine hzero (hempty.trans (Element.empty_of_bit fun k => ?_))
        exact Bool.eq_false_iff.mpr fun hk => hnone ⟨k, hk⟩
    have hvalid : Valid ElementSize (r.1 :: es) := h.valid.cons hwell (hindex ▸ hlt)
    refine ⟨hvalid, List.forall_mem_cons.mpr ⟨⟨e₁, by simp, hindex.symm⟩, hfrom⟩, fun i k => ?_, ?_⟩
    · by_cases hi : e₁.ElementIndex = i
      · subst hi
        rw [hhead, ← hindex, hvalid.look_head]
      · rw [look_cons_of_ne (hindex ▸ hi), htail i k hi]
    · rw [Bool.or_eq_true, hchanged, h.changed, ne_eq, ne_eq, ne_eq, List.cons.injEq, not_and_or]

theorem Walk.Does.erases_of_zero (hw : w.Does g) (h₁ : e₁.WellFormed ElementSize)
    (h₂ : e₂.WellFormed ElementSize) (hzero : (e₁.combine w.word e₂).2.2 = true) :
    w.erases = true := by
  have hlen : e₁.Bits.length = e₂.Bits.length := h₁.length.trans h₂.length.symm
  obtain ⟨-, -, hbit, -, hempty⟩ := Element.combine_spec hw.word hw.zero hlen
  obtain ⟨k, hk⟩ := h₁.nonzero
  cases herases : w.erases with
  | true => rfl
  | false =>
    have hnone := Element.bit_eq_false_of_empty (hempty ▸ hzero) k
    rw [hbit, hk, hw.erases herases] at hnone
    exact absurd hnone.symm Bool.false_ne_true

theorem walk_spec (hw : w.Does g) (h₁ : Valid ElementSize es₁) (h₂ : Valid ElementSize es₂) :
    Walked ElementSize g es₁ es₂ (walk w es₁ es₂).1 (walk w es₁ es₂).2 := by
  induction hn : es₁.length + es₂.length using Nat.strongRecOn generalizing es₁ es₂ with
  | ind n ih =>
    cases es₂ with
    | nil =>
      rw [walk]
      cases hkeeps : w.keeps with
      | true => exact walked_keep_all hw h₁ (hw.keeps.trans hkeeps)
      | false => exact walked_drop_all hw (hw.keeps.trans hkeeps)
    | cons e₂ es₂ =>
      cases es₁ with
      | nil =>
        have htail := ih _ (by simp [← hn]) h₁ h₂.tail rfl
        rw [walk]
        cases hinserts : w.inserts with
        | true => exact htail.insert hw h₂ (by simp) (hw.inserts.trans hinserts)
        | false =>
          have hnil : (walk w [] es₂) = ([], false) := by
            cases es₂ <;> rw [walk] <;> simp [hinserts]
          rw [hnil] at htail
          exact htail.skip hw h₂ (by simp) (hw.inserts.trans hinserts)
      | cons e₁ es₁ =>
        rw [walk]
        by_cases hgt : e₂.ElementIndex < e₁.ElementIndex
        · have hlt : ∀ e ∈ e₁ :: es₁, e₂.ElementIndex < e.ElementIndex :=
            List.forall_mem_cons.mpr ⟨hgt, fun e he => hgt.trans (h₁.lt_of_mem he)⟩
          have hrest := ih _ (by simp [← hn]) h₁ h₂.tail rfl
          rw [if_pos hgt]
          cases hinserts : w.inserts with
          | true => exact hrest.insert hw h₂ hlt (hw.inserts.trans hinserts)
          | false => exact hrest.skip hw h₂ hlt (hw.inserts.trans hinserts)
        rw [if_neg hgt]
        by_cases heq : e₁.ElementIndex = e₂.ElementIndex
        · have hrest := ih _ (by simp [← hn]; omega) h₁.tail h₂.tail rfl
          have hboth := hrest.both hw h₁ h₂ heq
          rw [if_pos heq]
          cases hzero : (e₁.combine w.word e₂).2.2 with
          | false => simpa [hzero] using hboth
          | true =>
            have herases := hw.erases_of_zero h₁.head h₂.head hzero
            simpa [hzero, herases] using hboth
        · have hlt : ∀ e ∈ e₂ :: es₂, e₁.ElementIndex < e.ElementIndex :=
            List.forall_mem_cons.mpr ⟨by omega, fun e he => by have := h₂.lt_of_mem he; omega⟩
          have hrest := ih _ (by simp [← hn]) h₁.tail h₂ rfl
          rw [if_neg heq]
          cases hkeeps : w.keeps with
          | true => exact hrest.keep hw h₁ hlt (hw.keeps.trans hkeeps)
          | false => exact hrest.drop hw h₁ hlt (hw.keeps.trans hkeeps)

end Zapcc.SparseBits
