import Zapcc.Rewrite.RewriteBuffer
import Zapcc.Library.SortedKeys
import Mathlib.Order.Interval.Finset.Nat

/-!
# The edited text

What the operations of a rewrite buffer are for: each character of the edited text comes from an
offset of the original one, and the characters are sorted by it. The edits are made at offsets of
the original text, without deltas.
-/

namespace Zapcc.Rewrite

open SortedKeys List

/-- Where a character comes from: the original text, a text inserted at an offset, or a text that
replaces what was at an offset. -/
inductive Origin where
  | original (offset : Nat)
  | inserted (offset : Nat)
  | replaced (offset : Nat)
  deriving DecidableEq

namespace Origin

def offset : Origin → Nat
  | original offset => offset
  | inserted offset => offset
  | replaced offset => offset

/-- Inserted texts are in front of the original character. -/
def key : Origin → Nat
  | original offset => 2 * offset + 1
  | inserted offset => 2 * offset
  | replaced offset => 2 * offset + 1

/-- A character of the original text. -/
def IsOriginal : Origin → Prop
  | original _ => True
  | inserted _ => False
  | replaced _ => False

instance : (o : Origin) → Decidable o.IsOriginal
  | original _ => isTrue trivial
  | inserted _ => isFalse id
  | replaced _ => isFalse id

theorem key_bounds (o : Origin) : 2 * o.offset ≤ o.key ∧ o.key ≤ 2 * o.offset + 1 := by
  cases o <;> exact ⟨by simp only [offset, key]; omega, by simp only [offset, key]; omega⟩

theorem eq_original {o : Origin} (h : o.IsOriginal) : o = original o.offset := by
  cases o with
  | original => rfl
  | inserted | replaced => exact absurd h id

end Origin

/-- A character with its origin. -/
abbrev Marked := Origin × UInt8

abbrev markKey (t : Marked) : Nat := t.1.key

theorem markKey_bounds (t : Marked) : 2 * t.1.offset ≤ markKey t ∧ markKey t ≤ 2 * t.1.offset + 1 :=
  t.1.key_bounds

theorem markKey_original {t : Marked} (h : t.1.IsOriginal) : markKey t = 2 * t.1.offset + 1 := by
  rw [markKey, Origin.eq_original h]
  rfl

/-- An edited text, and the empty lines that were removed from it, each with its start. -/
structure EditedText where
  text : List Marked
  lines : List (Nat × List Marked)

namespace EditedText

/-- The characters of a text. -/
def bytes (text : List Marked) : List UInt8 := text.map Prod.snd

/-- A text from an offset on. -/
def ofText : Nat → List UInt8 → List Marked
  | _, [] => []
  | offset, c :: cs => (.original offset, c) :: ofText (offset + 1) cs

def new (s : List UInt8) : EditedText := ⟨ofText 0 s, []⟩

/-- The text still has a character of the original one. -/
def Has (text : List Marked) (i : Nat) : Prop := Origin.original i ∈ text.map Prod.fst

instance (text : List Marked) (i : Nat) : Decidable (Has text i) :=
  inferInstanceAs (Decidable (_ ∈ _))

/-- A character of the original text in a range. -/
def InRemoved (OrigOffset Size : Nat) (t : Marked) : Prop :=
  t.1.IsOriginal ∧ OrigOffset ≤ t.1.offset ∧ t.1.offset < OrigOffset + Size

instance (OrigOffset Size : Nat) (t : Marked) : Decidable (InRemoved OrigOffset Size t) :=
  inferInstanceAs (Decidable (_ ∧ _ ∧ _))

def removeRange (OrigOffset Size : Nat) (text : List Marked) : List Marked :=
  text.filter fun t => ¬ InRemoved OrigOffset Size t

def removeLine (A : EditedText) (position : Nat) : EditedText :=
  match emptyLine (bytes A.text) position with
  | none => A
  | some (start, size) =>
    ⟨A.text.take start ++ A.text.drop (start + size),
      (start, (A.text.drop start).take size) :: A.lines⟩

/-- The text without a range of the original text. -/
def remove (A : EditedText) (OrigOffset Size : Nat) : EditedText :=
  { A with text := removeRange OrigOffset Size A.text }

def place (A : EditedText) (OrigOffset : Nat) (AfterInserts : Bool) : Nat :=
  (below markKey (2 * OrigOffset + AfterInserts.toNat) A.text).length

def apply (A : EditedText) : RewriteBuffer.Call → EditedText
  | .InsertText OrigOffset Str InsertAfter =>
    { A with
      text := insertAtKey markKey (2 * OrigOffset + InsertAfter.toNat)
        (Str.map fun c => (.inserted OrigOffset, c)) A.text }
  | .RemoveText OrigOffset Size removeLineIfEmpty =>
    if Size = 0 then A
    else if removeLineIfEmpty then
      (A.remove OrigOffset Size).removeLine (A.place OrigOffset true)
    else A.remove OrigOffset Size
  | .ReplaceText OrigOffset OrigLength NewStr =>
    { A with
      text := insertAtKey markKey (2 * OrigOffset + 1)
        (NewStr.map fun c => (.replaced OrigOffset, c))
        (removeRange OrigOffset OrigLength A.text) }

/-- Calls on an edited text, one after the other. -/
def applyAll (A : EditedText) : List RewriteBuffer.Call → EditedText
  | [] => A
  | call :: calls => applyAll (A.apply call) calls

/-- The start of a removed line, as it was recorded, is on the same side of a key as the whole of
the line. -/
def Intact (A : EditedText) (k : Nat) : Prop :=
  ∀ line ∈ A.lines, (k ≤ 2 * line.1 + 1 ∧ ∀ t ∈ line.2, k ≤ markKey t) ∨
    (2 * line.1 + 1 < k ∧ ∀ t ∈ line.2, markKey t < k)

/-- The characters of a range are still there. -/
def HasRange (A : EditedText) (OrigOffset Size : Nat) : Prop :=
  ∀ i, OrigOffset ≤ i → i < OrigOffset + Size → Has A.text i

/-- The start of the empty line at a position is right as an original offset: the characters in
front of the line are not behind it, and those behind the line are. -/
def StartsRight (A : EditedText) (position : Nat) : Prop :=
  ∀ line ∈ emptyLine (bytes A.text) position,
    (∀ t ∈ A.text.take line.1, t.1.IsOriginal → t.1.offset ≤ line.1) ∧
      ∀ t ∈ A.text.drop (line.1 + line.2), t.1.IsOriginal → line.1 < t.1.offset

instance (A : EditedText) (k : Nat) : Decidable (A.Intact k) :=
  inferInstanceAs (Decidable (∀ line ∈ A.lines, _ ∨ _))

instance (A : EditedText) (OrigOffset Size : Nat) : Decidable (A.HasRange OrigOffset Size) :=
  decidable_of_iff (∀ i ∈ range' OrigOffset Size, Has A.text i)
    ⟨fun h i hle hlt => h i (mem_range'_1.mpr ⟨hle, hlt⟩),
      fun h i hi => h i (mem_range'_1.mp hi).1 (mem_range'_1.mp hi).2⟩

instance (A : EditedText) (position : Nat) : Decidable (A.StartsRight position) :=
  inferInstanceAs (Decidable (∀ line ∈ emptyLine (bytes A.text) position, _ ∧ _))

/-- The call is not given an offset in a removed line, does not record the start of an empty line
that is not right as an original offset, and does not replace nothing in front of a character. -/
def Sound (A : EditedText) : RewriteBuffer.Call → Prop
  | .InsertText OrigOffset Str InsertAfter =>
    Str = [] ∨ A.Intact (2 * OrigOffset + InsertAfter.toNat)
  | .RemoveText OrigOffset Size removeLineIfEmpty =>
    Size = 0 ∨ (A.Intact (2 * OrigOffset + 1) ∧ A.HasRange OrigOffset Size ∧
      (removeLineIfEmpty = true → (A.remove OrigOffset Size).StartsRight (A.place OrigOffset true)))
  | .ReplaceText OrigOffset OrigLength NewStr =>
    A.Intact (2 * OrigOffset + 1) ∧ A.HasRange OrigOffset OrigLength ∧
      (OrigLength = 0 → NewStr = [] ∨ ¬ Has A.text OrigOffset)

instance (A : EditedText) : (call : RewriteBuffer.Call) → Decidable (A.Sound call)
  | .InsertText OrigOffset Str InsertAfter =>
    inferInstanceAs (Decidable (Str = [] ∨ A.Intact (2 * OrigOffset + InsertAfter.toNat)))
  | .RemoveText OrigOffset Size removeLineIfEmpty =>
    inferInstanceAs (Decidable (Size = 0 ∨ (A.Intact (2 * OrigOffset + 1) ∧
      A.HasRange OrigOffset Size ∧ (removeLineIfEmpty = true →
        (A.remove OrigOffset Size).StartsRight (A.place OrigOffset true)))))
  | .ReplaceText OrigOffset OrigLength NewStr =>
    inferInstanceAs (Decidable (A.Intact (2 * OrigOffset + 1) ∧ A.HasRange OrigOffset OrigLength ∧
        (OrigLength = 0 → NewStr = [] ∨ ¬ Has A.text OrigOffset)))

/-- The order of the characters: by their keys, and characters of the original text have keys of
their own. -/
def Before (t u : Marked) : Prop :=
  markKey t < markKey u ∨ (markKey t = markKey u ∧ ¬ t.1.IsOriginal ∧ ¬ u.1.IsOriginal)

theorem Before.le {t u : Marked} (h : Before t u) : markKey t ≤ markKey u := by
  rcases h with h | ⟨h, -⟩
  · exact Nat.le_of_lt h
  · exact Nat.le_of_eq h

theorem Before.lt_of_right {t u : Marked} (h : Before t u) (hu : u.1.IsOriginal) :
    markKey t < markKey u :=
  h.resolve_right fun h => h.2.2 hu

theorem Before.lt_of_left {t u : Marked} (h : Before t u) (ht : t.1.IsOriginal) :
    markKey t < markKey u :=
  h.resolve_right fun h => h.2.1 ht

/-- The characters are in order. -/
def Ordered (text : List Marked) : Prop := text.Pairwise Before

variable {text : List Marked} {k : Nat}

theorem Ordered.sorted (h : Ordered text) : text.Pairwise fun t u => markKey t ≤ markKey u :=
  h.imp Before.le

theorem Ordered.cut (h : Ordered text) (k : Nat) :
    below markKey k text ++ above markKey k text = text :=
  below_append_above h.sorted k

theorem Ordered.place_eq (h : Ordered text) (k : Nat) :
    text.take (below markKey k text).length = below markKey k text ∧
      text.drop (below markKey k text).length = above markKey k text := by
  have htake := congrArg (List.take (below markKey k text).length) (h.cut k)
  have hdrop := congrArg (List.drop (below markKey k text).length) (h.cut k)
  rw [take_left] at htake
  rw [drop_left] at hdrop
  exact ⟨htake.symm, hdrop.symm⟩

theorem Ordered.getElem?_place (h : Ordered text) {t : Marked} (ht : t ∈ text)
    (horiginal : t.1.IsOriginal) : text[(below markKey (markKey t) text).length]? = some t := by
  obtain ⟨before, after, rfl⟩ := append_of_mem ht
  obtain ⟨-, hrest, hbefore⟩ := pairwise_append.mp h
  obtain ⟨hafter, -⟩ := pairwise_cons.mp hrest
  have hbelow : below markKey (markKey t) (before ++ t :: after) = before := by
    rw [below_append, below_of_lt, below_of_le, append_nil]
    · intro u hu
      rcases mem_cons.mp hu with rfl | hu
      · exact Nat.le_refl _
      · exact (hafter u hu).le
    · exact fun u hu => (hbefore u hu t (mem_cons_self ..)).lt_of_right horiginal
  rw [hbelow, getElem?_append_right (Nat.le_refl _), Nat.sub_self]
  rfl

theorem Ordered.insertAtKey {new : List Marked} (h : Ordered text) {kn : Nat}
    (hnew : ∀ t ∈ new, markKey t = kn ∧ ¬ t.1.IsOriginal)
    (hbelow : ∀ t ∈ below markKey k text, markKey t < kn ∨ (markKey t = kn ∧ ¬ t.1.IsOriginal))
    (habove : ∀ t ∈ above markKey k text, kn < markKey t ∨ (markKey t = kn ∧ ¬ t.1.IsOriginal)) :
    Ordered (insertAtKey markKey k new text) := by
  have hparts := h
  rw [← h.cut k] at hparts
  obtain ⟨hbefore, hafter, hcross⟩ := pairwise_append.mp hparts
  refine pairwise_append.mpr ⟨hbefore, pairwise_append.mpr ⟨?_, hafter, ?_⟩, ?_⟩
  · refine pairwise_iff_forall_sublist.mpr fun {t u} hsub => ?_
    obtain ⟨ht, htn⟩ := hnew t (hsub.subset (by simp))
    obtain ⟨hu, hun⟩ := hnew u (hsub.subset (by simp))
    exact .inr ⟨ht.trans hu.symm, htn, hun⟩
  · intro t ht u hu
    obtain ⟨htk, htn⟩ := hnew t ht
    rcases habove u hu with hlt | ⟨heq, hun⟩
    · exact .inl (htk.trans_lt hlt)
    · exact .inr ⟨htk.trans heq.symm, htn, hun⟩
  · intro t ht u hu
    rcases mem_append.mp hu with hu | hu
    · obtain ⟨huk, hun⟩ := hnew u hu
      rcases hbelow t ht with hlt | ⟨heq, htn⟩
      · exact .inl (hlt.trans_eq huk.symm)
      · exact .inr ⟨heq.trans huk.symm, htn, hun⟩
    · exact hcross t ht u hu

theorem Ordered.bytes_insertAtKey (h : Ordered text) (k : Nat) (new : List Marked) :
    bytes (SortedKeys.insertAtKey markKey k new text) =
      (bytes text).take (below markKey k text).length ++
        (bytes new ++ (bytes text).drop (below markKey k text).length) := by
  obtain ⟨htake, hdrop⟩ := h.place_eq k
  rw [bytes, bytes, ← map_take, ← map_drop, htake, hdrop, SortedKeys.insertAtKey,
    map_append, map_append]
  rfl

theorem Ordered.eq_of_key (h : Ordered text) {t u : Marked} (ht : t ∈ text) (hu : u ∈ text)
    (horiginal : t.1.IsOriginal) (hkey : markKey u = markKey t) : u = t := by
  obtain ⟨before, after, rfl⟩ := append_of_mem ht
  obtain ⟨-, hrest, hbefore⟩ := pairwise_append.mp h
  obtain ⟨hafter, -⟩ := pairwise_cons.mp hrest
  rcases mem_append.mp hu with hu | hu
  · have hlt := (hbefore u hu t (mem_cons_self ..)).lt_of_right horiginal
    omega
  · rcases mem_cons.mp hu with rfl | hu
    · rfl
    · have hlt := (hafter u hu).lt_of_left horiginal
      omega

theorem Has.exists {i : Nat} (h : Has text i) : ∃ t ∈ text, t.1 = Origin.original i :=
  mem_map.mp h

section Remove

variable {OrigOffset Size : Nat}

theorem Ordered.exists_range (h : Ordered text) (hpos : 0 < Size)
    (hhas : ∀ i, OrigOffset ≤ i → i < OrigOffset + Size → Has text i)
    (hnew : ∀ t ∈ text, ¬ t.1.IsOriginal →
      t.1.offset ≤ OrigOffset ∨ OrigOffset + Size ≤ t.1.offset) :
    ∃ mid, text = below markKey (2 * OrigOffset + 1) text ++
        (mid ++ above markKey (2 * (OrigOffset + Size)) text) ∧
      ∀ t, t ∈ mid ↔ t ∈ text ∧ InRemoved OrigOffset Size t := by
  have hlow : below markKey (2 * OrigOffset + 1)
      (below markKey (2 * (OrigOffset + Size)) text) = below markKey (2 * OrigOffset + 1) text := by
    rw [below, below, filter_filter, below]
    refine filter_congr fun t _ => ?_
    rw [← Bool.decide_and, decide_eq_decide]
    omega
  have hordered : Ordered (below markKey (2 * (OrigOffset + Size)) text) := Pairwise.filter _ h
  refine ⟨above markKey (2 * OrigOffset + 1) (below markKey (2 * (OrigOffset + Size)) text), ?_, ?_⟩
  · rw [← append_assoc, ← hlow, hordered.cut, h.cut]
  · intro t
    rw [mem_above, mem_below]
    constructor
    · rintro ⟨⟨ht, hlt⟩, hle⟩
      obtain ⟨hkey, hkey'⟩ := markKey_bounds t
      refine ⟨ht, ?_⟩
      have horiginal : t.1.IsOriginal := by
        by_contra hnot
        rcases hnew t ht hnot with hoff | hoff
        · obtain ⟨u, hu, heq⟩ := (hhas OrigOffset (Nat.le_refl _) (by omega)).exists
          have huk : markKey u = 2 * OrigOffset + 1 := by rw [markKey, heq]; rfl
          have huo : u.1.IsOriginal := by rw [heq]; trivial
          have htu := h.eq_of_key hu ht huo (by omega)
          rw [htu] at hnot
          exact hnot huo
        · omega
      exact ⟨horiginal, by omega, by omega⟩
    · rintro ⟨ht, horiginal, hle, hlt⟩
      have hkey := markKey_original horiginal
      exact ⟨⟨ht, by omega⟩, by omega⟩

theorem Ordered.length_range (h : Ordered text)
    (hhas : ∀ i, OrigOffset ≤ i → i < OrigOffset + Size → Has text i) {mid : List Marked}
    (hsub : mid.Sublist text) (hmem : ∀ t, t ∈ mid ↔ t ∈ text ∧ InRemoved OrigOffset Size t) :
    mid.length = Size := by
  have hnodup : (mid.map fun t => t.1.offset).Nodup := by
    refine pairwise_map.mpr (Pairwise.imp_of_mem (fun {t u} ht hu htu => ?_) (h.sublist hsub))
    have htk := markKey_original ((hmem t).mp ht).2.1
    have huk := markKey_original ((hmem u).mp hu).2.1
    have hlt := htu.lt_of_left ((hmem t).mp ht).2.1
    omega
  have hset : (mid.map fun t => t.1.offset).toFinset =
      Finset.Ico OrigOffset (OrigOffset + Size) := by
    ext i
    rw [mem_toFinset, mem_map, Finset.mem_Ico]
    constructor
    · rintro ⟨t, ht, rfl⟩
      exact ((hmem t).mp ht).2.2
    · rintro ⟨hle, hlt⟩
      obtain ⟨t, ht, heq⟩ := (hhas i hle hlt).exists
      refine ⟨t, (hmem t).mpr ⟨ht, ?_⟩, by rw [heq]; rfl⟩
      exact ⟨by rw [heq]; trivial, by rw [heq]; exact hle, by rw [heq]; exact hlt⟩
  have hcard := toFinset_card_of_nodup hnodup
  rw [hset, Nat.card_Ico, length_map] at hcard
  omega

theorem mem_removeRange {t : Marked} :
    t ∈ removeRange OrigOffset Size text ↔ t ∈ text ∧ ¬ InRemoved OrigOffset Size t := by
  rw [removeRange, mem_filter, decide_eq_true_iff]

theorem Ordered.removeRange_spec (h : Ordered text)
    (hhas : ∀ i, OrigOffset ≤ i → i < OrigOffset + Size → Has text i)
    (hnew : ∀ t ∈ text, ¬ t.1.IsOriginal →
      t.1.offset ≤ OrigOffset ∨ OrigOffset + Size ≤ t.1.offset) :
    (below markKey (2 * OrigOffset + 1) text).length + Size ≤ text.length ∧
      bytes (removeRange OrigOffset Size text) =
        (bytes text).take (below markKey (2 * OrigOffset + 1) text).length ++
          (bytes text).drop ((below markKey (2 * OrigOffset + 1) text).length + Size) ∧
      ∀ k, k ≤ 2 * OrigOffset + 1 ∨ 2 * (OrigOffset + Size) ≤ k → (below markKey k text).length =
          (below markKey k (removeRange OrigOffset Size text)).length +
            if 2 * OrigOffset + 1 < k then Size else 0 := by
  by_cases hzero : Size = 0
  · subst hzero
    have hsame : removeRange OrigOffset 0 text = text := by
      refine filter_eq_self.mpr fun t _ => decide_eq_true fun hin => ?_
      obtain ⟨-, hle, hlt⟩ := hin
      omega
    rw [hsame]
    refine ⟨length_filter_le .., ?_, fun k _ => ?_⟩
    · exact (take_append_drop _ (bytes text)).symm
    · rw [ite_self]
      rfl
  · obtain ⟨mid, htext, hmem⟩ := h.exists_range (Nat.pos_of_ne_zero hzero) hhas hnew
    have hsub : mid.Sublist text := by
      rw [htext]
      exact (sublist_append_left ..).trans (sublist_append_right ..)
    have hlength := h.length_range hhas hsub hmem
    have hbounds : ∀ t ∈ mid, 2 * OrigOffset + 1 ≤ markKey t ∧
        markKey t < 2 * (OrigOffset + Size) := by
      intro t ht
      obtain ⟨-, horiginal, hle, hlt⟩ := (hmem t).mp ht
      have hkey := markKey_original horiginal
      omega
    have hremoved : removeRange OrigOffset Size text = below markKey (2 * OrigOffset + 1) text ++
        above markKey (2 * (OrigOffset + Size)) text := by
      have hkeep : ∀ xs : List Marked, (∀ t ∈ xs, t ∈ text ∧ t ∉ mid) →
          removeRange OrigOffset Size xs = xs := by
        intro xs hxs
        refine filter_eq_self.mpr fun t ht => decide_eq_true fun hin => ?_
        exact (hxs t ht).2 ((hmem t).mpr ⟨(hxs t ht).1, hin⟩)
      have hdrop : removeRange OrigOffset Size mid = [] := by
        refine filter_eq_nil_iff.mpr fun t ht hnot => ?_
        exact of_decide_eq_true hnot ((hmem t).mp ht).2
      have hsplit := congrArg (removeRange OrigOffset Size) htext
      rw [hsplit, removeRange, filter_append, filter_append]
      have hbelow := hkeep (below markKey (2 * OrigOffset + 1) text) fun t ht => by
        obtain ⟨ht, hlt⟩ := mem_below.mp ht
        exact ⟨ht, fun hmid => absurd (hbounds t hmid).1 (Nat.not_le.mpr hlt)⟩
      have habove := hkeep (above markKey (2 * (OrigOffset + Size)) text) fun t ht => by
        obtain ⟨ht, hle⟩ := mem_above.mp ht
        exact ⟨ht, fun hmid => absurd (hbounds t hmid).2 (Nat.not_lt.mpr hle)⟩
      rw [removeRange] at hbelow habove hdrop
      rw [hbelow, habove, hdrop, nil_append]
    have hbytes : bytes text = bytes (below markKey (2 * OrigOffset + 1) text) ++
        (bytes mid ++ bytes (above markKey (2 * (OrigOffset + Size)) text)) := by
      rw [bytes, bytes, bytes, bytes, ← map_append, ← map_append, ← htext]
    have hlengthBelow : (below markKey (2 * OrigOffset + 1) text).length =
        (bytes (below markKey (2 * OrigOffset + 1) text)).length := (length_map _).symm
    have hlengthMid : Size = (bytes mid).length := by
      rw [bytes, length_map]
      exact hlength.symm
    refine ⟨?_, ?_, fun k hk => ?_⟩
    · have htotal := congrArg List.length htext
      rw [length_append, length_append, hlength] at htotal
      omega
    · rw [hremoved, hbytes, hlengthBelow, take_left, ← drop_drop, drop_left,
        hlengthMid, drop_left, bytes, map_append]
      rfl
    · have hcount := congrArg (fun xs => (below markKey k xs).length) htext
      rw [below_append, below_append, length_append, length_append] at hcount
      rw [hremoved, below_append, length_append, hcount]
      rcases hk with hk | hk
      · rw [if_neg (by omega), below_of_le fun t ht => hk.trans (hbounds t ht).1, length_nil]
        omega
      · rw [if_pos (by omega), below_of_lt fun t ht => (hbounds t ht).2.trans_le hk, hlength]
        omega

end Remove

section Original

variable {s : List UInt8} {t : Marked}

theorem bytes_ofText (offset : Nat) (s : List UInt8) : bytes (ofText offset s) = s := by
  induction s generalizing offset with
  | nil => rfl
  | cons c cs ih => exact congrArg (c :: ·) (ih (offset + 1))

theorem mem_ofText {offset : Nat} (h : t ∈ ofText offset s) :
    t.1.IsOriginal ∧ offset ≤ t.1.offset ∧ s[t.1.offset - offset]? = some t.2 := by
  induction s generalizing offset with
  | nil => exact absurd h not_mem_nil
  | cons c cs ih =>
    rcases mem_cons.mp h with rfl | h
    · refine ⟨trivial, Nat.le_refl _, ?_⟩
      show (c :: cs)[offset - offset]? = some c
      rw [Nat.sub_self]
      rfl
    · obtain ⟨horiginal, hle, hchar⟩ := ih h
      refine ⟨horiginal, by omega, ?_⟩
      rw [show t.1.offset - offset = t.1.offset - (offset + 1) + 1 by omega]
      exact hchar

theorem ordered_ofText (offset : Nat) (s : List UInt8) : Ordered (ofText offset s) := by
  induction s generalizing offset with
  | nil => exact Pairwise.nil
  | cons c cs ih =>
    refine pairwise_cons.mpr ⟨fun t ht => .inl ?_, ih (offset + 1)⟩
    obtain ⟨horiginal, hle, -⟩ := mem_ofText ht
    have hkey := markKey_original horiginal
    show 2 * offset + 1 < markKey t
    omega

theorem length_below_ofText (k offset : Nat) (s : List UInt8) (hk : k / 2 ≤ offset + s.length) :
    (below markKey k (ofText offset s)).length = k / 2 - offset := by
  induction s generalizing offset with
  | nil =>
    rw [length_nil] at hk
    show 0 = k / 2 - offset
    omega
  | cons c cs ih =>
    rw [length_cons] at hk
    have htail := ih (offset + 1) (by omega)
    show (below markKey k ([(Origin.original offset, c)] ++ ofText (offset + 1) cs)).length = _
    rw [below_append, length_append, htail]
    by_cases hlt : 2 * offset + 1 < k
    · have hhead :
          below markKey k [(Origin.original offset, c)] = [(Origin.original offset, c)] :=
        below_of_lt fun t ht => by rw [mem_singleton.mp ht]; exact hlt
      rw [hhead, length_singleton]
      omega
    · have hhead : below markKey k [(Origin.original offset, c)] = [] :=
        below_of_le fun t ht => by rw [mem_singleton.mp ht]; exact Nat.not_lt.mp hlt
      rw [hhead, length_nil]
      omega

end Original

end EditedText

namespace RewriteBuffer.Call

/-- The start of the original range of a call. -/
def offset : Call → Nat
  | InsertText OrigOffset _ _ => OrigOffset
  | RemoveText OrigOffset _ _ => OrigOffset
  | ReplaceText OrigOffset _ _ => OrigOffset

/-- The length of the original range of a call. -/
def length : Call → Nat
  | InsertText _ _ _ => 0
  | RemoveText _ Size _ => Size
  | ReplaceText _ OrigLength _ => OrigLength

/-- The original ranges of two calls are disjoint. -/
def Disjoint (a b : Call) : Prop :=
  a.offset + a.length ≤ b.offset ∨ b.offset + b.length ≤ a.offset

instance (a b : Call) : Decidable (a.Disjoint b) := inferInstanceAs (Decidable (_ ∨ _))

end RewriteBuffer.Call

end Zapcc.Rewrite
