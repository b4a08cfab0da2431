import Zapcc.Library.Segments

/-!
# The pieces of a rope

A piece is a view on a string that other pieces may share. Strings only grow, so the text of a piece
stays: `text_mono`.
-/

namespace Zapcc.Rewrite

open Segments List Option

/-- The strings that have been allocated. -/
abbrev Strings := List (List UInt8)

structure RopePiece where
  StrData : Nat
  StartOffs : Nat
  EndOffs : Nat
  deriving DecidableEq, Repr

namespace RopePiece

def size (p : RopePiece) : Nat := p.EndOffs - p.StartOffs

/-- A piece without its end. -/
def front (p : RopePiece) (n : Nat) : RopePiece := { p with EndOffs := p.StartOffs + n }

/-- A piece without its start. -/
def back (p : RopePiece) (n : Nat) : RopePiece := { p with StartOffs := p.StartOffs + n }

instance : Segment RopePiece where
  size := size
  front := front
  back := back
  size_front _ _ := Nat.add_sub_cancel_left ..
  size_back _ _ := Nat.sub_add_eq ..

/-- `operator[]`. -/
def get (p : RopePiece) (strings : Strings) (Offset : Nat) : Option UInt8 := do
  let data ← strings[p.StrData]?
  data[Offset + p.StartOffs]?

/-- A piece that views a part of a string. -/
def Valid (strings : Strings) (p : RopePiece) : Prop :=
  p.StartOffs < p.EndOffs ∧ ∃ data, strings[p.StrData]? = some data ∧ p.EndOffs ≤ data.length

def text (strings : Strings) (p : RopePiece) : List UInt8 :=
  ((strings.getD p.StrData []).drop p.StartOffs).take p.size

def textOf (strings : Strings) (ps : List RopePiece) : List UInt8 := ps.flatMap (text strings)

/-- Strings after some appends and allocations. -/
def Grows (strings strings' : Strings) : Prop :=
  ∀ (i : Nat) (data : List UInt8), strings[i]? = some data →
    ∃ rest, strings'[i]? = some (data ++ rest)

variable {strings strings' : Strings} {p : RopePiece}

theorem Grows.push (strings : Strings) (text : List UInt8) : Grows strings (strings ++ [text]) := by
  intro i data h
  obtain ⟨hi, -⟩ := List.getElem?_eq_some_iff.mp h
  refine ⟨[], ?_⟩
  rw [append_nil, getElem?_append_left hi]
  exact h

theorem Grows.extend {strings : Strings} {b : Nat} {data : List UInt8}
    (h : strings[b]? = some data) (text : List UInt8) :
    Grows strings (strings.set b (data ++ text)) := by
  intro i other hi
  by_cases heq : b = i
  · subst heq
    obtain ⟨hb, -⟩ := List.getElem?_eq_some_iff.mp h
    rw [h, Option.some.injEq] at hi
    exact ⟨text, by rw [getElem?_set_self hb, hi]⟩
  · refine ⟨[], ?_⟩
    rw [append_nil, getElem?_set_ne heq]
    exact hi

theorem valid_of_end {strings : Strings} {b : Nat} {data text : List UInt8} (hne : text ≠ [])
    (h : strings[b]? = some (data ++ text)) :
    Valid strings ⟨b, data.length, data.length + text.length⟩ ∧
      RopePiece.text strings ⟨b, data.length, data.length + text.length⟩ = text := by
  have hpos := length_pos_of_ne_nil hne
  refine ⟨⟨?_, _, h, ?_⟩, ?_⟩
  · show data.length < data.length + text.length
    omega
  · rw [length_append]
  · rw [RopePiece.text, getD_eq_getElem?_getD, h, getD_some]
    show ((data ++ text).drop data.length).take (data.length + text.length - data.length) = text
    rw [drop_left, Nat.add_sub_cancel_left, take_length]

theorem Valid.mono (h : Valid strings p) (hgrows : Grows strings strings') : Valid strings' p := by
  obtain ⟨hpos, data, hdata, hend⟩ := h
  obtain ⟨rest, hrest⟩ := hgrows _ _ hdata
  refine ⟨hpos, data ++ rest, hrest, ?_⟩
  rw [length_append]
  omega

theorem text_mono (h : Valid strings p) (hgrows : Grows strings strings') :
    text strings' p = text strings p := by
  obtain ⟨hpos, data, hdata, hend⟩ := h
  obtain ⟨rest, hrest⟩ := hgrows _ _ hdata
  have hlength : p.size ≤ (data.drop p.StartOffs).length := by
    rw [length_drop, size]
    omega
  rw [text, text, getD_eq_getElem?_getD, getD_eq_getElem?_getD, hdata, hrest,
    getD_some, getD_some, drop_append_of_le_length (by omega),
    take_append_of_le_length hlength]

theorem textOf_mono {ps : List RopePiece} (h : ∀ p ∈ ps, Valid strings p)
    (hgrows : Grows strings strings') : textOf strings' ps = textOf strings ps :=
  flatMap_congr fun p hp => text_mono (h p hp) hgrows

theorem textOf_append (ps qs : List RopePiece) :
    textOf strings (ps ++ qs) = textOf strings ps ++ textOf strings qs := flatMap_append

theorem Valid.length_text (h : Valid strings p) : (text strings p).length = p.size := by
  obtain ⟨hpos, data, hdata, hend⟩ := h
  rw [text, getD_eq_getElem?_getD, hdata, getD_some, length_take, length_drop, size]
  omega

theorem length_textOf {ps : List RopePiece} (h : ∀ p ∈ ps, Valid strings p) :
    (textOf strings ps).length = total size ps := by
  induction ps with
  | nil => rfl
  | cons p ps ih =>
    have hp := (h p (mem_cons_self ..)).length_text
    have hps := ih fun q hq => h q (mem_cons_of_mem _ hq)
    show (text strings p ++ textOf strings ps).length = p.size + total size ps
    rw [length_append, hp, hps]

theorem Valid.pos (h : Valid strings p) : 0 < p.size := Nat.sub_pos_of_lt h.1

theorem Valid.get_eq (h : Valid strings p) {i : Nat} (hi : i < p.size) :
    p.get strings i = (text strings p)[i]? := by
  obtain ⟨hpos, data, hdata, hend⟩ := h
  rw [get, text, getD_eq_getElem?_getD, hdata, getD_some, getElem?_take_of_lt hi,
    getElem?_drop, Nat.add_comm]
  rfl

theorem Valid.front (h : Valid strings p) {n : Nat} (hpos : 0 < n) (hn : n < p.size) :
    Valid strings (p.front n) := by
  obtain ⟨-, data, hdata, hend⟩ := h
  rw [size] at hn
  refine ⟨?_, data, hdata, ?_⟩
  · show p.StartOffs < p.StartOffs + n
    omega
  · show p.StartOffs + n ≤ data.length
    omega

theorem Valid.back (h : Valid strings p) {n : Nat} (hn : n < p.size) :
    Valid strings (p.back n) := by
  obtain ⟨-, data, hdata, hend⟩ := h
  rw [size] at hn
  refine ⟨?_, data, hdata, hend⟩
  show p.StartOffs + n < p.EndOffs
  omega

theorem text_front {n : Nat} (hn : n < p.size) :
    text strings (p.front n) = (text strings p).take n := by
  have hsize : (p.front n).size = n := Nat.add_sub_cancel_left ..
  rw [text, text, hsize, take_take, Nat.min_eq_left (Nat.le_of_lt hn)]
  rfl

theorem text_back {n : Nat} : text strings (p.back n) = (text strings p).drop n := by
  have hsize : (p.back n).size = p.size - n := Nat.sub_add_eq ..
  rw [text, text, hsize, drop_take, drop_drop]
  rfl

theorem textOf_units {ps : List RopePiece} (h : ∀ p ∈ ps, Valid strings p) (n : Nat) :
    textOf strings (takeUnits n ps) = (textOf strings ps).take n ∧
      textOf strings (dropUnits n ps) = (textOf strings ps).drop n ∧
      (∀ p ∈ takeUnits n ps, Valid strings p) ∧ ∀ p ∈ dropUnits n ps, Valid strings p := by
  induction ps generalizing n with
  | nil => exact ⟨take_nil.symm, drop_nil.symm, h, h⟩
  | cons p ps ih =>
    have hp := h p (mem_cons_self ..)
    have hps : ∀ q ∈ ps, Valid strings q := fun q hq => h q (mem_cons_of_mem _ hq)
    have hlength := hp.length_text
    obtain ⟨htake, hdrop, hvalidTake, hvalidDrop⟩ := ih hps (n - p.size)
    have htext : textOf strings (p :: ps) = text strings p ++ textOf strings ps := rfl
    have hsize : Segment.size p = p.size := rfl
    rw [takeUnits, dropUnits, hsize, htext]
    split_ifs with hzero hlt
    · subst hzero
      exact ⟨rfl, rfl, by simp, h⟩
    · refine ⟨?_, ?_, ?_, ?_⟩
      · rw [take_append_of_le_length (by omega), ← text_front hlt]
        exact append_nil _
      · rw [drop_append_of_le_length (by omega), ← text_back]
        rfl
      · intro q hq
        rw [mem_singleton.mp hq]
        exact hp.front (by omega) hlt
      · intro q hq
        rcases mem_cons.mp hq with heq | hmem
        · rw [heq]
          exact hp.back hlt
        · exact hps q hmem
    · refine ⟨?_, ?_, ?_, hvalidDrop⟩
      · rw [take_append, take_of_length_le (by omega), hlength, ← htake]
        rfl
      · rw [drop_append, drop_of_length_le (by omega), hlength, ← hdrop]
        rfl
      · intro q hq
        rcases mem_cons.mp hq with heq | hmem
        · rw [heq]
          exact hp
        · exact hvalidTake q hmem

end RopePiece

end Zapcc.Rewrite
