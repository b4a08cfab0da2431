import Mathlib.Data.List.Induction
import Mathlib.Order.Basic

/-!
# The line table

The notes that `#line` directives and line markers add to a file. The stack of includes is not
stored: an exit finds the outer level with a search for the entry before the enter. The main result
is `tracks_iff_noPopOfFirst`: this fails only where an enter at offset 1 is left, whose offset looks
like an empty stack.
-/

namespace Zapcc.Basic

open List Option Function

structure LineEntry where
  FileOffset : Nat
  LineNo : Nat
  FilenameID : Int
  FileKind : Nat
  IncludeOffset : Nat
  deriving DecidableEq

/-- The entries of each file. -/
abbrev LineTableInfo := Int → List LineEntry

namespace LineTable

/-! ## The code -/

def upperBoundLoop (Entries : List LineEntry) (Offset first len : Nat) : Nat :=
  if 0 < len then
    let half := len / 2
    match Entries[first + half]? with
    | none => first
    | some E =>
      if Offset < E.FileOffset then upperBoundLoop Entries Offset first half
      else upperBoundLoop Entries Offset (first + half + 1) (len - half - 1)
  else first
termination_by len

/-- `FindNearestLineEntry`, with the entry or null. There is no result where its assertion fails. -/
def FindNearestLineEntry (T : LineTableInfo) (FID : Int) (Offset : Nat) :
    Option (Option LineEntry) := do
  let Entries := T FID
  let back ← Entries.getLast?
  if back.FileOffset ≤ Offset then some (some back)
  else
    let I := upperBoundLoop Entries Offset 0 Entries.length
    if I = 0 then some none else some Entries[I - 1]?

def AddLineNote (T : LineTableInfo) (FID : Int) (Offset LineNo : Nat) (FilenameID : Int)
    (EntryExit FileKind : Nat) : Option LineTableInfo := do
  let Entries := T FID
  let back := Entries.getLast?
  let FilenameID := if FilenameID = -1 then (back.map LineEntry.FilenameID).getD (-1)
    else FilenameID
  if back.all (·.FileOffset < Offset) then
    let IncludeOffset ←
      if EntryExit = 0 then some ((back.map LineEntry.IncludeOffset).getD 0)
      else if EntryExit = 1 then some (Offset - 1)
      else if EntryExit = 2 then do
        let back ← back
        if back.IncludeOffset ≠ 0 then do
          let PrevEntry ← FindNearestLineEntry T FID back.IncludeOffset
          some ((PrevEntry.map LineEntry.IncludeOffset).getD 0)
        else none
      else some 0
    some (update T FID (Entries ++ [⟨Offset, LineNo, FilenameID, FileKind, IncludeOffset⟩]))
  else none

/-! ## Notes -/

/-- The arguments of a call. -/
structure LineNote where
  Offset : Nat
  LineNo : Nat
  FilenameID : Int
  EntryExit : Nat
  FileKind : Nat

def LineNote.add (FID : Int) (T : LineTableInfo) (n : LineNote) : Option LineTableInfo :=
  AddLineNote T FID n.Offset n.LineNo n.FilenameID n.EntryExit n.FileKind

/-- The offsets of the enter notes that are open behind a note, the innermost first. -/
def pushNote (st : List Nat) (n : LineNote) : Option (List Nat) :=
  if n.EntryExit = 0 then some st
  else if n.EntryExit = 1 then some (n.Offset :: st)
  else if n.EntryExit = 2 then if st = [] then none else some st.tail
  else none

/-- The enter notes that are open behind some notes, if each exit leaves one. -/
def openEnters (notes : List LineNote) : Option (List Nat) := notes.foldlM pushNote []

/-- One less than the offset of the innermost enter note, or 0. -/
def includeOffset : List Nat → Nat
  | [] => 0
  | o :: _ => o - 1

/-- The entry is the last one at or before the offset, if there is one. -/
def IsNearest (Entries : List LineEntry) (Offset : Nat) : Option LineEntry → Prop
  | none => ∀ e ∈ Entries, Offset < e.FileOffset
  | some e => ∃ before after, Entries = before ++ e :: after ∧ e.FileOffset ≤ Offset ∧
      ∀ e' ∈ after, Offset < e'.FileOffset

/-- The entries come in the order of their offsets. -/
def Sorted (Entries : List LineEntry) : Prop :=
  Entries.Pairwise fun e e' => e.FileOffset < e'.FileOffset

/-! ## The search -/

theorem isNearest_split {before after : List LineEntry} {Offset : Nat}
    (hbefore : ∀ e ∈ before, e.FileOffset ≤ Offset) (hafter : ∀ e ∈ after, Offset < e.FileOffset) :
    IsNearest (before ++ after) Offset before.getLast? := by
  rcases eq_nil_or_concat before with rfl | ⟨init, e, rfl⟩
  · exact hafter
  · rw [concat_eq_append, getLast?_append]
    refine ⟨init, after, by simp, hbefore e (by simp), hafter⟩

variable {Entries : List LineEntry} {T : LineTableInfo}

theorem upperBoundLoop_spec (hs : Sorted Entries)
    {Offset first len : Nat} (hlen : first + len ≤ Entries.length)
    (hlo : ∀ e ∈ Entries.take first, e.FileOffset ≤ Offset)
    (hhi : ∀ e ∈ Entries.drop (first + len), Offset < e.FileOffset) :
    let I := upperBoundLoop Entries Offset first len
    I ≤ Entries.length ∧ (∀ e ∈ Entries.take I, e.FileOffset ≤ Offset) ∧
      ∀ e ∈ Entries.drop I, Offset < e.FileOffset := by
  induction hn : len using Nat.strongRecOn generalizing first len with
  | ind n ih =>
    subst hn
    rw [upperBoundLoop]
    dsimp only
    by_cases hpos : 0 < len
    · rw [if_pos hpos]
      have hlt : first + len / 2 < Entries.length := by omega
      rw [getElem?_eq_getElem hlt]
      dsimp only
      have hsplit : Entries = Entries.take (first + len / 2) ++
          Entries[first + len / 2] :: Entries.drop (first + len / 2 + 1) := by
        rw [← drop_eq_getElem_cons hlt, take_append_drop]
      have hs' := hs
      unfold Sorted at hs'
      rw [hsplit, pairwise_append, pairwise_cons] at hs'
      obtain ⟨-, ⟨hafter, -⟩, hbefore⟩ := hs'
      by_cases hoff : Offset < Entries[first + len / 2].FileOffset
      · rw [if_pos hoff]
        refine ih (len / 2) (by omega) (by omega) hlo (fun e he => ?_) rfl
        rw [drop_eq_getElem_cons hlt] at he
        rcases mem_cons.mp he with rfl | he
        · exact hoff
        · exact Nat.lt_trans hoff (hafter e he)
      · rw [if_neg hoff]
        have hend : first + len / 2 + 1 + (len - len / 2 - 1) = first + len := by omega
        refine ih (len - len / 2 - 1) (by omega) (by omega) (fun e he => ?_)
          (by rwa [hend]) rfl
        rw [take_succ_eq_append_getElem hlt] at he
        rcases mem_append.mp he with he | he
        · have hlt' := hbefore e he _ mem_cons_self
          exact Nat.le_trans (Nat.le_of_lt hlt') (Nat.not_lt.mp hoff)
        · rw [mem_singleton.mp he]
          exact Nat.not_lt.mp hoff
    · obtain rfl := Nat.eq_zero_of_not_pos hpos
      exact ⟨hlen, hlo, hhi⟩

theorem FindNearestLineEntry_spec {FID : Int} (hs : Sorted (T FID))
    (hne : T FID ≠ []) (Offset : Nat) :
    ∃ r, FindNearestLineEntry T FID Offset = some r ∧ IsNearest (T FID) Offset r := by
  obtain ⟨init, back, hback⟩ := (eq_nil_or_concat (T FID)).resolve_left hne
  unfold FindNearestLineEntry
  dsimp only
  generalize T FID = Entries at *
  have hlast : Entries.getLast? = some back := by rw [hback, concat_eq_append]; simp
  rw [hlast]
  simp only [bind_eq_bind, bind_some]
  by_cases hle : back.FileOffset ≤ Offset
  · rw [if_pos hle]
    refine ⟨_, rfl, init, [], by rw [hback, concat_eq_append], hle, fun e he => ?_⟩
    exact absurd he not_mem_nil
  · rw [if_neg hle]
    obtain ⟨hI, hlo, hhi⟩ := @upperBoundLoop_spec Entries hs Offset 0 Entries.length (by omega)
      (by simp) (by simp)
    generalize upperBoundLoop Entries Offset 0 Entries.length = I at *
    have hnearest := isNearest_split hlo hhi
    rw [take_append_drop] at hnearest
    by_cases h0 : I = 0
    · subst h0
      exact ⟨none, rfl, hnearest⟩
    · rw [if_neg h0]
      refine ⟨_, rfl, ?_⟩
      have hget : Entries[I - 1]? = some Entries[I - 1] := getElem?_eq_getElem (by omega)
      rw [getLast?_take, if_neg h0, hget, some_or] at hnearest
      rwa [hget]

/-! ## The stack -/

theorem IsNearest.of_append {new : LineEntry} {Offset : Nat}
    {r : Option LineEntry} (h : IsNearest (Entries ++ [new]) Offset r)
    (hnew : Offset < new.FileOffset) : IsNearest Entries Offset r := by
  cases r with
  | none => exact fun e he => h e (mem_append_left _ he)
  | some e =>
    obtain ⟨before, after, heq, hle, hafter⟩ := h
    rcases eq_nil_or_concat after with rfl | ⟨init, z, rfl⟩
    · obtain ⟨-, hlast⟩ := append_inj' heq rfl
      rw [List.cons.injEq] at hlast
      rw [hlast.1] at hnew
      omega
    · rw [concat_eq_append] at heq hafter
      have hassoc : before ++ e :: (init ++ [z]) = (before ++ e :: init) ++ [z] := by simp
      rw [hassoc] at heq
      exact ⟨before, init, (append_inj' heq rfl).1, hle,
        fun e' he' => hafter e' (mem_append_left _ he')⟩

theorem IsNearest.eq_getLast? {Offset : Nat} {r : Option LineEntry}
    (h : IsNearest Entries Offset r) (hall : ∀ e ∈ Entries, e.FileOffset ≤ Offset) :
    r = Entries.getLast? := by
  cases r with
  | none =>
    cases Entries with
    | nil => rfl
    | cons e Entries =>
      have hlt := h e mem_cons_self
      have hle := hall e mem_cons_self
      omega
  | some e =>
    obtain ⟨before, after, rfl, -, hafter⟩ := h
    cases after with
    | nil => simp
    | cons a after =>
      have hlt := hafter a mem_cons_self
      have hle := hall a (by simp)
      omega

/-- The include offset of an entry, or of none. -/
def levelOf (r : Option LineEntry) : Nat := (r.map LineEntry.IncludeOffset).getD 0

/-- What the entries say of the enter notes that are open. -/
structure Tracking (Entries : List LineEntry) (st : List Nat) : Prop where
  sorted : Sorted Entries
  back : levelOf Entries.getLast? = includeOffset st
  opened : ∀ o ∈ st, 0 < o ∧ ∃ e ∈ Entries, o ≤ e.FileOffset
  outer : ∀ inner o rest, st = inner ++ o :: rest →
    ∀ r, IsNearest Entries (o - 1) r → levelOf r = includeOffset rest

theorem Tracking.append {st st' : List Nat} {new : LineEntry}
    (h : Tracking Entries st) (hlast : ∀ e ∈ Entries, e.FileOffset < new.FileOffset)
    (hpos : 0 < new.FileOffset) (hnew : new.IncludeOffset = includeOffset st')
    (hst : st' = new.FileOffset :: st ∨ st' <:+ st) : Tracking (Entries ++ [new]) st' := by
  have hbefore : ∀ o ∈ st, o - 1 < new.FileOffset := by
    intro o ho
    obtain ⟨-, e, he, hle⟩ := h.opened o ho
    have := hlast e he
    omega
  have hkeep : ∀ inner o rest, st = inner ++ o :: rest →
      ∀ r, IsNearest (Entries ++ [new]) (o - 1) r → levelOf r = includeOffset rest :=
    fun inner o rest heq r hr =>
      h.outer inner o rest heq r (hr.of_append (hbefore o (by rw [heq]; simp)))
  refine ⟨?_, ?_, fun o ho => ?_, fun inner o rest heq r hr => ?_⟩
  · refine pairwise_append.mpr ⟨h.sorted, pairwise_singleton .., fun e he e' he' => ?_⟩
    rw [mem_singleton.mp he']
    exact hlast e he
  · rw [getLast?_append]
    exact hnew
  · have hold : o ∈ st → 0 < o ∧ ∃ e ∈ Entries ++ [new], o ≤ e.FileOffset := by
      intro ho
      obtain ⟨h0, e, he, hle⟩ := h.opened o ho
      exact ⟨h0, e, mem_append_left _ he, hle⟩
    rcases hst with rfl | hsuffix
    · rcases mem_cons.mp ho with rfl | ho
      · exact ⟨hpos, new, by simp, Nat.le_refl _⟩
      · exact hold ho
    · exact hold (hsuffix.mem ho)
  · rcases hst with rfl | ⟨pre, hpre⟩
    · cases inner with
      | nil =>
        obtain ⟨rfl, rfl⟩ := List.cons.inj heq
        have hr' := hr.of_append (by omega)
        rw [hr'.eq_getLast? fun e he => Nat.le_sub_one_of_lt (hlast e he)]
        exact h.back
      | cons o' inner =>
        obtain ⟨-, heq⟩ := List.cons.inj heq
        exact hkeep inner o rest heq r hr
    · refine hkeep (pre ++ inner) o rest ?_ r hr
      rw [← hpre, heq, append_assoc]

theorem add_spec {FID : Int} {st st' : List Nat} {n : LineNote}
    (h : Tracking (T FID) st) (hlast : ∀ e ∈ T FID, e.FileOffset < n.Offset) (hpos : 0 < n.Offset)
    (hst : pushNote st n = some st') :
    (n.EntryExit = 2 ∧ st.head? = some 1 → n.add FID T = none) ∧
      (¬(n.EntryExit = 2 ∧ st.head? = some 1) → ∃ T' new, n.add FID T = some T' ∧
        T' FID = T FID ++ [new] ∧ new.FileOffset = n.Offset ∧
          new.IncludeOffset = includeOffset st' ∧ Tracking (T' FID) st') := by
  have horder : (T FID).getLast?.all (·.FileOffset < n.Offset) = true := by
    cases hl : (T FID).getLast? with
    | none => rfl
    | some e => simpa using hlast e (mem_of_getLast? hl)
  have hdone : ∀ IncludeOffset, IncludeOffset = includeOffset st' →
      st' = n.Offset :: st ∨ st' <:+ st → ∀ new : LineEntry, new.FileOffset = n.Offset →
      new.IncludeOffset = IncludeOffset → ∃ T' new', some (update T FID (T FID ++ [new])) =
        some T' ∧ T' FID = T FID ++ [new'] ∧ new'.FileOffset = n.Offset ∧
          new'.IncludeOffset = includeOffset st' ∧ Tracking (T' FID) st' := by
    intro IncludeOffset heq hst' new hfile hinc
    refine ⟨_, new, rfl, update_self .., hfile, hinc.trans heq, ?_⟩
    rw [update_self]
    exact h.append (by rwa [hfile]) (by omega) (hinc.trans heq) (by rwa [hfile])
  unfold LineNote.add AddLineNote
  rw [if_pos horder]
  unfold pushNote at hst
  by_cases h0 : n.EntryExit = 0
  · rw [if_pos h0] at hst
    obtain rfl := some.inj hst
    rw [if_pos h0]
    exact ⟨fun h2 => by omega, fun _ => hdone _ h.back (.inr (suffix_refl _)) _ rfl rfl⟩
  rw [if_neg h0] at hst ⊢
  by_cases h1 : n.EntryExit = 1
  · rw [if_pos h1] at hst
    obtain rfl := some.inj hst
    rw [if_pos h1]
    exact ⟨fun h2 => by omega, fun _ => hdone _ rfl (.inl rfl) _ rfl rfl⟩
  rw [if_neg h1] at hst ⊢
  by_cases h2 : n.EntryExit = 2
  · rw [if_pos h2] at hst ⊢
    cases st with
    | nil => simp at hst
    | cons o rest =>
      obtain rfl := some.inj hst
      obtain ⟨hopos, e, he, -⟩ := h.opened o mem_cons_self
      have hback : ∃ back, (T FID).getLast? = some back ∧ back.IncludeOffset = o - 1 := by
        have hlevel := h.back
        cases hl : (T FID).getLast? with
        | none =>
          rw [getLast?_eq_none_iff.mp hl] at he
          exact absurd he not_mem_nil
        | some back =>
          rw [hl] at hlevel
          exact ⟨back, rfl, hlevel⟩
      obtain ⟨back, hl, hinc⟩ := hback
      rw [hl]
      simp only [bind_eq_bind, bind_some, hinc, head?_cons, some.injEq]
      refine ⟨fun hone => ?_, fun hone => ?_⟩
      · rw [if_neg (by omega)]
        rfl
      · rw [if_pos (by omega)]
        obtain ⟨r, hr, hnearest⟩ := FindNearestLineEntry_spec h.sorted
          (ne_nil_of_mem he) (o - 1)
        rw [hr]
        exact hdone _ (h.outer [] o rest rfl r hnearest) (.inr (suffix_cons o rest))
          _ rfl rfl
  · rw [if_neg h2] at hst
    cases hst

/-! ## Runs -/

/-- Notes in the order of their offsets, of which each exit leaves an enter note that is open. -/
structure Admissible (notes : List LineNote) : Prop where
  ordered : notes.Pairwise fun n n' => n.Offset < n'.Offset
  pos : ∀ n ∈ notes, 0 < n.Offset
  matched : (openEnters notes).isSome

/-- The notes are added one after the other. -/
def addNotes (FID : Int) (T : LineTableInfo) (notes : List LineNote) : Option LineTableInfo :=
  notes.foldlM (LineNote.add FID) T

/-- Behind each note the new entry has the include offset of the innermost enter note that is open,
and each search finds the nearest entry. -/
def Tracks (FID : Int) (T : LineTableInfo) (notes : List LineNote) : Prop :=
  ∀ done n rest, notes = done ++ n :: rest → ∃ T' new st, addNotes FID T (done ++ [n]) = some T' ∧
    (T' FID).getLast? = some new ∧ new.FileOffset = n.Offset ∧
    openEnters (done ++ [n]) = some st ∧ new.IncludeOffset = includeOffset st ∧
    ∀ Offset, ∃ r, FindNearestLineEntry T' FID Offset = some r ∧ IsNearest (T' FID) Offset r

/-- No exit leaves an enter note at offset 1. -/
def NoPopOfFirst (notes : List LineNote) : Prop :=
  ∀ done n rest, notes = done ++ n :: rest → n.EntryExit = 2 →
    ∀ st, openEnters done = some st → st.head? ≠ some 1

theorem openEnters_concat (done : List LineNote) (n : LineNote) :
    openEnters (done ++ [n]) = (openEnters done).bind fun st => pushNote st n := by
  unfold openEnters
  rw [foldlM_append]
  cases done.foldlM pushNote [] with
  | none => rfl
  | some st => simp

theorem addNotes_concat (FID : Int) (T : LineTableInfo) (done : List LineNote) (n : LineNote) :
    addNotes FID T (done ++ [n]) = (addNotes FID T done).bind fun T' => n.add FID T' := by
  unfold addNotes
  rw [foldlM_append]
  cases done.foldlM (LineNote.add FID) T with
  | none => rfl
  | some T' => simp

theorem Admissible.of_append {done rest : List LineNote} (h : Admissible (done ++ rest)) :
    Admissible done := by
  refine ⟨(pairwise_append.mp h.ordered).1, fun n hn => h.pos n (mem_append_left _ hn), ?_⟩
  have hmatched := h.matched
  unfold openEnters at *
  cases hd : done.foldlM pushNote [] with
  | none => simp [hd] at hmatched
  | some st => rfl

theorem Admissible.entries_lt {done : List LineNote} {n : LineNote}
    (h : Admissible (done ++ [n])) {entries : List LineEntry}
    (hoffsets : ∀ e ∈ entries, ∃ m ∈ done, e.FileOffset = m.Offset) :
    ∀ e ∈ entries, e.FileOffset < n.Offset := by
  intro e he
  obtain ⟨m, hm, heq⟩ := hoffsets e he
  rw [heq]
  exact (pairwise_append.mp h.ordered).2.2 m hm n (mem_singleton_self n)

theorem addNotes_spec {FID : Int} (hT : T FID = []) {notes : List LineNote}
    (h : Admissible notes) (hpop : NoPopOfFirst notes) :
    ∃ T' st, addNotes FID T notes = some T' ∧ openEnters notes = some st ∧ Tracking (T' FID) st ∧
      ∀ e ∈ T' FID, ∃ n ∈ notes, e.FileOffset = n.Offset := by
  induction notes using List.reverseRecOn with
  | nil =>
    refine ⟨T, [], rfl, rfl, ⟨?_, ?_, fun o ho => absurd ho not_mem_nil,
      fun inner o rest heq => by simp at heq⟩, fun e he => ?_⟩
    · rw [hT]
      exact Pairwise.nil
    · rw [hT]
      rfl
    · rw [hT] at he
      exact absurd he not_mem_nil
  | append_singleton done n ih =>
    obtain ⟨T', st, hrun, hopen, htrack, hoffsets⟩ := ih h.of_append
      fun done' n' rest heq => hpop done' n' (rest ++ [n]) (by rw [heq]; simp)
    have hmatched := h.matched
    rw [openEnters_concat, hopen, bind_some] at hmatched
    obtain ⟨st', hst'⟩ := isSome_iff_exists.mp hmatched
    have hlast := h.entries_lt hoffsets
    have hsafe : ¬(n.EntryExit = 2 ∧ st.head? = some 1) := fun hbad =>
      hpop done n [] rfl hbad.1 st hopen hbad.2
    obtain ⟨T'', new, hadd, hentries, hfile, -, htrack'⟩ :=
      (add_spec htrack hlast (h.pos n (by simp)) hst').2 hsafe
    refine ⟨T'', st', ?_, ?_, htrack', fun e he => ?_⟩
    · rw [addNotes_concat, hrun]
      exact hadd
    · rw [openEnters_concat, hopen]
      exact hst'
    · rw [hentries] at he
      rcases mem_append.mp he with he | he
      · obtain ⟨m, hm, heq⟩ := hoffsets e he
        exact ⟨m, mem_append_left _ hm, heq⟩
      · rw [mem_singleton.mp he]
        exact ⟨n, by simp, hfile⟩

theorem addNotes_next {FID : Int} (hT : T FID = []) {done : List LineNote}
    {n : LineNote} (h : Admissible (done ++ [n])) (hpop : NoPopOfFirst done) :
    ∃ T' st st', addNotes FID T done = some T' ∧ openEnters done = some st ∧
      openEnters (done ++ [n]) = some st' ∧
      (n.EntryExit = 2 ∧ st.head? = some 1 → n.add FID T' = none) ∧
      (¬(n.EntryExit = 2 ∧ st.head? = some 1) → ∃ T'' new, n.add FID T' = some T'' ∧
        T'' FID = T' FID ++ [new] ∧ new.FileOffset = n.Offset ∧
          new.IncludeOffset = includeOffset st' ∧ Tracking (T'' FID) st') := by
  obtain ⟨T', st, hrun, hopen, htrack, hoffsets⟩ := addNotes_spec hT h.of_append hpop
  obtain ⟨st', hst'⟩ := isSome_iff_exists.mp h.matched
  have hpush := hst'
  rw [openEnters_concat, hopen, bind_some] at hpush
  exact ⟨T', st, st', hrun, hopen, hst',
    add_spec htrack (h.entries_lt hoffsets) (h.pos n (by simp)) hpush⟩

/-- The include stack is right behind each note exactly if no exit leaves an enter note at offset 1,
whose include offset is the one of an empty stack. -/
theorem tracks_iff_noPopOfFirst {FID : Int} {notes : List LineNote}
    (hT : T FID = []) (h : Admissible notes) : Tracks FID T notes ↔ NoPopOfFirst notes := by
  have hpart : ∀ {done n rest}, notes = done ++ n :: rest → Admissible (done ++ [n]) := by
    intro done n rest heq
    rw [heq] at h
    have hassoc : done ++ n :: rest = done ++ [n] ++ rest := by simp
    exact (hassoc ▸ h).of_append
  constructor
  · intro htracks
    -- of each part of the notes, from one note to the next
    have hparts : ∀ done rest, notes = done ++ rest → NoPopOfFirst done := by
      intro done
      induction done using List.reverseRecOn with
      | nil => exact fun rest _ done n rest' heq => by simp at heq
      | append_singleton done n ih =>
        intro rest heq
        have heq' : notes = done ++ n :: rest := by rw [heq]; simp
        have hpop := ih (n :: rest) heq'
        intro done' m rest' hsplit hexit st hopen hhead
        rcases eq_nil_or_concat rest' with rfl | ⟨init, z, rfl⟩
        · obtain ⟨rfl, hm⟩ := append_inj' hsplit rfl
          obtain rfl := (List.cons.inj hm).1
          obtain ⟨T', st', -, hrun, hopen', -, hfail, -⟩ := addNotes_next hT (hpart heq') hpop
          obtain rfl := some.inj (hopen'.symm.trans hopen)
          obtain ⟨T'', -, -, hrun', -⟩ := htracks done n rest heq'
          rw [addNotes_concat, hrun, bind_some, hfail ⟨hexit, hhead⟩] at hrun'
          cases hrun'
        · rw [concat_eq_append] at hsplit
          have hassoc : done' ++ m :: (init ++ [z]) = (done' ++ m :: init) ++ [z] := by simp
          rw [hassoc] at hsplit
          exact hpop done' m init (append_inj' hsplit rfl).1 hexit st hopen hhead
    exact hparts notes [] (append_nil notes).symm
  · intro hpop done n rest heq
    have hdone : NoPopOfFirst done := fun done' m rest' hsplit =>
      hpop done' m (rest' ++ n :: rest) (by rw [heq, hsplit]; simp)
    obtain ⟨T', st, st', hrun, hopen, hopen', -, hadd⟩ := addNotes_next hT (hpart heq) hdone
    obtain ⟨T'', new, hadd, hentries, hfile, hinc, htrack⟩ :=
      hadd fun hbad => hpop done n rest heq hbad.1 st hopen hbad.2
    refine ⟨T'', new, st', ?_, ?_, hfile, hopen', hinc,
      FindNearestLineEntry_spec htrack.sorted (by rw [hentries]; simp)⟩
    · rw [addNotes_concat, hrun]
      exact hadd
    · rw [hentries]
      simp

theorem tracks_enter_exit :
    Tracks 1 (fun _ => []) [⟨5, 1, 0, 1, 0⟩, ⟨12, 7, 1, 2, 0⟩] := by
  refine (tracks_iff_noPopOfFirst rfl ⟨by decide, by decide, by decide⟩).mpr ?_
  intro done n rest heq hexit st hopen
  rcases done with _ | ⟨m, _ | ⟨m', done⟩⟩
  · obtain rfl := (List.cons.inj heq).1
    cases hexit
  · obtain rfl := (List.cons.inj heq).1
    have hst : some [5] = some st := hopen
    obtain rfl := some.inj hst
    decide
  · simp at heq

/-- The assertion of `AddLineNote` fails for an exit from an enter note at offset 1. -/
theorem not_tracks_first : ¬Tracks 1 (fun _ => []) [⟨1, 1, 0, 1, 0⟩, ⟨9, 2, 1, 2, 0⟩] := by
  intro h
  obtain ⟨T', -, -, hrun, -⟩ := h [⟨1, 1, 0, 1, 0⟩] ⟨9, 2, 1, 2, 0⟩ [] rfl
  have hnone : addNotes 1 (fun _ => []) [⟨1, 1, 0, 1, 0⟩, ⟨9, 2, 1, 2, 0⟩] = none := rfl
  exact some_ne_none T' (hrun.symm.trans hnone)

end LineTable

end Zapcc.Basic
