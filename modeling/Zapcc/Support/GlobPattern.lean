import Mathlib.Data.List.TakeWhile
import Zapcc.ADT.BitVector
import Zapcc.Library.Wildcards
import Zapcc.Support.StringFind

/-!
# Glob patterns

A pattern is compared as a whole, by one of its ends, or by its tokens. The main result is
`isMatch_iff_language_iff`: the matcher agrees with the language of a pattern unless the pattern
ends in two stars that would have to match the empty text.
-/

namespace Zapcc

open StringRef Wildcards List

structure GlobPattern where
  Tokens : List (List Bool) := []
  Exact : Option Bytes := none
  Prefix : Option Bytes := none
  Suffix : Option Bytes := none

namespace GlobPattern

/-! ## The code -/

/-- The byte of a character. -/
abbrev byte (C : Char) : UInt8 := C.toNat.toUInt8

def hasWildcard (S : Bytes) : Bool := S.any fun C => C == byte '?' || C == byte '*' || C == byte '['

def invalidGlobPattern (Original : Bytes) : Bytes :=
  "invalid glob pattern: ".toList.map byte ++ Original

/-- The loop of `expand`, and the bytes behind it. -/
def expandFrom (Original : Bytes) : Bytes → List Bool → Except Bytes (List Bool)
  | Start :: Dash :: End :: S, BV =>
    if Dash ≠ byte '-' then expandFrom Original (Dash :: End :: S) (BV.set Start.toNat true)
    else if Start > End then .error (invalidGlobPattern Original)
    else
      expandFrom Original S (BitVector.setBits BV
        (range' Start.toNat (End.toNat + 1 - Start.toNat)) true)
  | S, BV => .ok (BitVector.setBits BV (S.map UInt8.toNat) true)
termination_by S => S.length

def expand (S Original : Bytes) : Except Bytes (List Bool) :=
  expandFrom Original S (replicate 256 false)

/-- `scan` of a byte and the rest of the pattern: a token, and what is left. -/
def scan (C : UInt8) (S Original : Bytes) : Except Bytes (List Bool × Bytes) :=
  if C = byte '*' then .ok ([], S)
  else if C = byte '?' then .ok (replicate 256 true, S)
  else if C = byte '[' then
    match memchr (byte ']') S with
    | none => .error (invalidGlobPattern Original)
    | some End =>
      let BV :=
        if (S.take End).head? = some (byte '^') then
          (expand (S.take End).tail Original).map (·.map not)
        else expand (S.take End) Original
      BV.map fun BV => (BV, S.drop (End + 1))
  else .ok ((replicate 256 false).set C.toNat true, S)

theorem map_eq_ok {ε α β : Type*} {x : Except ε α} {f : α → β} {b : β} :
    x.map f = .ok b ↔ ∃ a, x = .ok a ∧ f a = b := by
  cases x <;> simp [Except.map]

variable {BV : List Bool}

variable {C : UInt8} {Original : Bytes}

theorem scan_length {S rest : Bytes}
    (h : scan C S Original = .ok (BV, rest)) : rest.length ≤ S.length := by
  unfold scan at h
  split_ifs at h
  · cases h
    exact le_rfl
  · cases h
    exact le_rfl
  · split at h
    · cases h
    · obtain ⟨BV, -, hBV⟩ := map_eq_ok.mp h
      cases hBV
      exact (drop_sublist _ S).length_le
  · cases h
    exact le_rfl

/-- The loop of `create` that parses the pattern. -/
def scanAll (Original S : Bytes) : Except Bytes (List (List Bool)) :=
  match S with
  | [] => .ok []
  | C :: S =>
    match _h : scan C S Original with
    | .error e => .error e
    | .ok (BV, rest) => (scanAll Original rest).map (BV :: ·)
termination_by S.length
decreasing_by
  have hlength := scan_length _h
  rw [length_cons]
  omega

def create (S : Bytes) : Except Bytes GlobPattern :=
  if !hasWildcard S then .ok { Exact := some S }
  else if S.getLast? = some (byte '*') ∧ !hasWildcard S.dropLast then
    .ok { Prefix := some S.dropLast }
  else if S.head? = some (byte '*') ∧ !hasWildcard S.tail then .ok { Suffix := some S.tail }
  else (scanAll S S).map fun Tokens => { Tokens := Tokens }

def matchOne : List (List Bool) → Bytes → Bool
  | [], S => S.isEmpty
  | Pat :: Pats, S =>
    if Pat.length = 0 then
      -- a star matches anything at the end of the pattern
      if Pats.isEmpty then true
      else (List.range S.length).any fun I => matchOne Pats (S.drop I)
    else
      match S with
      | [] => false
      | C :: S => Pat.getD C.toNat false && matchOne Pats S

def isMatch (P : GlobPattern) (S : Bytes) : Bool :=
  match P.Exact with
  | some Exact => S == Exact
  | none =>
    match P.Prefix with
    | some Prefix => Prefix.isPrefixOf S
    | none =>
      match P.Suffix with
      | some Suffix => Suffix.isSuffixOf S
      | none => matchOne P.Tokens S

/-! ## The language -/

def InSet : Bytes → UInt8 → Prop
  | X :: D :: Y :: S, C =>
    if D = byte '-' then (X ≤ C ∧ C ≤ Y) ∨ InSet S C else C = X ∨ InSet (D :: Y :: S) C
  | S, C => C ∈ S
termination_by S => S.length

/-- The items that a pattern stands for. -/
inductive Denotes : Bytes → List (Item UInt8) → Prop
  | nil : Denotes [] []
  | star {S : Bytes} {items : List (Item UInt8)} (h : Denotes S items) :
      Denotes (byte '*' :: S) (.any :: items)
  | question {S : Bytes} {items : List (Item UInt8)} (h : Denotes S items) :
      Denotes (byte '?' :: S) (.one (fun _ => True) :: items)
  | set {Chars S : Bytes} {items : List (Item UInt8)} (hchars : byte ']' ∉ Chars)
      (hhead : Chars.head? ≠ some (byte '^')) (h : Denotes S items) :
      Denotes (byte '[' :: Chars ++ byte ']' :: S) (.one (InSet Chars) :: items)
  | complement {Chars S : Bytes} {items : List (Item UInt8)} (hchars : byte ']' ∉ Chars)
      (h : Denotes S items) :
      Denotes (byte '[' :: byte '^' :: Chars ++ byte ']' :: S)
        (.one (fun C => ¬ InSet Chars C) :: items)
  | other {C : UInt8} {S : Bytes} {items : List (Item UInt8)} (hstar : C ≠ byte '*')
      (hquestion : C ≠ byte '?') (hset : C ≠ byte '[') (h : Denotes S items) :
      Denotes (C :: S) (.one (· = C) :: items)

/-- The texts of the language of a pattern. -/
def Language (P S : Bytes) : Prop := ∃ items, Denotes P items ∧ Matches items S

/-- The pattern ends in two stars, and the text matches what is in front of them, but no shorter
part of it does. -/
def OnlyBeforeStars (P S : Bytes) : Prop :=
  ∃ front, Denotes P (front ++ [.any, .any]) ∧ Matches front S ∧
    ∀ s t, S = s ++ t → t ≠ [] → ¬ Matches front s

/-! ## Tokens -/

def TokenOf (Pat : List Bool) : Item UInt8 → Prop
  | .any => Pat = []
  | .one p => Pat.length = 256 ∧ ∀ C : UInt8, Pat.getD C.toNat false = true ↔ p C

variable {Pats : List (List Bool)} {items front : List (Item UInt8)} {S P : Bytes}

theorem matchOne_any_iff {Pats : List (List Bool)} (hne : Pats ≠ []) :
    matchOne ([] :: Pats) S = true ↔ ∃ I < S.length, matchOne Pats (S.drop I) = true := by
  simp [matchOne, hne]

theorem matchOne_one_iff {Pat : List Bool} {p : UInt8 → Prop} (hPat : TokenOf Pat (.one p)) :
    matchOne (Pat :: Pats) S = true ↔ ∃ C T, S = C :: T ∧ p C ∧ matchOne Pats T = true := by
  have hlength : Pat.length ≠ 0 := by rw [hPat.1]; decide
  cases S with
  | nil => simp [matchOne, hlength]
  | cons C T => simp [matchOne, hlength, ← hPat.2]

theorem matches_any_drop_iff :
    Matches (.any :: items) S ↔ ∃ I ≤ S.length, Matches items (S.drop I) := by
  rw [matches_any_iff]
  constructor
  · rintro ⟨T, ⟨s, rfl⟩, hT⟩
    exact ⟨s.length, by simp, by simpa using hT⟩
  · rintro ⟨I, -, hI⟩
    exact ⟨S.drop I, drop_suffix I S, hI⟩

theorem eq_any_of_need {items : List (Item UInt8)} (h : need items = 0) (hne : items ≠ []) :
    ∃ front, items = front ++ [.any] := by
  induction items with
  | nil => exact absurd rfl hne
  | cons item items ih =>
    cases item with
    | one p => exact absurd h (Nat.succ_ne_zero _)
    | any =>
      by_cases hitems : items = []
      · exact ⟨[], by rw [hitems]; rfl⟩
      · obtain ⟨front, rfl⟩ := ih h hitems
        exact ⟨.any :: front, rfl⟩

theorem matchOne_iff_matches (h : Forall₂ TokenOf Pats items)
    (hend : ∀ front, items ≠ front ++ [.any, .any]) :
    matchOne Pats S = true ↔ Matches items S := by
  induction h generalizing S with
  | nil => simp [matchOne, matches_nil_iff]
  | @cons Pat item Pats items hPat hPats ih =>
    have hend' : ∀ front, items ≠ front ++ [.any, .any] := fun front heq =>
      hend (item :: front) (by rw [heq]; rfl)
    cases item with
    | one p =>
      rw [matchOne_one_iff hPat, matches_one_iff]
      simp only [ih hend']
    | any =>
      obtain rfl : Pat = [] := hPat
      cases hPats with
      | nil => simp [matchOne, matches_any_iff, matches_nil_iff, nil_suffix]
      | @cons Pat' item' Pats items hPat' hPats =>
        rw [matchOne_any_iff (cons_ne_nil _ _), matches_any_drop_iff]
        simp only [ih hend']
        refine ⟨fun ⟨I, hI, h⟩ => ⟨I, hI.le, h⟩, fun ⟨I, hI, h⟩ => ⟨I, ?_, h⟩⟩
        refine lt_of_le_of_ne hI fun heq => ?_
        rw [heq, drop_length, matches_nil_right_iff] at h
        -- the items would be stars, two of them at the end
        obtain ⟨front, hfront⟩ := eq_any_of_need h (cons_ne_nil _ _)
        rcases eq_nil_or_concat front with rfl | ⟨front, last, rfl⟩
        · exact hend [] (by rw [hfront]; rfl)
        · rw [hfront, concat_eq_append, append_assoc] at h
          have hlast : last = .any := by
            cases last with
            | any => rfl
            | one p =>
              have hneed : ∀ xs : List (Item UInt8), need (xs ++ [.one p, .any]) ≠ 0 := by
                intro xs
                induction xs with
                | nil => exact Nat.succ_ne_zero _
                | cons x xs ih =>
                  cases x with
                  | any => exact ih
                  | one q => exact Nat.succ_ne_zero _
              exact absurd h (hneed front)
          refine hend (.any :: front) ?_
          rw [hfront, hlast]
          simp

theorem matchOne_stars_iff (h : Forall₂ TokenOf Pats (front ++ [.any, .any])) :
    matchOne Pats S = true ↔ ∃ s t, S = s ++ t ∧ t ≠ [] ∧ Matches front s := by
  induction front generalizing Pats S with
  | nil =>
    obtain ⟨Pat, Pats, hPat, hPats, rfl⟩ := forall₂_cons_right_iff.mp h
    obtain ⟨Pat', Pats, hPat', hPats', rfl⟩ := forall₂_cons_right_iff.mp hPats
    obtain rfl : Pat = [] := hPat
    obtain rfl : Pat' = [] := hPat'
    cases hPats'
    rw [matchOne_any_iff (cons_ne_nil _ _)]
    simp only [matchOne, matches_nil_iff, length_nil, isEmpty_nil, if_true, and_true]
    refine ⟨fun ⟨I, hI⟩ => ⟨[], S, rfl, ne_nil_of_length_pos (by omega), rfl⟩, ?_⟩
    rintro ⟨s, t, rfl, ht, rfl⟩
    exact ⟨0, length_pos_iff.mpr ht⟩
  | cons item front ih =>
    obtain ⟨Pat, Pats, hPat, hPats, rfl⟩ := forall₂_cons_right_iff.mp h
    cases item with
    | one p =>
      rw [matchOne_one_iff hPat]
      simp only [ih hPats, matches_one_iff]
      constructor
      · rintro ⟨C, -, rfl, hC, s, t, rfl, ht, hs⟩
        exact ⟨C :: s, t, rfl, ht, C, s, rfl, hC, hs⟩
      · rintro ⟨-, t, rfl, ht, C, s, rfl, hC, hs⟩
        exact ⟨C, s ++ t, rfl, hC, s, t, rfl, ht, hs⟩
    | any =>
      obtain rfl : Pat = [] := hPat
      have hne : Pats ≠ [] := by
        rintro rfl
        have hlength := hPats.length_eq
        simp at hlength
      rw [matchOne_any_iff hne]
      simp only [ih hPats, matches_any_iff]
      constructor
      · rintro ⟨I, hI, s, t, heq, ht, hs⟩
        refine ⟨S.take I ++ s, t, ?_, ht, s, suffix_append _ _, hs⟩
        rw [append_assoc, ← heq, take_append_drop]
      · rintro ⟨-, t, rfl, ht, s, ⟨r, rfl⟩, hs⟩
        have htpos := length_pos_iff.mpr ht
        exact ⟨r.length, by simp; omega, s, t, by simp, ht, hs⟩

/-! ## The parser -/

theorem getD_iff_unset (hlength : BV.length = 256) (C : UInt8) :
    BV.getD C.toNat false = true ↔ ¬ BitVector.Unset BV C.toNat := by
  have hC : C.toNat < BV.length := hlength ▸ C.toNat_lt
  rw [getD_eq_getElem?_getD, getElem?_eq_getElem hC, BitVector.Unset, getElem?_eq_getElem hC]
  simp

theorem tokenOf_one {p : UInt8 → Prop} (hlength : BV.length = 256)
    (h : ∀ C : UInt8, BitVector.Unset BV C.toNat ↔ ¬ p C) : TokenOf BV (.one p) :=
  ⟨hlength, fun C => by rw [getD_iff_unset hlength, h, not_not]⟩

theorem unset_replicate (C : UInt8) : BitVector.Unset (replicate 256 false) C.toNat :=
  getElem?_replicate_of_lt C.toNat_lt

theorem inSet_of_length {S : Bytes} (h : S.length < 3) (C : UInt8) : InSet S C ↔ C ∈ S := by
  match S with
  | [] | [_] | [_, _] => rw [InSet]; simp
  | _ :: _ :: _ :: _ =>
    simp only [length_cons] at h
    omega

theorem expandFrom_spec {S : Bytes} {BV BV' : List Bool}
    (h : expandFrom Original S BV = .ok BV') :
    BV'.length = BV.length ∧
      ∀ C : UInt8, BitVector.Unset BV' C.toNat ↔ BitVector.Unset BV C.toNat ∧ ¬ InSet S C := by
  fun_induction expandFrom Original S BV with
  | case1 Start Dash End S BV hDash ih =>
    obtain ⟨hlength, hunset⟩ := ih h
    refine ⟨by rw [hlength, length_set], fun C => ?_⟩
    rw [hunset, BitVector.unset_set_true, InSet, if_neg hDash, not_or, and_assoc, Ne,
      UInt8.toNat_inj]
  | case2 => cases h
  | case3 Start Dash End S BV hDash hle ih =>
    obtain ⟨hlength, hunset⟩ := ih h
    refine ⟨by rw [hlength, BitVector.length_setBits], fun C => ?_⟩
    rw [hunset, BitVector.unset_setBits_true, InSet, if_pos (not_not.mp hDash), not_or,
      and_assoc, mem_range'_1, UInt8.le_iff_toNat_le, UInt8.le_iff_toNat_le]
    have hStart : Start.toNat ≤ End.toNat := UInt8.le_iff_toNat_le.mp (UInt8.not_lt.mp hle)
    rw [Nat.add_sub_cancel' (by omega), Nat.lt_succ_iff]
  | case4 S BV hS =>
    cases h
    refine ⟨BitVector.length_setBits _ _, fun C => ?_⟩
    have hlength : S.length < 3 := by
      match S, hS with
      | [], _ | [_], _ | [_, _], _ => simp
      | X :: Y :: Z :: S, hS => exact absurd rfl (hS X Y Z S)
    rw [BitVector.unset_setBits_true, inSet_of_length hlength]
    simp [UInt8.toNat_inj]

theorem expand_spec {S : Bytes} (h : expand S Original = .ok BV) :
    BV.length = 256 ∧ ∀ C : UInt8, BitVector.Unset BV C.toNat ↔ ¬ InSet S C := by
  obtain ⟨hlength, hunset⟩ := expandFrom_spec h
  refine ⟨by rw [hlength, length_replicate], fun C => ?_⟩
  rw [hunset, and_iff_right (unset_replicate C)]

theorem unset_not (hlength : BV.length = 256) (C : UInt8) :
    BitVector.Unset (BV.map not) C.toNat ↔ ¬ BitVector.Unset BV C.toNat := by
  have hC : C.toNat < BV.length := hlength ▸ C.toNat_lt
  rw [BitVector.Unset, BitVector.Unset, getElem?_map, getElem?_eq_getElem hC]
  simp

theorem memchr_split {S : Bytes} {End : Nat} (h : memchr C S = some End) :
    C ∉ S.take End ∧ S = S.take End ++ C :: S.drop (End + 1) := by
  obtain ⟨hget, hbefore⟩ := (memchr_spec C S).1 End h
  constructor
  · intro hmem
    obtain ⟨j, hj⟩ := getElem?_of_mem hmem
    rw [getElem?_take] at hj
    split_ifs at hj with hlt
    exact hbefore j hlt hj
  · obtain ⟨hlt, hget⟩ := List.getElem?_eq_some_iff.mp hget
    rw [← hget, ← drop_eq_getElem_cons, take_append_drop]

theorem scan_spec {S rest : Bytes}
    (h : scan C S Original = .ok (BV, rest)) :
    ∃ item, TokenOf BV item ∧ ∀ items, Denotes rest items → Denotes (C :: S) (item :: items) := by
  unfold scan at h
  split_ifs at h with hstar hquestion hset
  · cases h
    exact ⟨.any, rfl, fun items hitems => hstar ▸ .star hitems⟩
  · cases h
    refine ⟨.one fun _ => True, tokenOf_one length_replicate fun C => ?_,
      fun items hitems => hquestion ▸ .question hitems⟩
    simp only [BitVector.Unset, getElem?_replicate_of_lt (n := 256) C.toNat_lt,
      Option.some.injEq, Bool.true_eq_false, not_true]
  · split at h
    · cases h
    · next End hEnd =>
        obtain ⟨hclose, hsplit⟩ := memchr_split hEnd
        obtain ⟨BV', hBV', heq⟩ := map_eq_ok.mp h
        cases heq
        split_ifs at hBV' with hhead
        · obtain ⟨BV', hexpand, rfl⟩ := map_eq_ok.mp hBV'
          obtain ⟨Chars, hChars⟩ := head?_eq_some_iff.mp hhead
          rw [hChars, tail_cons] at hexpand
          rw [hChars] at hclose
          obtain ⟨hlength, hunset⟩ := expand_spec hexpand
          refine ⟨.one fun C => ¬ InSet Chars C, tokenOf_one (by rw [length_map, hlength])
            fun C => by rw [unset_not hlength, hunset], fun items hitems => ?_⟩
          rw [hset, hsplit, hChars]
          exact .complement (not_mem_of_not_mem_cons hclose) hitems
        · obtain ⟨hlength, hunset⟩ := expand_spec hBV'
          refine ⟨.one (InSet (S.take End)), tokenOf_one hlength hunset, fun items hitems => ?_⟩
          rw [hset]
          nth_rewrite 1 [hsplit]
          exact .set hclose hhead hitems
  · cases h
    refine ⟨.one (· = C), tokenOf_one (by rw [length_set, length_replicate]) fun D => ?_,
      fun items hitems => .other hstar hquestion hset hitems⟩
    rw [BitVector.unset_set_true, and_iff_right (unset_replicate D), Ne, UInt8.toNat_inj]

theorem scanAll_spec {S : Bytes} {Tokens : List (List Bool)}
    (h : scanAll Original S = .ok Tokens) :
    ∃ items, Denotes S items ∧ Forall₂ TokenOf Tokens items := by
  fun_induction scanAll Original S generalizing Tokens with
  | case1 =>
    cases h
    exact ⟨[], .nil, .nil⟩
  | case2 => cases h
  | case3 C S BV rest hscan ih =>
    obtain ⟨Tokens, hTokens, rfl⟩ := map_eq_ok.mp h
    obtain ⟨items, hitems, hall⟩ := ih hTokens
    obtain ⟨item, htoken, hdenotes⟩ := scan_spec hscan
    exact ⟨item :: items, hdenotes items hitems, .cons htoken hall⟩

/-! ## The language of a pattern -/

theorem split_unique {s s' t t' : Bytes} (hs : C ∉ s) (hs' : C ∉ s')
    (h : s ++ C :: t = s' ++ C :: t') : s = s' ∧ t = t' := by
  induction s generalizing s' with
  | nil =>
    cases s' with
    | nil => exact ⟨rfl, (List.cons.inj h).2⟩
    | cons D s' => exact absurd ((List.cons.inj h).1 ▸ mem_cons_self) hs'
  | cons D s ih =>
    cases s' with
    | nil => exact absurd ((List.cons.inj h).1 ▸ mem_cons_self) hs
    | cons D' s' =>
      obtain ⟨rfl, htail⟩ := List.cons.inj h
      obtain ⟨rfl, rfl⟩ := ih (not_mem_of_not_mem_cons hs)
        (not_mem_of_not_mem_cons hs') htail
      exact ⟨rfl, rfl⟩

theorem Denotes.unique {items' : List (Item UInt8)} (h : Denotes P items)
    (h' : Denotes P items') : items = items' := by
  induction h generalizing items' with
  | nil => cases h'; rfl
  | star _ ih =>
    cases h' with
    | star h' => rw [ih h']
    | other hstar => exact absurd rfl hstar
  | question _ ih =>
    cases h' with
    | question h' => rw [ih h']
    | other _ hquestion => exact absurd rfl hquestion
  | set hclose hhead _ ih =>
    generalize hP : _ :: _ ++ _ :: _ = P at h'
    cases h' with
    | nil => cases hP
    | star | question => cases hP
    | set hclose' hhead' h' =>
      obtain ⟨rfl, rfl⟩ := split_unique hclose hclose' (List.cons.inj hP).2
      rw [ih h']
    | complement hclose' h' =>
      obtain ⟨rfl, rfl⟩ := split_unique hclose
        (not_mem_cons_of_ne_of_not_mem (by decide) hclose') (List.cons.inj hP).2
      exact absurd rfl hhead
    | other _ _ hset => exact absurd (List.cons.inj hP).1.symm hset
  | complement hclose _ ih =>
    generalize hP : _ :: _ :: _ ++ _ :: _ = P at h'
    cases h' with
    | nil => cases hP
    | star | question => cases hP
    | set hclose' hhead' h' =>
      obtain ⟨rfl, rfl⟩ := split_unique (s := byte '^' :: _)
        (not_mem_cons_of_ne_of_not_mem (by decide) hclose) hclose' (List.cons.inj hP).2
      exact absurd rfl hhead'
    | complement hclose' h' =>
      obtain ⟨rfl, rfl⟩ := split_unique hclose hclose' (List.cons.inj (List.cons.inj hP).2).2
      rw [ih h']
    | other _ _ hset => exact absurd (List.cons.inj hP).1.symm hset
  | other hstar hquestion hset _ ih =>
    cases h' with
    | star => exact absurd rfl hstar
    | question => exact absurd rfl hquestion
    | set | complement => exact absurd rfl hset
    | other _ _ _ h' => rw [ih h']

theorem language_iff (h : Denotes P items) : Language P S ↔ Matches items S :=
  ⟨fun ⟨_, hitems, hmatches⟩ => h.unique hitems ▸ hmatches, fun hmatches => ⟨items, h, hmatches⟩⟩

theorem onlyBeforeStars_iff (h : Denotes P (front ++ [.any, .any])) :
    OnlyBeforeStars P S ↔ Matches front S ∧ ∀ s t, S = s ++ t → t ≠ [] → ¬ Matches front s := by
  refine ⟨fun ⟨front', hfront', hmatches⟩ => ?_, fun hmatches => ⟨front, h, hmatches⟩⟩
  rwa [append_cancel_right (h.unique hfront')]

theorem not_onlyBeforeStars (h : Denotes P items) (hend : ∀ front, items ≠ front ++ [.any, .any]) :
    ¬ OnlyBeforeStars P S :=
  fun ⟨front, hfront, _⟩ => hend front (h.unique hfront)

theorem denotes_literal_append {F S : Bytes} (hF : hasWildcard F = false) (h : Denotes S items) :
    Denotes (F ++ S) (literal F ++ items) := by
  induction F with
  | nil => exact h
  | cons C F ih =>
    have hC : (C ≠ byte '?' ∧ C ≠ byte '*' ∧ C ≠ byte '[') ∧ hasWildcard F = false := by
      simpa [hasWildcard, and_assoc] using hF
    obtain ⟨⟨hquestion, hstar, hset⟩, hF⟩ := hC
    exact .other hstar hquestion hset (ih hF)

theorem denotes_literal {F : Bytes} (hF : hasWildcard F = false) : Denotes F (literal F) := by
  simpa using denotes_literal_append hF .nil

theorem any_notMem_literal (F : Bytes) : Item.any ∉ literal F := by simp [literal]

/-! ## The matcher -/

theorem matches_append_stars_iff :
    Matches (front ++ [.any, .any]) S ↔ ∃ s t, S = s ++ t ∧ Matches front s := by
  rw [matches_append]
  simp only [matches_any_iff, matches_nil_iff, exists_eq_right]
  refine ⟨fun ⟨s, t, hS, hs, _⟩ => ⟨s, t, hS, hs⟩, fun ⟨s, t, hS, hs⟩ => ⟨s, t, hS, hs, ?_⟩⟩
  exact ⟨[], nil_suffix, nil_suffix⟩

theorem matchOne_iff_language_iff (hdenotes : Denotes P items)
    (htokens : Forall₂ TokenOf Pats items) :
    (matchOne Pats S = true ↔ Language P S) ↔ ¬ OnlyBeforeStars P S := by
  rw [language_iff hdenotes]
  by_cases hend : ∃ front, items = front ++ [.any, .any]
  · obtain ⟨front, rfl⟩ := hend
    rw [matchOne_stars_iff htokens, matches_append_stars_iff, onlyBeforeStars_iff hdenotes]
    constructor
    · rintro hiff ⟨hS, hnot⟩
      obtain ⟨s, t, heq, ht, hs⟩ := hiff.mpr ⟨S, [], (append_nil S).symm, hS⟩
      exact hnot s t heq ht hs
    · refine fun hnot => ⟨fun ⟨s, t, heq, _, hs⟩ => ⟨s, t, heq, hs⟩, fun ⟨s, t, heq, hs⟩ => ?_⟩
      by_cases ht : t = []
      · rw [ht, append_nil] at heq
        subst heq
        by_contra hno
        exact hnot ⟨hs, fun s' t' heq' ht' hs' => hno ⟨s', t', heq', ht', hs'⟩⟩
      · exact ⟨s, t, heq, ht, hs⟩
  · simp only [not_exists] at hend
    exact iff_of_true (matchOne_iff_matches htokens hend) (not_onlyBeforeStars hdenotes hend)

/-- The matcher agrees with the language of a pattern that is accepted, unless the pattern ends in
two stars that would have to match the empty text. -/
theorem isMatch_iff_language_iff {Pat : GlobPattern} (h : create P = .ok Pat) (S : Bytes) :
    (Pat.isMatch S = true ↔ Language P S) ↔ ¬ OnlyBeforeStars P S := by
  unfold create at h
  split_ifs at h with hexact hstart hsuffix
  · cases h
    have hdenotes := denotes_literal (by simpa using hexact : hasWildcard P = false)
    refine iff_of_true ?_ (not_onlyBeforeStars hdenotes fun front heq =>
      any_notMem_literal P (by simp [heq]))
    rw [language_iff hdenotes, matches_literal_iff]
    simp [isMatch]
  · cases h
    obtain ⟨hlast, hwild⟩ := hstart
    have hwild : hasWildcard P.dropLast = false := by simpa using hwild
    have hdenotes : Denotes P (literal P.dropLast ++ [.any]) := by
      have := denotes_literal_append hwild (Denotes.star .nil)
      rwa [dropLast_append_getLast? _ hlast] at this
    refine iff_of_true ?_ (not_onlyBeforeStars hdenotes fun front heq => ?_)
    · rw [language_iff hdenotes, matches_literal_append_iff]
      simp only [isMatch, matches_any_iff, matches_nil_iff, exists_eq_right, nil_suffix,
        and_true, isPrefixOf_iff_prefix]
      exact ⟨fun ⟨t, ht⟩ => ⟨t, ht.symm⟩, fun ⟨t, ht⟩ => ⟨t, ht.symm⟩⟩
    · have hlit : literal P.dropLast = front ++ [.any] := by
        have heq' : literal P.dropLast ++ [.any] = (front ++ [.any]) ++ [.any] := by simpa using heq
        exact append_cancel_right heq'
      exact any_notMem_literal P.dropLast (by simp [hlit])
  · cases h
    obtain ⟨hhead, hwild⟩ := hsuffix
    have hwild : hasWildcard P.tail = false := by simpa using hwild
    have hdenotes : Denotes P (.any :: literal P.tail) := by
      obtain ⟨T, rfl⟩ := head?_eq_some_iff.mp hhead
      exact .star (denotes_literal hwild)
    refine iff_of_true ?_ (not_onlyBeforeStars hdenotes fun front heq => ?_)
    · rw [language_iff hdenotes, matches_any_literal_iff]
      simp [isMatch]
    · cases front with
      | nil | cons item front => exact any_notMem_literal P.tail (by simp [(List.cons.inj heq).2])
  · obtain ⟨Tokens, htokens, rfl⟩ := map_eq_ok.mp h
    obtain ⟨items, hdenotes, hall⟩ := scanAll_spec htokens
    exact matchOne_iff_language_iff hdenotes hall

theorem create_stars : create [byte '*', byte '*'] = .ok { Tokens := [[], []] } := by
  simp [create, hasWildcard, scanAll, scan, Except.map, byte]

theorem isMatch_stars_iff_language_iff :
    (isMatch { Tokens := [[], []] } [] = true ↔ Language [byte '*', byte '*'] []) ↔
      ¬ OnlyBeforeStars [byte '*', byte '*'] [] :=
  isMatch_iff_language_iff create_stars []

/-- Two stars do not match the empty text. -/
theorem not_isMatch_iff_language :
    ¬ ∀ (P S : Bytes) (Pat : GlobPattern), create P = .ok Pat →
      (Pat.isMatch S = true ↔ Language P S) := by
  intro h
  have hlanguage : Language [byte '*', byte '*'] [] :=
    ⟨_, .star (.star .nil), .any [] (.any [] .nil)⟩
  exact absurd ((h _ [] _ create_stars).mpr hlanguage) (by decide)

end GlobPattern

end Zapcc
