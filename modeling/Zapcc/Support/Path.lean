import Mathlib.Data.List.TakeWhile

/-!
# Components of paths

The forward iterator over the components of a path yields its words between separators
(`collect_tail`), with special cases at the root. The main result is `remove_dots_iff`: which POSIX
paths are normalized lexically.
-/

namespace Zapcc.Path

open List Option

/-- A style, as `real_style` gives it. -/
inductive Style
  | posix
  | windows
  deriving DecidableEq

/-- A string, with a character for each byte. -/
abbrev Chars := List Char

/-! ## The code -/

variable (style : Style)

def is_separator (c : Char) : Bool := c == '/' || (style == .windows && c == '\\')

def preferred_separator : Char := if style = .windows then '\\' else '/'

def beginsWithSeparator (s : Chars) : Bool := s.head?.any (is_separator style)

/-- A string up to the next separator. -/
def uptoSeparator (s : Chars) : Chars := s.takeWhile fun c => !is_separator style c

def isalpha (c : Char) : Bool := ('a' ≤ c && c ≤ 'z') || ('A' ≤ c && c ≤ 'Z')

/-- Two equal separators and a character that is none. -/
def isNet : Chars → Bool
  | a :: b :: c :: _ => is_separator style a && a == b && !is_separator style c
  | _ => false

def isDrive : Chars → Bool
  | c :: d :: _ => style == .windows && isalpha c && d == ':'
  | _ => false

def find_first_component (path : Chars) : Chars :=
  if isDrive style path then path.take 2
  else if isNet style path then path.take 2 ++ uptoSeparator style (path.drop 2)
  else if beginsWithSeparator style path then path.take 1
  else uptoSeparator style path

structure const_iterator where
  Component : Chars
  Position : Nat
  deriving DecidableEq

def begin (path : Chars) : const_iterator := ⟨find_first_component style path, 0⟩

def endsInColon (Component : Chars) : Bool :=
  style == .windows && Component.getLast? == some ':'

/-- `++`. A failed assertion or a read past the end has no result. -/
def const_iterator.increment (Path : Chars) (i : const_iterator) : Option const_iterator :=
  if i.Position < Path.length then
    if i.Position + i.Component.length = Path.length then some ⟨[], Path.length⟩
    else
      match Path.drop (i.Position + i.Component.length) with
      | [] => none
      | c :: rest =>
        if is_separator style c then
          if isNet style i.Component || endsInColon style i.Component then
            some ⟨[c], i.Position + i.Component.length⟩
          else
            match rest.dropWhile (is_separator style) with
            | [] => some ⟨['.'], Path.length - 1⟩
            | d :: next =>
              some ⟨uptoSeparator style (d :: next), Path.length - (d :: next).length⟩
        else some ⟨uptoSeparator style (c :: rest), i.Position + i.Component.length⟩
  else none

/-- The components from an iterator to the end. -/
def collect (Path : Chars) : Nat → const_iterator → Option (List Chars)
  | 0, _ => none
  | fuel + 1, i =>
    if i.Position = Path.length then some []
    else (i.increment style Path).bind fun j =>
      (collect Path fuel j).map fun Components => i.Component :: Components

/-- The components that a loop over a path visits. -/
def components (path : Chars) : Option (List Chars) :=
  collect style path (path.length + 2) (begin style path)

/-- The test for a net name in the functions for roots. -/
def has_net : Chars → Bool
  | a :: b :: _ :: _ => is_separator style a && b == a
  | _ => false

def root_path (path : Chars) : Option Chars :=
  let b := find_first_component style path
  if path = [] then some []
  else if has_net style b || endsInColon style b then
    ((begin style path).increment style path).map fun pos =>
      if pos.Position ≠ path.length ∧ beginsWithSeparator style pos.Component then
        path.take (b.length + pos.Component.length)
      else b
  else if beginsWithSeparator style b then some b
  else some []

def root_name (path : Chars) : Chars :=
  let b := find_first_component style path
  if path ≠ [] ∧ (has_net style b || endsInColon style b) then b else []

def root_directory (path : Chars) : Option Chars :=
  let b := find_first_component style path
  let other := if !has_net style b && beginsWithSeparator style b then b else []
  if path = [] then some []
  else if has_net style b || endsInColon style b then
    ((begin style path).increment style path).map fun pos =>
      if pos.Position ≠ path.length ∧ beginsWithSeparator style pos.Component then pos.Component
      else other
  else some other

def is_absolute (path : Chars) : Option Bool :=
  (root_directory style path).map fun rootDir =>
    rootDir ≠ [] ∧ (style ≠ .windows ∨ root_name style path ≠ [])

def append (path component : Chars) : Chars :=
  if path.getLast?.any (is_separator style) then
    path ++ component.dropWhile (is_separator style)
  else if !beginsWithSeparator style component &&
      !(path = [] || root_name style component ≠ []) then
    path ++ preferred_separator style :: component
  else path ++ component

/-- The body of the loop of `remove_dots`. The back of the vector is the head of the list. -/
def addComponent (remove_dot_dot absolute : Bool) (components : List Chars) (C : Chars) :
    List Chars :=
  if C = ['.'] then components
  else if remove_dot_dot && C = ['.', '.'] then
    match components with
    | [] => if absolute then [] else [C]
    | back :: rest =>
      if back ≠ ['.', '.'] then rest
      else if absolute then back :: rest else C :: back :: rest
  else C :: components

def remove_dots (path : Chars) (remove_dot_dot : Bool) : Option Chars :=
  (root_path style path).bind fun root => (is_absolute style path).bind fun absolute =>
    (components style (path.drop root.length)).map fun Cs =>
      (Cs.foldl (addComponent remove_dot_dot absolute) []).reverse.foldl (append style) root

/-! ## Words -/

variable {style} {s t w seps before C Path : Chars} {c : Char} {fuel : Nat}

/-- The strings between separators. -/
def segments (style : Style) (s : Chars) : List Chars := s.splitOnP (is_separator style)

/-- The strings between separators that are not empty. -/
def words (style : Style) (s : Chars) : List Chars := (segments style s).filter (· ≠ [])

/-- A separator at the end is a dot. -/
def dot (style : Style) (s : Chars) : List Chars :=
  if s.getLast?.any (is_separator style) then [['.']] else []

/-- A word has characters, and no separator. -/
def IsWord (style : Style) (w : Chars) : Prop := w ≠ [] ∧ ∀ c ∈ w, is_separator style c = false

@[simp] theorem words_nil : words style [] = [] := by simp [words, segments]

theorem words_append_cons (h : is_separator style c = true) :
    words style (s ++ c :: t) = words style s ++ words style t := by
  rw [words, segments, splitOnP_append_cons s t h, filter_append]
  rfl

theorem words_cons (h : is_separator style c = true) :
    words style (c :: s) = words style s := by
  have happend := words_append_cons (s := []) (t := s) h
  simpa using happend

theorem words_of_isWord (h : IsWord style w) : words style w = [w] := by
  rw [words, segments, splitOnP_eq_singleton h.2]
  simp [h.1]

theorem words_seps_append (h : ∀ c ∈ seps, is_separator style c = true) :
    words style (seps ++ t) = words style t := by
  induction seps with
  | nil => rfl
  | cons c seps ih =>
    rw [cons_append, words_cons (h c mem_cons_self)]
    exact ih fun d hd => h d (mem_cons_of_mem _ hd)

/-- A string that is empty or begins with a separator. -/
def AtSeparator (style : Style) (t : Chars) : Prop := ∀ c ∈ t.head?, is_separator style c = true

theorem words_word_append (hw : IsWord style w) (ht : AtSeparator style t) :
    words style (w ++ t) = w :: words style t := by
  cases t with
  | nil => rw [append_nil, words_of_isWord hw, words_nil]
  | cons c t =>
    have hc : is_separator style c = true := ht c rfl
    rw [words_append_cons hc, words_of_isWord hw, words_cons hc, singleton_append]

theorem uptoSeparator_append (hw : ∀ c ∈ w, is_separator style c = false)
    (ht : AtSeparator style t) : uptoSeparator style (w ++ t) = w := by
  have hall : ∀ c ∈ w, (!is_separator style c) = true := fun c hc => by rw [hw c hc]; rfl
  rw [uptoSeparator, takeWhile_append_of_pos hall]
  cases t with
  | nil => rw [takeWhile_nil, append_nil]
  | cons c t => rw [takeWhile_cons_of_neg (by simp [ht c rfl]), append_nil]

theorem exists_uptoSeparator (style : Style) (s : Chars) :
    ∃ w t, s = w ++ t ∧ (∀ c ∈ w, is_separator style c = false) ∧ AtSeparator style t := by
  induction s with
  | nil => exact ⟨[], [], rfl, by simp, by simp [AtSeparator]⟩
  | cons c s ih =>
    cases hc : is_separator style c with
    | true => exact ⟨[], c :: s, rfl, by simp, by simp [AtSeparator, hc]⟩
    | false =>
      obtain ⟨w, t, rfl, hw, ht⟩ := ih
      exact ⟨c :: w, t, rfl, forall_mem_cons.mpr ⟨hc, hw⟩, ht⟩

theorem exists_word (h : beginsWithSeparator style (c :: s) = false) :
    ∃ w t, c :: s = w ++ t ∧ IsWord style w ∧ AtSeparator style t := by
  obtain ⟨w, t, hs, hw, ht⟩ := exists_uptoSeparator style (c :: s)
  refine ⟨w, t, hs, ⟨?_, hw⟩, ht⟩
  rintro rfl
  have hc := ht c (by rw [← hs.trans (nil_append t)]; rfl)
  simp [beginsWithSeparator, hc] at h

theorem exists_seps (style : Style) (s : Chars) :
    (∀ c ∈ s, is_separator style c = true) ∨
      ∃ seps w t, s = seps ++ (w ++ t) ∧ (∀ c ∈ seps, is_separator style c = true) ∧
        IsWord style w ∧ AtSeparator style t := by
  induction s with
  | nil => exact .inl (by simp)
  | cons c s ih =>
    cases hc : is_separator style c with
    | true =>
      rcases ih with hall | ⟨seps, w, t, rfl, hseps, hw, ht⟩
      · exact .inl (forall_mem_cons.mpr ⟨hc, hall⟩)
      · exact .inr ⟨c :: seps, w, t, rfl, forall_mem_cons.mpr ⟨hc, hseps⟩, hw, ht⟩
    | false =>
      have hbegin : beginsWithSeparator style (c :: s) = false := by
        simp [beginsWithSeparator, hc]
      obtain ⟨w, t, hs, hw, ht⟩ := exists_word hbegin
      exact .inr ⟨[], w, t, hs, by simp, hw, ht⟩

theorem words_seps (h : ∀ c ∈ seps, is_separator style c = true) : words style seps = [] := by
  rw [← append_nil seps, words_seps_append h, words_nil]

theorem isWord_of_mem_words (h : w ∈ words style s) : IsWord style w := by
  induction hn : s.length using Nat.strongRecOn generalizing s with
  | ind n ih =>
    rcases exists_seps style s with hall | ⟨seps, v, t, rfl, hseps, hv, ht⟩
    · rw [words_seps hall] at h
      exact absurd h not_mem_nil
    · rw [words_seps_append hseps, words_word_append hv ht] at h
      rcases mem_cons.mp h with rfl | h
      · exact hv
      · have hpos := length_pos_iff.mpr hv.1
        exact ih t.length (by simp [← hn]; omega) h rfl

theorem dot_append (ht : t ≠ []) : dot style (s ++ t) = dot style t := by
  rw [dot, dot, getLast?_append, getLast?_eq_some_getLast ht, some_or]

theorem dot_word_append (hw : IsWord style w) (t : Chars) :
    dot style (w ++ t) = dot style t := by
  by_cases ht : t = []
  · subst ht
    have hlast : is_separator style (w.getLast hw.1) = false := hw.2 _ (getLast_mem hw.1)
    simp [dot, getLast?_eq_some_getLast hw.1, hlast]
  · exact dot_append ht

theorem dot_seps (hne : seps ≠ []) (h : ∀ c ∈ seps, is_separator style c = true) :
    dot style seps = [['.']] := by
  have hlast : is_separator style (seps.getLast hne) = true := h _ (getLast_mem hne)
  simp [dot, getLast?_eq_some_getLast hne, hlast]

/-! ## The iterator -/

theorem isNet_of_not_separator (h : ∀ c ∈ w, is_separator style c = false) :
    isNet style w = false := by
  match w with
  | [] | [_] | [_, _] => rfl
  | a :: b :: c :: _ => simp [isNet, h a mem_cons_self]

theorem endsInColon_posix (C : Chars) : endsInColon .posix C = false := rfl

theorem increment_end {i : const_iterator} (hC : i.Component ≠ [])
    (h : i.Position + i.Component.length = Path.length) :
    i.increment style Path = some ⟨[], Path.length⟩ := by
  have hpos := length_pos_iff.mpr hC
  rw [const_iterator.increment, if_pos (by omega), if_pos h]

theorem drop_component (before C s : Chars) :
    (before ++ C ++ s).drop (before.length + C.length) = s := by
  rw [← length_append, drop_left]

theorem position_lt (before s : Chars) (hC : C ≠ []) :
    before.length < (before ++ C ++ s).length := by
  have hpos := length_pos_iff.mpr hC
  rw [length_append, length_append]
  omega

theorem increment_seps (hC : C ≠ []) (hnet : isNet .posix C = false) (hne : seps ≠ [])
    (hseps : ∀ c ∈ seps, is_separator .posix c = true) :
    const_iterator.increment .posix (before ++ C ++ seps) ⟨C, before.length⟩ =
      some ⟨['.'], (before ++ C ++ seps).length - 1⟩ := by
  obtain ⟨c, rest, rfl⟩ := exists_cons_of_ne_nil hne
  have hrest : rest.dropWhile (is_separator .posix) = [] :=
    dropWhile_eq_nil_iff.mpr fun d hd => hseps d (mem_cons_of_mem _ hd)
  rw [const_iterator.increment, if_pos (position_lt _ _ hC), if_neg (by simp), drop_component]
  simp [hseps c mem_cons_self, hnet, endsInColon_posix, hrest]

theorem increment_word (hC : C ≠ []) (hnet : isNet .posix C = false)
    (hseps : ∀ c ∈ seps, is_separator .posix c = true) (hw : IsWord .posix w)
    (ht : AtSeparator .posix t) :
    const_iterator.increment .posix (before ++ C ++ (seps ++ (w ++ t))) ⟨C, before.length⟩ =
      some ⟨w, (before ++ C ++ seps).length⟩ := by
  obtain ⟨d, w', rfl⟩ := exists_cons_of_ne_nil hw.1
  have hd := hw.2 d mem_cons_self
  have hupto := uptoSeparator_append hw.2 ht
  rw [const_iterator.increment, if_pos (position_lt _ _ hC), if_neg (by simp), drop_component]
  cases seps with
  | nil => simpa [hd] using hupto
  | cons c seps =>
    have hdrop : (seps ++ d :: (w' ++ t)).dropWhile (is_separator .posix) = d :: (w' ++ t) := by
      rw [dropWhile_append_of_pos fun e he => hseps e (mem_cons_of_mem _ he),
        dropWhile_cons_of_neg (by simp [hd])]
    simp [hseps c mem_cons_self, hnet, endsInColon_posix, hdrop]
    exact ⟨hupto, by omega⟩

theorem collect_end (hfuel : 0 < fuel) : collect style Path fuel ⟨C, Path.length⟩ = some [] := by
  obtain ⟨fuel, rfl⟩ := Nat.exists_eq_add_one_of_ne_zero hfuel.ne'
  rw [collect, if_pos rfl]

theorem collect_step {i j : const_iterator} (hi : i.Position < Path.length)
    (h : i.increment style Path = some j) :
    collect style Path (fuel + 1) i =
      (collect style Path fuel j).map fun Components => i.Component :: Components := by
  rw [collect, if_neg hi.ne, h, bind_some]

theorem collect_last {i : const_iterator} (hfuel : 2 ≤ fuel) (hC : i.Component ≠ [])
    (h : i.Position + i.Component.length = Path.length) :
    collect style Path fuel i = some [i.Component] := by
  obtain ⟨fuel, rfl⟩ := Nat.exists_eq_add_of_le' hfuel
  have hpos := length_pos_iff.mpr hC
  rw [collect_step (by omega) (increment_end hC h), collect_end (by omega), map_some]

theorem collect_tail (before : Chars) (hfuel : s.length + 2 ≤ fuel) (hC : C ≠ [])
    (hnet : isNet .posix C = false) :
    collect .posix (before ++ C ++ s) fuel ⟨C, before.length⟩ =
      some (C :: (words .posix s ++ dot .posix s)) := by
  induction hn : s.length using Nat.strongRecOn generalizing before C s fuel with
  | ind n ih =>
    by_cases hnil : s = []
    · subst hnil
      rw [collect_last (by omega) hC (by simp), words_nil]
      rfl
    obtain ⟨fuel, rfl⟩ := Nat.exists_eq_add_of_le' (show 1 ≤ fuel by omega)
    rcases exists_seps .posix s with hall | ⟨seps, w, t, rfl, hseps, hw, ht⟩
    · have hlen := length_pos_iff.mpr hnil
      rw [collect_step (by simp; omega) (increment_seps hC hnet hnil hall),
        collect_last (by omega) (by simp) (by simp; omega), words_seps hall, dot_seps hnil hall]
      rfl
    · have hlen := length_pos_iff.mpr hw.1
      simp only [length_append] at hfuel hn
      rw [collect_step (by simp; omega) (increment_word hC hnet hseps hw ht),
        show before ++ C ++ (seps ++ (w ++ t)) = before ++ C ++ seps ++ w ++ t by simp,
        ih t.length (by omega) _ (by omega) hw.1 (isNet_of_not_separator hw.2) rfl,
        words_seps_append hseps, words_word_append hw ht, ← append_assoc,
        append_assoc seps, dot_append (by simp [hw.1]), dot_word_append hw]
      rfl

/-! ## Components -/

theorem not_separator_head (hw : IsWord .posix (c :: w)) : c ≠ '/' :=
  fun hc => by simpa [is_separator, hc] using hw.2 c mem_cons_self

theorem find_first_component_word (hw : IsWord .posix w) (ht : AtSeparator .posix t) :
    find_first_component .posix (w ++ t) = w := by
  have hupto := uptoSeparator_append hw.2 ht
  obtain ⟨c, w, rfl⟩ := exists_cons_of_ne_nil hw.1
  have hc := hw.2 c mem_cons_self
  have hnet : isNet .posix (c :: w ++ t) = false := by
    unfold isNet
    split <;> simp_all
  have hdrive : isDrive .posix (c :: w ++ t) = false := by
    unfold isDrive
    split <;> simp_all
  rw [find_first_component, hnet, hdrive, hupto]
  simp [beginsWithSeparator, hc]

theorem isDrive_posix (s : Chars) : isDrive .posix s = false := by
  unfold isDrive
  split <;> rfl

theorem find_first_component_slash (hnet : isNet .posix ('/' :: s) = false) :
    find_first_component .posix ('/' :: s) = ['/'] := by
  rw [find_first_component, hnet, isDrive_posix]
  rfl

theorem isNet_net (hw : IsWord .posix w) (t : Chars) :
    isNet .posix ('/' :: '/' :: (w ++ t)) = true := by
  obtain ⟨c, w, rfl⟩ := exists_cons_of_ne_nil hw.1
  simp [isNet, is_separator, not_separator_head hw]

theorem find_first_component_net (hw : IsWord .posix w) (ht : AtSeparator .posix t) :
    find_first_component .posix ('/' :: '/' :: (w ++ t)) = '/' :: '/' :: w := by
  rw [find_first_component, isNet_net hw, isDrive_posix]
  simp [uptoSeparator_append hw.2 ht]

theorem components_eq (h : find_first_component .posix (C ++ s) = C) (hC : C ≠ [])
    (hnet : isNet .posix C = false) :
    components .posix (C ++ s) = some (C :: (words .posix s ++ dot .posix s)) := by
  rw [components, begin, h]
  exact collect_tail [] (by simp) hC hnet

theorem components_relative (hw : IsWord .posix w) (ht : AtSeparator .posix t) :
    components .posix (w ++ t) = some (words .posix (w ++ t) ++ dot .posix (w ++ t)) := by
  rw [components_eq (find_first_component_word hw ht) hw.1 (isNet_of_not_separator hw.2),
    words_word_append hw ht, dot_word_append hw]
  rfl

theorem components_slash (hnet : isNet .posix ('/' :: s) = false) :
    components .posix ('/' :: s) = some (['/'] :: (words .posix s ++ dot .posix s)) :=
  components_eq (C := ['/']) (find_first_component_slash hnet) (by simp) rfl

theorem components_net (hw : IsWord .posix w) :
    components .posix ('/' :: '/' :: w) = some ['/' :: '/' :: w] := by
  have hfirst := find_first_component_net hw (t := []) (by simp [AtSeparator])
  rw [append_nil] at hfirst
  rw [components, begin, hfirst]
  exact collect_last (by simp) (by simp) (by simp)

theorem increment_netDir (hw : IsWord .posix w) (s : Chars) :
    const_iterator.increment .posix ('/' :: '/' :: (w ++ '/' :: s)) ⟨'/' :: '/' :: w, 0⟩ =
      some ⟨['/'], ('/' :: '/' :: w).length⟩ := by
  have hnet := isNet_net hw []
  rw [append_nil] at hnet
  rw [const_iterator.increment, if_pos (by simp), if_neg (by simp)]
  simp [hnet, is_separator]

theorem components_netDir (hw : IsWord .posix w) (s : Chars) :
    components .posix ('/' :: '/' :: (w ++ '/' :: s)) =
      some (('/' :: '/' :: w) :: ['/'] :: (words .posix s ++ dot .posix s)) := by
  have hfirst := find_first_component_net hw (t := '/' :: s) (by simp [AtSeparator, is_separator])
  rw [components, begin, hfirst, collect_step (by simp) (increment_netDir hw s)]
  have htail : collect .posix ('/' :: '/' :: w ++ ['/'] ++ s)
      (('/' :: '/' :: (w ++ '/' :: s)).length + 1) ⟨['/'], ('/' :: '/' :: w).length⟩ =
        some (['/'] :: (words .posix s ++ dot .posix s)) :=
    collect_tail _ (by simp; omega) (by simp) rfl
  rw [append_assoc] at htail
  exact congrArg (Option.map fun Components => ('/' :: '/' :: w) :: Components) htail

/-! ## Normal form -/

/-- The components of a relative part, less the dots and the empty ones. -/
def names (rel : Chars) : List Chars := (words .posix rel).filter (· ≠ ['.'])

/-- A `..` cancels the nearest name. The nearest is the head of the list. -/
def cancel (rooted : Bool) (nearest : List Chars) (C : Chars) : List Chars :=
  if C = ['.', '.'] then
    match nearest with
    | [] => if rooted then [] else [C]
    | top :: rest => if top = ['.', '.'] then C :: top :: rest else rest
  else C :: nearest

/-- Components, with a separator between two. -/
def join : List Chars → Chars
  | [] => []
  | C :: Cs => C ++ Cs.flatMap fun D => '/' :: D

/-- A root path and the components that are left of a relative part. -/
def normal (root rel : Chars) : Chars :=
  root ++ join ((names rel).foldl (cancel !root.isEmpty) []).reverse

/-- What a name does to the names before it: those that are left, and how many more a string of
names cancels. -/
def settleStep (settled : List Chars × Nat) (C : Chars) : List Chars × Nat :=
  if C = ['.', '.'] then
    match settled.1 with
    | [] => ([], settled.2 + 1)
    | _ :: rest => (rest, settled.2)
  else (C :: settled.1, settled.2)

/-- The names that are left, and how many names before them are cancelled. -/
def settle (Cs : List Chars) : List Chars × Nat := Cs.foldl settleStep ([], 0)

variable {rooted absolute : Bool} {Cs Ws base nearest settled : List Chars}
  {root rel path p : Chars}

theorem mem_cancel (h : w ∈ cancel rooted nearest C) : w = C ∨ w ∈ nearest := by
  by_cases hC : C = ['.', '.']
  · rw [cancel.eq_def, if_pos hC] at h
    cases nearest with
    | nil => cases rooted <;> simp_all
    | cons top rest =>
      by_cases htop : top = ['.', '.']
      · simpa [htop] using h
      · exact .inr (mem_cons_of_mem _ (by simpa [htop] using h))
  · rw [cancel.eq_def, if_neg hC] at h
    exact mem_cons.mp h

theorem mem_foldl_cancel (h : w ∈ Cs.foldl (cancel rooted) nearest) : w ∈ Cs ∨ w ∈ nearest := by
  induction Cs generalizing nearest with
  | nil => exact .inr h
  | cons C Cs ih =>
    rcases ih h with h | h
    · exact .inl (mem_cons_of_mem _ h)
    · rcases mem_cancel h with rfl | h
      · exact .inl mem_cons_self
      · exact .inr h

theorem not_mem_cancel (h : ['.', '.'] ∉ nearest) : ['.', '.'] ∉ cancel true nearest C := by
  by_cases hC : C = ['.', '.']
  · cases nearest with
    | nil => simp [cancel, hC]
    | cons top rest =>
      rw [mem_cons, not_or] at h
      simp [cancel, hC, Ne.symm h.1, h.2]
  · simp [cancel, Ne.symm hC, hC, h]

theorem addComponent_eq (h : absolute = true → ['.', '.'] ∉ nearest) (hC : C ≠ ['.']) :
    addComponent true absolute nearest C = cancel absolute nearest C := by
  unfold addComponent cancel
  rw [if_neg hC]
  by_cases hdots : C = ['.', '.']
  · cases nearest with
    | nil => simp [hdots]
    | cons top rest =>
      by_cases htop : top = ['.', '.']
      · cases absolute with
        | false => simp [hdots, htop]
        | true => exact absurd (htop ▸ mem_cons_self) (h rfl)
      · simp [hdots, htop]
  · simp [hdots]

theorem foldl_addComponent (h : absolute = true → ['.', '.'] ∉ nearest) :
    Cs.foldl (addComponent true absolute) nearest =
      (Cs.filter (· ≠ ['.'])).foldl (cancel absolute) nearest := by
  induction Cs generalizing nearest with
  | nil => rfl
  | cons C Cs ih =>
    by_cases hC : C = ['.']
    · rw [filter_cons_of_neg (by simp [hC]), ← ih h]
      simp [addComponent, hC]
    · rw [filter_cons_of_pos (by simp [hC]), foldl_cons, addComponent_eq h hC]
      refine ih fun habs => ?_
      subst habs
      exact not_mem_cancel (h rfl)

theorem foldl_cancel_drop {k : Nat} (hbase : ['.', '.'] ∉ base) (h : ['.', '.'] ∉ settled) :
    Cs.foldl (cancel true) (settled ++ base.drop k) =
        (Cs.foldl settleStep (settled, k)).1 ++ base.drop (Cs.foldl settleStep (settled, k)).2 ∧
      ['.', '.'] ∉ (Cs.foldl settleStep (settled, k)).1 := by
  induction Cs generalizing settled k with
  | nil => exact ⟨rfl, h⟩
  | cons C Cs ih =>
    rw [foldl_cons, foldl_cons]
    by_cases hC : C = ['.', '.']
    · cases settled with
      | nil =>
        have hstep : cancel true ([] ++ base.drop k) C = [] ++ base.drop (k + 1) := by
          rw [← tail_drop]
          cases hdrop : base.drop k with
          | nil => simp [cancel, hC]
          | cons top rest =>
            have htop : top ≠ ['.', '.'] := by
              rintro rfl
              exact hbase (mem_of_mem_drop (hdrop ▸ mem_cons_self))
            simp [cancel, hC, htop]
        rw [hstep, settleStep, if_pos hC]
        exact ih h
      | cons top rest =>
        rw [mem_cons, not_or] at h
        have hstep : cancel true (top :: rest ++ base.drop k) C = rest ++ base.drop k := by
          simp [cancel, hC, Ne.symm h.1]
        rw [hstep, settleStep, if_pos hC]
        exact ih h.2
    · have hstep : cancel true (settled ++ base.drop k) C = C :: settled ++ base.drop k := by
        simp [cancel, hC]
      rw [hstep, settleStep, if_neg hC]
      exact ih (by simp [Ne.symm hC, h])

theorem foldl_cancel_base (Cs : List Chars) (hbase : ['.', '.'] ∉ base) :
    Cs.foldl (cancel true) base = (settle Cs).1 ++ base.drop (settle Cs).2 :=
  (foldl_cancel_drop (k := 0) hbase not_mem_nil).1

/-- Names that cancel no more. -/
def Settled (rooted : Bool) (nearest : List Chars) : Prop :=
  nearest.reverse.foldl (cancel rooted) [] = nearest

theorem Settled.cancel (h : Settled rooted nearest) : Settled rooted (cancel rooted nearest C) := by
  have hcons : Zapcc.Path.cancel rooted nearest C = C :: nearest →
      Settled rooted (Zapcc.Path.cancel rooted nearest C) := by
    intro hstep
    rw [hstep, Settled, reverse_cons, foldl_append, h, foldl_cons, foldl_nil, hstep]
  by_cases hC : C = ['.', '.']
  · cases nearest with
    | nil =>
      cases rooted with
      | true => simp [Zapcc.Path.cancel, hC, Settled]
      | false => exact hcons (by simp [Zapcc.Path.cancel, hC])
    | cons top rest =>
      by_cases htop : top = ['.', '.']
      · exact hcons (by simp [Zapcc.Path.cancel, hC, htop])
      · have hstep : Zapcc.Path.cancel rooted (top :: rest) C = rest := by
          simp [Zapcc.Path.cancel, hC, htop]
        rw [Settled, reverse_cons, foldl_append, foldl_cons, foldl_nil] at h
        rw [hstep]
        rw [Zapcc.Path.cancel.eq_def, if_neg htop] at h
        exact tail_eq_of_cons_eq h
  · exact hcons (by simp [Zapcc.Path.cancel, hC])

theorem settled_foldl (h : Settled rooted nearest) :
    Settled rooted (Cs.foldl (cancel rooted) nearest) := by
  induction Cs generalizing nearest with
  | nil => exact h
  | cons C Cs ih => exact ih h.cancel

/-! ## Appending -/

/-- A path that takes a component without a separator. -/
def Open (p : Chars) : Prop := p = [] ∨ p.getLast? = some '/'

theorem open_append_slash (p : Chars) : Open (p ++ ['/']) := .inr (by simp)

theorem dropWhile_word (hw : IsWord style w) : w.dropWhile (is_separator style) = w := by
  obtain ⟨c, w, rfl⟩ := exists_cons_of_ne_nil hw.1
  exact dropWhile_cons_of_neg (by simp [hw.2 c mem_cons_self])

theorem begin_word (hw : IsWord style w) : beginsWithSeparator style w = false := by
  obtain ⟨c, w, rfl⟩ := exists_cons_of_ne_nil hw.1
  exact hw.2 c mem_cons_self

theorem has_net_word (hw : IsWord style w) : has_net style w = false := by
  match w with
  | [] | [_] | [_, _] => rfl
  | a :: _ :: _ :: _ => simp [has_net, hw.2 a mem_cons_self]

theorem root_name_word (hw : IsWord .posix w) : root_name .posix w = [] := by
  have hfirst := find_first_component_word hw (t := []) (by simp [AtSeparator])
  rw [append_nil] at hfirst
  simp [root_name, hfirst, has_net_word hw, endsInColon_posix]

theorem append_open (hp : Open p) (hw : IsWord .posix w) : append .posix p w = p ++ w := by
  rcases hp with rfl | hp
  · simp [append, begin_word hw]
  · simp [append, hp, is_separator, dropWhile_word hw]

theorem append_word (hp : IsWord .posix w) (hw : IsWord .posix s) (p : Chars) :
    append .posix (p ++ w) s = p ++ w ++ '/' :: s := by
  have hlast := hp.2 _ (getLast_mem hp.1)
  simp [append, getLast?_append, getLast?_eq_some_getLast hp.1, hlast, begin_word hw,
    root_name_word hw, hp.1, preferred_separator]

theorem foldl_append_word (hp : IsWord .posix w) (hWs : ∀ s ∈ Ws, IsWord .posix s) :
    Ws.foldl (append .posix) (p ++ w) = p ++ w ++ Ws.flatMap fun D => '/' :: D := by
  induction Ws generalizing p w with
  | nil => simp
  | cons s Ws ih =>
    have hs := hWs s mem_cons_self
    rw [foldl_cons, append_word hp hs,
      show p ++ w ++ '/' :: s = p ++ w ++ ['/'] ++ s by simp,
      ih hs fun v hv => hWs v (mem_cons_of_mem _ hv)]
    simp

theorem foldl_append_open (hp : Open p) (hWs : ∀ s ∈ Ws, IsWord .posix s) :
    Ws.foldl (append .posix) p = p ++ join Ws := by
  cases Ws with
  | nil => simp [join]
  | cons s Ws =>
    have hs := hWs s mem_cons_self
    rw [foldl_cons, append_open hp hs,
      foldl_append_word hs fun v hv => hWs v (mem_cons_of_mem _ hv), join, append_assoc]

/-! ## Roots -/

/-- The root path of a path, the rest of it, and whether it is absolute. -/
inductive Rooted : Chars → Chars → Bool → Prop
  | relative {tail : Chars} (h : beginsWithSeparator .posix tail = false) : Rooted [] tail false
  | slash {tail : Chars} (h : isNet .posix ('/' :: tail) = false) : Rooted ['/'] tail true
  | net {name : Chars} (hw : IsWord .posix name) : Rooted ('/' :: '/' :: name) [] false
  | netDir {name tail : Chars} (hw : IsWord .posix name) :
      Rooted ('/' :: '/' :: name ++ ['/']) tail true

theorem is_separator_posix (h : is_separator .posix c = true) : c = '/' := by
  simpa [is_separator] using h

theorem atSeparator_cases (ht : AtSeparator .posix t) : t = [] ∨ ∃ s, t = '/' :: s := by
  cases t with
  | nil => exact .inl rfl
  | cons c s => exact .inr ⟨s, is_separator_posix (ht c rfl) ▸ rfl⟩

theorem exists_net (h : isNet .posix path = true) :
    ∃ w t, path = '/' :: '/' :: (w ++ t) ∧ IsWord .posix w ∧ AtSeparator .posix t := by
  match path with
  | [] | [_] | [_, _] => exact absurd h Bool.false_ne_true
  | a :: b :: c :: s =>
    simp only [isNet, Bool.and_eq_true, beq_iff_eq, Bool.not_eq_true'] at h
    obtain ⟨⟨ha, rfl⟩, hc⟩ := h
    have hbegin : beginsWithSeparator .posix (c :: s) = false := hc
    obtain ⟨w, t, hs, hw, ht⟩ := exists_word hbegin
    exact ⟨w, t, by rw [← hs, is_separator_posix ha], hw, ht⟩

theorem exists_rooted (path : Chars) :
    ∃ root rel absolute, path = root ++ rel ∧ Rooted root rel absolute := by
  cases hbegin : beginsWithSeparator .posix path with
  | false => exact ⟨[], path, false, rfl, .relative hbegin⟩
  | true =>
    cases hnet : isNet .posix path with
    | true =>
      obtain ⟨w, t, rfl, hw, ht⟩ := exists_net hnet
      rcases atSeparator_cases ht with rfl | ⟨s, rfl⟩
      · exact ⟨_, [], false, by simp, .net hw⟩
      · exact ⟨_, s, true, by simp, .netDir hw⟩
    | false =>
      cases path with
      | nil => exact absurd hbegin (by decide)
      | cons c s =>
        obtain rfl := is_separator_posix (c := c) hbegin
        exact ⟨['/'], s, true, rfl, .slash hnet⟩

theorem has_net_net (hw : IsWord .posix w) : has_net .posix ('/' :: '/' :: w) = true := by
  obtain ⟨c, w, rfl⟩ := exists_cons_of_ne_nil hw.1
  simp [has_net, is_separator]

theorem Rooted.root_path (h : Rooted root rel absolute) :
    root_path .posix (root ++ rel) = some root ∧
      is_absolute .posix (root ++ rel) = some absolute := by
  cases h with
  | relative h =>
    cases rel with
    | nil => exact ⟨rfl, rfl⟩
    | cons c s =>
      obtain ⟨w, t, hs, hw, ht⟩ := exists_word h
      have hfirst := find_first_component_word hw ht
      rw [← hs] at hfirst
      simp [Path.root_path, is_absolute, root_directory, hfirst, has_net_word hw,
        endsInColon_posix, begin_word hw]
  | slash h =>
    have hfirst := find_first_component_slash h
    simp [Path.root_path, is_absolute, root_directory, hfirst, has_net, endsInColon_posix,
      beginsWithSeparator, is_separator]
  | @net w hw =>
    have hfirst := find_first_component_net hw (t := []) (by simp [AtSeparator])
    rw [append_nil] at hfirst ⊢
    have hinc : (begin .posix ('/' :: '/' :: w)).increment .posix ('/' :: '/' :: w) =
        some ⟨[], ('/' :: '/' :: w).length⟩ := by
      rw [begin, hfirst]
      exact increment_end (by simp) (by simp)
    simp [Path.root_path, is_absolute, root_directory, hfirst, endsInColon_posix, hinc,
      has_net_net hw]
  | @netDir w tail hw =>
    have hfirst := find_first_component_net hw (t := '/' :: rel)
      (by simp [AtSeparator, is_separator])
    have hinc := increment_netDir hw rel
    have hslash : beginsWithSeparator .posix ['/'] = true := rfl
    simp [Path.root_path, is_absolute, root_directory, begin, hfirst, endsInColon_posix, hinc,
      has_net_net hw, hslash, take_append, take_of_length_le]

theorem Rooted.replace (h : Rooted root rel absolute) (hs : beginsWithSeparator .posix s = false)
    (hnil : rel = [] → s = []) : Rooted root s absolute := by
  cases h with
  | relative h => exact .relative hs
  | slash h =>
    refine .slash ?_
    match s with
    | [] | [_] => rfl
    | a :: b :: _ =>
      have ha : a ≠ '/' := fun ha => by simp [beginsWithSeparator, is_separator, ha] at hs
      simp [isNet, Ne.symm ha]
  | net hw => exact hnil rfl ▸ .net hw
  | netDir hw => exact .netDir hw

theorem remove_dots_eq (h : Rooted root rel absolute) (hCs : components .posix rel = some Cs) :
    remove_dots .posix (root ++ rel) true =
      some (((Cs.filter (· ≠ ['.'])).foldl (cancel absolute) []).reverse.foldl (append .posix)
        root) := by
  rw [remove_dots, h.root_path.1, h.root_path.2, bind_some, bind_some, drop_left,
    hCs, map_some, foldl_addComponent (by simp)]

theorem names_eq (s : Chars) :
    (words .posix s ++ dot .posix s).filter (· ≠ ['.']) = names s := by
  have hdot : (dot .posix s).filter (· ≠ ['.']) = [] := by
    unfold dot
    split_ifs <;> rfl
  rw [filter_append, hdot, append_nil, names]

theorem isWord_of_mem_names (h : w ∈ names s) : IsWord .posix w :=
  isWord_of_mem_words (mem_filter.mp h).1

theorem isWord_cancelled (h : w ∈ ((names s).foldl (cancel rooted) []).reverse) :
    IsWord .posix w :=
  isWord_of_mem_names ((mem_foldl_cancel (mem_reverse.mp h)).resolve_right not_mem_nil)

theorem components_names (h : beginsWithSeparator .posix rel = false) :
    ∃ Cs, components .posix rel = some Cs ∧ Cs.filter (· ≠ ['.']) = names rel := by
  cases rel with
  | nil => exact ⟨[], rfl, by simp [names]⟩
  | cons c s =>
    obtain ⟨w, t, hs, hw, ht⟩ := exists_word h
    exact ⟨_, hs ▸ components_relative hw ht, hs ▸ names_eq _⟩

theorem Rooted.isOpen (h : Rooted root rel absolute) (hrel : rel ≠ []) :
    Open root ∧ absolute = !root.isEmpty := by
  cases h with
  | relative _ => exact ⟨.inl rfl, rfl⟩
  | slash _ => exact ⟨.inr rfl, rfl⟩
  | net _ => exact absurd rfl hrel
  | netDir _ => exact ⟨open_append_slash _, rfl⟩

theorem normal_nil (root : Chars) : normal root [] = root := by simp [normal, names, join]

theorem remove_dots_relative (h : Rooted root rel absolute)
    (hrel : beginsWithSeparator .posix rel = false) :
    remove_dots .posix (root ++ rel) true = some (normal root rel) := by
  obtain ⟨Cs, hCs, hnames⟩ := components_names hrel
  rw [remove_dots_eq h hCs, hnames]
  by_cases hnil : rel = []
  · subst hnil
    rw [normal_nil]
    simp [names]
  · obtain ⟨hopen, rfl⟩ := h.isOpen hnil
    rw [foldl_append_open hopen fun w hw => isWord_cancelled hw]
    rfl

theorem words_flatMap (h : ∀ v ∈ Ws, IsWord .posix v) :
    words .posix (Ws.flatMap fun D => '/' :: D) = Ws ∧
      AtSeparator .posix (Ws.flatMap fun D => '/' :: D) := by
  induction Ws with
  | nil => exact ⟨words_nil, by simp [AtSeparator]⟩
  | cons v Ws ih =>
    obtain ⟨hwords, ht⟩ := ih fun w hw => h w (mem_cons_of_mem _ hw)
    rw [flatMap_cons, cons_append, words_cons rfl, words_word_append (h v mem_cons_self) ht, hwords]
    exact ⟨rfl, by simp [AtSeparator, is_separator]⟩

theorem words_join (h : ∀ v ∈ Ws, IsWord .posix v) :
    words .posix (join Ws) = Ws ∧ beginsWithSeparator .posix (join Ws) = false := by
  cases Ws with
  | nil => exact ⟨words_nil, rfl⟩
  | cons v Ws =>
    obtain ⟨hwords, ht⟩ := words_flatMap fun w hw => h w (mem_cons_of_mem v hw)
    have hv := h v mem_cons_self
    refine ⟨by rw [join, words_word_append hv ht, hwords], ?_⟩
    obtain ⟨c, v, rfl⟩ := exists_cons_of_ne_nil hv.1
    exact hv.2 c mem_cons_self

theorem names_join (h : ∀ v ∈ Ws, v ∈ names s) : names (join Ws) = Ws := by
  rw [names, (words_join fun v hv => isWord_of_mem_names (h v hv)).1]
  exact filter_eq_self.mpr fun v hv => (mem_filter.mp (h v hv)).2

theorem remove_dots_normal (h : Rooted root rel absolute) :
    remove_dots .posix (normal root rel) true = some (normal root rel) := by
  have hmem : ∀ v ∈ ((names rel).foldl (cancel !root.isEmpty) []).reverse, v ∈ names rel :=
    fun v hv => (mem_foldl_cancel (mem_reverse.mp hv)).resolve_right not_mem_nil
  have hbegin := (words_join fun v hv => isWord_of_mem_names (hmem v hv)).2
  have hsettled : Settled (!root.isEmpty) ((names rel).foldl (cancel !root.isEmpty) []) :=
    settled_foldl rfl
  have hreplace := h.replace hbegin fun hnil => by simp [hnil, names, join]
  rw [normal, remove_dots_relative hreplace hbegin, normal, names_join hmem, hsettled]

/-! ## A relative part that begins with separators -/

theorem foldl_cancel_reverse (hbase : ['.', '.'] ∉ base) :
    base.reverse.foldl (cancel rooted) [] = base := by
  induction base with
  | nil => rfl
  | cons C base ih =>
    rw [mem_cons, not_or] at hbase
    rw [reverse_cons, foldl_append, ih hbase.2, foldl_cons, foldl_nil,
      cancel.eq_def, if_neg (Ne.symm hbase.1)]

theorem foldl_cancel_append (hbase : ['.', '.'] ∉ base) :
    (base.reverse ++ Cs).foldl (cancel true) [] = (settle Cs).1 ++ base.drop (settle Cs).2 := by
  rw [foldl_append, foldl_cancel_reverse hbase, foldl_cancel_base Cs hbase]

theorem remove_dots_base (base : List Chars) (h : Rooted root rel true)
    (hCs : components .posix rel = some (base.reverse ++ (words .posix s ++ dot .posix s)))
    (hbase : ['.', '.'] ∉ base) (hdot : ['.'] ∉ base) :
    remove_dots .posix (root ++ rel) true =
      some (((settle (names s)).1 ++ base.drop (settle (names s)).2).reverse.foldl (append .posix)
        root) := by
  have hfilter : base.reverse.filter (· ≠ ['.']) = base.reverse :=
    filter_eq_self.mpr fun C hC => by
      simpa using fun heq : C = ['.'] => hdot (heq ▸ mem_reverse.mp hC)
  rw [remove_dots_eq h hCs, filter_append, hfilter, names_eq, foldl_cancel_append hbase]

theorem normal_base (base : List Chars) (hroot : root ≠ [])
    (hnames : names rel = base.reverse ++ names s)
    (hbase : ['.', '.'] ∉ base) :
    normal root rel =
      root ++ join ((settle (names s)).1 ++ base.drop (settle (names s)).2).reverse := by
  have hempty : (!root.isEmpty) = true := by simpa using hroot
  rw [normal, hnames, hempty, foldl_cancel_append hbase]

theorem names_slash (s : Chars) : names ('/' :: s) = names s := by
  rw [names, words_cons rfl, names]

theorem isWord_settle (h : w ∈ (settle (names s)).1) : IsWord .posix w := by
  have hfold := foldl_cancel_base (names s) (not_mem_nil (a := ['.', '.']))
  rw [drop_nil, append_nil] at hfold
  rw [← hfold] at h
  exact isWord_cancelled (mem_reverse.mpr h)

theorem Rooted.endsInSlash (h : Rooted root rel true) : root ≠ [] ∧ root.getLast? = some '/' := by
  cases h with
  | slash _ => exact ⟨by simp, rfl⟩
  | netDir _ => exact ⟨by simp, getLast?_concat⟩

theorem append_slash (h : root.getLast? = some '/') : append .posix root ['/'] = root := by
  simp [append, h, is_separator]

theorem remove_dots_slash (h : Rooted root ('/' :: s) true)
    (hnet : isNet .posix ('/' :: s) = false) :
    remove_dots .posix (root ++ '/' :: s) true = some (normal root ('/' :: s)) := by
  obtain ⟨hroot, hlast⟩ := h.endsInSlash
  have hR : ∀ v ∈ (settle (names s)).1.reverse, IsWord .posix v :=
    fun v hv => isWord_settle (mem_reverse.mp hv)
  rw [remove_dots_base [['/']] h (components_slash hnet) (by decide) (by decide),
    normal_base [] (s := s) hroot (names_slash s) not_mem_nil, drop_nil,
    append_nil]
  cases (settle (names s)).2 with
  | zero =>
    rw [drop_zero, reverse_append, reverse_singleton, singleton_append,
      foldl_cons, append_slash hlast, foldl_append_open (.inr hlast) hR]
  | succ k =>
    rw [drop_succ_cons, drop_nil, append_nil, foldl_append_open (.inr hlast) hR]

/-- What the loop makes of two separators, a name and a string of names. -/
def netResult (name : Chars) (settled : List Chars × Nat) : Chars :=
  match settled.2 with
  | 0 => name ++ '/' :: join settled.1.reverse
  | 1 => join (name :: settled.1.reverse)
  | _ => join settled.1.reverse

/-- What the names of it are. -/
def netNormal (name : Chars) (settled : List Chars × Nat) : Chars :=
  if name = ['.'] ∨ name = ['.', '.'] ∨ settled.2 ≠ 0 then join settled.1.reverse
  else join (name :: settled.1.reverse)

theorem append_net (hlast : root.getLast? = some '/') (hw : IsWord .posix w) :
    append .posix root ('/' :: '/' :: w) = root ++ w := by
  simp [append, hlast, is_separator, dropWhile_word hw]

theorem append_slash_word (hw : IsWord .posix w) :
    append .posix (root ++ w) ['/'] = root ++ w ++ ['/'] := by
  have hlast : w.getLast hw.1 ≠ '/' := fun heq => by
    simpa [heq, is_separator] using hw.2 _ (getLast_mem hw.1)
  simp [append, getLast?_append, getLast?_eq_some_getLast hw.1, hlast,
    beginsWithSeparator, is_separator]

theorem remove_dots_netDir (h : Rooted root ('/' :: '/' :: (w ++ '/' :: s)) true)
    (hw : IsWord .posix w) :
    remove_dots .posix (root ++ '/' :: '/' :: (w ++ '/' :: s)) true =
      some (root ++ netResult w (settle (names s))) := by
  obtain ⟨hroot, hlast⟩ := h.endsInSlash
  have hR : ∀ v ∈ (settle (names s)).1.reverse, IsWord .posix v :=
    fun v hv => isWord_settle (mem_reverse.mp hv)
  rw [remove_dots_base [['/'], '/' :: '/' :: w] h (components_netDir hw s) (by simp)
    (by simp), netResult]
  match (settle (names s)).2 with
  | 0 =>
    rw [drop_zero, reverse_append, reverse_cons, reverse_singleton,
      append_assoc, foldl_append, foldl_cons, foldl_nil,
      append_net hlast hw, singleton_append, foldl_cons, append_slash_word hw,
      foldl_append_open (open_append_slash _) hR]
    simp
  | 1 =>
    rw [drop_succ_cons, drop_zero, reverse_append, reverse_singleton,
      singleton_append, foldl_cons, append_net hlast hw, foldl_append_word hw hR,
      append_assoc]
    rfl
  | k + 2 =>
    rw [drop_succ_cons, drop_succ_cons, drop_nil, append_nil, foldl_append_open (.inr hlast) hR]
    rfl

theorem remove_dots_net (h : Rooted root ('/' :: '/' :: w) true) (hw : IsWord .posix w) :
    remove_dots .posix (root ++ '/' :: '/' :: w) true = some (root ++ w) := by
  rw [remove_dots_eq h (components_net hw)]
  simp [cancel, append_net h.endsInSlash.2 hw]

theorem names_word_append (hw : IsWord .posix w) (ht : AtSeparator .posix t) :
    names (w ++ t) = (if w = ['.'] then [] else [w]) ++ names t := by
  rw [names, words_word_append hw ht, names]
  split_ifs with hdot
  · simp [hdot]
  · simp [hdot]

theorem normal_net (hroot : root ≠ []) (hw : IsWord .posix w) (ht : AtSeparator .posix t) :
    normal root ('/' :: '/' :: (w ++ t)) = root ++ netNormal w (settle (names t)) := by
  have hempty : (!root.isEmpty) = true := by simpa using hroot
  have hnames : names ('/' :: '/' :: (w ++ t)) = (if w = ['.'] then [] else [w]) ++ names t := by
    rw [names_slash, names_slash, names_word_append hw ht]
  have hbase (base : List Chars) (h : ['.', '.'] ∉ base) :=
    foldl_cancel_base (names t) h
  rw [normal, hnames, hempty, foldl_append, netNormal]
  by_cases hdot : w = ['.']
  · simp [hdot, hbase [] not_mem_nil]
  · by_cases hdots : w = ['.', '.']
    · simp [hdots, cancel, hbase [] not_mem_nil]
    · have hone : ['.', '.'] ∉ [w] := by simpa using Ne.symm hdots
      cases hk : (settle (names t)).2 with
      | zero | succ k => simp [hdot, hdots, cancel, hbase [w] hone, hk]

/-- The relative part begins with exactly two separators and a name that is not cancelled with
them. -/
def KeepsSlashes (rel : Chars) : Prop :=
  let name := uptoSeparator .posix (rel.drop 2)
  let after := rel.drop (2 + name.length)
  isNet .posix rel = true ∧
    if name = ['.'] ∨ name = ['.', '.'] then after = [] ∨ (settle (names after)).2 ≤ 1
    else after ≠ [] ∧ (settle (names after) = ([], 0) ∨ (settle (names after)).2 = 1)

theorem keepsSlashes_iff (hw : IsWord .posix w) (ht : AtSeparator .posix t) :
    KeepsSlashes ('/' :: '/' :: (w ++ t)) ↔
      if w = ['.'] ∨ w = ['.', '.'] then t = [] ∨ (settle (names t)).2 ≤ 1
      else t ≠ [] ∧ (settle (names t) = ([], 0) ∨ (settle (names t)).2 = 1) := by
  have hupto : uptoSeparator .posix (('/' :: '/' :: (w ++ t)).drop 2) = w :=
    uptoSeparator_append hw.2 ht
  have hafter : ('/' :: '/' :: (w ++ t)).drop (2 + w.length) = t := by
    rw [Nat.add_comm, drop_succ_cons, drop_succ_cons, drop_left]
  rw [KeepsSlashes, hupto, hafter, isNet_net hw]
  exact and_iff_right rfl

theorem length_join_le (Ws : List Chars) :
    (join Ws).length ≤ (Ws.flatMap fun D => '/' :: D).length := by
  cases Ws with
  | nil => exact Nat.le_refl _
  | cons v Ws => simp [join]

theorem netResult_eq_iff (hw : IsWord .posix w) (settled : List Chars × Nat) :
    netResult w settled = netNormal w settled ↔ ¬ if w = ['.'] ∨ w = ['.', '.'] then settled.2 ≤ 1
        else settled = ([], 0) ∨ settled.2 = 1 := by
  obtain ⟨R, k⟩ := settled
  have hpos := length_pos_iff.mpr hw.1
  have hle := length_join_le R.reverse
  have hzero : w ++ '/' :: join R.reverse ≠ join R.reverse := fun heq => by
    have hlen := congrArg List.length heq
    simp at hlen
    omega
  have hone : join (w :: R.reverse) ≠ join R.reverse := fun heq => by
    have hlen := congrArg List.length heq
    rw [join, length_append] at hlen
    omega
  by_cases hdots : w = ['.'] ∨ w = ['.', '.']
  · have hnormal : netNormal w (R, k) = join R.reverse := if_pos (or_assoc.mp (.inl hdots))
    rw [hnormal, if_pos hdots]
    match k with
    | 0 => exact iff_of_false hzero (by simp)
    | 1 => exact iff_of_false hone (by simp)
    | k + 2 => exact iff_of_true rfl (by simp)
  · rw [if_neg hdots]
    match k with
    | 0 =>
      have hnormal : netNormal w (R, 0) = join (w :: R.reverse) := if_neg (by simp [hdots])
      rw [hnormal]
      cases hR : R.reverse with
      | nil => simp [netResult, join, reverse_eq_nil_iff.mp hR]
      | cons C Cs =>
        have hne : R ≠ [] := fun hnil => by simp [hnil] at hR
        simp [netResult, join, hR, hne]
    | 1 =>
      have hnormal : netNormal w (R, 1) = join R.reverse := if_pos (by simp)
      rw [hnormal]
      exact iff_of_false hone (by simp)
    | k + 2 =>
      have hnormal : netNormal w (R, k + 2) = join R.reverse := if_pos (by simp)
      rw [hnormal]
      exact iff_of_true rfl (by simp)

theorem remove_dots_net_iff (h : Rooted root rel true) (hnet : isNet .posix rel = true) :
    remove_dots .posix (root ++ rel) true = some (normal root rel) ↔ ¬ KeepsSlashes rel := by
  obtain ⟨w, t, rfl, hw, ht⟩ := exists_net hnet
  obtain ⟨hroot, -⟩ := h.endsInSlash
  rw [keepsSlashes_iff hw ht, normal_net hroot hw ht]
  rcases atSeparator_cases ht with rfl | ⟨s, rfl⟩
  · rw [append_nil] at h ⊢
    rw [remove_dots_net h hw]
    by_cases hdots : w = ['.'] ∨ w = ['.', '.']
    · simp [netNormal, hdots, names, settle, join, hw.1]
    · simp [netNormal, hdots, names, settle, join]
  · rw [remove_dots_netDir h hw, names_slash, some_inj, append_cancel_left_eq, netResult_eq_iff hw]
    simp

theorem Rooted.absolute_of_begins (h : Rooted root rel absolute)
    (hrel : beginsWithSeparator .posix rel = true) : absolute = true := by
  cases h with
  | relative h => exact absurd hrel (by simp [h])
  | slash _ => rfl
  | net _ => exact absurd hrel Bool.false_ne_true
  | netDir _ => rfl

theorem begins_of_isNet (h : isNet .posix rel = true) : beginsWithSeparator .posix rel = true := by
  obtain ⟨w, t, rfl, -⟩ := exists_net h
  rfl

/-- Dots are removed from a path exactly when the part after the root path does not begin with two
separators that are kept. -/
theorem remove_dots_iff (path : Chars) :
    ∃ root rel, path = root ++ rel ∧ root_path .posix path = some root ∧
      (remove_dots .posix path true = some (normal root rel) ∧
          remove_dots .posix (normal root rel) true = some (normal root rel) ↔
        ¬ KeepsSlashes rel) := by
  obtain ⟨root, rel, absolute, rfl, h⟩ := exists_rooted path
  refine ⟨root, rel, rfl, h.root_path.1, ?_⟩
  rw [and_iff_left (remove_dots_normal h)]
  cases hnet : isNet .posix rel with
  | true =>
    obtain rfl := h.absolute_of_begins (begins_of_isNet hnet)
    exact remove_dots_net_iff h hnet
  | false =>
    refine iff_of_true ?_ fun hkeeps => by simp [KeepsSlashes, hnet] at hkeeps
    cases hbegin : beginsWithSeparator .posix rel with
    | false => exact remove_dots_relative h hbegin
    | true =>
      obtain rfl := h.absolute_of_begins hbegin
      cases rel with
      | nil => exact absurd hbegin Bool.false_ne_true
      | cons c s =>
        obtain rfl := is_separator_posix (c := c) hbegin
        exact remove_dots_slash h hnet

/-- Two separators after the root: a name is not cancelled, and a separator is. -/
theorem not_remove_dots_normal :
    ¬ ∀ path : Chars, ∃ root rel, path = root ++ rel ∧ root_path .posix path = some root ∧
      remove_dots .posix path true = some (normal root rel) ∧
        remove_dots .posix (normal root rel) true = some (normal root rel) := by
  intro h
  obtain ⟨root, rel, hpath, hroot, hnormal, -⟩ := h ['/', '/', '/', 'a', '/', '.', '.', '/', 'b']
  have hslash : root_path .posix ['/', '/', '/', 'a', '/', '.', '.', '/', 'b'] = some ['/'] := by
    decide
  obtain rfl : ['/'] = root := Option.some_inj.mp (hslash.symm.trans hroot)
  obtain rfl := tail_eq_of_cons_eq hpath
  exact absurd hnormal (by decide)

end Zapcc.Path
